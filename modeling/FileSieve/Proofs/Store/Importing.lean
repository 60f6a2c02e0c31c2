import FileSieve.CommandLine.Run
import FileSieve.Proofs.Rule.Usable
import FileSieve.Proofs.Store.Normalization
import FileSieve.Proofs.Store.Storing

/-! # Saved and imported ignore lists

A list that was saved is loaded as it was normalized. So a scan after an ignore file was imported
decides as a scan with that file and the list that was saved before. -/

namespace FileSieve

open Host Program

/-! ### Documents of patterns -/

namespace Store

theorem writable_patternsDocument (patterns : List Utf16) :
    Json.Writable Json.nestingLimit (patternsDocument patterns) := by
  apply Json.Writable.array
  intro item hi
  obtain ⟨pattern, -, rfl⟩ := List.mem_map.1 hi
  apply Json.Writable.object
  · intro field hf
    rw [List.mem_singleton.1 hf]
    exact .string _ pattern
  · exact List.pairwise_singleton _ _

theorem patternsOf_patternsDocument (patterns : List Utf16) :
    patternsOf (patternsDocument patterns) = patterns := by
  have hitem (pattern : Utf16) :
      ((Json.object [("pattern", .string pattern)]).field? "pattern").bind Json.string? =
        some pattern := by
    simp [Json.field?, Json.string?]
  simp only [patternsOf, patternsDocument, Json.array?, Option.getD_some, List.filterMap_map,
    Function.comp_def, hitem, List.filterMap_some]

/-! ### Loading, saving and importing -/

variable {m n : Model} {places : Places} {name : String}

theorem looksT_loadPatterns (places : Places) : LooksT (loadPatterns places) :=
  (looksT_read places.patterns).bind fun document =>
    looksT_pure ((document.map patternsOf).getD [])

/-- The list that is loaded on a host, or why reading stops. -/
def loaded (places : Places) (m : Model) : Except Json.Overflow (List Utf16) :=
  (loadPatterns places).run.eval m.reply

theorem loaded_eq_of_sameFiles (h : m.SameFiles n) : loaded places n = loaded places m :=
  h.eval_eq (looksT_loadPatterns places)

theorem loaded_eq (places : Places) (m : Model) :
    loaded places m =
      (document m places.patterns).map fun data => (data.map patternsOf).getD [] := by
  rw [loaded, loadPatterns, eval_run_bind, ← document]
  cases document m places.patterns <;> rfl

theorem exists_run_loadPatterns (places : Places) (m : Model) :
    ∃ n, m.run (loadPatterns places).run = (loaded places m, n) ∧ m.SameFiles n := by
  obtain ⟨n, hn, hlike⟩ := Model.exists_run_of_looks (looksT_loadPatterns places) m
  exact ⟨n, hn, hlike.toSameFiles⟩

/-- A list that was saved is loaded as it was normalized. -/
theorem run_savePatterns (h : canWrite m places.patterns = true) (patterns : List Utf16) :
    ∃ n, m.run (savePatterns places patterns) = (normalize patterns, n) ∧
      loaded places n = .ok (normalize patterns) := by
  obtain ⟨n, hn, hdoc⟩ := exists_run_write h (writable_patternsDocument (normalize patterns))
  refine ⟨n, Model.run_bind_of_eq hn _, ?_⟩
  rw [loaded_eq, hdoc]
  exact congrArg Except.ok (patternsOf_patternsDocument (normalize patterns))

/-- A list is saved, and an answer is made of what was saved. -/
theorem exists_run_saving {α : Type} (h : canWrite m places.patterns = true)
    (patterns : List Utf16) (f : List Utf16 → α) :
    ∃ n, m.run (do return f (← savePatterns places patterns) : Reading α).run =
        (.ok (f (normalize patterns)), n) ∧ loaded places n = .ok (normalize patterns) := by
  obtain ⟨n, hn, hl⟩ := run_savePatterns h patterns
  refine ⟨n, ?_, hl⟩
  rw [Model.runT_lift_bind, hn]
  rfl

/-- The patterns of an ignore file that was imported stand behind those that were saved before. If
the file holds none, nothing is read or written. -/
theorem run_importPatterns {bytes : List UInt8} {list : List Utf16}
    (hr : m.disk.read m.directory (PathName.normalize name) = .ok bytes)
    (hl : loaded places m = .ok list)
    (h : parseIgnoreText (ignoreTextOf bytes) ≠ [] → canWrite m places.patterns = true) :
    let imported := parseIgnoreText (ignoreTextOf bytes)
    let all := list ++ imported.map Utf16.ofString
    ∃ n, m.run (importPatterns places name).run =
        (.ok (.ok (if imported = [] then 0
          else (normalize all).length - (normalize list).length)), n) ∧
      loaded places n = .ok (if imported = [] then list else normalize all) := by
  intro imported all
  have hread : m.run (readFile (PathName.normalize name)) = (.ok bytes, m) := by
    rw [← hr]
    rfl
  rw [importPatterns, Model.runT_lift_bind, hread]
  dsimp only
  by_cases hi : imported = []
  · refine ⟨m, ?_, by rw [if_pos hi, hl]⟩
    rw [if_pos (List.isEmpty_iff.2 hi), if_pos hi]
    rfl
  · obtain ⟨o, hload, hsame⟩ := exists_run_loadPatterns places m
    rw [hl] at hload
    have hwrite := h hi
    rw [← canWrite_eq_of_sameFiles hsame] at hwrite
    obtain ⟨n, hn, hsaved⟩ := exists_run_saving hwrite all
      fun saved => (Except.ok (saved.length - (normalize list).length) : Except FileProblem Nat)
    refine ⟨n, ?_, ?_⟩
    · rw [if_neg (mt List.isEmpty_iff.1 hi), if_neg hi, Model.runT_bind_of_eq hload]
      exact hn
    · rw [if_neg hi, hsaved]

end Store

end FileSieve
