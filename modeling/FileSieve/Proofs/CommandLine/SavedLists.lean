import FileSieve.Proofs.CommandLine.Gathering

/-! # What saved and imported lists hide

A saved list decides as the list that was given, and a scan after an ignore file was imported as a
scan with that file, as long as no pattern comes again behind one of the other sign where both
accept the same path. -/

namespace FileSieve

open Host Program

namespace CommandLine

variable {m n : Model} {setting : Setting} {name : String}

theorem editStores_import (places : Store.Places) (name : String) :
    editStores places { importGitignore := some (.given name) } =
      onStores (Store.importPatterns places name) >>= fun result =>
        readIgnoreFile name result >>= fun count =>
          (liftM (print ("Imported " ++ toString count ++ " new patterns\n")) : Task _) >>= fun _ =>
            pure true := rfl

theorem run_editStores_import {places : Store.Places} {count : Nat}
    (h : m.run (Store.importPatterns places name).run = (.ok (.ok count), n)) :
    ∃ o, m.run (editStores places { importGitignore := some (.given name) }).run = (.ok true, o) ∧
      n.SameFiles o := by
  refine ⟨(n.run (print ("Imported " ++ toString count ++ " new patterns\n"))).2, ?_, rfl, rfl⟩
  rw [editStores_import, Model.runT_bind_of_eq (run_onStores_eq_ok_iff.2 h)]
  rfl

/-- The list that is loaded after an import. -/
theorem loaded_perform_import {bytes : List UInt8} {list : List Utf16}
    (hw : Store.canWrite m setting.places.patterns = true)
    (hr : m.disk.read m.directory (PathName.normalize name) = .ok bytes)
    (hl : Store.loaded setting.places m = .ok list) :
    let imported := Store.parseIgnoreText (Store.ignoreTextOf bytes)
    Store.loaded setting.places
        (m.run (perform setting { importGitignore := some (.given name) }).run).2 =
      .ok (if imported = [] then list
        else Store.normalize (list ++ imported.map Utf16.ofString)) := by
  intro imported
  let threshold := Log.effective (Log.threshold none setting.environmentLevel)
  have hfrom : m.SameFiles (m.run (logFrom threshold)).2 := ⟨rfl, rfl⟩
  rw [← Store.canWrite_eq_of_sameFiles hfrom] at hw
  rw [← Store.loaded_eq_of_sameFiles hfrom] at hl
  obtain ⟨n, hn, hafter⟩ :=
    Store.run_importPatterns (m := (m.run (logFrom threshold)).2) hr hl fun _ => hw
  obtain ⟨o, ho, hsame⟩ := run_editStores_import hn
  rw [perform, Model.runT_lift_bind, Model.runT_bind_of_eq ho, ← hafter]
  exact Store.loaded_eq_of_sameFiles hsame

/-- A scan after an import takes the list that the given one is saved as, or the given one itself if
there was nothing to import. -/
theorem gathered_after_import {more patterns : List String}
    (hw : Store.canWrite m setting.places.patterns = true)
    (hg : (m.run (gatherPatterns setting.places
      { gitignore := [.given name], ignore := more }).run).1 = .ok patterns) :
    ∃ given kept, patterns = given ++ more ∧ (kept = given ∨ kept = Store.saved given) ∧
      ((m.run (perform setting { importGitignore := some (.given name) }).run).2.run
        (gatherPatterns setting.places { ignore := more }).run).1 = .ok (kept ++ more) := by
  rw [(Model.run_of_looks (looksT_gatherPatterns _ _) _).1] at hg
  obtain ⟨list, bytes, hl, hr, hpatterns⟩ := eval_gatherPatterns_file hg
  have hloaded := @loaded_perform_import m setting name bytes list hw hr hl
  rw [List.map_append, ← List.append_assoc, eq_comm, List.map_eq_append_iff] at hpatterns
  obtain ⟨given, behind, rfl, hgiven, hbehind⟩ := hpatterns
  rw [map_ofString_inj] at hbehind
  dsimp only at hloaded
  rw [← hgiven, Store.normalize_map_ofString] at hloaded
  have hgather {kept : List String} (hk : Store.loaded setting.places
      (m.run (perform setting { importGitignore := some (.given name) }).run).2 =
        .ok (kept.map Utf16.ofString)) :
      ((m.run (perform setting { importGitignore := some (.given name) }).run).2.run
        (gatherPatterns setting.places { ignore := more }).run).1 = .ok (kept ++ more) := by
    rw [(Model.run_of_looks (looksT_gatherPatterns _ _) _).1]
    apply eval_gatherPatterns_saved hk
    rw [List.map_append]
  by_cases hi : Store.parseIgnoreText (Store.ignoreTextOf bytes) = []
  · refine ⟨given, given, by rw [hbehind], .inl rfl, hgather ?_⟩
    rw [hloaded, if_pos hi, hgiven, hi, List.map_nil, List.append_nil]
  · refine ⟨given, Store.saved given, by rw [hbehind], .inr rfl, hgather ?_⟩
    rw [hloaded, if_neg hi]

/-- Saving a list does not change what it hides, and neither does importing an ignore file instead
of giving it to the scan, unless a pattern comes again behind one of the other sign and both accept
the path or a directory above it. -/
theorem isIgnored_kept :
    (∀ patterns, ∃ kept,
      usablePatterns (Store.normalize (patterns.map Utf16.ofString)) = .ok kept ∧
      ∀ path, (∀ judged ∈ deciding path, ¬Store.Flips patterns judged) →
        isIgnored (compileRules kept) path = isIgnored (compileRules patterns) path) ∧
    ∀ (m : Model) (setting : Setting) (name : String) (more patterns : List String),
      Store.canWrite m setting.places.patterns = true →
      (m.run (gatherPatterns setting.places
        { gitignore := [.given name], ignore := more }).run).1 = .ok patterns →
      ∃ kept, ((m.run (perform setting { importGitignore := some (.given name) }).run).2.run
          (gatherPatterns setting.places { ignore := more }).run).1 = .ok kept ∧
        ∀ path, (∀ judged ∈ deciding path, ¬Store.Flips patterns judged) →
          isIgnored (compileRules kept) path = isIgnored (compileRules patterns) path := by
  constructor
  · intro patterns
    refine ⟨Store.saved patterns, ?_, ?_⟩
    · rw [usablePatterns_eq_ok_iff, Store.normalize_map_ofString]
    · intro path hp
      have hsame := Store.isIgnored_saved hp []
      rwa [List.append_nil, List.append_nil] at hsame
  · intro m setting name more patterns hw hg
    obtain ⟨given, kept, rfl, hkept, hafter⟩ := gathered_after_import hw hg
    refine ⟨kept ++ more, hafter, ?_⟩
    intro path hp
    rcases hkept with rfl | rfl
    · rfl
    · apply Store.isIgnored_saved
      intro judged hj hflips
      exact hp judged hj (hflips.mono (List.sublist_append_left given more))

/-- A project with an ignore file, in which a pattern comes again behind one of the other sign. -/
def exampleHost : Model where
  disk := { items := [(["rules"], .file (Text.toUtf8 "*.log\n!keep.log\n*.log\n"))] }

def exampleSetting : Setting where
  places := .inDirectory "/store"

theorem isIgnored_kept_debug_log :
    ((∀ judged ∈ deciding "debug.log", ¬Store.Flips ["*.log", "!keep.log", " *.log "] judged) ∧
      ∃ kept, usablePatterns (Store.normalize
          (["*.log", "!keep.log", " *.log "].map Utf16.ofString)) = .ok kept ∧
        isIgnored (compileRules kept) "debug.log" = true) ∧
    Store.canWrite exampleHost exampleSetting.places.patterns = true ∧
    (exampleHost.run (gatherPatterns exampleSetting.places
      { gitignore := [.given "/rules"], ignore := ["!x"] }).run).1 =
        .ok ["*.log", "!keep.log", "*.log", "!x"] ∧
    (∀ judged ∈ deciding "debug.log", ¬Store.Flips ["*.log", "!keep.log", "*.log", "!x"] judged) ∧
    ∃ kept, ((exampleHost.run
        (perform exampleSetting { importGitignore := some (.given "/rules") }).run).2.run
          (gatherPatterns exampleSetting.places { ignore := ["!x"] }).run).1 = .ok kept ∧
      isIgnored (compileRules kept) "debug.log" = true := by
  have hlist : ∀ judged ∈ deciding "debug.log",
      ¬Store.Flips ["*.log", "!keep.log", " *.log "] judged := by decide +kernel
  have hwrite : Store.canWrite exampleHost exampleSetting.places.patterns = true := by
    decide +kernel
  have hgiven : (exampleHost.run (gatherPatterns exampleSetting.places
      { gitignore := [.given "/rules"], ignore := ["!x"] }).run).1 =
        .ok ["*.log", "!keep.log", "*.log", "!x"] := by decide +kernel
  have hflips : ∀ judged ∈ deciding "debug.log",
      ¬Store.Flips ["*.log", "!keep.log", "*.log", "!x"] judged := by decide +kernel
  obtain ⟨kept, hkept, hsame⟩ := isIgnored_kept.1 ["*.log", "!keep.log", " *.log "]
  obtain ⟨after, hafter, hlater⟩ := isIgnored_kept.2 exampleHost exampleSetting "/rules" ["!x"]
    ["*.log", "!keep.log", "*.log", "!x"] hwrite hgiven
  refine ⟨⟨hlist, kept, hkept, ?_⟩, hwrite, hgiven, hflips, after, hafter, ?_⟩
  · rw [hsame "debug.log" hlist]
    decide +kernel
  · rw [hlater "debug.log" hflips]
    decide +kernel

/-- A pattern that comes again behind its negation is lost in saving, and with it what it hides. -/
theorem kept_shows_ignored :
    isIgnored (compileRules ["a", "!a", "a"]) "a" = true ∧
      usablePatterns (Store.normalize (["a", "!a", "a"].map Utf16.ofString)) = .ok ["a", "!a"] ∧
      isIgnored (compileRules ["a", "!a"]) "a" = false := by
  refine ⟨by decide +kernel, ?_, by decide +kernel⟩
  rw [usablePatterns_eq_ok_iff]
  decide +kernel

end CommandLine

end FileSieve
