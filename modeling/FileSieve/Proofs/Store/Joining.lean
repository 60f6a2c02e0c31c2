import FileSieve.Proofs.Store.PatternList

/-! # Ignore lists that are joined and saved again

A list that is put behind another adds what is not in it yet. A list that was normalized stays as it
is, also when it has been written and read. -/

namespace FileSieve.Store

open Host

theorem normalize_singleton (pattern : Utf16) :
    normalize [pattern] = if pattern.trim = "" then [] else [pattern.trim] := by
  rw [normalize, List.map_singleton]
  split
  · next h =>
    rw [List.filter_cons_of_neg (by simpa using h)]
    rfl
  · next h =>
    rw [List.filter_cons_of_pos (by simpa using h)]
    rfl

/-- Behind a list, the patterns of another one stay that are not in it. -/
theorem normalize_append (patterns more : List Utf16) :
    normalize (patterns ++ more) =
      normalize patterns ++ (normalize more).filter (· ∉ normalize patterns) := by
  have hmem (pattern : Utf16) : pattern ∈ normalize patterns ↔
      pattern ∈ (patterns.map Utf16.trim).filter (· ≠ ("" : Utf16)) :=
    mem_dropRepeats_iff.trans (and_iff_left List.not_mem_nil)
  have hnew : (normalize more).filter (· ∉ normalize patterns) =
      (normalize more).filter (· ∉ (patterns.map Utf16.trim).filter (· ≠ ("" : Utf16))) :=
    List.filter_congr fun pattern _ => decide_eq_decide.2 (not_congr (hmem pattern))
  rw [hnew, normalize, List.map_append, List.filter_append, dropRepeats_append]
  rfl

theorem normalize_normalize (patterns : List Utf16) :
    normalize (normalize patterns) = normalize patterns :=
  (tidy_normalize patterns).normalize

/-- A list is read back from the document that it is written to. -/
theorem patternsOf_decode (patterns : List Utf16) :
    (decode (Text.toUtf8 (encode (patternsDocument patterns)))).map patternsOf = .ok patterns := by
  rw [decode_encode (writable_patternsDocument patterns)]
  exact congrArg Except.ok (patternsOf_patternsDocument patterns)

/-- What normalizing comes to on no pattern, on one, and on a list behind another. So it changes
nothing the second time, and whatever a document holds, its normalized patterns are what is read
once they have been written. -/
theorem normalize_joined_and_saved :
    normalize [] = [] ∧
    (∀ pattern : Utf16,
      normalize [pattern] = if pattern.trim = "" then [] else [pattern.trim]) ∧
    (∀ patterns more, normalize (patterns ++ more) =
      normalize patterns ++ (normalize more).filter (· ∉ normalize patterns)) ∧
    (∀ patterns, normalize (normalize patterns) = normalize patterns) ∧
    ∀ data : Json,
      let kept := normalize (patternsOf data)
      patternsOf (patternsDocument kept) = kept ∧
      (decode (Text.toUtf8 (encode (patternsDocument kept)))).map patternsOf = .ok kept ∧
      ∀ m places, canWrite m places.patterns = true →
        ∃ n, m.run (savePatterns places (patternsOf data)) = (kept, n) ∧
          loaded places n = .ok kept := by
  refine ⟨rfl, normalize_singleton, normalize_append, normalize_normalize, ?_⟩
  intro data kept
  exact ⟨patternsOf_patternsDocument kept, patternsOf_decode kept,
    fun m places hw => run_savePatterns hw (patternsOf data)⟩

/-- A document with a pattern that is blank, one that comes twice, and an item that is no pattern. -/
theorem normalize_joined_and_saved_mixed :
    let pattern (text : Utf16) := Json.object [("pattern", .string text)]
    let data := Json.array [pattern " a ", .int 3, pattern "!b", pattern "\t", pattern "a"]
    let kept : List Utf16 := ["a", "!b"]
    let places := Places.inDirectory "/store"
    let m : Model := { disk := { items := [] } }
    canWrite m places.patterns = true ∧
      ∃ n, m.run (savePatterns places (patternsOf data)) = (kept, n) ∧
        loaded places n = .ok kept := by
  intro pattern data kept places m
  have hw : canWrite m places.patterns = true := by decide +kernel
  obtain ⟨n, hn, hl⟩ := (normalize_joined_and_saved.2.2.2.2 data).2.2 m places hw
  have hkept : normalize (patternsOf data) = kept := by decide +kernel
  rw [hkept] at hn hl
  exact ⟨hw, n, hn, hl⟩

end FileSieve.Store
