import Mathlib.Logic.Basic
import FileSieve.Rule.Key

/-! # Which saved patterns make an ignore list

The text that stands for saved patterns has half a pair standing alone in it only where one of the
patterns has. So the patterns make an ignore list if they are strings, and the list consists of
these strings (`usablePatterns_eq_ok_iff`). -/

namespace FileSieve

theorem mem_intercalate_iff {α : Type} {a : α} {separator : List α} (h : a ∉ separator)
    (texts : List (List α)) :
    a ∈ List.intercalate separator texts ↔ ∃ text ∈ texts, a ∈ text := by
  induction texts with
  | nil => simp
  | cons text more ih =>
    cases more with
    | nil => simp
    | cons next rest =>
      rw [List.intercalate_cons_cons, List.mem_append, List.mem_append, ih]
      simp [h]

theorem error_mem_ruleSetSymbol_iff {half : UInt16} {symbol : Except UInt16 Char} :
    .error half ∈ ruleSetSymbol symbol ↔ symbol = .error half := by
  cases symbol with
  | ok c => simp [ruleSetSymbol]
  | error other => simp [ruleSetSymbol, eq_comm]

theorem error_mem_ruleSetSymbols_iff {half : UInt16} {patterns : List Utf16} :
    .error half ∈ ruleSetSymbols patterns ↔ ∃ pattern ∈ patterns, .error half ∈ pattern.decode := by
  have hquoted (pattern : Utf16) :
      .error half ∈ .ok '"' :: pattern.decode.flatMap ruleSetSymbol ++ [.ok '"'] ↔
        .error half ∈ pattern.decode := by
    simp [error_mem_ruleSetSymbol_iff]
  simp only [ruleSetSymbols, List.mem_append, List.mem_cons, reduceCtorEq, false_or, or_false,
    List.not_mem_nil]
  rw [mem_intercalate_iff (by simp)]
  simp only [List.mem_map, exists_exists_and_eq_and, hquoted]

theorem loneHalves?_ruleSetSymbols {patterns : List Utf16} :
    Utf16.loneHalves? (ruleSetSymbols patterns) = none ↔
      ∀ pattern ∈ patterns, Utf16.loneHalves? pattern.decode = none := by
  simp only [Utf16.loneHalves?_eq_none_iff, error_mem_ruleSetSymbols_iff, not_exists, not_and]
  exact ⟨fun h pattern hp half => h half pattern hp, fun h half pattern hp => h pattern hp half⟩

theorem filterMap_toString?_map_ofString (strings : List String) :
    (strings.map Utf16.ofString).filterMap Utf16.toString? = strings := by
  simp only [List.filterMap_map, Function.comp_def, Utf16.toString?_ofString, List.filterMap_some]

theorem map_ofString_inj {strings others : List String} :
    strings.map Utf16.ofString = others.map Utf16.ofString ↔ strings = others := by
  constructor
  · intro h
    have hs := congrArg (List.filterMap Utf16.toString?) h
    rwa [filterMap_toString?_map_ofString, filterMap_toString?_map_ofString] at hs
  · rintro rfl
    rfl

/-- Saved patterns make an ignore list if they are its strings. -/
theorem usablePatterns_eq_ok_iff {patterns : List Utf16} {strings : List String} :
    usablePatterns patterns = .ok strings ↔ patterns = strings.map Utf16.ofString := by
  constructor
  · intro h
    rw [usablePatterns] at h
    split at h
    · cases h
    · next hn =>
      have hall := loneHalves?_ruleSetSymbols.1 hn
      have hstrings : ∃ strings : List String, patterns = strings.map Utf16.ofString := by
        clear h hn
        induction patterns with
        | nil => exact ⟨[], rfl⟩
        | cons pattern patterns ih =>
          rw [List.forall_mem_cons] at hall
          obtain ⟨s, rfl⟩ := Utf16.exists_ofString hall.1
          obtain ⟨more, rfl⟩ := ih hall.2
          exact ⟨s :: more, rfl⟩
      obtain ⟨strings', rfl⟩ := hstrings
      rw [filterMap_toString?_map_ofString] at h
      cases h
      rfl
  · rintro rfl
    have hn : Utf16.loneHalves? (ruleSetSymbols (strings.map Utf16.ofString)) = none := by
      rw [loneHalves?_ruleSetSymbols, List.forall_mem_map]
      intro s _
      rw [Utf16.decode_ofString]
      exact Utf16.loneHalves?_map_ok s.toList
    rw [usablePatterns, hn]
    exact congrArg Except.ok (filterMap_toString?_map_ofString strings)

end FileSieve
