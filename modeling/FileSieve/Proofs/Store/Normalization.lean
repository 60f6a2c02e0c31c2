import Mathlib.Data.List.Sublists
import FileSieve.Proofs.Rule.LastMatch
import FileSieve.Proofs.Text.Trimming
import FileSieve.Rule.Key
import FileSieve.Store.Patterns

/-! # What a saved ignore list hides

Saving trims patterns, drops blank ones and keeps the first of equal ones, while the last rule that
accepts a path decides about it. So a saved list decides as the given one does, unless a pattern
comes again behind one of the other sign that accepts the same path. -/

namespace FileSieve

/-! ### Dropping repeats -/

namespace Store

variable {seen patterns : List Utf16} {pattern : Utf16}

theorem dropRepeats_cons_of_mem (h : pattern ∈ seen) (rest : List Utf16) :
    dropRepeats seen (pattern :: rest) = dropRepeats seen rest := by
  rw [dropRepeats, if_pos (List.contains_iff_mem.2 h)]

theorem dropRepeats_cons_of_not_mem (h : pattern ∉ seen) (rest : List Utf16) :
    dropRepeats seen (pattern :: rest) = pattern :: dropRepeats (pattern :: seen) rest := by
  rw [dropRepeats, if_neg (mt List.contains_iff_mem.1 h)]

theorem dropRepeats_sublist (seen patterns : List Utf16) :
    (dropRepeats seen patterns).Sublist patterns := by
  induction patterns generalizing seen with
  | nil => exact .slnil
  | cons pattern rest ih =>
    by_cases h : pattern ∈ seen
    · rw [dropRepeats_cons_of_mem h]
      exact (ih seen).cons pattern
    · rw [dropRepeats_cons_of_not_mem h]
      exact (ih (pattern :: seen)).cons_cons pattern

theorem mem_dropRepeats_iff :
    pattern ∈ dropRepeats seen patterns ↔ pattern ∈ patterns ∧ pattern ∉ seen := by
  induction patterns generalizing seen with
  | nil => simp [dropRepeats]
  | cons first rest ih =>
    by_cases h : first ∈ seen
    · rw [dropRepeats_cons_of_mem h, ih, List.mem_cons]
      constructor
      · exact fun hp => ⟨.inr hp.1, hp.2⟩
      · rintro ⟨rfl | hp, hn⟩
        · exact absurd h hn
        · exact ⟨hp, hn⟩
    · rw [dropRepeats_cons_of_not_mem h, List.mem_cons, ih, List.mem_cons, List.mem_cons, not_or]
      by_cases hp : pattern = first
      · simp [hp, h]
      · simp [hp]

/-- A pattern at the end is kept unless it has come before. -/
theorem dropRepeats_concat (seen patterns : List Utf16) (pattern : Utf16) :
    dropRepeats seen (patterns ++ [pattern]) =
      dropRepeats seen patterns ++
        if pattern ∈ seen ∨ pattern ∈ patterns then [] else [pattern] := by
  induction patterns generalizing seen with
  | nil =>
    by_cases h : pattern ∈ seen
    · simp [dropRepeats_cons_of_mem h, h, dropRepeats]
    · simp [dropRepeats_cons_of_not_mem h, h, dropRepeats]
  | cons first rest ih =>
    rw [List.cons_append]
    by_cases h : first ∈ seen
    · have hiff : (pattern ∈ seen ∨ pattern ∈ first :: rest) ↔ (pattern ∈ seen ∨ pattern ∈ rest) := by
        rw [List.mem_cons]
        exact ⟨fun hp => hp.elim .inl fun hp => hp.elim (fun hp => .inl (hp ▸ h)) .inr,
          fun hp => hp.imp_right .inr⟩
      rw [dropRepeats_cons_of_mem h, dropRepeats_cons_of_mem h, ih, if_congr hiff rfl rfl]
    · have hiff : (pattern ∈ seen ∨ pattern ∈ first :: rest) ↔
          (pattern ∈ first :: seen ∨ pattern ∈ rest) := by
        rw [List.mem_cons, List.mem_cons, or_left_comm, or_assoc]
      rw [dropRepeats_cons_of_not_mem h, dropRepeats_cons_of_not_mem h, ih, if_congr hiff rfl rfl,
        List.cons_append]

/-- What comes behind some patterns is kept as it would be alone, apart from them. -/
theorem dropRepeats_append (seen patterns more : List Utf16) :
    dropRepeats seen (patterns ++ more) =
      dropRepeats seen patterns ++ (dropRepeats seen more).filter (· ∉ patterns) := by
  induction more using List.reverseRecOn with
  | nil => simp [dropRepeats]
  | append_singleton more pattern ih =>
    have hlast : (if pattern ∈ seen ∨ pattern ∈ patterns ++ more then [] else [pattern]) =
        (if pattern ∈ seen ∨ pattern ∈ more then [] else [pattern]).filter (· ∉ patterns) := by
      by_cases hp : pattern ∈ patterns
      · rw [if_pos (.inr (List.mem_append_left more hp))]
        split
        · rfl
        · rw [List.filter_cons_of_neg (by simpa using hp), List.filter_nil]
      · have hiff : pattern ∈ patterns ++ more ↔ pattern ∈ more :=
          List.mem_append.trans (or_iff_right hp)
        rw [if_congr (or_congr_right hiff) rfl rfl]
        split
        · rfl
        · rw [List.filter_cons_of_pos (by simpa using hp), List.filter_nil]
    rw [← List.append_assoc, dropRepeats_concat, dropRepeats_concat, ih, hlast,
      List.filter_append, List.append_assoc]

/-- If the last one of some patterns that say anything says the opposite of one of them, it comes
after that one. -/
theorem pair_sublist_of_getLast? {f : Utf16 → Option Bool} {sign other : Bool}
    (hm : pattern ∈ patterns) (hf : f pattern = some sign)
    (hl : (patterns.filterMap f).getLast? = some other) (hne : other ≠ sign) :
    ∃ between, f between = some other ∧ [pattern, between].Sublist patterns := by
  obtain ⟨front, hfront⟩ := List.getLast?_eq_some_iff.1 hl
  obtain ⟨before, tail, rfl, -, htail⟩ := List.filterMap_eq_append_iff.1 hfront
  obtain ⟨gap, between, rest, rfl, -, hb, hrest⟩ := List.filterMap_eq_cons_iff.1 htail
  refine ⟨between, hb, ?_⟩
  have hbefore : pattern ∈ before ++ gap := by
    rw [← List.append_assoc, List.mem_append, List.mem_cons] at hm
    rcases hm with hm | rfl | hm
    · exact hm
    · exact absurd (Option.some.inj (hb.symm.trans hf)) hne
    · rw [List.filterMap_eq_nil_iff.1 hrest pattern hm] at hf
      cases hf
  rw [← List.append_assoc]
  exact (List.singleton_sublist.2 hbefore).append
    (List.singleton_sublist.2 (List.mem_cons_self (a := between) (l := rest)))

/-- What the last pattern with something to say says is the same without repeats, unless a pattern
comes again behind one that says the opposite. -/
theorem getLast?_dropRepeats {f : Utf16 → Option Bool} (patterns : List Utf16)
    (h : ∀ first between sign, [first, between, first].Sublist patterns → f first = some sign →
      f between ≠ some !sign) :
    ((dropRepeats [] patterns).filterMap f).getLast? = (patterns.filterMap f).getLast? := by
  induction patterns using List.reverseRecOn with
  | nil => rfl
  | append_singleton patterns pattern ih =>
    have hrest := ih fun first between sign hs =>
      h first between sign (hs.trans (List.sublist_append_left _ _))
    rw [dropRepeats_concat, List.filterMap_append, List.filterMap_append]
    cases hf : f pattern with
    | none => split <;> simpa [hf] using hrest
    | some sign =>
      have hlast : (patterns.filterMap f ++ [pattern].filterMap f).getLast? = some sign := by
        simp [hf]
      rw [hlast]
      split
      · next hp =>
        have hmem : pattern ∈ dropRepeats [] patterns :=
          mem_dropRepeats_iff.2 ⟨hp.resolve_left List.not_mem_nil, List.not_mem_nil⟩
        rw [List.filterMap_nil, List.append_nil]
        obtain ⟨other, ho⟩ : ∃ other, ((dropRepeats [] patterns).filterMap f).getLast? = some other :=
          ⟨_, List.getLast?_eq_some_getLast
            (List.ne_nil_of_mem (List.mem_filterMap.2 ⟨pattern, hmem, hf⟩))⟩
        rw [ho]
        by_cases hne : other = sign
        · rw [hne]
        · -- the last of the kept patterns then stands between two occurrences of this one
          obtain ⟨between, hb, hs⟩ := pair_sublist_of_getLast? hmem hf ho hne
          have hagain := (hs.trans (dropRepeats_sublist [] patterns)).append
            (List.Sublist.refl [pattern])
          rw [Bool.eq_not_of_ne hne] at hb
          exact absurd hb (h pattern between sign hagain hf)
      · simp [hf]

end Store

/-! ### What patterns say about a path -/

/-- What a pattern says about a path that it accepts: whether it takes the path back out. -/
def signAt (path : List Char) (pattern : String) : Option Bool :=
  (Rule.ofLine? pattern).bind fun rule => if rule.accepts path then some rule.negated else none

theorem signAt_trim (path : List Char) (pattern : String) :
    signAt path (Text.trim pattern) = signAt path pattern := by
  have hline : Line.ofText (Text.trim pattern) = Line.ofText pattern := by
    rw [Line.ofText, Line.ofText, Text.trim_trim]
  rw [signAt, signAt, Rule.ofLine?, Rule.ofLine?, hline]
  cases Line.ofText pattern <;> rfl

theorem excludes_concat {α : Type} [PathRule α] (rules : List α) (rule : α) (path : List Char) :
    excludes (rules ++ [rule]) path =
      if PathRule.accepts rule path then !PathRule.negated rule else excludes rules path := by
  rw [excludes, excludes, lastMatch_concat]
  by_cases h : PathRule.accepts rule path = true
  · simp [h]
  · simp [h]

/-- The last pattern that says something decides. -/
theorem excludes_compileRules (patterns : List String) (path : List Char) :
    excludes (compileRules patterns) path =
      ((patterns.filterMap (signAt path)).getLast? == some false) := by
  induction patterns using List.reverseRecOn with
  | nil => rfl
  | append_singleton patterns pattern ih =>
    rw [compileRules, List.filterMap_append, List.filterMap_append, ← compileRules]
    cases hr : Rule.ofLine? pattern with
    | none =>
      have hs : signAt path pattern = none := by rw [signAt, hr]; rfl
      simpa [hr, hs] using ih
    | some rule =>
      have hs : signAt path pattern = if rule.accepts path then some rule.negated else none := by
        rw [signAt, hr]
        rfl
      rw [List.filterMap_cons_some hr, List.filterMap_nil, excludes_concat, ih]
      change (if rule.accepts path then !rule.negated else _) = _
      by_cases ha : rule.accepts path = true
      · simp [hs, ha]
      · simp [hs, ha]

/-- The paths that decide about a path: the path itself and the directories above it. -/
def deciding (path : String) : List (List Char) :=
  path.toList :: (ancestors path.toList).map (· ++ ['/'])

theorem isIgnored_eq_any {α : Type} [PathRule α] (rules : List α) (path : String) :
    isIgnored rules path = (deciding path).any (excludes rules) := by
  rw [isIgnored, excludedAncestor, deciding, List.any_cons, Bool.eq_iff_iff, Bool.or_eq_true,
    Bool.or_eq_true, List.find?_isSome, List.any_eq_true]

namespace Store

/-- A pattern comes again behind one of the other sign, and both accept a path. -/
def Flips (patterns : List String) (path : List Char) : Prop :=
  ∃ first between again sign, [first, between, again].Sublist patterns ∧
    Text.trim first = Text.trim again ∧ signAt path first = some sign ∧
    signAt path between = some !sign

/-- Whether three patterns are such a pattern, the one that it comes behind, and the pattern that
comes again. -/
def isFlip (path : List Char) : List String → Bool
  | [first, between, again] =>
    Text.trim first = Text.trim again &&
      (signAt path first).any fun sign => signAt path between = some !sign
  | _ => false

theorem flips_iff {patterns : List String} {path : List Char} :
    Flips patterns path ↔ ∃ triple ∈ patterns.sublists, isFlip path triple = true := by
  constructor
  · rintro ⟨first, between, again, sign, hsub, hkey, hfirst, hbetween⟩
    refine ⟨_, List.mem_sublists.2 hsub, ?_⟩
    simp [isFlip, hkey, hfirst, hbetween]
  · rintro ⟨triple, hsub, hflip⟩
    unfold isFlip at hflip
    split at hflip
    · next first between again =>
      simp only [Bool.and_eq_true, decide_eq_true_eq, Option.any_eq_true] at hflip
      obtain ⟨hkey, sign, hfirst, hbetween⟩ := hflip
      exact ⟨first, between, again, sign, List.mem_sublists.1 hsub, hkey, hfirst, hbetween⟩
    · cases hflip

instance (patterns : List String) (path : List Char) : Decidable (Flips patterns path) :=
  decidable_of_iff _ flips_iff.symm

theorem Flips.mono {patterns more : List String} {path : List Char} (h : Flips patterns path)
    (hs : patterns.Sublist more) : Flips more path := by
  obtain ⟨first, between, again, sign, hsub, hrest⟩ := h
  exact ⟨first, between, again, sign, hsub.trans hs, hrest⟩

/-- The patterns that are saved of a list. -/
def saved (patterns : List String) : List String :=
  (normalize (patterns.map Utf16.ofString)).filterMap Utf16.toString?

/-- A pattern as it is saved. -/
def key (pattern : String) : Utf16 := Utf16.ofString (Text.trim pattern)

theorem key_inj {first again : String} (h : key first = key again) :
    Text.trim first = Text.trim again := by
  have hs := congrArg Utf16.toString? h
  rw [key, key, Utf16.toString?_ofString, Utf16.toString?_ofString] at hs
  exact Option.some.inj hs

theorem map_trim_ofString (patterns : List String) :
    (patterns.map Utf16.ofString).map Utf16.trim = patterns.map key := by
  rw [List.map_map]
  exact List.map_congr_left fun pattern _ => Utf16.trim_ofString pattern

/-- The patterns that are saved of strings are strings. -/
theorem normalize_map_ofString (patterns : List String) :
    normalize (patterns.map Utf16.ofString) = (saved patterns).map Utf16.ofString := by
  have hstrings : ∀ pattern ∈ normalize (patterns.map Utf16.ofString),
      pattern.toString?.map Utf16.ofString = some pattern := by
    intro pattern hp
    rw [normalize, map_trim_ofString] at hp
    obtain ⟨s, -, rfl⟩ := List.mem_map.1
      (List.mem_of_mem_filter ((dropRepeats_sublist _ _).subset hp))
    rw [key, Utf16.toString?_ofString]
    rfl
  rw [saved, List.map_filterMap, List.filterMap_congr hstrings, List.filterMap_some]

/-- What the string says that a saved pattern is. -/
def savedSignAt (path : List Char) (pattern : Utf16) : Option Bool :=
  pattern.toString?.bind (signAt path)

theorem savedSignAt_key (path : List Char) (pattern : String) :
    savedSignAt path (key pattern) = signAt path pattern := by
  rw [savedSignAt, key, Utf16.toString?_ofString, Option.bind_some, signAt_trim]

theorem savedSignAt_blank (path : List Char) : savedSignAt path "" = none :=
  savedSignAt_key path ""

theorem getLast?_saved {patterns : List String} {path : List Char} (h : ¬Flips patterns path) :
    ((saved patterns).filterMap (signAt path)).getLast? =
      (patterns.filterMap (signAt path)).getLast? := by
  have hkeys : ((patterns.map key).filter (· ≠ ("" : Utf16))).filterMap (savedSignAt path) =
      patterns.filterMap (signAt path) := by
    have hblank : ∀ pattern, (if pattern ≠ ("" : Utf16) then savedSignAt path pattern else none) =
        savedSignAt path pattern := by
      intro pattern
      by_cases hp : pattern = ("" : Utf16)
      · rw [hp, savedSignAt_blank, ite_self]
      · rw [if_pos hp]
    rw [List.filterMap_filter, List.filterMap_map]
    apply List.filterMap_congr
    intro pattern _
    simp only [Function.comp_apply, decide_eq_true_eq, hblank, savedSignAt_key]
  have hsaved : (saved patterns).filterMap (signAt path) =
      (normalize (patterns.map Utf16.ofString)).filterMap (savedSignAt path) :=
    List.filterMap_filterMap ..
  rw [hsaved, normalize, map_trim_ofString, ← hkeys]
  apply getLast?_dropRepeats
  intro first between sign hs hfirst hbetween
  obtain ⟨raw, hraw, hmap⟩ := List.sublist_map_iff.1 (hs.trans List.filter_sublist)
  obtain ⟨a, tail, rfl, rfl, htail⟩ := List.map_eq_cons_iff.1 hmap.symm
  obtain ⟨b, last, rfl, rfl, hlast⟩ := List.map_eq_cons_iff.1 htail
  obtain ⟨c, rest, rfl, hc, hrest⟩ := List.map_eq_cons_iff.1 hlast
  obtain rfl := List.map_eq_nil_iff.1 hrest
  rw [savedSignAt_key] at hfirst hbetween
  exact h ⟨a, b, c, sign, hraw, key_inj hc.symm, hfirst, hbetween⟩

/-- A saved ignore list decides about a path as the given one does, together with any patterns
behind it, unless a pattern of the list comes again behind one of the other sign and both accept the
path or a directory above it. -/
theorem isIgnored_saved {patterns : List String} {path : String}
    (h : ∀ judged ∈ deciding path, ¬Flips patterns judged) (more : List String) :
    isIgnored (compileRules (saved patterns ++ more)) path =
      isIgnored (compileRules (patterns ++ more)) path := by
  have hsame : ∀ judged ∈ deciding path, excludes (compileRules (saved patterns ++ more)) judged =
      excludes (compileRules (patterns ++ more)) judged := by
    intro judged hj
    rw [excludes_compileRules, excludes_compileRules, List.filterMap_append, List.filterMap_append,
      List.getLast?_append, List.getLast?_append, getLast?_saved (h judged hj)]
  rw [isIgnored_eq_any, isIgnored_eq_any, Bool.eq_iff_iff, List.any_eq_true, List.any_eq_true]
  refine exists_congr fun judged => and_congr_right fun hj => ?_
  rw [hsame judged hj]

end Store

end FileSieve
