import FileSieve.Regex.Search

/-! # Expressions in sequence

`Found rs cs` says that the expressions, one after another, match a front of the text. Past the
start of a path nothing else about a match counts, so there is one rule for each form of the first
expression. -/

namespace FileSieve.Regex

/-- The expression does not ask for the start of the path. -/
def isStartFree : Regex → Bool
  | start => false
  | cat r s => r.isStartFree && s.isStartFree
  | alt r s => r.isStartFree && s.isStartFree
  | opt r => r.isStartFree
  | _ => true

theorem Matches.of_isStartFree {r : Regex} {b : Bool} {cs rest : List Char}
    (h : Matches r b cs rest) (hr : r.isStartFree = true) (b' : Bool) : Matches r b' cs rest := by
  induction h generalizing b' with
  | empty => exact .empty
  | start => cases hr
  | finish h => exact .finish h
  | one h => exact .one h
  | starNil => exact .starNil
  | starCons h ht _ => exact .starCons h ht
  | plus h ht _ => exact .plus h ht
  | cat _ _ ih₁ ih₂ =>
    rw [isStartFree, Bool.and_eq_true] at hr
    exact .cat (ih₁ hr.1 b') (ih₂ hr.2 _)
  | altLeft _ ih =>
    rw [isStartFree, Bool.and_eq_true] at hr
    exact .altLeft (ih hr.1 b')
  | altRight _ ih =>
    rw [isStartFree, Bool.and_eq_true] at hr
    exact .altRight (ih hr.2 b')
  | optNil => exact .optNil
  | optSome _ ih => exact .optSome (ih hr b')

theorem isStartFree_concat {rs : List Regex} (h : ∀ r ∈ rs, r.isStartFree = true) :
    (concat rs).isStartFree = true := by
  induction rs with
  | nil => rfl
  | cons r rs ih =>
    rw [List.forall_mem_cons] at h
    cases rs with
    | nil => exact h.1
    | cons s rest => simp [concat, isStartFree, h.1, ih h.2]

theorem matches_concat_cons_iff {r : Regex} {rs : List Regex} {b : Bool} {cs rest : List Char} :
    Matches (concat (r :: rs)) b cs rest ↔
      ∃ mid, Matches r b cs mid ∧
        Matches (concat rs) (b && mid.length == cs.length) mid rest := by
  cases rs with
  | nil => simp [concat, matches_empty_iff]
  | cons s rest => exact matches_cat_iff

/-- Some front of the text is matched by the expressions one after another. -/
def Found (rs : List Regex) (cs : List Char) : Prop :=
  ∃ rest, Matches (concat rs) false cs rest

theorem found_nil (cs : List Char) : Found [] cs :=
  ⟨cs, .empty⟩

theorem found_cons_iff {r : Regex} {rs : List Regex} {cs : List Char} :
    Found (r :: rs) cs ↔ ∃ mid, Matches r false cs mid ∧ Found rs mid := by
  simp only [Found, matches_concat_cons_iff, Bool.false_and]
  constructor
  · intro h
    obtain ⟨rest, mid, hr, hs⟩ := h
    exact ⟨mid, hr, rest, hs⟩
  · intro h
    obtain ⟨mid, hr, rest, hs⟩ := h
    exact ⟨rest, mid, hr, hs⟩

theorem exists_matches_iff_found {rs : List Regex} (h : ∀ r ∈ rs, r.isStartFree = true)
    (b : Bool) (cs : List Char) : (∃ rest, Matches (concat rs) b cs rest) ↔ Found rs cs := by
  have hf := isStartFree_concat h
  constructor
  · intro h
    obtain ⟨rest, hm⟩ := h
    exact ⟨rest, hm.of_isStartFree hf false⟩
  · intro h
    obtain ⟨rest, hm⟩ := h
    exact ⟨rest, hm.of_isStartFree hf b⟩

/-! ### The first expression of a sequence -/

theorem atFinish_iff {cs : List Char} : atFinish cs = true ↔ cs = [] ∨ cs = ['\n'] := by
  constructor
  · intro h
    unfold atFinish at h
    split at h
    · exact .inl rfl
    · exact .inr rfl
    · cases h
  · rintro (rfl | rfl) <;> rfl

theorem matches_char_iff {c : Char} {b : Bool} {cs rest : List Char} :
    Matches (char c) b cs rest ↔ cs = c :: rest := by
  simp [char, matches_one_iff, CharClass.holds]

theorem matches_star_iff_append {k : CharClass} {b : Bool} {cs rest : List Char} :
    Matches (star k) b cs rest ↔ ∃ run, cs = run ++ rest ∧ ∀ c ∈ run, k.holds c = true := by
  constructor
  · intro h
    obtain ⟨n, _, rfl, ht⟩ := h.exists_take k rfl
    exact ⟨cs.take n, (List.take_append_drop n cs).symm, ht⟩
  · intro h
    obtain ⟨run, rfl, hr⟩ := h
    have h := matches_star_of_take run.length b (run ++ rest) (by rwa [List.take_left])
    rwa [List.drop_left] at h

theorem found_char_iff {c : Char} {rs : List Regex} {cs : List Char} :
    Found (char c :: rs) cs ↔ ∃ rest, cs = c :: rest ∧ Found rs rest := by
  simp only [found_cons_iff, matches_char_iff]

theorem found_star_iff {k : CharClass} {rs : List Regex} {cs : List Char} :
    Found (star k :: rs) cs ↔
      ∃ run rest, cs = run ++ rest ∧ (∀ c ∈ run, k.holds c = true) ∧ Found rs rest := by
  simp only [found_cons_iff, matches_star_iff_append]
  constructor
  · intro h
    obtain ⟨rest, ⟨run, he, hr⟩, hf⟩ := h
    exact ⟨run, rest, he, hr, hf⟩
  · intro h
    obtain ⟨run, rest, he, hr, hf⟩ := h
    exact ⟨rest, ⟨run, he, hr⟩, hf⟩

theorem found_one_iff {k : CharClass} {rs : List Regex} {cs : List Char} :
    Found (one k :: rs) cs ↔ ∃ c rest, cs = c :: rest ∧ k.holds c = true ∧ Found rs rest := by
  simp only [found_cons_iff, matches_one_iff]
  constructor
  · intro h
    obtain ⟨rest, ⟨c, he, hc⟩, hf⟩ := h
    exact ⟨c, rest, he, hc, hf⟩
  · intro h
    obtain ⟨c, rest, he, hc, hf⟩ := h
    exact ⟨rest, ⟨c, he, hc⟩, hf⟩

/-! ### Where a search may begin -/

theorem search_start_iff {rs : List Regex} (h : ∀ r ∈ rs, r.isStartFree = true)
    (path : List Char) : (concat (start :: rs)).search path = true ↔ Found rs path := by
  rw [search_iff, ← exists_matches_iff_found h true path]
  simp only [matches_concat_cons_iff, matches_start_iff, beq_iff_eq]
  constructor
  · intro h
    obtain ⟨i, rest, -, _, ⟨rfl, rfl⟩, hm⟩ := h
    exact ⟨rest, by simpa using hm⟩
  · intro h
    obtain ⟨rest, hm⟩ := h
    exact ⟨0, rest, Nat.zero_le _, path, ⟨rfl, rfl⟩, by simpa using hm⟩

theorem search_start_or_char_iff {c : Char} {rs : List Regex}
    (h : ∀ r ∈ rs, r.isStartFree = true) (path : List Char) :
    (concat (alt start (char c) :: rs)).search path = true ↔
      Found rs path ∨ ∃ front back, path = front ++ c :: back ∧ Found rs back := by
  rw [search_iff]
  simp only [matches_concat_cons_iff, matches_alt_iff, matches_start_iff, matches_char_iff,
    beq_iff_eq]
  constructor
  · intro h
    obtain ⟨i, rest, hi, mid, ⟨rfl, rfl⟩ | he, hm⟩ := h
    · rw [List.drop_zero] at hm
      exact .inl ((exists_matches_iff_found h _ _).1 ⟨rest, hm⟩)
    · refine .inr ⟨path.take i, mid, ?_, (exists_matches_iff_found h _ mid).1 ⟨rest, hm⟩⟩
      rw [← he, List.take_append_drop]
  · intro h
    rcases h with hf | ⟨front, back, rfl, hf⟩
    · obtain ⟨rest, hm⟩ := (exists_matches_iff_found h true path).2 hf
      exact ⟨0, rest, Nat.zero_le _, path, .inl ⟨rfl, rfl⟩, by simpa using hm⟩
    · have hd : (front ++ c :: back).drop front.length = c :: back := List.drop_left
      obtain ⟨rest, hm⟩ := (exists_matches_iff_found h _ back).2 hf
      exact ⟨front.length, rest, by simp, back, .inr hd, hm⟩

end FileSieve.Regex
