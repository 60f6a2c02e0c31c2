import FileSieve.Regex.Match

/-!
Searching. All ways to match are followed at once by moving marks along the path, so that the work
grows with the size of the expression and the length of the path. A search finds a match exactly if
there is one (`search_iff`).
-/

namespace FileSieve.Regex

/-- The places where a match may end that begins at a marked place. -/
def ends (path : List Char) (r : Regex) (ms : Marks) : Marks :=
  if ms.isEmpty then []
  else
    match r with
    | empty => ms
    | start => ms.atStart
    | finish => ms.filter atFinish path
    | one k => ms.shift k path
    | star k => ms.spread k false path
    | plus k => (ms.shift k path).spread k false path
    | cat r s => s.ends path (r.ends path ms)
    | alt r s => (r.ends path ms).union (s.ends path ms)
    | opt r => ms.union (r.ends path ms)

def beginnings (r : Regex) (path : List Char) : Marks :=
  if r.isAnchored then [true] else List.replicate (path.length + 1) true

/-- Whether the expression matches somewhere in the path. -/
def search (r : Regex) (path : List Char) : Bool :=
  (r.ends path (r.beginnings path)).isAny

section Ends

variable (path : List Char) (ms : Marks)

theorem ends_nil (r : Regex) : r.ends path [] = [] := by cases r <;> rfl

theorem ends_empty : empty.ends path ms = ms := by cases ms <;> rfl

theorem ends_start : start.ends path ms = ms.atStart := by cases ms <;> rfl

theorem ends_finish : finish.ends path ms = ms.filter atFinish path := by
  cases ms <;> cases path <;> rfl

theorem ends_one (k : CharClass) : (one k).ends path ms = ms.shift k path := by
  cases ms <;> cases path <;> rfl

theorem ends_star (k : CharClass) : (star k).ends path ms = ms.spread k false path := by
  cases ms <;> cases path <;> rfl

theorem ends_plus (k : CharClass) :
    (plus k).ends path ms = (ms.shift k path).spread k false path := by
  cases ms <;> cases path <;> rfl

theorem ends_cat (r s : Regex) : (cat r s).ends path ms = s.ends path (r.ends path ms) := by
  cases ms
  · simp only [ends_nil]
  · rfl

theorem ends_alt (r s : Regex) :
    (alt r s).ends path ms = (r.ends path ms).union (s.ends path ms) := by
  cases ms
  · simp only [ends_nil, Marks.union]
  · rfl

theorem ends_opt (r : Regex) : (opt r).ends path ms = ms.union (r.ends path ms) := by
  cases ms
  · simp only [ends_nil, Marks.union]
  · rfl

end Ends

/-- The places that are marked after a match are those to which it leads from a marked place. -/
theorem on_ends {path : List Char} (r : Regex) (ms : Marks)
    (hms : ∀ i, ms.On i → i ≤ path.length) (j : Nat) :
    (r.ends path ms).On j ↔
      j ≤ path.length ∧ ∃ i, ms.On i ∧ Matches r (i == 0) (path.drop i) (path.drop j) := by
  induction r generalizing ms j with
  | empty =>
    simp only [ends_empty, matches_empty_iff]
    constructor
    · exact fun h => ⟨hms j h, j, h, rfl⟩
    · rintro ⟨hj, i, hi, h⟩
      exact drop_inj (hms i hi) hj h.symm ▸ hi
  | start =>
    simp only [ends_start, Marks.on_atStart, matches_start_iff, beq_iff_eq]
    constructor
    · rintro ⟨rfl, h⟩
      exact ⟨hms 0 h, 0, h, rfl, rfl⟩
    · rintro ⟨hj, i, hi, rfl, h⟩
      exact ⟨drop_inj hj (hms 0 hi) h, hi⟩
  | finish =>
    simp only [ends_finish, Marks.on_filter, matches_finish_iff]
    constructor
    · rintro ⟨hj, h, hf⟩
      exact ⟨hj, j, h, hf, rfl⟩
    · rintro ⟨hj, i, hi, hf, h⟩
      obtain rfl := drop_inj (hms i hi) hj h.symm
      exact ⟨hj, hi, hf⟩
  | one k =>
    simp only [ends_one, Marks.on_shift, Marks.isNext_iff, matches_one_iff]
    constructor
    · rintro ⟨i, rfl, hi, c, cs, hc, hk⟩
      obtain ⟨hj, rfl⟩ := drop_eq_cons hc
      exact ⟨hj, i, hi, c, hc, hk⟩
    · rintro ⟨hj, i, hi, c, hc, hk⟩
      obtain ⟨hi', he⟩ := drop_eq_cons hc
      exact ⟨i, drop_inj hj hi' he, hi, c, _, hc, hk⟩
  | star k =>
    rw [ends_star, Marks.on_spread]
    constructor
    · rintro (⟨h, _⟩ | ⟨i, hi, ha⟩)
      · cases h
      · exact ⟨ha.2.1, i, hi, (matches_star_iff (hms i hi) ha.2.1).2 ha⟩
    · rintro ⟨hj, i, hi, h⟩
      exact .inr ⟨i, hi, (matches_star_iff (hms i hi) hj).1 h⟩
  | plus k =>
    simp only [ends_plus, Marks.on_spread, Marks.on_shift, Marks.isNext_iff, matches_plus_iff]
    constructor
    · rintro (⟨h, _⟩ | ⟨_, ⟨i, rfl, hi, c, cs, hc, hk⟩, ha⟩)
      · cases h
      · obtain ⟨hm, rfl⟩ := drop_eq_cons hc
        exact ⟨ha.2.1, i, hi, c, _, hc, hk, (matches_star_iff hm ha.2.1).2 ha⟩
    · rintro ⟨hj, i, hi, c, mid, hc, hk, h⟩
      obtain ⟨hm, rfl⟩ := drop_eq_cons hc
      exact .inr ⟨i + 1, ⟨i, rfl, hi, c, _, hc, hk⟩, (matches_star_iff hm hj).1 h⟩
  | cat r s ihr ihs =>
    have flag {i m : Nat} (hi : i ≤ path.length) (hm : m ≤ path.length)
        (h : Matches r (i == 0) (path.drop i) (path.drop m)) :
        (i == 0 && (path.drop m).length == (path.drop i).length) = (m == 0) := by
      have hl := h.isSuffix.length_le
      simp only [List.length_drop] at hl ⊢
      rw [Bool.eq_iff_iff]
      simp only [Bool.and_eq_true, beq_iff_eq]
      omega
    rw [ends_cat, ihs _ fun m hm => ((ihr ms hms m).1 hm).1]
    simp only [matches_cat_iff]
    constructor
    · rintro ⟨hj, m, hm, h₂⟩
      obtain ⟨hm, i, hi, h₁⟩ := (ihr ms hms m).1 hm
      exact ⟨hj, i, hi, _, h₁, by rwa [flag (hms i hi) hm h₁]⟩
    · rintro ⟨hj, i, hi, mid, h₁, h₂⟩
      obtain ⟨m, hm, rfl⟩ := h₁.exists_drop
      rw [flag (hms i hi) hm h₁] at h₂
      exact ⟨hj, m, (ihr ms hms m).2 ⟨hm, i, hi, h₁⟩, h₂⟩
  | alt r s ihr ihs =>
    rw [ends_alt, Marks.on_union, ihr ms hms, ihs ms hms]
    simp only [matches_alt_iff, and_or_left, exists_or]
  | opt r ih =>
    rw [ends_opt, Marks.on_union, ih ms hms]
    simp only [matches_opt_iff, and_or_left, exists_or]
    refine or_congr ⟨fun h => ⟨hms j h, j, h, rfl⟩, ?_⟩ Iff.rfl
    rintro ⟨hj, i, hi, h⟩
    exact drop_inj (hms i hi) hj h.symm ▸ hi

theorem on_beginnings (r : Regex) (path : List Char) (i : Nat) :
    (r.beginnings path).On i ↔ i ≤ path.length ∧ (r.isAnchored = true → i = 0) := by
  unfold beginnings Marks.On
  split
  · next h => cases i <;> simp [h]
  · next h =>
    rw [List.getElem?_replicate]
    split
    · next hi => simp only [h, true_iff]; exact ⟨Nat.le_of_lt_succ hi, nofun⟩
    · next hi => simp only [reduceCtorEq, false_iff]; exact fun hle => hi (Nat.lt_succ_of_le hle.1)

/-- A search finds a match exactly if there is one somewhere in the path. -/
theorem search_iff (r : Regex) (path : List Char) :
    r.search path = true ↔
      ∃ i rest, i ≤ path.length ∧ Matches r (i == 0) (path.drop i) rest := by
  simp only [search, Marks.isAny_iff, on_beginnings,
    on_ends r _ fun i hi => ((on_beginnings r path i).1 hi).1]
  constructor
  · rintro ⟨j, hj, i, ⟨hi, _⟩, h⟩
    exact ⟨i, _, hi, h⟩
  · rintro ⟨i, rest, hi, h⟩
    obtain ⟨j, hj, rfl⟩ := h.exists_drop
    exact ⟨j, hj, i, ⟨hi, fun ha => by simpa using h.atStart ha⟩, h⟩

end FileSieve.Regex
