import FileSieve.Regex.Basic

/-!
Marks on the places in a path. A path of n characters has n + 1 places, and marks stand for some of
them. Matching moves the marks along; one lemma for each operation says which places it marks.
-/

namespace FileSieve

/-- Some of the places in a path: the mark at position n is for the place after n characters. A
place beyond the last mark is not marked. -/
abbrev Marks := List Bool

/-- Whether all characters between two places of a path belong to a class. -/
def CharClass.Along (k : CharClass) (path : List Char) (i j : Nat) : Prop :=
  i ≤ j ∧ j ≤ path.length ∧ ∀ c ∈ (path.drop i).take (j - i), k.holds c = true

namespace Marks

def On (ms : Marks) (i : Nat) : Prop := ms[i]? = some true

/-- Puts a mark in front. Nothing is kept where only unmarked places would follow. -/
def push (b : Bool) : Marks → Marks
  | [] => if b then [true] else []
  | m :: ms => b :: m :: ms

def first : Marks → Bool
  | [] => false
  | m :: _ => m

def isAny (ms : Marks) : Bool := ms.any id

/-- The places that are marked in one or the other. -/
def union : Marks → Marks → Marks
  | [], ns => ns
  | m :: ms, [] => m :: ms
  | m :: ms, n :: ns => (m || n) :: union ms ns

/-- The start of the path, if it is marked. -/
def atStart (ms : Marks) : Marks := push (ms.first) []

/-- The marked places after which the path goes on in a given way. -/
def filter (p : List Char → Bool) : List Char → Marks → Marks
  | _, [] => []
  | [], m :: _ => push (m && p []) []
  | c :: cs, m :: ms => push (m && p (c :: cs)) (filter p cs ms)

/-- Whether the next character belongs to a class. -/
def isNext (k : CharClass) (path : List Char) : Bool := path.head?.any k.holds

/-- The places one character after the marked ones, where that character belongs to a class. -/
def shift (k : CharClass) (path : List Char) (ms : Marks) : Marks :=
  push false (filter (isNext k) path ms)

/-- The places that any number of characters of a class lead to, from a marked place or, if `carry`
holds, from the front. -/
def spread (k : CharClass) (carry : Bool) (path : List Char) (ms : Marks) : Marks :=
  match path with
  | [] => push (carry || ms.first) []
  | c :: cs =>
    if !carry && ms.isEmpty then []
    else
      let here := carry || ms.first
      push here (spread k (here && k.holds c) cs ms.tail)

theorem not_on_nil (i : Nat) : ¬On [] i := by simp [On]

theorem on_zero (ms : Marks) : On ms 0 ↔ ms.first = true := by
  cases ms <;> simp [On, first]

theorem on_tail (ms : Marks) (i : Nat) : On ms.tail i ↔ On ms (i + 1) := by
  cases ms <;> simp [On]

theorem on_push_zero (b : Bool) (ms : Marks) : On (push b ms) 0 ↔ b = true := by
  cases ms <;> cases b <;> simp [push, On]

theorem on_push_succ (b : Bool) (ms : Marks) (i : Nat) : On (push b ms) (i + 1) ↔ On ms i := by
  cases ms <;> cases b <;> simp [push, On]

theorem isAny_iff (ms : Marks) : ms.isAny = true ↔ ∃ i, On ms i := by
  simp [isAny, On, List.mem_iff_getElem?]

theorem on_union (ms ns : Marks) (i : Nat) : On (union ms ns) i ↔ On ms i ∨ On ns i := by
  fun_induction union ms ns generalizing i with
  | case1 ns => simp [On]
  | case2 m ms => simp [On]
  | case3 m ms n ns ih =>
    cases i with
    | zero => simp [On]
    | succ i => simpa [On] using ih i

theorem on_atStart (ms : Marks) (i : Nat) : On (atStart ms) i ↔ i = 0 ∧ On ms 0 := by
  cases i with
  | zero => rw [atStart, on_push_zero, on_zero]; simp
  | succ i => simp [atStart, on_push_succ, not_on_nil]

theorem on_filter (p : List Char → Bool) (path : List Char) (ms : Marks) (i : Nat) :
    On (filter p path ms) i ↔ i ≤ path.length ∧ On ms i ∧ p (path.drop i) = true := by
  fun_induction filter p path ms generalizing i with
  | case1 path => simp [On]
  | case2 m ms =>
    cases i with
    | zero => rw [on_push_zero]; simp [On]
    | succ i => rw [on_push_succ]; simp [not_on_nil]
  | case3 c cs m ms ih =>
    cases i with
    | zero => rw [on_push_zero]; simp [On]
    | succ i => rw [on_push_succ, ih]; simp [On]

theorem isNext_iff (k : CharClass) (path : List Char) :
    isNext k path = true ↔ ∃ c cs, path = c :: cs ∧ k.holds c = true := by
  cases path <;> simp [isNext]

theorem on_shift (k : CharClass) (path : List Char) (ms : Marks) (i : Nat) :
    On (shift k path ms) i ↔ ∃ j, i = j + 1 ∧ On ms j ∧ isNext k (path.drop j) = true := by
  have h (j : Nat) (hj : isNext k (path.drop j) = true) : j ≤ path.length := by
    obtain ⟨c, cs, hc, _⟩ := (isNext_iff k _).1 hj
    have := congrArg List.length hc
    simp only [List.length_drop, List.length_cons] at this
    omega
  cases i with
  | zero => simp [shift, on_push_zero]
  | succ i =>
    simp only [shift, on_push_succ, on_filter, Nat.add_right_cancel_iff, exists_eq_left']
    exact ⟨fun ⟨_, hm⟩ => hm, fun hm => ⟨h i hm.2, hm⟩⟩

theorem along_zero_zero (k : CharClass) (path : List Char) : k.Along path 0 0 := by
  simp [CharClass.Along]

theorem along_nil (k : CharClass) (i j : Nat) : k.Along [] i j ↔ i = 0 ∧ j = 0 := by
  simp only [CharClass.Along, List.length_nil, List.drop_nil, List.take_nil, List.not_mem_nil,
    false_implies, implies_true, and_true]
  omega

theorem along_zero_succ (k : CharClass) (c : Char) (cs : List Char) (j : Nat) :
    k.Along (c :: cs) 0 (j + 1) ↔ k.holds c = true ∧ k.Along cs 0 j := by
  simp [CharClass.Along, and_left_comm]

theorem along_succ_succ (k : CharClass) (c : Char) (cs : List Char) (i j : Nat) :
    k.Along (c :: cs) (i + 1) (j + 1) ↔ k.Along cs i j := by
  simp [CharClass.Along]

theorem on_spread (k : CharClass) (carry : Bool) (path : List Char) (ms : Marks) (j : Nat) :
    On (spread k carry path ms) j ↔
      (carry = true ∧ k.Along path 0 j) ∨ ∃ i, On ms i ∧ k.Along path i j := by
  induction path generalizing carry ms j with
  | nil =>
    cases j with
    | zero => rw [spread, on_push_zero]; simp [along_nil, on_zero]
    | succ j => rw [spread, on_push_succ]; simp [along_nil, not_on_nil]
  | cons c cs ih =>
    unfold spread
    split
    · next h =>
      have hm : ms = [] := by simp_all
      have hc : carry = false := by simp_all
      simp [hm, hc, not_on_nil]
    · cases j with
      | zero =>
        have h0 (i : Nat) : k.Along (c :: cs) i 0 ↔ i = 0 := by
          constructor
          · intro h
            have := h.1
            omega
          · rintro rfl
            exact along_zero_zero k _
        rw [on_push_zero]
        simp [h0, on_zero]
      | succ j =>
        rw [on_push_succ, ih, along_zero_succ]
        constructor
        · rintro (⟨hb, ha⟩ | ⟨i, hi, ha⟩)
          · simp only [Bool.and_eq_true, Bool.or_eq_true] at hb
            rcases hb with ⟨hc | hm, hk⟩
            · exact .inl ⟨hc, hk, ha⟩
            · exact .inr ⟨0, (on_zero ms).2 hm, (along_zero_succ k c cs j).2 ⟨hk, ha⟩⟩
          · exact .inr ⟨i + 1, (on_tail ms i).1 hi, (along_succ_succ k c cs i j).2 ha⟩
        · rintro (⟨hc, hk, ha⟩ | ⟨i, hi, ha⟩)
          · exact .inl ⟨by simp [hc, hk], ha⟩
          · cases i with
            | zero =>
              obtain ⟨hk, ha⟩ := (along_zero_succ k c cs j).1 ha
              exact .inl ⟨by rw [(on_zero ms).1 hi, hk]; simp, ha⟩
            | succ i =>
              exact .inr ⟨i, (on_tail ms i).2 hi, (along_succ_succ k c cs i j).1 ha⟩

end Marks

end FileSieve
