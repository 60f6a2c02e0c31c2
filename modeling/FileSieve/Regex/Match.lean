import FileSieve.Regex.Marks

/-!
What it means to match: `Matches r atStart cs rest` says that an expression may consume what stands
before `rest`. One lemma for each form of expression says what that comes to.
-/

namespace FileSieve.Regex

/-- Whether the end of the path has been reached, up to one final line feed. -/
def atFinish : List Char → Bool
  | [] => true
  | ['\n'] => true
  | _ => false

/-- `Matches r atStart cs rest`: from `cs`, which is the whole path if `atStart` holds, the
expression may consume what stands before `rest`. -/
inductive Matches : Regex → Bool → List Char → List Char → Prop
  | empty {b cs} : Matches .empty b cs cs
  | start {cs} : Matches .start true cs cs
  | finish {b cs} : atFinish cs = true → Matches .finish b cs cs
  | one {k b c cs} : k.holds c = true → Matches (.one k) b (c :: cs) cs
  | starNil {k b cs} : Matches (.star k) b cs cs
  | starCons {k b c cs rest} : k.holds c = true → Matches (.star k) false cs rest →
      Matches (.star k) b (c :: cs) rest
  | plus {k b c cs rest} : k.holds c = true → Matches (.star k) false cs rest →
      Matches (.plus k) b (c :: cs) rest
  | cat {r s b cs mid rest} : Matches r b cs mid →
      Matches s (b && mid.length == cs.length) mid rest → Matches (.cat r s) b cs rest
  | altLeft {r s b cs rest} : Matches r b cs rest → Matches (.alt r s) b cs rest
  | altRight {r s b cs rest} : Matches s b cs rest → Matches (.alt r s) b cs rest
  | optNil {r b cs} : Matches (.opt r) b cs cs
  | optSome {r b cs rest} : Matches r b cs rest → Matches (.opt r) b cs rest

/-- Whether the expression begins with the start of the path, so that it can match nowhere else. -/
def isAnchored : Regex → Bool
  | start => true
  | cat r _ => r.isAnchored
  | _ => false

/-- What an expression gives back is an end of what it got. -/
theorem Matches.isSuffix {r b cs rest} (h : Matches r b cs rest) : rest <:+ cs := by
  induction h with
  | one _ => exact List.suffix_cons _ _
  | starCons _ _ ih => exact ih.trans (List.suffix_cons _ _)
  | plus _ _ ih => exact ih.trans (List.suffix_cons _ _)
  | cat _ _ ih₁ ih₂ => exact ih₂.trans ih₁
  | altLeft _ ih => exact ih
  | altRight _ ih => exact ih
  | optSome _ ih => exact ih
  | _ => exact List.suffix_refl _

/-- An anchored expression matches at the start only. -/
theorem Matches.atStart {r b cs rest} (h : Matches r b cs rest) (hr : r.isAnchored = true) :
    b = true := by
  induction h with
  | start => rfl
  | cat _ _ ih _ => exact ih hr
  | _ => cases hr

/-- Two ends of a path begin at one place if they are equal. -/
theorem drop_inj {path : List Char} {i j : Nat} (hi : i ≤ path.length) (hj : j ≤ path.length)
    (h : path.drop i = path.drop j) : i = j := by
  have := congrArg List.length h
  simp only [List.length_drop] at this
  omega

theorem Matches.exists_drop {r : Regex} {b : Bool} {path rest : List Char} {i : Nat}
    (h : Matches r b (path.drop i) rest) : ∃ j, j ≤ path.length ∧ rest = path.drop j := by
  obtain ⟨front, hf⟩ := h.isSuffix.trans (List.drop_suffix i path)
  exact ⟨front.length, by simp [← hf], by simp [← hf]⟩

theorem matches_empty_iff {b cs rest} : Matches .empty b cs rest ↔ rest = cs := by
  constructor
  · intro h
    cases h
    rfl
  · rintro rfl
    exact .empty

theorem matches_start_iff {b cs rest} : Matches .start b cs rest ↔ b = true ∧ rest = cs := by
  constructor
  · intro h
    cases h
    exact ⟨rfl, rfl⟩
  · rintro ⟨rfl, rfl⟩
    exact .start

theorem matches_finish_iff {b cs rest} :
    Matches .finish b cs rest ↔ atFinish cs = true ∧ rest = cs := by
  constructor
  · intro h
    cases h with
    | finish h => exact ⟨h, rfl⟩
  · rintro ⟨h, rfl⟩
    exact .finish h

theorem matches_cat_iff {r s b cs rest} :
    Matches (.cat r s) b cs rest ↔
      ∃ mid, Matches r b cs mid ∧ Matches s (b && mid.length == cs.length) mid rest := by
  constructor
  · intro h
    cases h with
    | cat h₁ h₂ => exact ⟨_, h₁, h₂⟩
  · rintro ⟨mid, h₁, h₂⟩
    exact .cat h₁ h₂

theorem matches_alt_iff {r s b cs rest} :
    Matches (.alt r s) b cs rest ↔ Matches r b cs rest ∨ Matches s b cs rest := by
  constructor
  · intro h
    cases h with
    | altLeft h => exact .inl h
    | altRight h => exact .inr h
  · rintro (h | h)
    · exact .altLeft h
    · exact .altRight h

theorem matches_opt_iff {r b cs rest} :
    Matches (.opt r) b cs rest ↔ rest = cs ∨ Matches r b cs rest := by
  constructor
  · intro h
    cases h with
    | optNil => exact .inl rfl
    | optSome h => exact .inr h
  · rintro (rfl | h)
    · exact .optNil
    · exact .optSome h

theorem matches_one_iff {k b cs rest} :
    Matches (.one k) b cs rest ↔ ∃ c, cs = c :: rest ∧ k.holds c = true := by
  constructor
  · intro h
    cases h with
    | one h => exact ⟨_, rfl, h⟩
  · rintro ⟨c, rfl, h⟩
    exact .one h

theorem matches_plus_iff {k b cs rest} :
    Matches (.plus k) b cs rest ↔
      ∃ c mid, cs = c :: mid ∧ k.holds c = true ∧ Matches (.star k) false mid rest := by
  constructor
  · intro h
    cases h with
    | plus h ht => exact ⟨_, _, rfl, h, ht⟩
  · rintro ⟨c, mid, rfl, h, ht⟩
    exact .plus h ht

theorem matches_star_of_take {k : CharClass} (n : Nat) :
    ∀ (b : Bool) (cs : List Char), (∀ c ∈ cs.take n, k.holds c = true) →
      Matches (.star k) b cs (cs.drop n) := by
  induction n with
  | zero => exact fun _ _ _ => .starNil
  | succ n ih =>
    intro b cs h
    cases cs with
    | nil => exact .starNil
    | cons c cs =>
      rw [List.take_succ_cons, List.forall_mem_cons] at h
      exact .starCons h.1 (ih false cs h.2)

theorem Matches.exists_take {r : Regex} {b : Bool} {cs rest : List Char}
    (h : Matches r b cs rest) (k : CharClass) (hr : r = .star k) :
    ∃ n, n ≤ cs.length ∧ rest = cs.drop n ∧ ∀ c ∈ cs.take n, k.holds c = true := by
  induction h with
  | starNil => exact ⟨0, by simp⟩
  | starCons hc _ ih =>
    cases hr
    obtain ⟨n, hn, he, ht⟩ := ih rfl
    exact ⟨n + 1, by simpa using hn, by simpa using he, by simpa [hc] using ht⟩
  | _ => cases hr

/-- A repetition leads from a place to those that only characters of its class separate from it. -/
theorem matches_star_iff {k : CharClass} {b : Bool} {path : List Char} {i j : Nat}
    (hi : i ≤ path.length) (hj : j ≤ path.length) :
    Matches (.star k) b (path.drop i) (path.drop j) ↔ k.Along path i j := by
  constructor
  · intro h
    obtain ⟨n, hn, he, ht⟩ := h.exists_take k rfl
    rw [List.length_drop] at hn
    rw [List.drop_drop] at he
    have hij : j = i + n := drop_inj hj (by omega) he
    exact ⟨by omega, hj, by rwa [show j - i = n by omega]⟩
  · rintro ⟨hij, -, ht⟩
    have := matches_star_of_take (j - i) b (path.drop i) ht
    rwa [List.drop_drop, show i + (j - i) = j by omega] at this

theorem drop_eq_cons {path cs : List Char} {c : Char} {i : Nat} (h : path.drop i = c :: cs) :
    i + 1 ≤ path.length ∧ cs = path.drop (i + 1) := by
  constructor
  · have := congrArg List.length h
    simp only [List.length_drop, List.length_cons] at this
    omega
  · rw [← List.drop_drop, h, List.drop_one, List.tail_cons]

end FileSieve.Regex
