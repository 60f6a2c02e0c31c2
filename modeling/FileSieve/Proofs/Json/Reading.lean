import FileSieve.Proofs.Json.Fields

/-! # What is read may be written

A value that is read has distinct names in each object, integers that are not too long, and numbers
that are nearest to a decimal. So its indented form is read back. -/

namespace FileSieve.Json

variable {fuel depth : Nat} {cs rest : List Char} {v : Json} {items : List Json}
  {before fields : List (Utf16 × Json)}

/-! ### Numbers -/

theorem ofDigitChars_lt {digits : List Char} (h : ∀ c ∈ digits, c.isDigit = true) :
    Nat.ofDigitChars 10 digits 0 < 10 ^ digits.length := by
  induction digits with
  | nil => decide
  | cons c digits ih =>
    obtain ⟨hc, hdigits⟩ := List.forall_mem_cons.1 h
    have hdigit : c.toNat - '0'.toNat ≤ 9 := by
      rw [← isDigit_eq, isDigit, Bool.and_eq_true, decide_eq_true_eq, decide_eq_true_eq] at hc
      change c.toNat - 48 ≤ 9
      omega
    have hfirst := Nat.mul_le_mul_left (10 ^ digits.length) hdigit
    have hrest := ih hdigits
    rw [Nat.ofDigitChars_cons, Nat.ofDigitChars_eq_ofDigitChars_zero, Nat.mul_zero, Nat.zero_add,
      List.length_cons, Nat.pow_succ]
    omega

theorem isDigit_of_mem_spanDigits (cs : List Char) :
    ∀ c ∈ (spanDigits cs).1, c.isDigit = true := by
  intro c hc
  rw [← isDigit_eq]
  exact List.mem_takeWhile_imp hc

/-- A number is an integer that is not too long, or nearest to a decimal. -/
theorem writable_readNumber {negative : Bool} (h : readNumber negative cs = some (v, rest)) :
    Writable depth v := by
  unfold readNumber at h
  split at h
  next whole tail hwhole =>
  have hdigits : ∀ c ∈ whole, c.isDigit = true := by
    split at hwhole
    · obtain ⟨rfl, -⟩ := Prod.mk.inj hwhole
      exact List.forall_mem_singleton.2 rfl
    · have hspan := isDigit_of_mem_spanDigits cs
      rwa [hwhole] at hspan
  split at h
  · cases h
  · dsimp only at h
    split at h
    · split at h
      · next hlength =>
        have hlt : Nat.ofDigitChars 10 whole 0 < 10 ^ Text.numeralLimit :=
          (ofDigitChars_lt hdigits).trans_le (Nat.pow_le_pow_right (by decide) hlength)
        cases h
        apply Writable.int
        rw [digitsValue_eq]
        split <;> omega
      · cases h
    · cases h
      exact .real depth (Binary64.isRead_ofDecimal _ _ _)

theorem writable_readAtom (h : readAtom cs = some (v, rest)) : Writable depth v := by
  unfold readAtom at h
  split at h
  case h_7 => exact writable_readNumber h
  case h_8 => exact writable_readNumber h
  all_goals
    obtain ⟨after, -, hv⟩ := Option.map_eq_some_iff.1 h
    cases hv
  exacts [.null depth, .bool depth true, .bool depth false, .real depth trivial,
    .real depth trivial, .real depth trivial]

/-! ### Values -/

theorem bind_eq_ok_iff {α β : Type} {found : Except Fault α} {f : α → Except Fault β} {result : β} :
    found >>= f = .ok result ↔ ∃ part, found = .ok part ∧ f part = .ok result := by
  cases found with
  | error fault => exact iff_of_false nofun nofun
  | ok part => exact ⟨fun h => ⟨part, rfl, h⟩, fun ⟨_, hp, h⟩ => by cases hp; exact h⟩

/-- Values that are read with so much fuel may be written. -/
def ReadsWritable (fuel : Nat) : Prop :=
  ∀ {depth cs v rest}, readValue fuel depth cs = .ok (v, rest) → Writable depth v

theorem writable_readItems
    (hvalues : ∀ fuel' < fuel, ReadsWritable fuel')
    (h : readItems fuel depth cs = .ok (items, rest)) : ∀ item ∈ items, Writable depth item := by
  induction fuel generalizing cs items with
  | zero =>
    rw [readItems] at h
    cases h
  | succ fuel ih =>
    rw [readItems] at h
    obtain ⟨⟨item, after⟩, hitem, h⟩ := bind_eq_ok_iff.1 h
    have hw := hvalues fuel (Nat.lt_succ_self fuel) hitem
    dsimp only at h
    split at h
    · cases h
      exact List.forall_mem_singleton.2 hw
    · obtain ⟨⟨others, after⟩, hothers, h⟩ := bind_eq_ok_iff.1 h
      cases h
      exact List.forall_mem_cons.2
        ⟨hw, ih (fun fuel' hlt => hvalues fuel' (Nat.lt_succ_of_lt hlt)) hothers⟩
    · cases h

theorem writableFields_readFields
    (hvalues : ∀ fuel' < fuel, ReadsWritable fuel') (hb : WritableFields depth before)
    (h : readFields fuel depth cs before = .ok (fields, rest)) : WritableFields depth fields := by
  induction fuel generalizing cs before with
  | zero =>
    rw [readFields] at h
    cases h
  | succ fuel ih =>
    unfold readFields at h
    split at h
    · next h0 => cases h0
    · next hfuel =>
      cases hfuel
      obtain ⟨⟨name, after⟩, -, h⟩ := bind_eq_ok_iff.1 h
      dsimp only at h
      split at h
      · obtain ⟨⟨value, after⟩, hvalue, h⟩ := bind_eq_ok_iff.1 h
        have hw := hvalues fuel (Nat.lt_succ_self fuel) hvalue
        have hset := hb.setField hw ⟨name⟩
        dsimp only at h
        split at h
        · cases h
          exact hset
        · exact ih (fun fuel' hlt => hvalues fuel' (Nat.lt_succ_of_lt hlt)) hset h
        · cases h
      · cases h
    · cases h

/-- A value that is read may be written. -/
theorem readsWritable (fuel : Nat) : ReadsWritable fuel := by
  induction fuel using Nat.strongRecOn with
  | ind fuel ih =>
    intro depth cs v rest h
    unfold readValue at h
    split at h
    · cases h
    · obtain ⟨found, -, h⟩ := bind_eq_ok_iff.1 h
      cases h
      exact .string _ _
    · cases h
    · split at h
      · cases h
        exact .array (List.forall_mem_nil _)
      · obtain ⟨⟨items, after⟩, hitems, h⟩ := bind_eq_ok_iff.1 h
        cases h
        exact .array (writable_readItems (fun fuel' hlt => ih fuel' (Nat.lt_succ_of_lt hlt)) hitems)
    · cases h
    · split at h
      · cases h
        exact writable_object_nil _
      · obtain ⟨⟨fields, after⟩, hfields, h⟩ := bind_eq_ok_iff.1 h
        cases h
        exact writable_object_iff.2 (writableFields_readFields
          (fun fuel' hlt => ih fuel' (Nat.lt_succ_of_lt hlt)) (writableFields_nil _) hfields)
    · unfold found at h
      split at h
      · next hatom =>
        cases h
        exact writable_readAtom hatom
      · cases h

theorem writable_read {s : String} (h : read s = .ok v) : Writable nestingLimit v := by
  obtain ⟨⟨value, rest⟩, hvalue, h⟩ := bind_eq_ok_iff.1 h
  dsimp only at h
  split at h
  · cases h
    exact readsWritable _ hvalue
  · cases h

end FileSieve.Json
