import FileSieve.Decimal.Shortest
import Mathlib.Data.List.TakeWhile
import FileSieve.Proofs.Decimal.Rounding

/-! # The shortest decimal is read back

The search for the shortest decimal comes to an end, because every number is a decimal of no more
than 767 digits. What it finds is read back as the number that was to be written. -/

namespace FileSieve.Binary64

variable {m count digits num den : Nat} {e exponent : Int}

/-! ### The search -/

/-- A decimal that is found is read back. -/
theorem ofDecimal_of_decimalOf? (h : decimalOf? m e count = some (digits, exponent)) :
    ofDecimal false digits exponent = finite false m e := by
  unfold decimalOf? at h
  dsimp only at h
  generalize overPower 2 m 1 (-e) = value at h
  generalize decimalMagnitude value.1 value.2 - count + 1 = place at h
  generalize overPower 10 value.1 value.2 place = scaled at h
  split at h
  · next hbelow habove =>
    cases h
    have hle := roundHalfEven_le scaled.1 scaled.2
    have hge := le_roundHalfEven scaled.1 scaled.2
    have hnear : roundHalfEven scaled.1 scaled.2 = scaled.1 / scaled.2 ∨
        roundHalfEven scaled.1 scaled.2 = scaled.1 / scaled.2 + 1 := by omega
    rcases hnear with hnear | hnear
    · rw [hnear]
      simpa using hbelow
    · rw [hnear]
      simpa using habove
  · next hbelow _ =>
    cases h
    simpa using hbelow
  · next _ habove =>
    cases h
    simpa using habove
  · cases h

/-- A number is not less than the power of ten of its magnitude. -/
theorem magnitude_le (hn : 0 < num) (hd : 0 < den) :
    (10 : ℚ) ^ decimalMagnitude num den ≤ num / den := by
  have hd' : (0 : ℚ) < den := by exact_mod_cast hd
  rw [decimalMagnitude]
  dsimp only
  generalize hp : (digitCount num : Int) - digitCount den = p
  split
  · next hle =>
    have hpos : (0 : ℚ) < (overPower 10 num den p).2 := by
      exact_mod_cast overPower_pos (by decide) hd num p
    have hone : (1 : ℚ) ≤ (overPower 10 num den p).1 / (overPower 10 num den p).2 := by
      rw [one_le_div₀ hpos]
      exact_mod_cast hle
    rwa [overPower_value (by decide), Nat.cast_ofNat, one_le_div₀ (by positivity)] at hone
  · have hpos := digitCount_pos num
    have hnum : (10 : ℚ) ^ (digitCount num - 1) ≤ num := by exact_mod_cast pow_digitCount_le hn
    have hden : (den : ℚ) < 10 ^ digitCount den := by exact_mod_cast lt_pow_digitCount den
    have hsplit : (10 : ℚ) ^ (p - 1) * 10 ^ digitCount den = 10 ^ (digitCount num - 1) := by
      rw [← zpow_natCast, ← zpow_natCast, ← zpow_add₀ (by norm_num)]
      congr 1
      omega
    have hpower : (0 : ℚ) < 10 ^ (p - 1) := by positivity
    rw [le_div_iff₀ hd']
    nlinarith

/-- A decimal can be written with a lower exponent. -/
theorem exists_lower_exponent (n : Nat) {low high : Int} (h : low ≤ high) :
    ∃ k : Nat, (k : ℚ) * 10 ^ low = n * 10 ^ high := by
  refine ⟨n * 10 ^ (high - low).toNat, ?_⟩
  have hpower : (10 : ℚ) ^ (high - low).toNat = 10 ^ (high - low) := by
    rw [← zpow_natCast, Int.toNat_of_nonneg (by omega)]
  push_cast
  rw [hpower, mul_assoc, ← zpow_add₀ (by norm_num), sub_add_cancel]

theorem two_zpow_neg (k : Nat) : (2 : ℚ) ^ (-k : Int) = 5 ^ k * 10 ^ (-k : Int) := by
  have hten : (10 : ℚ) ^ k = 2 ^ k * 5 ^ k := by
    rw [← mul_pow]
    norm_num
  rw [zpow_neg, zpow_neg, zpow_natCast, zpow_natCast, hten]
  field_simp

theorem Canonical.mul_pow_five_lt {k : Nat} (h : Canonical m (-k)) : m * 5 ^ k < 10 ^ 767 := by
  have hmost : k ≤ 1074 := by
    have hleast := h.least
    have hmin : minExponent = -1074 := rfl
    omega
  have hfive : 5 ^ k ≤ 5 ^ 1074 := by
    gcongr
    decide
  have hfar : 2 ^ 53 * 5 ^ 1074 < 10 ^ 767 := by decide +kernel
  have hbelow : m < 2 ^ 53 := h.below
  exact lt_of_le_of_lt (Nat.mul_le_mul hbelow.le hfive) hfar

/-- Every number is a decimal of 767 digits. -/
theorem exists_decimal (hc : Canonical m e) {p : Int} (hp : (10 : ℚ) ^ p ≤ m * 2 ^ e) :
    ∃ n : Nat, (n : ℚ) * 10 ^ (p - 766) = m * 2 ^ e := by
  by_cases he : 0 ≤ e
  · have hsmall : p < 309 := by
      by_contra hlarge
      have hpower : (10 : ℚ) ^ (309 : Int) ≤ 10 ^ p :=
        zpow_le_zpow_right₀ (by norm_num) (by omega)
      linarith [hc.value_lt]
    have hwhole : (2 : ℚ) ^ e = 2 ^ e.toNat := by
      rw [← zpow_natCast, Int.toNat_of_nonneg he]
    obtain ⟨n, hn⟩ := exists_lower_exponent (m * 2 ^ e.toNat) (show p - 766 ≤ 0 by omega)
    refine ⟨n, hn.trans ?_⟩
    rw [hwhole]
    push_cast
    ring
  · -- the number is `m · 5 ^ -e` times a power of ten, and that has no more than 767 digits
    obtain ⟨k, rfl⟩ : ∃ k : Nat, e = -k := ⟨(-e).toNat, by omega⟩
    have hvalue : (m : ℚ) * 2 ^ (-k : Int) = (m * 5 ^ k : Nat) * 10 ^ (-k : Int) := by
      rw [two_zpow_neg]
      push_cast
      ring
    have hp' : p < 767 - k := by
      by_contra hlarge
      have hpower : (10 : ℚ) ^ (767 - k : Int) ≤ 10 ^ p :=
        zpow_le_zpow_right₀ (by norm_num) (by omega)
      have hsmall : ((m * 5 ^ k : Nat) : ℚ) < 10 ^ 767 := by exact_mod_cast hc.mul_pow_five_lt
      have hlt := mul_lt_mul_of_pos_right hsmall (by positivity : (0 : ℚ) < 10 ^ (-k : Int))
      rw [sub_eq_add_neg, zpow_add₀ (by norm_num)] at hpower
      rw [hvalue] at hp
      exact absurd (hpower.trans hp) (not_le.2 hlt)
    obtain ⟨n, hn⟩ := exists_lower_exponent (m * 5 ^ k) (show p - 766 ≤ -k by omega)
    exact ⟨n, hn.trans hvalue.symm⟩

/-- With 767 digits the search ends at the latest, since the decimal below is then exact. -/
theorem decimalOf?_ne_none (hc : Canonical m e) (hm : 0 < m) : decimalOf? m e 767 ≠ none := by
  have hpos := overPower_pos (b := 2) (by decide) one_pos m (-e)
  have hvalue := overPower_value (b := 2) (by decide) m 1 (-e)
  rw [Nat.cast_one, div_one, zpow_neg, div_inv_eq_mul, Nat.cast_ofNat] at hvalue
  unfold decimalOf?
  dsimp only
  generalize overPower 2 m 1 (-e) = value at hpos hvalue
  have hnum : 0 < value.1 := pos_of_value hvalue (by positivity)
  have hmagnitude := magnitude_le hnum hpos
  rw [hvalue] at hmagnitude
  obtain ⟨n, hn⟩ := exists_decimal hc hmagnitude
  have hplace : decimalMagnitude value.1 value.2 - (767 : Nat) + 1 =
      decimalMagnitude value.1 value.2 - 766 := by omega
  rw [hplace]
  generalize decimalMagnitude value.1 value.2 - 766 = place at hn
  have hpos' := overPower_pos (b := 10) (by decide) hpos value.1 place
  have hscaled := overPower_value (b := 10) (by decide) value.1 value.2 place
  rw [hvalue, ← hn, Nat.cast_ofNat, mul_div_cancel_right₀ _ (by positivity)] at hscaled
  have hexact := eq_mul_of_value hpos' hscaled
  rw [hexact, Nat.mul_div_cancel n hpos', ofDecimal_of_canonical hc hm hn]
  split
  · simp
  · simp
  · next hbelow _ => simp at hbelow
  · next hbelow _ => simp at hbelow

/-- The search finds a decimal that is read back. -/
theorem exists_findSome? (hc : Canonical m e) (hm : 0 < m) :
    ∃ digits exponent, ((List.range 767).findSome? fun i => decimalOf? m e (i + 1)) =
        some (digits, exponent) ∧
      ofDecimal false digits exponent = finite false m e := by
  cases hfound : (List.range 767).findSome? fun i => decimalOf? m e (i + 1) with
  | none =>
    have hnone := List.findSome?_eq_none_iff.1 hfound 766 (List.mem_range.2 (by decide))
    exact absurd hnone (decimalOf?_ne_none hc hm)
  | some found =>
    obtain ⟨i, -, hi⟩ := List.exists_of_findSome?_eq_some hfound
    exact ⟨found.1, found.2, rfl, ofDecimal_of_decimalOf? hi⟩

/-! ### The digits -/

/-- The digits of a positive number: there is one, and the first is no zero. -/
structure Leads (digits : List Char) : Prop where
  all : ∀ c ∈ digits, c.isDigit = true
  first : ∃ c rest, digits = c :: rest ∧ c ≠ '0'

theorem digitChar_ne_zero {n : Nat} (hn : 0 < n) (hlt : n < 10) : n.digitChar ≠ '0' := by
  have hall : ∀ n < 10, 0 < n → n.digitChar ≠ '0' := by decide
  exact hall n hlt hn

theorem leads_toDigits {n : Nat} (hn : 0 < n) : Leads (Nat.toDigits 10 n) := by
  refine ⟨fun c hc => Nat.isDigit_of_mem_toDigits (by decide) (by decide) hc, ?_⟩
  induction n using Nat.strongRecOn with
  | ind n ih =>
    rw [Nat.toDigits_eq_if (b := 10) (by decide)]
    split
    · next hlt => exact ⟨_, _, rfl, digitChar_ne_zero hn hlt⟩
    · next hle =>
      obtain ⟨c, rest, hdigits, hc⟩ := ih (n / 10) (by omega) (by omega)
      exact ⟨c, _, by rw [hdigits, List.cons_append], hc⟩

/-- Only zeros at the end are dropped. -/
theorem exists_dropZeros (digits : List Char) (exponent : Int) :
    ∃ kept k, digits = kept ++ List.replicate k '0' ∧
      dropZeros digits exponent = (kept, exponent + k) := by
  have hzeros : digits.reverse.takeWhile (· == '0') =
      List.replicate (digits.reverse.takeWhile (· == '0')).length '0' := by
    rw [List.eq_replicate_iff]
    refine ⟨rfl, fun c hc => ?_⟩
    simpa using List.mem_takeWhile_imp hc
  have hsplit : digits = (digits.reverse.dropWhile (· == '0')).reverse ++
      List.replicate (digits.reverse.takeWhile (· == '0')).length '0' := by
    rw [← List.reverse_replicate, ← hzeros, ← List.reverse_append, List.takeWhile_append_dropWhile,
      List.reverse_reverse]
  refine ⟨_, _, hsplit, ?_⟩
  have hlength := congrArg List.length hsplit
  rw [List.length_append, List.length_replicate] at hlength
  rw [dropZeros]
  congr 3
  omega

/-- What is left without the zeros at the end leads as before. -/
theorem Leads.of_append {kept : List Char} {k : Nat}
    (h : Leads (kept ++ List.replicate k '0')) : Leads kept := by
  obtain ⟨c, rest, hdigits, hc⟩ := h.first
  refine ⟨fun d hd => h.all d (List.mem_append_left _ hd), ?_⟩
  cases kept with
  | nil =>
    have hmem : c ∈ List.replicate k '0' := by
      rw [List.nil_append] at hdigits
      exact hdigits ▸ List.mem_cons_self
    exact absurd (List.eq_of_mem_replicate hmem) hc
  | cons d kept =>
    obtain ⟨rfl, -⟩ := List.cons.inj hdigits
    exact ⟨d, kept, rfl, hc⟩

/-- The digits that are found for a number are read back as that number. -/
theorem exists_shortestDigits (hc : Canonical m e) (hm : 0 < m) :
    ∃ kept point, shortestDigits m e = (kept, point) ∧ Leads kept ∧
      ofDecimal false (Nat.ofDigitChars 10 kept 0) (point - kept.length) = finite false m e := by
  obtain ⟨digits, exponent, hfound, hread⟩ := exists_findSome? hc hm
  have hdigits : 0 < digits := by
    refine Nat.pos_of_ne_zero fun hzero => ?_
    rw [hzero, ofDecimal] at hread
    cases hread
    exact hm.ne rfl
  obtain ⟨kept, k, hsplit, hkept⟩ := exists_dropZeros (Nat.toDigits 10 digits) exponent
  have hvalue : Nat.ofDigitChars 10 kept 0 * 10 ^ k = digits := by
    rw [← Nat.ofDigitChars_ten_toDigits (n := digits), hsplit, Nat.ofDigitChars_append,
      Nat.ofDigitChars_replicate_zero, Nat.mul_comm]
  refine ⟨kept, exponent + k + kept.length, ?_, ?_, ?_⟩
  · unfold shortestDigits
    rw [hfound]
    dsimp only
    rw [hkept]
  · exact Leads.of_append (hsplit ▸ leads_toDigits hdigits)
  · rw [add_sub_cancel_right, ← hread, ← hvalue,
      ← ofDecimal_mul_pow false (Nat.ofDigitChars 10 kept 0) (exponent + k) k,
      add_sub_cancel_right]

end FileSieve.Binary64
