import Mathlib.Algebra.Order.Field.Power
import Mathlib.Data.Rat.Floor
import Mathlib.Tactic.Linarith
import Mathlib.Tactic.NormNum
import Mathlib.Tactic.Positivity
import Mathlib.Tactic.Ring
import FileSieve.Decimal.Binary64

/-! # Reading decimals

The floating-point number nearest to a fraction depends on its value alone, however the fraction is
written. It has the full length of a mantissa or the least exponent, and such a number is nearest to
itself. -/

namespace FileSieve.Binary64

variable {b num den m k : Nat} {e : Int} {q : ℚ}

/-! ### Fractions -/

theorem overPower_pos (hb : 0 < b) (hd : 0 < den) (num : Nat) (e : Int) :
    0 < (overPower b num den e).2 := by
  rw [overPower]
  split
  · exact hd
  · exact Nat.mul_pos hd (Nat.pow_pos hb)

/-- A fraction over a power, by its value. -/
theorem overPower_value (hb : 0 < b) (num den : Nat) (e : Int) :
    ((overPower b num den e).1 : ℚ) / (overPower b num den e).2 =
      num / den / (b : ℚ) ^ e := by
  have hb : (b : ℚ) ≠ 0 := by positivity
  rw [overPower]
  split
  · next he =>
    have hpower : (b : ℚ) ^ e = ((b : ℚ) ^ e.natAbs)⁻¹ := by
      rw [← zpow_natCast, ← zpow_neg, Int.ofNat_natAbs_of_nonpos (by omega), neg_neg]
    rw [hpower, Nat.pow_eq]
    push_cast
    field_simp
  · next he =>
    have hpower : (b : ℚ) ^ e = (b : ℚ) ^ e.natAbs := by
      rw [← zpow_natCast, Int.natAbs_of_nonneg (by omega)]
    rw [hpower, Nat.pow_eq]
    push_cast
    field_simp

theorem div_lt_iff_value (hd : 0 < den) : num / den < k ↔ (num : ℚ) / den < k := by
  have hd' : (0 : ℚ) < den := by exact_mod_cast hd
  rw [Nat.div_lt_iff_lt_mul hd, div_lt_iff₀ hd']
  exact_mod_cast Iff.rfl

theorem eq_mul_of_value (hd : 0 < den) (h : (num : ℚ) / den = k) : num = k * den := by
  have hd' : (den : ℚ) ≠ 0 := by positivity
  rw [div_eq_iff hd'] at h
  exact_mod_cast h

theorem pos_of_value (h : (num : ℚ) / den = q) (hq : q ≠ 0) : 0 < num := by
  refine Nat.pos_of_ne_zero fun hzero => hq ?_
  rw [← h, hzero, Nat.cast_zero, zero_div]

/-! ### The exponent -/

/-- The exponent of the number nearest to a positive one: the least at which the mantissa fits. -/
structure Places (q : ℚ) (e : Int) : Prop where
  least : minExponent ≤ e
  above : q < 2 ^ 53 * 2 ^ e
  full : e = minExponent ∨ 2 ^ 52 * 2 ^ e ≤ q

theorem Places.le {e' : Int} (h : Places q e) (h' : Places q e') : e' ≤ e := by
  by_contra hlt
  have hfull := h'.full.resolve_left (by have := h.least; omega)
  have hpower : (2 : ℚ) ^ (e + 1) ≤ 2 ^ e' := zpow_le_zpow_right₀ (by norm_num) (by omega)
  rw [zpow_add_one₀ (by norm_num)] at hpower
  have habove := h.above
  linarith

theorem Places.unique {e' : Int} (h : Places q e) (h' : Places q e') : e = e' :=
  Int.le_antisymm (h'.le h) (h.le h')

/-- The value of a fraction lies between powers that its logarithms tell. -/
theorem value_lt_power (num : Nat) (hd : 0 < den) :
    (num : ℚ) / den < 2 ^ ((num.log2 : Int) - den.log2 + 1) := by
  have hd' : (0 : ℚ) < den := by exact_mod_cast hd
  have hnum : (num : ℚ) < 2 ^ (num.log2 + 1) := by exact_mod_cast Nat.lt_log2_self
  have hden : (2 : ℚ) ^ den.log2 ≤ den := by exact_mod_cast Nat.log2_self_le hd.ne'
  have hsplit : (2 : ℚ) ^ ((num.log2 : Int) - den.log2 + 1) * 2 ^ den.log2 =
      2 ^ (num.log2 + 1) := by
    rw [← zpow_natCast, ← zpow_natCast, ← zpow_add₀ (by norm_num)]
    congr 1
    push_cast
    ring
  rw [div_lt_iff₀ hd']
  have hpos : (0 : ℚ) < 2 ^ ((num.log2 : Int) - den.log2 + 1) := by positivity
  nlinarith

theorem power_lt_value (hn : 0 < num) (hd : 0 < den) :
    (2 : ℚ) ^ ((num.log2 : Int) - den.log2 - 1) < num / den := by
  have hd' : (0 : ℚ) < den := by exact_mod_cast hd
  have hnum : (2 : ℚ) ^ num.log2 ≤ num := by exact_mod_cast Nat.log2_self_le hn.ne'
  have hden : (den : ℚ) < 2 ^ (den.log2 + 1) := by exact_mod_cast Nat.lt_log2_self
  have hsplit : (2 : ℚ) ^ ((num.log2 : Int) - den.log2 - 1) * 2 ^ (den.log2 + 1) =
      2 ^ num.log2 := by
    rw [← zpow_natCast, ← zpow_natCast, ← zpow_add₀ (by norm_num)]
    congr 1
    push_cast
    ring
  rw [lt_div_iff₀ hd']
  have hpos : (0 : ℚ) < 2 ^ ((num.log2 : Int) - den.log2 - 1) := by positivity
  nlinarith

theorem places_exponentFor (hn : 0 < num) (hd : 0 < den) :
    Places ((num : ℚ) / den) (exponentFor num den) := by
  have hbelow := value_lt_power num hd
  have habove := power_lt_value hn hd
  obtain ⟨guess, hguess⟩ : ∃ guess, guess = max ((num.log2 : Int) - den.log2 - 53) minExponent :=
    ⟨_, rfl⟩
  have hpower : (0 : ℚ) < 2 ^ guess := by positivity
  have hfits : (overPower 2 num den guess).1 / (overPower 2 num den guess).2 < mantissaBound ↔
      (num : ℚ) / den < 2 ^ 53 * 2 ^ guess := by
    rw [div_lt_iff_value (overPower_pos (by decide) hd num guess),
      overPower_value (by decide), div_lt_iff₀ (by positivity)]
    norm_num [mantissaBound]
  rw [exponentFor]
  dsimp only
  rw [← hguess]
  split
  · next h =>
    refine ⟨by omega, hfits.1 h, ?_⟩
    by_cases hmin : guess = minExponent
    · exact .inl hmin
    · right
      have he : (num.log2 : Int) - den.log2 - 1 = 52 + guess := by omega
      rw [he, zpow_add₀ (by norm_num)] at habove
      exact_mod_cast habove.le
  · next h =>
    have hlarge := not_lt.1 (mt hfits.2 h)
    refine ⟨by omega, ?_, .inr ?_⟩
    · have hle : (2 : ℚ) ^ ((num.log2 : Int) - den.log2 + 1) ≤ 2 ^ (54 + guess) :=
        zpow_le_zpow_right₀ (by norm_num) (by omega)
      have hsplit : (2 : ℚ) ^ (54 + guess) = 2 ^ 53 * 2 ^ (guess + 1) := by
        rw [zpow_add₀ (by norm_num), zpow_add_one₀ (by norm_num)]
        norm_num
        ring
      rw [hsplit] at hle
      exact hbelow.trans_le hle
    · rw [zpow_add_one₀ (by norm_num)]
      linarith

/-! ### Rounding -/

theorem roundHalfEven_mul (hd : 0 < den) (k : Nat) : roundHalfEven (k * den) den = k := by
  have hrest : k * den % den = 0 := Nat.mul_mod_left k den
  have hwhole : k * den / den = k := Nat.mul_div_cancel k hd
  rw [roundHalfEven]
  rw [hrest, hwhole, if_neg (by simp; omega)]

theorem roundHalfEven_le (num den : Nat) : roundHalfEven num den ≤ num / den + 1 := by
  rw [roundHalfEven]
  split <;> omega

theorem le_roundHalfEven (num den : Nat) : num / den ≤ roundHalfEven num den := by
  rw [roundHalfEven]
  split <;> omega

/-- What a fraction is rounded to depends on its value alone. -/
theorem roundHalfEven_congr {num' den' : Nat} (hd : 0 < den) (hd' : 0 < den')
    (h : num * den' = num' * den) : roundHalfEven num den = roundHalfEven num' den' := by
  have hwhole : num / den = num' / den' := by
    rw [← Nat.mul_div_mul_right num den hd', h, Nat.mul_comm den den',
      Nat.mul_div_mul_right num' den' hd]
  have hrest : num % den * den' = num' % den' * den := by
    rw [← Nat.mul_mod_mul_right, ← Nat.mul_mod_mul_right, h, Nat.mul_comm den den']
  have htwice : 2 * (num % den) * den' = 2 * (num' % den') * den := by
    rw [Nat.mul_assoc, hrest, Nat.mul_assoc]
  have hmore : den < 2 * (num % den) ↔ den' < 2 * (num' % den') := by
    have hleft : den * den' < 2 * (num % den) * den' ↔ den < 2 * (num % den) :=
      Nat.mul_lt_mul_right hd'
    have hright : den' * den < 2 * (num' % den') * den ↔ den' < 2 * (num' % den') :=
      Nat.mul_lt_mul_right hd
    rw [← hleft, ← hright, htwice, Nat.mul_comm den den']
  have hhalf : 2 * (num % den) = den ↔ 2 * (num' % den') = den' := by
    have hleft : 2 * (num % den) * den' = den * den' ↔ 2 * (num % den) = den :=
      Nat.mul_left_inj hd'.ne'
    have hright : 2 * (num' % den') * den = den' * den ↔ 2 * (num' % den') = den' :=
      Nat.mul_left_inj hd.ne'
    rw [← hleft, ← hright, htwice, Nat.mul_comm den den']
  simp only [roundHalfEven, gt_iff_lt, hwhole, hmore, Bool.or_eq_true, Bool.and_eq_true,
    decide_eq_true_eq, beq_iff_eq, hhalf]

/-! ### The nearest number -/

/-- A mantissa of full length, or one with the least exponent, as numbers are read. -/
structure Canonical (mantissa : Nat) (exponent : Int) : Prop where
  below : mantissa < mantissaBound
  least : minExponent ≤ exponent
  most : exponent ≤ maxExponent
  full : exponent = minExponent ∨ 2 ^ 52 ≤ mantissa

theorem Canonical.value_lt (h : Canonical m e) : (m : ℚ) * 2 ^ e < 10 ^ (309 : Int) := by
  have hbelow : (m : ℚ) < 2 ^ 53 := by exact_mod_cast h.below
  have hpower : (2 : ℚ) ^ e ≤ 2 ^ (971 : Int) := zpow_le_zpow_right₀ (by norm_num) h.most
  have hpos : (0 : ℚ) < 2 ^ (971 : Int) := by positivity
  have hfar : (2 : ℚ) ^ 53 * 2 ^ 971 < 10 ^ 309 := by
    have hnat : 2 ^ 53 * 2 ^ 971 < 10 ^ 309 := by decide +kernel
    exact_mod_cast hnat
  calc (m : ℚ) * 2 ^ e ≤ m * 2 ^ (971 : Int) := mul_le_mul_of_nonneg_left hpower m.cast_nonneg
    _ < 2 ^ 53 * 2 ^ (971 : Int) := mul_lt_mul_of_pos_right hbelow hpos
    _ < 10 ^ (309 : Int) := hfar

theorem Canonical.lt_value (h : Canonical m e) (hm : 0 < m) :
    (10 : ℚ) ^ (-324 : Int) < m * 2 ^ e := by
  have hone : (1 : ℚ) ≤ m := by exact_mod_cast hm
  have hpower : (2 : ℚ) ^ (-1074 : Int) ≤ 2 ^ e := zpow_le_zpow_right₀ (by norm_num) h.least
  have hfar : (10 : ℚ) ^ (-324 : Int) < 2 ^ (-1074 : Int) := by
    have hnat : 2 ^ 1074 < 10 ^ 324 := by decide +kernel
    rw [zpow_neg, zpow_neg, inv_lt_inv₀ (by positivity) (by positivity)]
    exact_mod_cast hnat
  calc (10 : ℚ) ^ (-324 : Int) < 2 ^ (-1074 : Int) := hfar
    _ ≤ 2 ^ e := hpower
    _ ≤ m * 2 ^ e := le_mul_of_one_le_left (by positivity) hone

def withSign (negative : Bool) : Binary64 → Binary64
  | finite _ mantissa exponent => finite negative mantissa exponent
  | infinite _ => infinite negative
  | nan => nan

/-- The number of a mantissa and an exponent, unless that is too large. -/
def orInfinite (negative : Bool) (mantissa : Nat) (exponent : Int) : Binary64 :=
  if exponent > maxExponent then infinite negative else finite negative mantissa exponent

/-- The mantissa that a fraction is rounded to at its exponent. -/
def mantissaOf (num den : Nat) : Nat :=
  roundHalfEven (overPower 2 num den (exponentFor num den)).1
    (overPower 2 num den (exponentFor num den)).2

theorem ofFraction_eq (negative : Bool) (num den : Nat) :
    ofFraction negative num den =
      if mantissaOf num den = mantissaBound then
        orInfinite negative (mantissaOf num den / 2) (exponentFor num den + 1)
      else orInfinite negative (mantissaOf num den) (exponentFor num den) := by
  unfold ofFraction orInfinite mantissaOf
  simp only [beq_iff_eq]
  split_ifs <;> rfl

theorem withSign_orInfinite (negative sign : Bool) (mantissa : Nat) (exponent : Int) :
    (orInfinite sign mantissa exponent).withSign negative =
      orInfinite negative mantissa exponent := by
  rw [orInfinite, orInfinite]
  split <;> rfl

theorem ofFraction_withSign (negative : Bool) (num den : Nat) :
    ofFraction negative num den = (ofFraction false num den).withSign negative := by
  rw [ofFraction_eq, ofFraction_eq]
  split <;> rw [withSign_orInfinite]

/-- A fraction over the power at its exponent, by its value. -/
theorem mantissaOf_congr {num' den' : Nat} (hd : 0 < den) (hd' : 0 < den')
    (hexponent : exponentFor num den = exponentFor num' den')
    (h : (num : ℚ) / den = num' / den') : mantissaOf num den = mantissaOf num' den' := by
  have hpos := overPower_pos (b := 2) (by decide) hd num (exponentFor num' den')
  have hpos' := overPower_pos (b := 2) (by decide) hd' num' (exponentFor num' den')
  have hvalue := overPower_value (b := 2) (by decide) num den (exponentFor num' den')
  rw [h, ← overPower_value (by decide), div_eq_div_iff (by positivity) (by positivity)] at hvalue
  rw [mantissaOf, mantissaOf, hexponent]
  exact roundHalfEven_congr hpos hpos' (by exact_mod_cast hvalue)

/-- The nearest number to a fraction depends on its value alone. -/
theorem ofFraction_congr {num' den' : Nat} (hn : 0 < num) (hd : 0 < den) (hn' : 0 < num')
    (hd' : 0 < den') (h : (num : ℚ) / den = num' / den') (negative : Bool) :
    ofFraction negative num den = ofFraction negative num' den' := by
  have hexponent : exponentFor num den = exponentFor num' den' := by
    have hplaces := places_exponentFor hn hd
    rw [h] at hplaces
    exact hplaces.unique (places_exponentFor hn' hd')
  rw [ofFraction_eq, ofFraction_eq, mantissaOf_congr hd hd' hexponent h, hexponent]

/-- A canonical number is nearest to itself. -/
theorem ofFraction_of_canonical (hc : Canonical m e) (hn : 0 < num) (hd : 0 < den)
    (h : (num : ℚ) / den = m * 2 ^ e) (negative : Bool) :
    ofFraction negative num den = finite negative m e := by
  have hpower : (0 : ℚ) < 2 ^ e := by positivity
  have hplaces : Places ((num : ℚ) / den) e := by
    rw [h]
    refine ⟨hc.least, ?_, hc.full.imp id fun hfull => ?_⟩
    · have hbelow : (m : ℚ) < 2 ^ 53 := by exact_mod_cast hc.below
      exact mul_lt_mul_of_pos_right hbelow hpower
    · have hfull : (2 ^ 52 : ℚ) ≤ m := by exact_mod_cast hfull
      exact mul_le_mul_of_nonneg_right hfull hpower.le
  have hexponent : exponentFor num den = e := (places_exponentFor hn hd).unique hplaces
  have hmantissa : mantissaOf num den = m := by
    have hpos := overPower_pos (b := 2) (by decide) hd num e
    have hvalue := overPower_value (b := 2) (by decide) num den e
    rw [h, Nat.cast_ofNat, mul_div_cancel_right₀ _ hpower.ne'] at hvalue
    rw [mantissaOf, hexponent, eq_mul_of_value hpos hvalue, roundHalfEven_mul hpos]
  rw [ofFraction_eq, hmantissa, hexponent, if_neg hc.below.ne, orInfinite,
    if_neg (not_lt.2 hc.most)]

/-- The nearest number is canonical, if it is finite. -/
theorem canonical_of_ofFraction {negative sign : Bool} (hn : 0 < num) (hd : 0 < den)
    (h : ofFraction negative num den = finite sign m e) : Canonical m e := by
  have hplaces := places_exponentFor hn hd
  have hleast := hplaces.least
  have hpower : (0 : ℚ) < 2 ^ exponentFor num den := by positivity
  have hpos := overPower_pos (b := 2) (by decide) hd num (exponentFor num den)
  have hvalue := overPower_value (b := 2) (by decide) num den (exponentFor num den)
  have hbelow : mantissaOf num den ≤ mantissaBound := by
    refine (roundHalfEven_le _ _).trans (Nat.succ_le_of_lt ?_)
    rw [div_lt_iff_value hpos, hvalue, Nat.cast_ofNat, div_lt_iff₀ hpower]
    exact_mod_cast hplaces.above
  have hfull : exponentFor num den = minExponent ∨ 2 ^ 52 ≤ mantissaOf num den := by
    refine hplaces.full.imp id fun hlong => le_trans ?_ (le_roundHalfEven _ _)
    rw [← not_lt, div_lt_iff_value hpos, hvalue, not_lt, Nat.cast_ofNat, le_div_iff₀ hpower]
    exact_mod_cast hlong
  rw [ofFraction_eq] at h
  split at h
  · next hround =>
    rw [orInfinite] at h
    split at h
    · cases h
    · next hmost =>
      cases h
      refine ⟨?_, by omega, not_lt.1 hmost, .inr ?_⟩
      · rw [hround]
        decide
      · rw [hround]
        decide
  · next hround =>
    rw [orInfinite] at h
    split at h
    · cases h
    · next hmost =>
      cases h
      exact ⟨lt_of_le_of_ne hbelow hround, hleast, not_lt.1 hmost, hfull⟩

/-! ### Decimals -/

variable {digits : Nat} {exponent : Int} {negative : Bool}

theorem lt_pow_digitCount (n : Nat) : n < 10 ^ digitCount n :=
  (Nat.length_toDigits_le_iff (by decide) Nat.length_toDigits_pos).1 le_rfl

theorem pow_digitCount_le {n : Nat} (hn : 0 < n) : 10 ^ (digitCount n - 1) ≤ n := by
  by_contra hlt
  by_cases hone : digitCount n - 1 = 0
  · rw [hone] at hlt
    omega
  · have hle : digitCount n ≤ digitCount n - 1 :=
      (Nat.length_toDigits_le_iff (by decide) (by omega)).2 (not_le.1 hlt)
    omega

theorem digitCount_pos (n : Nat) : 0 < digitCount n :=
  Nat.length_toDigits_pos

theorem digitCount_eq {n count : Nat} (hle : 10 ^ count ≤ n) (hlt : n < 10 ^ (count + 1)) :
    digitCount n = count + 1 := by
  refine le_antisymm ((Nat.length_toDigits_le_iff (by decide) (by omega)).2 hlt) ?_
  by_contra hfew
  have hbound := lt_pow_digitCount n
  have hpower : 10 ^ digitCount n ≤ 10 ^ count := Nat.pow_le_pow_right (by decide) (by omega)
  omega

theorem digitCount_mul_pow {n : Nat} (hn : 0 < n) (k : Nat) :
    digitCount (n * 10 ^ k) = digitCount n + k := by
  have hpos := digitCount_pos n
  have hle : 10 ^ (digitCount n - 1 + k) ≤ n * 10 ^ k := by
    rw [Nat.pow_add]
    exact Nat.mul_le_mul_right _ (pow_digitCount_le hn)
  have hlt : n * 10 ^ k < 10 ^ (digitCount n - 1 + k + 1) := by
    have hsplit : digitCount n - 1 + k + 1 = digitCount n + k := by omega
    rw [hsplit, Nat.pow_add]
    exact Nat.mul_lt_mul_of_pos_right (lt_pow_digitCount n) (by positivity)
  rw [digitCount_eq hle hlt]
  omega

/-- The fraction of a decimal. -/
theorem decimal_value (digits : Nat) (exponent : Int) :
    ((overPower 10 digits 1 (-exponent)).1 : ℚ) / (overPower 10 digits 1 (-exponent)).2 =
      digits * 10 ^ exponent := by
  rw [overPower_value (by decide), Nat.cast_one, div_one, zpow_neg, div_inv_eq_mul]
  norm_num

theorem decimal_pos (hd : 0 < digits) (exponent : Int) :
    0 < (overPower 10 digits 1 (-exponent)).1 ∧ 0 < (overPower 10 digits 1 (-exponent)).2 := by
  have hpos := overPower_pos (b := 10) (by decide) one_pos digits (-exponent)
  exact ⟨pos_of_value (decimal_value digits exponent) (by positivity), hpos⟩

theorem ofDecimal_eq (hd : 0 < digits) (hleast : -400 ≤ exponent + digitCount digits)
    (hmost : exponent + digitCount digits ≤ 400) (negative : Bool) :
    ofDecimal negative digits exponent =
      ofFraction negative (overPower 10 digits 1 (-exponent)).1
        (overPower 10 digits 1 (-exponent)).2 := by
  rw [ofDecimal]
  dsimp only
  rw [if_neg (by simp; omega), if_neg (by omega)]

theorem ofDecimal_withSign (negative : Bool) (digits : Nat) (exponent : Int) :
    ofDecimal negative digits exponent = (ofDecimal false digits exponent).withSign negative := by
  rw [ofDecimal, ofDecimal]
  dsimp only
  split_ifs
  · rfl
  · rfl
  · exact ofFraction_withSign negative _ _

/-- Zeros at the end of a decimal do not change what it is read as. -/
theorem ofDecimal_mul_pow (negative : Bool) (digits : Nat) (exponent : Int) (k : Nat) :
    ofDecimal negative (digits * 10 ^ k) (exponent - k) = ofDecimal negative digits exponent := by
  rcases Nat.eq_zero_or_pos digits with rfl | hd
  · rw [Nat.zero_mul, ofDecimal, ofDecimal]
    rfl
  · have hsize : exponent - k + digitCount (digits * 10 ^ k) = exponent + digitCount digits := by
      rw [digitCount_mul_pow hd]
      omega
    have hmore : 0 < digits * 10 ^ k := by positivity
    by_cases hin : -400 ≤ exponent + digitCount digits ∧ exponent + digitCount digits ≤ 400
    · obtain ⟨hnum, hden⟩ := decimal_pos hmore (exponent - k)
      obtain ⟨hnum', hden'⟩ := decimal_pos hd exponent
      rw [ofDecimal_eq hmore (by omega) (by omega), ofDecimal_eq hd hin.1 hin.2]
      refine ofFraction_congr hnum hden hnum' hden' ?_ negative
      rw [decimal_value, decimal_value, zpow_sub₀ (by norm_num), zpow_natCast]
      push_cast
      field_simp
    · have hzero : (digits * 10 ^ k == 0) = false := by simpa using hmore.ne'
      have hzero' : (digits == 0) = false := by simpa using hd.ne'
      simp only [ofDecimal, hsize, hzero, hzero']
      split_ifs
      · rfl
      · rfl
      · next hsmall hlarge =>
        simp at hsmall
        omega

/-- The size of a decimal tells between which powers it lies. -/
theorem decimal_size (hd : 0 < digits) (exponent : Int) :
    (10 : ℚ) ^ (exponent + digitCount digits - 1) ≤ digits * 10 ^ exponent ∧
      (digits : ℚ) * 10 ^ exponent < 10 ^ (exponent + digitCount digits) := by
  have hpos := digitCount_pos digits
  have hpower : (0 : ℚ) < 10 ^ exponent := by positivity
  have hle : (10 : ℚ) ^ (digitCount digits - 1) ≤ digits := by
    exact_mod_cast pow_digitCount_le hd
  have hlt : (digits : ℚ) < 10 ^ digitCount digits := by
    exact_mod_cast lt_pow_digitCount digits
  have hsplit : exponent + digitCount digits - 1 =
      ((digitCount digits - 1 : Nat) : Int) + exponent := by
    omega
  constructor
  · rw [hsplit, zpow_add₀ (by norm_num), zpow_natCast]
    exact mul_le_mul_of_nonneg_right hle hpower.le
  · rw [add_comm, zpow_add₀ (by norm_num), zpow_natCast]
    exact mul_lt_mul_of_pos_right hlt hpower

/-- A decimal that is a canonical number is read as that number. -/
theorem ofDecimal_of_canonical (hc : Canonical m e) (hm : 0 < m)
    (h : (digits : ℚ) * 10 ^ exponent = m * 2 ^ e) (negative : Bool) :
    ofDecimal negative digits exponent = finite negative m e := by
  have hd : 0 < digits := by
    refine Nat.pos_of_ne_zero fun hzero => ?_
    rw [hzero, Nat.cast_zero, zero_mul] at h
    have hne : (m : ℚ) * 2 ^ e ≠ 0 := by positivity
    exact hne h.symm
  have hsize := decimal_size hd exponent
  rw [h] at hsize
  have hleast : -400 ≤ exponent + digitCount digits := by
    by_contra hsmall
    have hpower : (10 : ℚ) ^ (exponent + digitCount digits) ≤ 10 ^ (-324 : Int) :=
      zpow_le_zpow_right₀ (by norm_num) (by omega)
    linarith [hc.lt_value hm]
  have hmost : exponent + digitCount digits ≤ 400 := by
    by_contra hlarge
    have hpower : (10 : ℚ) ^ (309 : Int) ≤ 10 ^ (exponent + digitCount digits - 1) :=
      zpow_le_zpow_right₀ (by norm_num) (by omega)
    linarith [hc.value_lt]
  obtain ⟨hnum, hden⟩ := decimal_pos hd exponent
  rw [ofDecimal_eq hd hleast hmost]
  exact ofFraction_of_canonical hc hnum hden ((decimal_value digits exponent).trans h) negative

/-- A number as it is read: any but those that no decimal is nearest to. -/
def IsRead : Binary64 → Prop
  | finite _ mantissa exponent => Canonical mantissa exponent
  | infinite _ => True
  | nan => True

theorem canonical_zero : Canonical 0 minExponent :=
  ⟨by decide, le_rfl, by decide, .inl rfl⟩

theorem isRead_ofDecimal (negative : Bool) (digits : Nat) (exponent : Int) :
    (ofDecimal negative digits exponent).IsRead := by
  rw [ofDecimal]
  dsimp only
  split_ifs with hzero hlarge
  · exact canonical_zero
  · trivial
  · have hd : 0 < digits := by
      simp only [Bool.or_eq_true, beq_iff_eq, not_or] at hzero
      exact Nat.pos_of_ne_zero hzero.1
    obtain ⟨hnum, hden⟩ := decimal_pos hd exponent
    cases hf : ofFraction negative (overPower 10 digits 1 (-exponent)).1
        (overPower 10 digits 1 (-exponent)).2 with
    | finite sign m e => exact canonical_of_ofFraction hnum hden hf
    | infinite sign => trivial
    | nan => trivial

end FileSieve.Binary64
