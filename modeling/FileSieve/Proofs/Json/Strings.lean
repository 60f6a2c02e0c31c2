import Mathlib.Algebra.Group.Nat.Defs
import Mathlib.Tactic.SplitIfs
import FileSieve.Json.Reader
import FileSieve.Json.Writer

/-! # Strings are read as they were written

A character is written as itself or as an escape, and half a pair that stands alone is always
written as an escape by number. Each is read back as the units that it was written for. -/

namespace FileSieve

/-! ### Hexadecimal digits -/

namespace Text

theorem hexValue?_hexDigit : ∀ n < 16, hexValue? (hexDigit n) = some n := by
  decide

theorem ofHex?_concat (digits : List Char) (c : Char) :
    ofHex? (digits ++ [c]) = do return (← ofHex? digits) * 16 + (← hexValue? c) := by
  rw [ofHex?, List.foldl_append]
  rfl

/-- A number is read back from its digits, up to the digits that are cut off. -/
theorem ofHex?_hex (width n : Nat) : ofHex? (hex width n) = some (n % 16 ^ width) := by
  induction width generalizing n with
  | zero => simp [hex, ofHex?, Nat.mod_one]
  | succ width ih =>
    have hmod : n / 16 % 16 ^ width * 16 + n % 16 = n % 16 ^ (width + 1) := by
      rw [Nat.pow_succ', Nat.mod_mul]
      omega
    rw [hex, ofHex?_concat, ih, hexValue?_hexDigit _ (Nat.mod_lt _ (by decide)), ← hmod]
    rfl

end Text

namespace Json

open Utf16 (decodeUnits)

/-! ### Characters -/

/-- What is read of a string behind some text that stands for given units. -/
def prepended (units : List UInt16) (read : Option (List UInt16 × List Char)) :
    Option (List UInt16 × List Char) :=
  read.map fun found => (units ++ found.1, found.2)

theorem readString_escapeUnit {n : Nat} (h : n < 0x10000) (rest : List Char) :
    readString (escapeUnit n ++ rest) = prepended [UInt16.ofNat n] (readString rest) := by
  have hn : Text.ofHex? (Text.hex 4 n) = some n := by
    rw [Text.ofHex?_hex, Nat.mod_eq_of_lt (by omega)]
  have hdigits : Text.hex 4 n = [Text.hexDigit (n / 16 / 16 / 16 % 16),
    Text.hexDigit (n / 16 / 16 % 16), Text.hexDigit (n / 16 % 16), Text.hexDigit (n % 16)] := rfl
  rw [hdigits] at hn
  rw [escapeUnit, hdigits]
  simp only [List.cons_append, List.nil_append]
  rw [readString, hn]
  cases readString rest <;> rfl

theorem readString_escape {letter c : Char} (h : ofEscape? letter = some c) (rest : List Char) :
    readString ('\\' :: letter :: rest) = prepended (Utf16.ofChar c) (readString rest) := by
  have hu : letter ≠ 'u' := by
    rintro rfl
    cases h
  rw [readString, h]
  · cases readString rest <;> rfl
  · exact fun _ _ _ _ _ hletter => absurd hletter hu

theorem readString_plain {c : Char} (hq : c ≠ '"') (hb : c ≠ '\\') (h : 32 ≤ c.toNat)
    (rest : List Char) :
    readString (c :: rest) = prepended (Utf16.ofChar c) (readString rest) := by
  have hc : ¬(c.toNat < 32 || c = '\\') := by
    simp [hb]
    omega
  rw [readString, if_neg hc]
  · cases readString rest <;> rfl
  · exact fun h => hq h
  · exact fun _ _ _ _ _ h => absurd h hb
  · exact fun _ _ h => absurd h hb

theorem readString_escapeChar (c : Char) (rest : List Char) :
    readString (escapeChar c ++ rest) = prepended (Utf16.ofChar c) (readString rest) := by
  have hc : c.toNat < 0x110000 := by
    rcases c.valid with hc | hc
    · exact Nat.lt_trans hc (by decide)
    · exact hc.2
  rw [escapeChar, Utf16.ofChar]
  split
  · next hn => exact readString_escapeUnit hn rest
  · rw [List.append_assoc, readString_escapeUnit (by omega), readString_escapeUnit (by omega)]
    cases readString rest <;> rfl

/-! ### Texts

No form leaves control characters as they are, and nothing more is asked of it. -/

section Plain

variable {plain : Char → Bool} (hplain : ∀ c, plain c = true → 32 ≤ c.toNat)

include hplain

/-- A character is read back, however it is written. -/
theorem readString_writeChar (c : Char) (rest : List Char) :
    readString (writeChar plain c ++ rest) = prepended (Utf16.ofChar c) (readString rest) := by
  unfold writeChar
  split_ifs with hq hb _ _ _ _ _ hp
  · subst hq
    exact readString_escape rfl rest
  · subst hb
    exact readString_escape rfl rest
  · subst c
    exact readString_escape rfl rest
  · subst c
    exact readString_escape rfl rest
  · subst c
    exact readString_escape rfl rest
  · subst c
    exact readString_escape rfl rest
  · subst c
    exact readString_escape rfl rest
  · exact readString_plain hq hb (hplain c hp) rest
  · exact readString_escapeChar c rest

theorem readString_ofUnit (u : UInt16) (rest : List Char) :
    readString (writeSymbol plain (Utf16.ofUnit u) ++ rest) = prepended [u] (readString rest) := by
  cases h : Utf16.ofUnit u with
  | ok c =>
    rw [writeSymbol, readString_writeChar hplain, Utf16.ofChar_of_ofUnit h]
  | error half =>
    have hu : u = half := by
      unfold Utf16.ofUnit at h
      split at h
      · cases h
        rfl
      · cases h
    subst hu
    rw [writeSymbol, readString_escapeUnit u.toNat_lt, UInt16.ofNat_toNat]

/-- The units of a text are read back. -/
theorem readString_decode (units : List UInt16) (rest : List Char) :
    readString ((decodeUnits units).flatMap (writeSymbol plain) ++ '"' :: rest) =
      some (units, rest) := by
  fun_induction decodeUnits units with
  | case1 => rfl
  | case2 u =>
    rw [List.flatMap_singleton, readString_ofUnit hplain]
    rfl
  | case3 high low units hp ih =>
    rw [Bool.and_eq_true] at hp
    rw [List.flatMap_cons, List.append_assoc, writeSymbol, readString_writeChar hplain, ih,
      Utf16.ofChar_ofPair hp.1 hp.2]
    rfl
  | case4 high low units hp ih =>
    rw [List.flatMap_cons, List.append_assoc, readString_ofUnit hplain, ih]
    rfl

end Plain

theorem le_of_isPlainAscii (c : Char) (h : isPlainAscii c = true) : 32 ≤ c.toNat := by
  rw [isPlainAscii, Bool.and_eq_true] at h
  exact of_decide_eq_true h.1

theorem le_of_isUnescaped (c : Char) (h : isUnescaped c = true) : 32 ≤ c.toNat :=
  of_decide_eq_true h

theorem writeString_append (plain : Char → Bool) (t : Utf16) (rest : List Char) :
    writeString plain t ++ rest =
      '"' :: (t.decode.flatMap (writeSymbol plain) ++ '"' :: rest) := by
  simp [writeString]

theorem readString_writeString (t : Utf16) (rest : List Char) :
    readString (t.decode.flatMap (writeSymbol isPlainAscii) ++ '"' :: rest) =
      some (t.units, rest) :=
  readString_decode le_of_isPlainAscii t.units rest

end Json

end FileSieve
