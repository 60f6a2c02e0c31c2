import FileSieve.Text.Blank
import FileSieve.Text.Hex

/-!
Text in 16-bit units, the form in which documents hold it. A character beyond U+FFFF is a pair of
units. Half of such a pair may also stand alone; it stands for no character, but it is kept.

The units of a string decode to that string (`toString?_ofString`).
-/

namespace FileSieve

/-- A text in 16-bit units. -/
structure Utf16 where
  units : List UInt16
deriving DecidableEq, Repr

namespace Utf16

/-- The units of a character: the character itself, or the two halves of its pair. -/
def ofChar (c : Char) : List UInt16 :=
  let n := c.toNat
  if n < 0x10000 then [UInt16.ofNat n]
  else [UInt16.ofNat (0xD800 + (n - 0x10000) / 0x400),
    UInt16.ofNat (0xDC00 + (n - 0x10000) % 0x400)]

def ofString (s : String) : Utf16 := ⟨s.toList.flatMap ofChar⟩

instance : Coe String Utf16 := ⟨ofString⟩

instance : Append Utf16 := ⟨fun s t => ⟨s.units ++ t.units⟩⟩

/-- Whether a unit is the first half of a pair. -/
def isHigh (u : UInt16) : Bool := 0xD800 ≤ u.toNat && u.toNat < 0xDC00

def isLow (u : UInt16) : Bool := 0xDC00 ≤ u.toNat && u.toNat < 0xE000

def ofPair (high low : UInt16) : Char :=
  Char.ofNat (0x10000 + (high.toNat - 0xD800) * 0x400 + (low.toNat - 0xDC00))

/-- What a unit is on its own: a character, or half a pair. -/
def ofUnit (u : UInt16) : Except UInt16 Char :=
  if isHigh u || isLow u then .error u else .ok (Char.ofNat u.toNat)

/-- The characters of units. A half that stands alone takes the place of a character. -/
def decodeUnits : List UInt16 → List (Except UInt16 Char)
  | [] => []
  | [u] => [ofUnit u]
  | high :: low :: rest =>
    if isHigh high && isLow low then .ok (ofPair high low) :: decodeUnits rest
    else ofUnit high :: decodeUnits (low :: rest)

/-- The characters of a text, with the halves that stand alone. -/
def decode (t : Utf16) : List (Except UInt16 Char) := decodeUnits t.units

/-- The text as a string, with U+FFFD for each half that stands alone. -/
def lossy (t : Utf16) : String :=
  String.ofList (t.decode.map fun symbol => symbol.toOption.getD '\uFFFD')

/-- Whether a unit is a blank. No blank lies beyond U+FFFF. -/
def isBlankUnit (u : UInt16) : Bool := Text.isBlank (Char.ofNat u.toNat)

def trim (t : Utf16) : Utf16 := ⟨Text.dropBothWhile isBlankUnit t.units⟩

/-- Halves that stand alone in a text, one after the other. -/
structure LoneHalves where
  position : Nat
  first : UInt16
  others : List UInt16
deriving DecidableEq, Repr

def leadingHalves : List (Except UInt16 Char) → List UInt16
  | .error half :: rest => half :: leadingHalves rest
  | _ => []

/-- The first halves that stand alone. -/
def loneHalves? : List (Except UInt16 Char) → Option LoneHalves
  | [] => none
  | .ok _ :: rest => (loneHalves? rest).map fun h => { h with position := h.position + 1 }
  | .error half :: rest => some ⟨0, half, leadingHalves rest⟩

/-- What is said about a text that has no UTF-8 form because of them. -/
def LoneHalves.message (h : LoneHalves) : String :=
  let place := toString h.position
  (if h.others.isEmpty then
    "'utf-8' codec can't encode character '\\u" ++ String.ofList (Text.hex 4 h.first.toNat) ++
      "' in position " ++ place
  else
    "'utf-8' codec can't encode characters in position " ++ place ++ "-" ++
      toString (h.position + h.others.length)) ++ ": surrogates not allowed"

/-- The string that a text is, unless half a pair stands alone in it. -/
def asString (t : Utf16) : Except LoneHalves String :=
  match loneHalves? t.decode with
  | some halves => .error halves
  | none => .ok t.lossy

/-- The string that a text is, if it is one. -/
def toString? (t : Utf16) : Option String := t.asString.toOption

theorem append_assoc (s t u : Utf16) : s ++ t ++ u = s ++ (t ++ u) :=
  congrArg Utf16.mk (List.append_assoc s.units t.units u.units)

theorem append_empty (t : Utf16) : t ++ ofString "" = t :=
  congrArg Utf16.mk (List.append_nil t.units)

theorem ofString_append (s t : String) : ofString (s ++ t) = ofString s ++ ofString t := by
  rw [ofString, String.toList_append, List.flatMap_append]
  rfl

theorem ofUnit_ofNat {c : Char} (h : c.toNat < 0x10000) :
    isHigh (UInt16.ofNat c.toNat) = false ∧ ofUnit (UInt16.ofNat c.toNat) = .ok c := by
  have hn : (UInt16.ofNat c.toNat).toNat = c.toNat := by
    simp [UInt16.toNat_ofNat']
    omega
  have hv : c.toNat < 0xD800 ∨ 0xDFFF < c.toNat := by
    rcases c.valid with hc | hc
    · exact .inl hc
    · exact .inr hc.1
  have hh : isHigh (UInt16.ofNat c.toNat) = false ∧ isLow (UInt16.ofNat c.toNat) = false := by
    simp only [isHigh, isLow, hn, Bool.and_eq_false_iff, decide_eq_false_iff_not]
    omega
  simp [ofUnit, hh, hn]

theorem ofPair_halves {c : Char} (h : ¬c.toNat < 0x10000) :
    let high := UInt16.ofNat (0xD800 + (c.toNat - 0x10000) / 0x400)
    let low := UInt16.ofNat (0xDC00 + (c.toNat - 0x10000) % 0x400)
    isHigh high = true ∧ isLow low = true ∧ ofPair high low = c := by
  intro high low
  have hv : c.toNat < 0x110000 := by
    rcases c.valid with hc | hc
    · exact Nat.lt_trans hc (by decide)
    · exact hc.2
  have hhigh : high.toNat = 0xD800 + (c.toNat - 0x10000) / 0x400 := by
    simp only [high, UInt16.toNat_ofNat']
    omega
  have hlow : low.toNat = 0xDC00 + (c.toNat - 0x10000) % 0x400 := by
    simp only [low, UInt16.toNat_ofNat']
    omega
  refine ⟨?_, ?_, ?_⟩
  · simp only [isHigh, hhigh, Bool.and_eq_true, decide_eq_true_eq]
    omega
  · simp only [isLow, hlow, Bool.and_eq_true, decide_eq_true_eq]
    omega
  · have hc : 0x10000 + (high.toNat - 0xD800) * 0x400 + (low.toNat - 0xDC00) = c.toNat := by
      omega
    rw [ofPair, hc, Char.ofNat_toNat]

theorem decodeUnits_ofChar (c : Char) (rest : List UInt16) :
    decodeUnits (ofChar c ++ rest) = .ok c :: decodeUnits rest := by
  by_cases h : c.toNat < 0x10000
  · obtain ⟨hh, hu⟩ := ofUnit_ofNat h
    cases rest <;> simp [ofChar, h, decodeUnits, hh, hu]
  · obtain ⟨hh, hl, hp⟩ := ofPair_halves h
    simp only [ofChar, h, if_false, List.cons_append, List.nil_append, decodeUnits, hh, hl, hp,
      Bool.and_self, if_true]

theorem decode_ofString (s : String) : (ofString s).decode = s.toList.map .ok := by
  simp only [decode, ofString]
  induction s.toList with
  | nil => rfl
  | cons c cs ih => rw [List.flatMap_cons, decodeUnits_ofChar, ih, List.map_cons]

theorem loneHalves?_map_ok (cs : List Char) : loneHalves? (cs.map .ok) = none := by
  induction cs with
  | nil => rfl
  | cons c cs ih => simp [loneHalves?, ih]

theorem lossy_ofString (s : String) : (ofString s).lossy = s := by
  have h (cs : List Char) :
      (cs.map fun c => (Except.ok c : Except UInt16 Char).toOption.getD '\uFFFD') = cs :=
    List.map_id cs
  rw [lossy, decode_ofString, List.map_map, Function.comp_def, h, String.ofList_toList]

theorem toString?_ofString (s : String) : (ofString s).toString? = some s := by
  simp [toString?, asString, lossy_ofString, decode_ofString, loneHalves?_map_ok,
    Except.toOption]

theorem ofString_inj {s t : String} : ofString s = ofString t ↔ s = t := by
  constructor
  · intro h
    have hs := congrArg toString? h
    rwa [toString?_ofString, toString?_ofString, Option.some.injEq] at hs
  · exact congrArg ofString

theorem toNat_ofNat {n : Nat} (h : n.isValidChar) : (Char.ofNat n).toNat = n := by
  rw [Char.ofNat, dif_pos h]
  rfl

theorem ofChar_of_ofUnit {u : UInt16} {c : Char} (h : ofUnit u = .ok c) :
    ofChar c = [u] := by
  have hlt := u.toNat_lt
  unfold ofUnit at h
  split at h
  · cases h
  · next hn =>
    cases h
    simp only [isHigh, isLow, Bool.or_eq_true, Bool.and_eq_true, decide_eq_true_eq] at hn
    have hv : u.toNat.isValidChar := by
      unfold Nat.isValidChar
      omega
    rw [ofChar, toNat_ofNat hv, if_pos (by omega), UInt16.ofNat_toNat]

theorem ofChar_ofPair {high low : UInt16} (hh : isHigh high = true)
    (hl : isLow low = true) : ofChar (ofPair high low) = [high, low] := by
  simp only [isHigh, Bool.and_eq_true, decide_eq_true_eq] at hh
  simp only [isLow, Bool.and_eq_true, decide_eq_true_eq] at hl
  have hv : (0x10000 + (high.toNat - 0xD800) * 0x400 + (low.toNat - 0xDC00)).isValidChar := by
    unfold Nat.isValidChar
    omega
  have hhigh : 0xD800 + ((high.toNat - 0xD800) * 0x400 + (low.toNat - 0xDC00)) / 0x400 =
      high.toNat := by
    omega
  have hlow : 0xDC00 + ((high.toNat - 0xD800) * 0x400 + (low.toNat - 0xDC00)) % 0x400 =
      low.toNat := by
    omega
  rw [ofChar, ofPair, toNat_ofNat hv, if_neg (by omega)]
  have hsub : 0x10000 + (high.toNat - 0xD800) * 0x400 + (low.toNat - 0xDC00) - 0x10000 =
      (high.toNat - 0xD800) * 0x400 + (low.toNat - 0xDC00) := by
    omega
  rw [hsub, hhigh, hlow, UInt16.ofNat_toNat, UInt16.ofNat_toNat]

/-- Units in which no half stands alone are those of the characters that they decode to. -/
theorem flatMap_ofChar_decodeUnits (units : List UInt16) (cs : List Char)
    (h : decodeUnits units = cs.map .ok) : cs.flatMap ofChar = units := by
  fun_induction decodeUnits units generalizing cs with
  | case1 =>
    rw [List.map_eq_nil_iff.1 h.symm]
    rfl
  | case2 u =>
    obtain ⟨c, rest, rfl, hc, hrest⟩ := List.map_eq_cons_iff.1 h.symm
    obtain rfl := List.map_eq_nil_iff.1 hrest
    rw [List.flatMap_singleton, ofChar_of_ofUnit hc.symm]
  | case3 high low units hp ih =>
    obtain ⟨c, rest, rfl, hc, hrest⟩ := List.map_eq_cons_iff.1 h.symm
    rw [Bool.and_eq_true] at hp
    rw [List.flatMap_cons, ih rest hrest.symm, Except.ok.inj hc, ofChar_ofPair hp.1 hp.2]
    rfl
  | case4 high low units hp ih =>
    obtain ⟨c, rest, rfl, hc, hrest⟩ := List.map_eq_cons_iff.1 h.symm
    rw [List.flatMap_cons, ih rest hrest.symm, ofChar_of_ofUnit hc.symm]
    rfl

theorem loneHalves?_eq_none_iff {symbols : List (Except UInt16 Char)} :
    loneHalves? symbols = none ↔ ∀ half, .error half ∉ symbols := by
  induction symbols with
  | nil => simp [loneHalves?]
  | cons symbol symbols ih =>
    cases symbol with
    | ok c => simp [loneHalves?, ih]
    | error half =>
      have hmem : (.error half : Except UInt16 Char) ∈ .error half :: symbols := List.mem_cons_self
      exact iff_of_false nofun fun h => h half hmem

theorem eq_map_ok_of_loneHalves? {symbols : List (Except UInt16 Char)}
    (h : loneHalves? symbols = none) : ∃ cs : List Char, symbols = cs.map .ok := by
  induction symbols with
  | nil => exact ⟨[], rfl⟩
  | cons symbol symbols ih =>
    cases symbol with
    | error half => cases h
    | ok c =>
      obtain ⟨cs, rfl⟩ := ih (Option.map_eq_none_iff.1 h)
      exact ⟨c :: cs, rfl⟩

/-- A text in which no half of a pair stands alone is a string. -/
theorem exists_ofString {t : Utf16} (h : loneHalves? t.decode = none) : ∃ s, t = ofString s := by
  obtain ⟨cs, hcs⟩ := eq_map_ok_of_loneHalves? h
  refine ⟨String.ofList cs, ?_⟩
  rw [ofString, String.toList_ofList, flatMap_ofChar_decodeUnits t.units cs hcs]

end Utf16

end FileSieve
