import Mathlib.Data.List.DropRight
import FileSieve.Text.Utf16

/-! # Trimming

A trimmed text stays as it is when it is trimmed again. A string is trimmed alike whether it is
taken as characters or as 16-bit units. -/

namespace FileSieve

namespace Text

variable {α β : Type} {p : α → Bool} {q : β → Bool}

theorem dropWhile_dropBothWhile (as : List α) :
    (dropBothWhile p as).dropWhile p = dropBothWhile p as := by
  cases hd : dropBothWhile p as with
  | nil => rfl
  | cons a rest =>
    obtain ⟨back, hback⟩ : dropBothWhile p as <+: as.dropWhile p := List.rdropWhile_prefix ..
    have hp := List.head?_dropWhile_not p as
    rw [← hback, hd] at hp
    rw [List.dropWhile_cons_of_neg (by simpa using hp)]

theorem dropBothWhile_idem (as : List α) :
    dropBothWhile p (dropBothWhile p as) = dropBothWhile p as := by
  rw [dropBothWhile, dropWhile_dropBothWhile, dropBothWhile]
  exact List.rdropWhile_idempotent _ _

theorem trim_trim (s : String) : trim (trim s) = trim s := by
  rw [trim, trim, String.toList_ofList, dropBothWhile_idem]

/-- Dropping items drops what they are spelled with, if dropped items are spelled with dropped ones
and kept items begin with kept ones. -/
theorem dropWhile_flatMap {f : β → List α}
    (hdropped : ∀ b, q b = true → ∀ a ∈ f b, p a = true)
    (hkept : ∀ b, q b = false → ∃ a rest, f b = a :: rest ∧ p a = false) (bs : List β) :
    (bs.flatMap f).dropWhile p = (bs.dropWhile q).flatMap f := by
  induction bs with
  | nil => rfl
  | cons b bs ih =>
    rw [List.flatMap_cons]
    cases hq : q b with
    | true =>
      rw [List.dropWhile_cons_of_pos hq, List.dropWhile_append_of_pos (hdropped b hq), ih]
    | false =>
      obtain ⟨a, rest, hf, hp⟩ := hkept b hq
      rw [List.dropWhile_cons_of_neg (by simpa using hq), List.flatMap_cons, hf, List.cons_append,
        List.dropWhile_cons_of_neg (by simpa using hp)]

theorem dropBothWhile_flatMap {f : β → List α}
    (hdropped : ∀ b, q b = true → ∀ a ∈ f b, p a = true)
    (hkept : ∀ b, q b = false → f b ≠ [] ∧ ∀ a ∈ f b, p a = false) (bs : List β) :
    dropBothWhile p (bs.flatMap f) = (dropBothWhile q bs).flatMap f := by
  have hhead : ∀ b, q b = false → ∃ a rest, f b = a :: rest ∧ p a = false := by
    intro b hq
    obtain ⟨hne, hall⟩ := hkept b hq
    obtain ⟨a, rest, hf⟩ := List.exists_cons_of_ne_nil hne
    exact ⟨a, rest, hf, hall a (hf ▸ List.mem_cons_self)⟩
  have hdropped' : ∀ b, q b = true → ∀ a ∈ (List.reverse ∘ f) b, p a = true :=
    fun b hq a ha => hdropped b hq a (List.mem_reverse.1 ha)
  have hlast : ∀ b, q b = false → ∃ a rest, (List.reverse ∘ f) b = a :: rest ∧ p a = false := by
    intro b hq
    obtain ⟨hne, hall⟩ := hkept b hq
    obtain ⟨a, rest, hf⟩ := List.exists_cons_of_ne_nil (List.reverse_ne_nil_iff.2 hne)
    exact ⟨a, rest, hf, hall a (List.mem_reverse.1 (hf ▸ List.mem_cons_self))⟩
  rw [dropBothWhile, dropBothWhile, dropEndWhile, dropEndWhile, dropWhile_flatMap hdropped hhead,
    List.reverse_flatMap, dropWhile_flatMap hdropped' hlast, List.reverse_flatMap]
  simp only [Function.comp_def, List.reverse_reverse]

end Text

namespace Utf16

/-- Half a pair is no blank. -/
theorem isBlankUnit_half {n : Nat} (hl : 0xD800 ≤ n) (hh : n < 0xE000) :
    isBlankUnit (UInt16.ofNat n) = false := by
  have hn : (UInt16.ofNat n).toNat = n := by
    rw [UInt16.toNat_ofNat']
    omega
  have hv : ¬n.isValidChar := by
    rintro (h | h) <;> omega
  have hc : Char.ofNat n = '\x00' := by
    rw [Char.ofNat, dif_neg hv]
    rfl
  rw [isBlankUnit, hn, hc]
  decide

theorem isBlankUnit_of_mem_ofChar {c : Char} {u : UInt16} (h : u ∈ ofChar c) :
    isBlankUnit u = Text.isBlank c := by
  have hc : c.toNat < 0x110000 := by
    rcases c.valid with hc | hc
    · exact Nat.lt_trans hc (by decide)
    · exact hc.2
  by_cases hn : c.toNat < 0x10000
  · have hu : (UInt16.ofNat c.toNat).toNat = c.toNat := by
      rw [UInt16.toNat_ofNat']
      omega
    rw [ofChar, if_pos hn, List.mem_singleton] at h
    rw [h, isBlankUnit, hu, Char.ofNat_toNat]
  · have hb : Text.isBlank c = false := by
      simp only [Text.isBlank, Bool.or_eq_false_iff, Bool.and_eq_false_iff, beq_eq_false_iff_ne,
        decide_eq_false_iff_not]
      omega
    rw [ofChar, if_neg hn, List.mem_cons, List.mem_singleton] at h
    rcases h with rfl | rfl
    · rw [hb, isBlankUnit_half (by omega) (by omega)]
    · rw [hb, isBlankUnit_half (by omega) (by omega)]

theorem trim_ofString (s : String) : (ofString s).trim = ofString (Text.trim s) := by
  have hunits := Text.dropBothWhile_flatMap (p := isBlankUnit) (q := Text.isBlank) (f := ofChar)
    (fun c hc u hu => (isBlankUnit_of_mem_ofChar hu).trans hc)
    (fun c hc => ⟨by unfold ofChar; dsimp only; split <;> simp,
      fun u hu => (isBlankUnit_of_mem_ofChar hu).trans hc⟩) s.toList
  rw [trim, ofString, ofString, Text.trim, String.toList_ofList, hunits]

theorem trim_trim (t : Utf16) : t.trim.trim = t.trim :=
  congrArg Utf16.mk (Text.dropBothWhile_idem t.units)

end Utf16

end FileSieve
