import FileSieve.Json.Reader
import FileSieve.Json.Writer
import FileSieve.Proofs.Decimal.Shortest

/-! # Numbers are read as they were written

A number ends where nothing follows that could belong to it. In front of such a rest an integer is
read back from its digits, and a floating-point number from its shortest decimal, however that is
laid out. -/

namespace FileSieve.Json

open Binary64 (Leads layout)

variable {whole fraction digits tail rest : List Char}

/-- A rest that does not begin with a digit. -/
def StopsDigits (rest : List Char) : Prop :=
  ∀ c ∈ rest.head?, c.isDigit = false

/-- A rest in front of which a number ends. -/
def StopsNumber (rest : List Char) : Prop :=
  ∀ c ∈ rest.head?, c.isDigit = false ∧ c ≠ '.' ∧ c ≠ 'e' ∧ c ≠ 'E'

theorem StopsNumber.stopsDigits (h : StopsNumber rest) : StopsDigits rest :=
  fun c hc => (h c hc).1

theorem stopsDigits_cons {c : Char} (h : c.isDigit = false) (rest : List Char) :
    StopsDigits (c :: rest) := by
  rintro d hd
  cases hd
  exact h

/-! ### The parts of a number -/

theorem isDigit_eq (c : Char) : isDigit c = c.isDigit := by
  simp only [isDigit, Char.isDigit, ge_iff_le, UInt32.le_iff_toNat_le]
  rfl

theorem spanDigits_append (hd : ∀ c ∈ digits, c.isDigit = true) (hr : StopsDigits rest) :
    spanDigits (digits ++ rest) = (digits, rest) := by
  have hd (c : Char) (hc : c ∈ digits) : isDigit c = true := by rw [isDigit_eq, hd c hc]
  rw [spanDigits, List.takeWhile_append_of_pos hd, List.dropWhile_append_of_pos hd]
  cases rest with
  | nil => rw [List.takeWhile_nil, List.dropWhile_nil, List.append_nil]
  | cons c rest =>
    have hc : ¬isDigit c = true := by
      rw [isDigit_eq, hr c rfl]
      exact Bool.false_ne_true
    rw [List.takeWhile_cons_of_neg hc, List.dropWhile_cons_of_neg hc, List.append_nil]

theorem readFraction_point (hd : ∀ c ∈ fraction, c.isDigit = true) (hne : fraction ≠ [])
    (hr : StopsDigits rest) : readFraction ('.' :: (fraction ++ rest)) = (fraction, rest) := by
  rw [readFraction, spanDigits_append hd hr]
  split
  · next h => exact absurd (Prod.ext_iff.1 h).1 hne
  · rfl

theorem readFraction_of_ne (hr : ∀ c ∈ rest.head?, c ≠ '.') :
    readFraction rest = ([], rest) := by
  cases rest with
  | nil => rfl
  | cons c rest =>
    rw [readFraction]
    exact fun _ h => hr c rfl (List.cons.inj h).1

theorem digitsValue_eq (digits : List Char) :
    digitsValue digits = Nat.ofDigitChars 10 digits 0 :=
  rfl

theorem readExponent_sign {places : List Char} (hd : ∀ c ∈ places, c.isDigit = true)
    (hne : places ≠ []) (hr : StopsDigits rest) (negative : Bool) :
    readExponent ('e' :: (if negative then '-' else '+') :: (places ++ rest)) =
      (some (if negative then -(Nat.ofDigitChars 10 places 0 : Int)
        else Nat.ofDigitChars 10 places 0), rest) := by
  have hspan := spanDigits_append hd hr
  obtain ⟨c, cs, rfl⟩ := List.exists_cons_of_ne_nil hne
  rw [List.cons_append] at hspan
  cases negative <;> simp [readExponent, hspan, digitsValue_eq]

theorem readExponent_of_ne (hr : ∀ c ∈ rest.head?, c ≠ 'e' ∧ c ≠ 'E') :
    readExponent rest = (none, rest) := by
  cases rest with
  | nil => rfl
  | cons c rest =>
    obtain ⟨he, hE⟩ := hr c rfl
    simp [readExponent, he, hE]

/-- The whole part of a number: a zero alone, or digits of which the first is none. -/
def Whole (whole : List Char) : Prop :=
  whole = ['0'] ∨ Leads whole

theorem Whole.exists_cons (h : Whole whole) : ∃ c cs, whole = c :: cs ∧ c.isDigit = true := by
  rcases h with rfl | h
  · exact ⟨'0', [], rfl, rfl⟩
  · obtain ⟨c, cs, rfl, -⟩ := h.first
    exact ⟨c, cs, rfl, h.all c List.mem_cons_self⟩

/-- A number is read by its parts. -/
theorem readNumber_append (h : Whole whole) (ht : StopsDigits tail) (negative : Bool) :
    readNumber negative (whole ++ tail) =
      if (readFraction tail).1.isEmpty && (readExponent (readFraction tail).2).1.isNone then
        if whole.length ≤ Text.numeralLimit then
          some (int (if negative then -(Nat.ofDigitChars 10 whole 0 : Int)
            else Nat.ofDigitChars 10 whole 0), (readExponent (readFraction tail).2).2)
        else none
      else some (real (Binary64.ofDecimal negative
        (Nat.ofDigitChars 10 (whole ++ (readFraction tail).1) 0)
        ((readExponent (readFraction tail).2).1.getD 0 - (readFraction tail).1.length)),
        (readExponent (readFraction tail).2).2) := by
  rcases h with rfl | h
  · rfl
  · obtain ⟨c, cs, rfl, hc⟩ := h.first
    have hspan := spanDigits_append h.all ht
    rw [readNumber, hspan]
    · rfl
    · exact fun _ heq => hc (List.cons.inj heq).1

/-! ### Floating-point numbers -/

/-- A number with a point. -/
theorem readNumber_point (h : Whole whole) (hd : ∀ c ∈ fraction, c.isDigit = true)
    (hne : fraction ≠ []) (hr : StopsNumber rest) (negative : Bool) :
    readNumber negative (whole ++ '.' :: (fraction ++ rest)) =
      some (real (Binary64.ofDecimal negative (Nat.ofDigitChars 10 (whole ++ fraction) 0)
        (-fraction.length)), rest) := by
  have hsome : fraction.isEmpty = false := by simpa using hne
  rw [readNumber_append h (stopsDigits_cons rfl _), readFraction_point hd hne hr.stopsDigits,
    readExponent_of_ne fun c hc => (hr c hc).2.2, hsome, Bool.false_and, if_neg Bool.false_ne_true,
    Option.getD_none, zero_sub]

/-- A number with one digit in front of its point and an exponent. -/
theorem readNumber_exponent {c : Char} {exponent : Int} (h : Leads (c :: fraction))
    (he : readExponent ('e' :: tail) = (some exponent, rest)) (negative : Bool) :
    readNumber negative (c :: ((if fraction = [] then [] else '.' :: fraction) ++ 'e' :: tail)) =
      some (real (Binary64.ofDecimal negative (Nat.ofDigitChars 10 (c :: fraction) 0)
        (exponent - fraction.length)), rest) := by
  have hwhole : Whole [c] := by
    obtain ⟨d, ds, hd, hne⟩ := h.first
    obtain ⟨rfl, -⟩ := List.cons.inj hd
    exact .inr ⟨List.forall_mem_singleton.2 (h.all c List.mem_cons_self), c, [], rfl, hne⟩
  have hfraction : readFraction ((if fraction = [] then [] else '.' :: fraction) ++ 'e' :: tail) =
      (fraction, 'e' :: tail) := by
    split
    · next hnil =>
      rw [hnil]
      exact readFraction_of_ne (by rintro c ⟨⟩; decide)
    · next hne =>
      exact readFraction_point (fun d hd => h.all d (List.mem_cons_of_mem _ hd)) hne
        (stopsDigits_cons rfl _)
  have hstops : StopsDigits ((if fraction = [] then [] else '.' :: fraction) ++ 'e' :: tail) := by
    split
    · exact stopsDigits_cons rfl _
    · exact stopsDigits_cons rfl _
  have hread := readNumber_append hwhole hstops negative
  rwa [hfraction, he, Option.isNone_some, Bool.and_false, if_neg Bool.false_ne_true] at hread

/-- The places of an exponent, two at least. -/
theorem places_eq {places : List Char} {n : Nat}
    (h : (if (Nat.toDigits 10 n).length < 2 then '0' :: Nat.toDigits 10 n
      else Nat.toDigits 10 n) = places) :
    (∀ c ∈ places, c.isDigit = true) ∧ places ≠ [] ∧ Nat.ofDigitChars 10 places 0 = n := by
  have hd : ∀ c ∈ Nat.toDigits 10 n, c.isDigit = true :=
    fun c hc => Nat.isDigit_of_mem_toDigits (by decide) (by decide) hc
  have hvalue : Nat.ofDigitChars 10 (Nat.toDigits 10 n) 0 = n := Nat.ofDigitChars_ten_toDigits
  split at h
  · subst h
    exact ⟨List.forall_mem_cons.2 ⟨by decide, hd⟩, List.cons_ne_nil _ _, hvalue⟩
  · subst h
    exact ⟨hd, Nat.toDigits_ne_nil, hvalue⟩

theorem readExponent_places (hr : StopsDigits rest) (exponent : Int) :
    readExponent ('e' :: (if exponent < 0 then '-' else '+') ::
      ((if (Nat.toDigits 10 exponent.natAbs).length < 2 then '0' :: Nat.toDigits 10 exponent.natAbs
        else Nat.toDigits 10 exponent.natAbs) ++ rest)) = (some exponent, rest) := by
  generalize hp : (if (Nat.toDigits 10 exponent.natAbs).length < 2
    then '0' :: Nat.toDigits 10 exponent.natAbs else Nat.toDigits 10 exponent.natAbs) = places
  obtain ⟨hd, hne, hvalue⟩ := places_eq hp
  have hread := readExponent_sign hd hne hr (decide (exponent < 0))
  simp only [decide_eq_true_eq, hvalue] at hread
  rw [hread]
  congr 2
  split <;> omega

theorem isDigit_of_mem_zeros {k : Nat} : ∀ c ∈ List.replicate k '0', c.isDigit = true := by
  intro c hc
  rw [List.eq_of_mem_replicate hc]
  rfl

/-- The digits stand behind the point, after some zeros. -/
theorem readNumber_behind (h : Leads digits) (hr : StopsNumber rest) (k : Nat) (negative : Bool) :
    readNumber negative ('0' :: '.' :: (List.replicate k '0' ++ digits ++ rest)) =
      some (real (Binary64.ofDecimal negative (Nat.ofDigitChars 10 digits 0)
        (-k - digits.length)), rest) := by
  have hne : List.replicate k '0' ++ digits ≠ [] := by
    obtain ⟨c, cs, rfl, -⟩ := h.first
    simp
  have hread := readNumber_point (.inl rfl)
    (List.forall_mem_append.2 ⟨isDigit_of_mem_zeros, h.all⟩) hne hr negative
  have hvalue : Nat.ofDigitChars 10 (['0'] ++ (List.replicate k '0' ++ digits)) 0 =
      Nat.ofDigitChars 10 digits 0 := by
    rw [List.singleton_append, Nat.ofDigitChars_cons, Nat.ofDigitChars_append,
      Nat.ofDigitChars_replicate_zero]
    rfl
  have hplace : -((List.replicate k '0' ++ digits).length : Int) = -k - digits.length := by
    rw [List.length_append, List.length_replicate]
    omega
  rwa [hvalue, hplace] at hread

/-- Zeros fill the places in front of the point. -/
theorem readNumber_filled (h : Leads digits) (hr : StopsNumber rest) (k : Nat) (negative : Bool) :
    readNumber negative (digits ++ List.replicate k '0' ++ '.' :: '0' :: rest) =
      some (real (Binary64.ofDecimal negative (Nat.ofDigitChars 10 digits 0) k), rest) := by
  have hwhole : Leads (digits ++ List.replicate k '0') := by
    obtain ⟨c, cs, hdigits, hc⟩ := h.first
    refine ⟨List.forall_mem_append.2 ⟨h.all, isDigit_of_mem_zeros⟩, c,
      cs ++ List.replicate k '0', ?_, hc⟩
    rw [hdigits, List.cons_append]
  have hread := readNumber_point (.inr hwhole) (List.forall_mem_singleton.2 rfl)
    (List.cons_ne_nil '0' []) hr negative
  have hvalue : Nat.ofDigitChars 10 (digits ++ List.replicate k '0' ++ ['0']) 0 =
      Nat.ofDigitChars 10 digits 0 * 10 ^ (k + 1) := by
    rw [List.append_assoc, ← List.replicate_succ', Nat.ofDigitChars_append,
      Nat.ofDigitChars_replicate_zero, Nat.mul_comm]
  have hplace : (-(['0'].length : Int)) = k - (k + 1 : Nat) := by
    rw [List.length_singleton]
    omega
  rwa [hvalue, hplace, Binary64.ofDecimal_mul_pow] at hread

/-- The point stands among the digits. -/
theorem readNumber_among (h : Leads digits) (hr : StopsNumber rest) {k : Nat} (hk : 0 < k)
    (hlt : k < digits.length) (negative : Bool) :
    readNumber negative (digits.take k ++ '.' :: (digits.drop k ++ rest)) =
      some (real (Binary64.ofDecimal negative (Nat.ofDigitChars 10 digits 0)
        (k - digits.length)), rest) := by
  have hwhole : Leads (digits.take k) := by
    obtain ⟨c, cs, hdigits, hc⟩ := h.first
    refine ⟨fun d hd => h.all d (List.mem_of_mem_take hd), c, cs.take (k - 1), ?_, hc⟩
    rw [hdigits, List.take_cons hk]
  have hne : digits.drop k ≠ [] := by
    rw [ne_eq, List.drop_eq_nil_iff]
    omega
  have hread := readNumber_point (.inr hwhole) (fun d hd => h.all d (List.mem_of_mem_drop hd)) hne
    hr negative
  have hplace : -((digits.drop k).length : Int) = k - digits.length := by
    rw [List.length_drop]
    omega
  rwa [List.take_append_drop, hplace] at hread

/-- A number is read back from its digits, whatever their layout. -/
theorem readNumber_layout (h : Leads digits) (hr : StopsNumber rest) (point : Int)
    (negative : Bool) :
    readNumber negative (layout digits point ++ rest) =
      some (real (Binary64.ofDecimal negative (Nat.ofDigitChars 10 digits 0)
        (point - digits.length)), rest) := by
  rw [layout]
  split
  · obtain ⟨c, cs, rfl, -⟩ := h.first
    have hread := readNumber_exponent h (readExponent_places hr.stopsDigits (point - 1)) negative
    have hplace : point - 1 - cs.length = point - (c :: cs).length := by
      rw [List.length_cons]
      omega
    rw [hplace] at hread
    rw [← hread]
    cases cs <;> simp
  · split
    · next hsmall =>
      have hread := readNumber_behind h hr point.natAbs negative
      rw [Int.ofNat_natAbs_of_nonpos hsmall, neg_neg] at hread
      rw [← hread]
      simp
    · split
      · next hpositive hlong =>
        have hread := readNumber_filled h hr (point.natAbs - digits.length) negative
        have hplace : ((point.natAbs - digits.length : Nat) : Int) = point - digits.length := by
          omega
        rw [hplace] at hread
        rw [← hread]
        simp
      · next hpositive hshort =>
        have hread := readNumber_among h hr (k := point.natAbs) (by omega) (by omega) negative
        rw [Int.natAbs_of_nonneg (by omega)] at hread
        rw [← hread]
        simp

/-! ### The texts of numbers -/

/-- A character with which a number begins. -/
def StartsNumber (c : Char) : Prop :=
  c.isDigit = true ∨ c ∈ ['-', 'N', 'I']

instance (c : Char) : Decidable (StartsNumber c) :=
  inferInstanceAs (Decidable (_ ∨ _))

theorem StartsNumber.ne {c d : Char} (h : StartsNumber c) (hd : ¬StartsNumber d) : c ≠ d :=
  fun he => hd (he ▸ h)

theorem layout_eq_cons (h : Leads digits) (point : Int) :
    ∃ c cs, layout digits point = c :: cs ∧ c.isDigit = true := by
  obtain ⟨c, cs, rfl, -⟩ := h.first
  have hc := h.all c List.mem_cons_self
  rw [layout]
  split
  · exact ⟨c, _, rfl, hc⟩
  · split
    · exact ⟨'0', _, rfl, rfl⟩
    · split
      · exact ⟨c, _, rfl, hc⟩
      · next hpositive _ =>
        rw [List.take_cons (by omega), List.cons_append]
        exact ⟨c, _, rfl, hc⟩

theorem whole_toDigits (n : Nat) : Whole (Nat.toDigits 10 n) := by
  rcases Nat.eq_zero_or_pos n with rfl | hn
  · exact .inl rfl
  · exact .inr (Binary64.leads_toDigits hn)

theorem writeInt_eq_cons (n : Int) : ∃ c cs, writeInt n = c :: cs ∧ StartsNumber c := by
  obtain ⟨c, cs, hdigits, hc⟩ := (whole_toDigits n.natAbs).exists_cons
  rw [writeInt]
  split
  · exact ⟨'-', _, rfl, by decide⟩
  · exact ⟨c, cs, hdigits, .inl hc⟩

/-- A number other than zero is written by its digits. -/
theorem toText_finite {m : Nat} {e : Int} (hm : 0 < m) :
    (Binary64.finite false m e).toText =
      layout (Binary64.shortestDigits m e).1 (Binary64.shortestDigits m e).2 := by
  simp [Binary64.toText, hm.ne']

theorem toText_eq_cons {m : Nat} {e : Int} (h : Binary64.Canonical m e) :
    ∃ c cs, (Binary64.finite false m e).toText = c :: cs ∧ c.isDigit = true := by
  rcases Nat.eq_zero_or_pos m with rfl | hm
  · exact ⟨'0', _, rfl, rfl⟩
  · obtain ⟨digits, point, hdigits, hleads, -⟩ := Binary64.exists_shortestDigits h hm
    rw [toText_finite hm, hdigits]
    exact layout_eq_cons hleads point

theorem toText_negative (negative : Bool) (m : Nat) (e : Int) :
    (Binary64.finite negative m e).toText =
      if negative then '-' :: (Binary64.finite false m e).toText
      else (Binary64.finite false m e).toText := by
  cases negative <;> rfl

theorem toText_starts {x : Binary64} (h : x.IsRead) :
    ∃ c cs, x.toText = c :: cs ∧ StartsNumber c := by
  cases x with
  | nan => exact ⟨'N', _, rfl, by decide⟩
  | infinite negative =>
    cases negative with
    | true => exact ⟨'-', _, rfl, by decide⟩
    | false => exact ⟨'I', _, rfl, by decide⟩
  | finite negative m e =>
    obtain ⟨c, cs, htext, hc⟩ := toText_eq_cons h
    rw [toText_negative]
    split
    · exact ⟨'-', _, rfl, by decide⟩
    · exact ⟨c, cs, htext, .inl hc⟩

/-! ### Reading numbers -/

/-- A text that begins with a digit is read as a number. -/
theorem readAtom_digit {c : Char} (hc : c.isDigit = true) (cs : List Char) :
    readAtom (c :: cs) = readNumber false (c :: cs) := by
  have hne (d : Char) (hd : d.isDigit = false) : c ≠ d := by
    rintro rfl
    rw [hc] at hd
    cases hd
  rw [readAtom]
  · exact fun _ h => hne 'n' rfl (List.cons.inj h).1
  · exact fun _ h => hne 't' rfl (List.cons.inj h).1
  · exact fun _ h => hne 'f' rfl (List.cons.inj h).1
  · exact fun _ h => hne 'N' rfl (List.cons.inj h).1
  · exact fun _ h => hne 'I' rfl (List.cons.inj h).1
  · exact fun _ h => hne '-' rfl (List.cons.inj h).1
  · exact fun _ h => hne '-' rfl (List.cons.inj h).1

theorem readAtom_minus {c : Char} (hc : c.isDigit = true) (cs : List Char) :
    readAtom ('-' :: c :: cs) = readNumber true (c :: cs) := by
  rw [readAtom]
  rintro rest h
  obtain ⟨rfl, -⟩ := List.cons.inj h
  cases hc

/-- A text is read as a number with its sign. -/
theorem readAtom_signed {cs : List Char} (h : ∃ c start, cs = c :: start ∧ c.isDigit = true)
    (negative : Bool) : readAtom (if negative then '-' :: cs else cs) = readNumber negative cs := by
  obtain ⟨c, start, rfl, hc⟩ := h
  cases negative with
  | true => exact readAtom_minus hc start
  | false => exact readAtom_digit hc start

/-- An integer is read back from its digits, unless it has too many. -/
theorem readAtom_writeInt {n : Int} (hn : n.natAbs < 10 ^ Text.numeralLimit)
    (hr : StopsNumber rest) : readAtom (writeInt n ++ rest) = some (int n, rest) := by
  have hwhole := whole_toDigits n.natAbs
  have hlength : (Nat.toDigits 10 n.natAbs).length ≤ Text.numeralLimit :=
    (Nat.length_toDigits_le_iff (by decide) (by decide)).2 hn
  have htext : writeInt n ++ rest =
      if decide (n < 0) then '-' :: (Nat.toDigits 10 n.natAbs ++ rest)
      else Nat.toDigits 10 n.natAbs ++ rest := by
    rw [writeInt]
    by_cases hneg : n < 0
    · simp [hneg]
    · simp [hneg]
  rw [htext, readAtom_signed _ (decide (n < 0)), readNumber_append hwhole hr.stopsDigits,
    readFraction_of_ne fun c hc => (hr c hc).2.1]
  · dsimp only
    rw [readExponent_of_ne fun c hc => (hr c hc).2.2, Nat.ofDigitChars_ten_toDigits]
    simp only [List.isEmpty_nil, Option.isNone_none, Bool.and_self, hlength, if_true,
      decide_eq_true_eq]
    congr 3
    split <;> omega
  · obtain ⟨c, cs, hdigits, hc⟩ := hwhole.exists_cons
    exact ⟨c, cs ++ rest, by rw [hdigits, List.cons_append], hc⟩

theorem dropWord?_append (word rest : List Char) : dropWord? word (word ++ rest) = some rest := by
  rw [dropWord?, if_pos (List.isPrefixOf_iff_prefix.2 (List.prefix_append word rest)),
    List.drop_left]

/-- The text of a number without its sign is read back with either sign. -/
theorem readNumber_toText {m : Nat} {e : Int} (h : Binary64.Canonical m e)
    (hr : StopsNumber rest) (negative : Bool) :
    readNumber negative ((Binary64.finite false m e).toText ++ rest) =
      some (real (.finite negative m e), rest) := by
  rcases Nat.eq_zero_or_pos m with rfl | hm
  · have hread := readNumber_point (.inl rfl) (List.forall_mem_singleton.2 rfl)
      (List.cons_ne_nil '0' []) hr negative
    have hzero : Binary64.ofDecimal negative 0 (-1) = .finite negative 0 Binary64.minExponent := rfl
    have he : e = Binary64.minExponent := h.full.resolve_right (by decide)
    rw [he, ← hzero]
    exact hread
  · obtain ⟨digits, point, hdigits, hleads, hvalue⟩ := Binary64.exists_shortestDigits h hm
    rw [toText_finite hm, hdigits, readNumber_layout hleads hr, Binary64.ofDecimal_withSign, hvalue]
    rfl

/-- A floating-point number is read back from its text. -/
theorem readAtom_toText {x : Binary64} (h : x.IsRead) (hr : StopsNumber rest) :
    readAtom (x.toText ++ rest) = some (real x, rest) := by
  cases x with
  | nan => exact congrArg (Option.map (real .nan, ·)) (dropWord?_append "aN".toList rest)
  | infinite negative =>
    have hword := dropWord?_append "nfinity".toList rest
    cases negative with
    | true => exact congrArg (Option.map (real (.infinite true), ·)) hword
    | false => exact congrArg (Option.map (real (.infinite false), ·)) hword
  | finite negative m e =>
    have hstart : ∃ c cs, (Binary64.finite false m e).toText ++ rest = c :: cs ∧
        c.isDigit = true := by
      obtain ⟨c, cs, htext, hc⟩ := toText_eq_cons h
      exact ⟨c, cs ++ rest, by rw [htext, List.cons_append], hc⟩
    have hread := readAtom_signed hstart negative
    rw [readNumber_toText h hr] at hread
    rw [← hread, toText_negative]
    split <;> rfl

end FileSieve.Json
