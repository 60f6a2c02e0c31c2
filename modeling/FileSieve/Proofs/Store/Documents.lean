import FileSieve.Proofs.Json.Reading
import FileSieve.Store.Document

/-! # Documents on disk

A document is written in ASCII without carriage returns, so that its bytes decode to the text that
was written, and that is read back. What is read from a file can always be written like that. -/

namespace FileSieve

open Json (Writable indented indentedItems indentedFields newLine escapeUnit escapeChar
  isPlainAscii)

/-! ### The text of documents -/

/-- Characters of ASCII other than the carriage return. -/
def IsSimple (cs : List Char) : Prop :=
  ∀ c ∈ cs, c.toNat < 128 ∧ c ≠ '\r'

instance (cs : List Char) : Decidable (IsSimple cs) :=
  List.decidableBAll (fun c : Char => c.toNat < 128 ∧ c ≠ '\r') cs

theorem isSimple_nil : IsSimple [] :=
  List.forall_mem_nil _

theorem isSimple_cons_iff {c : Char} {cs : List Char} :
    IsSimple (c :: cs) ↔ (c.toNat < 128 ∧ c ≠ '\r') ∧ IsSimple cs :=
  List.forall_mem_cons

theorem isSimple_append_iff {cs ds : List Char} :
    IsSimple (cs ++ ds) ↔ IsSimple cs ∧ IsSimple ds :=
  List.forall_mem_append

theorem isSimple_hex (width n : Nat) : IsSimple (Text.hex width n) := by
  induction width generalizing n with
  | zero => exact isSimple_nil
  | succ width ih =>
    have hdigit : ∀ n < 16, (Text.hexDigit n).toNat < 128 ∧ Text.hexDigit n ≠ '\r' := by decide
    exact isSimple_append_iff.2 ⟨ih _, isSimple_cons_iff.2
      ⟨hdigit _ (Nat.mod_lt _ (by decide)), isSimple_nil⟩⟩

theorem isSimple_escapeUnit (n : Nat) : IsSimple (escapeUnit n) :=
  isSimple_cons_iff.2 ⟨by decide, isSimple_cons_iff.2 ⟨by decide, isSimple_hex 4 n⟩⟩

theorem isSimple_escapeChar (c : Char) : IsSimple (escapeChar c) := by
  rw [escapeChar]
  split
  · exact isSimple_escapeUnit _
  · exact isSimple_append_iff.2 ⟨isSimple_escapeUnit _, isSimple_escapeUnit _⟩

theorem isSimple_writeChar (c : Char) : IsSimple (Json.writeChar isPlainAscii c) := by
  unfold Json.writeChar
  split_ifs with _ _ _ hr _ _ _ hp
  iterate 7 decide
  · simp only [isPlainAscii, Bool.and_eq_true, decide_eq_true_eq] at hp
    exact isSimple_cons_iff.2 ⟨⟨by omega, hr⟩, isSimple_nil⟩
  · exact isSimple_escapeChar c

theorem isSimple_writeString (t : Utf16) : IsSimple (Json.writeString isPlainAscii t) := by
  have hsymbols : IsSimple (t.decode.flatMap (Json.writeSymbol isPlainAscii)) := by
    intro c hc
    obtain ⟨symbol, -, hc⟩ := List.mem_flatMap.1 hc
    cases symbol with
    | ok d => exact isSimple_writeChar d c hc
    | error half => exact isSimple_escapeUnit half.toNat c hc
  exact isSimple_append_iff.2 ⟨isSimple_cons_iff.2 ⟨by decide, hsymbols⟩, by decide⟩

theorem isSimple_of_isDigit {cs : List Char} (h : ∀ c ∈ cs, c.isDigit = true) : IsSimple cs := by
  intro c hc
  have hdigit := h c hc
  refine ⟨?_, ?_⟩
  · rw [← Json.isDigit_eq, Json.isDigit, Bool.and_eq_true, decide_eq_true_eq,
      decide_eq_true_eq] at hdigit
    omega
  · rintro rfl
    cases hdigit

theorem isSimple_toDigits (n : Nat) : IsSimple (Nat.toDigits 10 n) :=
  isSimple_of_isDigit fun _ hc => Nat.isDigit_of_mem_toDigits (by decide) (by decide) hc

theorem isSimple_zeros (k : Nat) : IsSimple (List.replicate k '0') :=
  isSimple_of_isDigit Json.isDigit_of_mem_zeros

theorem isSimple_writeInt (n : Int) : IsSimple (Json.writeInt n) := by
  rw [Json.writeInt]
  split
  · exact isSimple_cons_iff.2 ⟨by decide, isSimple_toDigits _⟩
  · exact isSimple_toDigits _

theorem isSimple_layout {digits : List Char} (h : IsSimple digits) (point : Int) :
    IsSimple (Binary64.layout digits point) := by
  have htake (k : Nat) : IsSimple (digits.take k) := fun c hc => h c (List.mem_of_mem_take hc)
  have hdrop (k : Nat) : IsSimple (digits.drop k) := fun c hc => h c (List.mem_of_mem_drop hc)
  rw [Binary64.layout]
  split
  · refine isSimple_append_iff.2 ⟨isSimple_append_iff.2 ⟨htake 1, ?_⟩, isSimple_cons_iff.2
      ⟨by decide, isSimple_cons_iff.2 ⟨?_, ?_⟩⟩⟩
    · split
      · exact isSimple_nil
      · exact isSimple_cons_iff.2 ⟨by decide, hdrop 1⟩
    · split <;> decide
    · split
      · exact isSimple_cons_iff.2 ⟨by decide, isSimple_toDigits _⟩
      · exact isSimple_toDigits _
  · split
    · exact isSimple_cons_iff.2 ⟨by decide, isSimple_cons_iff.2 ⟨by decide,
        isSimple_append_iff.2 ⟨isSimple_zeros _, h⟩⟩⟩
    · split
      · exact isSimple_append_iff.2 ⟨isSimple_append_iff.2 ⟨h, isSimple_zeros _⟩, by decide⟩
      · exact isSimple_append_iff.2 ⟨htake _, isSimple_cons_iff.2 ⟨by decide, hdrop _⟩⟩

theorem isSimple_toText {x : Binary64} (h : x.IsRead) : IsSimple x.toText := by
  cases x with
  | nan => decide
  | infinite negative => cases negative <;> decide
  | finite negative m e =>
    have hpositive : IsSimple (Binary64.finite false m e).toText := by
      rcases Nat.eq_zero_or_pos m with rfl | hm
      · exact (by decide : IsSimple ['0', '.', '0'])
      · obtain ⟨digits, point, hdigits, hleads, -⟩ := Binary64.exists_shortestDigits h hm
        rw [Json.toText_finite hm, hdigits]
        exact isSimple_layout (isSimple_of_isDigit hleads.all) point
    rw [Json.toText_negative]
    split
    · exact isSimple_cons_iff.2 ⟨by decide, hpositive⟩
    · exact hpositive

theorem isSimple_newLine (level : Nat) : IsSimple (newLine level) := by
  refine isSimple_cons_iff.2 ⟨by decide, ?_⟩
  intro c hc
  rw [List.eq_of_mem_replicate hc]
  decide

theorem isSimple_indentedItems {items : List Json}
    (h : ∀ item ∈ items, ∀ level rest, IsSimple rest → IsSimple (item.indented level rest))
    (level : Nat) {rest : List Char} (hr : IsSimple rest) :
    IsSimple (indentedItems level rest items) := by
  induction items with
  | nil => exact isSimple_cons_iff.2 ⟨by decide, hr⟩
  | cons item more ih =>
    have hmore := ih fun other ho => h other (List.mem_cons_of_mem _ ho)
    cases more with
    | nil =>
      exact h item List.mem_cons_self _ _ (isSimple_append_iff.2
        ⟨isSimple_newLine level, isSimple_cons_iff.2 ⟨by decide, hr⟩⟩)
    | cons next more =>
      exact h item List.mem_cons_self _ _ (isSimple_append_iff.2
        ⟨isSimple_cons_iff.2 ⟨by decide, isSimple_newLine (level + 1)⟩, hmore⟩)

theorem isSimple_indentedFields {fields : List (Utf16 × Json)}
    (h : ∀ field ∈ fields, ∀ level rest, IsSimple rest → IsSimple (field.2.indented level rest))
    (level : Nat) {rest : List Char} (hr : IsSimple rest) :
    IsSimple (indentedFields level rest fields) := by
  induction fields with
  | nil => exact isSimple_cons_iff.2 ⟨by decide, hr⟩
  | cons field more ih =>
    have hmore := ih fun other ho => h other (List.mem_cons_of_mem _ ho)
    have hvalue := h field List.mem_cons_self (level + 1)
    obtain ⟨name, value⟩ := field
    cases more with
    | nil =>
      refine isSimple_append_iff.2 ⟨isSimple_writeString name, isSimple_cons_iff.2 ⟨by decide,
        isSimple_cons_iff.2 ⟨by decide, hvalue _ ?_⟩⟩⟩
      exact isSimple_append_iff.2 ⟨isSimple_newLine level, isSimple_cons_iff.2 ⟨by decide, hr⟩⟩
    | cons next more =>
      refine isSimple_append_iff.2 ⟨isSimple_writeString name, isSimple_cons_iff.2 ⟨by decide,
        isSimple_cons_iff.2 ⟨by decide, hvalue _ ?_⟩⟩⟩
      exact isSimple_append_iff.2
        ⟨isSimple_cons_iff.2 ⟨by decide, isSimple_newLine (level + 1)⟩, hmore⟩

theorem isSimple_indented {depth : Nat} {v : Json} (h : Writable depth v) (level : Nat)
    {rest : List Char} (hr : IsSimple rest) : IsSimple (v.indented level rest) := by
  induction h generalizing level rest with
  | null depth => exact isSimple_append_iff.2 ⟨by decide, hr⟩
  | bool depth value => exact isSimple_append_iff.2 ⟨by cases value <;> decide, hr⟩
  | @int depth value h => exact isSimple_append_iff.2 ⟨isSimple_writeInt value, hr⟩
  | real depth h => exact isSimple_append_iff.2 ⟨isSimple_toText h, hr⟩
  | string depth value => exact isSimple_append_iff.2 ⟨isSimple_writeString value, hr⟩
  | @array depth items hw ih =>
    have hitems := isSimple_indentedItems
      (fun item hi level rest hr => ih item hi level hr) level hr
    cases items with
    | nil => exact isSimple_cons_iff.2 ⟨by decide, hitems⟩
    | cons item items =>
      exact isSimple_cons_iff.2 ⟨by decide,
        isSimple_append_iff.2 ⟨isSimple_newLine (level + 1), hitems⟩⟩
  | @object depth fields hw hn ih =>
    have hfields := isSimple_indentedFields
      (fun field hi level rest hr => ih field hi level hr) level hr
    cases fields with
    | nil => exact isSimple_cons_iff.2 ⟨by decide, hfields⟩
    | cons field fields =>
      exact isSimple_cons_iff.2 ⟨by decide,
        isSimple_append_iff.2 ⟨isSimple_newLine (level + 1), hfields⟩⟩

/-! ### Bytes -/

namespace Text

theorem unifyLineEnds_of_isSimple {cs : List Char} (h : IsSimple cs) : unifyLineEnds cs = cs := by
  induction cs with
  | nil => rfl
  | cons c cs ih =>
    obtain ⟨⟨-, hc⟩, hcs⟩ := isSimple_cons_iff.1 h
    rw [unifyLineEnds, ih hcs, if_neg hc]
    exact fun _ h _ => absurd h hc

theorem utf8EncodeChar_of_lt {c : Char} (h : c.toNat < 128) :
    String.utf8EncodeChar c = [UInt8.ofNat c.toNat] := by
  have hc : c.val.toNat ≤ 127 := Nat.le_of_lt_succ h
  rw [String.utf8EncodeChar]
  simp only [hc, if_true]
  rfl

theorem utf8Decode_of_isSimple {cs : List Char} (h : IsSimple cs) :
    utf8Decode (cs.flatMap String.utf8EncodeChar) = cs.map some := by
  induction cs with
  | nil => rfl
  | cons c cs ih =>
    obtain ⟨⟨hc, -⟩, hcs⟩ := isSimple_cons_iff.1 h
    have hb : (UInt8.ofNat c.toNat).toNat = c.toNat := by
      rw [UInt8.toNat_ofNat']
      omega
    have hstep : utf8Step none (UInt8.ofNat c.toNat).toNat = ([some c], none) := by
      rw [utf8Step, utf8Start, hb, if_pos hc, Char.ofNat_toNat]
    rw [List.flatMap_cons, utf8EncodeChar_of_lt hc, List.singleton_append, utf8Decode,
      utf8DecodeFrom, hstep]
    exact congrArg (some c :: ·) (ih hcs)

theorem ofUtf8?_toUtf8 {cs : List Char} (h : IsSimple cs) :
    ofUtf8? (toUtf8 (String.ofList cs)) = some (String.ofList cs) := by
  have hall : (cs.map some).mapM id = some cs := by
    clear h
    induction cs with
    | nil => rfl
    | cons c cs ih =>
      rw [List.map_cons, List.mapM_cons, ih]
      rfl
  rw [ofUtf8?, toUtf8, String.toList_ofList, utf8Decode_of_isSimple h, hall]
  rfl

end Text

namespace Store

/-- A document is read back from its bytes. -/
theorem decode_encode {v : Json} (h : Writable Json.nestingLimit v) :
    decode (Text.toUtf8 (encode v)) = .ok v := by
  have hs : IsSimple (v.indented 0 ['\n']) := isSimple_indented h 0 (by decide)
  rw [decode, encode, Text.ofUtf8?_toUtf8 hs]
  dsimp only
  rw [String.toList_ofList, Text.unifyLineEnds_of_isSimple hs]
  exact Json.read_indented h rfl

theorem writable_of_decode {bytes : List UInt8} {v : Json} (h : decode bytes = .ok v) :
    Writable Json.nestingLimit v := by
  rw [decode] at h
  split at h
  · exact Json.writable_read h
  · cases h

end Store

end FileSieve
