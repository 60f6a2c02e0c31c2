import FileSieve.Proofs.Json.Numbers
import FileSieve.Proofs.Json.Strings

/-! # Documents are read as they were written

The indented form of a value is read back, whatever follows it that cannot belong to a number, as
long as its integers are not too long and its arrays and objects do not stand too deep inside one
another. -/

namespace FileSieve.Json

/-- A value as values are read: with distinct names in each object, integers of no more digits than
a numeral may have, and arrays and objects at most so many deep inside one another. -/
inductive Writable : Nat → Json → Prop
  | null (depth : Nat) : Writable depth null
  | bool (depth : Nat) (value : Bool) : Writable depth (bool value)
  | int (depth : Nat) {value : Int} (h : value.natAbs < 10 ^ Text.numeralLimit) :
      Writable depth (int value)
  | real (depth : Nat) {value : Binary64} (h : value.IsRead) : Writable depth (real value)
  | string (depth : Nat) (value : Utf16) : Writable depth (string value)
  | array {depth : Nat} {items : List Json} (h : ∀ item ∈ items, Writable depth item) :
      Writable (depth + 1) (array items)
  | object {depth : Nat} {fields : List (Utf16 × Json)}
      (h : ∀ field ∈ fields, Writable depth field.2) (hn : (fields.map Prod.fst).Nodup) :
      Writable (depth + 1) (object fields)

/-! ### White space -/

theorem skipSpace_newLine (depth : Nat) (rest : List Char) :
    skipSpace (newLine depth ++ rest) = skipSpace rest := by
  have hblank : ∀ c ∈ newLine depth, isSpace c = true := by
    intro c hc
    rcases List.mem_cons.1 hc with rfl | hc
    · rfl
    · rw [List.eq_of_mem_replicate hc]
      rfl
  exact List.dropWhile_append_of_pos hblank

theorem skipSpace_cons {c : Char} (h : isSpace c = false) (rest : List Char) :
    skipSpace (c :: rest) = c :: rest :=
  List.dropWhile_cons_of_neg (by simp [h])

theorem StartsNumber.isSpace {c : Char} (h : StartsNumber c) : isSpace c = false := by
  have hblank : c ≠ ' ' := h.ne (by decide)
  have htab : c ≠ '\t' := h.ne (by decide)
  have hline : c ≠ '\n' := h.ne (by decide)
  have hreturn : c ≠ '\r' := h.ne (by decide)
  simp [Json.isSpace, hblank, htab, hline, hreturn]

theorem indented_int (level : Nat) (rest : List Char) (n : Int) :
    (int n).indented level rest = writeInt n ++ rest :=
  rfl

theorem indented_real (level : Nat) (rest : List Char) (x : Binary64) :
    (real x).indented level rest = x.toText ++ rest :=
  rfl

/-- A value begins with a character that is neither white space nor a closing bracket. -/
theorem indented_eq_cons {depth : Nat} {v : Json} (h : Writable depth v) (level : Nat)
    (rest : List Char) :
    ∃ c start, v.indented level rest = c :: start ∧ isSpace c = false ∧ c ≠ ']' := by
  cases h with
  | null => exact ⟨'n', _, rfl, by decide, by decide⟩
  | bool _ value => cases value with
    | true => exact ⟨'t', _, rfl, by decide, by decide⟩
    | false => exact ⟨'f', _, rfl, by decide, by decide⟩
  | @int _ value =>
    obtain ⟨c, cs, htext, hc⟩ := writeInt_eq_cons value
    refine ⟨c, cs ++ rest, ?_, hc.isSpace, hc.ne (by decide)⟩
    rw [indented_int, htext, List.cons_append]
  | @real _ value hvalue =>
    obtain ⟨c, cs, htext, hc⟩ := toText_starts hvalue
    refine ⟨c, cs ++ rest, ?_, hc.isSpace, hc.ne (by decide)⟩
    rw [indented_real, htext, List.cons_append]
  | string => exact ⟨'"', _, writeString_append .., by decide, by decide⟩
  | @array _ items => cases items <;> exact ⟨'[', _, rfl, by decide, by decide⟩
  | @object _ fields => cases fields <;> exact ⟨'{', _, rfl, by decide, by decide⟩

theorem skipSpace_indented {depth : Nat} {v : Json} (h : Writable depth v) (level : Nat)
    (rest : List Char) : skipSpace (v.indented level rest) = v.indented level rest := by
  obtain ⟨c, start, hv, hc, -⟩ := indented_eq_cons h level rest
  rw [hv, skipSpace_cons hc]

theorem stopsNumber_newLine (level : Nat) (rest : List Char) :
    StopsNumber (newLine level ++ rest) := by
  rintro c ⟨⟩
  decide

theorem stopsNumber_comma (rest : List Char) : StopsNumber (',' :: rest) := by
  rintro c ⟨⟩
  decide

/-- A number ends in front of white space. -/
theorem stopsNumber_of_skipSpace {rest : List Char} (h : skipSpace rest = []) :
    StopsNumber rest := by
  intro c hc
  obtain ⟨cs, rfl⟩ : ∃ cs, rest = c :: cs := ⟨_, (List.eq_cons_of_mem_head? hc)⟩
  have hspace : isSpace c = true := List.dropWhile_eq_nil_iff.1 h c List.mem_cons_self
  simp only [isSpace, Bool.or_eq_true, decide_eq_true_eq] at hspace
  rcases hspace with ((rfl | rfl) | rfl) | rfl <;> decide

theorem length_indented (v : Json) (level : Nat) (rest : List Char) :
    (v.indented level rest).length = (v.indented level []).length + rest.length := by
  rw [← List.length_append, ← indented_append, List.nil_append]

theorem length_indentedItems (items : List Json) (level : Nat) (rest : List Char) :
    (indentedItems level rest items).length =
      (indentedItems level [] items).length + rest.length := by
  rw [← List.length_append, ← indentedItems_append, List.nil_append]

theorem length_indentedFields (fields : List (Utf16 × Json)) (level : Nat) (rest : List Char) :
    (indentedFields level rest fields).length =
      (indentedFields level [] fields).length + rest.length := by
  rw [← List.length_append, ← indentedFields_append, List.nil_append]

/-! ### Values -/

/-- A value is read back with enough fuel. -/
def ReadsBack (depth : Nat) (v : Json) : Prop :=
  ∀ fuel level rest, StopsNumber rest → (v.indented level rest).length ≤ fuel + rest.length →
    readValue fuel depth (v.indented level rest) = .ok (v, rest)

theorem length_newLine (level : Nat) : 0 < (newLine level).length :=
  Nat.succ_pos _

theorem skipSpace_indentedItems {depth : Nat} {item : Json} (h : Writable depth item)
    (level : Nat) (rest : List Char) (more : List Json) :
    skipSpace (indentedItems level rest (item :: more)) =
      indentedItems level rest (item :: more) := by
  cases more <;> exact skipSpace_indented h ..

/-- The item in front of the closing bracket is the last one. -/
theorem readItems_last {fuel depth : Nat} {cs after rest : List Char} {item : Json}
    (hr : readValue fuel depth cs = .ok (item, after)) (hc : skipSpace after = ']' :: rest) :
    readItems (fuel + 1) depth cs = .ok ([item], rest) := by
  rw [readItems, hr]
  dsimp only [bind, Except.bind]
  rw [hc]
  rfl

theorem readItems_comma {fuel depth : Nat} {cs after next rest : List Char} {item : Json}
    {items : List Json} (hr : readValue fuel depth cs = .ok (item, after))
    (hc : skipSpace after = ',' :: next)
    (hm : readItems fuel depth (skipSpace next) = .ok (items, rest)) :
    readItems (fuel + 1) depth cs = .ok (item :: items, rest) := by
  rw [readItems, hr]
  dsimp only [bind, Except.bind]
  rw [hc]
  simp only []
  rw [hm]
  rfl

theorem readItems_indented {depth : Nat} {items : List Json} (hne : items ≠ [])
    (hw : ∀ item ∈ items, Writable depth item) (h : ∀ item ∈ items, ReadsBack depth item)
    {fuel : Nat} (level : Nat) (rest : List Char)
    (hf : (indentedItems level rest items).length ≤ fuel + rest.length) :
    readItems fuel depth (indentedItems level rest items) = .ok (items, rest) := by
  induction items generalizing fuel with
  | nil => exact absurd rfl hne
  | cons item more ih =>
    have hitem := h item List.mem_cons_self
    have hnew := length_newLine level
    cases more with
    | nil =>
      rw [indentedItems, length_indented, List.length_append, List.length_cons] at hf
      cases fuel with
      | zero => omega
      | succ fuel =>
        have hread := hitem fuel (level + 1) (newLine level ++ ']' :: rest)
          (stopsNumber_newLine level _) (by
          rw [length_indented, List.length_append, List.length_cons]
          omega)
        have hclose : skipSpace (newLine level ++ ']' :: rest) = ']' :: rest := by
          rw [skipSpace_newLine, skipSpace_cons (by decide)]
        exact readItems_last hread hclose
    | cons next more =>
      have hnext := hw next (List.mem_cons_of_mem _ List.mem_cons_self)
      have hlength := length_indentedItems (next :: more) level rest
      rw [indentedItems, length_indented, List.length_append, List.length_cons] at hf
      cases fuel with
      | zero => omega
      | succ fuel =>
        have hread := hitem fuel (level + 1)
          (',' :: newLine (level + 1) ++ indentedItems level rest (next :: more))
          (stopsNumber_comma _) (by
            rw [length_indented, List.length_append, List.length_cons]
            omega)
        have hcomma : skipSpace
            (',' :: newLine (level + 1) ++ indentedItems level rest (next :: more)) =
              ',' :: (newLine (level + 1) ++ indentedItems level rest (next :: more)) :=
          skipSpace_cons (by decide) _
        have hrest := @ih (List.cons_ne_nil _ _)
          (fun other ho => hw other (List.mem_cons_of_mem _ ho))
          (fun other ho => h other (List.mem_cons_of_mem _ ho)) fuel (by omega)
        rw [← skipSpace_indentedItems hnext, ← skipSpace_newLine] at hrest
        exact readItems_comma hread hcomma hrest

theorem skipSpace_indentedFields (level : Nat) (rest : List Char) (field : Utf16 × Json)
    (more : List (Utf16 × Json)) :
    skipSpace (indentedFields level rest (field :: more)) =
      indentedFields level rest (field :: more) := by
  obtain ⟨name, value⟩ := field
  cases more <;> rw [indentedFields, writeString_append, skipSpace_cons (by decide)]

/-- A field is read with its value and added to the fields before it. -/
theorem readFields_field {depth : Nat} {name : Utf16} {value : Json} (hw : Writable depth value)
    (h : ReadsBack depth value) {fuel level : Nat} {tail : List Char} (ht : StopsNumber tail)
    (hf : (value.indented (level + 1) tail).length ≤ fuel + tail.length)
    (before : List (Utf16 × Json)) :
    readFields (fuel + 1) depth
        (writeString isPlainAscii name ++ ':' :: ' ' :: value.indented (level + 1) tail) before =
      match skipSpace tail with
      | '}' :: rest => .ok (setField name value before, rest)
      | ',' :: rest => readFields fuel depth (skipSpace rest) (setField name value before)
      | _ => .error .malformed := by
  have hcolon : skipSpace (':' :: ' ' :: value.indented (level + 1) tail) =
      ':' :: ' ' :: value.indented (level + 1) tail := skipSpace_cons (by decide) _
  have hblank : skipSpace (' ' :: value.indented (level + 1) tail) =
      value.indented (level + 1) tail := by
    have hspace : isSpace ' ' = true := by decide
    exact (List.dropWhile_cons_of_pos hspace).trans (skipSpace_indented hw _ _)
  rw [writeString_append, readFields, readString_writeString]
  simp only [found, bind, Except.bind]
  rw [hcolon]
  simp only []
  rw [hblank, h fuel (level + 1) tail ht hf]
  rfl

theorem setField_of_notMem {name : Utf16} {fields : List (Utf16 × Json)}
    (h : name ∉ fields.map Prod.fst) (value : Json) :
    setField name value fields = fields ++ [(name, value)] := by
  induction fields with
  | nil => rfl
  | cons field fields ih =>
    rw [List.map_cons, List.mem_cons, not_or] at h
    rw [setField, if_neg (Ne.symm h.1), ih h.2, List.cons_append]

theorem readFields_indented {depth : Nat} {fields : List (Utf16 × Json)} (hne : fields ≠ [])
    (hw : ∀ field ∈ fields, Writable depth field.2) (h : ∀ field ∈ fields, ReadsBack depth field.2)
    {before : List (Utf16 × Json)} (hn : ((before ++ fields).map Prod.fst).Nodup)
    {fuel : Nat} (level : Nat) (rest : List Char)
    (hf : (indentedFields level rest fields).length ≤ fuel + rest.length) :
    readFields fuel depth (indentedFields level rest fields) before =
      .ok (before ++ fields, rest) := by
  induction fields generalizing fuel before with
  | nil => exact absurd rfl hne
  | cons field more ih =>
    obtain ⟨name, value⟩ := field
    have hvalue : ReadsBack depth value := h _ List.mem_cons_self
    have hwvalue : Writable depth value := hw _ List.mem_cons_self
    have hset : setField name value before = before ++ [(name, value)] := by
      apply setField_of_notMem
      rw [List.map_append, List.nodup_append] at hn
      exact fun hm => hn.2.2 name hm name List.mem_cons_self rfl
    cases more with
    | nil =>
      rw [indentedFields, List.length_append, List.length_cons, List.length_cons, length_indented,
        List.length_append, List.length_cons] at hf
      cases fuel with
      | zero => omega
      | succ fuel =>
        have hclose : skipSpace (newLine level ++ '}' :: rest) = '}' :: rest := by
          rw [skipSpace_newLine, skipSpace_cons (by decide)]
        rw [indentedFields, readFields_field hwvalue hvalue (stopsNumber_newLine level _) (by
          rw [length_indented, List.length_append, List.length_cons]
          omega), hclose, hset]
        simp only []
    | cons next more =>
      have hlength := length_indentedFields (next :: more) level rest
      rw [indentedFields, List.length_append, List.length_cons, List.length_cons, length_indented,
        List.length_append, List.length_cons] at hf
      cases fuel with
      | zero => omega
      | succ fuel =>
        have hcomma : skipSpace
            (',' :: newLine (level + 1) ++ indentedFields level rest (next :: more)) =
              ',' :: (newLine (level + 1) ++ indentedFields level rest (next :: more)) :=
          skipSpace_cons (by decide) _
        have hrest := @ih (List.cons_ne_nil _ _)
          (fun other ho => hw other (List.mem_cons_of_mem _ ho))
          (fun other ho => h other (List.mem_cons_of_mem _ ho)) (before ++ [(name, value)])
          (by rwa [List.append_assoc]) fuel (by omega)
        have hstops : StopsNumber
            (',' :: newLine (level + 1) ++ indentedFields level rest (next :: more)) :=
          stopsNumber_comma _
        rw [indentedFields, readFields_field hwvalue hvalue hstops (by
          rw [length_indented, List.length_append, List.length_cons]
          omega), hcomma, hset]
        simp only []
        rw [skipSpace_newLine, skipSpace_indentedFields, hrest, List.append_assoc]
        rfl

/-- Items are not mistaken for the end of their array. -/
theorem readValue_items {fuel depth : Nat} {cs start after : List Char} {items : List Json}
    (hs : skipSpace cs = start) (hc : ∃ c rest, start = c :: rest ∧ c ≠ ']')
    (hr : readItems fuel depth start = .ok (items, after)) :
    readValue (fuel + 1) (depth + 1) ('[' :: cs) = .ok (array items, after) := by
  obtain ⟨c, rest, rfl, hne⟩ := hc
  rw [readValue, hs]
  split
  · next heq => exact absurd (List.cons.inj heq).1 hne
  · rw [hr]
    rfl

theorem readValue_fields {fuel depth : Nat} {cs start after : List Char}
    {fields : List (Utf16 × Json)} (hs : skipSpace cs = '"' :: start)
    (hr : readFields fuel depth ('"' :: start) [] = .ok (fields, after)) :
    readValue (fuel + 1) (depth + 1) ('{' :: cs) = .ok (object fields, after) := by
  rw [readValue, hs]
  split
  · next heq => cases heq
  · rw [hr]
    rfl

/-- The text of a value takes some fuel. -/
theorem Writable.exists_fuel {depth fuel level : Nat} {v : Json} {rest : List Char}
    (h : Writable depth v) (hf : (v.indented level rest).length ≤ fuel + rest.length) :
    ∃ n, fuel = n + 1 := by
  obtain ⟨c, start, hv, -⟩ := indented_eq_cons h level []
  rw [length_indented, hv, List.length_cons] at hf
  exact ⟨fuel - 1, by omega⟩

theorem indented_string (level : Nat) (rest : List Char) (value : Utf16) :
    (string value).indented level rest =
      '"' :: (value.decode.flatMap (writeSymbol isPlainAscii) ++ '"' :: rest) :=
  writeString_append isPlainAscii value rest

/-- A value that begins with a letter is an atom. -/
theorem readValue_atom {fuel depth : Nat} {c : Char} {rest after : List Char} {v : Json}
    (hc : c ∉ ['"', '[', '{']) (hr : readAtom (c :: rest) = some (v, after)) :
    readValue (fuel + 1) depth (c :: rest) = .ok (v, after) := by
  simp only [List.mem_cons, not_or] at hc
  obtain ⟨hq, ha, ho, -⟩ := hc
  rw [readValue]
  · rw [hr]
    rfl
  · exact fun _ h => hq (List.cons.inj h).1
  · exact fun _ _ h => ha (List.cons.inj h).1
  · exact fun _ _ _ h => ha (List.cons.inj h).1
  · exact fun _ _ h => ho (List.cons.inj h).1
  · exact fun _ _ _ h => ho (List.cons.inj h).1

theorem readValue_number {fuel depth : Nat} {text rest after : List Char} {v : Json}
    (hs : ∃ c cs, text = c :: cs ∧ StartsNumber c)
    (hr : readAtom (text ++ rest) = some (v, after)) :
    readValue (fuel + 1) depth (text ++ rest) = .ok (v, after) := by
  obtain ⟨c, cs, rfl, hc⟩ := hs
  refine readValue_atom ?_ hr
  simp only [List.mem_cons, List.not_mem_nil, not_or, or_false]
  exact ⟨hc.ne (by decide), hc.ne (by decide), hc.ne (by decide)⟩

theorem readsBack_of_succ {depth : Nat} {v : Json} (hw : Writable depth v)
    (h : ∀ fuel level rest, StopsNumber rest →
      (v.indented level rest).length ≤ fuel + 1 + rest.length →
      readValue (fuel + 1) depth (v.indented level rest) = .ok (v, rest)) : ReadsBack depth v := by
  intro fuel level rest hr hf
  obtain ⟨fuel, rfl⟩ := hw.exists_fuel hf
  exact h fuel level rest hr hf

theorem readsBack_bool (depth : Nat) (value : Bool) : ReadsBack depth (bool value) := by
  apply readsBack_of_succ (.bool depth value)
  intro fuel level rest _ _
  cases value with
  | true =>
    have hword := dropWord?_append "rue".toList rest
    exact readValue_atom (by decide) (congrArg (Option.map (Json.bool true, ·)) hword)
  | false =>
    have hword := dropWord?_append "alse".toList rest
    exact readValue_atom (by decide) (congrArg (Option.map (Json.bool false, ·)) hword)

theorem readsBack_array {depth : Nat} {items : List Json}
    (hw : ∀ item ∈ items, Writable depth item) (h : ∀ item ∈ items, ReadsBack depth item) :
    ReadsBack (depth + 1) (array items) := by
  apply readsBack_of_succ (.array hw)
  intro fuel level rest _ hf
  cases items with
  | nil =>
    have hclose : skipSpace (']' :: rest) = ']' :: rest := skipSpace_cons (by decide) _
    rw [indented, readValue, hclose]
    simp only []
  | cons item items =>
    have htext : (Json.array (item :: items)).indented level rest =
        '[' :: (newLine (level + 1) ++ indentedItems level rest (item :: items)) := rfl
    have hstart : ∃ c start, indentedItems level rest (item :: items) = c :: start ∧ c ≠ ']' := by
      cases items <;>
      · obtain ⟨c, start, hv, -, hc⟩ := indented_eq_cons (hw item List.mem_cons_self) ..
        exact ⟨c, start, hv, hc⟩
    rw [htext] at hf ⊢
    rw [List.length_cons, List.length_append] at hf
    apply readValue_items _ hstart (readItems_indented (List.cons_ne_nil _ _) hw h level rest
      (by omega))
    rw [skipSpace_newLine, skipSpace_indentedItems (hw item List.mem_cons_self)]

theorem readsBack_object {depth : Nat} {fields : List (Utf16 × Json)}
    (hw : ∀ field ∈ fields, Writable depth field.2) (hn : (fields.map Prod.fst).Nodup)
    (h : ∀ field ∈ fields, ReadsBack depth field.2) : ReadsBack (depth + 1) (object fields) := by
  apply readsBack_of_succ (.object hw hn)
  intro fuel level rest _ hf
  cases fields with
  | nil =>
    have hclose : skipSpace ('}' :: rest) = '}' :: rest := skipSpace_cons (by decide) _
    rw [indented, readValue, hclose]
    simp only []
  | cons field fields =>
    have htext : (Json.object (field :: fields)).indented level rest =
        '{' :: (newLine (level + 1) ++ indentedFields level rest (field :: fields)) := rfl
    obtain ⟨start, hstart⟩ :
        ∃ start, indentedFields level rest (field :: fields) = '"' :: start := by
      obtain ⟨name, value⟩ := field
      cases fields <;> exact ⟨_, writeString_append ..⟩
    rw [htext] at hf ⊢
    rw [List.length_cons, List.length_append] at hf
    have hread := @readFields_indented depth (field :: fields) (List.cons_ne_nil _ _) hw h [] hn
      fuel level rest (by omega)
    rw [hstart] at hread
    refine readValue_fields ?_ hread
    rw [skipSpace_newLine, skipSpace_indentedFields, hstart]

/-- A value that may be written is read back. -/
theorem Writable.readsBack {depth : Nat} {v : Json} (h : Writable depth v) : ReadsBack depth v := by
  induction h with
  | null depth =>
    apply readsBack_of_succ (.null depth)
    intro fuel level rest _ _
    have hword := dropWord?_append "ull".toList rest
    exact readValue_atom (by decide) (congrArg (Option.map (Json.null, ·)) hword)
  | bool depth value => exact readsBack_bool depth value
  | @int depth value h =>
    apply readsBack_of_succ (.int depth h)
    intro fuel level rest hr _
    exact readValue_number (writeInt_eq_cons value) (readAtom_writeInt h hr)
  | @real depth value h =>
    apply readsBack_of_succ (.real depth h)
    intro fuel level rest hr _
    exact readValue_number (toText_starts h) (readAtom_toText h hr)
  | string depth value =>
    apply readsBack_of_succ (.string depth value)
    intro fuel level rest _ _
    rw [indented_string, readValue, readString_writeString]
    rfl
  | array hw ih => exact readsBack_array hw ih
  | object hw hn ih => exact readsBack_object hw hn ih

/-- A value that may be written and is not nested too deeply is read back from its text, with white
space behind it. -/
theorem read_indented {v : Json} (h : Writable nestingLimit v) {rest : List Char}
    (hr : skipSpace rest = []) : read (String.ofList (v.indented 0 rest)) = .ok v := by
  have hlength := length_indented v 0 rest
  have hv := h.readsBack (2 * (v.indented 0 rest).length + 2) 0 rest (stopsNumber_of_skipSpace hr)
    (by omega)
  rw [read, String.toList_ofList]
  dsimp only
  rw [skipSpace_indented h, hv]
  simp only [bind, Except.bind, hr]
  rfl

end FileSieve.Json
