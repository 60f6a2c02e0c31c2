import FileSieve.Proofs.Json.Documents

/-! # The fields of objects

The names of an object's fields are distinct, and stay so when a field is set, so that each of them
is found under its name. -/

namespace FileSieve.Json

variable {given fields : List (Utf16 × Json)} {name : Utf16} {value : Json}

/-! ### Setting fields -/

theorem mem_names_setField {other : Utf16} (name : Utf16) (value : Json)
    (fields : List (Utf16 × Json)) :
    other ∈ (setField name value fields).map Prod.fst ↔
      other = name ∨ other ∈ fields.map Prod.fst := by
  induction fields with
  | nil => simp [setField]
  | cons field rest ih =>
    obtain ⟨key, old⟩ := field
    rw [setField]
    split
    · next h =>
      subst h
      simp
    · rw [List.map_cons, List.mem_cons, ih, List.map_cons, List.mem_cons]
      exact or_left_comm

/-- Setting a field keeps the names distinct. -/
theorem nodup_setField (h : (fields.map Prod.fst).Nodup) (name : Utf16) (value : Json) :
    ((setField name value fields).map Prod.fst).Nodup := by
  induction fields with
  | nil => simp [setField]
  | cons field rest ih =>
    obtain ⟨key, old⟩ := field
    obtain ⟨hkey, hrest⟩ := List.nodup_cons.1 h
    rw [setField]
    split
    · exact h
    · next hne =>
      refine List.nodup_cons.2 ⟨?_, ih hrest⟩
      rw [mem_names_setField]
      exact not_or.2 ⟨hne, hkey⟩

/-- The fields with others set one after the other. -/
def setFields (given fields : List (Utf16 × Json)) : List (Utf16 × Json) :=
  given.foldl (fun fields (name, value) => setField name value fields) fields

/-- A field is found among those that were set if it is one of them, and among the old ones
otherwise. -/
theorem lookup_setFields (h : (given.map Prod.fst).Nodup) (fields : List (Utf16 × Json))
    (name : Utf16) :
    (setFields given fields).lookup name = (given.lookup name).or (fields.lookup name) := by
  induction given generalizing fields with
  | nil => rfl
  | cons field rest ih =>
    obtain ⟨key, value⟩ := field
    obtain ⟨hkey, hrest⟩ := List.nodup_cons.1 h
    have hset : setFields ((key, value) :: rest) fields =
        setFields rest (setField key value fields) := rfl
    rw [hset, ih hrest]
    by_cases hn : name = key
    · subst hn
      have hnone : rest.lookup name = none := by
        rw [List.lookup_eq_none_iff]
        intro field hf
        simpa using Ne.symm (ne_of_mem_of_not_mem (List.mem_map_of_mem hf) hkey)
      rw [hnone, lookup_setField_self, List.lookup_cons_self]
      rfl
    · have hb : (name == key) = false := by simpa using hn
      rw [lookup_setField_of_ne hn, List.lookup_cons, hb]

/-! ### Fields that may be written -/

/-- The fields of an object that may be written. -/
structure WritableFields (depth : Nat) (fields : List (Utf16 × Json)) : Prop where
  values : ∀ field ∈ fields, Writable depth field.2
  names : (fields.map Prod.fst).Nodup

theorem writable_object_iff {depth : Nat} :
    Writable (depth + 1) (object fields) ↔ WritableFields depth fields := by
  constructor
  · intro h
    cases h with
    | object hvalues hnames => exact ⟨hvalues, hnames⟩
  · exact fun h => .object h.values h.names

theorem writable_texts (depth : Nat) (values : List Utf16) :
    Writable (depth + 1) (texts values) := by
  apply Writable.array
  intro item hi
  obtain ⟨value, -, rfl⟩ := List.mem_map.1 hi
  exact .string depth value

theorem writableFields_nil (depth : Nat) : WritableFields depth [] :=
  ⟨List.forall_mem_nil _, List.nodup_nil⟩

theorem writable_object_nil (depth : Nat) : Writable (depth + 1) (object []) :=
  writable_object_iff.2 (writableFields_nil depth)

theorem mem_setField {field : Utf16 × Json} (h : field ∈ setField name value fields) :
    field = (name, value) ∨ field ∈ fields := by
  induction fields with
  | nil => exact .inl (List.mem_singleton.1 h)
  | cons first rest ih =>
    obtain ⟨other, old⟩ := first
    rw [setField] at h
    split at h
    · next hname =>
      rcases List.mem_cons.1 h with h | h
      · exact .inl (hname ▸ h)
      · exact .inr (List.mem_cons_of_mem _ h)
    · rcases List.mem_cons.1 h with h | h
      · exact .inr (h ▸ List.mem_cons_self)
      · exact (ih h).imp id (List.mem_cons_of_mem _)

theorem WritableFields.setField {depth : Nat} (h : WritableFields depth fields)
    (hv : Writable depth value) (name : Utf16) :
    WritableFields depth (setField name value fields) := by
  refine ⟨fun field hf => ?_, nodup_setField h.names name value⟩
  rcases mem_setField hf with rfl | hf
  · exact hv
  · exact h.values field hf

theorem WritableFields.setFields {depth : Nat} (h : WritableFields depth fields)
    (hg : ∀ field ∈ given, Writable depth field.2) :
    WritableFields depth (setFields given fields) := by
  induction given generalizing fields with
  | nil => exact h
  | cons field rest ih =>
    obtain ⟨hfield, hrest⟩ := List.forall_mem_cons.1 hg
    exact ih (h.setField hfield field.1) hrest

end FileSieve.Json
