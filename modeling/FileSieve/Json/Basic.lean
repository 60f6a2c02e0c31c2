import FileSieve.Decimal.Shortest
import FileSieve.Text.Utf16

/-!
JSON values. The fields of an object keep the order in which their names first came; integers are
unbounded and other numbers are binary floating-point numbers. Strings are kept in 16-bit units,
because an escape may write half a surrogate pair.
-/

namespace FileSieve

/-- A JSON value. -/
inductive Json where
  | null
  | bool (value : Bool)
  | int (value : Int)
  | real (value : Binary64)
  | string (value : Utf16)
  | array (items : List Json)
  | object (fields : List (Utf16 × Json))
deriving Repr, Inhabited

namespace Json

/-- The fields with one of them set: in its place if the name is there, at the end otherwise. -/
def setField (name : Utf16) (value : Json) : List (Utf16 × Json) → List (Utf16 × Json)
  | [] => [(name, value)]
  | (other, old) :: rest =>
    if other = name then (other, value) :: rest else (other, old) :: setField name value rest

def field? (name : Utf16) : Json → Option Json
  | object fields => fields.lookup name
  | _ => none

def string? : Json → Option Utf16
  | string value => some value
  | _ => none

def texts (values : List Utf16) : Json := array (values.map string)

def array? : Json → Option (List Json)
  | array items => some items
  | _ => none

theorem lookup_setField_self (name : Utf16) (value : Json) (fields : List (Utf16 × Json)) :
    (setField name value fields).lookup name = some value := by
  induction fields with
  | nil => simp [setField]
  | cons pair rest ih =>
    obtain ⟨other, old⟩ := pair
    simp only [setField]
    split
    · next h => simp [h]
    · next h =>
      have hb : (name == other) = false := by simpa using Ne.symm h
      simp [List.lookup_cons, ih, hb]

theorem lookup_setField_of_ne {name other : Utf16} (h : other ≠ name) (value : Json)
    (fields : List (Utf16 × Json)) :
    (setField name value fields).lookup other = fields.lookup other := by
  induction fields with
  | nil => simp [setField, h]
  | cons pair rest ih =>
    obtain ⟨key, old⟩ := pair
    simp only [setField]
    split
    · next hk =>
      have hb : (other == key) = false := by simpa [hk] using h
      simp [List.lookup_cons, hb]
    · simp [List.lookup_cons, ih]

end Json

end FileSieve
