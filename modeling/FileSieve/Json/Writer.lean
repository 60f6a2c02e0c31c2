import FileSieve.Json.Basic
import FileSieve.Text.Hex

/-!
Writing JSON. The compact form has no blanks and leaves characters beyond ASCII as they are; the
indented form puts each item and field on a line of its own and writes nothing but ASCII. What
follows a value does not change how it is written (`indented_append`).
-/

namespace FileSieve.Json

def escapeUnit (n : Nat) : List Char :=
  '\\' :: 'u' :: Text.hex 4 n

/-- The escape of a character: one unit, or the two units of a surrogate pair. -/
def escapeChar (c : Char) : List Char :=
  let n := c.toNat
  if n < 0x10000 then escapeUnit n
  else escapeUnit (0xD800 + (n - 0x10000) / 0x400) ++ escapeUnit (0xDC00 + (n - 0x10000) % 0x400)

/-- A character of a string, given which characters may stand as they are. -/
def writeChar (plain : Char → Bool) (c : Char) : List Char :=
  if c = '"' then ['\\', '"']
  else if c = '\\' then ['\\', '\\']
  else if c = '\n' then ['\\', 'n']
  else if c = '\r' then ['\\', 'r']
  else if c = '\t' then ['\\', 't']
  else if c = '\x0c' then ['\\', 'f']
  else if c = '\x08' then ['\\', 'b']
  else if plain c then [c]
  else escapeChar c

/-- A character of a string, or the escape of half a pair that stands alone. -/
def writeSymbol (plain : Char → Bool) : Except UInt16 Char → List Char
  | .ok c => writeChar plain c
  | .error half => escapeUnit half.toNat

def writeString (plain : Char → Bool) (t : Utf16) : List Char :=
  '"' :: t.decode.flatMap (writeSymbol plain) ++ ['"']

def isUnescaped (c : Char) : Bool := 32 ≤ c.toNat

def isPlainAscii (c : Char) : Bool := 32 ≤ c.toNat && c.toNat < 127

def writeInt (n : Int) : List Char :=
  let digits := Nat.toDigits 10 n.natAbs
  if n < 0 then '-' :: digits else digits

def writeAtom (plain : Char → Bool) : Json → List Char
  | null => "null".toList
  | bool true => "true".toList
  | bool false => "false".toList
  | int n => writeInt n
  | real x => x.toText
  | string s => writeString plain s
  | array _ => "[]".toList
  | object _ => "\x7b\x7d".toList

mutual

def compact : Json → List Char
  | array items => '[' :: compactItems items
  | object fields => '{' :: compactFields fields
  | atom => writeAtom isUnescaped atom

/-- The items of an array and its closing bracket. -/
def compactItems : List Json → List Char
  | [] => [']']
  | [item] => item.compact ++ [']']
  | item :: next :: rest => item.compact ++ ',' :: compactItems (next :: rest)

/-- The fields of an object and its closing brace. -/
def compactFields : List (Utf16 × Json) → List Char
  | [] => ['}']
  | [(name, value)] => writeString isUnescaped name ++ ':' :: value.compact ++ ['}']
  | (name, value) :: next :: rest =>
    writeString isUnescaped name ++ ':' :: value.compact ++ ',' :: compactFields (next :: rest)

end

/-- A line break and two blanks for each level of depth. -/
def newLine (depth : Nat) : List Char :=
  '\n' :: List.replicate (2 * depth) ' '

mutual

/-- The indented form of a value that stands at a given depth, in front of what follows it. An array
or object without parts is written on one line. -/
def indented (depth : Nat) (rest : List Char) : Json → List Char
  | array [] => '[' :: ']' :: rest
  | array items => '[' :: newLine (depth + 1) ++ indentedItems depth rest items
  | object [] => '{' :: '}' :: rest
  | object fields => '{' :: newLine (depth + 1) ++ indentedFields depth rest fields
  | atom => writeAtom isPlainAscii atom ++ rest

/-- The items of an array, one a line, and its closing bracket. -/
def indentedItems (depth : Nat) (rest : List Char) : List Json → List Char
  | [] => ']' :: rest
  | [item] => item.indented (depth + 1) (newLine depth ++ ']' :: rest)
  | item :: next :: more =>
    item.indented (depth + 1)
      (',' :: newLine (depth + 1) ++ indentedItems depth rest (next :: more))

/-- The fields of an object, one a line, and its closing brace. -/
def indentedFields (depth : Nat) (rest : List Char) : List (Utf16 × Json) → List Char
  | [] => '}' :: rest
  | [(name, value)] =>
    writeString isPlainAscii name ++
      ':' :: ' ' :: value.indented (depth + 1) (newLine depth ++ '}' :: rest)
  | (name, value) :: next :: more =>
    writeString isPlainAscii name ++ ':' :: ' ' :: value.indented (depth + 1)
      (',' :: newLine (depth + 1) ++ indentedFields depth rest (next :: more))

end

mutual

/-- What follows a value does not change how it is written. -/
theorem indented_append (depth : Nat) (rest more : List Char) (v : Json) :
    v.indented depth (rest ++ more) = v.indented depth rest ++ more := by
  match v with
  | array [] => rfl
  | array (item :: items) =>
    simp only [indented, indentedItems_append depth rest more (item :: items), List.append_assoc,
      List.cons_append]
  | object [] => rfl
  | object (field :: fields) =>
    simp only [indented, indentedFields_append depth rest more (field :: fields),
      List.append_assoc, List.cons_append]
  | null | bool _ | int _ | real _ | string _ => simp only [indented, List.append_assoc]

theorem indentedItems_append (depth : Nat) (rest more : List Char) (items : List Json) :
    indentedItems depth (rest ++ more) items = indentedItems depth rest items ++ more := by
  match items with
  | [] => rfl
  | [item] =>
    simp only [indentedItems, ← indented_append (depth + 1), List.append_assoc, List.cons_append]
  | item :: next :: others =>
    simp only [indentedItems, ← indented_append (depth + 1),
      indentedItems_append depth rest more (next :: others), List.append_assoc, List.cons_append]

theorem indentedFields_append (depth : Nat) (rest more : List Char)
    (fields : List (Utf16 × Json)) :
    indentedFields depth (rest ++ more) fields = indentedFields depth rest fields ++ more := by
  match fields with
  | [] => rfl
  | [(name, value)] =>
    simp only [indentedFields, List.append_assoc, List.cons_append,
      ← indented_append (depth + 1) _ more value]
  | (name, value) :: next :: others =>
    simp only [indentedFields, List.append_assoc, List.cons_append,
      ← indented_append (depth + 1) _ more value,
      indentedFields_append depth rest more (next :: others)]

end

end FileSieve.Json
