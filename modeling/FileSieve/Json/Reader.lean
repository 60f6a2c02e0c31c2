import FileSieve.Json.Basic
import FileSieve.Text.Hex
import FileSieve.Text.Numeral

/-!
Reading JSON. Beyond the standard it takes `NaN`, `Infinity` and `-Infinity`; of several fields with
one name the last counts. Control characters may not stand in a string, an integer may have no more
digits than any other numeral, and arrays and objects may not stand too deep inside one another.
-/

namespace FileSieve.Json

def isSpace (c : Char) : Bool :=
  c = ' ' || c = '\t' || c = '\n' || c = '\r'

/-- The input after the white space at its start. -/
def skipSpace (cs : List Char) : List Char :=
  cs.dropWhile isSpace

/-- Takes a fixed word from the start of the input. -/
def dropWord? (word cs : List Char) : Option (List Char) :=
  if word.isPrefixOf cs then some (cs.drop word.length) else none

/-- The character that a one-letter escape stands for. -/
def ofEscape? (c : Char) : Option Char :=
  if c = '"' || c = '\\' || c = '/' then some c
  else if c = 'b' then some '\x08'
  else if c = 'f' then some '\x0c'
  else if c = 'n' then some '\n'
  else if c = 'r' then some '\r'
  else if c = 't' then some '\t'
  else none

/-- The rest of a string after its opening quote, and the input after its closing one. Each escape
by number is one unit, so two of them can make a pair. -/
def readString : List Char → Option (List UInt16 × List Char)
  | [] => none
  | '"' :: rest => some ([], rest)
  | '\\' :: 'u' :: a :: b :: c :: d :: rest => do
    let unit ← Text.ofHex? [a, b, c, d]
    let (units, after) ← readString rest
    return (UInt16.ofNat unit :: units, after)
  | '\\' :: c :: rest => do
    let char ← ofEscape? c
    let (units, after) ← readString rest
    return (Utf16.ofChar char ++ units, after)
  | c :: rest =>
    if c.toNat < 32 || c = '\\' then none
    else do
      let (units, after) ← readString rest
      return (Utf16.ofChar c ++ units, after)

/-- Whether a character is one of the ten digits of ASCII. -/
def isDigit (c : Char) : Bool :=
  48 ≤ c.toNat && c.toNat ≤ 57

def digitsValue (ds : List Char) : Nat :=
  ds.foldl (fun value c => 10 * value + (c.toNat - 48)) 0

/-- The digits at the start of the input and what follows them. -/
def spanDigits (cs : List Char) : List Char × List Char :=
  (cs.takeWhile isDigit, cs.dropWhile isDigit)

/-- The fraction after a number, if there is one: its digits and what follows. -/
def readFraction (cs : List Char) : List Char × List Char :=
  match cs with
  | '.' :: rest =>
    match spanDigits rest with
    | ([], _) => ([], cs)
    | found => found
  | _ => ([], cs)

/-- The exponent after a number, if there is one, and what follows. -/
def readExponent (cs : List Char) : Option Int × List Char :=
  match cs with
  | e :: rest =>
    if e = 'e' || e = 'E' then
      let (negative, digits) := match rest with
        | '+' :: more => (false, more)
        | '-' :: more => (true, more)
        | more => (false, more)
      match spanDigits digits with
      | ([], _) => (none, cs)
      | (ds, after) =>
        let value : Int := digitsValue ds
        (some (if negative then -value else value), after)
    else (none, cs)
  | [] => (none, cs)

/-- A number after its sign. Without fraction and exponent it is an integer. -/
def readNumber (negative : Bool) (cs : List Char) : Option (Json × List Char) :=
  let (whole, rest) := match cs with
    | '0' :: rest => (['0'], rest)
    | _ => spanDigits cs
  if whole.isEmpty then none
  else
    let (fraction, rest) := readFraction rest
    let (exponent, rest) := readExponent rest
    if fraction.isEmpty && exponent.isNone then
      if whole.length ≤ Text.numeralLimit then
        let value : Int := digitsValue whole
        some (int (if negative then -value else value), rest)
      else none
    else
      let value := Binary64.ofDecimal negative (digitsValue (whole ++ fraction))
        (exponent.getD 0 - fraction.length)
      some (real value, rest)

/-- A value that is neither a string nor has parts. -/
def readAtom (cs : List Char) : Option (Json × List Char) :=
  match cs with
  | 'n' :: rest => (dropWord? "ull".toList rest).map (null, ·)
  | 't' :: rest => (dropWord? "rue".toList rest).map (bool true, ·)
  | 'f' :: rest => (dropWord? "alse".toList rest).map (bool false, ·)
  | 'N' :: rest => (dropWord? "aN".toList rest).map (real .nan, ·)
  | 'I' :: rest => (dropWord? "nfinity".toList rest).map (real (.infinite false), ·)
  | '-' :: 'I' :: rest => (dropWord? "nfinity".toList rest).map (real (.infinite true), ·)
  | '-' :: rest => readNumber true rest
  | _ => readNumber false cs

/-- What stands too deep inside other arrays and objects. -/
inductive Overflow where
  | array
  | object
deriving DecidableEq, Repr

def Overflow.name : Overflow → String
  | array => "array"
  | object => "object"

def Overflow.message (part : Overflow) : String :=
  "maximum recursion depth exceeded while decoding a JSON " ++ part.name ++
    " from a unicode string"

/-- Why a text cannot be read. -/
inductive Fault where
  | malformed
  | tooDeep (part : Overflow)
deriving DecidableEq, Repr

/-- The part of a text that a reader has found, if it has found it. -/
def found {α : Type} : Option α → Except Fault α
  | some part => .ok part
  | none => .error .malformed

mutual

/-- The value at the start of the input and what follows it. The first argument bounds the work, the
second one tells how many arrays and objects may stand inside one another. -/
def readValue : Nat → Nat → List Char → Except Fault (Json × List Char)
  | 0, _, _ => .error .malformed
  | _ + 1, _, '"' :: rest => do
    let (units, after) ← found (readString rest)
    return (string ⟨units⟩, after)
  | _ + 1, 0, '[' :: _ => .error (.tooDeep .array)
  | fuel + 1, depth + 1, '[' :: rest =>
    match skipSpace rest with
    | ']' :: after => .ok (array [], after)
    | start => do
      let (items, after) ← readItems fuel depth start
      return (array items, after)
  | _ + 1, 0, '{' :: _ => .error (.tooDeep .object)
  | fuel + 1, depth + 1, '{' :: rest =>
    match skipSpace rest with
    | '}' :: after => .ok (object [], after)
    | start => do
      let (fields, after) ← readFields fuel depth start []
      return (object fields, after)
  | _ + 1, _, cs => found (readAtom cs)

/-- The items of an array up to its closing bracket. -/
def readItems : Nat → Nat → List Char → Except Fault (List Json × List Char)
  | 0, _, _ => .error .malformed
  | fuel + 1, depth, cs => do
    let (item, after) ← readValue fuel depth cs
    match skipSpace after with
    | ']' :: rest => return ([item], rest)
    | ',' :: rest =>
      let (items, rest) ← readItems fuel depth (skipSpace rest)
      return (item :: items, rest)
    | _ => .error .malformed

/-- The fields of an object up to its closing brace, added to the fields read before. -/
def readFields : Nat → Nat → List Char → List (Utf16 × Json) →
    Except Fault (List (Utf16 × Json) × List Char)
  | 0, _, _, _ => .error .malformed
  | fuel + 1, depth, '"' :: start, fields => do
    let (name, after) ← found (readString start)
    match skipSpace after with
    | ':' :: rest =>
      let (value, after) ← readValue fuel depth (skipSpace rest)
      let fields := setField ⟨name⟩ value fields
      match skipSpace after with
      | '}' :: rest => return (fields, rest)
      | ',' :: rest => readFields fuel depth (skipSpace rest) fields
      | _ => .error .malformed
    | _ => .error .malformed
  | _ + 1, _, _, _ => .error .malformed

end

/-- How many arrays and objects may stand inside one another. -/
def nestingLimit : Nat := 986

def read (s : String) : Except Fault Json := do
  let cs := s.toList
  let (value, rest) ← readValue (2 * cs.length + 2) nestingLimit (skipSpace cs)
  if (skipSpace rest).isEmpty then return value else throw .malformed

end FileSieve.Json
