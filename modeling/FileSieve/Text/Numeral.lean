import FileSieve.Text.Blank

/-!
Decimal numerals as a user types them: blanks around, a sign, digits of any script, single
underscores between digits.
-/

namespace FileSieve.Text

/-- The zeros of the scripts beyond ASCII, as of Unicode 14; the other nine digits follow each. -/
def digitZeros : List Nat :=
  [
    0x660, 0x6F0, 0x7C0, 0x966, 0x9E6, 0xA66, 0xAE6, 0xB66, 0xBE6, 0xC66, 0xCE6, 0xD66, 0xDE6,
    0xE50, 0xED0, 0xF20, 0x1040, 0x1090, 0x17E0, 0x1810, 0x1946, 0x19D0, 0x1A80, 0x1A90, 0x1B50,
    0x1BB0, 0x1C40, 0x1C50, 0xA620, 0xA8D0, 0xA900, 0xA9D0, 0xA9F0, 0xAA50, 0xABF0, 0xFF10,
    0x104A0, 0x10D30, 0x11066, 0x110F0, 0x11136, 0x111D0, 0x112F0, 0x11450, 0x114D0, 0x11650,
    0x116C0, 0x11730, 0x118E0, 0x11950, 0x11C50, 0x11D50, 0x11DA0, 0x16A60, 0x16AC0, 0x16B50,
    0x1D7CE, 0x1D7D8, 0x1D7E2, 0x1D7EC, 0x1D7F6, 0x1E140, 0x1E2F0, 0x1E950, 0x1FBF0
  ]

def digitValue? (c : Char) : Option Nat :=
  let n := c.toNat
  if 48 ≤ n && n ≤ 57 then some (n - 48)
  else (digitZeros.find? fun base => base ≤ n && n < base + 10).map (n - ·)

/-- Whether a blank may surround a numeral: beyond ASCII any blank, in ASCII the space, the
horizontal and vertical tab, and the line and form feeds and returns. -/
def isNumeralPadding (c : Char) : Bool :=
  let n := c.toNat
  if n < 127 then n == 32 || (9 ≤ n && n ≤ 13) else isBlank c

/-- The longest numeral that is read, counted in digits. -/
def numeralLimit : Nat := 4300

/-- Digits with at most one underscore between two of them, most significant digit first. -/
def digits? : List Char → Option (List Nat)
  | [] => none
  | [c] => do return [← digitValue? c]
  | c :: '_' :: rest => do return (← digitValue? c) :: (← digits? rest)
  | c :: rest => do return (← digitValue? c) :: (← digits? rest)

def ofDigits (digits : List Nat) : Nat :=
  digits.foldl (fun value d => 10 * value + d) 0

/-- A numeral without sign, of at most `numeralLimit` digits. -/
def natNumeral? (cs : List Char) : Option Nat := do
  let digits ← digits? cs
  if digits.length ≤ numeralLimit then some (ofDigits digits) else none

def intNumeral? (s : String) : Option Int :=
  match dropBothWhile isNumeralPadding s.toList with
  | '+' :: rest => (natNumeral? rest).map Int.ofNat
  | '-' :: rest => (natNumeral? rest).map fun n => -(n : Int)
  | cs => (natNumeral? cs).map Int.ofNat

end FileSieve.Text
