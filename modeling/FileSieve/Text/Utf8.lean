/-!
UTF-8, one byte at a time. A byte sequence is decoded into characters and marks for what is no
character; each longest beginning of a character that breaks off is one mark.
-/

namespace FileSieve.Text

/-- A character of which the first bytes have been read. The next byte must lie between `low` and
`high`, which rules out overlong forms, surrogates and numbers beyond the last code point. -/
structure Utf8Pending where
  missing : Nat
  low : Nat
  high : Nat
  value : Nat

/-- What a byte says at the start of a character. `none` marks a byte that starts none. -/
def utf8Start (b : Nat) : List (Option Char) × Option Utf8Pending :=
  if b < 0x80 then ([some (Char.ofNat b)], none)
  else if b < 0xC2 then ([none], none)
  else if b < 0xE0 then ([], some ⟨0, 0x80, 0xBF, b - 0xC0⟩)
  else if b = 0xE0 then ([], some ⟨1, 0xA0, 0xBF, 0⟩)
  else if b = 0xED then ([], some ⟨1, 0x80, 0x9F, 0xD⟩)
  else if b < 0xF0 then ([], some ⟨1, 0x80, 0xBF, b - 0xE0⟩)
  else if b = 0xF0 then ([], some ⟨2, 0x90, 0xBF, 0⟩)
  else if b < 0xF4 then ([], some ⟨2, 0x80, 0xBF, b - 0xF0⟩)
  else if b = 0xF4 then ([], some ⟨2, 0x80, 0x8F, 4⟩)
  else ([none], none)

/-- What a byte adds. A byte that does not continue the pending character breaks it off and is read
as the start of the next one. -/
def utf8Step (pending : Option Utf8Pending) (b : Nat) : List (Option Char) × Option Utf8Pending :=
  match pending with
  | none => utf8Start b
  | some p =>
    if p.low ≤ b && b ≤ p.high then
      let value := p.value * 64 + (b - 0x80)
      match p.missing with
      | 0 => ([some (Char.ofNat value)], none)
      | missing + 1 => ([], some ⟨missing, 0x80, 0xBF, value⟩)
    else
      let (marks, next) := utf8Start b
      (none :: marks, next)

/-- Decodes bytes after the beginning of a pending character. -/
def utf8DecodeFrom (pending : Option Utf8Pending) : List UInt8 → List (Option Char)
  | [] => if pending.isSome then [none] else []
  | b :: rest =>
    let (marks, next) := utf8Step pending b.toNat
    marks ++ utf8DecodeFrom next rest

/-- The characters of a byte sequence, with `none` for each part that is no character. -/
def utf8Decode (bytes : List UInt8) : List (Option Char) :=
  utf8DecodeFrom none bytes

/-- The text of a byte sequence that is UTF-8 throughout. -/
def ofUtf8? (bytes : List UInt8) : Option String :=
  ((utf8Decode bytes).mapM id).map String.ofList

/-- The text of a byte sequence; what is no character becomes U+FFFD. -/
def ofUtf8Lossy (bytes : List UInt8) : String :=
  String.ofList ((utf8Decode bytes).map (·.getD '\uFFFD'))

def toUtf8 (s : String) : List UInt8 :=
  s.toList.flatMap String.utf8EncodeChar

end FileSieve.Text
