import FileSieve.Text.Hex
import FileSieve.Text.Printable.Table

/-!
Quoted texts in messages. A text stands between single quotes, or between double quotes when it
holds a single quote and no double one; characters that do not print are written as escapes.
-/

namespace FileSieve.Text

/-- Whether a character is shown as it is: any printable character, and the plain space. -/
def isPrintable (c : Char) : Bool :=
  let n := c.toNat
  if n < 128 then 32 ≤ n && n < 127
  else (printableLow ++ printableMiddle ++ printableHigh).any fun range =>
    range.1 ≤ n && n ≤ range.2

/-- The escape of a character by its number, in two, four or eight digits. -/
def escapeNumber (c : Char) : List Char :=
  let n := c.toNat
  if n ≤ 0xFF then '\\' :: 'x' :: hex 2 n
  else if n ≤ 0xFFFF then '\\' :: 'u' :: hex 4 n
  else '\\' :: 'U' :: hex 8 n

def quoteChar (delimiter c : Char) : List Char :=
  if c = delimiter || c = '\\' then ['\\', c]
  else if c = '\t' then ['\\', 't']
  else if c = '\n' then ['\\', 'n']
  else if c = '\r' then ['\\', 'r']
  else if isPrintable c then [c]
  else escapeNumber c

def delimiterFor (cs : List Char) : Char :=
  if cs.contains '\'' && !cs.contains '"' then '"' else '\''

def quote (s : String) : String :=
  let delimiter := delimiterFor s.toList
  String.ofList (delimiter :: s.toList.flatMap (quoteChar delimiter) ++ [delimiter])

end FileSieve.Text
