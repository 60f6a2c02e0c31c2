/-!
Blank characters and trimming. A blank is white space of any script, including the four information
separators and the next-line character, but not the zero-width space or the byte order mark.
-/

namespace FileSieve.Text

/-- White space of any script: twenty-nine characters. -/
def isBlank (c : Char) : Bool :=
  let n := c.toNat
  (9 ≤ n && n ≤ 13) || (28 ≤ n && n ≤ 32) || n == 0x85 || n == 0xA0 || n == 0x1680 ||
    (0x2000 ≤ n && n ≤ 0x200A) || n == 0x2028 || n == 0x2029 || n == 0x202F || n == 0x205F ||
    n == 0x3000

/-- Drops the members of a class from the end of a list. -/
def dropEndWhile {α : Type} (p : α → Bool) (as : List α) : List α :=
  (as.reverse.dropWhile p).reverse

/-- Drops the members of a class from both ends of a list. -/
def dropBothWhile {α : Type} (p : α → Bool) (as : List α) : List α :=
  dropEndWhile p (as.dropWhile p)

def trim (s : String) : String :=
  String.ofList (dropBothWhile isBlank s.toList)

end FileSieve.Text
