import FileSieve.Text.Fold.Table

/-!
Full case folding: the form in which texts are compared without regard to case. Labels are ordered
by it and searches compare with it.
-/

namespace FileSieve.Text

/-- The folding of one character, which may be several characters. -/
def foldChar (c : Char) : List Char :=
  let n := c.toNat
  if n < 128 then
    [if 65 ≤ n && n ≤ 90 then Char.ofNat (n + 32) else c]
  else
    match foldExpansions.find? (·.1 == n) with
    | some (_, folded) => folded.map Char.ofNat
    | none =>
      match (foldRunsLow ++ foldRunsMiddle ++ foldRunsHigh).find? (·.holds n) with
      | some run => [Char.ofNat (n + run.up - run.down)]
      | none => [c]

/-- The folding of a text, character by character. -/
def foldCase (s : String) : List Char :=
  s.toList.flatMap foldChar

end FileSieve.Text
