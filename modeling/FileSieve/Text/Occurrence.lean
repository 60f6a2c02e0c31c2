/-!
Occurrences of one text within another. The main statement ties the test to the infix relation.
-/

namespace FileSieve.Text

/-- Whether a text occurs in another one as a run of neighbouring characters. -/
def occursIn (part : List Char) : List Char → Bool
  | [] => part.isEmpty
  | c :: rest => part.isPrefixOf (c :: rest) || occursIn part rest

theorem occursIn_iff {part cs : List Char} : occursIn part cs = true ↔ part <:+: cs := by
  induction cs with
  | nil => simp [occursIn]
  | cons c rest ih => simp [occursIn, ih, List.infix_cons_iff]

end FileSieve.Text
