/-!
Replacing a part of a text wherever it stands. The text is read from the front, and what has been
replaced is not read again.
-/

namespace FileSieve.Text

/-- Replaces a part after some characters that still belong to the last replaced one. -/
def replaceAfter (part put : List Char) : Nat → List Char → List Char
  | _, [] => []
  | skip + 1, _ :: rest => replaceAfter part put skip rest
  | 0, c :: rest =>
    if part.isPrefixOf (c :: rest) then put ++ replaceAfter part put (part.length - 1) rest
    else c :: replaceAfter part put 0 rest

/-- The text with each occurrence of a part replaced. The part must not be empty. -/
def replace (part put cs : List Char) : List Char :=
  replaceAfter part put 0 cs

variable {part put : List Char}

theorem replaceAfter_eq (skip : Nat) (cs : List Char) :
    replaceAfter part put skip cs = replace part put (cs.drop skip) := by
  induction cs generalizing skip with
  | nil =>
    rw [List.drop_nil, replaceAfter]
    rfl
  | cons c cs ih =>
    cases skip with
    | zero => rfl
    | succ skip => rw [replaceAfter, ih, List.drop_succ_cons]

theorem replace_nil : replace part put [] = [] := by
  rw [replace, replaceAfter]

theorem replace_append (hne : part ≠ []) (cs : List Char) :
    replace part put (part ++ cs) = put ++ replace part put cs := by
  cases part with
  | nil => exact absurd rfl hne
  | cons c part =>
    rw [List.cons_append, replace, replaceAfter, if_pos (by simp), replaceAfter_eq]
    simp

theorem replace_cons {c : Char} {cs : List Char} (h : ¬part <+: c :: cs) :
    replace part put (c :: cs) = c :: replace part put cs := by
  rw [replace, replaceAfter, if_neg (by simpa using h)]
  rfl

/-- A single character is replaced wherever it stands. -/
theorem replace_singleton (c : Char) (put cs : List Char) :
    replace [c] put cs = cs.flatMap fun d => if d = c then put else [d] := by
  induction cs with
  | nil => exact replace_nil
  | cons d cs ih =>
    by_cases hd : d = c
    · subst hd
      have h := @replace_append [d] put (by simp) cs
      rw [List.singleton_append] at h
      rw [h, ih, List.flatMap_cons, if_pos rfl]
    · rw [replace_cons (by simpa using Ne.symm hd), ih, List.flatMap_cons, if_neg hd]
      rfl

end FileSieve.Text
