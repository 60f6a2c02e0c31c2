import FileSieve.Log
import FileSieve.Pattern.Glob
import FileSieve.Regex.Search
import FileSieve.Text.Quoted

/-!
Rules: one line of an ignore list, read and compiled. Blank lines and comments say nothing, and a
line of which nothing but slashes is left is dropped with a note.
-/

namespace FileSieve

/-- What a line of an ignore list says. -/
inductive Line where
  /-- Nothing: the line is blank or a comment. -/
  | silent
  /-- A pattern without any text to compare with a path. -/
  | pathless
  /-- A pattern, which may take paths back out instead of ignoring them. -/
  | pattern (negated : Bool) (text : List Char)
deriving DecidableEq, Repr

/-- Takes the backslash off a pattern that begins with an escaped exclamation mark. -/
def unescapeBang : List Char → List Char
  | '\\' :: '!' :: rest => '!' :: rest
  | text => text

/-- Reads a line: blanks around it do not count, an exclamation mark negates, and a backslash before
an exclamation mark makes it plain text. -/
def Line.ofText (s : String) : Line :=
  match (Text.trim s).toList with
  | [] => silent
  | c :: rest =>
    if c = '#' then silent
    else
      let negated := c = '!'
      let text := unescapeBang (if negated then rest else c :: rest)
      if text.all (· = '/') then pathless else pattern negated text

theorem Line.ofText_of_comment {s : String}
    (h : ¬(Text.trim s ≠ "" ∧ (Text.trim s).toList.head? ≠ some '#')) : ofText s = silent := by
  rw [ofText]
  cases ht : (Text.trim s).toList with
  | nil => rfl
  | cons c rest =>
    have hne : Text.trim s ≠ "" := by
      intro he
      rw [he] at ht
      cases ht
    have hc : c = '#' := by simpa [hne, ht] using h
    exact if_pos hc

/-- A compiled pattern. -/
structure Rule where
  line : String
  pattern : String
  /-- Whether the rule takes paths back out instead of ignoring them. -/
  negated : Bool
  /-- Whether the pattern is tied to the top directory. -/
  anchored : Bool
  /-- Whether the pattern is for directories and what lies beneath them. -/
  directoryOnly : Bool
  regex : Regex
deriving DecidableEq, Repr

namespace Rule

/-- The rule of a pattern that was read from a line. -/
def ofPattern (line : String) (negated : Bool) (text : List Char) : Rule :=
  let glob := Pattern.Glob.ofText text
  { line
    pattern := String.ofList text
    negated
    anchored := glob.anchored
    directoryOnly := glob.directoryOnly
    regex := glob.regex }

/-- The rule of a line, if the line holds a pattern. -/
def ofLine? (s : String) : Option Rule :=
  match Line.ofText s with
  | .pattern negated text => some (ofPattern s negated text)
  | _ => none

def dropNote? (s : String) : Option Log.Record :=
  match Line.ofText s with
  | .pathless => some ⟨.debug, "Dropping ignore pattern without path text: " ++ Text.quote s⟩
  | _ => none

/-- Whether the rule's expression is found in a path. -/
def accepts (rule : Rule) (path : List Char) : Bool :=
  rule.regex.search path

end Rule

def compileRules (patterns : List String) : List Rule :=
  patterns.filterMap Rule.ofLine?

/-- The notes that compiling an ignore list gives rise to. -/
def compileNotes (patterns : List String) : List Log.Record :=
  patterns.filterMap Rule.dropNote?

end FileSieve
