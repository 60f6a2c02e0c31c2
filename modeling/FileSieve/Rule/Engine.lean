import FileSieve.Pattern.SourceText
import FileSieve.Rule.Basic

/-!
Rules compiled by an engine that reads the text of an expression and may refuse it. A line whose
expression is refused is skipped with a warning.
-/

namespace FileSieve

/-- Why an engine refuses the text of an expression, if it does. -/
abbrev Engine := List Char → Option String

namespace Engine

def refusal (line reason : String) : Log.Record :=
  ⟨.warning, "Skipping invalid ignore pattern " ++ Text.quote line ++ ": " ++ reason⟩

/-- The rule of a line, if it comes to one, and what is logged about the line. -/
def compileLine (engine : Engine) (line : String) : Option Rule × List Log.Record :=
  match Line.ofText line with
  | .pattern negated text =>
    match engine (Pattern.sourceText text) with
    | none => (some (Rule.ofPattern line negated text), [])
    | some reason => (none, [refusal line reason])
  | _ => (none, (Rule.dropNote? line).toList)

/-- The rules of an ignore list in order, and what is logged meanwhile. -/
def compile (engine : Engine) (lines : List String) : List Rule × List Log.Record :=
  (lines.filterMap fun line => (engine.compileLine line).1,
    lines.flatMap fun line => (engine.compileLine line).2)

end Engine

end FileSieve
