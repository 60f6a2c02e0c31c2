import FileSieve.CommandLine.Options
import FileSieve.Pattern.Glob

/-!
Reading the arguments. A word that begins with a dash is an option, which may be given by any
beginning of its long name that fits no other option; everything after two dashes is plain. The
first plain word that no option takes is the path.
-/

namespace FileSieve.CommandLine

/-- What a word of the command line is. -/
inductive Word where
  | plain
  /-- Two dashes, after which all words are plain. -/
  | dashes
  /-- An option, given by its short name or not, and what is attached to it in the same word. -/
  | option (spec : OptionSpec) (byShort : Bool) (attached : Option (List Char))
  | unknown
deriving DecidableEq, Repr

def ofShort? (c : Char) : Option OptionSpec :=
  allOptions.find? (·.short = some c)

/-- Whether a word is a dash and a decimal number. Such a word is plain; a line feed may end it. -/
def looksNegative (word : List Char) : Bool :=
  let isDigit (c : Char) := (Text.digitValue? c).isSome
  let body := Pattern.dropLast '\n' (word.drop 1)
  let whole := body.takeWhile isDigit
  match body.dropWhile isDigit with
  | [] => !whole.isEmpty
  | c :: fraction => c = '.' && !fraction.isEmpty && fraction.all isDigit

/-- A word that begins with a dash and fits no option. -/
def leftover (word : List Char) : Word :=
  if looksNegative word || word.contains ' ' then .plain else .unknown

/-- Reads a word after two dashes at its front: an option by its name or the beginning of it, with a
value after an equals sign. -/
def readLong (text : String) (rest : List Char) : Except Refusal Word :=
  let name := rest.takeWhile (· ≠ '=')
  let attached := match rest.dropWhile (· ≠ '=') with
    | [] => none
    | _ :: value => some value
  match allOptions.find? (·.long.toList = name) with
  | some spec => .ok (.option spec false attached)
  | none =>
    match allOptions.filter fun spec => name.isPrefixOf spec.long.toList with
    | [] => .ok (leftover text.toList)
    | [spec] => .ok (.option spec false attached)
    | specs => .error (.misuse (.ambiguous text (specs.map fun spec => "--" ++ spec.long)))

def readWord (text : String) : Except Refusal Word :=
  match text.toList with
  | ['-', '-'] => .ok .dashes
  | '-' :: '-' :: rest => readLong text rest
  | ['-', c] =>
    match ofShort? c with
    | some spec => .ok (.option spec true none)
    | none => .ok (leftover text.toList)
  | '-' :: c :: rest =>
    match ofShort? c, rest with
    | some spec, '=' :: value => .ok (.option spec true (some value))
    | some spec, value => .ok (.option spec true (some value))
    | none, _ => .ok (leftover text.toList)
  | _ => .ok .plain

def readWords : List String → Except Refusal (List (String × Word))
  | [] => .ok []
  | text :: rest => do
    match ← readWord text with
    | .dashes => return (text, .dashes) :: rest.map (·, .plain)
    | word => return (text, word) :: (← readWords rest)

/-- What one word makes of its options: the options with their values, and the words after those
that were used. -/
structure Usage where
  used : List (OptionSpec × List String) := []
  rest : List (String × Word)

/-- Uses an option with nothing attached: its values are the plain words after it. -/
def useFollowing (spec : OptionSpec) (rest : List (String × Word)) : Except Refusal Usage :=
  let values := (rest.take spec.arity).takeWhile (·.2 = .plain)
  if values.length = spec.arity then
    .ok { used := [(spec, values.map (·.1))], rest := rest.drop spec.arity }
  else .error (.misuse (.missingValues spec))

/-- Uses an option with something attached: its one value, unless that is two dashes. After a short
option without values it is more short options. -/
def useAttached (spec : OptionSpec) (byShort : Bool) (attached : List Char)
    (rest : List (String × Word)) : Except Refusal Usage :=
  let needless := Except.error (Refusal.misuse (.needlessValue spec (String.ofList attached)))
  if spec.arity = 1 then
    .ok { used := [(spec, if attached = ['-', '-'] then [] else [String.ofList attached])], rest }
  else if spec.arity ≠ 0 then .error (.misuse (.missingValues spec))
  else if !byShort then needless
  else
    match attached with
    | [] => needless
    | c :: more =>
      match ofShort? c with
      | none => needless
      | some next => do
        let usage ← if more.isEmpty then useFollowing next rest
          else useAttached next true more rest
        return { usage with used := (spec, []) :: usage.used }

/-- The arguments read so far. -/
structure Progress where
  options : Options := {}
  pathTaken : Bool := false
  extra : List String := []

/-- Takes the path from the front of the words: one plain word, with two dashes before or after it.
Two dashes alone take its place too. -/
def Progress.takePath (p : Progress) (words : List (String × Word)) :
    Progress × List (String × Word) :=
  match words with
  | [] => (p, [])
  | (_, .dashes) :: (text, .plain) :: rest =>
    ({ p with options := { p.options with path := some text }, pathTaken := true }, rest)
  | (_, .dashes) :: rest => ({ p with pathTaken := true }, rest)
  | (text, _) :: (_, .dashes) :: rest =>
    ({ p with options := { p.options with path := some text }, pathTaken := true }, rest)
  | (text, _) :: rest =>
    ({ p with options := { p.options with path := some text }, pathTaken := true }, rest)

/-- Takes over the options that a word was used for. -/
def Progress.use (p : Progress) (usage : Usage) : Except Refusal Progress := do
  let options ← usage.used.foldlM (fun o (spec, values) => o.set spec values) p.options
  return { p with options }

/-- Reads words until none is left. Each step uses at least one of them, so as many steps as there
are words are enough. -/
def Progress.advance (p : Progress) : (steps : Nat) → List (String × Word) → Except Refusal Progress
  | 0, _ => .ok p
  | steps + 1, words =>
    match words with
    | [] => .ok p
    | (text, .unknown) :: rest => { p with extra := p.extra ++ [text] }.advance steps rest
    | (_, .option spec byShort attached) :: rest => do
      let usage ← match attached with
        | none => useFollowing spec rest
        | some value => useAttached spec byShort value rest
      (← p.use usage).advance steps usage.rest
    | word :: rest =>
      if !p.pathTaken then
        let (p, rest) := p.takePath (word :: rest)
        p.advance steps rest
      else { p with extra := p.extra ++ [word.1] }.advance steps rest

/-- The settings that the arguments of a run ask for. -/
def parseArguments (arguments : List String) : Except Refusal Options := do
  let words ← readWords arguments
  let p ← Progress.advance {} (words.length + 1) words
  if p.extra.isEmpty then return p.options
  else throw (.misuse (.unrecognized p.extra))

end FileSieve.CommandLine
