import FileSieve.Pattern.Token
import FileSieve.Regex.Basic

/-!
The shape of a pattern and its regular expression. A globstar means something else alone, before,
between and after other segments; next to characters of its own segment it is a plain star.
-/

namespace FileSieve.Pattern

/-- A part of a pattern body. -/
inductive Part where
  | everything
  /-- A globstar and the slash after it at the front. -/
  | leading
  | between
  /-- A globstar and the slash before it at the end. -/
  | trailing
  | slash
  | star
  | any
  | char (c : Char)
deriving DecidableEq, Repr

/-- The parts of a token sequence that does not begin the body. -/
def innerParts : List Token → List Part
  | [] => []
  | [.slash, .globstar] => [.trailing]
  | .slash :: .globstar :: .slash :: rest => .between :: innerParts rest
  | .slash :: rest => .slash :: innerParts rest
  | .globstar :: rest => .star :: innerParts rest
  | .star :: rest => .star :: innerParts rest
  | .any :: rest => .any :: innerParts rest
  | .char c :: rest => .char c :: innerParts rest

/-- The parts of the tokens of a body. The slash after a globstar at the front belongs to it, unless
that slash already belongs to a globstar after it. -/
def parts : List Token → List Part
  | [.globstar] => [.everything]
  | .globstar :: .slash :: .globstar :: .slash :: rest => .star :: .between :: innerParts rest
  | [.globstar, .slash, .globstar] => [.star, .trailing]
  | .globstar :: .slash :: rest => .leading :: innerParts rest
  | ts => innerParts ts

/-- Whether the body ends with a globstar, so that it may match to the end of the path. -/
def isOpenEnded (ps : List Part) : Bool :=
  ps.getLast? == some .everything || ps.getLast? == some .trailing

/-- A pattern without its sign, taken apart. -/
structure Glob where
  /-- Whether a globstar and a slash were taken off the front of the body. -/
  deep : Bool
  /-- Whether the pattern is tied to the top directory. -/
  anchored : Bool
  /-- Whether the pattern is for directories and what lies beneath them. -/
  directoryOnly : Bool
  parts : List Part
deriving DecidableEq, Repr

/-- Takes a character off the front of a text if it is there. -/
def dropFirst (c : Char) (cs : List Char) : List Char :=
  if cs.head? = some c then cs.drop 1 else cs

/-- Takes a character off the end of a text if it is there. -/
def dropLast (c : Char) (cs : List Char) : List Char :=
  if cs.getLast? = some c then List.dropLast cs else cs

/-- Takes a pattern apart. It is anchored by a slash at its front, or by a slash inside its body
unless a globstar stands before everything else. -/
def Glob.ofText (text : List Char) : Glob :=
  let rooted := text.head? = some '/'
  let rest := dropFirst '/' text
  let directoryOnly := rest.getLast? = some '/'
  let body := dropLast '/' rest
  let deep := "**/".toList.isPrefixOf body
  let body := if deep then body.drop 3 else body
  { deep
    anchored := rooted || (!deep && body.contains '/')
    directoryOnly
    parts := Pattern.parts (tokens body) }

/-- The expression for any directories before a name. -/
def anyDirectories : Regex := .opt (.cat (.star .inLine) .slash)

def Part.regex : Part → Regex
  | everything => .star .inLine
  | leading => anyDirectories
  | between => .alt .slash (.concat [.slash, .plus .inLine, .slash])
  | trailing => .opt (.cat .slash (.star .inLine))
  | slash => .slash
  | star => .star .inSegment
  | any => .one .inSegment
  | char c => .char c

def Glob.opening (g : Glob) : List Regex :=
  if g.deep then [.start, anyDirectories]
  else if g.anchored then [.start]
  else [.alt .start .slash]

def Glob.closing (g : Glob) : List Regex :=
  if g.directoryOnly then [.slash]
  else if g.parts.getLast? = some .trailing then [.finish]
  else if isOpenEnded g.parts then []
  else [.alt .finish .slash]

def Glob.regex (g : Glob) : Regex :=
  .concat (g.opening ++ g.parts.map Part.regex ++ g.closing)

end FileSieve.Pattern
