import FileSieve.Text.Pieces

/-!
The tokens of a pattern body. A segment that is exactly two stars is a globstar, and runs of such
segments count as one. The null character is a globstar too, wherever it stands.
-/

namespace FileSieve.Pattern

/-- A token of a pattern body. -/
inductive Token where
  | slash
  | globstar
  | star
  | any
  | char (c : Char)
deriving DecidableEq, Repr

def Token.ofChar (c : Char) : Token :=
  if c = '*' then star
  else if c = '?' then any
  else if c = '\x00' then globstar
  else char c

/-- The segment that stands for any number of segments. -/
def globstarSegment : List Char := ['*', '*']

/-- The segments with runs of globstars merged into one. -/
def mergeGlobstars : List (List Char) → List (List Char)
  | [] => []
  | [segment] => [segment]
  | segment :: next :: rest =>
    if segment = globstarSegment && next = globstarSegment then mergeGlobstars (next :: rest)
    else segment :: mergeGlobstars (next :: rest)

def segmentTokens (segment : List Char) : List Token :=
  if segment = globstarSegment then [.globstar] else segment.map Token.ofChar

/-- The tokens of segments in sequence, with a slash between neighbours. -/
def tokensOf : List (List Char) → List Token
  | [] => []
  | [segment] => segmentTokens segment
  | segment :: next :: rest => segmentTokens segment ++ .slash :: tokensOf (next :: rest)

def tokens (body : List Char) : List Token :=
  tokensOf (mergeGlobstars (Text.pieces '/' body))

end FileSieve.Pattern
