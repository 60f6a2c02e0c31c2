import FileSieve.Pattern.Glob
import FileSieve.Text.Replacement

/-!
The text of a pattern's expression, put together from the text of its body. Globstars are marked at
first. Then the marks are replaced together with the slashes around them: those between two slashes,
then one at the end, then one at the front, and last those that stand next to other characters.
-/

namespace FileSieve.Pattern

/-- The mark of a globstar. A null character of the pattern itself is taken for such a mark. -/
def mark : Char := '\x00'

/-- The text for a character of a segment. -/
def charText (c : Char) : List Char :=
  if c = '*' then "[^/]*".toList
  else if c = '?' then "[^/]".toList
  else (CharClass.only c).source

def segmentText (segment : List Char) : List Char :=
  if segment = globstarSegment then [mark] else segment.flatMap charText

/-- The text of a body with its globstars marked. -/
def markedText (body : List Char) : List Char :=
  Text.joinPieces '/' ((mergeGlobstars (Text.pieces '/' body)).map segmentText)

def replaceBetween (text : List Char) : List Char :=
  Text.replace ['/', mark, '/'] "(?:/|/.+/)".toList text

def endsMarked (text : List Char) : Bool :=
  ['/', mark].isSuffixOf text

/-- Replaces a mark at the end; what may follow it is the end of the path, or a slash. -/
def replaceTrailing (directoryOnly : Bool) (text : List Char) : List Char :=
  if endsMarked text then
    text.take (text.length - 2) ++ "(?:/.*)?".toList ++ if directoryOnly then [] else ['$']
  else text

def replaceLeading (text : List Char) : List Char :=
  if [mark, '/'].isPrefixOf text then "(?:.*/)?".toList ++ text.drop 2 else text

def replaceMarks (text : List Char) : List Char :=
  Text.replace [mark] "[^/]*".toList text

/-- The text of a marked body. -/
def bodyText (directoryOnly : Bool) (marked : List Char) : List Char :=
  if marked = [mark] then ".*".toList
  else replaceMarks (replaceLeading (replaceTrailing directoryOnly (replaceBetween marked)))

/-- Whether the text of a marked body may match to the end of the path. -/
def isOpenEndedText (marked : List Char) : Bool :=
  marked = [mark] || endsMarked (replaceBetween marked)

/-- What is left of a pattern without the slashes at its ends and a globstar before everything. -/
def bodyOf (text : List Char) : List Char :=
  let body := dropLast '/' (dropFirst '/' text)
  if "**/".toList.isPrefixOf body then body.drop 3 else body

def Glob.openingText (g : Glob) : List Char :=
  if g.deep then "^(?:.*/)?".toList
  else if g.anchored then ['^']
  else "(?:^|/)".toList

/-- The text of a pattern's expression. -/
def sourceText (text : List Char) : List Char :=
  let glob := Glob.ofText text
  let marked := markedText (bodyOf text)
  let closing :=
    if glob.directoryOnly then ['/']
    else if isOpenEndedText marked then []
    else "(?:$|/)".toList
  glob.openingText ++ bodyText glob.directoryOnly marked ++ closing

end FileSieve.Pattern
