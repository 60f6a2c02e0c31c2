/-!
The regular expressions that ignore patterns are compiled to: anchors, character classes with their
repetitions, sequence, choice and option. `source` writes an expression in the usual notation.
-/

namespace FileSieve

/-- A class of single characters. -/
inductive CharClass where
  | only (c : Char)
  | inLine
  | inSegment
deriving DecidableEq, Repr

def CharClass.holds : CharClass → Char → Bool
  | only c, d => c == d
  | inLine, d => d != '\n'
  | inSegment, d => d != '/'

/-- A regular expression over paths. -/
inductive Regex where
  /-- The empty text. -/
  | empty
  | start
  /-- The end of the path, or the place before a line feed that ends it. -/
  | finish
  | one (k : CharClass)
  | star (k : CharClass)
  | plus (k : CharClass)
  | cat (r s : Regex)
  | alt (r s : Regex)
  /-- An expression or nothing. -/
  | opt (r : Regex)
deriving DecidableEq, Repr

namespace Regex

def concat : List Regex → Regex
  | [] => empty
  | [r] => r
  | r :: s :: rest => cat r (concat (s :: rest))

def char (c : Char) : Regex := one (.only c)

def slash : Regex := char '/'

end Regex

/-- The characters that stand for themselves only after a backslash. -/
def isMetacharacter (c : Char) : Bool :=
  "()[]\x7b\x7d?*+-|^$\\.&~# \t\n\r\x0b\x0c".toList.contains c

def CharClass.source : CharClass → List Char
  | only c => if isMetacharacter c then ['\\', c] else [c]
  | inLine => ['.']
  | inSegment => "[^/]".toList

def Regex.source : Regex → List Char
  | empty => []
  | start => ['^']
  | finish => ['$']
  | one k => k.source
  | star k => k.source ++ ['*']
  | plus k => k.source ++ ['+']
  | cat r s => r.source ++ s.source
  | alt r s => "(?:".toList ++ r.source ++ '|' :: s.source ++ [')']
  | opt r => "(?:".toList ++ r.source ++ ")?".toList

end FileSieve
