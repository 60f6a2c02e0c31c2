import FileSieve.Digest.Sha256
import FileSieve.Json.Writer

/-!
The key of an ignore list: a digest of its patterns in order. The digested text is the compact JSON
array of the patterns, from which they could be read back.
-/

namespace FileSieve

def ruleSetText (patterns : List String) : String :=
  String.ofList (Json.texts (patterns.map Utf16.ofString)).compact

def ruleSetKey (patterns : List String) : String :=
  Digest.sha256 (Text.toUtf8 (ruleSetText patterns))

/-- A character as the compact form writes it; half a pair stays where it is. -/
def ruleSetSymbol : Except UInt16 Char → List (Except UInt16 Char)
  | .ok c => (Json.writeChar Json.isUnescaped c).map .ok
  | .error half => [.error half]

/-- The text that would stand for some saved patterns, with the halves of pairs that stand alone in
them. -/
def ruleSetSymbols (patterns : List Utf16) : List (Except UInt16 Char) :=
  let quoted (t : Utf16) := .ok '"' :: t.decode.flatMap ruleSetSymbol ++ [.ok '"']
  .ok '[' :: List.intercalate [.ok ','] (patterns.map quoted) ++ [.ok ']']

/-- The ignore list that some saved patterns are. A list with a pattern that is no string has no
key, and so cannot be used. -/
def usablePatterns (patterns : List Utf16) : Except Utf16.LoneHalves (List String) :=
  match Utf16.loneHalves? (ruleSetSymbols patterns) with
  | some halves => .error halves
  | none => .ok (patterns.filterMap Utf16.toString?)

end FileSieve
