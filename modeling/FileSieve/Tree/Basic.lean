/-!
Trees of files and directories as a scan shows them, and the flat index of their files. A path
identifies a node; the label is the name that is shown.
-/

namespace FileSieve

/-- A file, or a directory with the nodes in it. -/
inductive Node where
  | file (label path : String)
  | directory (label path : String) (children : List Node)
deriving Repr, Inhabited

/-- One file of the flat index. -/
structure FlatFile where
  label : String
  path : String
deriving DecidableEq, Repr

namespace Node

def label : Node → String
  | file label _ => label
  | directory label _ _ => label

def path : Node → String
  | file _ path => path
  | directory _ path _ => path

/-- The nodes in a directory; a file has none. -/
def children : Node → List Node
  | file _ _ => []
  | directory _ _ children => children

def isFile : Node → Bool
  | file _ _ => true
  | directory _ _ _ => false

def flatFile? : Node → Option FlatFile
  | file label path => some ⟨label, path⟩
  | directory _ _ _ => none

mutual

def decideEq : (a b : Node) → Decidable (a = b)
  | file l p, file l' p' =>
    if h : l = l' ∧ p = p' then isTrue (by rw [h.1, h.2])
    else isFalse (by rintro ⟨⟩; exact h ⟨rfl, rfl⟩)
  | file _ _, directory _ _ _ => isFalse (by rintro ⟨⟩)
  | directory _ _ _, file _ _ => isFalse (by rintro ⟨⟩)
  | directory l p cs, directory l' p' cs' =>
    match decideEqAll cs cs' with
    | isTrue hc =>
      if h : l = l' ∧ p = p' then isTrue (by rw [h.1, h.2, hc])
      else isFalse (by rintro ⟨⟩; exact h ⟨rfl, rfl⟩)
    | isFalse hc => isFalse (by rintro ⟨⟩; exact hc rfl)

/-- Equality of node lists is decided item by item. -/
def decideEqAll : (as bs : List Node) → Decidable (as = bs)
  | [], [] => isTrue rfl
  | [], _ :: _ => isFalse (by rintro ⟨⟩)
  | _ :: _, [] => isFalse (by rintro ⟨⟩)
  | a :: as, b :: bs =>
    match decideEq a b with
    | isTrue h =>
      match decideEqAll as bs with
      | isTrue hs => isTrue (by rw [h, hs])
      | isFalse hs => isFalse (by rintro ⟨⟩; exact hs rfl)
    | isFalse h => isFalse (by rintro ⟨⟩; exact h rfl)

end

instance : DecidableEq Node := decideEq

end Node

end FileSieve
