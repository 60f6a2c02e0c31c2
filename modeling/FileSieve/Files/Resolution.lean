import FileSieve.Files.Disk

/-!
Resolving names: links are followed and double dots are taken back, whether a file is there or not.
Where links lead round in a circle, what is left of the name is put behind the link at which the
circle closes.
-/

namespace FileSieve.Disk

/-- The links met so far: where each of them leads, or nothing while it is being followed. -/
abbrev KnownLinks := List (PathName × Option PathName)

/-- A walk along a name. In a circle of links it stops with the text it has come to. -/
abbrev Walk := ExceptT String (StateM KnownLinks)

/-- A text with the parts that are left of a name behind it. -/
def putBehind (rest : List String) (text : String) : String :=
  PathName.joinTexts text ("/".intercalate rest)

/-- Walks along parts. `enter` walks along the target of a link, seen from the directory of the
link. A part that is missing, or that stands below one that is no directory, is kept as it is. -/
def along (d : Disk) (directory : Place) (enter : PathName → String → Walk PathName)
    (path : PathName) : List String → Walk PathName
  | [] => return path
  | part :: rest => do
    if part = "" || part = "." then
      d.along directory enter path rest
    else if part = ".." then
      d.along directory enter path.up rest
    else
      let next := path.push part
      match d.locate false directory next.toText with
      | .ok (.item _ (.link target)) =>
        match (← get).lookup next with
        | some (some found) => d.along directory enter found rest
        | some none => throw (putBehind rest next.toText)
        | none =>
          modify ((next, none) :: ·)
          let found ← ExceptT.adapt (putBehind rest) (enter path target)
          modify ((next, some found) :: ·)
          d.along directory enter found rest
      | _ => d.along directory enter next rest

/-- Walks along a name seen from a path, through a number of links inside one another at most. -/
def enterName (d : Disk) (directory : Place) : (links : Nat) → PathName → String → Walk PathName
  | 0, path, name => throw (putBehind (partsOf name) path.toText)
  | links + 1, path, name =>
    let start : PathName := if name.toList.head? = some '/' then ⟨1, []⟩ else path
    d.along directory (d.enterName directory links) start (partsOf name)

/-- The most links inside one another that are followed in resolving a name. -/
def nestingLimit : Nat := 1000

/-- The absolute name, without links and double dots, of what a name leads to. It need not exist,
but it may not end in a circle of links. -/
def resolve (d : Disk) (directory : Place) (name : String) : Except FileProblem String :=
  if name.toList.contains '\x00' then .error ⟨.nullInName, name⟩
  else
    let (reached, _) := ((d.enterName directory nestingLimit ⟨0, []⟩ name).run).run []
    let path := match reached with
      | .ok path => path
      | .error text => PathName.ofText text
    let absolute := ((PathName.mk 1 directory).under path).straighten.toText
    match d.locate true [] absolute with
    | .error .linkLoop => .error ⟨.circle, absolute⟩
    | _ => .ok absolute

end FileSieve.Disk
