import FileSieve.Rule.Basic

/-!
Deciding whether a path is ignored. The last rule that accepts a path decides, and a directory that
is ignored takes everything beneath it along: a negated rule cannot bring that back. So the path of
an entry need be looked at only from the directory on that holds it (`isIgnored_append`).
-/

namespace FileSieve

universe u

/-- What a decision needs of a rule: its sign and the paths it accepts. -/
class PathRule (α : Type u) where
  /-- Whether the rule takes paths back out instead of ignoring them. -/
  negated : α → Bool
  accepts : α → List Char → Bool

instance : PathRule Rule where
  negated := Rule.negated
  accepts := Rule.accepts

variable {α : Type u} [PathRule α]

/-- The last rule that accepts a path. -/
def lastMatch (rules : List α) (path : List Char) : Option α :=
  rules.foldl (fun found rule => if PathRule.accepts rule path then some rule else found) none

/-- Whether the last rule that accepts a path is there and ignores it. -/
def excludes (rules : List α) (path : List Char) : Bool :=
  match lastMatch rules path with
  | some rule => !PathRule.negated rule
  | none => false

/-- The beginnings of a path that end before one of its slashes, shortest first. -/
def headsBeforeSlash : List Char → List (List Char)
  | [] => []
  | c :: rest =>
    let longer := (headsBeforeSlash rest).map (c :: ·)
    if c = '/' then [] :: longer else longer

/-- The directories above a path, nearest first. A slash at the end of the path belongs to it, and
an empty name at its front is no directory. -/
def ancestors (path : List Char) : List (List Char) :=
  ((headsBeforeSlash (Pattern.dropLast '/' path)).filter (· ≠ [])).reverse

/-- The nearest directory above a path that the rules ignore, with a slash at its end. -/
def excludedAncestor (rules : List α) (path : List Char) : Option (List Char) :=
  ((ancestors path).map (· ++ ['/'])).find? (excludes rules)

/-- Whether the rules ignore a path. A directory is given with a slash at its end. -/
def isIgnored (rules : List α) (path : String) : Bool :=
  excludes rules path.toList || (excludedAncestor rules path.toList).isSome

/-- Whether the rules ignore what has a given path in a directory, on its own account or on that of
a directory between the two. The directory is given with a slash at its end, and the top directory
is empty. -/
def isIgnoredIn (rules : List α) (directory path : List Char) : Bool :=
  excludes rules (directory ++ path) ||
    (headsBeforeSlash (Pattern.dropLast '/' path)).any fun head =>
      directory ++ head ≠ [] && excludes rules (directory ++ head ++ ['/'])

/-- A decision about a path and what led to it. -/
structure Decision (α : Type u) where
  path : String
  ignored : Bool
  /-- The last rule that accepts the path. -/
  rule : Option α
  /-- The directory whose exclusion decides, where the path's own rule does not. -/
  excludedAncestor : Option String
deriving Repr

/-- Decides about a path. The directories above it count only if no rule ignores the path itself. -/
def explain (rules : List α) (path : String) : Decision α :=
  let rule := lastMatch rules path.toList
  if excludes rules path.toList then ⟨path, true, rule, none⟩
  else
    let ancestor := excludedAncestor rules path.toList
    ⟨path, ancestor.isSome, rule, ancestor.map String.ofList⟩

theorem explain_ignored (rules : List α) (path : String) :
    (explain rules path).ignored = isIgnored rules path := by
  unfold explain isIgnored
  split
  · next h => rw [h, Bool.true_or]
  · next h => rw [Bool.not_eq_true] at h; rw [h, Bool.false_or]

theorem headsBeforeSlash_append (front back : List Char) :
    headsBeforeSlash (front ++ back) =
      headsBeforeSlash front ++ (headsBeforeSlash back).map (front ++ ·) := by
  induction front with
  | nil => simp [headsBeforeSlash]
  | cons c front ih =>
    by_cases h : c = '/' <;> simp [headsBeforeSlash, h, ih, Function.comp_def]

theorem isIgnored_eq_isIgnoredIn (rules : List α) (path : List Char) :
    isIgnored rules (String.ofList path) = isIgnoredIn rules [] path := by
  rw [Bool.eq_iff_iff]
  simp only [isIgnored, isIgnoredIn, excludedAncestor, ancestors, String.toList_ofList,
    Bool.or_eq_true, List.find?_isSome, List.any_eq_true, List.mem_map, List.mem_reverse,
    List.mem_filter, List.nil_append, Bool.and_eq_true, decide_eq_true_eq]
  constructor
  · rintro (h | ⟨_, ⟨head, ⟨hh, hn⟩, rfl⟩, he⟩)
    · exact .inl h
    · exact .inr ⟨head, hh, hn, he⟩
  · rintro (h | ⟨head, hh, hn, he⟩)
    · exact .inl h
    · exact .inr ⟨_, ⟨head, ⟨hh, hn⟩, rfl⟩, he⟩

theorem dropLast_append (front : List Char) {back : List Char} (h : back ≠ []) :
    Pattern.dropLast '/' (front ++ back) = front ++ Pattern.dropLast '/' back := by
  have hl : (front ++ back).getLast? = back.getLast? := by
    rw [List.getLast?_append, List.getLast?_eq_some_getLast h, Option.some_or]
  simp only [Pattern.dropLast, hl, List.dropLast_append_of_ne_nil h]
  split <;> rfl

/-- What stands in a directory is ignored on its own account, on that of a directory between the
two, or on that of the directory. -/
theorem isIgnored_append (rules : List α) {directory path : List Char} (hd : directory ≠ [])
    (hp : path ≠ []) :
    isIgnored rules (String.ofList (directory ++ '/' :: path)) =
      (isIgnoredIn rules (directory ++ ['/']) path ||
        isIgnored rules (String.ofList (directory ++ ['/']))) := by
  have hs : directory ++ '/' :: path = (directory ++ ['/']) ++ path := by simp
  have hw : Pattern.dropLast '/' (directory ++ ['/']) = directory := by simp [Pattern.dropLast]
  have hh : headsBeforeSlash (directory ++ ['/']) = headsBeforeSlash directory ++ [directory] := by
    simp [headsBeforeSlash_append, headsBeforeSlash]
  rw [isIgnored_eq_isIgnoredIn, isIgnored_eq_isIgnoredIn, hs]
  simp only [isIgnoredIn, List.nil_append, dropLast_append _ hp, hw, hh, List.any_append,
    headsBeforeSlash_append _ (Pattern.dropLast '/' path), List.any_map, Function.comp_def,
    List.any_cons, List.any_nil, Bool.or_false, ne_eq, hd, not_false_eq_true, decide_true,
    Bool.true_and]
  ac_rfl

end FileSieve
