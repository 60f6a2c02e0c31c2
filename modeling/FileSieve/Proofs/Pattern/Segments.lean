import FileSieve.Rule.Basic

/-! # Patterns by their segments

A pattern is read as segments that are laid against consecutive names of a path, with no regular
expression in sight. `Outline.Selects` is the law that compiled rules are held to. -/

namespace FileSieve.Pattern

/-- Within one name a star stands for any run of characters, a question mark for any one, and every
other character for itself. -/
inductive Fits : List Char → List Char → Prop
  | nil : Fits [] []
  | star {segment name} (run) : Fits segment name → Fits ('*' :: segment) (run ++ name)
  | any {segment name} (c) : Fits segment name → Fits ('?' :: segment) (c :: name)
  | char {c segment name} : c ≠ '*' → c ≠ '?' → Fits segment name →
      Fits (c :: segment) (c :: name)

/-- Each segment takes one name that it fits, and a globstar takes any number of names. -/
inductive Spells : List (List Char) → List (List Char) → Prop
  | nil : Spells [] []
  | globstar {segments names} (skipped) : Spells segments names →
      Spells (globstarSegment :: segments) (skipped ++ names)
  | segment {segment name segments names} : segment ≠ globstarSegment → Fits segment name →
      Spells segments names → Spells (segment :: segments) (name :: names)

/-- A line of an ignore list, taken apart as it is written. -/
structure Outline where
  negated : Bool
  rooted : Bool
  directoryOnly : Bool
  segments : List (List Char)
deriving DecidableEq, Repr

/-- Reads a pattern without its sign: a slash at its front roots it, a slash at its end keeps it to
directories, and the slashes left separate its segments. -/
def Outline.ofBody (negated : Bool) (text : List Char) : Outline :=
  let unrooted := dropFirst '/' text
  { negated
    rooted := text.head? = some '/'
    directoryOnly := unrooted.getLast? = some '/'
    segments := Text.pieces '/' (dropLast '/' unrooted) }

/-- Reads a line: blanks at its ends do not count, an exclamation mark negates, and a backslash
before an exclamation mark is taken off. -/
def Outline.ofText (s : String) : Outline :=
  let text := (Text.trim s).toList
  Outline.ofBody (text.head? = some '!') (unescapeBang (dropFirst '!' text))

/-- The segments spell names that follow one another in the path. They begin at the first name if
the pattern is rooted or has several segments. Names may follow in any case, and one must follow
what a pattern for directories has spelled. -/
def Outline.Selects (o : Outline) (path : List Char) : Prop :=
  ∃ above names below, Text.pieces '/' path = above ++ names ++ below ∧ Spells o.segments names ∧
    (o.rooted = true ∨ 1 < o.segments.length → above = []) ∧
    (o.directoryOnly = true → names ≠ [] ∧ below ≠ [])

/-- A path as rules see it: some names with a slash between neighbours, none of them empty but
that after the slash which a directory has at its end. -/
structure IsRelativePath (path : List Char) : Prop where
  ne_nil : path ≠ []
  inLine : '\n' ∉ path
  named : ∀ name ∈ (Text.pieces '/' path).dropLast, name ≠ []

/-! ### Fitting one name -/

theorem fits_nil_iff {name : List Char} : Fits [] name ↔ name = [] := by
  constructor
  · intro h
    cases h
    rfl
  · intro h
    subst h
    exact .nil

theorem fits_star_iff {segment name : List Char} :
    Fits ('*' :: segment) name ↔ ∃ run rest, name = run ++ rest ∧ Fits segment rest := by
  constructor
  · intro h
    cases h with
    | star run h => exact ⟨run, _, rfl, h⟩
    | char hs => exact absurd rfl hs
  · intro h
    obtain ⟨run, rest, rfl, h⟩ := h
    exact .star run h

theorem fits_any_iff {segment name : List Char} :
    Fits ('?' :: segment) name ↔ ∃ c rest, name = c :: rest ∧ Fits segment rest := by
  constructor
  · intro h
    cases h with
    | any c h => exact ⟨c, _, rfl, h⟩
    | char _ hq => exact absurd rfl hq
  · intro h
    obtain ⟨c, rest, rfl, h⟩ := h
    exact .any c h

theorem fits_char_iff {c : Char} {segment name : List Char} (hs : c ≠ '*') (hq : c ≠ '?') :
    Fits (c :: segment) name ↔ ∃ rest, name = c :: rest ∧ Fits segment rest := by
  constructor
  · intro h
    cases h with
    | star => exact absurd rfl hs
    | any => exact absurd rfl hq
    | char _ _ h => exact ⟨_, rfl, h⟩
  · intro h
    obtain ⟨rest, rfl, h⟩ := h
    exact .char hs hq h

/-! ### Spelling several names -/

theorem spells_globstar_iff {segments names : List (List Char)} :
    Spells (globstarSegment :: segments) names ↔
      ∃ skipped taken, names = skipped ++ taken ∧ Spells segments taken := by
  constructor
  · intro h
    cases h with
    | globstar skipped h => exact ⟨skipped, _, rfl, h⟩
    | segment hg => exact absurd rfl hg
  · intro h
    obtain ⟨skipped, taken, rfl, h⟩ := h
    exact .globstar skipped h

theorem spells_segment_iff {segment : List Char} {segments names : List (List Char)}
    (hs : segment ≠ globstarSegment) :
    Spells (segment :: segments) names ↔
      ∃ name taken, names = name :: taken ∧ Fits segment name ∧ Spells segments taken := by
  constructor
  · intro h
    cases h with
    | globstar => exact absurd rfl hs
    | segment _ hf h => exact ⟨_, _, rfl, hf, h⟩
  · intro h
    obtain ⟨name, taken, rfl, hf, h⟩ := h
    exact .segment hs hf h

theorem spells_nil_iff {names : List (List Char)} : Spells [] names ↔ names = [] := by
  constructor
  · intro h
    cases h
    rfl
  · intro h
    subst h
    exact .nil

/-- Segments that spell nothing at all are globstars, so they spell anything. -/
theorem Spells.of_nil {segments : List (List Char)} (h : Spells segments [])
    (hne : segments ≠ []) (names : List (List Char)) : Spells segments names := by
  cases segments with
  | nil => exact absurd rfl hne
  | cons segment segments =>
    by_cases hg : segment = globstarSegment
    · subst hg
      obtain ⟨skipped, taken, he, ht⟩ := spells_globstar_iff.1 h
      obtain ⟨rfl, rfl⟩ := List.append_eq_nil_iff.1 he.symm
      exact spells_globstar_iff.2 ⟨names, [], (List.append_nil names).symm, ht⟩
    · obtain ⟨_, _, he, _⟩ := (spells_segment_iff hg).1 h
      cases he

/-- Two globstars in a row say no more than one. -/
theorem spells_globstar_globstar_iff {segments names : List (List Char)} :
    Spells (globstarSegment :: globstarSegment :: segments) names ↔
      Spells (globstarSegment :: segments) names := by
  constructor
  · intro h
    obtain ⟨front, middle, rfl, hm⟩ := spells_globstar_iff.1 h
    obtain ⟨back, taken, rfl, ht⟩ := spells_globstar_iff.1 hm
    exact spells_globstar_iff.2 ⟨front ++ back, taken, (List.append_assoc ..).symm, ht⟩
  · intro h
    exact .globstar [] h

theorem spells_mergeGlobstars_iff (segments : List (List Char)) (names : List (List Char)) :
    Spells (mergeGlobstars segments) names ↔ Spells segments names := by
  induction segments using mergeGlobstars.induct generalizing names with
  | case1 => rfl
  | case2 segment => rfl
  | case3 segment next rest hg ih =>
    simp only [Bool.and_eq_true, decide_eq_true_eq] at hg
    obtain ⟨rfl, rfl⟩ := hg
    rw [mergeGlobstars, if_pos (by simp), ih, spells_globstar_globstar_iff]
  | case4 segment next rest hg ih =>
    rw [mergeGlobstars, if_neg hg]
    by_cases hs : segment = globstarSegment
    · subst hs
      simp only [spells_globstar_iff, ih]
    · simp only [spells_segment_iff hs, ih]

end FileSieve.Pattern
