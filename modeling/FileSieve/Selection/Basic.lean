/-!
Sets of paths. A selection lists its paths in ascending order, each once, so that two selections
with the same members are equal.
-/

namespace FileSieve

/-- A finite set of paths. -/
structure Selection where
  paths : List String
  ascending : paths.Pairwise (· < ·) := by simp
deriving DecidableEq, Repr

namespace Selection

instance : EmptyCollection Selection := ⟨{ paths := [] }⟩

instance : Inhabited Selection := ⟨∅⟩

instance : Membership String Selection := ⟨fun s path => path ∈ s.paths⟩

instance (path : String) (s : Selection) : Decidable (path ∈ s) :=
  inferInstanceAs (Decidable (path ∈ s.paths))

theorem mem_paths {path : String} {s : Selection} : path ∈ s.paths ↔ path ∈ s := Iff.rfl

/-- Puts a path into an ascending list unless it is there. -/
def insertPath (path : String) : List String → List String
  | [] => [path]
  | other :: rest =>
    if path < other then path :: other :: rest
    else if path = other then other :: rest
    else other :: insertPath path rest

theorem mem_insertPath {path other : String} {paths : List String} :
    other ∈ insertPath path paths ↔ other = path ∨ other ∈ paths := by
  induction paths with
  | nil => simp [insertPath]
  | cons head rest ih =>
    simp only [insertPath]
    split
    · simp
    · split
      · next h => subst h; simp
      · simp only [List.mem_cons, ih]
        constructor
        · rintro (h | h | h) <;> simp [h]
        · rintro (h | h | h) <;> simp [h]

theorem pairwise_insertPath {path : String} {paths : List String}
    (h : paths.Pairwise (· < ·)) : (insertPath path paths).Pairwise (· < ·) := by
  induction paths with
  | nil => simp [insertPath]
  | cons head rest ih =>
    simp only [insertPath]
    rw [List.pairwise_cons] at h
    split
    · next hlt =>
      rw [List.pairwise_cons, List.pairwise_cons]
      refine ⟨?_, h⟩
      intro other hm
      rcases List.mem_cons.1 hm with rfl | hm
      · exact hlt
      · exact String.lt_trans hlt (h.1 other hm)
    · split
      · exact List.pairwise_cons.2 h
      · next hlt hne =>
        rw [List.pairwise_cons]
        refine ⟨?_, ih h.2⟩
        intro other hm
        rcases mem_insertPath.1 hm with rfl | hm
        · exact Decidable.byContradiction fun hnlt =>
            hne (String.le_antisymm (String.not_lt.1 hnlt) (String.not_lt.1 hlt))
        · exact h.1 other hm

def insert (path : String) (s : Selection) : Selection :=
  ⟨insertPath path s.paths, pairwise_insertPath s.ascending⟩

def ofList (paths : List String) : Selection :=
  paths.foldr insert ∅

def filter (p : String → Bool) (s : Selection) : Selection :=
  ⟨s.paths.filter p, s.ascending.sublist List.filter_sublist⟩

def union (s : Selection) (paths : List String) : Selection :=
  paths.foldr insert s

def diff (s : Selection) (paths : List String) : Selection :=
  s.filter fun path => !paths.contains path

def inter (s : Selection) (paths : List String) : Selection :=
  s.filter fun path => paths.contains path

def size (s : Selection) : Nat := s.paths.length

@[simp] theorem not_mem_empty (path : String) : path ∉ (∅ : Selection) := by
  intro h; cases h

@[simp] theorem mem_insert {path other : String} {s : Selection} :
    other ∈ s.insert path ↔ other = path ∨ other ∈ s :=
  mem_insertPath

@[simp] theorem mem_union {path : String} {s : Selection} {paths : List String} :
    path ∈ s.union paths ↔ path ∈ s ∨ path ∈ paths := by
  induction paths with
  | nil => simp [union]
  | cons head rest ih =>
    have : s.union (head :: rest) = (s.union rest).insert head := rfl
    rw [this, mem_insert, ih, List.mem_cons]
    constructor
    · rintro (h | h | h) <;> simp [h]
    · rintro (h | h | h) <;> simp [h]

@[simp] theorem mem_ofList {path : String} {paths : List String} :
    path ∈ ofList paths ↔ path ∈ paths := by
  have : ofList paths = (∅ : Selection).union paths := rfl
  simp [this]

@[simp] theorem mem_filter {path : String} {p : String → Bool} {s : Selection} :
    path ∈ s.filter p ↔ path ∈ s ∧ p path = true :=
  List.mem_filter

@[simp] theorem mem_diff {path : String} {s : Selection} {paths : List String} :
    path ∈ s.diff paths ↔ path ∈ s ∧ path ∉ paths := by
  simp [diff]

@[simp] theorem mem_inter {path : String} {s : Selection} {paths : List String} :
    path ∈ s.inter paths ↔ path ∈ s ∧ path ∈ paths := by
  simp [inter]

/-- Two selections with the same members are equal. -/
theorem ext_mem {s t : Selection} (h : ∀ path, path ∈ s ↔ path ∈ t) : s = t := by
  obtain ⟨as, ha⟩ := s
  obtain ⟨bs, hb⟩ := t
  have hmem : ∀ path, path ∈ as ↔ path ∈ bs := h
  have : as = bs := by
    clear h
    induction as generalizing bs with
    | nil =>
      cases bs with
      | nil => rfl
      | cons b bs => exact absurd ((hmem b).2 (by simp)) (by simp)
    | cons a as ih =>
      cases bs with
      | nil => exact absurd ((hmem a).1 (by simp)) (by simp)
      | cons b bs =>
        rw [List.pairwise_cons] at ha hb
        have hab : a = b := by
          rcases List.mem_cons.1 ((hmem a).1 (by simp)) with h | h
          · exact h
          · rcases List.mem_cons.1 ((hmem b).2 (by simp)) with h' | h'
            · exact h'.symm
            · exact absurd (String.lt_trans (hb.1 a h) (ha.1 b h')) (String.lt_irrefl b)
        subst hab
        rw [ih ha.2 bs hb.2 ?_]
        intro path
        constructor
        · intro hp
          rcases List.mem_cons.1 ((hmem path).1 (List.mem_cons_of_mem _ hp)) with h | h
          · subst h; exact absurd (ha.1 _ hp) (String.lt_irrefl _)
          · exact h
        · intro hp
          rcases List.mem_cons.1 ((hmem path).2 (List.mem_cons_of_mem _ hp)) with h | h
          · subst h; exact absurd (hb.1 _ hp) (String.lt_irrefl _)
          · exact h
  subst this
  rfl

end Selection

end FileSieve
