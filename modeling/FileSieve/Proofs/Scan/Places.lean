import FileSieve.Host.Model
import FileSieve.Proofs.Scan.Exclusion

/-! # Paths that tell where directories stand

Where the path of an entry is that of its directory and its name, the path of a directory is the
path of the root followed by the labels that lead there. So it tells where the directory stands. -/

namespace FileSieve

namespace Text

theorem dropEndWhile_append {α : Type} (p : α → Bool) (as : List α) :
    ∃ back, as = dropEndWhile p as ++ back ∧ ∀ a ∈ back, p a = true := by
  refine ⟨(as.reverse.takeWhile p).reverse, ?_, ?_⟩
  · rw [dropEndWhile, ← List.reverse_append, List.takeWhile_append_dropWhile, List.reverse_reverse]
  · intro a ha
    exact List.all_eq_true.1 List.all_takeWhile a (List.mem_reverse.1 ha)

end Text

namespace Scan

open Host.Model (entryPath)

variable {α : Type} [PathRule α] {list : String → Except ListingFailure (List Entry)}
  {rules : List α} {root : String}

/-- The path of an entry is that of its directory followed by its name, which has no slash. -/
def Nested (list : String → Except ListingFailure (List Entry)) : Prop :=
  ∀ directory, ∀ entry ∈ entriesOf list directory,
    entry.path = entryPath directory entry.name ∧ '/' ∉ entry.name.toList

theorem entryPath_eq (directory name : String) :
    entryPath directory name = entryPath directory "" ++ name := by
  unfold entryPath
  split <;> simp

theorem entryPath_inj {directory name other : String}
    (h : entryPath directory name = entryPath directory other) : name = other := by
  rw [entryPath_eq directory name, entryPath_eq directory other] at h
  simpa using h

theorem entryPath_ne {directory name : String} (hn : name ≠ "") :
    entryPath directory name ≠ directory := by
  intro h
  have hlength := congrArg (fun s : String => s.toList.length) h
  have hpos : 0 < name.toList.length := List.length_pos_iff.2 (by simpa using hn)
  unfold entryPath at hlength
  split at hlength <;> simp only [String.toList_append, List.length_append] at hlength <;> omega

theorem getLast?_entryPath {directory name : String} (hn : name ≠ "") :
    (entryPath directory name).toList.getLast? = name.toList.getLast? := by
  have hne : name.toList ≠ [] := by simpa using hn
  rw [entryPath_eq, String.toList_append, List.getLast?_append, List.getLast?_eq_some_getLast hne,
    Option.some_or]

/-- A path below a root leads on to the path of a name in its directory. -/
theorem entryPath_entryPath {relative : String} (hr : relative ≠ "")
    (hs : relative.toList.getLast? ≠ some '/') (name : String) :
    entryPath (entryPath root relative) name = entryPath root (joinRelative relative name) := by
  have hslash : (entryPath root relative).toList.getLast? ≠ some '/' := by
    rwa [getLast?_entryPath hr]
  rw [joinRelative, if_neg hr, entryPath_eq root (relative ++ "/" ++ name), entryPath,
    if_neg hslash, entryPath_eq root relative]
  simp only [String.append_assoc]

/-- Where a scan stands: at the root, or at a path below it that does not end in a slash. -/
def Stands (root : String) (job : Job) : Prop :=
  job = ⟨root, ""⟩ ∨ (job.relative ≠ "" ∧ job.relative.toList.getLast? ≠ some '/' ∧
    job.directory = entryPath root job.relative)

/-- The path of an entry is that of the root followed by its place. -/
theorem Stands.path_eq (hl : Nested list) {job : Job} (h : Stands root job) {entry : Entry}
    (he : entry ∈ entriesOf list job.directory) :
    entry.path = entryPath root (joinRelative job.relative entry.name) := by
  rw [(hl job.directory entry he).1]
  rcases h with rfl | ⟨hr, hs, hd⟩
  · rfl
  · rw [hd, entryPath_entryPath hr hs]

theorem stands_entry (hl : Nested list) {job : Job} (h : Stands root job) {v : VisibleEntry}
    (hv : v ∈ view list rules job) : Stands root (jobOf v) := by
  obtain ⟨he, hn, hv⟩ := mem_of_mem_visible hv
  have hlast : v.entry.name.toList.getLast? ≠ some '/' :=
    fun hslash => (hl job.directory v.entry he).2 (List.mem_of_getLast? hslash)
  rw [Stands, jobOf, hv]
  refine .inr ⟨?_, ?_, h.path_eq hl he⟩
  · unfold joinRelative
    split <;> simp [hn]
  · unfold joinRelative
    split
    · exact hlast
    · have hne : v.entry.name.toList ≠ [] := by simpa using hn
      rwa [String.toList_append, List.getLast?_append, List.getLast?_eq_some_getLast hne,
        Option.some_or, ← List.getLast?_eq_some_getLast hne]

theorem Reaches.stands (hl : Nested list) {job : Job} (h : Reaches list rules root job) :
    Stands root job := by
  induction h with
  | root => exact .inl rfl
  | enter _ hv ih => exact stands_entry hl ih (List.mem_filter.1 hv).1

theorem pathsTell_of_nested (hl : Nested list) : PathsTell list rules root := by
  intro job other hj ho hd
  rcases hj.stands hl with rfl | ⟨hne, -, hj⟩ <;> rcases ho.stands hl with rfl | ⟨hne', -, ho⟩
  · rfl
  · exact absurd (ho.symm.trans hd.symm) (entryPath_ne hne')
  · exact absurd (hj.symm.trans hd) (entryPath_ne hne)
  · exact entryPath_inj (hj.symm.trans (hd.trans ho))

/-! ### Places told from paths -/

theorem forwardSlashes_append (path more : List Char) :
    forwardSlashes (path ++ more) = forwardSlashes path ++ forwardSlashes more :=
  List.map_append

theorem forwardSlashes_eq_self {path : List Char} (h : '\\' ∉ path) :
    forwardSlashes path = path := by
  induction path with
  | nil => rfl
  | cons c path ih =>
    rw [List.mem_cons, not_or] at h
    rw [forwardSlashes, List.map_cons, if_neg (Ne.symm h.1), ← forwardSlashes, ih h.2]

/-- A path put behind a root and a slash is the root, then slashes, then that path. -/
theorem forwardSlashes_below (root relative : String) :
    ∃ slashes, slashes ≠ [] ∧ (∀ c ∈ slashes, decide (c = '/') = true) ∧
      forwardSlashes (root ++ "/" ++ relative).toList =
        Text.dropEndWhile (· = '/') (forwardSlashes root.toList) ++
          (slashes ++ forwardSlashes relative.toList) := by
  obtain ⟨back, hroot, hback⟩ := Text.dropEndWhile_append (· = '/') (forwardSlashes root.toList)
  refine ⟨back ++ ['/'], by simp, ?_, ?_⟩
  · intro c hc
    rcases List.mem_append.1 hc with hc | hc
    · exact hback c hc
    · exact decide_eq_true (List.mem_singleton.1 hc)
  · rw [String.toList_append, String.toList_append, forwardSlashes_append, forwardSlashes_append,
      ← List.append_assoc, ← List.append_assoc, ← hroot]
    rfl

/-- A path below a root is the root, then slashes, then the place. -/
theorem forwardSlashes_entryPath (root relative : String) :
    ∃ slashes, slashes ≠ [] ∧ (∀ c ∈ slashes, decide (c = '/') = true) ∧
      forwardSlashes (entryPath root relative).toList =
        Text.dropEndWhile (· = '/') (forwardSlashes root.toList) ++
          (slashes ++ forwardSlashes relative.toList) := by
  unfold entryPath
  split
  · next hlast =>
    obtain ⟨back, hroot, hback⟩ := Text.dropEndWhile_append (· = '/') (forwardSlashes root.toList)
    refine ⟨back, ?_, hback, ?_⟩
    · rintro rfl
      rw [List.append_nil] at hroot
      have hslash : (forwardSlashes root.toList).getLast? = some '/' := by
        rw [forwardSlashes, List.getLast?_map, hlast]
        rfl
      have hkept := List.head?_dropWhile_not (fun c => decide (c = '/'))
        (forwardSlashes root.toList).reverse
      rw [hroot, Text.dropEndWhile, List.getLast?_reverse] at hslash
      rw [hslash] at hkept
      exact absurd hkept (by decide)
    · rw [String.toList_append, forwardSlashes_append, ← List.append_assoc, ← hroot]
  · exact forwardSlashes_below root relative

/-- What stands behind a root and slashes is the place, unless there is another slash. -/
theorem relativePath_of_slashes {root path : String} {slashes relative : List Char}
    (hpath : forwardSlashes path.toList =
      Text.dropEndWhile (· = '/') (forwardSlashes root.toList) ++ (slashes ++ relative))
    (hne : slashes ≠ []) (hslashes : ∀ c ∈ slashes, decide (c = '/') = true)
    (hr : relative.head? ≠ some '/') : relativePath root path = String.ofList relative := by
  unfold relativePath
  rw [hpath]
  generalize Text.dropEndWhile (· = '/') (forwardSlashes root.toList) = top
  have hlonger : top ++ (slashes ++ relative) ≠ top := by simp [hne]
  have hbelow : (top ++ ['/']).isPrefixOf (top ++ (slashes ++ relative)) = true := by
    obtain ⟨c, rest, rfl⟩ := List.exists_cons_of_ne_nil hne
    obtain rfl : c = '/' := of_decide_eq_true (hslashes c List.mem_cons_self)
    simp
  have hfirst : relative.dropWhile (· = '/') = relative := by
    cases relative with
    | nil => rfl
    | cons c rest => exact List.dropWhile_cons_of_neg (by simpa using hr)
  dsimp only
  rw [if_neg hlonger, if_pos hbelow, List.drop_left, List.dropWhile_append_of_pos hslashes, hfirst]

/-- The place of an entry is told from its path, unless there is a backslash in it. -/
theorem relativePath_entryPath {root relative : String}
    (hs : relative.toList.head? ≠ some '/') (hb : '\\' ∉ relative.toList) :
    relativePath root (entryPath root relative) = relative := by
  obtain ⟨slashes, hne, hslashes, hpath⟩ := forwardSlashes_entryPath root relative
  rw [forwardSlashes_eq_self hb] at hpath
  rw [relativePath_of_slashes hpath hne hslashes hs, String.ofList_toList]

theorem head?_joinRelative {above name : String} (ha : above.toList.head? ≠ some '/')
    (hn : '/' ∉ name.toList) : (joinRelative above name).toList.head? ≠ some '/' := by
  unfold joinRelative
  split
  · intro h
    exact hn (List.mem_of_mem_head? h)
  · next hne =>
    have hne : above.toList ≠ [] := by simpa using hne
    rw [String.toList_append, String.toList_append, List.append_assoc,
      List.head?_append_of_ne_nil _ hne]
    exact ha

theorem Reaches.head?_relative (hl : Nested list) {job : Job} (h : Reaches list rules root job) :
    job.relative.toList.head? ≠ some '/' := by
  induction h with
  | root => simp
  | @enter job v _ hv ih =>
    obtain ⟨he, -, hrel⟩ := mem_of_mem_visible (List.mem_of_mem_filter hv)
    rw [jobOf, hrel]
    exact head?_joinRelative ih (hl job.directory v.entry he).2

end Scan

end FileSieve
