import FileSieve.Proofs.Scan.Agreement
import FileSieve.Proofs.Scan.Distinct

/-! # Which directories a scan lists

The directories of a tree are the root and what entries with a name lead to from there. A scan lists
those of them that the rules do not ignore, each one once, whether it shows anything of them or not.
What stands below an ignored directory is ignored, so that the rules need be asked about each
directory only. -/

namespace FileSieve.Scan

variable {α : Type} [PathRule α] {list other : String → Except ListingFailure (List Entry)}
  {rules : List α} {root : String}

/-! ### Trees -/

/-- The directories at and below a root, with their paths from the root. An entry without a name
leads nowhere. -/
inductive HasDirectory (list : String → Except ListingFailure (List Entry)) (root : String) :
    Job → Prop
  | root : HasDirectory list root ⟨root, ""⟩
  | enter {job : Job} {entry : Entry} (h : HasDirectory list root job)
      (he : entry ∈ entriesOf list job.directory) (hd : entry.isDirectory = true)
      (hn : entry.name ≠ "") :
      HasDirectory list root ⟨entry.path, joinRelative job.relative entry.name⟩

/-- The listings make up a tree below a root: in each of its directories names are distinct and
without slashes, and the path of an entry is that of the directory, a slash and the name. -/
structure IsTree (list : String → Except ListingFailure (List Entry)) (root : String) : Prop where
  distinct : ∀ job, HasDirectory list root job →
    ((entriesOf list job.directory).map Entry.name).Nodup
  slashless : ∀ job, HasDirectory list root job →
    ∀ entry ∈ entriesOf list job.directory, '/' ∉ entry.name.toList
  path_eq : ∀ job, HasDirectory list root job →
    ∀ entry ∈ entriesOf list job.directory, entry.path = job.directory ++ "/" ++ entry.name

/-- Each directory at and below a root can be listed. -/
def Readable (list : String → Except ListingFailure (List Entry)) (root : String) : Prop :=
  ∀ job, HasDirectory list root job → ∃ entries, list job.directory = .ok entries

/-- Where there is nothing else in any directory there are no more levels. -/
theorem HasLevels.of_subset {n : Nat} {directory : String} (h : HasLevels list n directory)
    (hs : ∀ directory, entriesOf other directory ⊆ entriesOf list directory) :
    HasLevels other n directory := by
  induction n generalizing directory with
  | zero => exact h.elim
  | succ n ih =>
    intro entry he hd hn
    exact ih (h entry (hs directory he) hd hn)

theorem HasDirectory.of_subset {job : Job} (h : HasDirectory other root job)
    (hs : ∀ directory, entriesOf other directory ⊆ entriesOf list directory) :
    HasDirectory list root job := by
  induction h with
  | root => exact .root
  | enter _ he hd hn ih => exact ih.enter (hs _ he) hd hn

/-- The path of a directory is that of the root followed by its place. -/
theorem IsTree.directory_eq (ht : IsTree list root) {job : Job} (h : HasDirectory list root job) :
    job.directory = if job.relative = "" then root else root ++ "/" ++ job.relative := by
  induction h with
  | root => simp
  | @enter job entry h he _ hn ih =>
    rw [if_neg (joinRelative_ne_empty job.relative hn), ht.path_eq job h entry he, ih]
    unfold joinRelative
    split <;> simp [String.append_assoc]

theorem IsTree.relative_eq (ht : IsTree list root) {job other : Job}
    (hj : HasDirectory list root job) (ho : HasDirectory list root other)
    (hd : job.directory = other.directory) : job.relative = other.relative := by
  rw [ht.directory_eq hj, ht.directory_eq ho, ← String.toList_inj] at hd
  apply String.toList_inj.1
  split at hd <;> split at hd <;> simp_all

/-! ### Catalogues as trees -/

/-- What holds of each listing in a catalogue and of an empty one holds of every directory. -/
theorem entriesOf_catalogue {p : String → List Entry → Prop} {c : Catalogue}
    (hnil : ∀ directory, p directory []) (h : ∀ row ∈ c.directories, p row.1 row.2)
    (directory : String) : p directory (entriesOf c.list directory) := by
  unfold entriesOf Catalogue.list
  cases c.failures.lookup directory with
  | some failure => exact hnil directory
  | none =>
    cases hl : c.directories.lookup directory with
    | none => exact hnil directory
    | some entries =>
      obtain ⟨front, back, hc, -⟩ := List.lookup_eq_some_iff.1 hl
      exact h (directory, entries) (by simp [hc])

theorem isTree_catalogue {c : Catalogue} (root : String)
    (h : ∀ row ∈ c.directories, (row.2.map Entry.name).Nodup ∧
      ∀ entry ∈ row.2, '/' ∉ entry.name.toList ∧ entry.path = row.1 ++ "/" ++ entry.name) :
    IsTree c.list root := by
  have hall := @entriesOf_catalogue
    (fun directory entries => (entries.map Entry.name).Nodup ∧
      ∀ entry ∈ entries, '/' ∉ entry.name.toList ∧ entry.path = directory ++ "/" ++ entry.name)
    c (by simp) h
  constructor
  · exact fun job _ => (hall job.directory).1
  · exact fun job _ entry he => ((hall job.directory).2 entry he).1
  · exact fun job _ entry he => ((hall job.directory).2 entry he).2

theorem readable_catalogue {c : Catalogue} (h : c.failures = []) (root : String) :
    Readable c.list root := by
  intro job _
  simp [Catalogue.list, h]

/-! ### Open and shut directories -/

theorem not_isOpen_iff {relative : String} : ¬IsOpen rules relative ↔ IsShut rules relative := by
  simp [IsOpen, IsShut]

/-- What stands below an ignored directory is ignored. -/
theorem IsShut.of_leadsOn {relative other : String} (h : IsShut rules relative)
    (hl : LeadsOn relative other) : IsShut rules other := by
  rcases hl with rfl | ⟨rest, rfl⟩
  · exact h
  · have hd : relative.toList ≠ [] := by simpa using h.1
    have hp : rest.toList ++ ['/'] ≠ [] := by simp
    have hbelow : relative ++ "/" ++ rest ++ "/" =
        String.ofList (relative.toList ++ '/' :: (rest.toList ++ ['/'])) := by
      simp [← String.toList_inj]
    have habove : relative ++ "/" = String.ofList (relative.toList ++ ['/']) := by simp
    refine ⟨by simp, ?_⟩
    rw [hbelow, isIgnored_append rules hd hp, ← habove, h.2, Bool.or_true]

theorem Reaches.hasDirectory {job : Job} (h : Reaches list rules root job) :
    HasDirectory list root job := by
  induction h with
  | root => exact .root
  | @enter job v _ hv ih =>
    obtain ⟨hv, hd⟩ := List.mem_filter.1 hv
    obtain ⟨he, hn, hr⟩ := mem_of_mem_visible hv
    rw [jobOf, hr]
    exact ih.enter he hd hn

/-- A directory that is not ignored is reached: nothing above it is ignored either. -/
theorem HasDirectory.reaches {job : Job} (h : HasDirectory list root job)
    (ho : IsOpen rules job.relative) : Reaches list rules root job := by
  induction h with
  | root => exact .root
  | @enter job entry _ he hd hn ih =>
    have habove : IsOpen rules job.relative := by
      by_contra hshut
      rw [not_isOpen_iff] at hshut
      have hl : LeadsOn job.relative (joinRelative job.relative entry.name) := by
        rw [joinRelative, if_neg hshut.1]
        exact .inr ⟨entry.name, rfl⟩
      exact not_isOpen_iff.2 (hshut.of_leadsOn hl) ho
    have hi : isIgnored rules (joinRelative job.relative entry.name ++ "/") = false :=
      ho.resolve_left (joinRelative_ne_empty job.relative hn)
    have hv : ⟨entry, joinRelative job.relative entry.name⟩ ∈ directories (view list rules job) := by
      rw [directories, List.mem_filter, view, visible_eq habove, List.mem_filterMap]
      exact ⟨⟨entry, he, by simp [hn, judgedPath, hd, hi]⟩, hd⟩
    exact (ih habove).enter hv

theorem reaches_iff {job : Job} :
    Reaches list rules root job ↔ HasDirectory list root job ∧ IsOpen rules job.relative :=
  ⟨fun h => ⟨h.hasDirectory, h.isOpen⟩, fun h => h.1.reaches h.2⟩

theorem mem_reached_iff {n : Nat} (hl : HasLevels list n root) {job : Job} :
    job ∈ reached list rules n ⟨root, ""⟩ ↔
      HasDirectory list root job ∧ IsOpen rules job.relative := by
  rw [← reaches_iff]
  exact ⟨Reaches.root.of_mem_reached, Reaches.mem_reached hl⟩

/-- The paths of the directories that are reached are those of the open ones. -/
theorem mem_directories_reached_iff {n : Nat} (hl : HasLevels list n root) {directory : String} :
    directory ∈ (reached list rules n ⟨root, ""⟩).map Job.directory ↔
      ∃ relative, HasDirectory list root ⟨directory, relative⟩ ∧ IsOpen rules relative := by
  rw [List.mem_map]
  constructor
  · rintro ⟨job, hj, rfl⟩
    exact ⟨job.relative, (mem_reached_iff hl).1 hj⟩
  · rintro ⟨relative, h⟩
    exact ⟨⟨directory, relative⟩, (mem_reached_iff hl).2 h, rfl⟩

/-- In a tree no directory is reached twice. -/
theorem IsTree.nodup_reached (ht : IsTree list root) (n : Nat) :
    ((reached list rules n ⟨root, ""⟩).map Job.directory).Nodup := by
  apply nodup_directories_of_pathsTell
  · intro job other hj ho
    exact ht.relative_eq hj.hasDirectory ho.hasDirectory
  · apply Scan.nodup_reached (fun job hj => ht.slashless job hj.hasDirectory)
      (fun job hj => ht.distinct job hj.hasDirectory) n
    exact .root

/-! ### What is listed -/

theorem Readable.not_isBroken (hr : Readable list root) {n : Nat} (hl : HasLevels list n root) :
    ∀ job ∈ reached list rules n ⟨root, ""⟩, ¬IsBroken list job.directory := by
  rintro job hj ⟨reason, hbroken⟩
  obtain ⟨entries, hentries⟩ := hr job ((mem_reached_iff hl).1 hj).1
  rw [hentries] at hbroken
  cases hbroken

/-- A scan lists the root and the directories that the rules do not ignore, each one once, and
nothing at or below an ignored directory. Whether a directory is shown makes no difference. -/
theorem mem_calls_iff (rules : List α) {n : Nat} {root : String} (ht : IsTree list root)
    (hl : HasLevels list n root) (hr : Readable list root) :
    let seen := observe list none (depthFirst rules n root)
    (∃ found, seen.1 = .ok found) ∧
    (∀ directory, directory ∈ seen.2.calls ↔
      ∃ relative, HasDirectory list root ⟨directory, relative⟩ ∧ IsOpen rules relative) ∧
    (∀ job, HasDirectory list root job → IsOpen rules job.relative →
      seen.2.calls.count job.directory = 1) ∧
    ∀ job below, HasDirectory list root job → IsShut rules job.relative →
      HasDirectory list root below → LeadsOn job.relative below.relative →
        below.directory ∉ seen.2.calls := by
  intro seen
  have hb := @Readable.not_isBroken _ _ list rules root hr n hl
  obtain ⟨hfound, hcalls, -⟩ := observe_depthFirst hl hb
  change seen.2.calls = _ at hcalls
  have hmem : ∀ directory, directory ∈ seen.2.calls ↔
      ∃ relative, HasDirectory list root ⟨directory, relative⟩ ∧ IsOpen rules relative := by
    intro directory
    rw [hcalls]
    exact mem_directories_reached_iff hl
  refine ⟨⟨_, hfound⟩, hmem, ?_, ?_⟩
  · intro job hj ho
    have hnodup : seen.2.calls.Nodup := hcalls ▸ ht.nodup_reached n
    exact List.count_eq_one_of_mem hnodup ((hmem job.directory).2 ⟨job.relative, hj, ho⟩)
  · intro job below _ hshut hbelow hleads hlisted
    obtain ⟨relative, hd, ho⟩ := (hmem below.directory).1 hlisted
    have hsame : relative = below.relative := ht.relative_eq hd hbelow rfl
    rw [hsame] at ho
    exact not_isOpen_iff.2 (hshut.of_leadsOn hleads) ho

theorem mem_calls_iff_negated :
    let c : Catalogue := { directories := [
      ("/r", [⟨"out", true, "/r/out"⟩, ⟨"b.txt", false, "/r/b.txt"⟩, ⟨"new", true, "/r/new"⟩]),
      ("/r/out", [⟨"keep", true, "/r/out/keep"⟩, ⟨"a.txt", false, "/r/out/a.txt"⟩]),
      ("/r/out/keep", [⟨"c.txt", false, "/r/out/keep/c.txt"⟩])] }
    let rules := compileRules ["out/", "!out/keep/"]
    let seen := observe c.list none (depthFirst rules 3 "/r")
    IsTree c.list "/r" ∧ HasLevels c.list 3 "/r" ∧ Readable c.list "/r" ∧
      HasDirectory c.list "/r" ⟨"/r/new", "new"⟩ ∧ IsOpen rules "new" ∧
      HasDirectory c.list "/r" ⟨"/r/out", "out"⟩ ∧ IsShut rules "out" ∧
      HasDirectory c.list "/r" ⟨"/r/out/keep", "out/keep"⟩ ∧ LeadsOn "out" "out/keep" ∧
      (∃ found, seen.1 = .ok found) ∧ seen.2.calls.count "/r/new" = 1 ∧
      "/r/out/keep" ∉ seen.2.calls := by
  intro c rules seen
  have ht : IsTree c.list "/r" := isTree_catalogue "/r" (by decide +kernel)
  have hl : HasLevels c.list 3 "/r" := by
    simp [HasLevels, entriesOf, c, Catalogue.list, List.lookup_cons, List.lookup_nil]
  have hr : Readable c.list "/r" := readable_catalogue rfl "/r"
  have hnew : HasDirectory c.list "/r" ⟨"/r/new", "new"⟩ := by
    have h := @HasDirectory.enter c.list "/r" ⟨"/r", ""⟩ ⟨"new", true, "/r/new"⟩ .root
      (by decide +kernel) rfl (by decide)
    simpa [joinRelative] using h
  have hout : HasDirectory c.list "/r" ⟨"/r/out", "out"⟩ := by
    have h := @HasDirectory.enter c.list "/r" ⟨"/r", ""⟩ ⟨"out", true, "/r/out"⟩ .root
      (by decide +kernel) rfl (by decide)
    simpa [joinRelative] using h
  have hkeep : HasDirectory c.list "/r" ⟨"/r/out/keep", "out/keep"⟩ := by
    have h := @HasDirectory.enter c.list "/r" ⟨"/r/out", "out"⟩ ⟨"keep", true, "/r/out/keep"⟩ hout
      (by decide +kernel) rfl (by decide)
    simpa [joinRelative] using h
  have hopen : IsOpen rules "new" := .inr (by decide +kernel)
  have hshut : IsShut rules "out" := ⟨by decide, by decide +kernel⟩
  have hleads : LeadsOn "out" "out/keep" := .inr ⟨"keep", by decide +kernel⟩
  clear_value c rules
  obtain ⟨hfound, -, hcount, hnot⟩ := mem_calls_iff rules ht hl hr
  exact ⟨ht, hl, hr, hnew, hopen, hout, hshut, hkeep, hleads, hfound, hcount _ hnew hopen,
    hnot _ _ hout hshut hkeep hleads⟩

end FileSieve.Scan
