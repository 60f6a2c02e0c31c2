import FileSieve.Proofs.Scan.Directories

/-! # What unreadable directories cost

A directory that cannot be read is warned of and counts as empty. So a scan comes to the tree that
it would come to if all directories could be read, without what stands in those that cannot, and
without the directories that are left without a file. -/

namespace FileSieve.Scan

open FileSieve.Tree

variable {α : Type} [PathRule α] {list : String → Except ListingFailure (List Entry)}
  {rules : List α} {root : String} {failing : String → Option String}

/-- The listings with some directories unreadable, each for a reason of its own. -/
def withFailures (list : String → Except ListingFailure (List Entry))
    (failing : String → Option String) (directory : String) : Except ListingFailure (List Entry) :=
  match failing directory with
  | some reason => .error (.unreadable reason)
  | none => list directory

/-- What is left of the tree below a root where directories cannot be read. -/
def remaining (failing : String → Option String) (root : String) (tree : List Node) : List Node :=
  if (failing root).isSome then [] else filled (emptied (fun path => (failing path).isSome) tree)

/-! ### Listings with failures -/

theorem entriesOf_withFailures (directory : String) :
    entriesOf (withFailures list failing) directory =
      if (failing directory).isSome then [] else entriesOf list directory := by
  unfold entriesOf withFailures
  cases failing directory <;> rfl

theorem entriesOf_withFailures_subset (directory : String) :
    entriesOf (withFailures list failing) directory ⊆ entriesOf list directory := by
  rw [entriesOf_withFailures]
  split
  · exact List.nil_subset _
  · exact List.Subset.refl _

theorem IsTree.withFailures (ht : IsTree list root) :
    IsTree (withFailures list failing) root := by
  have hjob : ∀ job, HasDirectory (Scan.withFailures list failing) root job →
      HasDirectory list root job := fun job h => h.of_subset entriesOf_withFailures_subset
  constructor
  · intro job h
    rw [entriesOf_withFailures]
    split
    · exact List.nodup_nil
    · exact ht.distinct job (hjob job h)
  · intro job h entry he
    exact ht.slashless job (hjob job h) entry (entriesOf_withFailures_subset _ he)
  · intro job h entry he
    exact ht.path_eq job (hjob job h) entry (entriesOf_withFailures_subset _ he)

theorem not_isBroken_withFailures (hr : Readable list root) {job : Job}
    (h : HasDirectory (withFailures list failing) root job) :
    ¬IsBroken (withFailures list failing) job.directory := by
  rintro ⟨reason, hbroken⟩
  obtain ⟨entries, hentries⟩ := hr job (h.of_subset entriesOf_withFailures_subset)
  unfold withFailures at hbroken
  split at hbroken
  · cases hbroken
  · rw [hentries] at hbroken
    cases hbroken

/-- The directories that are warned of are those that fail. -/
theorem warning?_withFailures {directory : String} (h : ∃ entries, list directory = .ok entries) :
    warning? (withFailures list failing) directory =
      (failing directory).map (warning directory) := by
  obtain ⟨entries, h⟩ := h
  unfold warning? withFailures
  cases failing directory with
  | some reason => rfl
  | none => rw [h]; rfl

/-! ### The tree that is left -/

theorem remaining_nil (root : String) : remaining failing root [] = [] := by
  simp [remaining, emptied, filled]

/-- What is left of one node. -/
def remainingNode? (failing : String → Option String) (node : Node) : Option Node :=
  filledNode? (emptiedNode (fun path => (failing path).isSome) node)

theorem filled_emptied_eq_filterMap (tree : List Node) :
    filled (emptied (fun path => (failing path).isSome) tree) =
      tree.filterMap (remainingNode? failing) := by
  rw [filled_eq_filterMap, emptied_eq_map, List.filterMap_map]
  rfl

theorem remainingNode?_directory (label path : String) (children : List Node) :
    remainingNode? failing (.directory label path children) =
      if (remaining failing path children).isEmpty then none
      else some (.directory label path (remaining failing path children)) := by
  unfold remainingNode? remaining
  rw [emptiedNode, filledNode?]
  cases failing path with
  | some reason => rfl
  | none => simp [← filled_eq_nil_iff]

theorem remainingNode?_keeps {a b : Node} (h : remainingNode? failing a = some b) :
    b.isFile = a.isFile ∧ b.label = a.label := by
  cases a with
  | file label path =>
    cases h
    exact ⟨rfl, rfl⟩
  | directory label path children =>
    rw [remainingNode?_directory] at h
    split at h
    · cases h
    · cases h
      exact ⟨rfl, rfl⟩

/-- Of a directory that can be read there is left what is left of its subdirectories, and its
files. -/
theorem filled_emptied_assemble (vs files : List VisibleEntry)
    (children : VisibleEntry → List Node) :
    filled (emptied (fun path => (failing path).isSome)
        (assemble (vs.map fun v => (v, children v)) files)) =
      assemble (vs.map fun v => (v, remaining failing v.entry.path (children v))) files := by
  have hnone : ∀ v ∈ vs, children v = [] → remaining failing v.entry.path (children v) = [] := by
    intro v _ hc
    rw [hc, remaining_nil]
  have hkept := @filterMap_assemble (remainingNode? failing) vs files children _ (fun _ => true)
    (fun _ _ => remainingNode?_keeps) (fun v _ => remainingNode?_directory ..) hnone fun _ _ => rfl
  rwa [List.filter_true, ← filled_emptied_eq_filterMap] at hkept

/-- The tree in a directory, whether the directory itself can be read or not. -/
theorem treeOf_withFailures (n : Nat) (job : Job) :
    treeOf (withFailures list failing) rules n job =
      remaining failing job.directory (treeOf list rules n job) := by
  induction n generalizing job with
  | zero => exact (remaining_nil _).symm
  | succ n ih =>
    rw [treeOf, view, entriesOf_withFailures, remaining]
    by_cases hf : (failing job.directory).isSome = true
    · simp [hf, visible, directories, files, assemble, Node.sort]
    · rw [if_neg hf, if_neg hf, ← view, treeOf, filled_emptied_assemble]
      congr 1
      apply List.map_congr_left
      intro v _
      rw [ih]
      rfl

/-! ### Whole scans -/

/-- The warnings of a scan are one for each failing directory that is reached. -/
theorem filterMap_warning?_withFailures {directories : List String}
    (h : ∀ directory ∈ directories, ∃ entries, list directory = .ok entries) :
    directories.filterMap (warning? (withFailures list failing)) =
      (directories.filter fun directory => (failing directory).isSome).filterMap fun directory =>
        (failing directory).map (warning directory) := by
  rw [List.filterMap_filter]
  apply List.filterMap_congr
  intro directory hd
  rw [warning?_withFailures (h directory hd)]
  cases failing directory <;> rfl

/-- Where directories cannot be read, scans with and without workers come to what is left of the
tree that they come to otherwise, and warn once of each such directory that is reached: one that is
not ignored, below directories that can be read. -/
theorem scans_with_failures (rules : List α) (failing : String → Option String) {n : Nat}
    {root : String} (ht : IsTree list root) (hl : HasLevels list n root)
    (hr : Readable list root) :
    let lost := withFailures list failing
    ∃ (whole : ScanResult) (unread : List String),
      let rest := result root (remaining failing root whole.tree)
      let warned := unread.filterMap fun directory => (failing directory).map (warning directory)
      (unread.Nodup ∧ ∀ directory, directory ∈ unread ↔ (failing directory).isSome = true ∧
        ∃ relative, HasDirectory lost root ⟨directory, relative⟩ ∧ IsOpen rules relative) ∧
      ((observe list none (depthFirst rules n root)).1 = .ok whole ∧
        (observe lost none (depthFirst rules n root)).1 = .ok rest ∧
        (warnings (observe lost none (depthFirst rules n root)).2).Perm warned) ∧
      ∀ schedule workers,
        (observe list none (byLevels rules schedule workers n root)).1 = .ok (some whole) ∧
        (observe lost none (byLevels rules schedule workers n root)).1 = .ok (some rest) ∧
        (warnings (observe lost none (byLevels rules schedule workers n root)).2).Perm warned := by
  intro lost
  let found := (reached lost rules n ⟨root, ""⟩).map Job.directory
  have hl' : HasLevels lost n root := hl.of_subset entriesOf_withFailures_subset
  have hb := @Readable.not_isBroken _ _ list rules root hr n hl
  have hreached : ∀ job ∈ reached lost rules n ⟨root, ""⟩, HasDirectory lost root job :=
    fun job hj => ((mem_reached_iff hl').1 hj).1
  have hb' : ∀ job ∈ reached lost rules n ⟨root, ""⟩, ¬IsBroken lost job.directory :=
    fun job hj => not_isBroken_withFailures hr (hreached job hj)
  have hd : found.Nodup := (IsTree.withFailures ht).nodup_reached n
  have hwarned := @filterMap_warning?_withFailures list failing found <| by
    intro directory hfound
    obtain ⟨job, hj, rfl⟩ := List.mem_map.1 hfound
    exact hr job ((hreached job hj).of_subset entriesOf_withFailures_subset)
  have hrest : treeOf lost rules n ⟨root, ""⟩ = _ := treeOf_withFailures n ⟨root, ""⟩
  refine ⟨result root (treeOf list rules n ⟨root, ""⟩),
    found.filter fun directory => (failing directory).isSome, ⟨hd.filter _, ?_⟩, ?_, ?_⟩
  · intro directory
    rw [List.mem_filter, and_comm, mem_directories_reached_iff hl']
  · obtain ⟨hwhole, -, -⟩ := observe_depthFirst hl hb
    obtain ⟨hlost, -, hwarnings⟩ := observe_depthFirst hl' hb'
    rw [hrest] at hlost
    exact ⟨hwhole, hlost, .of_eq (hwarnings.trans hwarned)⟩
  · intro schedule workers
    obtain ⟨hwhole, -, -⟩ := observe_byLevels schedule workers hl (ht.nodup_reached n) hb
    obtain ⟨hlost, -, hwarnings⟩ := observe_byLevels schedule workers hl' hd hb'
    rw [hrest] at hlost
    exact ⟨hwhole, hlost, hwarnings.trans (.of_eq hwarned)⟩

theorem scans_with_failures_nested :
    let c : Catalogue := { directories := [
      ("/r", [⟨"b", true, "/r/b"⟩, ⟨"a.txt", false, "/r/a.txt"⟩, ⟨"c", true, "/r/c"⟩]),
      ("/r/b", [⟨"d", true, "/r/b/d"⟩, ⟨"e.log", false, "/r/b/e.log"⟩]),
      ("/r/b/d", [⟨"f.txt", false, "/r/b/d/f.txt"⟩]),
      ("/r/c", [⟨"g.txt", false, "/r/c/g.txt"⟩])] }
    let rules := compileRules ["*.log"]
    let failing := fun directory => if directory = "/r/b/d" then some "denied" else none
    let lost := withFailures c.list failing
    IsTree c.list "/r" ∧ HasLevels c.list 3 "/r" ∧ Readable c.list "/r" ∧
      ∃ (whole : ScanResult) (unread : List String),
        let rest := result "/r" (remaining failing "/r" whole.tree)
        let warned := unread.filterMap fun directory => (failing directory).map (warning directory)
        (unread.Nodup ∧ ∀ directory, directory ∈ unread ↔ (failing directory).isSome = true ∧
          ∃ relative, HasDirectory lost "/r" ⟨directory, relative⟩ ∧ IsOpen rules relative) ∧
        ((observe c.list none (depthFirst rules 3 "/r")).1 = .ok whole ∧
          (observe lost none (depthFirst rules 3 "/r")).1 = .ok rest ∧
          (warnings (observe lost none (depthFirst rules 3 "/r")).2).Perm warned) ∧
        ∀ schedule workers,
          (observe c.list none (byLevels rules schedule workers 3 "/r")).1 = .ok (some whole) ∧
          (observe lost none (byLevels rules schedule workers 3 "/r")).1 = .ok (some rest) ∧
          (warnings (observe lost none (byLevels rules schedule workers 3 "/r")).2).Perm warned := by
  intro c rules failing lost
  have ht : IsTree c.list "/r" := isTree_catalogue "/r" (by decide +kernel)
  have hl : HasLevels c.list 3 "/r" := by
    simp [HasLevels, entriesOf, c, Catalogue.list, List.lookup_cons, List.lookup_nil]
  have hr : Readable c.list "/r" := readable_catalogue rfl "/r"
  clear_value c rules failing
  exact ⟨ht, hl, hr, scans_with_failures rules failing ht hl hr⟩

end FileSieve.Scan
