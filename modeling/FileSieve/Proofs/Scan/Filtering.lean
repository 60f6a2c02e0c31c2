import FileSieve.Proofs.Scan.Layout
import FileSieve.Proofs.Tree.Pruning
import FileSieve.Proofs.Tree.Stability

/-! # Scanning with rules is filtering a full scan

A scan does not enter a directory that the rules ignore. The tree that it comes to is still the full
tree without the ignored files, and without the directories that are left without one. -/

namespace FileSieve.Scan

open FileSieve.Tree

variable {α : Type} [PathRule α] (rules : List α)

/-- A tree without the files that the rules ignore and the directories left without a file. -/
def prune (above : String) (tree : List Node) : List Node :=
  filled (keepFiles (fun path => !isIgnored rules path) above tree)

/-- What pruning leaves of one node. -/
def pruneNode? (above : String) (node : Node) : Option Node :=
  (keepNode? (fun path => !isIgnored rules path) above node).bind filledNode?

variable {rules}

/-! ### Pruning node by node -/

theorem prune_eq_filterMap (above : String) (tree : List Node) :
    prune rules above tree = tree.filterMap (pruneNode? rules above) := by
  rw [prune, filled_eq_filterMap, keepFiles_eq_filterMap, List.filterMap_filterMap]
  rfl

theorem pruneNode?_file (above label path : String) :
    pruneNode? rules above (.file label path) =
      if isIgnored rules (joinRelative above label) then none else some (.file label path) := by
  rw [pruneNode?, keepNode?]
  cases isIgnored rules (joinRelative above label) <;> rfl

theorem pruneNode?_directory (above label path : String) (children : List Node) :
    pruneNode? rules above (.directory label path children) =
      if (prune rules (joinRelative above label) children).isEmpty then none
      else some (.directory label path (prune rules (joinRelative above label) children)) := by
  rw [pruneNode?, keepNode?, Option.bind_some, filledNode?, prune]
  simp only [List.isEmpty_iff, filled_eq_nil_iff]

theorem pruneNode?_keeps {above : String} {a b : Node} (h : pruneNode? rules above a = some b) :
    b.isFile = a.isFile ∧ b.label = a.label := by
  cases a with
  | file label path =>
    rw [pruneNode?_file] at h
    split at h
    · cases h
    · cases h
      exact ⟨rfl, rfl⟩
  | directory label path children =>
    rw [pruneNode?_directory] at h
    split at h
    · cases h
    · cases h
      exact ⟨rfl, rfl⟩

/-! ### Pruning one directory -/

/-- Subdirectories without nodes do not count. -/
theorem assemble_filter {vs : List VisibleEntry} {children : VisibleEntry → List Node}
    {p : VisibleEntry → Bool} (h : ∀ v ∈ vs, p v = false → children v = [])
    (files : List VisibleEntry) :
    assemble (vs.map fun v => (v, children v)) files =
      assemble ((vs.filter p).map fun v => (v, children v)) files := by
  unfold assemble
  rw [List.filterMap_map, List.filterMap_map, List.filterMap_filter]
  congr 2
  apply List.filterMap_congr
  intro v hv
  by_cases hp : p v = true
  · simp [hp]
  · simp [hp, h v hv (by simpa using hp)]

/-- Leaving nodes out of a directory, or parts of them, can be done before they are put together. -/
theorem filterMap_assemble {f : Node → Option Node} {vs files : List VisibleEntry}
    {children kept : VisibleEntry → List Node} {p : VisibleEntry → Bool}
    (hf : ∀ a b, f a = some b → b.isFile = a.isFile ∧ b.label = a.label)
    (hvs : ∀ v ∈ vs, f (.directory v.entry.name v.entry.path (children v)) =
      if (kept v).isEmpty then none else some (.directory v.entry.name v.entry.path (kept v)))
    (hnone : ∀ v ∈ vs, children v = [] → kept v = [])
    (hfiles : ∀ v ∈ files, f (.file v.entry.name v.entry.path) =
      if p v then some (.file v.entry.name v.entry.path) else none) :
    (assemble (vs.map fun v => (v, children v)) files).filterMap f =
      assemble (vs.map fun v => (v, kept v)) (files.filter p) := by
  rw [assemble, assemble, Node.filterMap_sort hf]
  congr 1
  rw [List.filterMap_append, List.filterMap_filterMap, List.filterMap_map, List.filterMap_map,
    List.filterMap_map, ← List.filterMap_eq_map, List.filterMap_filter]
  congr 1
  · apply List.filterMap_congr
    intro v hv
    by_cases hc : children v = []
    · simp [hc, hnone v hv hc]
    · simp [hc, hvs v hv]
  · apply List.filterMap_congr
    intro v hv
    simp [hfiles v hv]

/-- Pruning a directory prunes its subdirectories and leaves out the ignored files. -/
theorem prune_assemble {above : String} {vs files : List VisibleEntry}
    (children : VisibleEntry → List Node)
    (hvs : ∀ v ∈ vs, v.relative = joinRelative above v.entry.name)
    (hfiles : ∀ v ∈ files, v.relative = joinRelative above v.entry.name) :
    prune rules above (assemble (vs.map fun v => (v, children v)) files) =
      assemble (vs.map fun v => (v, prune rules v.relative (children v)))
        (files.filter fun v => !isIgnored rules v.relative) := by
  rw [prune_eq_filterMap]
  apply filterMap_assemble fun _ _ => pruneNode?_keeps
  · intro v hv
    rw [pruneNode?_directory, hvs v hv]
  · intro v _ hc
    rw [hc, prune_eq_filterMap, List.filterMap_nil]
  · intro v hv
    rw [pruneNode?_file, hfiles v hv]
    cases isIgnored rules (joinRelative above v.entry.name) <;> rfl

/-! ### What the rules say below a directory -/

theorem isIgnored_nil (path : String) : isIgnored ([] : List α) path = false := by
  simp [isIgnored, excludes, lastMatch, excludedAncestor]

theorem isOpen_nil (relative : String) : IsOpen ([] : List α) relative :=
  .inr (isIgnored_nil _)

/-- What the rules let through is what there is without the ignored entries. -/
theorem visible_eq_filter {relative : String} (ho : IsOpen rules relative) (entries : List Entry) :
    visible rules relative entries = (visible ([] : List α) relative entries).filter fun v =>
      !isIgnored rules (judgedPath v.entry v.relative) := by
  rw [visible_eq ho, visible_eq (isOpen_nil relative), List.filter_filterMap]
  congr 1
  funext entry
  by_cases hn : entry.name = ""
  · simp [hn]
  · by_cases hi : isIgnored rules (judgedPath entry (joinRelative relative entry.name)) = true
    · simp [hn, hi, isIgnored_nil, Option.filter]
    · simp [hn, hi, isIgnored_nil, Option.filter]

theorem joinRelative_ne_empty (directory : String) {name : String} (hn : name ≠ "") :
    joinRelative directory name ≠ "" := by
  unfold joinRelative
  split
  · exact hn
  · simp [hn]

/-- The rules ignore a directory other than the root. -/
def IsShut (rules : List α) (relative : String) : Prop :=
  relative ≠ "" ∧ isIgnored rules (relative ++ "/") = true

/-- Whatever stands in an ignored directory is ignored, however the rules judge it alone. -/
theorem IsShut.isIgnored {relative : String} (h : IsShut rules relative) {entry : Entry}
    (hn : entry.name ≠ "") :
    isIgnored rules (judgedPath entry (joinRelative relative entry.name)) = true := by
  have hd : relative.toList ≠ [] := by simpa using h.1
  have hp : (judgedPath entry entry.name).toList ≠ [] := by
    unfold judgedPath
    split <;> simp [hn]
  have hshut : FileSieve.isIgnored rules (String.ofList (relative.toList ++ ['/'])) = true := by
    rw [String.ofList_append, String.ofList_toList]
    exact h.2
  have hj : judgedPath entry (joinRelative relative entry.name) =
      String.ofList (relative.toList ++ '/' :: (judgedPath entry entry.name).toList) := by
    unfold judgedPath joinRelative
    rw [if_neg h.1, ← List.singleton_append]
    split <;> simp [String.ofList_append, String.append_assoc]
  rw [hj, isIgnored_append rules hd hp, hshut, Bool.or_true]

theorem IsShut.of_mem_visible {relative : String} (h : IsShut rules relative)
    {entries : List Entry} {v : VisibleEntry} (hv : v ∈ visible ([] : List α) relative entries)
    (hd : v.entry.isDirectory = true) : IsShut rules v.relative := by
  obtain ⟨-, hn, hr⟩ := mem_of_mem_visible hv
  have hi := h.isIgnored hn
  rw [judgedPath, if_pos hd, ← hr] at hi
  exact ⟨hr ▸ joinRelative_ne_empty relative hn, hi⟩

/-! ### Pruning a full scan -/

variable {list : String → Except ListingFailure (List Entry)}

theorem relative_of_mem_view {job : Job} {v : VisibleEntry} (hv : v ∈ view list rules job) :
    v.relative = joinRelative job.relative v.entry.name :=
  (mem_of_mem_visible hv).2.2

theorem prune_treeOf_succ (n : Nat) (job : Job) :
    prune rules job.relative (treeOf list ([] : List α) (n + 1) job) =
      assemble ((directories (view list ([] : List α) job)).map fun v =>
          (v, prune rules v.relative (treeOf list ([] : List α) n (jobOf v))))
        ((files (view list ([] : List α) job)).filter fun v => !isIgnored rules v.relative) := by
  apply prune_assemble
  · intro v hv
    exact relative_of_mem_view (List.mem_of_mem_filter hv)
  · intro v hv
    exact relative_of_mem_view (List.mem_of_mem_filter hv)

/-- Nothing is left of an ignored directory. -/
theorem prune_treeOf_of_isShut (n : Nat) {job : Job} (h : IsShut rules job.relative) :
    prune rules job.relative (treeOf list ([] : List α) n job) = [] := by
  induction n generalizing job with
  | zero => rfl
  | succ n ih =>
    have hfiles : (files (view list ([] : List α) job)).filter
        (fun v => !FileSieve.isIgnored rules v.relative) = [] := by
      apply List.filter_eq_nil_iff.2
      intro v hv
      obtain ⟨hv, hd⟩ := List.mem_filter.1 hv
      obtain ⟨-, hn, hr⟩ := mem_of_mem_visible hv
      have hi := h.isIgnored hn
      rw [judgedPath, if_neg (by simpa using hd), ← hr] at hi
      simp [hi]
    have hdirs := @assemble_filter (directories (view list ([] : List α) job))
      (fun v => prune rules v.relative (treeOf list ([] : List α) n (jobOf v))) (fun _ => false)
      (by
        intro v hv _
        obtain ⟨hv, hd⟩ := List.mem_filter.1 hv
        exact @ih (jobOf v) (h.of_mem_visible hv hd)) []
    rw [prune_treeOf_succ, hfiles, hdirs]
    simp [assemble, Node.sort]

theorem files_view {job : Job} (ho : IsOpen rules job.relative) :
    files (view list rules job) = (files (view list ([] : List α) job)).filter fun v =>
      !isIgnored rules v.relative := by
  rw [view, visible_eq_filter ho, ← view, files, files, List.filter_filter, List.filter_filter]
  apply List.filter_congr
  intro v _
  by_cases hd : v.entry.isDirectory = true <;> simp [hd, judgedPath]

theorem directories_view {job : Job} (ho : IsOpen rules job.relative) :
    directories (view list rules job) = (directories (view list ([] : List α) job)).filter fun v =>
      !isIgnored rules (v.relative ++ "/") := by
  rw [view, visible_eq_filter ho, ← view, directories, directories, List.filter_filter,
    List.filter_filter]
  apply List.filter_congr
  intro v _
  by_cases hd : v.entry.isDirectory = true <;> simp [hd, judgedPath]

/-- Scanning an open directory with rules and pruning a full scan of it come to the same tree. -/
theorem prune_treeOf (n : Nat) {job : Job} (ho : IsOpen rules job.relative) :
    prune rules job.relative (treeOf list ([] : List α) n job) = treeOf list rules n job := by
  induction n generalizing job with
  | zero => rfl
  | succ n ih =>
    have hclosed : ∀ v ∈ directories (view list ([] : List α) job),
        (!isIgnored rules (v.relative ++ "/")) = false →
          prune rules v.relative (treeOf list ([] : List α) n (jobOf v)) = [] := by
      intro v hv hi
      obtain ⟨-, hn, hr⟩ := mem_of_mem_visible (List.mem_of_mem_filter hv)
      have hshut : IsShut rules v.relative :=
        ⟨hr ▸ joinRelative_ne_empty job.relative hn, by simpa using hi⟩
      exact @prune_treeOf_of_isShut _ _ rules list n (jobOf v) hshut
    have hopen : ∀ v ∈ directories (view list rules job),
        prune rules v.relative (treeOf list ([] : List α) n (jobOf v)) =
          treeOf list rules n (jobOf v) := by
      intro v hv
      obtain ⟨hv, hd⟩ := List.mem_filter.1 hv
      exact @ih (jobOf v) (isOpen_of_mem_visible ho hv hd)
    rw [prune_treeOf_succ, assemble_filter hclosed, ← directories_view ho, ← files_view ho, treeOf]
    congr 1
    apply List.map_congr_left
    intro v hv
    rw [hopen v hv]

/-! ### Scans with and without rules -/

theorem outcome_depthFirst (rules : List α) {n : Nat} {root : String}
    (hb : ∀ directory, ¬IsBroken list directory) (hl : HasLevels list n root) :
    (observe list none (depthFirst rules n root)).1 =
      .ok (result root (treeOf list rules n ⟨root, ""⟩)) := by
  rw [observe_eq]
  exact (yields_depthFirst hl fun j _ => hb j.directory).1

/-- A scan with rules comes to the tree of a full scan without the ignored files and without the
directories that hold no other file, and its flat index loses the ignored files only. -/
theorem depthFirst_eq_filtered (rules : List α) {n : Nat} {root : String}
    (hb : ∀ directory, ¬IsBroken list directory) (hl : HasLevels list n root) :
    ∃ whole kept,
      (observe list none (depthFirst ([] : List α) n root)).1 = .ok whole ∧
      (observe list none (depthFirst rules n root)).1 = .ok kept ∧
      kept.root = whole.root ∧
      kept.tree = filled (keepFiles (fun path => !isIgnored rules path) "" whole.tree) ∧
      whole.files = (located "" whole.tree).map Prod.snd ∧
      kept.files =
        ((located "" whole.tree).filter fun file => !isIgnored rules file.1).map Prod.snd := by
  have htree := @prune_treeOf _ _ rules list n ⟨root, ""⟩ (.inl rfl)
  refine ⟨_, _, outcome_depthFirst [] hb hl, outcome_depthFirst rules hb hl, rfl, htree.symm,
    flatFiles_eq_located "" _, ?_⟩
  rw [result, ← htree, flatFiles_eq_located "", prune, located_filled, located_keepFiles]
  rfl

theorem depthFirst_eq_filtered_negated :
    let c : Catalogue := { directories := [
      ("/r", [⟨"z.log", false, "/r/z.log"⟩, ⟨"out", true, "/r/out"⟩, ⟨"b.txt", false, "/r/b.txt"⟩]),
      ("/r/out", [⟨"b.txt", false, "/r/out/b.txt"⟩])] }
    let rules := compileRules ["*.log", "out/", "!out/b.txt"]
    (∀ directory, ¬IsBroken c.list directory) ∧ HasLevels c.list 2 "/r" ∧
      ∃ whole kept,
        (observe c.list none (depthFirst ([] : List Rule) 2 "/r")).1 = .ok whole ∧
        (observe c.list none (depthFirst rules 2 "/r")).1 = .ok kept ∧
        kept.root = whole.root ∧
        kept.tree = filled (keepFiles (fun path => !isIgnored rules path) "" whole.tree) ∧
        whole.files = (located "" whole.tree).map Prod.snd ∧
        kept.files =
          ((located "" whole.tree).filter fun file => !isIgnored rules file.1).map Prod.snd := by
  intro c rules
  have hb : ∀ directory, ¬IsBroken c.list directory := not_isBroken_catalogue (by simp [c])
  have hl : HasLevels c.list 2 "/r" := by
    simp [HasLevels, entriesOf, c, Catalogue.list, List.lookup_cons, List.lookup_nil]
  exact ⟨hb, hl, depthFirst_eq_filtered rules hb hl⟩

end FileSieve.Scan
