import FileSieve.Proofs.Scan.Filtering
import FileSieve.Proofs.Scan.Places

/-! # Which files a scan shows

A scan shows a file that stands in a directory which is reached without rules, if and only if the
rules do not ignore the file under its path from the root. -/

namespace FileSieve.Scan

open FileSieve.Tree
open Host.Model (entryPath)

variable {α : Type} [PathRule α] {list : String → Except ListingFailure (List Entry)}
  {rules : List α} {root : String}

/-! ### Reached directories -/

theorem mem_reached_self {n : Nat} {job : Job} (hl : HasLevels list n job.directory) :
    job ∈ reached list rules n job := by
  cases n with
  | zero => exact hl.elim
  | succ n => exact mem_reached_succ.2 (.inl rfl)

theorem mem_reached_enter {n : Nat} {job other : Job} (hl : HasLevels list n job.directory)
    (ho : other ∈ reached list rules n job) {v : VisibleEntry}
    (hv : v ∈ directories (view list rules other)) : jobOf v ∈ reached list rules n job := by
  induction n generalizing job with
  | zero => exact hl.elim
  | succ n ih =>
    rcases mem_reached_succ.1 ho with rfl | ⟨w, hw, ho⟩
    · exact mem_reached_succ.2 (.inr ⟨v, hv, mem_reached_self (hl.of_mem_view hv)⟩)
    · exact mem_reached_succ.2 (.inr ⟨w, hw, @ih (jobOf w) (hl.of_mem_view hw) ho⟩)

theorem Reaches.mem_reached {n : Nat} (hl : HasLevels list n root) {job : Job}
    (h : Reaches list rules root job) : job ∈ reached list rules n ⟨root, ""⟩ := by
  induction h with
  | root => exact mem_reached_self hl
  | enter _ hv ih => exact mem_reached_enter hl ih hv

theorem Reaches.of_mem_reached {n : Nat} {job other : Job} (h : Reaches list rules root job)
    (ho : other ∈ reached list rules n job) : Reaches list rules root other := by
  induction n generalizing job with
  | zero => cases ho
  | succ n ih =>
    rcases mem_reached_succ.1 ho with rfl | ⟨v, hv, ho⟩
    · exact h
    · exact ih (h.enter hv) ho

/-! ### Files with their places -/

theorem mem_located_iff {above : String} {tree : List Node} {file : String × FlatFile} :
    file ∈ located above tree ↔ ∃ node ∈ tree, file ∈ locatedNode above node := by
  induction tree with
  | nil => simp [located]
  | cons node rest ih => simp [located, ih]

theorem mem_located_treeOf {n : Nat} {job : Job} {file : String × FlatFile} :
    file ∈ located job.relative (treeOf list rules n job) ↔
      ∃ other ∈ reached list rules n job, ∃ v ∈ files (view list rules other),
        file = (v.relative, ⟨v.entry.name, v.entry.path⟩) := by
  induction n generalizing job with
  | zero => simp [treeOf, reached, located]
  | succ n ih =>
    rw [mem_located_iff]
    constructor
    · rintro ⟨node, hnode, hfile⟩
      rcases mem_treeOf_succ.1 hnode with ⟨v, hv, -, rfl⟩ | ⟨v, hv, rfl⟩
      · rw [locatedNode, ← relative_of_mem_view (List.mem_of_mem_filter hv)] at hfile
        obtain ⟨other, ho, hother⟩ := (@ih (jobOf v)).1 hfile
        exact ⟨other, mem_reached_succ.2 (.inr ⟨v, hv, ho⟩), hother⟩
      · rw [locatedNode, List.mem_singleton, ← relative_of_mem_view (List.mem_of_mem_filter hv)]
          at hfile
        exact ⟨job, mem_reached_succ.2 (.inl rfl), v, hv, hfile⟩
    · rintro ⟨other, ho, v, hv, rfl⟩
      rcases mem_reached_succ.1 ho with rfl | ⟨w, hw, ho⟩
      · refine ⟨.file v.entry.name v.entry.path, mem_treeOf_succ.2 (.inr ⟨v, hv, rfl⟩), ?_⟩
        rw [locatedNode, ← relative_of_mem_view (List.mem_of_mem_filter hv)]
        exact List.mem_singleton_self _
      · have hfile := (@ih (jobOf w)).2 ⟨other, ho, v, hv, rfl⟩
        refine ⟨_, mem_treeOf_succ.2 (.inl ⟨w, hw, ?_, rfl⟩), ?_⟩
        · intro hnone
          rw [hnone] at hfile
          cases hfile
        · rw [locatedNode, ← relative_of_mem_view (List.mem_of_mem_filter hw)]
          exact hfile

/-- The path of a file is that of the root followed by its place. -/
theorem path_of_mem_located (hl : Nested list) {n : Nat} {place : String} {file : FlatFile}
    (h : (place, file) ∈ located "" (treeOf list rules n ⟨root, ""⟩)) :
    file.path = entryPath root place := by
  obtain ⟨other, ho, v, hv, hfile⟩ := (@mem_located_treeOf _ _ list rules n ⟨root, ""⟩ _).1 h
  cases hfile
  have hreaches : Reaches list rules root other := Reaches.root.of_mem_reached ho
  obtain ⟨he, -, hrel⟩ := mem_of_mem_visible (List.mem_of_mem_filter hv)
  rw [hrel]
  exact (hreaches.stands hl).path_eq hl he

/-- A file in a directory that is reached without rules is shown if the rules do not ignore it. -/
theorem path_mem_files_iff {n : Nat} (hn : Nested list) (hl : HasLevels list n root) {job : Job}
    (hj : Reaches list ([] : List α) root job) {entry : Entry}
    (he : entry ∈ entriesOf list job.directory) (hd : entry.isDirectory = false)
    (hname : entry.name ≠ "") :
    entry.path ∈ (result root (treeOf list rules n ⟨root, ""⟩)).files.map FlatFile.path ↔
      isIgnored rules (joinRelative job.relative entry.name) = false := by
  let whole := located "" (treeOf list ([] : List α) n ⟨root, ""⟩)
  have htree := @prune_treeOf _ _ rules list n ⟨root, ""⟩ (.inl rfl)
  have hfiles : (result root (treeOf list rules n ⟨root, ""⟩)).files =
      (whole.filter fun file => !isIgnored rules file.1).map Prod.snd := by
    rw [result, ← htree, flatFiles_eq_located "", prune, located_filled, located_keepFiles]
  have hentry : (joinRelative job.relative entry.name, (⟨entry.name, entry.path⟩ : FlatFile)) ∈
      whole := by
    apply (@mem_located_treeOf _ _ list ([] : List α) n ⟨root, ""⟩ _).2
    refine ⟨job, hj.mem_reached hl, ⟨entry, joinRelative job.relative entry.name⟩, ?_, rfl⟩
    rw [files, List.mem_filter, view, visible_eq (isOpen_nil job.relative), List.mem_filterMap]
    refine ⟨⟨entry, he, ?_⟩, by simp [hd]⟩
    simp [hname, isIgnored_nil]
  have hpath := (hj.stands hn).path_eq hn he
  rw [hfiles, List.map_map, List.mem_map]
  constructor
  · rintro ⟨⟨place, file⟩, hfile, hsame⟩
    obtain ⟨hfile, hkept⟩ := List.mem_filter.1 hfile
    have hplace : entryPath root place = entryPath root (joinRelative job.relative entry.name) := by
      rw [← hpath, ← path_of_mem_located hn hfile]
      exact hsame
    rw [← entryPath_inj hplace]
    simpa using hkept
  · intro hkept
    exact ⟨_, List.mem_filter.2 ⟨hentry, by simp [hkept]⟩, rfl⟩

end FileSieve.Scan
