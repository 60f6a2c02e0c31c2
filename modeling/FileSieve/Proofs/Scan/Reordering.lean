import FileSieve.Proofs.Scan.Directories

/-! # The order in which directories are listed

Entries may be listed in any order. Siblings are sorted, and where names are distinct their order
tells any two of them apart, so a scan comes to the same result. -/

namespace FileSieve.Scan

variable {α : Type} [PathRule α] {list other : String → Except ListingFailure (List Entry)}
  {rules : List α} {root : String}

/-- Two outcomes of a listing that differ at most in the order of the entries. -/
inductive Reordered :
    Except ListingFailure (List Entry) → Except ListingFailure (List Entry) → Prop
  | ok {entries others : List Entry} (h : entries.Perm others) : Reordered (.ok entries) (.ok others)
  | error (failure : ListingFailure) : Reordered (.error failure) (.error failure)

theorem reordered_reverse (listed : Except ListingFailure (List Entry)) :
    Reordered listed (listed.map List.reverse) := by
  cases listed with
  | ok entries => exact .ok entries.reverse_perm.symm
  | error failure => exact .error failure

theorem Reordered.isBroken_iff {directory : String}
    (h : Reordered (list directory) (other directory)) :
    IsBroken other directory ↔ IsBroken list directory := by
  unfold IsBroken
  generalize list directory = listed, other directory = listed' at h ⊢
  cases h with
  | ok h => simp
  | error failure => exact Iff.rfl

theorem Reordered.entries_perm {directory : String}
    (h : Reordered (list directory) (other directory)) :
    (entriesOf other directory).Perm (entriesOf list directory) := by
  unfold entriesOf
  generalize list directory = listed, other directory = listed' at h
  cases h with
  | ok h => exact h.symm
  | error failure => exact .refl _

/-! ### Reached directories -/

section

variable (hr : ∀ directory, Reordered (list directory) (other directory))

include hr

theorem view_perm (job : Job) : (view other rules job).Perm (view list rules job) :=
  (hr job.directory).entries_perm.filterMap _

theorem directories_perm (job : Job) :
    (directories (view other rules job)).Perm (directories (view list rules job)) :=
  (view_perm hr job).filter _

/-- The same directories are reached, in some order. -/
theorem reached_perm (n : Nat) (job : Job) :
    (reached other rules n job).Perm (reached list rules n job) := by
  induction n generalizing job with
  | zero => exact .refl _
  | succ n ih =>
    rw [reached, reached, jobsFor_eq, jobsFor_eq]
    apply List.Perm.cons
    exact ((directories_perm hr job).map jobOf).flatMap fun job _ => ih job

end

/-! ### The tree -/

/-- The names in a directory are those of its directories and those of its files. -/
theorem nodup_names_split {job : Job} (hd : ((entriesOf list job.directory).map Entry.name).Nodup) :
    (((directories (view list rules job)).map fun v => v.entry.name) ++
      (files (view list rules job)).map fun v => v.entry.name).Nodup := by
  have hsplit := (List.filter_append_perm (fun v => v.entry.isDirectory)
    (view list rules job)).map fun v => v.entry.name
  rw [List.map_append] at hsplit
  exact hsplit.nodup_iff.2 (nodup_names_view hd)

section

variable {subtrees subtrees' : List (VisibleEntry × List Node)} {shown shown' : List VisibleEntry}
  (hd : ((subtrees.map fun s => s.1.entry.name) ++ shown.map fun v => v.entry.name).Nodup)

include hd

theorem nodup_labels_assemble : ((assemble subtrees shown).map Node.label).Nodup := by
  rw [assemble, ((Node.sort_perm _).map Node.label).nodup_iff, List.map_append, List.map_map]
  refine (List.Sublist.append (map_filterMap_sublist ?_ _) (.refl _)).nodup hd
  intro subtree node hnode
  dsimp only at hnode
  split at hnode
  · cases hnode
  · cases hnode
    rfl

/-- A directory is put together in one way only where names are distinct. -/
theorem assemble_eq_of_perm (hs : subtrees.Perm subtrees') (hf : shown.Perm shown') :
    assemble subtrees shown = assemble subtrees' shown' := by
  apply Node.sort_eq_of_perm ((hs.filterMap _).append (hf.map _))
  exact ((Node.sort_perm _).map Node.label).nodup_iff.1 (nodup_labels_assemble hd)

end

/-- Subtrees are the same below, so that the nodes of a directory are the same in some order. -/
theorem treeOf_reordered (hr : ∀ directory, Reordered (list directory) (other directory))
    (hd : ∀ job, HasDirectory list root job →
      ((entriesOf list job.directory).map Entry.name).Nodup)
    (n : Nat) {job : Job} (hj : Reaches list rules root job) :
    treeOf other rules n job = treeOf list rules n job := by
  induction n generalizing job with
  | zero => rfl
  | succ n ih =>
    -- the subtrees are the same by now, so that only the nodes of this directory are in question
    have hbelow : (directories (view list rules job)).map
        (fun v => (v, treeOf other rules n (jobOf v))) =
        (directories (view list rules job)).map fun v => (v, treeOf list rules n (jobOf v)) := by
      apply List.map_congr_left
      intro v hv
      rw [ih (hj.enter hv)]
    rw [treeOf, treeOf, ← hbelow]
    symm
    refine assemble_eq_of_perm ?_ ((directories_perm hr job).symm.map _)
      ((view_perm hr job).symm.filter _)
    rw [List.map_map]
    exact nodup_names_split (hd job hj.hasDirectory)

/-! ### Whole scans -/

/-- In whatever order the entries of directories are listed, scans with and without workers come to
the same result, or fail in the same cases. With workers this takes that no two directories that are
reached have one path. -/
theorem scans_reordered (rules : List α) {n : Nat} {root : String}
    (hr : ∀ directory, Reordered (list directory) (other directory)) (hl : HasLevels list n root)
    (hd : ∀ job, HasDirectory list root job →
      ((entriesOf list job.directory).map Entry.name).Nodup) :
    let alone := fun list => (observe list none (depthFirst rules n root)).1
    let shared := fun list schedule workers =>
      (observe list none (byLevels rules schedule workers n root)).1
    let jobs := reached list rules n ⟨root, ""⟩
    ((∀ job ∈ jobs, ¬IsBroken list job.directory) →
      ∃ found, (alone list = .ok found ∧ alone other = .ok found) ∧
        ((jobs.map Job.directory).Nodup → ∀ schedule workers,
          shared list schedule workers = .ok (some found) ∧
            shared other schedule workers = .ok (some found))) ∧
    ((∃ job ∈ jobs, IsBroken list job.directory) →
      ((∃ fault, alone list = .error fault) ∧ ∃ fault, alone other = .error fault) ∧
        ∀ schedule workers, (∃ fault, shared list schedule workers = .error fault) ∧
          ∃ fault, shared other schedule workers = .error fault) := by
  intro alone shared jobs
  have hl' : HasLevels other n root := hl.of_subset fun d => (hr d).entries_perm.subset
  have hjobs : (reached other rules n ⟨root, ""⟩).Perm jobs := reached_perm hr n ⟨root, ""⟩
  have htree : treeOf other rules n ⟨root, ""⟩ = treeOf list rules n ⟨root, ""⟩ :=
    treeOf_reordered hr hd n .root
  constructor
  · intro hb
    have hb' : ∀ job ∈ reached other rules n ⟨root, ""⟩, ¬IsBroken other job.directory := by
      intro job hj
      rw [(hr job.directory).isBroken_iff]
      exact hb job (hjobs.subset hj)
    refine ⟨result root (treeOf list rules n ⟨root, ""⟩), ⟨(observe_depthFirst hl hb).1, ?_⟩, ?_⟩
    · rw [← htree]
      exact (observe_depthFirst hl' hb').1
    · intro hn schedule workers
      have hn' := (hjobs.map Job.directory).nodup_iff.2 hn
      refine ⟨(observe_byLevels schedule workers hl hn hb).1, ?_⟩
      rw [← htree]
      exact (observe_byLevels schedule workers hl' hn' hb').1
  · intro hb
    have hb' : ∃ job ∈ reached other rules n ⟨root, ""⟩, IsBroken other job.directory := by
      obtain ⟨job, hj, hbroken⟩ := hb
      exact ⟨job, hjobs.symm.subset hj, (hr job.directory).isBroken_iff.2 hbroken⟩
    refine ⟨⟨error_of_fails (fails_depthFirst hl hb), error_of_fails (fails_depthFirst hl' hb')⟩, ?_⟩
    intro schedule workers
    exact ⟨error_of_fails (fails_byLevels schedule workers hl hb),
      error_of_fails (fails_byLevels schedule workers hl' hb')⟩

theorem scans_reordered_reverse :
    let c : Catalogue := { directories := [
      ("/r", [⟨"B.txt", false, "/r/B.txt"⟩, ⟨"a", true, "/r/a"⟩, ⟨"b.txt", false, "/r/b.txt"⟩,
        ⟨"A", true, "/r/A"⟩]),
      ("/r/a", [⟨"d.txt", false, "/r/a/d.txt"⟩, ⟨"c.log", false, "/r/a/c.log"⟩]),
      ("/r/A", [⟨"e.txt", false, "/r/A/e.txt"⟩, ⟨"E.txt", false, "/r/A/E.txt"⟩])] }
    let reversed := fun directory => (c.list directory).map List.reverse
    let rules := compileRules ["*.log"]
    let alone := fun list => (observe list none (depthFirst rules 2 "/r")).1
    let shared := fun list schedule workers =>
      (observe list none (byLevels rules schedule workers 2 "/r")).1
    let jobs := reached c.list rules 2 ⟨"/r", ""⟩
    (∀ directory, Reordered (c.list directory) (reversed directory)) ∧ HasLevels c.list 2 "/r" ∧
      (∀ job, HasDirectory c.list "/r" job →
        ((entriesOf c.list job.directory).map Entry.name).Nodup) ∧
      (∀ job ∈ jobs, ¬IsBroken c.list job.directory) ∧ (jobs.map Job.directory).Nodup ∧
      ∃ found, (alone c.list = .ok found ∧ alone reversed = .ok found) ∧
        ∀ schedule workers, shared c.list schedule workers = .ok (some found) ∧
          shared reversed schedule workers = .ok (some found) := by
  intro c reversed rules alone shared jobs
  have hr : ∀ directory, Reordered (c.list directory) (reversed directory) :=
    fun directory => reordered_reverse _
  have ht : IsTree c.list "/r" := isTree_catalogue "/r" (by decide +kernel)
  have hl : HasLevels c.list 2 "/r" := by
    simp [HasLevels, entriesOf, c, Catalogue.list, List.lookup_cons, List.lookup_nil]
  have hb : ∀ job ∈ jobs, ¬IsBroken c.list job.directory :=
    (readable_catalogue rfl "/r").not_isBroken hl
  have hn : (jobs.map Job.directory).Nodup := ht.nodup_reached 2
  clear_value reversed c rules
  obtain ⟨found, halone, hshared⟩ := (scans_reordered rules hr hl ht.distinct).1 hb
  exact ⟨hr, hl, ht.distinct, hb, hn, found, halone, hshared hn⟩

end FileSieve.Scan
