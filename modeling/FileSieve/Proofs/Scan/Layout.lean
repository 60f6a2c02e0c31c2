import FileSieve.Proofs.Scan.Observation

/-! # The directories that a scan reaches

Listings that stay the same lay out a tree below each directory. A scan reaches the part of it that
the rules let through, and a depth-first scan comes to the nodes of that part. -/

namespace FileSieve.Scan

open Program

variable {α : Type} [PathRule α] (list : String → Except ListingFailure (List Entry))
  (rules : List α)

/-- The listing of a directory goes wrong, which stops a scan. -/
def IsBroken (directory : String) : Prop :=
  ∃ reason, list directory = .error (.broken reason)

/-- The entries of a directory; without a listing there are none. -/
def entriesOf (directory : String) : List Entry :=
  match list directory with
  | .ok entries => entries
  | .error _ => []

/-- There are at most so many levels of directories at and below a directory. -/
def HasLevels : Nat → String → Prop
  | 0, _ => False
  | n + 1, directory => ∀ entry ∈ entriesOf list directory,
      entry.isDirectory = true → entry.name ≠ "" → HasLevels n entry.path

/-- What the rules let through of the directory of a job. -/
def view (job : Job) : List VisibleEntry :=
  visible rules job.relative (entriesOf list job.directory)

/-- The job for a visible directory. -/
def jobOf (v : VisibleEntry) : Job := ⟨v.entry.path, v.relative⟩

/-- The job and those for everything that is reached from it, in pre-order. -/
def reached : Nat → Job → List Job
  | 0, _ => []
  | n + 1, job => job :: (jobsFor (view list rules job)).flatMap (reached n)

/-- The nodes in the directory of a job. -/
def treeOf : Nat → Job → List Node
  | 0, _ => []
  | n + 1, job =>
    assemble ((directories (view list rules job)).map fun v => (v, treeOf n (jobOf v)))
      (files (view list rules job))

/-- The record about a directory that cannot be read. -/
def warning (directory reason : String) : Log.Record :=
  ⟨.warning, "Cannot read directory " ++ directory ++ ": " ++ reason⟩

/-- The requests by which a directory is read. -/
def readRequests (job : Job) : List Request :=
  .list job.directory ::
    match list job.directory with
    | .error (.unreadable reason) => [.log (warning job.directory reason)]
    | _ => []

variable {list rules}

theorem mem_of_mem_visible {relative : String} {entries : List Entry} {v : VisibleEntry}
    (h : v ∈ visible rules relative entries) :
    v.entry ∈ entries ∧ v.entry.name ≠ "" ∧ v.relative = joinRelative relative v.entry.name := by
  obtain ⟨entry, he, hv⟩ := List.mem_filterMap.1 h
  split at hv
  · cases hv
  · next hn =>
    cases hv
    refine ⟨he, ?_, rfl⟩
    intro hname
    exact hn (by simp [show entry.name = "" from hname])

theorem HasLevels.of_mem_view {n : Nat} {job : Job} (h : HasLevels list (n + 1) job.directory)
    {v : VisibleEntry} (hv : v ∈ directories (view list rules job)) :
    HasLevels list n v.entry.path := by
  obtain ⟨hv, hd⟩ := List.mem_filter.1 hv
  obtain ⟨he, hn, -⟩ := mem_of_mem_visible hv
  exact h v.entry he hd hn

theorem jobsFor_eq (entries : List VisibleEntry) :
    jobsFor entries = (directories entries).map jobOf := rfl

theorem mem_reached_succ {n : Nat} {job j : Job} :
    j ∈ reached list rules (n + 1) job ↔
      j = job ∨ ∃ v ∈ directories (view list rules job), j ∈ reached list rules n (jobOf v) := by
  rw [reached, jobsFor_eq, List.flatMap_map, List.mem_cons, List.mem_flatMap]

/-- Directories of a catalogue that at worst cannot be read do not stop a scan. -/
theorem not_isBroken_catalogue {c : Catalogue}
    (h : ∀ row ∈ c.failures, ∃ reason, row.2 = .unreadable reason) (directory : String) :
    ¬IsBroken c.list directory := by
  intro hbroken
  obtain ⟨reason, hbroken⟩ := hbroken
  rw [Catalogue.list] at hbroken
  cases hf : c.failures.lookup directory with
  | none => simp [hf] at hbroken
  | some failure =>
    obtain ⟨front, back, hc, -⟩ := List.lookup_eq_some_iff.1 hf
    obtain ⟨other, hfailure⟩ := h (directory, failure) (by simp [hc])
    obtain rfl : failure = .unreadable other := hfailure
    simp [hf] at hbroken

/-! ### Reading a directory -/

theorem yields_readVisible {job : Job} (h : ¬IsBroken list job.directory) :
    Yields list (readVisible rules job.directory job.relative) (view list rules job)
      (readRequests list job) := by
  cases hd : list job.directory with
  | ok entries =>
    simp only [Yields, outcome, requests, readVisible, ExceptT.run_mk, eval_bind, asked_bind,
      eval_askListing, asked_askListing, hd, eval_pure, asked_pure, view, entriesOf, readRequests,
      List.append_nil, and_self]
  | error failure =>
    cases failure with
    | unreadable reason =>
      simp only [Yields, outcome, requests, readVisible, ExceptT.run_mk, eval_bind, asked_bind,
        eval_askListing, asked_askListing, asked_sendLog, hd, eval_pure, asked_pure, view, entriesOf,
        readRequests]
      exact ⟨rfl, rfl⟩
    | broken reason => exact absurd ⟨reason, hd⟩ h

theorem fails_readVisible {job : Job} (h : IsBroken list job.directory) :
    Fails list (readVisible rules job.directory job.relative) := by
  obtain ⟨reason, h⟩ := h
  refine ⟨reason, ?_⟩
  simp only [outcome, readVisible, ExceptT.run_mk, eval_bind, eval_askListing, h, eval_pure]

/-! ### Scanning depth first -/

theorem yields_depthFirstNodes {n : Nat} {job : Job} (hl : HasLevels list n job.directory)
    (hb : ∀ j ∈ reached list rules n job, ¬IsBroken list j.directory) :
    Yields list (depthFirstNodes rules n job.directory job.relative) (treeOf list rules n job)
      ((reached list rules n job).flatMap (readRequests list)) := by
  induction n generalizing job with
  | zero => exact hl.elim
  | succ n ih =>
    have hread := @yields_readVisible _ _ _ rules _ (hb job (mem_reached_succ.2 (.inl rfl)))
    have hsub : ∀ v ∈ directories (view list rules job),
        Yields list
          (do
            let children ← depthFirstNodes rules n v.entry.path v.relative
            return (v, children))
          (v, treeOf list rules n (jobOf v))
          ((reached list rules n (jobOf v)).flatMap (readRequests list)) := by
      intro v hv
      have hnodes := @ih (jobOf v) (hl.of_mem_view hv)
        fun j hj => hb j (mem_reached_succ.2 (.inr ⟨v, hv, hj⟩))
      exact hnodes.map fun children => (v, children)
    have hsent : (reached list rules (n + 1) job).flatMap (readRequests list) =
        readRequests list job ++ (directories (view list rules job)).flatMap fun v =>
          (reached list rules n (jobOf v)).flatMap (readRequests list) := by
      rw [reached, List.flatMap_cons, jobsFor_eq, List.flatMap_map, List.flatMap_assoc]
    rw [hsent, depthFirstNodes, treeOf]
    exact hread.bind ((Yields.mapM hsub).map _)

theorem fails_depthFirstNodes {n : Nat} {job : Job} (hl : HasLevels list n job.directory)
    (hb : ∃ j ∈ reached list rules n job, IsBroken list j.directory) :
    Fails list (depthFirstNodes rules n job.directory job.relative) := by
  induction n generalizing job with
  | zero => exact hl.elim
  | succ n ih =>
    rw [depthFirstNodes]
    by_cases hjob : IsBroken list job.directory
    · exact (fails_readVisible hjob).bind _
    · apply (yields_readVisible hjob).bind_fails
      apply Fails.bind
      apply Fails.mapM
      · intro v hv
        by_cases hv' : ∃ j ∈ reached list rules n (jobOf v), IsBroken list j.directory
        · exact .inl ((@ih (jobOf v) (hl.of_mem_view hv) hv').bind _)
        · have hnodes := @yields_depthFirstNodes _ _ _ rules n (jobOf v) (hl.of_mem_view hv)
            fun j hj hbj => hv' ⟨j, hj, hbj⟩
          exact .inr ⟨_, _, hnodes.map _⟩
      · obtain ⟨j, hj, hbj⟩ := hb
        rcases mem_reached_succ.1 hj with rfl | ⟨v, hv, hj⟩
        · exact absurd hbj hjob
        · exact ⟨v, hv, (@ih (jobOf v) (hl.of_mem_view hv) ⟨j, hj, hbj⟩).bind _⟩

/-- The record about a finished scan without workers. -/
def finishedRecord (found : ScanResult) : Log.Record :=
  ⟨.info, "Scanned " ++ found.root ++ ": " ++ toString found.files.length ++ " files visible"⟩

theorem yields_depthFirst {n : Nat} {root : String} (hl : HasLevels list n root)
    (hb : ∀ j ∈ reached list rules n ⟨root, ""⟩, ¬IsBroken list j.directory) :
    Yields list (depthFirst rules n root) (result root (treeOf list rules n ⟨root, ""⟩))
      ((reached list rules n ⟨root, ""⟩).flatMap (readRequests list) ++
        [.log (finishedRecord (result root (treeOf list rules n ⟨root, ""⟩)))]) := by
  have hnodes := @yields_depthFirstNodes _ _ _ rules n ⟨root, ""⟩ hl hb
  exact hnodes.bind ((yields_sendLog _ _).map _)

theorem fails_depthFirst {n : Nat} {root : String} (hl : HasLevels list n root)
    (hb : ∃ j ∈ reached list rules n ⟨root, ""⟩, IsBroken list j.directory) :
    Fails list (depthFirst rules n root) :=
  (@fails_depthFirstNodes _ _ _ rules n ⟨root, ""⟩ hl hb).bind _

end FileSieve.Scan
