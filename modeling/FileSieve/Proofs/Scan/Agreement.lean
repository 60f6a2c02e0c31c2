import FileSieve.Proofs.Scan.LevelOrder

/-! # Both ways of scanning agree

With workers or without, in whatever order the workers get through their jobs, a scan comes to the
same result, lists the same directories and warns of the same ones, or fails in the same cases. -/

namespace FileSieve.Scan

variable {α : Type} [PathRule α] {list : String → Except ListingFailure (List Entry)}

/-- Whether a record is a warning. -/
def isWarning (record : Log.Record) : Bool :=
  record.level = .warning

/-- The warnings among the records of a transcript. -/
def warnings (t : Transcript) : List Log.Record :=
  t.log.filter isWarning

theorem calls_noted (sent : List Request) :
    (noted {} sent).calls = sent.filterMap Request.listed? := rfl

theorem warnings_noted (sent : List Request) :
    warnings (noted {} sent) = (sent.filterMap Request.logged?).filter isWarning := rfl

theorem filterMap_listed?_replicate (polls : Nat) :
    (List.replicate polls Request.cancelled).filterMap Request.listed? = [] := by
  simp [List.filterMap_replicate, Request.listed?]

theorem filterMap_logged?_replicate (polls : Nat) :
    (List.replicate polls Request.cancelled).filterMap Request.logged? = [] := by
  simp [List.filterMap_replicate, Request.logged?]

theorem filter_isWarning_concat {read : List Request} {record : Log.Record}
    (h : isWarning record = false) :
    ((read ++ [Request.log record]).filterMap Request.logged?).filter isWarning =
      (read.filterMap Request.logged?).filter isWarning := by
  simp [List.filterMap_append, Request.logged?, h]

/-- Polls and a closing record that is no warning make no difference to the directories listed and
to the warnings. -/
theorem observed_perm {sent read : List Request} {polls : Nat} {record record' : Log.Record}
    (hs : sent.Perm (List.replicate polls .cancelled ++ (read ++ [.log record])))
    (hr : isWarning record = false) (hr' : isWarning record' = false) :
    (noted {} sent).calls.Perm (noted {} (read ++ [.log record'])).calls ∧
      (warnings (noted {} sent)).Perm (warnings (noted {} (read ++ [.log record']))) := by
  constructor
  · have h := hs.filterMap Request.listed?
    rw [List.filterMap_append, List.filterMap_append, filterMap_listed?_replicate] at h
    rw [calls_noted, calls_noted, List.filterMap_append]
    exact h
  · have h := (hs.filterMap Request.logged?).filter isWarning
    rw [List.filterMap_append, filterMap_logged?_replicate, List.nil_append,
      filter_isWarning_concat hr] at h
    rw [warnings_noted, warnings_noted, filter_isWarning_concat hr']
    exact h

theorem error_of_fails {β : Type} {scan : Scanning β} (h : Fails list scan) :
    ∃ fault, (observe list none scan).1 = .error fault := by
  obtain ⟨reason, h⟩ := h
  rw [observe_eq]
  exact ⟨_, h⟩

theorem no_error_of_yields {β : Type} {scan : Scanning β} {value : β} {sent : List Request}
    (h : Yields list scan value sent) :
    ¬∃ fault, (observe list none scan).1 = .error fault := by
  intro h
  obtain ⟨fault, hf⟩ := h
  rw [observe_eq, h.1] at hf
  cases hf

/-! ### What is seen of a scan that comes to a result -/

theorem listed_readRequests (jobs : List Job) :
    (jobs.flatMap (readRequests list)).filterMap Request.listed? = jobs.map Job.directory := by
  induction jobs with
  | nil => rfl
  | cons job jobs ih =>
    have hjob : (readRequests list job).filterMap Request.listed? = [job.directory] := by
      unfold readRequests
      split <;> rfl
    rw [List.flatMap_cons, List.filterMap_append, hjob, ih, List.map_cons, List.singleton_append]

/-- The record about a directory, if it cannot be read. -/
def warning? (list : String → Except ListingFailure (List Entry)) (directory : String) :
    Option Log.Record :=
  match list directory with
  | .error (.unreadable reason) => some (warning directory reason)
  | _ => none

theorem warnings_readRequests (jobs : List Job) :
    ((jobs.flatMap (readRequests list)).filterMap Request.logged?).filter isWarning =
      (jobs.map Job.directory).filterMap (warning? list) := by
  induction jobs with
  | nil => rfl
  | cons job jobs ih =>
    have hjob : ((readRequests list job).filterMap Request.logged?).filter isWarning =
        (warning? list job.directory).toList := by
      unfold readRequests warning?
      cases list job.directory with
      | ok entries => rfl
      | error failure => cases failure <;> rfl
    rw [List.flatMap_cons, List.filterMap_append, List.filter_append, hjob, ih, List.map_cons,
      List.filterMap_cons]
    cases warning? list job.directory <;> rfl

/-- A depth-first scan lists what it reaches and warns of what cannot be read, in pre-order. -/
theorem observe_depthFirst {rules : List α} {n : Nat} {root : String} (hl : HasLevels list n root)
    (hb : ∀ job ∈ reached list rules n ⟨root, ""⟩, ¬IsBroken list job.directory) :
    let seen := observe list none (depthFirst rules n root)
    let directories := (reached list rules n ⟨root, ""⟩).map Job.directory
    seen.1 = .ok (result root (treeOf list rules n ⟨root, ""⟩)) ∧ seen.2.calls = directories ∧
      warnings seen.2 = directories.filterMap (warning? list) := by
  intro seen directories
  have hs := yields_depthFirst hl hb
  have hseen : seen = _ := observe_eq _
  refine ⟨?_, ?_, ?_⟩
  · rw [hseen]
    exact hs.1
  · rw [hseen, hs.2, calls_noted, List.filterMap_append, listed_readRequests]
    exact List.append_nil _
  · rw [hseen, hs.2, warnings_noted, filter_isWarning_concat rfl, warnings_readRequests]

/-- With workers the same is listed and warned of, in some order. -/
theorem observe_byLevels {rules : List α} (schedule : Schedule) (workers : Int) {n : Nat}
    {root : String} (hl : HasLevels list n root)
    (hd : ((reached list rules n ⟨root, ""⟩).map Job.directory).Nodup)
    (hb : ∀ job ∈ reached list rules n ⟨root, ""⟩, ¬IsBroken list job.directory) :
    let seen := observe list none (byLevels rules schedule workers n root)
    let directories := (reached list rules n ⟨root, ""⟩).map Job.directory
    seen.1 = .ok (some (result root (treeOf list rules n ⟨root, ""⟩))) ∧
      seen.2.calls.Perm directories ∧
      (warnings seen.2).Perm (directories.filterMap (warning? list)) := by
  intro seen directories
  obtain ⟨sent, hs, hsent⟩ := yields_byLevels schedule workers hl hd hb
  have hseen : seen = _ := observe_eq _
  have hperm := @observed_perm sent _ _ _ ⟨.info, ""⟩ hsent rfl rfl
  rw [calls_noted, calls_noted, warnings_noted, warnings_noted, filter_isWarning_concat rfl,
    warnings_readRequests, List.filterMap_append, listed_readRequests] at hperm
  refine ⟨?_, ?_, ?_⟩
  · rw [hseen]
    exact hs.1
  · rw [hseen, hs.2, calls_noted]
    exact hperm.1.trans (.of_eq (List.append_nil _))
  · rw [hseen, hs.2, warnings_noted]
    exact hperm.2

/-- A scan with workers and a depth-first scan agree when no directory is reached twice. -/
theorem byLevels_agrees_depthFirst (rules : List α) (schedule : Schedule) (workers : Int) {n : Nat}
    {root : String} (hl : HasLevels list n root)
    (hd : ((reached list rules n ⟨root, ""⟩).map Job.directory).Nodup) :
    let parallel := observe list none (byLevels rules schedule workers n root)
    let sequential := observe list none (depthFirst rules n root)
    (∀ found, sequential.1 = .ok found →
      parallel.1 = .ok (some found) ∧ parallel.2.calls.Perm sequential.2.calls ∧
        (warnings parallel.2).Perm (warnings sequential.2)) ∧
    ((∃ fault, parallel.1 = .error fault) ↔ ∃ fault, sequential.1 = .error fault) ∧
    ((∃ fault, sequential.1 = .error fault) ↔
      ∃ job ∈ reached list rules n ⟨root, ""⟩, ∃ reason,
        list job.directory = .error (.broken reason)) := by
  intro parallel sequential
  by_cases hb : ∃ job ∈ reached list rules n ⟨root, ""⟩, IsBroken list job.directory
  · have hs := error_of_fails (fails_depthFirst hl hb)
    have hp := error_of_fails (fails_byLevels schedule workers hl hb)
    refine ⟨?_, iff_of_true hp hs, iff_of_true hs hb⟩
    intro found hfound
    obtain ⟨fault, hfault⟩ := hs
    rw [hfound] at hfault
    cases hfault
  · have hb' : ∀ job ∈ reached list rules n ⟨root, ""⟩, ¬IsBroken list job.directory :=
      fun job hjob h => hb ⟨job, hjob, h⟩
    have hs := yields_depthFirst hl hb'
    obtain ⟨sent, hp, hsent⟩ := yields_byLevels schedule workers hl hd hb'
    refine ⟨?_, iff_of_false (no_error_of_yields hp) (no_error_of_yields hs),
      iff_of_false (no_error_of_yields hs) hb⟩
    intro found hfound
    have hresult : result root (treeOf list rules n ⟨root, ""⟩) = found := by
      have h : sequential.1 = _ := (congrArg Prod.fst (observe_eq _)).trans hs.1
      exact Except.ok.inj (h.symm.trans hfound)
    have hseen : parallel.2.calls.Perm sequential.2.calls ∧
        (warnings parallel.2).Perm (warnings sequential.2) := by
      have h := @observed_perm sent _ _ _
        (finishedRecord (result root (treeOf list rules n ⟨root, ""⟩))) hsent rfl rfl
      rw [← hs.2, ← hp.2] at h
      rw [show parallel = _ from observe_eq _, show sequential = _ from observe_eq _]
      exact h
    refine ⟨?_, hseen⟩
    rw [show parallel = _ from observe_eq _, hp.1, hresult]

theorem byLevels_agrees_depthFirst_reversed :
    let c : Catalogue :=
      { directories := [
          ("/r", [⟨"b", true, "/r/b"⟩, ⟨"a.txt", false, "/r/a.txt"⟩, ⟨"a", true, "/r/a"⟩]),
          ("/r/b", [⟨"x.log", false, "/r/b/x.log"⟩, ⟨"y.txt", false, "/r/b/y.txt"⟩])]
        failures := [("/r/a", .unreadable "denied")] }
    let rules := compileRules ["*.log"]
    let backwards : Schedule := ⟨fun _ jobs => jobs.reverse, fun _ jobs => jobs.reverse_perm⟩
    let parallel := observe c.list none (byLevels rules backwards 4 2 "/r")
    let sequential := observe c.list none (depthFirst rules 2 "/r")
    HasLevels c.list 2 "/r" ∧
      ((reached c.list rules 2 ⟨"/r", ""⟩).map Job.directory).Nodup ∧
      (∀ found, sequential.1 = .ok found →
        parallel.1 = .ok (some found) ∧ parallel.2.calls.Perm sequential.2.calls ∧
          (warnings parallel.2).Perm (warnings sequential.2)) ∧
      ((∃ fault, parallel.1 = .error fault) ↔ ∃ fault, sequential.1 = .error fault) ∧
      ((∃ fault, sequential.1 = .error fault) ↔
        ∃ job ∈ reached c.list rules 2 ⟨"/r", ""⟩, ∃ reason,
          c.list job.directory = .error (.broken reason)) := by
  intro c rules backwards parallel sequential
  have hl : HasLevels c.list 2 "/r" := by
    simp [HasLevels, entriesOf, c, Catalogue.list, List.lookup_cons, List.lookup_nil]
  have hd : ((reached c.list rules 2 ⟨"/r", ""⟩).map Job.directory).Nodup := by
    decide +kernel
  clear_value c rules backwards
  exact ⟨hl, hd, byLevels_agrees_depthFirst rules backwards 4 hl hd⟩

end FileSieve.Scan
