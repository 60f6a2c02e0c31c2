import Mathlib.Data.List.Perm.Basic
import FileSieve.Proofs.Scan.Layout
import FileSieve.Proofs.Tables

/-! # Scanning level by level

A scan with workers reaches the same directories as a depth-first scan, level by level and on each
level in the order of the schedule. It records what each of them shows under the path of the
directory, which is enough to put the same tree together when no path occurs twice. -/

namespace FileSieve.Scan

open Program

variable {α : Type} [PathRule α] {list : String → Except ListingFailure (List Entry)}
  {rules : List α}

/-! ### One level -/

/-- What a job comes to on its own. -/
def jobOutcome (list : String → Except ListingFailure (List Entry)) (rules : List α) (job : Job) :
    Outcome :=
  outcome list (readVisible rules job.directory job.relative)

/-- The requests that a job sends on its own. -/
def jobRequests (list : String → Except ListingFailure (List Entry)) (rules : List α) (job : Job) :
    List Request :=
  requests list (readVisible rules job.directory job.relative)

/-- The jobs of a level with their numbers. -/
def numbered (jobs : List Job) : List (Nat × Job) :=
  (List.range jobs.length).zip jobs

theorem map_fst_numbered (jobs : List Job) :
    (numbered jobs).map Prod.fst = List.range jobs.length :=
  List.map_fst_zip (Nat.le_of_eq List.length_range)

theorem map_snd_numbered (jobs : List Job) : (numbered jobs).map Prod.snd = jobs :=
  List.map_snd_zip (Nat.le_of_eq List.length_range.symm)

/-- Each job of a level has an outcome with the property that the job ensures, at its own place. -/
theorem meets_runLevel {t : Terms interface} {post : Job → Outcome → Prop} (schedule : Schedule)
    (level : Nat) {jobs : List Job}
    (h : ∀ job, Meets t (post job) (readVisible rules job.directory job.relative).run) :
    Meets t (List.Forall₂ post jobs) (runLevel rules schedule level jobs) := by
  have hperm := schedule.perm level (numbered jobs)
  have hkeys : ((schedule.arrange level (numbered jobs)).map Prod.fst).Nodup := by
    rw [(hperm.map Prod.fst).nodup_iff, map_fst_numbered]
    exact List.nodup_range
  have hsteps : ∀ row ∈ schedule.arrange level (numbered jobs),
      Meets t (fun result => result.1 = row.1 ∧ post row.2 result.2)
        (do
          let outcome ← (readVisible rules row.2.directory row.2.relative).run
          return (row.1, outcome)) :=
    fun row _ => (h row.2).bind fun outcome ho => ⟨rfl, ho⟩
  apply (Meets.mapM hsteps).bind
  intro outcomes houtcomes
  have hrows := exists_lookup houtcomes hkeys
  have hresult := forall₂_filterMap_lookup fun row hrow => hrows row (hperm.mem_iff.2 hrow)
  rwa [map_snd_numbered, map_fst_numbered] at hresult

/-- Whatever the order in which the jobs are carried out, their outcomes come in the order of the
jobs. -/
theorem eval_runLevel (schedule : Schedule) (level : Nat) (jobs : List Job) :
    (runLevel rules schedule level jobs).eval (steadyAnswer list) =
      jobs.map (jobOutcome list rules) := by
  have hlevel := @meets_runLevel _ _ rules { gets := fun e => e.2 = steadyAnswer list e.1 }
    (fun job found => jobOutcome list rules job = found) schedule level jobs
    fun job => meets_eval (readVisible rules job.directory job.relative).run
  have hfound := @Meets.eval _ _ (steadyAnswer list) _ _ _ hlevel fun _ => rfl
  rw [← List.forall₂_map_left_iff, List.forall₂_eq_eq_eq] at hfound
  exact hfound.symm

theorem asked_runLevel (schedule : Schedule) (level : Nat) (jobs : List Job) :
    ((runLevel rules schedule level jobs).asked (steadyAnswer list)).Perm
      (jobs.flatMap (jobRequests list rules)) := by
  have hsent : (numbered jobs).flatMap (fun x => jobRequests list rules x.2) =
      jobs.flatMap (jobRequests list rules) := by
    rw [← List.flatMap_map, map_snd_numbered]
  rw [runLevel, asked_bind, asked_mapM, asked_pure, List.append_nil, ← hsent]
  simp only [asked_bind, asked_pure, List.append_nil]
  exact (schedule.perm level (numbered jobs)).flatMap_right _

theorem jobOutcome_eq {job : Job} (h : ¬IsBroken list job.directory) :
    jobOutcome list rules job = .ok (view list rules job) :=
  (yields_readVisible h).1

theorem jobRequests_eq {job : Job} (h : ¬IsBroken list job.directory) :
    jobRequests list rules job = readRequests list job :=
  (yields_readVisible h).2

theorem asked_runLevel_readRequests (schedule : Schedule) (level : Nat) {jobs : List Job}
    (hb : ∀ job ∈ jobs, ¬IsBroken list job.directory) :
    ((runLevel rules schedule level jobs).asked (steadyAnswer list)).Perm
      (jobs.flatMap (readRequests list)) := by
  have hasked := @asked_runLevel _ _ list rules schedule level jobs
  rwa [List.flatMap_congr fun j hj => jobRequests_eq (hb j hj)] at hasked

theorem yields_of_eq_ok {β : Type} {result : Except Fault β} {value : β} (h : result = .ok value) :
    Yields list (ExceptT.mk (pure result)) value [] := by
  rw [h]
  exact ⟨rfl, rfl⟩

theorem yields_outcome {job : Job} (h : ¬IsBroken list job.directory) :
    Yields list (ExceptT.mk (pure (jobOutcome list rules job))) (view list rules job) [] :=
  yields_of_eq_ok (jobOutcome_eq h)

theorem fails_outcome {job : Job} (h : IsBroken list job.directory) :
    Fails list (ExceptT.mk (pure (jobOutcome list rules job))) := by
  obtain ⟨reason, h⟩ := @fails_readVisible _ _ _ rules _ h
  exact ⟨reason, h⟩

/-- The visible entries of a level are handed on if no listing has gone wrong. -/
theorem yields_outcomes {jobs : List Job} (hb : ∀ job ∈ jobs, ¬IsBroken list job.directory) :
    Yields list ((jobs.map (jobOutcome list rules)).mapM fun found => ExceptT.mk (pure found))
      (jobs.map (view list rules)) [] := by
  have h := Yields.mapM fun job hjob => @yields_outcome _ _ _ rules _ (hb job hjob)
  rw [List.mapM_map]
  rwa [List.flatMap_eq_nil_iff.2 fun _ _ => rfl] at h

theorem fails_outcomes {jobs : List Job} (hb : ∃ job ∈ jobs, IsBroken list job.directory) :
    Fails list
      ((jobs.map (jobOutcome list rules)).mapM fun found => ExceptT.mk (pure found)) := by
  rw [List.mapM_map]
  apply Fails.mapM
  · intro job _
    by_cases h : IsBroken list job.directory
    · exact .inl (fails_outcome h)
    · exact .inr ⟨_, _, yields_outcome h⟩
  · obtain ⟨job, hjob, h⟩ := hb
    exact ⟨job, hjob, fails_outcome h⟩

theorem yields_runLevel (schedule : Schedule) (level : Nat) (jobs : List Job) :
    Yields list (runLevel rules schedule level jobs) (jobs.map (jobOutcome list rules))
      ((runLevel rules schedule level jobs).asked (steadyAnswer list)) := by
  rw [← eval_runLevel schedule level jobs]
  exact yields_lift _

/-! ### All levels -/

/-- The jobs of the level below a frontier. -/
def below (list : String → Except ListingFailure (List Entry)) (rules : List α)
    (frontier : List Job) : List Job :=
  frontier.flatMap fun job => jobsFor (view list rules job)

/-- The jobs of all levels from a frontier on. -/
def levels (list : String → Except ListingFailure (List Entry)) (rules : List α) :
    Nat → List Job → List Job
  | 0, _ => []
  | n + 1, frontier => frontier ++ levels list rules n (below list rules frontier)

/-- How many levels there are from a frontier on, the empty ones behind them not counted. -/
def levelCount (list : String → Except ListingFailure (List Entry)) (rules : List α) :
    Nat → List Job → Nat
  | 0, _ => 0
  | _ + 1, [] => 0
  | n + 1, job :: jobs => levelCount list rules n (below list rules (job :: jobs)) + 1

theorem levelCount_nil (n : Nat) : levelCount list rules n [] = 0 := by
  cases n <;> rfl

theorem levels_nil (n : Nat) : levels list rules n [] = [] := by
  induction n with
  | zero => rfl
  | succ n ih => exact ih

/-- Level by level the same directories are reached as depth first. -/
theorem levels_perm (n : Nat) (frontier : List Job) :
    (levels list rules n frontier).Perm (frontier.flatMap (reached list rules n)) := by
  induction n generalizing frontier with
  | zero => simp [levels, reached]
  | succ n ih =>
    have hbelow := ih (below list rules frontier)
    rw [below, List.flatMap_assoc] at hbelow
    have h := List.map_append_flatMap_perm frontier id fun job =>
      (jobsFor (view list rules job)).flatMap (reached list rules n)
    rw [List.map_id] at h
    exact (hbelow.append_left frontier).trans h

theorem hasLevels_of_mem_below {n : Nat} {frontier : List Job}
    (h : ∀ job ∈ frontier, HasLevels list (n + 1) job.directory) :
    ∀ job ∈ below list rules frontier, HasLevels list n job.directory := by
  intro job hjob
  obtain ⟨above, habove, hjob⟩ := List.mem_flatMap.1 hjob
  obtain ⟨v, hv, rfl⟩ := List.mem_map.1 hjob
  exact (h above habove).of_mem_view hv

/-- What is recorded about the directories of some jobs. -/
def records (list : String → Except ListingFailure (List Entry)) (rules : List α)
    (jobs : List Job) : Listings :=
  jobs.map fun job => (job.directory, view list rules job)

theorem flatMap_view (jobs : List Job) :
    (jobs.map (view list rules)).flatMap jobsFor = below list rules jobs :=
  List.flatMap_map ..

theorem zip_view (jobs : List Job) :
    (jobs.map Job.directory).zip (jobs.map (view list rules)) = records list rules jobs :=
  List.zip_map'

/-- A level without a broken listing is recorded, and the next level begins. -/
theorem yields_collect_cons {schedule : Schedule} {n level : Nat} {job : Job}
    {jobs : List Job} {before : Listings} {found : Option Listings} {sent : List Request}
    (hb : ∀ j ∈ job :: jobs, ¬IsBroken list j.directory)
    (h : Yields list
      (collect rules schedule n (level + 1) (below list rules (job :: jobs))
        ((records list rules (job :: jobs)).reverse ++ before)) found sent) :
    Yields list (collect rules schedule (n + 1) level (job :: jobs) before) found
      (.cancelled ::
        ((runLevel rules schedule level (job :: jobs)).asked (steadyAnswer list) ++ sent)) := by
  rw [← flatMap_view, ← zip_view] at h
  rw [collect]
  refine yields_askCancelled.bind ?_
  rw [if_neg Bool.false_ne_true]
  exact (yields_runLevel schedule level _).bind ((yields_outcomes hb).bind h)

theorem fails_collect_cons {schedule : Schedule} {n level : Nat} {job : Job} {jobs : List Job}
    {before : Listings}
    (h : (∀ j ∈ job :: jobs, ¬IsBroken list j.directory) →
      Fails list
        (collect rules schedule n (level + 1) (below list rules (job :: jobs))
          ((records list rules (job :: jobs)).reverse ++ before))) :
    Fails list (collect rules schedule (n + 1) level (job :: jobs) before) := by
  rw [collect]
  refine yields_askCancelled.bind_fails ?_
  rw [if_neg Bool.false_ne_true]
  apply (yields_runLevel schedule level _).bind_fails
  by_cases hb : ∃ j ∈ job :: jobs, IsBroken list j.directory
  · exact (fails_outcomes hb).bind _
  · have hb : ∀ j ∈ job :: jobs, ¬IsBroken list j.directory := fun j hj hj' => hb ⟨j, hj, hj'⟩
    have hrest := h hb
    rw [← flatMap_view, ← zip_view] at hrest
    exact (yields_outcomes hb).bind_fails hrest

theorem perm_append_of_perm_reverse {β : Type} {level rest before found : List β}
    (h : found.Perm (rest ++ (level.reverse ++ before))) :
    found.Perm (level ++ rest ++ before) := by
  have hlevel := ((List.reverse_perm level).append_right before).append_left rest
  rw [← List.append_assoc rest level before] at hlevel
  exact (h.trans hlevel).trans (List.perm_append_comm.append_right before)

theorem perm_replicate_append {β : Type} {poll : β} {polls : Nat} {asked level sent rest : List β}
    (ha : asked.Perm level) (hs : sent.Perm (List.replicate polls poll ++ rest)) :
    (poll :: (asked ++ sent)).Perm (List.replicate (polls + 1) poll ++ (level ++ rest)) := by
  have hshift : (level ++ (List.replicate polls poll ++ rest)).Perm
      (List.replicate polls poll ++ (level ++ rest)) := by
    rw [← List.append_assoc, ← List.append_assoc]
    exact List.perm_append_comm.append_right rest
  exact ((ha.append hs).trans hshift).cons poll

/-- Everything that is reached is recorded once and read once; besides that the scan only asks,
before each level, whether it has been called off. -/
theorem yields_collect (schedule : Schedule) {n level : Nat} {frontier : List Job}
    {before : Listings} (hl : ∀ job ∈ frontier, HasLevels list n job.directory)
    (hb : ∀ job ∈ levels list rules n frontier, ¬IsBroken list job.directory) :
    ∃ found sent,
      Yields list (collect rules schedule n level frontier before) (some found) sent ∧
      found.Perm (records list rules (levels list rules n frontier) ++ before) ∧
      sent.Perm (List.replicate (levelCount list rules n frontier) .cancelled ++
        (levels list rules n frontier).flatMap (readRequests list)) := by
  induction n generalizing level frontier before with
  | zero =>
    cases frontier with
    | nil => exact ⟨before, [], ⟨rfl, rfl⟩, .refl _, .refl _⟩
    | cons job jobs => exact (hl job List.mem_cons_self).elim
  | succ n ih =>
    cases frontier with
    | nil =>
      rw [levels_nil, levelCount_nil]
      exact ⟨before, [], ⟨rfl, rfl⟩, .refl _, .refl _⟩
    | cons job jobs =>
      have hjobs : ∀ j ∈ job :: jobs, ¬IsBroken list j.directory :=
        fun j hj => hb j (List.mem_append_left _ hj)
      obtain ⟨found, sent, hrest, hfound, hsent⟩ :=
        @ih (level + 1) (below list rules (job :: jobs))
          ((records list rules (job :: jobs)).reverse ++ before) (hasLevels_of_mem_below hl)
          fun j hj => hb j (List.mem_append_right _ hj)
      have hasked := @asked_runLevel_readRequests _ _ list rules schedule level _ hjobs
      refine ⟨found, _, yields_collect_cons hjobs hrest, ?_, ?_⟩
      · rw [levels, records, List.map_append]
        exact perm_append_of_perm_reverse hfound
      · rw [levels, levelCount, List.flatMap_append]
        exact perm_replicate_append hasked hsent

theorem fails_collect (schedule : Schedule) {n level : Nat} {frontier : List Job}
    {before : Listings} (hl : ∀ job ∈ frontier, HasLevels list n job.directory)
    (hb : ∃ job ∈ levels list rules n frontier, IsBroken list job.directory) :
    Fails list (collect rules schedule n level frontier before) := by
  induction n generalizing level frontier before with
  | zero =>
    obtain ⟨job, hjob, -⟩ := hb
    cases hjob
  | succ n ih =>
    cases frontier with
    | nil =>
      obtain ⟨job, hjob, -⟩ := hb
      rw [levels_nil] at hjob
      cases hjob
    | cons job jobs =>
      apply fails_collect_cons
      intro hjobs
      apply ih (hasLevels_of_mem_below hl)
      obtain ⟨j, hj, hbj⟩ := hb
      rcases List.mem_append.1 hj with hj | hj
      · exact absurd hbj (hjobs j hj)
      · exact ⟨j, hj, hbj⟩

/-! ### Putting the tree together -/

theorem mapM_eq_ok {ε β γ : Type} {f : β → Except ε γ} {g : β → γ} {bs : List β}
    (h : ∀ b ∈ bs, f b = .ok (g b)) : bs.mapM f = .ok (bs.map g) := by
  induction bs with
  | nil => rfl
  | cons b bs ih =>
    rw [List.mapM_cons, h b List.mem_cons_self, ih fun c hc => h c (List.mem_cons_of_mem b hc)]
    rfl

/-- With a listing of each directory that is reached the tree is the same as depth first. -/
theorem nodesFrom_eq {found : Listings} {n : Nat} {job : Job}
    (hl : HasLevels list n job.directory)
    (hf : ∀ j ∈ reached list rules n job, found.lookup j.directory = some (view list rules j)) :
    nodesFrom found n job.directory = .ok (treeOf list rules n job) := by
  induction n generalizing job with
  | zero => exact hl.elim
  | succ n ih =>
    have hjob := hf job (mem_reached_succ.2 (.inl rfl))
    have hsub : ∀ v ∈ directories (view list rules job),
        (do
          let children ← nodesFrom found n v.entry.path
          return (v, children)) = Except.ok (v, treeOf list rules n (jobOf v)) := by
      intro v hv
      have hnodes := @ih (jobOf v) (hl.of_mem_view hv)
        fun j hj => hf j (mem_reached_succ.2 (.inr ⟨v, hv, hj⟩))
      have hpath : (jobOf v).directory = v.entry.path := rfl
      rw [← hpath, hnodes]
      rfl
    rw [nodesFrom, hjob, Option.getD_some, mapM_eq_ok hsub]
    rfl

/-! ### The whole scan -/

/-- The record about a finished scan with workers. -/
def finishedWithRecord (workers : Int) (found : ScanResult) : Log.Record :=
  ⟨.info, "Scanned " ++ found.root ++ " with " ++ toString (workerCount workers) ++
    " workers: " ++ toString found.files.length ++ " files visible"⟩

theorem levels_singleton_perm (n : Nat) (job : Job) :
    (levels list rules n [job]).Perm (reached list rules n job) := by
  have h := @levels_perm _ _ list rules n [job]
  rwa [List.flatMap_singleton] at h

theorem yields_byLevels (schedule : Schedule) (workers : Int) {n : Nat} {root : String}
    (hl : HasLevels list n root)
    (hd : ((reached list rules n ⟨root, ""⟩).map Job.directory).Nodup)
    (hb : ∀ job ∈ reached list rules n ⟨root, ""⟩, ¬IsBroken list job.directory) :
    ∃ sent,
      Yields list (byLevels rules schedule workers n root)
        (some (result root (treeOf list rules n ⟨root, ""⟩))) sent ∧
      sent.Perm (List.replicate (levelCount list rules n [⟨root, ""⟩]) .cancelled ++
        ((reached list rules n ⟨root, ""⟩).flatMap (readRequests list) ++
          [.log (finishedWithRecord workers (result root (treeOf list rules n ⟨root, ""⟩)))])) := by
  have hperm := @levels_singleton_perm _ _ list rules n ⟨root, ""⟩
  obtain ⟨found, sent, hcollect, hfound, hsent⟩ :=
    @yields_collect _ _ list rules schedule n 0 [⟨root, ""⟩] []
      (fun job hjob => List.mem_singleton.1 hjob ▸ hl)
      fun job hjob => hb job (hperm.mem_iff.1 hjob)
  have hrecords : found.Perm (records list rules (reached list rules n ⟨root, ""⟩)) := by
    rw [List.append_nil] at hfound
    exact hfound.trans (hperm.map _)
  have hkeys : (found.map Prod.fst).Nodup := by
    apply (hrecords.map Prod.fst).nodup_iff.2
    rw [records, List.map_map]
    exact hd
  have hlookup : ∀ j ∈ reached list rules n ⟨root, ""⟩,
      found.lookup j.directory = some (view list rules j) := fun j hj =>
    lookup_of_mem hkeys (hrecords.mem_iff.2 (List.mem_map_of_mem hj))
  have htree : nodesFrom found n root = .ok (treeOf list rules n ⟨root, ""⟩) :=
    @nodesFrom_eq _ _ list rules found n ⟨root, ""⟩ hl hlookup
  let whole := result root (treeOf list rules n ⟨root, ""⟩)
  refine ⟨sent ++ ([] ++ [.log (finishedWithRecord workers whole)]), hcollect.bind ?_, ?_⟩
  · exact (yields_of_eq_ok htree).bind ((yields_sendLog _ _).map _)
  · rw [List.nil_append, ← List.append_assoc]
    exact (hsent.trans ((hperm.flatMap_right _).append_left _)).append_right _

theorem fails_byLevels (schedule : Schedule) (workers : Int) {n : Nat} {root : String}
    (hl : HasLevels list n root)
    (hb : ∃ job ∈ reached list rules n ⟨root, ""⟩, IsBroken list job.directory) :
    Fails list (byLevels rules schedule workers n root) := by
  have hperm := @levels_singleton_perm _ _ list rules n ⟨root, ""⟩
  obtain ⟨job, hjob, hbroken⟩ := hb
  have hcollect := @fails_collect _ _ list rules schedule n 0 [⟨root, ""⟩] []
    (fun job hjob => List.mem_singleton.1 hjob ▸ hl) ⟨job, hperm.mem_iff.2 hjob, hbroken⟩
  exact hcollect.bind _

end FileSieve.Scan
