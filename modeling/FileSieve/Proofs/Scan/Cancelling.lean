import Mathlib.Logic.Function.Iterate
import FileSieve.Proofs.Scan.Agreement

/-! # Calling a scan off

A scan with workers asks before each level whether it has been called off. If so it stops, and what
it has listed until then are the levels above, each directory once. If not it asks as often as there
are levels and ends as if nobody had been asked. -/

namespace FileSieve.Scan

variable {α : Type} [PathRule α] {list : String → Except ListingFailure (List Entry)}
  {rules : List α} {root : String}

/-! ### Levels -/

/-- The directories that a scan comes to on each level; the root is on level 0. -/
inductive ReachesAt (list : String → Except ListingFailure (List Entry)) (rules : List α)
    (root : String) : Nat → Job → Prop
  | root : ReachesAt list rules root 0 ⟨root, ""⟩
  | enter {k : Nat} {job : Job} {v : VisibleEntry} (h : ReachesAt list rules root k job)
      (hv : v ∈ directories (view list rules job)) : ReachesAt list rules root (k + 1) (jobOf v)

/-- The frontier so many levels further down. -/
def levelAt (list : String → Except ListingFailure (List Entry)) (rules : List α) (k : Nat)
    (frontier : List Job) : List Job :=
  (below list rules)^[k] frontier

theorem levelAt_zero (frontier : List Job) : levelAt list rules 0 frontier = frontier := rfl

theorem levelAt_succ (k : Nat) (frontier : List Job) :
    levelAt list rules (k + 1) frontier = levelAt list rules k (below list rules frontier) := rfl

theorem below_levelAt (k : Nat) (frontier : List Job) :
    below list rules (levelAt list rules k frontier) = levelAt list rules (k + 1) frontier :=
  (Function.iterate_succ_apply' (below list rules) k frontier).symm

theorem levelAt_nil (k : Nat) : levelAt list rules k [] = [] :=
  Function.iterate_fixed rfl k

theorem mem_below_iff {frontier : List Job} {job : Job} : job ∈ below list rules frontier ↔
    ∃ above ∈ frontier, ∃ v ∈ directories (view list rules above), job = jobOf v := by
  simp [below, jobsFor_eq, eq_comm]

theorem mem_levelAt_iff {k : Nat} {job : Job} :
    job ∈ levelAt list rules k [⟨root, ""⟩] ↔ ReachesAt list rules root k job := by
  induction k generalizing job with
  | zero =>
    rw [levelAt_zero, List.mem_singleton]
    constructor
    · rintro rfl
      exact .root
    · intro h
      cases h
      rfl
  | succ k ih =>
    rw [← below_levelAt, mem_below_iff]
    constructor
    · rintro ⟨above, ha, v, hv, rfl⟩
      exact .enter (ih.1 ha) hv
    · intro h
      cases h with
      | enter h hv => exact ⟨_, ih.2 h, _, hv, rfl⟩

theorem mem_levels_iff {k : Nat} {frontier : List Job} {job : Job} :
    job ∈ levels list rules k frontier ↔ ∃ i < k, job ∈ levelAt list rules i frontier := by
  induction k generalizing frontier with
  | zero => simp [levels]
  | succ k ih =>
    simp only [levels, List.mem_append, ih, Nat.exists_lt_succ_left, levelAt_zero, levelAt_succ]

theorem levels_add (k m : Nat) (frontier : List Job) : levels list rules (k + m) frontier =
    levels list rules k frontier ++ levels list rules m (levelAt list rules k frontier) := by
  induction k generalizing frontier with
  | zero => rw [Nat.zero_add, levels, levelAt_zero, List.nil_append]
  | succ k ih => rw [Nat.add_right_comm, levels, levels, ih, levelAt_succ, List.append_assoc]

theorem levelCount_le (n : Nat) (frontier : List Job) : levelCount list rules n frontier ≤ n := by
  induction n generalizing frontier with
  | zero => exact Nat.le_refl 0
  | succ n ih =>
    cases frontier with
    | nil => exact Nat.zero_le _
    | cons job jobs => exact Nat.succ_le_succ (ih _)

/-- The levels that count are those on which there is a directory. -/
theorem levelAt_ne_nil_iff {n k : Nat} {frontier : List Job}
    (hl : ∀ job ∈ frontier, HasLevels list n job.directory) :
    levelAt list rules k frontier ≠ [] ↔ k < levelCount list rules n frontier := by
  induction n generalizing k frontier with
  | zero =>
    have hnil : frontier = [] := List.eq_nil_iff_forall_not_mem.2 hl
    simp [hnil, levelAt_nil, levelCount]
  | succ n ih =>
    cases frontier with
    | nil => simp [levelAt_nil, levelCount]
    | cons job jobs =>
      cases k with
      | zero => simp [levelAt_zero, levelCount]
      | succ k => rw [levelAt_succ, ih (hasLevels_of_mem_below hl), levelCount, Nat.succ_lt_succ_iff]

theorem exists_reachesAt_iff {n k : Nat} (hl : HasLevels list n root) :
    (∃ job, ReachesAt list rules root k job) ↔ k < levelCount list rules n [⟨root, ""⟩] := by
  rw [← levelAt_ne_nil_iff (by simpa using hl), Ne, List.eq_nil_iff_forall_not_mem]
  simp only [mem_levelAt_iff, not_forall, not_not]

/-! ### Polls -/

theorem polls_readRequests (jobs : List Job) :
    (jobs.flatMap (readRequests list)).countP Request.isPoll = 0 := by
  have hjob : ∀ job, (readRequests list job).countP Request.isPoll = 0 := by
    intro job
    unfold readRequests
    split <;> rfl
  simp [List.countP_flatMap, Function.comp_def, hjob]

/-- What jobs ask for is no poll. -/
theorem polls_of_perm {sent : List Request} {polls : Nat} {jobs : List Job}
    (h : sent.Perm (List.replicate polls .cancelled ++ jobs.flatMap (readRequests list))) :
    sent.countP Request.isPoll = polls := by
  rw [h.countP_eq, List.countP_append, polls_readRequests, List.countP_replicate]
  rfl

theorem listed_of_perm {sent : List Request} {polls : Nat} {jobs : List Job}
    (h : sent.Perm (List.replicate polls .cancelled ++ jobs.flatMap (readRequests list))) :
    (sent.filterMap Request.listed?).Perm (jobs.map Job.directory) := by
  have hlisted := h.filterMap Request.listed?
  rwa [List.filterMap_append, filterMap_listed?_replicate, listed_readRequests] at hlisted

/-! ### One level -/

variable {cancelled : Nat → Bool} {t : Transcript}

/-- A scan that is called off does not begin the next level. -/
theorem observeFrom_collect_of_cancelled {schedule : Schedule} {n level : Nat} {job : Job}
    {jobs : List Job} {before : Listings} (hc : cancelled t.polls = true) :
    observeFrom list cancelled (collect rules schedule (n + 1) level (job :: jobs) before) t =
      (.ok none, noted t [.cancelled]) := by
  rw [collect, observeFrom_bind (observeFrom_askCancelled t), hc, if_pos rfl]
  rfl

/-- A scan that is not called off goes through a level and begins the next one. -/
theorem observeFrom_collect_of_not_cancelled {schedule : Schedule} {n level : Nat} {job : Job}
    {jobs : List Job} {before : Listings} (hc : cancelled t.polls = false)
    (hb : ∀ j ∈ job :: jobs, ¬IsBroken list j.directory) :
    observeFrom list cancelled (collect rules schedule (n + 1) level (job :: jobs) before) t =
      observeFrom list cancelled
        (collect rules schedule n (level + 1) (below list rules (job :: jobs))
          ((records list rules (job :: jobs)).reverse ++ before))
        (noted t (.cancelled ::
          (runLevel rules schedule level (job :: jobs)).asked (steadyAnswer list))) := by
  have hquiet : ((runLevel rules schedule level (job :: jobs)).asked
      (steadyAnswer list)).countP Request.isPoll = 0 := by
    rw [(asked_runLevel_readRequests schedule level hb).countP_eq, polls_readRequests]
  have hlevel := observeFrom_of_yields (yields_runLevel schedule level (job :: jobs))
    (@calm_of_countP_eq_zero cancelled (noted t [.cancelled]) _ hquiet)
  rw [collect, observeFrom_bind (observeFrom_askCancelled t), hc, if_neg Bool.false_ne_true,
    observeFrom_bind hlevel,
    observeFrom_bind (observeFrom_of_yields (yields_outcomes hb) (calm_of_countP_eq_zero rfl)),
    flatMap_view, zip_view, noted_nil, ← noted_append, List.singleton_append]

/-! ### All levels -/

/-- A scan that is called off has asked once before each level that it has gone through and once
more, and has read these levels only. -/
theorem observeFrom_collect_cancelled {schedule : Schedule} {n level k : Nat} {frontier : List Job}
    {before : Listings} (hk : k < levelCount list rules n frontier)
    (hb : ∀ job ∈ levels list rules k frontier, ¬IsBroken list job.directory)
    (hno : ∀ i < k, cancelled (t.polls + i) = false) (hyes : cancelled (t.polls + k) = true) :
    ∃ sent, observeFrom list cancelled (collect rules schedule n level frontier before) t =
        (.ok none, noted t sent) ∧
      sent.Perm (List.replicate (k + 1) .cancelled ++
        (levels list rules k frontier).flatMap (readRequests list)) := by
  induction n generalizing level k frontier before t with
  | zero => cases hk
  | succ n ih =>
    cases frontier with
    | nil => cases hk
    | cons job jobs =>
      cases k with
      | zero => exact ⟨[.cancelled], observeFrom_collect_of_cancelled hyes, .refl _⟩
      | succ k =>
        have hjobs : ∀ j ∈ job :: jobs, ¬IsBroken list j.directory :=
          fun j hj => hb j (List.mem_append_left _ hj)
        have hasked := @asked_runLevel_readRequests _ _ list rules schedule level _ hjobs
        let asked := (runLevel rules schedule level (job :: jobs)).asked (steadyAnswer list)
        have hpolls : (noted t (.cancelled :: asked)).polls = t.polls + 1 := by
          rw [polls_noted, List.countP_cons_of_pos rfl, hasked.countP_eq, polls_readRequests]
        have hno' : ∀ i < k, cancelled ((noted t (.cancelled :: asked)).polls + i) = false := by
          intro i hi
          rw [hpolls, Nat.add_right_comm]
          exact hno (i + 1) (Nat.succ_lt_succ hi)
        have hyes' : cancelled ((noted t (.cancelled :: asked)).polls + k) = true := by
          rw [hpolls, Nat.add_right_comm]
          exact hyes
        obtain ⟨sent, hrest, hsent⟩ := @ih (noted t (.cancelled :: asked)) (level + 1) k
          (below list rules (job :: jobs)) ((records list rules (job :: jobs)).reverse ++ before)
          (Nat.lt_of_succ_lt_succ hk) (fun j hj => hb j (List.mem_append_right _ hj)) hno' hyes'
        refine ⟨.cancelled :: (asked ++ sent), ?_, ?_⟩
        · rw [observeFrom_collect_of_not_cancelled (hno 0 k.succ_pos) hjobs, hrest, ← noted_append]
          rfl
        · rw [levels, List.flatMap_append]
          exact perm_replicate_append hasked hsent

theorem observeFrom_byLevels_cancelled (schedule : Schedule) (workers : Int) {n k : Nat}
    (hk : k < levelCount list rules n [⟨root, ""⟩])
    (hb : ∀ job ∈ levels list rules k [⟨root, ""⟩], ¬IsBroken list job.directory)
    (hno : ∀ i < k, cancelled i = false) (hyes : cancelled k = true) :
    let seen := observeFrom list cancelled (byLevels rules schedule workers n root) {}
    seen.1 = .ok none ∧ seen.2.polls = k + 1 ∧
      seen.2.calls.Perm ((levels list rules k [⟨root, ""⟩]).map Job.directory) := by
  obtain ⟨sent, hcollect, hsent⟩ := @observeFrom_collect_cancelled _ _ list rules cancelled {}
    schedule n 0 k [⟨root, ""⟩] [] hk hb (by simpa using hno) (by simpa using hyes)
  have hseen : observeFrom list cancelled (byLevels rules schedule workers n root) {} =
      (.ok none, noted (noted {} sent) [.log ⟨.info, "Scan of " ++ root ++ " cancelled"⟩]) := by
    rw [byLevels, observeFrom_bind hcollect]
    exact observeFrom_of_yields ((yields_sendLog _ _).map _) (calm_of_countP_eq_zero rfl)
  intro seen
  rw [show seen = _ from hseen]
  refine ⟨rfl, ?_, ?_⟩
  · rw [polls_noted, polls_noted, polls_of_perm hsent]
    exact Nat.zero_add _
  · rw [← noted_append, calls_noted, List.filterMap_append]
    exact (List.append_nil _).symm ▸ listed_of_perm hsent

/-- As long as it is not called off before one of the levels, a scan asks once for each. -/
theorem observeFrom_byLevels_not_cancelled (schedule : Schedule) (workers : Int) {n : Nat}
    (hl : HasLevels list n root)
    (hd : ((reached list rules n ⟨root, ""⟩).map Job.directory).Nodup)
    (hb : ∀ job ∈ reached list rules n ⟨root, ""⟩, ¬IsBroken list job.directory)
    (hno : ∀ i < levelCount list rules n [⟨root, ""⟩], cancelled i = false) :
    let seen := observeFrom list cancelled (byLevels rules schedule workers n root) {}
    seen = observe list none (byLevels rules schedule workers n root) ∧
      seen.2.polls = levelCount list rules n [⟨root, ""⟩] := by
  obtain ⟨sent, hs, hsent⟩ := yields_byLevels schedule workers hl hd hb
  have hpolls : sent.countP Request.isPoll = levelCount list rules n [⟨root, ""⟩] := by
    rw [← List.append_assoc] at hsent
    rw [hsent.countP_eq, List.countP_append, polls_of_perm (.refl _)]
    rfl
  have hcalm : Calm cancelled {} sent := by
    rw [Calm, hpolls]
    simpa using hno
  intro seen
  have hseen : seen = _ := observeFrom_of_yields hs hcalm
  constructor
  · rw [hseen, observe_eq, hs.1, hs.2]
  · rw [hseen, polls_noted, hpolls]
    exact Nat.zero_add _

/-! ### What is listed -/

/-- The directories on the levels above some level are listed and no others, each one once. -/
def ListsAbove (list : String → Except ListingFailure (List Entry)) (rules : List α) (root : String)
    (k : Nat) (calls : List String) : Prop :=
  calls.Nodup ∧ ∀ directory, directory ∈ calls ↔
    ∃ i < k, ∃ relative, ReachesAt list rules root i ⟨directory, relative⟩

/-- There is nothing below the levels that count. -/
theorem levels_levelCount {n : Nat} (hl : HasLevels list n root) :
    levels list rules (levelCount list rules n [⟨root, ""⟩]) [⟨root, ""⟩] =
      levels list rules n [⟨root, ""⟩] := by
  let count := levelCount list rules n [⟨root, ""⟩]
  have hempty : levelAt list rules count [⟨root, ""⟩] = [] := by
    by_contra hne
    exact Nat.lt_irrefl count ((levelAt_ne_nil_iff (by simpa using hl)).1 hne)
  obtain ⟨m, hm⟩ := Nat.exists_eq_add_of_le (@levelCount_le _ _ list rules n [⟨root, ""⟩])
  conv_rhs => rw [hm, levels_add, hempty, levels_nil, List.append_nil]

theorem listsAbove_of_perm {n k : Nat} {calls : List String} (hk : k ≤ n)
    (hd : ((reached list rules n ⟨root, ""⟩).map Job.directory).Nodup)
    (h : calls.Perm ((levels list rules k [⟨root, ""⟩]).map Job.directory)) :
    ListsAbove list rules root k calls := by
  constructor
  · obtain ⟨m, rfl⟩ := Nat.exists_eq_add_of_le hk
    have hperm := @levels_singleton_perm _ _ list rules (k + m) ⟨root, ""⟩
    rw [levels_add] at hperm
    have hall := (hperm.map Job.directory).nodup_iff.2 hd
    rw [List.map_append] at hall
    exact h.nodup_iff.2 hall.of_append_left
  · intro directory
    rw [h.mem_iff, List.mem_map]
    constructor
    · rintro ⟨job, hj, rfl⟩
      obtain ⟨i, hi, hj⟩ := mem_levels_iff.1 hj
      exact ⟨i, hi, job.relative, mem_levelAt_iff.1 hj⟩
    · rintro ⟨i, hi, relative, hj⟩
      exact ⟨⟨directory, relative⟩, mem_levels_iff.2 ⟨i, hi, mem_levelAt_iff.2 hj⟩, rfl⟩

/-! ### The whole scan -/

/-- A scan with workers that is called off when it asks before one of its levels has no result and
has listed the levels above. If it is not called off there it asks once for each level, and it comes
to what it comes to when nobody calls it off. -/
theorem byLevels_called_off (rules : List α) (schedule : Schedule) (workers : Int) {n : Nat}
    {root : String} (hl : HasLevels list n root)
    (hd : ((reached list rules n ⟨root, ""⟩).map Job.directory).Nodup)
    (hb : ∀ job ∈ reached list rules n ⟨root, ""⟩, ¬IsBroken list job.directory) :
    ∃ count, (∀ k, (∃ job, ReachesAt list rules root k job) ↔ k < count) ∧
      ∀ cancelled : Nat → Bool,
        let seen := observeFrom list cancelled (byLevels rules schedule workers n root) {}
        (∀ k < count, (∀ i < k, cancelled i = false) → cancelled k = true →
          seen.1 = .ok none ∧ seen.2.polls = k + 1 ∧
            ListsAbove list rules root k seen.2.calls) ∧
        ((∀ i < count, cancelled i = false) →
          seen = observe list none (byLevels rules schedule workers n root) ∧
            seen.2.polls = count ∧ ListsAbove list rules root count seen.2.calls ∧
            ∃ found, seen.1 = .ok (some found)) := by
  have hle := @levelCount_le _ _ list rules n [⟨root, ""⟩]
  have hperm := @levels_singleton_perm _ _ list rules n ⟨root, ""⟩
  refine ⟨levelCount list rules n [⟨root, ""⟩], fun k => exists_reachesAt_iff hl, ?_⟩
  intro cancelled seen
  constructor
  · intro k hk hno hyes
    have hkn : k ≤ n := Nat.le_trans (Nat.le_of_lt hk) hle
    have hb' : ∀ job ∈ levels list rules k [⟨root, ""⟩], ¬IsBroken list job.directory := by
      intro job hj
      obtain ⟨i, hi, hj⟩ := mem_levels_iff.1 hj
      exact hb job (hperm.subset (mem_levels_iff.2 ⟨i, Nat.lt_of_lt_of_le hi hkn, hj⟩))
    obtain ⟨hnone, hpolls, hcalls⟩ :=
      observeFrom_byLevels_cancelled schedule workers hk hb' hno hyes
    exact ⟨hnone, hpolls, listsAbove_of_perm hkn hd hcalls⟩
  · intro hno
    obtain ⟨hseen, hpolls⟩ := observeFrom_byLevels_not_cancelled schedule workers hl hd hb hno
    obtain ⟨hfound, hcalls, -⟩ := observe_byLevels schedule workers hl hd hb
    have hall := hcalls.trans (hperm.map Job.directory).symm
    rw [← levels_levelCount hl, ← hseen] at hall
    exact ⟨hseen, hpolls, listsAbove_of_perm hle hd hall, _, hseen ▸ hfound⟩

theorem byLevels_called_off_once :
    let c : Catalogue :=
      { directories := [
          ("/r", [⟨"src", true, "/r/src"⟩, ⟨"out", true, "/r/out"⟩, ⟨"old", true, "/r/old"⟩]),
          ("/r/src", [⟨"a.txt", false, "/r/src/a.txt"⟩, ⟨"lib", true, "/r/src/lib"⟩]),
          ("/r/src/lib", [⟨"b.txt", false, "/r/src/lib/b.txt"⟩])]
        failures := [("/r/old", .unreadable "denied")] }
    let rules := compileRules ["out/"]
    let backwards : Schedule := ⟨fun _ jobs => jobs.reverse, fun _ jobs => jobs.reverse_perm⟩
    let scan := byLevels rules backwards 4 3 "/r"
    let stopped := observeFrom c.list (fun polls => polls = 1) scan {}
    let finished := observeFrom c.list (fun polls => polls = 3) scan {}
    HasLevels c.list 3 "/r" ∧ ((reached c.list rules 3 ⟨"/r", ""⟩).map Job.directory).Nodup ∧
      (∀ job ∈ reached c.list rules 3 ⟨"/r", ""⟩, ¬IsBroken c.list job.directory) ∧
      stopped.1 = .ok none ∧ stopped.2.polls = 2 ∧
      ListsAbove c.list rules "/r" 1 stopped.2.calls ∧
      finished = observe c.list none scan ∧ finished.2.polls = 3 := by
  intro c rules backwards scan stopped finished
  have hl : HasLevels c.list 3 "/r" := by
    simp [HasLevels, entriesOf, c, Catalogue.list, List.lookup_cons, List.lookup_nil]
  have hd : ((reached c.list rules 3 ⟨"/r", ""⟩).map Job.directory).Nodup := by
    decide +kernel
  have hb : ∀ job ∈ reached c.list rules 3 ⟨"/r", ""⟩, ¬IsBroken c.list job.directory :=
    fun job _ => not_isBroken_catalogue (by simp [c]) job.directory
  have hlevels : levelAt c.list rules 2 [⟨"/r", ""⟩] = [⟨"/r/src/lib", "src/lib"⟩] := by
    decide +kernel
  have hnone : levelAt c.list rules 3 [⟨"/r", ""⟩] = [] := by
    decide +kernel
  clear_value c rules backwards
  obtain ⟨count, hcount, hrun⟩ := byLevels_called_off rules backwards 4 hl hd hb
  have hmore : 2 < count := by
    rw [← hcount]
    exact ⟨⟨"/r/src/lib", "src/lib"⟩, mem_levelAt_iff.1 (by simp [hlevels])⟩
  have hthree : ¬3 < count := by
    rw [← hcount]
    rintro ⟨job, hj⟩
    simpa [hnone] using mem_levelAt_iff.2 hj
  obtain rfl : count = 3 := by omega
  obtain ⟨hresult, hpolls, hlists⟩ :=
    (hrun fun polls => polls = 1).1 1 (by omega) (by simp) (by simp)
  obtain ⟨hsame, hasked, -⟩ := (hrun fun polls => polls = 3).2 (by simp; omega)
  exact ⟨hl, hd, hb, hresult, hpolls, hlists, hsame, hasked⟩

end FileSieve.Scan
