import FileSieve.Proofs.Scan.Interleaving
import FileSieve.Proofs.Scan.LevelOrder

/-! # Controlled scans over listings that stay the same

While nothing else happens on a controller, a scan on it comes to what its tree builder comes to,
and leaves behind the rules that it has compiled and, if it was the latest one, its result. -/

namespace FileSieve.Control

open Program

variable {α β : Type} (list : String → Except ListingFailure (List Entry))

/-- Answers requests with a controller and listings that stay the same. -/
def reply (q : Request) : StateM Controller (Answer q) :=
  respond (fun directory => pure (list directory)) (fun _ => pure ()) q

/-- Carries out a part of a scan on a controller. -/
def perform (x : Controlled α) (c : Controller) : Except Scan.Fault α × Controller :=
  (Program.run (I := interface) (reply list) x.run).run c

/-- The answers to a tree builder that was called off before it began, or never is. -/
def builderAnswer (superseded : Bool) : (q : Scan.Request) → Scan.Answer q
  | .list directory => list directory
  | .log _ => ()
  | .cancelled => superseded

/-- Whether a scan with a generation, or without one, has been superseded. -/
def superseded (c : Controller) (generation : Option Int) : Bool :=
  generation.any fun g => !c.isCurrent g

variable {list}

theorem builderAnswer_false : builderAnswer list false = Scan.steadyAnswer list := by
  funext q
  cases q <;> rfl

/-! ### Steps -/

theorem perform_bind (x : Controlled α) (f : α → Controlled β) (c : Controller) :
    perform list (x >>= f) c =
      match perform list x c with
      | (.ok value, d) => perform list (f value) d
      | (.error fault, d) => (.error fault, d) := by
  unfold perform
  rw [ExceptT.run_bind, run_bind, StateT.run_bind]
  cases (Program.run (I := interface) (reply list) x.run).run c with
  | mk result d => cases result <;> rfl

theorem perform_bind_of_ok {x : Controlled α} {c d : Controller} {value : α}
    (h : perform list x c = (.ok value, d)) (f : α → Controlled β) :
    perform list (x >>= f) c = perform list (f value) d := by
  rw [perform_bind, h]

theorem perform_bind_of_error {x : Controlled α} {c d : Controller} {fault : Scan.Fault}
    (h : perform list x c = (.error fault, d)) (f : α → Controlled β) :
    perform list (x >>= f) c = (.error fault, d) := by
  rw [perform_bind, h]

theorem perform_map {x : Controlled α} {c d : Controller} {result : Except Scan.Fault α}
    (h : perform list x c = (result, d)) (f : α → β) :
    perform list (do return f (← x)) c = (result.map f, d) := by
  cases result with
  | ok value => exact perform_bind_of_ok h _
  | error fault => exact perform_bind_of_error h _

theorem perform_ask (q : Request) (c : Controller) :
    perform list (liftM (ask q) : Controlled (Answer q)) c =
      (.ok ((reply list q).run c).1, ((reply list q).run c).2) := rfl

theorem reply_rules (patterns : List String) (c : Controller) :
    (reply list (.rules patterns)).run c =
      ((c.cache.get patterns).1, { c with cache := (c.cache.get patterns).2.2 }) :=
  @answer_rules (list "") patterns c

theorem reply_accept (g : Int) (found : Option ScanResult) (rules : List Rule) (c : Controller) :
    (reply list (.accept g found rules)).run c = c.accept g found rules :=
  @answer_accept (list "") g found rules c

/-- What a tree builder asks does not change the controller. -/
theorem run_serve (generation : Option Int) (q : Scan.Request) (c : Controller) :
    ((serve generation q).run (reply list)).run c =
      (builderAnswer list (superseded c generation) q, c) := by
  cases q with
  | list directory => rfl
  | log record => rfl
  | cancelled => cases generation <;> rfl

theorem run_build (generation : Option Int) (p : Program Scan.interface α) (c : Controller) :
    ((p.run (serve generation)).run (reply list)).run c =
      (p.eval (builderAnswer list (superseded c generation)), c) := by
  induction p with
  | done value => rfl
  | ask q next ih =>
    have hnext := ih (builderAnswer list (superseded c generation) q)
    have hq := @run_serve list generation q c
    rw [Program.run, run_bind, StateT.run_bind, hq]
    exact hnext

theorem perform_build (generation : Option Int) (scan : Scan.Scanning α) (c : Controller) :
    perform list (build generation scan) c =
      (scan.run.eval (builderAnswer list (superseded c generation)), c) :=
  run_build generation scan.run c

/-! ### Whole scans -/

variable (list)

/-- A controller that has looked up the rules of an ignore list. -/
def compiled (patterns : List String) (c : Controller) : Controller :=
  { c with cache := (c.cache.get patterns).2.2 }

/-- What a tree builder comes to with the rules and the workers of a controller. -/
def treeOn (c : Controller) (schedule : Scan.Schedule) (depth : Nat) (root : String)
    (patterns : List String) (generation : Option Int) : Except Scan.Fault (Option ScanResult) :=
  let rules := (c.cache.get patterns).1
  let answers := builderAnswer list (superseded c generation)
  if c.workers > 0 then (Scan.byLevels rules schedule c.workers depth root).run.eval answers
  else ((Scan.depthFirst rules depth root).run.eval answers).map some

variable {list}

/-- With workers, a tree builder comes to the nodes that it puts together from the listings. -/
theorem treeOn_of_collect {c : Controller} {schedule : Scan.Schedule} {depth : Nat} {root : String}
    {patterns : List String} {generation : Option Int} {found : Scan.Listings}
    (hw : c.workers > 0)
    (h : (Scan.collect (c.cache.get patterns).1 schedule depth 0 [⟨root, ""⟩] []).run.eval
      (builderAnswer list (superseded c generation)) = .ok (some found)) :
    treeOn list c schedule depth root patterns generation =
      (Scan.nodesFrom found depth root).map fun tree => some (Scan.result root tree) := by
  rw [treeOn, if_pos hw, Scan.byLevels, ExceptT.run_bind, eval_bind, h]
  dsimp only
  rw [ExceptT.run_bind, eval_bind]
  cases Scan.nodesFrom found depth root <;> rfl

/-- Without workers, a tree builder comes to the nodes of what it reaches. -/
theorem treeOn_of_hasLevels {c : Controller} {schedule : Scan.Schedule} {depth : Nat}
    {root : String} {patterns : List String} {generation : Option Int} (hw : ¬c.workers > 0)
    (hs : superseded c generation = false) (hl : Scan.HasLevels list depth root)
    (hb : ∀ job ∈ Scan.reached list (c.cache.get patterns).1 depth ⟨root, ""⟩,
      ¬Scan.IsBroken list job.directory) :
    treeOn list c schedule depth root patterns generation =
      .ok (some (Scan.result root
        (Scan.treeOf list (c.cache.get patterns).1 depth ⟨root, ""⟩))) := by
  have hy := (Scan.yields_depthFirst hl hb).1
  rw [Scan.outcome, ← builderAnswer_false] at hy
  rw [treeOn, if_neg hw, hs, hy]
  rfl

theorem perform_buildTree (schedule : Scan.Schedule) (depth : Nat) (root : String)
    (patterns : List String) (generation : Option Int) (c : Controller) :
    perform list (buildTree schedule depth root patterns generation) c =
      ((treeOn list c schedule depth root patterns generation).map
        fun found => (found, (c.cache.get patterns).1), compiled patterns c) := by
  have hrules : perform list (liftM (ask (.rules patterns)) : Controlled (List Rule)) c =
      (.ok (c.cache.get patterns).1, compiled patterns c) := by
    rw [perform_ask, reply_rules]
    rfl
  have hworkers : perform list (liftM (ask .workers) : Controlled Int) (compiled patterns c) =
      (.ok c.workers, compiled patterns c) := rfl
  rw [buildTree, perform_bind_of_ok hrules, perform_bind_of_ok hworkers, treeOn]
  split
  · exact perform_map (perform_build generation _ (compiled patterns c)) _
  · rw [perform_map (perform_build generation _ (compiled patterns c))]
    have hs : superseded (compiled patterns c) generation = superseded c generation := rfl
    rw [hs]
    cases (Scan.depthFirst (c.cache.get patterns).1 depth root).run.eval
      (builderAnswer list (superseded c generation)) <;> rfl

/-- A scan is never superseded if nothing else happens meanwhile. -/
theorem superseded_start (c : Controller) :
    superseded c.start.2 (some c.start.1) = false := by
  simp [superseded, Controller.isCurrent, Controller.start]

/-- With workers or without, a tree builder comes to the nodes of what it reaches if no directory is
reached twice. -/
theorem treeOn_start {c : Controller} {schedule : Scan.Schedule} {depth : Nat} {root : String}
    {patterns : List String} (hl : Scan.HasLevels list depth root)
    (hd : ((Scan.reached list (c.cache.get patterns).1 depth ⟨root, ""⟩).map
      Scan.Job.directory).Nodup)
    (hb : ∀ job ∈ Scan.reached list (c.cache.get patterns).1 depth ⟨root, ""⟩,
      ¬Scan.IsBroken list job.directory) :
    treeOn list c.start.2 schedule depth root patterns (some c.start.1) =
      .ok (some (Scan.result root
        (Scan.treeOf list (c.cache.get patterns).1 depth ⟨root, ""⟩))) := by
  by_cases hw : c.start.2.workers > 0
  · obtain ⟨sent, hp, -⟩ := Scan.yields_byLevels schedule c.start.2.workers hl hd hb
    have hresult := hp.1
    rw [Scan.outcome, ← builderAnswer_false] at hresult
    rw [treeOn, if_pos hw, superseded_start]
    exact hresult
  · exact treeOn_of_hasLevels hw (superseded_start c) hl hb

theorem accept_start (c : Controller) (patterns : List String) (found : Option ScanResult)
    (rules : List Rule) :
    ((compiled patterns c.start.2).accept c.start.1 found rules).1 = found.isSome := by
  cases found <;> simp [Controller.accept, Controller.isCurrent, Controller.start, compiled]

/-- A scan comes to what its tree builder comes to, and hands that in. -/
theorem perform_scan (schedule : Scan.Schedule) (depth : Nat) (root : String)
    (patterns : List String) (c : Controller) :
    perform list (scan schedule depth root patterns) c =
      match treeOn list c.start.2 schedule depth root patterns (some c.start.1) with
      | .error fault => (.error fault, compiled patterns c.start.2)
      | .ok found =>
        (.ok found,
          ((compiled patterns c.start.2).accept c.start.1 found (c.cache.get patterns).1).2) := by
  have hstart : perform list (liftM (ask .start) : Controlled Int) c =
      (.ok c.start.1, c.start.2) := rfl
  have hbuild := @perform_buildTree list schedule depth root patterns (some c.start.1) c.start.2
  rw [scan, perform_bind_of_ok hstart]
  cases ht : treeOn list c.start.2 schedule depth root patterns (some c.start.1) with
  | error fault =>
    rw [ht] at hbuild
    exact perform_bind_of_error hbuild _
  | ok found =>
    rw [ht] at hbuild
    have haccept : perform list
        (liftM (ask (.accept c.start.1 found (c.cache.get patterns).1)) : Controlled Bool)
        (compiled patterns c.start.2) = (.ok found.isSome,
          ((compiled patterns c.start.2).accept c.start.1 found (c.cache.get patterns).1).2) := by
      rw [perform_ask, reply_accept, accept_start]
    refine (perform_bind_of_ok hbuild _).trans ((perform_bind_of_ok haccept _).trans ?_)
    cases found <;> rfl

/-- A scan that finds something installs it. -/
theorem perform_scan_of_treeOn {c : Controller} {schedule : Scan.Schedule} {depth : Nat}
    {root : String} {patterns : List String} {found : ScanResult}
    (h : treeOn list c.start.2 schedule depth root patterns (some c.start.1) = .ok (some found)) :
    perform list (scan schedule depth root patterns) c =
      (.ok (some found), { compiled patterns c.start.2 with
        result := some found
        rules := (c.cache.get patterns).1
        selection := ∅
        active := none }) := by
  rw [perform_scan, h]
  simp [Controller.accept, Controller.isCurrent, Controller.start, compiled]

end FileSieve.Control
