import FileSieve.CommandLine.Run
import FileSieve.Proofs.Host.Running
import FileSieve.Proofs.Scan.Steady

/-! # Scans of the command line

A scan of the command line looks only, and comes to what a controlled scan comes to with the
listings of its host. -/

namespace FileSieve.CommandLine

open Host Program

variable {α : Type}

/-- The answers of the command line to a scan. -/
def hostAnswer (q : Control.Request) : StateT Controller Action (Control.Answer q) :=
  Control.respond (m := StateT Controller Action) (fun directory => Host.list directory)
    (fun record => Host.log record) q

/-! ### One request -/

/-- What the answers to a scan do to its controller, as an action. -/
def logAll (records : List Log.Record) (c : Controller) : Action (Unit × Controller) :=
  (records.forM fun record => (Host.log record : StateT Controller Action Unit)).run c

theorem looks_logAll (records : List Log.Record) (c : Controller) : Looks (logAll records c) := by
  induction records with
  | nil => exact looks_pure _
  | cons record records ih => exact (looks_ask (.log record) trivial).bind fun _ => ih

theorem eval_logAll (m : Model) (records : List Log.Record) (c : Controller) :
    (logAll records c).eval m.reply = ((), c) := by
  induction records with
  | nil => rfl
  | cons record records ih => exact ih

theorem hostAnswer_rules (patterns : List String) (c : Controller) :
    (hostAnswer (.rules patterns)).run c =
      (logAll (c.cache.get patterns).2.1 { c with cache := (c.cache.get patterns).2.2 } >>= fun found =>
        pure ((c.cache.get patterns).1, found.2)) := rfl

theorem hostAnswer_accept (generation : Int) (found : Option ScanResult) (rules : List Rule)
    (c : Controller) :
    (hostAnswer (.accept generation found rules)).run c =
      (logAll (if (c.accept generation found rules).1 then [] else [Control.staleRecord generation])
          (c.accept generation found rules).2 >>= fun kept =>
        pure ((c.accept generation found rules).1, kept.2)) := by
  have hrun : (hostAnswer (.accept generation found rules)).run c =
      (do
        set (c.accept generation found rules).2
        if !(c.accept generation found rules).1 then
          Host.log (Control.staleRecord generation)
        return (c.accept generation found rules).1 : StateT Controller Action Bool).run c := rfl
  rw [hrun]
  cases (c.accept generation found rules).1 <;> rfl

theorem looks_hostAnswer (q : Control.Request) (c : Controller) : Looks ((hostAnswer q).run c) := by
  cases q with
  | start | isCurrent | workers => exact looks_pure _
  | rules patterns => exact (looks_logAll _ _).bind fun _ => looks_pure _
  | accept generation found rules =>
    rw [hostAnswer_accept]
    exact (looks_logAll _ _).bind fun _ => looks_pure _
  | list directory => exact (looks_ask (.list directory) trivial).bind fun _ => looks_pure _
  | log record => exact (looks_ask (.log record) trivial).bind fun _ => looks_pure _

theorem eval_hostAnswer (m : Model) (q : Control.Request) (c : Controller) :
    ((hostAnswer q).run c).eval m.reply = (Control.reply m.listing q).run c := by
  cases q with
  | start | isCurrent | workers | list | log => rfl
  | rules patterns =>
    rw [hostAnswer_rules, eval_bind, eval_logAll, Control.reply_rules]
    rfl
  | accept generation found rules =>
    rw [hostAnswer_accept, eval_bind, eval_logAll, Control.reply_accept]
    rfl

/-! ### Whole scans -/

theorem looks_run_hostAnswer (p : Program Control.interface α) (c : Controller) :
    Looks ((p.run (I := Control.interface) hostAnswer).run c) := by
  induction p generalizing c with
  | done value => exact looks_pure (value, c)
  | ask q next ih =>
    rw [Program.run, StateT.run_bind]
    exact (looks_hostAnswer q c).bind fun found => ih found.1 found.2

theorem eval_run_hostAnswer (m : Model) (p : Program Control.interface α) (c : Controller) :
    ((p.run (I := Control.interface) hostAnswer).run c).eval m.reply =
      (p.run (I := Control.interface) (Control.reply m.listing)).run c := by
  induction p generalizing c with
  | done value => rfl
  | ask q next ih =>
    rw [Program.run, Program.run, StateT.run_bind, StateT.run_bind, eval_bind, eval_hostAnswer]
    exact ih _ _

/-- A whole scan as the command line carries it out. -/
def scanned (depth : Nat) (root : String) (patterns : List String) (workers : Nat) :
    Action (Except Scan.Fault (Option ScanResult) × Controller) :=
  ((Control.scan .inOrder depth root patterns).run.run (I := Control.interface) hostAnswer).run
    { workers := workers }

/-- What the command line makes of a scan. -/
def outcomeOf : Except Scan.Fault (Option ScanResult) × Controller → Task (ScanResult × Controller)
  | (.error fault, _) => throw (.faulted fault)
  | (.ok none, _) => fail "Scan was superseded before completing."
  | (.ok (some result), controller) => return (result, controller)

theorem scanRoot_eq (depth : Nat) (root : String) (patterns : List String) (workers : Value Nat) :
    scanRoot depth root patterns workers = required .count workers >>= fun count =>
      (liftM (scanned depth root patterns count) : Task _) >>= outcomeOf := by
  unfold scanRoot
  congr 1
  funext count
  dsimp only
  congr 1
  funext found
  obtain ⟨result, controller⟩ := found
  rcases result with fault | _ | result <;> rfl

theorem looksT_scanRoot (depth : Nat) (root : String) (patterns : List String)
    (workers : Value Nat) : LooksT (scanRoot depth root patterns workers) := by
  rw [scanRoot_eq]
  apply LooksT.bind
  · cases workers with
    | given count => exact looksT_pure count
    | void => exact looksT_throw _
  · intro count
    apply (looksT_lift (looks_run_hostAnswer _ _)).bind
    rintro ⟨result, controller⟩
    rcases result with fault | _ | result
    · exact looksT_throw _
    · exact looksT_throw _
    · exact looksT_pure _

/-- A scan of the command line comes to what a controlled scan installs. -/
theorem eval_scanRoot {m : Model} {depth : Nat} {root : String} {patterns : List String}
    {workers : Nat} {found : ScanResult}
    (h : Control.treeOn m.listing (Controller.start { workers := workers }).2 .inOrder depth root
      patterns (some (Controller.start { workers := workers }).1) = .ok (some found)) :
    ∃ c, (scanRoot depth root patterns (.given workers)).run.eval m.reply = .ok (found, c) := by
  obtain ⟨c, hc⟩ : ∃ c, Control.perform m.listing (Control.scan .inOrder depth root patterns)
      { workers := workers } = (.ok (some found), c) := ⟨_, Control.perform_scan_of_treeOn h⟩
  refine ⟨c, ?_⟩
  rw [scanRoot_eq]
  change ((liftM (scanned depth root patterns workers) : Task _) >>= outcomeOf).run.eval m.reply = _
  rw [eval_run_lift_bind, scanned, eval_run_hostAnswer]
  change (outcomeOf (Control.perform m.listing (Control.scan .inOrder depth root patterns)
    { workers := workers })).run.eval m.reply = _
  rw [hc]
  rfl

end FileSieve.CommandLine
