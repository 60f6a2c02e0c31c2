import FileSieve.Host.Model
import FileSieve.Proofs.Program.Evaluation

/-! # Actions on a host held in memory

An action that only looks comes to what the answers of the host give it, and leaves its files and
its output as they are. Such an action can be taken apart by its value alone. -/

namespace FileSieve

variable {α β ε : Type}

/-! ### Values of actions that may end early -/

namespace Program

variable {I : Interface} {answer : (q : I.Request) → I.Answer q}

theorem eval_run_pure (value : α) :
    (pure value : ExceptT ε (Program I) α).run.eval answer = .ok value := rfl

theorem eval_run_pure_iff {η : Type} {found value : α} :
    (pure found : ExceptT ε (Program I) α).run.eval answer = .ok value ↔
      (Except.ok found : Except η α) = .ok value := by
  rw [eval_run_pure, Except.ok.injEq, Except.ok.injEq]

theorem eval_run_lift (p : Program I α) :
    (liftM p : ExceptT ε (Program I) α).run.eval answer = .ok (p.eval answer) :=
  eval_bind answer p _

theorem eval_run_bind (x : ExceptT ε (Program I) α) (f : α → ExceptT ε (Program I) β) :
    (x >>= f).run.eval answer = x.run.eval answer >>= fun value => (f value).run.eval answer := by
  rw [ExceptT.run_bind, eval_bind]
  cases x.run.eval answer <;> rfl

theorem eval_run_lift_bind (p : Program I α) (f : α → ExceptT ε (Program I) β) :
    ((liftM p : ExceptT ε (Program I) α) >>= f).run.eval answer =
      (f (p.eval answer)).run.eval answer := by
  rw [eval_run_bind, eval_run_lift]
  rfl

theorem eval_run_bind_of_ok {x : ExceptT ε (Program I) α} {value : α}
    (h : x.run.eval answer = .ok value) (f : α → ExceptT ε (Program I) β) :
    (x >>= f).run.eval answer = (f value).run.eval answer := by
  rw [eval_run_bind, h]
  rfl

theorem eval_run_bind_iff {x : ExceptT ε (Program I) α} {f : α → ExceptT ε (Program I) β}
    {result : β} :
    (x >>= f).run.eval answer = .ok result ↔
      ∃ value, x.run.eval answer = .ok value ∧ (f value).run.eval answer = .ok result := by
  rw [eval_run_bind]
  cases x.run.eval answer with
  | ok value => exact ⟨fun h => ⟨value, rfl, h⟩, fun ⟨_, hv, h⟩ => Except.ok.inj hv ▸ h⟩
  | error e => exact iff_of_false nofun nofun

end Program

namespace Host

open Program

/-! ### Actions that only look -/

/-- A request that changes neither the files of a host nor its output. -/
def Request.Looks : Request → Prop
  | .writeFile _ _ | .makeDirectories _ | .freshId | .print _ => False
  | _ => True

/-- An action with no other requests. -/
def Looks (action : Action α) : Prop :=
  Meets { asks := Request.Looks } (fun _ => True) action

theorem looks_pure (value : α) : Looks (pure value) := trivial

theorem looks_ask (q : Request) (h : q.Looks) : Looks (ask q) :=
  meets_request h fun _ _ => trivial

theorem Looks.bind {action : Action α} {f : α → Action β} (h : Looks action)
    (hf : ∀ value, Looks (f value)) : Looks (action >>= f) :=
  Meets.bind h fun value _ => hf value

/-- The same for an action that may end early. -/
def LooksT (action : ExceptT ε Action α) : Prop := Looks action.run

theorem looksT_pure (value : α) : LooksT (pure value : ExceptT ε Action α) := trivial

theorem looksT_throw (e : ε) : LooksT (throw e : ExceptT ε Action α) := trivial

theorem looksT_lift {action : Action α} (h : Looks action) :
    LooksT (liftM action : ExceptT ε Action α) :=
  h.bind fun _ => trivial

theorem LooksT.bind {action : ExceptT ε Action α} {f : α → ExceptT ε Action β}
    (h : LooksT action) (hf : ∀ value, LooksT (f value)) : LooksT (action >>= f) := by
  unfold LooksT
  rw [ExceptT.run_bind]
  apply Looks.bind h
  intro result
  cases result with
  | ok value => exact hf value
  | error e => trivial

theorem LooksT.mapM {f : α → ExceptT ε Action β} (h : ∀ a, LooksT (f a)) (as : List α) :
    LooksT (as.mapM f) := by
  induction as with
  | nil => exact looksT_pure []
  | cons a as ih =>
    rw [List.mapM_cons]
    exact (h a).bind fun b => ih.bind fun bs => looksT_pure (b :: bs)

/-! ### Actions that print nothing -/

def Request.IsQuiet : Request → Prop
  | .print _ => False
  | _ => True

/-- An action that prints nothing. -/
def Quiet (action : Action α) : Prop :=
  Meets { asks := Request.IsQuiet } (fun _ => True) action

theorem quiet_ask (q : Request) (h : q.IsQuiet) : Quiet (ask q) :=
  meets_request h fun _ _ => trivial

theorem Quiet.bind {action : Action α} {f : α → Action β} (h : Quiet action)
    (hf : ∀ value, Quiet (f value)) : Quiet (action >>= f) :=
  Meets.bind h fun value _ => hf value

theorem quiet_lift {action : Action α} (h : Quiet action) :
    Quiet (liftM action : ExceptT ε Action α).run :=
  h.bind fun _ => trivial

theorem Quiet.bindT {action : ExceptT ε Action α} {f : α → ExceptT ε Action β}
    (h : Quiet action.run) (hf : ∀ value, Quiet (f value).run) : Quiet (action >>= f).run := by
  rw [ExceptT.run_bind]
  apply Quiet.bind h
  intro result
  cases result with
  | ok value => exact hf value
  | error e => trivial

theorem Request.Looks.isQuiet {q : Request} (h : q.Looks) : q.IsQuiet := by
  cases q with
  | print => exact h
  | _ => trivial

theorem Looks.quiet {action : Action α} (h : Looks action) : Quiet action := by
  induction action with
  | done value => trivial
  | ask q next ih =>
    exact ⟨Request.Looks.isQuiet h.1, fun answer _ => ih answer (h.2 answer trivial)⟩

namespace Model

variable {m n o : Model}

/-- The answer of a host to a request. -/
def reply (m : Model) (q : Request) : Answer q := ((answer q).run m).1

theorem eval_ask (m : Model) (q : Request) : (ask q).eval m.reply = m.reply q := rfl

theorem eval_readFile (m : Model) (name : String) :
    (readFile name).eval m.reply = m.disk.read m.directory name :=
  eval_ask m (.readFile name)

theorem eval_resolve (m : Model) (name : String) :
    (resolve name).eval m.reply = m.disk.resolve m.directory name :=
  eval_ask m (.resolve name)

theorem eval_isDirectory (m : Model) (name : String) :
    (isDirectory name).eval m.reply = m.disk.isDirectory m.directory name :=
  eval_ask m (.isDirectory name)

/-- Two states of a host with the same files. -/
structure SameFiles (m n : Model) : Prop where
  disk : n.disk = m.disk
  directory : n.directory = m.directory

/-- Two states of a host with the same files and the same output. -/
structure LooksLike (m n : Model) : Prop extends SameFiles m n where
  output : n.output = m.output

theorem SameFiles.trans (h : SameFiles m n) (h' : SameFiles n o) : SameFiles m o :=
  ⟨h'.disk.trans h.disk, h'.directory.trans h.directory⟩

theorem LooksLike.refl (m : Model) : LooksLike m m := ⟨⟨rfl, rfl⟩, rfl⟩

theorem LooksLike.trans (h : LooksLike m n) (h' : LooksLike n o) : LooksLike m o :=
  ⟨h.toSameFiles.trans h'.toSameFiles, h'.output.trans h.output⟩

theorem looksLike_answer {q : Request} (h : q.Looks) : LooksLike m ((answer q).run m).2 := by
  cases q with
  | writeFile | makeDirectories | freshId | print => exact h.elim
  | log record =>
    change LooksLike m (if record.reaches m.threshold then _ else m)
    split <;> exact ⟨⟨rfl, rfl⟩, rfl⟩
  | readFile | isDirectory | resolve | workingDirectory | list | logFrom =>
    exact ⟨⟨rfl, rfl⟩, rfl⟩

theorem SameFiles.reply_eq (h : SameFiles m n) {q : Request} (hq : q.Looks) :
    n.reply q = m.reply q := by
  cases q with
  | writeFile | makeDirectories | freshId | print => exact hq.elim
  | readFile name =>
    change n.disk.read n.directory name = m.disk.read m.directory name
    rw [h.disk, h.directory]
  | isDirectory name =>
    change n.disk.isDirectory n.directory name = m.disk.isDirectory m.directory name
    rw [h.disk, h.directory]
  | resolve name =>
    change n.disk.resolve n.directory name = m.disk.resolve m.directory name
    rw [h.disk, h.directory]
  | workingDirectory =>
    change Disk.textOf n.directory = Disk.textOf m.directory
    rw [h.directory]
  | list directory =>
    change n.listing directory = m.listing directory
    rw [listing, listing, h.disk, h.directory]
  | logFrom | log => rfl

theorem idsUsed_answer {q : Request} (h : q.Looks) (m : Model) :
    ((answer q).run m).2.idsUsed = m.idsUsed := by
  cases q with
  | writeFile | makeDirectories | freshId | print => exact h.elim
  | log record =>
    change (if record.reaches m.threshold then _ else m : Model).idsUsed = _
    split <;> rfl
  | readFile | isDirectory | resolve | workingDirectory | list | logFrom => rfl

/-- What an action that only looks comes to depends on the files alone. -/
theorem SameFiles.eval_eq (h : SameFiles m n) {action : Action α} (ha : Looks action) :
    action.eval n.reply = action.eval m.reply := by
  induction action with
  | done value => rfl
  | ask q next ih =>
    change (next (n.reply q)).eval n.reply = _
    rw [h.reply_eq ha.1]
    exact ih (m.reply q) (ha.2 (m.reply q) trivial)

theorem run_bind (m : Model) (action : Action α) (f : α → Action β) :
    m.run (action >>= f) = (m.run action).2.run (f (m.run action).1) := by
  unfold Model.run
  rw [Program.run_bind]
  rfl

theorem run_bind_of_eq {action : Action α} {value : α} (h : m.run action = (value, n))
    (f : α → Action β) : m.run (action >>= f) = n.run (f value) := by
  rw [run_bind, h]

theorem run_ask (m : Model) (q : Request) (next : Answer q → Action α) :
    m.run (.ask q next) = (((answer q).run m).2).run (next (m.reply q)) := rfl

/-- An action that only looks comes to what the answers of the host give it. -/
theorem run_of_looks {action : Action α} (h : Looks action) (m : Model) :
    (m.run action).1 = action.eval m.reply ∧ LooksLike m (m.run action).2 := by
  induction action generalizing m with
  | done value => exact ⟨rfl, .refl m⟩
  | ask q next ih =>
    have hq : LooksLike m ((answer q).run m).2 := looksLike_answer h.1
    have hnext : Looks (next (m.reply q)) := h.2 (m.reply q) trivial
    obtain ⟨hvalue, hlike⟩ := ih (m.reply q) hnext ((answer q).run m).2
    rw [hq.eval_eq hnext] at hvalue
    exact ⟨hvalue, hq.trans hlike⟩

/-- What holds of an action's value for any answers holds of it on any host. -/
theorem run_of_meets {post : α → Prop} {action : Action α} (h : Meets {} post action)
    (m : Model) : post (m.run action).1 := by
  induction action generalizing m with
  | done value => exact h
  | ask q next ih => exact ih (m.reply q) (h.2 (m.reply q) trivial) _

theorem exists_run_of_looks {action : Action α} (h : Looks action) (m : Model) :
    ∃ n, m.run action = (action.eval m.reply, n) ∧ LooksLike m n := by
  obtain ⟨hvalue, hlike⟩ := run_of_looks h m
  exact ⟨_, Prod.ext hvalue rfl, hlike⟩

/-- An action that only looks uses up no identifier. -/
theorem idsUsed_run_of_looks {action : Action α} (h : Looks action) (m : Model) :
    (m.run action).2.idsUsed = m.idsUsed := by
  induction action generalizing m with
  | done value => rfl
  | ask q next ih =>
    rw [run_ask, ih (m.reply q) (h.2 (m.reply q) trivial), idsUsed_answer h.1]

theorem output_answer {q : Request} (h : q.IsQuiet) (m : Model) :
    ((answer q).run m).2.output = m.output := by
  cases q with
  | print => exact h.elim
  | writeFile name text =>
    change (m.commit _).2.output = _
    cases m.disk.write m.directory name (Text.toUtf8 text) <;> rfl
  | makeDirectories name =>
    change (m.commit _).2.output = _
    cases m.disk.makeDirectories m.directory name <;> rfl
  | log record =>
    change (if record.reaches m.threshold then _ else m : Model).output = _
    split <;> rfl
  | readFile | isDirectory | resolve | workingDirectory | list | freshId | logFrom => rfl

/-- An action that prints nothing leaves the output as it is. -/
theorem output_run_of_quiet {action : Action α} (h : Quiet action) (m : Model) :
    (m.run action).2.output = m.output := by
  induction action generalizing m with
  | done value => rfl
  | ask q next ih =>
    rw [run_ask, ih (m.reply q) (h.2 (m.reply q) trivial), output_answer h.1]

/-! ### Steps of actions that may end early -/

theorem runT_bind (m : Model) (action : ExceptT ε Action α) (f : α → ExceptT ε Action β) :
    m.run (action >>= f).run =
      match m.run action.run with
      | (.ok value, n) => n.run (f value).run
      | (.error e, n) => (.error e, n) := by
  rw [ExceptT.run_bind, run_bind]
  cases m.run action.run with
  | mk result n => cases result <;> rfl

theorem runT_bind_of_eq {action : ExceptT ε Action α} {value : α}
    (h : m.run action.run = (.ok value, n)) (f : α → ExceptT ε Action β) :
    m.run (action >>= f).run = n.run (f value).run := by
  rw [runT_bind, h]

theorem runT_bind_of_error {action : ExceptT ε Action α} {e : ε}
    (h : m.run action.run = (.error e, n)) (f : α → ExceptT ε Action β) :
    m.run (action >>= f).run = (.error e, n) := by
  rw [runT_bind, h]

/-- What is made of the value of an action changes nothing. -/
theorem runT_bind_pure (m : Model) (action : ExceptT ε Action α) (f : α → β) :
    m.run (action >>= fun value => pure (f value)).run =
      ((m.run action.run).1.map f, (m.run action.run).2) := by
  rw [runT_bind]
  cases m.run action.run with
  | mk result n => cases result <;> rfl

theorem runT_lift (m : Model) (action : Action α) :
    m.run (liftM action : ExceptT ε Action α).run =
      (.ok (m.run action).1, (m.run action).2) :=
  run_bind m action _

theorem runT_lift_bind (m : Model) (action : Action α) (f : α → ExceptT ε Action β) :
    m.run ((liftM action : ExceptT ε Action α) >>= f).run =
      (m.run action).2.run (f (m.run action).1).run :=
  runT_bind_of_eq (runT_lift m action) f

/-- Where an action does not end early, its first part does not either. -/
theorem exists_of_runT_bind {action : ExceptT ε Action α} {f : α → ExceptT ε Action β}
    {value : β} (h : m.run (action >>= f).run = (.ok value, n)) :
    ∃ first o, m.run action.run = (.ok first, o) ∧ o.run (f first).run = (.ok value, n) := by
  rw [runT_bind] at h
  cases ha : m.run action.run with
  | mk result o =>
    rw [ha] at h
    cases result with
    | ok first => exact ⟨first, o, rfl, h⟩
    | error e => cases h

theorem exists_of_runT_bind_looks {action : ExceptT ε Action α} {f : α → ExceptT ε Action β}
    {value : β} (hl : LooksT action) (h : m.run (action >>= f).run = (.ok value, n)) :
    ∃ first o, action.run.eval m.reply = .ok first ∧ LooksLike m o ∧
      o.run (f first).run = (.ok value, n) := by
  obtain ⟨first, o, ha, hf⟩ := exists_of_runT_bind h
  obtain ⟨hvalue, hlike⟩ := run_of_looks hl m
  rw [ha] at hvalue hlike
  exact ⟨first, o, hvalue.symm, hlike, hf⟩

/-- After an action that only looks, a host goes on with what the action has come to. -/
theorem runT_bind_of_looks {action : ExceptT ε Action α} {value : α} (h : LooksT action)
    (hv : action.run.eval m.reply = .ok value) (f : α → ExceptT ε Action β) :
    ∃ n, LooksLike m n ∧ m.run (action >>= f).run = n.run (f value).run := by
  obtain ⟨hvalue, hn⟩ := run_of_looks h m
  refine ⟨(m.run action.run).2, hn, ?_⟩
  exact runT_bind_of_eq (Prod.ext (hvalue.trans hv) rfl) f

end Model

end Host

end FileSieve
