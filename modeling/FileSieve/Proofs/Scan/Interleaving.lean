import FileSieve.Proofs.Scan.Controlled

/-! # Calls on one controller

Any number of calls are in progress at once. Each move begins a call or lets one get its next answer
from the controller; a listing shows whatever the move says. What happens while a directory is being
listed comes before the answer to that request, so calls from inside a listing are moves too. -/

namespace FileSieve.Control

open Program

/-! ## Worlds and moves -/

/-- A call on a controller. -/
inductive Call where
  | start
  | build (schedule : Scan.Schedule) (depth : Nat) (root : String) (patterns : List String)
      (generation : Option Int)
  | accept (generation : Int) (found : Option ScanResult) (rules : List Rule)
  | scan (schedule : Scan.Schedule) (depth : Nat) (root : String) (patterns : List String)

/-- What a call returns. -/
inductive Reply where
  | started (generation : Int)
  | built (found : Option ScanResult) (rules : List Rule)
  | accepted (accepted : Bool)
  | scanned (found : Option ScanResult)
deriving DecidableEq

/-- What a call does. -/
def Call.program : Call → Controlled Reply
  | start => do
    let generation : Int ← ask .start
    return .started generation
  | build schedule depth root patterns generation => do
    let (found, rules) ← buildTree schedule depth root patterns generation
    return .built found rules
  | accept generation found rules => do
    let accepted : Bool ← ask (.accept generation found rules)
    return .accepted accepted
  | scan schedule depth root patterns => do
    let found ← Control.scan schedule depth root patterns
    return .scanned found

/-- A call with what is left of it. -/
structure Activity where
  call : Call
  rest : Program interface (Except Scan.Fault Reply)

/-- A request that a call got answered, and the controller before and after. -/
structure Event where
  caller : Nat
  exchange : Exchange interface
  before : Controller
  after : Controller

/-- A controller, the calls on it in the order in which they began, and what has happened. -/
structure World where
  controller : Controller
  activities : List Activity := []
  history : List Event := []

/-- What may happen next. -/
inductive Move where
  /-- A call begins. -/
  | call (call : Call)
  /-- A call goes on; if it asks for a listing, it gets this one. -/
  | goOn (caller : Nat) (listing : Except ListingFailure (List Entry))

/-- The answer of a controller to a request. -/
def answer (listing : Except ListingFailure (List Entry)) (q : Request) (c : Controller) :
    Answer q × Controller :=
  (respond (fun _ => pure listing) (fun _ => pure ()) q : StateM Controller (Answer q)).run c

namespace World

/-- Makes a move. A call that has come to its end stays there. -/
def step (w : World) : Move → World
  | .call call => { w with activities := w.activities ++ [⟨call, call.program.run⟩] }
  | .goOn caller listing =>
    match w.activities[caller]? with
    | some ⟨call, .ask q next⟩ =>
      let (reply, after) := answer listing q w.controller
      { controller := after
        activities := w.activities.set caller ⟨call, next reply⟩
        history := w.history ++ [⟨caller, ⟨q, reply⟩, w.controller, after⟩] }
    | _ => w

/-- Makes moves one after the other. -/
def run (w : World) (moves : List Move) : World :=
  moves.foldl step w

end World

/-! ## What a controller answers -/

namespace Event

/-- The controller has answered as it does. -/
def Fits (e : Event) : Prop :=
  ∃ listing, answer listing e.exchange.1 e.before = (e.exchange.2, e.after)

/-- The generation that an event hands out. -/
def started? (e : Event) : Option Int :=
  match e.exchange with
  | ⟨.start, generation⟩ => some generation
  | _ => none

end Event

/-- Two states show the same result, rules, selection and active path. -/
structure Agree (c d : Controller) : Prop where
  result : c.result = d.result
  rules : c.rules = d.rules
  selection : c.selection = d.selection
  active : c.active = d.active

theorem forM_ignored (records : List Log.Record) :
    (records.forM fun _ => pure () : StateM Controller Unit) = pure () := by
  induction records with
  | nil => rfl
  | cons record records ih => exact ih

variable {listing : Except ListingFailure (List Entry)}

theorem answer_rules (patterns : List String) (c : Controller) :
    answer listing (.rules patterns) c =
      ((c.cache.get patterns).1, { c with cache := (c.cache.get patterns).2.2 }) := by
  have hlog := forM_ignored (c.cache.get patterns).2.1
  exact congrArg (fun log : StateM Controller Unit =>
    (do
      set { c with cache := (c.cache.get patterns).2.2 }
      log
      return (c.cache.get patterns).1 : StateM Controller (List Rule)).run c) hlog

theorem answer_accept (g : Int) (found : Option ScanResult) (rules : List Rule) (c : Controller) :
    answer listing (.accept g found rules) c = c.accept g found rules := by
  unfold answer respond
  cases h : c.accept g found rules with
  | mk accepted after =>
    cases accepted with
    | false => simp [h]; rfl
    | true => simp [h]; rfl

theorem accept_generation (c : Controller) (g : Int) (found : Option ScanResult)
    (rules : List Rule) : (c.accept g found rules).2.generation = c.generation := by
  unfold Controller.accept
  split
  · cases found <;> rfl
  · rfl

/-- Only the opening of a scan changes the generation. -/
theorem generation_answer (q : Request) (c : Controller) :
    (answer listing q c).2.generation =
      c.generation + (if q.isStart then 1 else 0) := by
  cases q with
  | start => rfl
  | rules patterns =>
    rw [answer_rules]
    exact (Int.add_zero _).symm
  | accept g found rules =>
    rw [answer_accept, accept_generation]
    exact (Int.add_zero _).symm
  | isCurrent | workers | list | log => exact (Int.add_zero _).symm

/-- Only a result that is handed in changes what a controller shows. -/
theorem agree_answer {q : Request} (hq : q.isAccept = false) (c : Controller) :
    Agree c (answer listing q c).2 := by
  cases q with
  | accept g found rules => cases hq
  | rules patterns =>
    rw [answer_rules]
    exact ⟨rfl, rfl, rfl, rfl⟩
  | start | isCurrent | workers | list | log => exact ⟨rfl, rfl, rfl, rfl⟩

/-! ## What one event does -/

namespace Event

variable {e : Event}

theorem Fits.start (h : e.Fits) {g : Int} (he : e.exchange = ⟨.start, g⟩) :
    g = e.before.generation + 1 := by
  obtain ⟨listing, h⟩ := h
  obtain ⟨caller, exchange, before, after⟩ := e
  subst he
  exact (congrArg Prod.fst h).symm

theorem Fits.isCurrent (h : e.Fits) {g : Int} {current : Bool}
    (he : e.exchange = ⟨.isCurrent g, current⟩) : current = e.before.isCurrent g := by
  obtain ⟨listing, h⟩ := h
  obtain ⟨caller, exchange, before, after⟩ := e
  subst he
  exact (congrArg Prod.fst h).symm

theorem Fits.accept (h : e.Fits) {g : Int} {found : Option ScanResult} {rules : List Rule}
    {accepted : Bool} (he : e.exchange = ⟨.accept g found rules, accepted⟩) :
    e.before.accept g found rules = (accepted, e.after) := by
  obtain ⟨listing, h⟩ := h
  obtain ⟨caller, exchange, before, after⟩ := e
  subst he
  rw [← answer_accept]
  exact h

theorem Fits.generation (h : e.Fits) :
    e.after.generation = e.before.generation + (if e.exchange.1.isStart then 1 else 0) := by
  obtain ⟨listing, h⟩ := h
  rw [← generation_answer, h]

theorem Fits.agree (h : e.Fits) (hq : e.exchange.1.isAccept = false) :
    Agree e.before e.after := by
  obtain ⟨listing, h⟩ := h
  have ha := @agree_answer listing _ hq e.before
  rwa [h] at ha

end Event

/-! ## Histories -/

/-- The events lead from one state of the controller to another. -/
def Linked (c : Controller) : List Event → Controller → Prop
  | [], d => c = d
  | e :: rest, d => e.before = c ∧ e.Fits ∧ Linked e.after rest d

theorem linked_append_iff {c d : Controller} {front back : List Event} :
    Linked c (front ++ back) d ↔ ∃ middle, Linked c front middle ∧ Linked middle back d := by
  induction front generalizing c with
  | nil =>
    constructor
    · intro h
      exact ⟨c, rfl, h⟩
    · intro h
      obtain ⟨_, rfl, h⟩ := h
      exact h
  | cons e front ih =>
    rw [List.cons_append, Linked, ih]
    constructor
    · intro h
      obtain ⟨hb, hf, middle, hfront, hback⟩ := h
      exact ⟨middle, ⟨hb, hf, hfront⟩, hback⟩
    · intro h
      obtain ⟨middle, ⟨hb, hf, hfront⟩, hback⟩ := h
      exact ⟨hb, hf, middle, hfront, hback⟩

theorem Linked.fits {c d : Controller} {events : List Event} (h : Linked c events d) :
    ∀ e ∈ events, e.Fits := by
  induction events generalizing c with
  | nil => exact fun e he => absurd he List.not_mem_nil
  | cons e events ih => exact List.forall_mem_cons.2 ⟨h.2.1, ih h.2.2⟩

/-- The exchanges of one call. -/
def own (caller : Nat) (history : List Event) : List (Exchange interface) :=
  (history.filter fun e => e.caller = caller).map Event.exchange

/-- The history leads to the present state, and each call has got on by its own exchanges. -/
structure Consistent (c : Controller) (w : World) : Prop where
  linked : Linked c w.history w.controller
  traces : ∀ caller activity, w.activities[caller]? = some activity →
    Trace activity.call.program.run (own caller w.history) activity.rest
  callers : ∀ e ∈ w.history, e.caller < w.activities.length

theorem own_eq_nil {caller : Nat} {history : List Event} (h : ∀ e ∈ history, e.caller ≠ caller) :
    own caller history = [] := by
  have hnone : history.filter (fun e => e.caller = caller) = [] := by
    apply List.filter_eq_nil_iff.2
    intro e he
    simpa using h e he
  rw [own, hnone, List.map_nil]

theorem own_concat_self (caller : Nat) (history : List Event) (exchange : Exchange interface)
    (before after : Controller) :
    own caller (history ++ [⟨caller, exchange, before, after⟩]) =
      own caller history ++ [exchange] := by
  simp [own]

theorem own_concat_of_ne {caller : Nat} {e : Event} (h : e.caller ≠ caller)
    (history : List Event) : own caller (history ++ [e]) = own caller history := by
  simp [own, h]

theorem consistent_start (c : Controller) : Consistent c { controller := c } where
  linked := rfl
  traces := fun _ _ h => by cases h
  callers := fun _ he => absurd he List.not_mem_nil

theorem Consistent.call {c : Controller} {w : World} (h : Consistent c w) (call : Call) :
    Consistent c (w.step (.call call)) where
  linked := h.linked
  traces := by
    intro caller activity ha
    rw [World.step, List.getElem?_append] at ha
    split at ha
    · exact h.traces caller activity ha
    · next hlt =>
      have hown : own caller w.history = [] := by
        apply own_eq_nil
        intro e he hc
        exact hlt (hc ▸ h.callers e he)
      have hnew : activity = ⟨call, call.program.run⟩ := by
        have hm := List.mem_of_getElem? ha
        exact List.mem_singleton.1 hm
      subst hnew
      have htrace := Trace.nil call.program.run
      rw [← hown] at htrace
      exact htrace
  callers := by
    intro e he
    have := h.callers e he
    simp only [World.step, List.length_append, List.length_singleton]
    omega

theorem Consistent.goOn {c : Controller} {w : World} (h : Consistent c w) (caller : Nat)
    (listing : Except ListingFailure (List Entry)) :
    Consistent c (w.step (.goOn caller listing)) := by
  rw [World.step]
  split
  · next call q next ha =>
    have hlt : caller < w.activities.length := (List.getElem?_eq_some_iff.1 ha).1
    cases hanswer : answer listing q w.controller with
    | mk reply after =>
      refine ⟨?_, ?_, ?_⟩
      · exact linked_append_iff.2 ⟨w.controller, h.linked, rfl, ⟨listing, hanswer⟩, rfl⟩
      · intro other activity ho
        rw [List.getElem?_set] at ho
        by_cases hc : caller = other
        · subst hc
          rw [if_pos rfl, if_pos hlt] at ho
          cases ho
          rw [own_concat_self]
          exact (h.traces caller _ ha).concat reply
        · rw [if_neg hc] at ho
          rw [own_concat_of_ne hc]
          exact h.traces other activity ho
      · intro e he
        rw [List.length_set]
        rcases List.mem_append.1 he with he | he
        · exact h.callers e he
        · rw [List.mem_singleton.1 he]
          exact hlt
  · exact h

theorem Consistent.step {c : Controller} {w : World} (h : Consistent c w) (move : Move) :
    Consistent c (w.step move) := by
  cases move with
  | call call => exact h.call call
  | goOn caller listing => exact h.goOn caller listing

/-- Every world that is reached is consistent. -/
theorem Consistent.run {c : Controller} {w : World} (h : Consistent c w) (moves : List Move) :
    Consistent c (w.run moves) := by
  induction moves generalizing w with
  | nil => exact h
  | cons move moves ih => exact ih (h.step move)

end FileSieve.Control
