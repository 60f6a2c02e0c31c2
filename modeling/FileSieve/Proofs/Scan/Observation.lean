import FileSieve.Proofs.Program.Evaluation
import FileSieve.Scan.Catalogue

/-! # Scans over listings that stay the same

What a scan comes to when it is never called off, and the requests that it sends meanwhile. A scan
either yields a value or fails with a listing that went wrong, and both are found step by step. -/

namespace FileSieve.Scan

open Program

variable {α β : Type} (list : String → Except ListingFailure (List Entry))

/-- The answers to a scan that is never called off. -/
def steadyAnswer : (q : interface.Request) → interface.Answer q
  | .list directory => list directory
  | .log _ => ()
  | .cancelled => false

/-- What a scan comes to. -/
def outcome (scan : Scanning α) : Except Fault α :=
  scan.run.eval (steadyAnswer list)

/-- The requests that a scan sends. -/
def requests (scan : Scanning α) : List Request :=
  scan.run.asked (steadyAnswer list)

/-- The scan comes to a value and sends these requests. -/
def Yields (scan : Scanning α) (value : α) (sent : List Request) : Prop :=
  outcome list scan = .ok value ∧ requests list scan = sent

/-- The scan stops because of a listing that went wrong. -/
def Fails (scan : Scanning α) : Prop :=
  ∃ reason, outcome list scan = .error (.listing reason)

variable {list}

/-! ### Single requests -/

theorem eval_askListing (directory : String) :
    (askListing directory).eval (steadyAnswer list) = list directory :=
  eval_request ..

theorem asked_askListing (directory : String) :
    (askListing directory).asked (steadyAnswer list) = [.list directory] :=
  asked_request ..

theorem asked_sendLog (level : Log.Level) (text : String) :
    (sendLog level text).asked (steadyAnswer list) = [.log ⟨level, text⟩] :=
  asked_request ..

theorem yields_sendLog (level : Log.Level) (text : String) :
    Yields list (sendLog level text) () [.log ⟨level, text⟩] :=
  ⟨rfl, rfl⟩

theorem yields_askCancelled : Yields list askCancelled false [.cancelled] :=
  ⟨rfl, rfl⟩

/-! ### Steps of a scan -/

theorem outcome_bind (scan : Scanning α) (f : α → Scanning β) :
    outcome list (scan >>= f) = outcome list scan >>= fun value => outcome list (f value) := by
  unfold outcome
  rw [ExceptT.run_bind, eval_bind]
  cases scan.run.eval (steadyAnswer list) <;> rfl

theorem requests_bind_of_ok {scan : Scanning α} {value : α} (h : outcome list scan = .ok value)
    (f : α → Scanning β) :
    requests list (scan >>= f) = requests list scan ++ requests list (f value) := by
  unfold outcome at h
  unfold requests
  rw [ExceptT.run_bind, asked_bind, h]

theorem yields_pure (value : α) : Yields list (pure value) value [] :=
  ⟨rfl, rfl⟩

theorem yields_lift (p : Program interface α) :
    Yields list p (p.eval (steadyAnswer list)) (p.asked (steadyAnswer list)) := by
  constructor
  · exact eval_bind _ p _
  · exact (asked_bind _ p _).trans (List.append_nil _)

theorem Yields.bind {scan : Scanning α} {value : α} {sent : List Request} {f : α → Scanning β}
    {result : β} {more : List Request} (h : Yields list scan value sent)
    (hf : Yields list (f value) result more) : Yields list (scan >>= f) result (sent ++ more) := by
  constructor
  · rw [outcome_bind, h.1]
    exact hf.1
  · rw [requests_bind_of_ok h.1, h.2, hf.2]

theorem Yields.map {scan : Scanning α} {value : α} {sent : List Request}
    (h : Yields list scan value sent) (f : α → β) :
    Yields list (do return f (← scan)) (f value) sent := by
  have hr := @Yields.bind _ _ _ _ _ _ (fun value => pure (f value)) _ _ h (yields_pure (f value))
  rwa [List.append_nil] at hr

theorem Yields.mapM {f : α → Scanning β} {value : α → β} {sent : α → List Request} {as : List α}
    (h : ∀ a ∈ as, Yields list (f a) (value a) (sent a)) :
    Yields list (as.mapM f) (as.map value) (as.flatMap sent) := by
  induction as with
  | nil => exact yields_pure []
  | cons a as ih =>
    have hrest := ih fun b hb => h b (List.mem_cons_of_mem a hb)
    rw [List.mapM_cons]
    exact (h a List.mem_cons_self).bind (hrest.map (value a :: ·))

theorem Fails.bind {scan : Scanning α} (h : Fails list scan) (f : α → Scanning β) :
    Fails list (scan >>= f) := by
  obtain ⟨reason, h⟩ := h
  refine ⟨reason, ?_⟩
  rw [outcome_bind, h]
  rfl

theorem Yields.bind_fails {scan : Scanning α} {value : α} {sent : List Request}
    {f : α → Scanning β} (h : Yields list scan value sent) (hf : Fails list (f value)) :
    Fails list (scan >>= f) := by
  obtain ⟨reason, hf⟩ := hf
  refine ⟨reason, ?_⟩
  rw [outcome_bind, h.1]
  exact hf

/-- One failing step makes a sequence of steps fail if the others yield values. -/
theorem Fails.mapM {f : α → Scanning β} {as : List α}
    (h : ∀ a ∈ as, Fails list (f a) ∨ ∃ value sent, Yields list (f a) value sent)
    (hf : ∃ a ∈ as, Fails list (f a)) : Fails list (as.mapM f) := by
  induction as with
  | nil =>
    obtain ⟨a, ha, -⟩ := hf
    cases ha
  | cons a as ih =>
    rw [List.mapM_cons]
    rcases h a List.mem_cons_self with ha | ⟨value, sent, ha⟩
    · exact ha.bind _
    · have hrest : Fails list (as.mapM f) := by
        apply ih fun b hb => h b (List.mem_cons_of_mem a hb)
        obtain ⟨b, hb, hfb⟩ := hf
        rcases List.mem_cons.1 hb with rfl | hb
        · obtain ⟨reason, hfb⟩ := hfb
          rw [ha.1] at hfb
          cases hfb
        · exact ⟨b, hb, hfb⟩
      exact ha.bind_fails (hrest.bind _)

/-! ### What an observer sees -/

/-- The directory whose listing is asked for. -/
def Request.listed? : Request → Option String
  | .list directory => some directory
  | _ => none

/-- The record that is sent to the log. -/
def Request.logged? : Request → Option Log.Record
  | .log record => some record
  | _ => none

/-- Whether a scan asks if it has been called off. -/
def Request.isPoll : Request → Bool
  | .cancelled => true
  | _ => false

/-- A transcript with further requests noted. -/
def noted (t : Transcript) (sent : List Request) : Transcript where
  calls := t.calls ++ sent.filterMap Request.listed?
  log := t.log ++ sent.filterMap Request.logged?
  polls := t.polls + sent.countP Request.isPoll

theorem noted_nil (t : Transcript) : noted t [] = t := by
  simp [noted]

theorem noted_append (t : Transcript) (sent more : List Request) :
    noted t (sent ++ more) = noted (noted t sent) more := by
  simp only [noted, List.filterMap_append, List.countP_append, List.append_assoc, Nat.add_assoc]

/-! ### Answers to polls -/

variable {cancelled : Nat → Bool}

/-- Answers the requests of a scan from listings that stay the same, and each poll by its number. -/
def answerPolls (list : String → Except ListingFailure (List Entry)) (cancelled : Nat → Bool) :
    (q : Request) → StateM Transcript (Answer q)
  | .list directory => do
    modify fun t => { t with calls := t.calls ++ [directory] }
    return list directory
  | .log record => modify fun t => { t with log := t.log ++ [record] }
  | .cancelled => do
    let t ← get
    set { t with polls := t.polls + 1 }
    return cancelled t.polls

/-- Runs a scan from a transcript on, with each poll answered by its number. -/
def observeFrom (list : String → Except ListingFailure (List Entry)) (cancelled : Nat → Bool)
    (scan : Scanning α) (t : Transcript) : Except Fault α × Transcript :=
  (Program.run (I := interface) (answerPolls list cancelled) scan.run).run t

theorem observe_eq_observeFrom (cancelAfter : Option Nat) (scan : Scanning α) :
    observe list cancelAfter scan =
      observeFrom list (fun polls => cancelAfter.any (· ≤ polls)) scan {} := by
  have hanswer : answerFrom list cancelAfter =
      answerPolls list fun polls => cancelAfter.any (· ≤ polls) := by
    funext q
    cases q <;> rfl
  rw [observe, hanswer, observeFrom]

/-- The polls among some requests are answered with no if they are sent from a transcript on. -/
def Calm (cancelled : Nat → Bool) (t : Transcript) (sent : List Request) : Prop :=
  ∀ i < sent.countP Request.isPoll, cancelled (t.polls + i) = false

theorem polls_noted (t : Transcript) (sent : List Request) :
    (noted t sent).polls = t.polls + sent.countP Request.isPoll := rfl

theorem calm_of_countP_eq_zero {t : Transcript} {sent : List Request}
    (h : sent.countP Request.isPoll = 0) : Calm cancelled t sent := by
  simp [Calm, h]

theorem calm_append_iff {t : Transcript} {sent more : List Request} :
    Calm cancelled t (sent ++ more) ↔
      Calm cancelled t sent ∧ Calm cancelled (noted t sent) more := by
  simp only [Calm, List.countP_append, polls_noted]
  constructor
  · intro h
    refine ⟨fun i hi => h i (by omega), fun i hi => ?_⟩
    rw [Nat.add_assoc]
    exact h _ (by omega)
  · intro h i hi
    by_cases hs : i < sent.countP Request.isPoll
    · exact h.1 i hs
    · have hmore := h.2 (i - sent.countP Request.isPoll) (by omega)
      rwa [Nat.add_assoc, Nat.add_sub_cancel' (Nat.le_of_not_lt hs)] at hmore

theorem answerPolls_cancelled (t : Transcript) :
    (answerPolls list cancelled .cancelled).run t = (cancelled t.polls, noted t [.cancelled]) := by
  have hc : t.calls ++ [Request.cancelled].filterMap Request.listed? = t.calls :=
    List.append_nil t.calls
  have hl : t.log ++ [Request.cancelled].filterMap Request.logged? = t.log :=
    List.append_nil t.log
  rw [noted, hc, hl]
  rfl

theorem answerPolls_of_calm {q : Request} {t : Transcript} (h : Calm cancelled t [q]) :
    (answerPolls list cancelled q).run t = (steadyAnswer list q, noted t [q]) := by
  cases q with
  | list directory =>
    have hl : t.log ++ [Request.list directory].filterMap Request.logged? = t.log :=
      List.append_nil t.log
    rw [noted, hl]
    rfl
  | log record =>
    have hc : t.calls ++ [Request.log record].filterMap Request.listed? = t.calls :=
      List.append_nil t.calls
    rw [noted, hc]
    rfl
  | cancelled =>
    have hno : cancelled t.polls = false := h 0 Nat.one_pos
    rw [answerPolls_cancelled, hno, steadyAnswer]

/-- As long as each poll is answered with no, answers are steady. -/
theorem run_answerPolls (p : Program interface α) {t : Transcript}
    (h : Calm cancelled t (p.asked (steadyAnswer list))) :
    (p.run (answerPolls list cancelled)).run t =
      (p.eval (steadyAnswer list), noted t (p.asked (steadyAnswer list))) := by
  induction p generalizing t with
  | done value =>
    rw [asked, noted_nil]
    rfl
  | ask q next ih =>
    obtain ⟨hq, hnext⟩ := (@calm_append_iff _ _ [q] _).1 h
    have hsplit : noted t ((ask q next).asked (steadyAnswer list)) =
        noted (noted t [q]) ((next (steadyAnswer list q)).asked (steadyAnswer list)) :=
      noted_append t [q] _
    rw [hsplit, eval, ← ih (steadyAnswer list q) hnext]
    exact congrArg (fun step : Answer q × Transcript =>
      ((next step.1).run (answerPolls list cancelled)).run step.2) (answerPolls_of_calm hq)

theorem observeFrom_of_yields {scan : Scanning α} {value : α} {sent : List Request}
    (h : Yields list scan value sent) {t : Transcript} (hc : Calm cancelled t sent) :
    observeFrom list cancelled scan t = (.ok value, noted t sent) := by
  obtain ⟨hvalue, rfl⟩ := h
  rw [← hvalue]
  exact run_answerPolls scan.run hc

theorem observeFrom_askCancelled (t : Transcript) :
    observeFrom list cancelled askCancelled t = (.ok (cancelled t.polls), noted t [.cancelled]) := by
  have h := @answerPolls_cancelled list cancelled t
  exact congrArg (fun step : Bool × Transcript => ((.ok step.1 : Except Fault Bool), step.2)) h

/-- The rest of a scan is observed from where its first part has come to. -/
theorem observeFrom_bind {scan : Scanning α} {value : α} {t t' : Transcript}
    (h : observeFrom list cancelled scan t = (.ok value, t')) (f : α → Scanning β) :
    observeFrom list cancelled (scan >>= f) t = observeFrom list cancelled (f value) t' := by
  rw [observeFrom, ExceptT.run_bind, run_bind, StateT.run_bind]
  rw [observeFrom] at h
  rw [h]
  rfl

theorem observe_eq (scan : Scanning α) :
    observe list none scan = (outcome list scan, noted {} (requests list scan)) := by
  rw [observe_eq_observeFrom]
  exact run_answerPolls scan.run fun _ _ => rfl

end FileSieve.Scan
