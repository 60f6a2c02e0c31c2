import Mathlib.Data.List.Forall2
import FileSieve.Program

/-! # Programs in changing surroundings

A trace is what passes between a program and its surroundings, whatever they answer. Terms say what
the program may ask and what it may count on; a program that meets them keeps its part in every
trace in which the surroundings keep theirs. -/

namespace FileSieve

/-- A request with the answer to it. -/
abbrev Exchange (I : Interface) : Type := (q : I.Request) × I.Answer q

/-- What a program may ask, and what it may count on in the answers. -/
structure Terms (I : Interface) where
  asks : I.Request → Prop := fun _ => True
  gets : Exchange I → Prop := fun _ => True

namespace Program

variable {I J : Interface} {α β ε : Type}

/-! ## Traces -/

/-- The exchanges by which a program gets on to what is left of it. -/
inductive Trace : Program I α → List (Exchange I) → Program I α → Prop
  | nil (p : Program I α) : Trace p [] p
  | cons {q : I.Request} {next : I.Answer q → Program I α} {answer : I.Answer q}
      {more : List (Exchange I)} {rest : Program I α} (h : Trace (next answer) more rest) :
      Trace (ask q next) (⟨q, answer⟩ :: more) rest

/-- The exchanges by which a program comes to a value. -/
def Ends (p : Program I α) (exchanges : List (Exchange I)) (value : α) : Prop :=
  Trace p exchanges (done value)

theorem Trace.concat {p : Program I α} {exchanges : List (Exchange I)} {q : I.Request}
    {next : I.Answer q → Program I α} (h : Trace p exchanges (ask q next))
    (answer : I.Answer q) : Trace p (exchanges ++ [⟨q, answer⟩]) (next answer) := by
  generalize hrest : ask q next = rest at h
  induction h with
  | nil p =>
    subst hrest
    exact .cons (.nil _)
  | cons _ ih => exact .cons (ih hrest)

theorem ends_done_iff {value result : α} {exchanges : List (Exchange I)} :
    Ends (done value : Program I α) exchanges result ↔ exchanges = [] ∧ result = value := by
  constructor
  · intro h
    cases h with
    | nil => exact ⟨rfl, rfl⟩
  · intro h
    obtain ⟨rfl, rfl⟩ := h
    exact .nil _

theorem ends_ask_iff {q : I.Request} {next : I.Answer q → Program I α}
    {exchanges : List (Exchange I)} {result : α} :
    Ends (ask q next) exchanges result ↔
      ∃ answer more, exchanges = ⟨q, answer⟩ :: more ∧ Ends (next answer) more result := by
  constructor
  · intro h
    cases h with
    | cons h => exact ⟨_, _, rfl, h⟩
  · intro h
    obtain ⟨answer, more, rfl, h⟩ := h
    exact .cons h

theorem ends_bind_iff {p : Program I α} {f : α → Program I β} {exchanges : List (Exchange I)}
    {result : β} :
    Ends (p >>= f) exchanges result ↔
      ∃ value first more, exchanges = first ++ more ∧ Ends p first value ∧
        Ends (f value) more result := by
  induction p generalizing exchanges with
  | done value =>
    constructor
    · intro h
      exact ⟨value, [], exchanges, rfl, .nil _, h⟩
    · intro h
      obtain ⟨_, _, more, rfl, hp, hf⟩ := h
      obtain ⟨rfl, rfl⟩ := ends_done_iff.1 hp
      exact hf
  | ask q next ih =>
    rw [ask_bind, ends_ask_iff]
    constructor
    · intro h
      obtain ⟨answer, _, rfl, h⟩ := h
      obtain ⟨value, first, more, rfl, hp, hf⟩ := (ih answer).1 h
      exact ⟨value, ⟨q, answer⟩ :: first, more, rfl, .cons hp, hf⟩
    · intro h
      obtain ⟨value, _, more, rfl, hp, hf⟩ := h
      obtain ⟨answer, first, rfl, hnext⟩ := ends_ask_iff.1 hp
      exact ⟨answer, first ++ more, rfl, (ih answer).2 ⟨value, first, more, rfl, hnext, hf⟩⟩

/-! ## Meeting terms -/

/-- The program asks only what the terms allow, and comes to a value with a property, as long as
the answers are as the terms say. -/
def Meets (t : Terms I) (post : α → Prop) : Program I α → Prop
  | done value => post value
  | ask q next => t.asks q ∧ ∀ answer, t.gets ⟨q, answer⟩ → Meets t post (next answer)

variable {t : Terms I}

theorem Meets.trace {post : α → Prop} {p rest : Program I α} {exchanges : List (Exchange I)}
    (h : Meets t post p) (ht : Trace p exchanges rest) (hg : ∀ e ∈ exchanges, t.gets e) :
    (∀ e ∈ exchanges, t.asks e.1) ∧ Meets t post rest := by
  induction ht with
  | nil p => exact ⟨fun e he => absurd he List.not_mem_nil, h⟩
  | cons _ ih =>
    obtain ⟨ha, hrest⟩ := ih (h.2 _ (hg _ List.mem_cons_self)) fun e he =>
      hg e (List.mem_cons_of_mem _ he)
    exact ⟨List.forall_mem_cons.2 ⟨h.1, ha⟩, hrest⟩

theorem Meets.ends {post : α → Prop} {p : Program I α} {exchanges : List (Exchange I)} {value : α}
    (h : Meets t post p) (he : Ends p exchanges value) (hg : ∀ e ∈ exchanges, t.gets e) :
    post value :=
  (h.trace he hg).2

theorem Meets.bind {post : α → Prop} {post' : β → Prop} {p : Program I α} {f : α → Program I β}
    (h : Meets t post p) (hf : ∀ value, post value → Meets t post' (f value)) :
    Meets t post' (p >>= f) := by
  induction p with
  | done value => exact hf value h
  | ask q next ih => exact ⟨h.1, fun answer hg => ih answer (h.2 answer hg)⟩

theorem Meets.mono {post post' : α → Prop} {p : Program I α} (h : Meets t post p)
    (hpost : ∀ value, post value → post' value) : Meets t post' p := by
  induction p with
  | done value => exact hpost value h
  | ask q next ih => exact ⟨h.1, fun answer hg => ih answer (h.2 answer hg)⟩

theorem meets_request {q : I.Request} {post : I.Answer q → Prop} (ha : t.asks q)
    (h : ∀ answer, t.gets ⟨q, answer⟩ → post answer) : Meets t post (request q) :=
  ⟨ha, h⟩

theorem Meets.mapM {post : α → β → Prop} {f : α → Program I β} {as : List α}
    (h : ∀ a ∈ as, Meets t (post a) (f a)) : Meets t (List.Forall₂ post as) (as.mapM f) := by
  induction as with
  | nil => exact .nil
  | cons a as ih =>
    have hrest := ih fun b hb => h b (List.mem_cons_of_mem a hb)
    rw [List.mapM_cons]
    exact (h a List.mem_cons_self).bind fun value hv => hrest.bind fun values hvs => .cons hv hvs

theorem meets_of_asks (ha : ∀ q, t.asks q) (p : Program I α) : Meets t (fun _ => True) p := by
  induction p with
  | done value => trivial
  | ask q next ih => exact ⟨ha q, fun answer _ => ih answer⟩

/-- A program whose requests are served by other programs meets their terms, if they bring about
what it counts on. -/
theorem Meets.run {post : α → Prop} {u : Terms J} {serve : (q : I.Request) → Program J (I.Answer q)}
    {p : Program I α} (h : Meets t post p)
    (hs : ∀ q, Meets u (fun answer => t.gets ⟨q, answer⟩) (serve q)) :
    Meets u post (p.run serve) := by
  induction p with
  | done value => exact h
  | ask q next ih => exact (hs q).bind fun answer hg => ih answer (h.2 answer hg)

/-! ## Programs with faults -/

/-- The result is a value with a property or one of some faults. -/
def Allows (faults : ε → Prop) (post : α → Prop) : Except ε α → Prop
  | .ok value => post value
  | .error fault => faults fault

theorem Allows.bind {faults : ε → Prop} {post : α → Prop} {post' : β → Prop} {result : Except ε α}
    {f : α → Except ε β} (h : Allows faults post result)
    (hf : ∀ value, post value → Allows faults post' (f value)) :
    Allows faults post' (result >>= f) := by
  cases result with
  | ok value => exact hf value h
  | error fault => exact h

theorem Allows.mono {faults : ε → Prop} {post post' : α → Prop} {result : Except ε α}
    (h : Allows faults post result) (hpost : ∀ value, post value → post' value) :
    Allows faults post' result := by
  cases result with
  | ok value => exact hpost value h
  | error fault => exact h

theorem Allows.map {faults : ε → Prop} {post : β → Prop} {f : α → β} {result : Except ε α}
    (h : Allows faults (fun value => post (f value)) result) :
    Allows faults post (result.map f) := by
  cases result <;> exact h

theorem Allows.mapM {faults : ε → Prop} {post : α → β → Prop} {f : α → Except ε β} {as : List α}
    (h : ∀ a ∈ as, Allows faults (post a) (f a)) :
    Allows faults (List.Forall₂ post as) (as.mapM f) := by
  induction as with
  | nil => exact .nil
  | cons a as ih =>
    have hrest := ih fun b hb => h b (List.mem_cons_of_mem a hb)
    rw [List.mapM_cons]
    exact (h a List.mem_cons_self).bind fun value hv => hrest.bind fun values hvs => .cons hv hvs

/-- A sequence stops with a fault of its first part, or goes on to its second part. -/
theorem ends_bind_cases {x : ExceptT ε (Program I) α} {f : α → ExceptT ε (Program I) β}
    {exchanges : List (Exchange I)} {result : Except ε β}
    (h : Ends (x >>= f).run exchanges result) :
    (∃ fault, Ends x.run exchanges (.error fault) ∧ result = .error fault) ∨
      ∃ value first more, exchanges = first ++ more ∧ Ends x.run first (.ok value) ∧
        Ends (f value).run more result := by
  rw [ExceptT.run_bind] at h
  obtain ⟨found, first, more, rfl, hx, hf⟩ := ends_bind_iff.1 h
  cases found with
  | ok value => exact .inr ⟨value, first, more, rfl, hx, hf⟩
  | error fault =>
    obtain ⟨rfl, rfl⟩ := ends_done_iff.1 hf
    rw [List.append_nil]
    exact .inl ⟨fault, hx, rfl⟩

/-- A sequence that comes to a value has gone on from its first part to its second part. -/
theorem ends_bind_of_ok {x : ExceptT ε (Program I) α} {f : α → ExceptT ε (Program I) β}
    {exchanges : List (Exchange I)} {result : β}
    (h : Ends (x >>= f).run exchanges (.ok result)) :
    ∃ value first more, exchanges = first ++ more ∧ Ends x.run first (.ok value) ∧
      Ends (f value).run more (.ok result) := by
  rcases ends_bind_cases h with ⟨fault, -, hr⟩ | hgone
  · cases hr
  · exact hgone

/-- What is done with the value of a program asks nothing more. -/
theorem ends_bind_pure {x : ExceptT ε (Program I) α} {f : α → β} {exchanges : List (Exchange I)}
    {result : Except ε β} (h : Ends (x >>= fun value => pure (f value)).run exchanges result) :
    ∃ returned, Ends x.run exchanges returned ∧ result = returned.map f := by
  rcases ends_bind_cases h with ⟨fault, hx, rfl⟩ | ⟨value, first, more, rfl, hx, hreturn⟩
  · exact ⟨_, hx, rfl⟩
  · obtain ⟨rfl, rfl⟩ := ends_done_iff.1 hreturn
    rw [List.append_nil]
    exact ⟨_, hx, rfl⟩

theorem ends_lift_request {q : I.Request} {exchanges : List (Exchange I)}
    {result : Except ε (I.Answer q)}
    (h : Ends (liftM (request q) : ExceptT ε (Program I) (I.Answer q)).run exchanges result) :
    ∃ answer, exchanges = [⟨q, answer⟩] ∧ result = .ok answer := by
  obtain ⟨answer, more, rfl, hmore⟩ := ends_ask_iff.1 h
  obtain ⟨rfl, rfl⟩ := ends_done_iff.1 hmore
  exact ⟨answer, rfl, rfl⟩

/-- The program comes to a value with a property, or stops with one of some faults, on terms. -/
def Delivers (t : Terms I) (faults : ε → Prop) (post : α → Prop) (x : ExceptT ε (Program I) α) :
    Prop :=
  Meets t (Allows faults post) x.run

variable {faults : ε → Prop}

theorem delivers_pure {post : α → Prop} {value : α} (h : post value) :
    Delivers t faults post (pure value) := h

theorem delivers_of_result {post : α → Prop} {result : Except ε α} (h : Allows faults post result) :
    Delivers t faults post (ExceptT.mk (pure result)) := h

theorem delivers_of_asks (ha : ∀ q, t.asks q) (x : ExceptT ε (Program I) α) :
    Delivers t (fun _ => True) (fun _ => True) x := by
  apply (meets_of_asks ha x.run).mono
  intro result _
  cases result <;> trivial

theorem delivers_lift {post : α → Prop} {p : Program I α} (h : Meets t post p) :
    Delivers t faults post (liftM p) :=
  h.bind fun _ hv => hv

theorem Delivers.bind {post : α → Prop} {post' : β → Prop} {x : ExceptT ε (Program I) α}
    {f : α → ExceptT ε (Program I) β} (h : Delivers t faults post x)
    (hf : ∀ value, post value → Delivers t faults post' (f value)) :
    Delivers t faults post' (x >>= f) := by
  unfold Delivers
  rw [ExceptT.run_bind]
  apply Meets.bind h
  intro result hr
  cases result with
  | ok value => exact hf value hr
  | error fault => exact hr

theorem Delivers.mono {post post' : α → Prop} {x : ExceptT ε (Program I) α}
    (h : Delivers t faults post x) (hpost : ∀ value, post value → post' value) :
    Delivers t faults post' x := by
  apply Meets.mono h
  intro result hr
  cases result with
  | ok value => exact hpost value hr
  | error fault => exact hr

theorem Delivers.mapM {post : α → β → Prop} {f : α → ExceptT ε (Program I) β} {as : List α}
    (h : ∀ a ∈ as, Delivers t faults (post a) (f a)) :
    Delivers t faults (List.Forall₂ post as) (as.mapM f) := by
  induction as with
  | nil => exact delivers_pure .nil
  | cons a as ih =>
    have hrest := ih fun b hb => h b (List.mem_cons_of_mem a hb)
    rw [List.mapM_cons]
    exact (h a List.mem_cons_self).bind fun value hv =>
      hrest.bind fun values hvs => delivers_pure (.cons hv hvs)

end Program

end FileSieve
