import FileSieve.Proofs.Program.Trace

/-! # Programs in steady surroundings

Where each request always gets the same answer, a program comes to one value and asks one list of
requests. Both follow the shape of the program. -/

namespace FileSieve.Program

variable {I : Interface} {α β : Type} (answer : (q : I.Request) → I.Answer q)

/-- The value that a program comes to. -/
def eval : Program I α → α
  | done value => value
  | ask q next => (next (answer q)).eval

/-- The requests that a program asks, in order. -/
def asked : Program I α → List I.Request
  | done _ => []
  | ask q next => q :: (next (answer q)).asked

theorem eval_pure (value : α) : (pure value : Program I α).eval answer = value := rfl

theorem asked_pure (value : α) : (pure value : Program I α).asked answer = [] := rfl

theorem eval_request (q : I.Request) : (request q).eval answer = answer q := rfl

theorem asked_request (q : I.Request) : (request q).asked answer = [q] := rfl

theorem eval_bind (p : Program I α) (f : α → Program I β) :
    (p >>= f).eval answer = (f (p.eval answer)).eval answer := by
  induction p with
  | done value => rfl
  | ask q next ih => exact ih (answer q)

theorem asked_bind (p : Program I α) (f : α → Program I β) :
    (p >>= f).asked answer = p.asked answer ++ (f (p.eval answer)).asked answer := by
  induction p with
  | done value => rfl
  | ask q next ih => exact congrArg (q :: ·) (ih (answer q))

theorem asked_mapM (f : α → Program I β) (as : List α) :
    (as.mapM f).asked answer = as.flatMap fun a => (f a).asked answer := by
  induction as with
  | nil => rfl
  | cons a as ih =>
    simp only [List.mapM_cons, asked_bind, ih, asked_pure, List.append_nil, List.flatMap_cons]

/-! ### Terms that steady answers keep -/

variable {answer} {t : Terms I}

theorem Meets.eval {post : α → Prop} {p : Program I α} (h : Meets t post p)
    (hg : ∀ q, t.gets ⟨q, answer q⟩) : post (p.eval answer) := by
  induction p with
  | done value => exact h
  | ask q next ih => exact ih (answer q) (h.2 (answer q) (hg q))

theorem meets_eval (p : Program I α) :
    Meets { gets := fun e => e.2 = answer e.1 } (fun value => p.eval answer = value) p := by
  induction p with
  | done value => rfl
  | ask q next ih =>
    refine ⟨trivial, ?_⟩
    intro reply hr
    have hr : reply = answer q := hr
    subst hr
    exact ih (answer q)

end FileSieve.Program
