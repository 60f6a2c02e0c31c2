/-!
Programs as data. A program is a value, or a request to its surroundings together with what it does
with each answer. The same program runs against the real world or against a model of it.
-/

namespace FileSieve

universe v

/-- A vocabulary of requests with the type of answers to each. -/
structure Interface where
  Request : Type
  Answer : Request → Type

/-- A computation that asks requests of an interface and ends with a value. -/
inductive Program (I : Interface) (α : Type) where
  | done (value : α)
  | ask (request : I.Request) (next : I.Answer request → Program I α)

namespace Program

variable {I J : Interface} {α β : Type}

def bind (p : Program I α) (f : α → Program I β) : Program I β :=
  match p with
  | done value => f value
  | ask request next => ask request fun answer => (next answer).bind f

instance : Monad (Program I) where
  pure := done
  bind := bind

/-- The program that asks one request and returns the answer. -/
def request (q : I.Request) : Program I (I.Answer q) :=
  ask q done

/-- Runs a program with a way to answer each request. -/
def run {m : Type → Type v} [Monad m] (answer : (q : I.Request) → m (I.Answer q)) :
    Program I α → m α
  | done value => pure value
  | ask q next => do
    let reply ← answer q
    run answer (next reply)

theorem bind_done (p : Program I α) : p.bind done = p := by
  induction p with
  | done value => rfl
  | ask q next ih => simp only [bind, ih]

theorem bind_assoc {γ : Type} (p : Program I α) (f : α → Program I β) (g : β → Program I γ) :
    (p.bind f).bind g = p.bind fun value => (f value).bind g := by
  induction p with
  | done value => rfl
  | ask q next ih => simp only [bind, ih]

instance : LawfulMonad (Program I) :=
  LawfulMonad.mk' (Program I) bind_done (fun _ _ => rfl) bind_assoc

theorem ask_bind (q : I.Request) (next : I.Answer q → Program I α) (f : α → Program I β) :
    (ask q next >>= f) = ask q fun answer => next answer >>= f := rfl

theorem run_done {m : Type → Type v} [Monad m] (answer : (q : I.Request) → m (I.Answer q))
    (value : α) : (done value).run answer = pure value := rfl

/-- Running a sequence is running its parts in sequence. -/
theorem run_bind {m : Type → Type v} [Monad m] [LawfulMonad m]
    (answer : (q : I.Request) → m (I.Answer q)) (p : Program I α) (f : α → Program I β) :
    (p >>= f).run answer = p.run answer >>= fun value => (f value).run answer := by
  induction p with
  | done value =>
    rw [run_done, LawfulMonad.pure_bind]
    rfl
  | ask q next ih =>
    rw [ask_bind]
    simp only [run, ih, LawfulMonad.bind_assoc]

end Program

end FileSieve
