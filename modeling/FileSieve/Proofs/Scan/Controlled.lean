import FileSieve.Proofs.Scan.Faults
import FileSieve.Scan.Controller

/-! # What a scan asks of its controller

A scan opens, builds a tree and hands in what it has built. In between it neither opens a scan nor
hands in a result, and it has a result to hand in unless it was told that it is superseded. -/

namespace FileSieve.Control

open Program

/-- Whether a request opens a scan. -/
def Request.isStart : Request → Bool
  | .start => true
  | _ => false

/-- Whether a request hands in a result. -/
def Request.isAccept : Request → Bool
  | .accept _ _ _ => true
  | _ => false

/-- Neither opens a scan nor hands in a result. -/
def IsQuiet (q : Request) : Prop :=
  q.isStart = false ∧ q.isAccept = false

/-- The terms on which a request is quiet. -/
def quiet : Terms interface where
  asks := IsQuiet

/-- The listing does not go wrong, and the directories in it are of a lower rank. -/
def Descends (rank : String → Nat) : Exchange interface → Prop
  | ⟨.list directory, listing⟩ => Scan.Descends rank ⟨.list directory, listing⟩
  | _ => True

/-- The terms on which directories are ranked. -/
def ranked (rank : String → Nat) : Terms interface where
  gets := Descends rank

/-- The terms on which a scan with a number is told that it is the latest one. -/
def current (generation : Option Int) : Terms interface where
  gets e := ∀ g, generation = some g → e ≠ ⟨.isCurrent g, false⟩

variable {t : Terms interface}

/-- What a tree builder is told follows from what its scan is told. -/
theorem meets_serve {s : Terms Scan.interface} {generation : Option Int}
    (ha : ∀ q, IsQuiet q → t.asks q)
    (hlist : ∀ directory listing, t.gets ⟨.list directory, listing⟩ →
      s.gets ⟨.list directory, listing⟩)
    (hlog : ∀ record, s.gets ⟨.log record, ()⟩)
    (hnone : generation = none → s.gets ⟨.cancelled, false⟩)
    (hsome : ∀ g isLatest, generation = some g → t.gets ⟨.isCurrent g, isLatest⟩ →
      s.gets ⟨.cancelled, !isLatest⟩)
    (q : Scan.Request) : Meets t (fun reply => s.gets ⟨q, reply⟩) (serve generation q) := by
  cases q with
  | list directory => exact ⟨ha _ ⟨rfl, rfl⟩, hlist directory⟩
  | log record => exact ⟨ha _ ⟨rfl, rfl⟩, fun _ _ => hlog record⟩
  | cancelled =>
    cases generation with
    | none => exact hnone rfl
    | some g => exact ⟨ha _ ⟨rfl, rfl⟩, fun isLatest h => hsome g isLatest rfl h⟩

theorem delivers_build {α : Type} {s : Terms Scan.interface} {faults : Scan.Fault → Prop}
    {post : α → Prop} {scan : Scan.Scanning α} {generation : Option Int}
    (h : Delivers s faults post scan)
    (hs : ∀ q, Meets t (fun reply => s.gets ⟨q, reply⟩) (serve generation q)) :
    Delivers t faults post (build generation scan) :=
  Meets.run h hs

/-- What holds of both ways of scanning holds of the tree that is built. -/
theorem delivers_buildTree {faults : Scan.Fault → Prop} {post : Option ScanResult → Prop}
    {schedule : Scan.Schedule} {depth : Nat} {root : String} {patterns : List String}
    {generation : Option Int} (hr : ∀ patterns, t.asks (.rules patterns)) (hw : t.asks .workers)
    (hlevels : ∀ rules : List Rule, ∀ workers, Delivers t faults post
      (build generation (Scan.byLevels rules schedule workers depth root)))
    (hdepth : ∀ rules : List Rule, Delivers t faults (fun found => post (some found))
      (build generation (Scan.depthFirst rules depth root))) :
    Delivers t faults (fun built => post built.1)
      (buildTree schedule depth root patterns generation) := by
  have hrules : Meets t (fun _ => True) (ask (.rules patterns)) :=
    meets_request (hr patterns) fun _ _ => trivial
  have hworkers : Meets t (fun _ => True) (ask .workers) := meets_request hw fun _ _ => trivial
  apply (delivers_lift hrules).bind
  intro rules _
  apply (delivers_lift hworkers).bind
  intro workers _
  split
  · exact (hlevels rules workers).bind fun _ h => delivers_pure h
  · exact (hdepth rules).bind fun _ h => delivers_pure h

section Trees

variable (schedule : Scan.Schedule) (depth : Nat) (root : String) (patterns : List String)

theorem buildTree_quiet (generation : Option Int) :
    Delivers quiet (fun _ => True) (fun _ => True)
      (buildTree schedule depth root patterns generation) := by
  have hserve := @meets_serve quiet {} generation (fun _ h => h) (fun _ _ _ => trivial)
    (fun _ => trivial) (fun _ => trivial) fun _ _ _ _ => trivial
  apply @delivers_buildTree _ _ fun _ => True
  · exact fun _ => ⟨rfl, rfl⟩
  · exact ⟨rfl, rfl⟩
  · exact fun rules workers => delivers_build (delivers_of_asks (fun _ => trivial) _) hserve
  · exact fun rules => delivers_build (delivers_of_asks (fun _ => trivial) _) hserve

/-- No fault occurs as long as directories are ranked. -/
theorem buildTree_ranked {rank : String → Nat} (h : rank root < depth)
    (generation : Option Int) :
    Delivers (ranked rank) (fun _ => False) (fun _ => True)
      (buildTree schedule depth root patterns generation) := by
  have hserve := @meets_serve (ranked rank) (Scan.ranked rank) generation (fun _ _ => trivial)
    (fun _ _ h => h) (fun _ => trivial) (fun _ => trivial) fun _ _ _ _ => trivial
  apply @delivers_buildTree _ _ fun _ => True
  · exact fun _ => trivial
  · trivial
  · exact fun rules workers => delivers_build (Scan.delivers_byLevels schedule workers h) hserve
  · exact fun rules => delivers_build (Scan.delivers_depthFirst h) hserve

/-- There is a result unless the scan has been told that it is not the latest one. -/
theorem buildTree_current (generation : Option Int) :
    Delivers (current generation) (fun _ => True) (fun built => built.1.isSome = true)
      (buildTree schedule depth root patterns generation) := by
  have hlatest : ∀ g isLatest, generation = some g →
      (current generation).gets ⟨.isCurrent g, isLatest⟩ →
        Scan.uncancelled.gets ⟨.cancelled, !isLatest⟩ := by
    intro g isLatest hg h
    cases isLatest with
    | true => exact nofun
    | false => exact absurd rfl (h g hg)
  have hserve := @meets_serve (current generation) Scan.uncancelled generation
    (fun _ _ => trivial) (fun _ _ _ => nofun) (fun _ => nofun) (fun _ => nofun) hlatest
  apply @delivers_buildTree _ _ fun found => found.isSome = true
  · exact fun _ => trivial
  · trivial
  · intro rules workers
    exact delivers_build (Scan.delivers_byLevels_isSome schedule workers depth root) hserve
  · exact fun rules => (delivers_of_asks (fun _ => trivial) _).mono fun _ _ => rfl

/-- The rules that come with a tree are those that were asked for before anything else. -/
theorem ends_buildTree {generation : Option Int} {exchanges : List (Exchange interface)}
    {found : Option ScanResult} {rules : List Rule}
    (h : Ends (buildTree schedule depth root patterns generation).run exchanges
      (.ok (found, rules))) :
    ∃ more, exchanges = ⟨.rules patterns, rules⟩ :: more := by
  obtain ⟨given, first, more, rfl, hs, hbuild⟩ := ends_bind_of_ok h
  obtain ⟨_, rfl, he⟩ := ends_lift_request hs
  cases he
  obtain ⟨workers, _, last, rfl, -, hbuild⟩ := ends_bind_of_ok hbuild
  have hrules : rules = given := by
    split at hbuild
    · obtain ⟨_, _, _, -, -, hreturn⟩ := ends_bind_of_ok hbuild
      cases (ends_done_iff.1 hreturn).2
      rfl
    · obtain ⟨_, _, _, -, -, hreturn⟩ := ends_bind_of_ok hbuild
      cases (ends_done_iff.1 hreturn).2
      rfl
  rw [hrules]
  exact ⟨_, rfl⟩

/-- A scan opens, builds a tree and, unless there was a fault, hands in what it has built. -/
theorem ends_scan {exchanges : List (Exchange interface)}
    {result : Except Scan.Fault (Option ScanResult)}
    (h : Ends (scan schedule depth root patterns).run exchanges result) :
    ∃ (generation : Int) (middle : List (Exchange interface))
      (built : Except Scan.Fault (Option ScanResult × List Rule)),
      Ends (buildTree schedule depth root patterns (some generation)).run middle built ∧
      ((∃ fault, built = .error fault ∧ result = .error fault ∧
          exchanges = ⟨.start, generation⟩ :: middle) ∨
        ∃ found rules, ∃ accepted : Bool, built = .ok (found, rules) ∧
          result = .ok (if accepted then found else none) ∧
          exchanges = ⟨.start, generation⟩ ::
            (middle ++ [⟨.accept generation found rules, accepted⟩])) := by
  rcases ends_bind_cases h with ⟨fault, hs, -⟩ | ⟨generation, first, more, rfl, hs, hbuild⟩
  · obtain ⟨_, -, he⟩ := ends_lift_request hs
    cases he
  · obtain ⟨_, rfl, he⟩ := ends_lift_request hs
    cases he
    rcases ends_bind_cases hbuild with
      ⟨fault, hb, rfl⟩ | ⟨⟨found, rules⟩, middle, more, rfl, hb, haccept⟩
    · exact ⟨generation, _, _, hb, .inl ⟨fault, rfl, rfl, rfl⟩⟩
    · rcases ends_bind_cases haccept with ⟨fault, ha, -⟩ | ⟨accepted, last, more, rfl, ha, hreturn⟩
      · obtain ⟨_, -, he⟩ := ends_lift_request ha
        cases he
      · obtain ⟨_, rfl, he⟩ := ends_lift_request ha
        cases he
        obtain ⟨rfl, rfl⟩ := ends_done_iff.1 hreturn
        exact ⟨generation, middle, _, hb, .inr ⟨found, rules, accepted, rfl, rfl, rfl⟩⟩

end Trees

end FileSieve.Control
