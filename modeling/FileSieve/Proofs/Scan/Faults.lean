import FileSieve.Proofs.Program.Trace
import FileSieve.Proofs.Scan.LevelOrder

/-! # Scans over listings that may change

Whatever is listed meanwhile, a scan comes to a result if no listing goes wrong and the directories
are not nested too deeply, and a scan with workers comes to nothing only after it has been called
off. -/

namespace FileSieve.Scan

open Program

variable {α : Type} [PathRule α] {rank : String → Nat} {rules : List α}

/-- The listing does not go wrong, and the directories in it are of a lower rank. -/
def Descends (rank : String → Nat) : Exchange interface → Prop
  | ⟨.list directory, answer⟩ =>
    match answer with
    | .ok entries => ∀ entry ∈ entries, entry.isDirectory = true → entry.name ≠ "" →
        rank entry.path < rank directory
    | .error (.unreadable _) => True
    | .error (.broken _) => False
  | _ => True

/-- The terms on which directories are ranked. -/
def ranked (rank : String → Nat) : Terms interface where
  gets := Descends rank

/-- The visible directories are of a lower rank than a directory. -/
def Below (rank : String → Nat) (directory : String) (entries : List VisibleEntry) : Prop :=
  ∀ v ∈ directories entries, rank v.entry.path < rank directory

theorem below_nil (directory : String) : Below rank directory [] :=
  fun _ hv => absurd hv List.not_mem_nil

theorem below_visible {directory relative : String} {entries : List Entry}
    (h : Descends rank ⟨.list directory, .ok entries⟩) :
    Below rank directory (visible rules relative entries) := by
  intro v hv
  obtain ⟨hv, hd⟩ := List.mem_filter.1 hv
  obtain ⟨he, hn, -⟩ := mem_of_mem_visible hv
  exact h v.entry he hd hn

/-! ### Reading directories -/

theorem delivers_readVisible (directory relative : String) :
    Delivers (ranked rank) (fun _ => False) (Below rank directory)
      (readVisible rules directory relative) := by
  apply Meets.bind (meets_request trivial fun answer h => h)
  intro answer h
  cases answer with
  | ok entries => exact below_visible h
  | error failure =>
    cases failure with
    | unreadable reason => exact ⟨trivial, fun _ _ => below_nil directory⟩
    | broken reason => exact h

theorem delivers_depthFirstNodes {n : Nat} {directory : String} (relative : String)
    (h : rank directory < n) :
    Delivers (ranked rank) (fun _ => False) (fun _ => True)
      (depthFirstNodes rules n directory relative) := by
  induction n generalizing directory relative with
  | zero => exact absurd h (Nat.not_lt_zero _)
  | succ n ih =>
    rw [depthFirstNodes]
    apply (delivers_readVisible directory relative).bind
    intro entries he
    have hsub : ∀ v ∈ directories entries, Delivers (ranked rank) (fun _ => False) (fun _ => True)
        (do
          let children ← depthFirstNodes rules n v.entry.path v.relative
          return (v, children)) := by
      intro v hv
      have hv := he v hv
      exact (ih v.relative (by omega)).bind fun _ _ => delivers_pure trivial
    exact (Delivers.mapM hsub).bind fun _ _ => delivers_pure trivial

theorem delivers_depthFirst {n : Nat} {root : String} (h : rank root < n) :
    Delivers (ranked rank) (fun _ => False) (fun _ => True) (depthFirst rules n root) :=
  (delivers_depthFirstNodes "" h).bind fun _ _ =>
    (delivers_lift (meets_of_asks (fun _ => trivial) _)).bind fun _ _ => delivers_pure trivial

/-! ### One level -/

/-- The visible entries of a level are handed on with their properties. -/
theorem delivers_outcomes {t : Terms interface} {faults : Fault → Prop}
    {post : Job → List VisibleEntry → Prop} {jobs : List Job} {outcomes : List Outcome}
    (h : List.Forall₂ (fun job => Allows faults (post job)) jobs outcomes) :
    Delivers t faults (List.Forall₂ post jobs)
      (outcomes.mapM fun outcome => ExceptT.mk (pure outcome)) := by
  induction h with
  | nil => exact delivers_pure .nil
  | cons hfirst _ ih =>
    rw [List.mapM_cons]
    exact (delivers_of_result hfirst).bind fun entries he =>
      ih.bind fun rest hrest => delivers_pure (.cons he hrest)

/-! ### All levels -/

/-- The loop rule of a scan: what is kept from level to level, about the depth that is left, the
directories to come and the listings so far, holds until no directories are left. -/
theorem delivers_collect {t : Terms interface} {faults : Fault → Prop}
    {post : Option Listings → Prop} {seen : Job → List VisibleEntry → Prop}
    {keeps : Nat → List Job → Listings → Prop} {schedule : Schedule} (ha : t.asks .cancelled)
    (hstop : t.gets ⟨.cancelled, true⟩ → post none)
    (hdone : ∀ n found, keeps n [] found → post (some found))
    (hdeep : ∀ job jobs found, keeps 0 (job :: jobs) found → faults .tooDeep)
    (hread : ∀ job, Delivers t faults (seen job) (readVisible rules job.directory job.relative))
    (hlevel : ∀ n frontier found entries, keeps (n + 1) frontier found →
      List.Forall₂ seen frontier entries →
      keeps n (entries.flatMap jobsFor)
        (((frontier.map Job.directory).zip entries).reverse ++ found))
    {n level : Nat} {frontier : List Job} {found : Listings} (h : keeps n frontier found) :
    Delivers t faults post (collect rules schedule n level frontier found) := by
  have hpoll : Meets t (fun cancelled => cancelled = true → post none) askCancelled := by
    apply meets_request ha
    rintro answer hg rfl
    exact hstop hg
  induction n generalizing level frontier found with
  | zero =>
    cases frontier with
    | nil => exact delivers_pure (hdone 0 found h)
    | cons job jobs => exact hdeep job jobs found h
  | succ n ih =>
    cases frontier with
    | nil => exact delivers_pure (hdone (n + 1) found h)
    | cons job jobs =>
      rw [collect]
      apply (delivers_lift hpoll).bind
      intro cancelled hcancelled
      cases cancelled with
      | true => exact delivers_pure (hcancelled rfl)
      | false =>
        apply (delivers_lift (meets_runLevel schedule level hread)).bind
        intro outcomes houtcomes
        apply (delivers_outcomes houtcomes).bind
        intro entries hentries
        exact ih (hlevel n _ found entries h hentries)

/-- The terms on which a scan is not called off. -/
def uncancelled : Terms interface where
  gets e := e ≠ ⟨.cancelled, true⟩

theorem delivers_collect_isSome (schedule : Schedule) (n level : Nat) (frontier : List Job)
    (before : Listings) :
    Delivers uncancelled (fun _ => True) (fun found => found.isSome = true)
      (collect rules schedule n level frontier before) := by
  apply @delivers_collect _ _ rules uncancelled _ _ (fun _ _ => True) (fun _ _ _ => True)
  · trivial
  · intro h
    exact absurd rfl h
  · exact fun _ _ _ => rfl
  · exact fun _ _ _ _ => trivial
  · exact fun job => delivers_of_asks (fun _ => trivial) _
  · exact fun _ _ _ _ _ _ => trivial
  · trivial

/-- With workers a scan comes to a result unless it is called off. -/
theorem delivers_byLevels_isSome (schedule : Schedule) (workers : Int) (n : Nat) (root : String) :
    Delivers uncancelled (fun _ => True) (fun found => found.isSome = true)
      (byLevels rules schedule workers n root) := by
  apply (delivers_collect_isSome schedule n 0 [⟨root, ""⟩] []).bind
  intro found hfound
  cases found with
  | none => cases hfound
  | some found =>
    apply (delivers_of_asks (fun _ => trivial) _).bind
    intro tree _
    exact (delivers_lift (meets_of_asks (fun _ => trivial) _)).bind fun _ _ => delivers_pure rfl

/-- Each recorded directory shows directories of a lower rank only. -/
def Recorded (rank : String → Nat) (found : Listings) : Prop :=
  ∀ record ∈ found, Below rank record.1 record.2

theorem recorded_zip {jobs : List Job} {entries : List (List VisibleEntry)}
    (h : List.Forall₂ (fun job => Below rank job.directory) jobs entries) :
    Recorded rank ((jobs.map Job.directory).zip entries) := by
  induction h with
  | nil => exact fun record hr => absurd hr List.not_mem_nil
  | cons hfirst _ ih => exact List.forall_mem_cons.2 ⟨hfirst, ih⟩

theorem rank_lt_of_mem_flatMap {n : Nat} {jobs : List Job} {entries : List (List VisibleEntry)}
    (h : List.Forall₂ (fun job => Below rank job.directory) jobs entries)
    (hn : ∀ job ∈ jobs, rank job.directory < n + 1) :
    ∀ job ∈ entries.flatMap jobsFor, rank job.directory < n := by
  induction h with
  | nil => exact fun job hj => absurd hj List.not_mem_nil
  | @cons first vs jobs entries hfirst _ ih =>
    intro job hjob
    rw [List.flatMap_cons, List.mem_append] at hjob
    rcases hjob with hjob | hjob
    · obtain ⟨v, hv, rfl⟩ := List.mem_map.1 hjob
      have hlt : rank v.entry.path < rank first.directory := hfirst v hv
      have hle : rank first.directory < n + 1 := hn first List.mem_cons_self
      exact Nat.lt_of_lt_of_le hlt (Nat.le_of_lt_succ hle)
    · exact ih (fun j hj => hn j (List.mem_cons_of_mem first hj)) job hjob

theorem delivers_collect_recorded (schedule : Schedule) {n level : Nat} {frontier : List Job}
    {before : Listings} (hf : ∀ job ∈ frontier, rank job.directory < n)
    (hb : Recorded rank before) :
    Delivers (ranked rank) (fun _ => False) (fun found => ∀ listings ∈ found, Recorded rank listings)
      (collect rules schedule n level frontier before) := by
  apply @delivers_collect _ _ rules (ranked rank) _ _ (fun job => Below rank job.directory)
    fun n frontier found => (∀ job ∈ frontier, rank job.directory < n) ∧ Recorded rank found
  · trivial
  · intro _ listings hl
    cases hl
  · rintro _ found ⟨-, hr⟩ _ ⟨⟩
    exact hr
  · rintro job jobs _ ⟨hlt, -⟩
    exact Nat.not_lt_zero _ (hlt job List.mem_cons_self)
  · exact fun job => delivers_readVisible job.directory job.relative
  · rintro n frontier found entries ⟨hlt, hr⟩ hentries
    refine ⟨rank_lt_of_mem_flatMap hentries hlt, ?_⟩
    intro record hrecord
    rcases List.mem_append.1 hrecord with hnew | hold
    · exact recorded_zip hentries record (List.mem_reverse.1 hnew)
    · exact hr record hold
  · exact ⟨hf, hb⟩

/-! ### Whole scans -/

theorem exists_mapM_eq_ok {ε β γ : Type} {f : β → Except ε γ} {bs : List β}
    (h : ∀ b ∈ bs, ∃ c, f b = .ok c) : ∃ cs, bs.mapM f = .ok cs := by
  induction bs with
  | nil => exact ⟨[], rfl⟩
  | cons b bs ih =>
    obtain ⟨c, hc⟩ := h b List.mem_cons_self
    obtain ⟨cs, hcs⟩ := ih fun d hd => h d (List.mem_cons_of_mem b hd)
    refine ⟨c :: cs, ?_⟩
    rw [List.mapM_cons, hc, hcs]
    rfl

theorem below_lookup {found : Listings} (h : Recorded rank found) (directory : String) :
    Below rank directory ((found.lookup directory).getD []) := by
  cases hl : found.lookup directory with
  | none => exact below_nil directory
  | some entries =>
    obtain ⟨front, back, rfl, -⟩ := List.lookup_eq_some_iff.1 hl
    exact h (directory, entries) (List.mem_append_right _ List.mem_cons_self)

theorem exists_nodesFrom {found : Listings} (h : Recorded rank found) {n : Nat}
    {directory : String} (hn : rank directory < n) :
    ∃ tree, nodesFrom found n directory = .ok tree := by
  induction n generalizing directory with
  | zero => exact absurd hn (Nat.not_lt_zero _)
  | succ n ih =>
    have hsub : ∀ v ∈ directories ((found.lookup directory).getD []),
        ∃ subtree : VisibleEntry × List Node,
          (do
            let children ← nodesFrom found n v.entry.path
            return (v, children)) = Except.ok subtree := by
      intro v hv
      have hlt := below_lookup h directory v hv
      obtain ⟨children, hc⟩ := @ih v.entry.path (by omega)
      refine ⟨(v, children), ?_⟩
      rw [hc]
      rfl
    obtain ⟨subtrees, hs⟩ := exists_mapM_eq_ok hsub
    rw [nodesFrom, hs]
    exact ⟨_, rfl⟩

/-- With workers a scan stops without a fault if directories are ranked. -/
theorem delivers_byLevels (schedule : Schedule) (workers : Int) {n : Nat} {root : String}
    (h : rank root < n) :
    Delivers (ranked rank) (fun _ => False) (fun _ => True)
      (byLevels rules schedule workers n root) := by
  apply (delivers_collect_recorded schedule (fun job hj => List.mem_singleton.1 hj ▸ h)
    (fun record hr => absurd hr List.not_mem_nil)).bind
  intro found hfound
  cases found with
  | none =>
    exact (delivers_lift (meets_of_asks (fun _ => trivial) _)).bind fun _ _ => delivers_pure trivial
  | some found =>
    obtain ⟨tree, htree⟩ := exists_nodesFrom (hfound found rfl) h
    have hresult : Delivers (ranked rank) (fun _ => False) (fun _ => True)
        (ExceptT.mk (pure (nodesFrom found n root)) : Scanning (List Node)) := by
      rw [htree]
      exact delivers_of_result trivial
    apply hresult.bind
    intro tree _
    exact (delivers_lift (meets_of_asks (fun _ => trivial) _)).bind fun _ _ => delivers_pure trivial

end FileSieve.Scan
