import FileSieve.Proofs.Scan.Faults

/-! # Nothing that a scan shows is ignored

Every node that a scan comes to has passed the rules under its path from the root. A scan with
workers looks listings up by the path of a directory, so there the path has to tell where the
directory stands. -/

namespace FileSieve

namespace Tree

open Scan

mutual

/-- The paths under which the rules judge a node and the nodes below it: the labels from the root
joined by slashes, with a slash at the end for a directory. -/
def judgedNode (above : String) : Node → List String
  | .file label _ => [joinRelative above label]
  | .directory label _ children =>
    (joinRelative above label ++ "/") :: judged (joinRelative above label) children

/-- The paths under which the rules judge the nodes in a directory and below it, in pre-order. -/
def judged (above : String) : List Node → List String
  | [] => []
  | node :: rest => judgedNode above node ++ judged above rest

end

theorem judged_eq_flatMap (above : String) (nodes : List Node) :
    judged above nodes = nodes.flatMap (judgedNode above) := by
  induction nodes with
  | nil => rfl
  | cons node rest ih => rw [judged, ih, List.flatMap_cons]

end Tree

namespace Scan

open Program FileSieve.Tree

variable {α : Type} [PathRule α] {list : String → Except ListingFailure (List Entry)}
  {rules : List α} {root : String}

/-- The rules ignore none of the nodes in a directory and below it. -/
def Clear (rules : List α) (above : String) (nodes : List Node) : Prop :=
  ∀ path ∈ judged above nodes, isIgnored rules path = false

theorem clear_iff {above : String} {nodes : List Node} :
    Clear rules above nodes ↔
      ∀ node ∈ nodes, ∀ path ∈ judgedNode above node, isIgnored rules path = false := by
  rw [Clear, judged_eq_flatMap]
  constructor
  · intro h node hnode path hpath
    exact h path (List.mem_flatMap.2 ⟨node, hnode, hpath⟩)
  · intro h path hpath
    obtain ⟨node, hnode, hpath⟩ := List.mem_flatMap.1 hpath
    exact h node hnode path hpath

theorem exists_of_mem_right {β γ : Type} {R : β → γ → Prop} {bs : List β} {cs : List γ}
    (h : List.Forall₂ R bs cs) : ∀ c ∈ cs, ∃ b ∈ bs, R b c := by
  induction h with
  | nil => exact fun c hc => absurd hc List.not_mem_nil
  | cons hfirst _ ih =>
    intro c hc
    rcases List.mem_cons.1 hc with rfl | hc
    · exact ⟨_, List.mem_cons_self, hfirst⟩
    · obtain ⟨b, hb, hr⟩ := ih c hc
      exact ⟨b, List.mem_cons_of_mem _ hb, hr⟩

/-! ### One directory -/

/-- What the rules let through of an open directory is not ignored. -/
theorem isIgnored_of_mem_visible {relative : String} (ho : IsOpen rules relative)
    {entries : List Entry} {v : VisibleEntry} (hv : v ∈ visible rules relative entries) :
    isIgnored rules (judgedPath v.entry v.relative) = false := by
  rw [visible_eq ho, List.mem_filterMap] at hv
  obtain ⟨entry, _, h⟩ := hv
  split at h
  · cases h
  · next hi =>
    cases h
    rw [Bool.not_eq_true, Bool.or_eq_false_iff] at hi
    exact hi.2

theorem mem_assemble {subtrees : List (VisibleEntry × List Node)} {files : List VisibleEntry}
    {node : Node} :
    node ∈ assemble subtrees files ↔
      (∃ subtree ∈ subtrees, subtree.2 ≠ [] ∧
        node = .directory subtree.1.entry.name subtree.1.entry.path subtree.2) ∨
      ∃ v ∈ files, node = .file v.entry.name v.entry.path := by
  rw [assemble, Node.sort, List.mem_mergeSort, List.mem_append, List.mem_filterMap, List.mem_map]
  apply or_congr
  · refine exists_congr fun ⟨v, children⟩ => and_congr_right fun _ => ?_
    dsimp only
    by_cases h : children = []
    · simp [h]
    · rw [if_neg (by simpa using h), Option.some.injEq, eq_comm]
      exact (and_iff_right h).symm
  · simp only [eq_comm]

theorem mem_treeOf_succ {n : Nat} {job : Job} {node : Node} :
    node ∈ treeOf list rules (n + 1) job ↔
      (∃ v ∈ directories (view list rules job), treeOf list rules n (jobOf v) ≠ [] ∧
        node = .directory v.entry.name v.entry.path (treeOf list rules n (jobOf v))) ∨
      ∃ v ∈ files (view list rules job), node = .file v.entry.name v.entry.path := by
  rw [treeOf, mem_assemble]
  simp only [List.mem_map, exists_exists_and_eq_and]

/-- A directory is clear if its visible entries are put together with clear subdirectories. -/
theorem clear_assemble {relative : String} (ho : IsOpen rules relative) {entries : List Entry}
    {subtrees : List (VisibleEntry × List Node)}
    (hs : List.Forall₂ (fun v subtree => subtree.1 = v ∧ Clear rules v.relative subtree.2)
      (directories (visible rules relative entries)) subtrees) :
    Clear rules relative (assemble subtrees (files (visible rules relative entries))) := by
  rw [clear_iff]
  intro node hnode path hpath
  rcases mem_assemble.1 hnode with ⟨⟨v, children⟩, hmem, -, rfl⟩ | ⟨v, hv, rfl⟩
  · obtain ⟨_, hv, rfl, hclear⟩ := exists_of_mem_right hs _ hmem
    obtain ⟨hv, hd⟩ := List.mem_filter.1 hv
    have hi := isIgnored_of_mem_visible ho hv
    rw [judgedPath, if_pos hd] at hi
    rw [judgedNode, ← (mem_of_mem_visible hv).2.2, List.mem_cons] at hpath
    rcases hpath with rfl | hpath
    · exact hi
    · exact hclear path hpath
  · obtain ⟨hv, hd⟩ := List.mem_filter.1 hv
    have hi := isIgnored_of_mem_visible ho hv
    rw [judgedPath, if_neg (by simpa using hd)] at hi
    rw [judgedNode, List.mem_singleton] at hpath
    rw [hpath, ← (mem_of_mem_visible hv).2.2]
    exact hi

/-- The terms on which directories are listed as they stand. -/
def listed (list : String → Except ListingFailure (List Entry)) : Terms interface where
  gets
    | ⟨.list directory, listing⟩ => listing = list directory
    | _ => True

theorem delivers_readVisible_view (job : Job) :
    Delivers (listed list) (fun _ => True) (fun entries => entries = view list rules job)
      (readVisible rules job.directory job.relative) := by
  apply Meets.bind (meets_request trivial fun answer h => h)
  intro answer h
  have h : answer = list job.directory := h
  subst h
  cases hl : list job.directory with
  | ok entries => simp only [view, entriesOf, hl]; rfl
  | error failure =>
    cases failure with
    | unreadable reason =>
      refine ⟨trivial, ?_⟩
      intro _ _
      simp only [view, entriesOf, hl]
      rfl
    | broken reason => trivial

/-! ### Scanning depth first -/

theorem delivers_depthFirstNodes_clear {n : Nat} {job : Job} (ho : IsOpen rules job.relative) :
    Delivers (listed list) (fun _ => True) (Clear rules job.relative)
      (depthFirstNodes rules n job.directory job.relative) := by
  induction n generalizing job with
  | zero => trivial
  | succ n ih =>
    rw [depthFirstNodes]
    apply (delivers_readVisible_view job).bind
    rintro _ rfl
    have hsub : ∀ v ∈ directories (view list rules job),
        Delivers (listed list) (fun _ => True)
          (fun subtree : VisibleEntry × List Node =>
            subtree.1 = v ∧ Clear rules v.relative subtree.2)
          (do
            let children ← depthFirstNodes rules n v.entry.path v.relative
            return (v, children)) := by
      intro v hv
      obtain ⟨hv, hd⟩ := List.mem_filter.1 hv
      have hnodes := @ih (jobOf v) (isOpen_of_mem_visible ho hv hd)
      exact hnodes.bind fun children hc => delivers_pure ⟨rfl, hc⟩
    exact (Delivers.mapM hsub).bind fun subtrees hs => delivers_pure (clear_assemble ho hs)

/-! ### Scanning level by level -/

/-- A scan comes to the directory of a job by way of directories that the rules let through. -/
inductive Reaches (list : String → Except ListingFailure (List Entry)) (rules : List α)
    (root : String) : Job → Prop
  | root : Reaches list rules root ⟨root, ""⟩
  | enter {job : Job} {v : VisibleEntry} (h : Reaches list rules root job)
      (hv : v ∈ directories (view list rules job)) : Reaches list rules root (jobOf v)

/-- Directories that a scan comes to under one path stand at one place below the root. -/
def PathsTell (list : String → Except ListingFailure (List Entry)) (rules : List α)
    (root : String) : Prop :=
  ∀ job other, Reaches list rules root job → Reaches list rules root other →
    job.directory = other.directory → job.relative = other.relative

theorem Reaches.isOpen {job : Job} (h : Reaches list rules root job) :
    IsOpen rules job.relative := by
  induction h with
  | root => exact .inl rfl
  | enter _ hv ih =>
    obtain ⟨hv, hd⟩ := List.mem_filter.1 hv
    exact isOpen_of_mem_visible ih hv hd

/-- Each record is what the rules let through of a directory that is reached. -/
def Faithful (list : String → Except ListingFailure (List Entry)) (rules : List α) (root : String)
    (found : Listings) : Prop :=
  ∀ record ∈ found, ∃ job, Reaches list rules root job ∧
    record = (job.directory, view list rules job)

theorem faithful_zip {jobs : List Job} {entries : List (List VisibleEntry)}
    (hj : ∀ job ∈ jobs, Reaches list rules root job)
    (h : List.Forall₂ (fun job found => found = view list rules job) jobs entries) :
    Faithful list rules root ((jobs.map Job.directory).zip entries) := by
  induction h with
  | nil => exact fun record hr => absurd hr List.not_mem_nil
  | cons hfirst _ ih =>
    rw [List.forall_mem_cons] at hj
    exact List.forall_mem_cons.2 ⟨⟨_, hj.1, hfirst ▸ rfl⟩, ih hj.2⟩

theorem reaches_of_mem_flatMap {jobs : List Job} {entries : List (List VisibleEntry)}
    (hj : ∀ job ∈ jobs, Reaches list rules root job)
    (h : List.Forall₂ (fun job found => found = view list rules job) jobs entries) :
    ∀ job ∈ entries.flatMap jobsFor, Reaches list rules root job := by
  intro job hjob
  obtain ⟨found, hfound, hjob⟩ := List.mem_flatMap.1 hjob
  obtain ⟨above, habove, rfl⟩ := exists_of_mem_right h found hfound
  obtain ⟨v, hv, rfl⟩ := List.mem_map.1 hjob
  exact (hj above habove).enter hv

theorem delivers_collect_faithful (schedule : Schedule) {n level : Nat} {frontier : List Job}
    {before : Listings} (hf : ∀ job ∈ frontier, Reaches list rules root job)
    (hb : Faithful list rules root before) :
    Delivers (listed list) (fun _ => True)
      (fun found => ∀ listings ∈ found, Faithful list rules root listings)
      (collect rules schedule n level frontier before) := by
  apply @delivers_collect _ _ rules (listed list) _ _ (fun job found => found = view list rules job)
    fun _ frontier found => (∀ job ∈ frontier, Reaches list rules root job) ∧
      Faithful list rules root found
  · trivial
  · intro _ listings hl
    cases hl
  · rintro _ found ⟨-, hfound⟩ _ ⟨⟩
    exact hfound
  · exact fun _ _ _ _ => trivial
  · exact delivers_readVisible_view
  · rintro _ frontier found entries ⟨hreached, hfound⟩ hentries
    refine ⟨reaches_of_mem_flatMap hreached hentries, ?_⟩
    intro record hrecord
    rcases List.mem_append.1 hrecord with hnew | hold
    · exact faithful_zip hreached hentries record (List.mem_reverse.1 hnew)
    · exact hfound record hold
  · exact ⟨hf, hb⟩

/-- Where paths tell the places of directories, a listing that is looked up is that of the directory
at hand. A directory without a listing has no nodes. -/
theorem lookup_of_faithful {found : Listings} (hf : Faithful list rules root found)
    (hp : PathsTell list rules root) {job : Job} (hj : Reaches list rules root job) :
    ∃ entries, (found.lookup job.directory).getD [] = visible rules job.relative entries ∧
      ∀ v ∈ directories (visible rules job.relative entries), Reaches list rules root (jobOf v) := by
  cases hl : found.lookup job.directory with
  | none => exact ⟨[], rfl, fun v hv => nomatch hv⟩
  | some shown =>
    obtain ⟨front, back, rfl, -⟩ := List.lookup_eq_some_iff.1 hl
    obtain ⟨other, ho, he⟩ := hf _ (List.mem_append_right front List.mem_cons_self)
    obtain ⟨hd, rfl⟩ := Prod.mk.inj he
    have hr := hp job other hj ho hd
    refine ⟨entriesOf list other.directory, ?_, ?_⟩
    · rw [Option.getD_some, view, hr]
    · rw [hr]
      exact fun v hv => ho.enter hv

theorem allows_nodesFrom_clear {found : Listings} (hf : Faithful list rules root found)
    (hp : PathsTell list rules root) {n : Nat} {job : Job} (hj : Reaches list rules root job) :
    Allows (fun _ => True) (Clear rules job.relative) (nodesFrom found n job.directory) := by
  induction n generalizing job with
  | zero => trivial
  | succ n ih =>
    obtain ⟨entries, hl, hsub⟩ := lookup_of_faithful hf hp hj
    have hall : ∀ v ∈ directories (visible rules job.relative entries),
        Allows (fun _ => True)
          (fun subtree : VisibleEntry × List Node =>
            subtree.1 = v ∧ Clear rules v.relative subtree.2)
          (do
            let children ← nodesFrom found n v.entry.path
            return (v, children)) := by
      intro v hv
      have hnodes := ih (hsub v hv)
      exact hnodes.bind fun children hc => ⟨rfl, hc⟩
    rw [nodesFrom, hl]
    exact (Allows.mapM hall).bind fun subtrees hs => clear_assemble hj.isOpen hs

/-! ### Whole scans -/

/-- A result shows nothing that the rules ignore, and its flat index lists the files of its tree. -/
structure Shows (rules : List α) (found : ScanResult) : Prop where
  files : found.files = (nodes found.tree).filterMap Node.flatFile?
  clear : Clear rules "" found.tree

theorem delivers_depthFirst_shows (n : Nat) (root : String) :
    Delivers (listed list) (fun _ => True) (Shows rules) (depthFirst rules n root) := by
  apply (@delivers_depthFirstNodes_clear _ _ list rules n ⟨root, ""⟩ (.inl rfl)).bind
  intro tree htree
  exact (delivers_lift (meets_of_asks (fun _ => trivial) _)).bind fun _ _ =>
    delivers_pure ⟨rfl, htree⟩

/-- With workers a scan shows nothing ignored where paths tell the places of directories. -/
theorem delivers_byLevels_shows (hp : PathsTell list rules root) (schedule : Schedule)
    (workers : Int) (n : Nat) :
    Delivers (listed list) (fun _ => True) (fun found => ∀ result ∈ found, Shows rules result)
      (byLevels rules schedule workers n root) := by
  have hroot : ∀ job ∈ [Job.mk root ""], Reaches list rules root job := by
    intro job hjob
    rw [List.mem_singleton.1 hjob]
    exact .root
  have hnone : Faithful list rules root [] := fun record hr => absurd hr List.not_mem_nil
  apply (delivers_collect_faithful schedule hroot hnone).bind
  intro found hfound
  cases found with
  | none =>
    apply (delivers_lift (meets_of_asks (fun _ => trivial) _)).bind
    intro _ _
    apply delivers_pure
    intro result hr
    cases hr
  | some found =>
    apply (delivers_of_result (allows_nodesFrom_clear (hfound found rfl) hp .root)).bind
    intro tree htree
    apply (delivers_lift (meets_of_asks (fun _ => trivial) _)).bind
    intro _ _
    apply delivers_pure
    rintro _ ⟨⟩
    exact ⟨rfl, htree⟩

end Scan

end FileSieve
