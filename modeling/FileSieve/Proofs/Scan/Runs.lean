import FileSieve.Proofs.Scan.Places
import FileSieve.Proofs.Scan.Steady
import FileSieve.Proofs.Selection.Toggling

/-! # Runs of a controller

A controller is scanned into, handed results that were built earlier and told to change its
selection, one step after the other and each over listings of its own. Whatever the steps, the
selection stays within the files that the controller shows, and it shows nothing that its rules
ignore. -/

namespace FileSieve

open Scan (Clear PathsTell Shows)

/-! ## Steps -/

/-- A change to the selection. -/
inductive Edit where
  | toggle (path : String)
  | restore (saved : List String)
  | add (paths : List String)
  | remove (paths : List String)
  | removeWhere (test : String → Bool)
  | clear

/-- Listings, and how a scan goes about them. -/
structure Site where
  list : String → Except ListingFailure (List Entry)
  schedule : Scan.Schedule := .inOrder
  depth : Nat

/-- Carries out a change; one that fails leaves the controller as it is. -/
def Controller.edit (c : Controller) : Edit → Controller
  | .toggle path =>
    match c.toggle path with
    | .ok d => d
    | .error _ => c
  | .restore saved => c.restore saved
  | .add paths => (c.add paths).2
  | .remove paths => (c.remove paths).2
  | .removeWhere test => (c.removeWhere test).2
  | .clear => c.clearSelection.2

/-- A controller with what its builds have returned, in order. -/
structure Desk where
  controller : Controller
  built : List (Option ScanResult × List Rule) := []

/-- One call on a controller. -/
inductive Step where
  | scan (site : Site) (root : String) (patterns : List String)
  | start
  | build (site : Site) (root : String) (patterns : List String) (generation : Option Int)
  /-- A result that was built earlier is handed in with its rules. -/
  | accept (generation : Int) (number : Nat)
  | edit (edit : Edit)
  | setActive (path : Option String)

namespace Desk

def take (d : Desk) : Step → Desk
  | .scan site root patterns =>
    { d with controller := (Control.perform site.list
        (Control.scan site.schedule site.depth root patterns) d.controller).2 }
  | .start => { d with controller := d.controller.start.2 }
  | .build site root patterns generation =>
    match Control.perform site.list
        (Control.buildTree site.schedule site.depth root patterns generation) d.controller with
    | (.ok built, c) => { controller := c, built := d.built ++ [built] }
    | (.error _, c) => { d with controller := c }
  | .accept generation number =>
    match d.built[number]? with
    | some (found, rules) =>
      { d with controller := (d.controller.accept generation found rules).2 }
    | none => d
  | .edit edit => { d with controller := d.controller.edit edit }
  | .setActive path => { d with controller := d.controller.setActive path }

/-- With workers, paths tell the places of the directories that a scan comes to. -/
def Tells (d : Desk) (site : Site) (root : String) (patterns : List String) : Prop :=
  d.controller.workers > 0 → PathsTell site.list (d.controller.cache.get patterns).1 root

/-- Only files that are shown are added, and paths tell the places of directories. -/
def Allowed (d : Desk) : Step → Prop
  | .scan site root patterns => d.Tells site root patterns
  | .build site root patterns _ => d.Tells site root patterns
  | .edit (.add paths) => ∀ path ∈ paths, path ∈ d.controller.files.map FlatFile.path
  | _ => True

/-- A desk that a new controller gets to. -/
inductive Reachable : Desk → Prop
  | fresh (cache : RuleCache) (workers : Int) :
      Reachable { controller := { cache, workers } }
  | step {d : Desk} (h : Reachable d) (step : Step) (ha : d.Allowed step) :
      Reachable (d.take step)

end Desk

/-! ## What a controller shows -/

namespace Controller

/-- The selection is within the files that are shown, these are the files of the tree in pre-order,
and the rules ignore nothing in the tree. -/
structure Sound (c : Controller) : Prop where
  selected : ∀ path ∈ c.selection, path ∈ c.files.map FlatFile.path
  unselected : c.result = none → c.selection = ∅
  files : c.files = (Tree.nodes c.tree).filterMap Node.flatFile?
  clear : ∀ path ∈ Tree.judged "" c.tree, (c.explain path).ignored = false

/-- What the steps keep: the selection and the result fit together. -/
structure Fits (c : Controller) : Prop where
  selected : ∀ path ∈ c.selection, path ∈ c.files.map FlatFile.path
  shows : ∀ found ∈ c.result, Shows c.rules found

theorem Fits.sound {c : Controller} (h : c.Fits) : c.Sound where
  selected := h.selected
  unselected := by
    intro hn
    apply Selection.ext_mem
    intro path
    refine iff_of_false ?_ (Selection.not_mem_empty path)
    intro hp
    have hmem := h.selected path hp
    rw [files, hn] at hmem
    exact List.not_mem_nil hmem
  files := by
    cases hr : c.result with
    | none =>
      rw [files, tree, hr]
      rfl
    | some found =>
      rw [files, tree, hr]
      exact (h.shows found hr).files
  clear := by
    intro path hp
    rw [explain, explain_ignored]
    cases hr : c.result with
    | none =>
      rw [tree, hr] at hp
      exact absurd hp List.not_mem_nil
    | some found =>
      rw [tree, hr] at hp
      exact (h.shows found hr).clear path hp

/-- Only the result, its rules and the selection matter. -/
theorem Fits.of_eq {c d : Controller} (h : c.Fits) (hresult : d.result = c.result)
    (hrules : d.rules = c.rules) (hselection : d.selection = c.selection) : d.Fits where
  selected := by
    rw [hselection, files, hresult]
    exact h.selected
  shows := by
    rw [hresult, hrules]
    exact h.shows

theorem Fits.accept {c : Controller} (h : c.Fits) (generation : Int) {found : Option ScanResult}
    {rules : List Rule} (hshows : ∀ result ∈ found, Shows rules result) :
    (c.accept generation found rules).2.Fits := by
  unfold Controller.accept
  split
  · cases found with
    | none => exact h
    | some result =>
      refine ⟨fun path hp => absurd hp (Selection.not_mem_empty path), ?_⟩
      rintro _ ⟨⟩
      exact hshows result rfl
  · exact h

/-! ### Changes to the selection -/

/-- A change of the selection within the files that are shown. -/
theorem Fits.select {c : Controller} (h : c.Fits) {selection : Selection} {active : Option String}
    (hs : ∀ path ∈ selection, path ∈ c.selection ∨ path ∈ c.files.map FlatFile.path) :
    Fits { c with selection, active } where
  selected path hp := (hs path hp).elim (h.selected path) id
  shows := h.shows

/-- Toggling a node that is shown stays within the files that are shown. -/
theorem Fits.toggle {c d : Controller} (h : c.Fits) {path : String} (ht : c.toggle path = .ok d) :
    d.Fits := by
  unfold Controller.toggle at ht
  split at ht
  · cases ht
  · next node hnode =>
    cases ht
    apply h.select
    intro other ho
    have hsub : other ∈ Tree.filePaths node → other ∈ c.files.map FlatFile.path := by
      intro hmem
      rw [h.sound.files]
      exact Tree.filePaths_subset (List.mem_of_find?_eq_some hnode) hmem
    exact (Selection.mem_or_mem_of_mem_toggle ho).imp_right hsub

theorem Fits.remove {c : Controller} (h : c.Fits) (paths : List String) :
    (c.remove paths).2.Fits :=
  h.select fun _ hp => .inl (Selection.mem_diff.1 hp).1

theorem Fits.edit {c : Controller} (h : c.Fits) {e : Edit}
    (ha : ∀ paths, e = .add paths → ∀ path ∈ paths, path ∈ c.files.map FlatFile.path) :
    (c.edit e).Fits := by
  cases e with
  | toggle path =>
    rw [Controller.edit]
    split
    · next ht => exact h.toggle ht
    · exact h
  | restore saved =>
    apply h.select
    intro path hp
    obtain ⟨-, hp⟩ := List.mem_filter.1 (Selection.mem_ofList.1 hp)
    exact .inr (List.contains_iff_mem.1 hp)
  | add paths => exact h.select fun path hp => (Selection.mem_union.1 hp).imp_right (ha paths rfl path)
  | remove paths => exact h.remove paths
  | removeWhere test => exact h.remove _
  | clear => exact h.remove _

end Controller

/-! ## Trees that are built -/

namespace Control

open Program

variable {list : String → Except ListingFailure (List Entry)}

/-- A tree that is built shows nothing that its rules ignore. -/
theorem allows_treeOn {c : Controller} {root : String} {patterns : List String}
    (h : c.workers > 0 → PathsTell list (c.cache.get patterns).1 root) (schedule : Scan.Schedule)
    (depth : Nat) (generation : Option Int) :
    Allows (fun _ => True) (fun found => ∀ result ∈ found, Shows (c.cache.get patterns).1 result)
      (treeOn list c schedule depth root patterns generation) := by
  have hg : ∀ q, (Scan.listed list).gets ⟨q, builderAnswer list (superseded c generation) q⟩ := by
    intro q
    cases q with
    | list directory => rfl
    | log record => trivial
    | cancelled => trivial
  unfold treeOn
  split
  · next hw => exact (Scan.delivers_byLevels_shows (h hw) schedule c.workers depth).eval hg
  · apply Allows.map
    apply Allows.mono (Meets.eval (Scan.delivers_depthFirst_shows depth root) hg)
    rintro result hr _ ⟨⟩
    exact hr

end Control

/-! ## Steps and runs -/

namespace Desk

/-- What the steps keep: what is shown fits together, and so does what may still be handed in. -/
structure Fits (d : Desk) : Prop where
  controller : d.controller.Fits
  built : ∀ built ∈ d.built, ∀ result ∈ built.1, Shows built.2 result

theorem fits_fresh (cache : RuleCache) (workers : Int) :
    Fits { controller := { cache, workers } } where
  controller := ⟨fun path hp => absurd hp (Selection.not_mem_empty path), fun _ h => nomatch h⟩
  built := fun _ hb => absurd hb List.not_mem_nil

theorem Fits.scan {d : Desk} (h : d.Fits) {site : Site} {root : String} {patterns : List String}
    (ha : d.Allowed (.scan site root patterns)) : (d.take (.scan site root patterns)).Fits := by
  have hs := h.controller.of_eq (d := Control.compiled patterns d.controller.start.2) rfl rfl rfl
  have hbuilt := Control.allows_treeOn (c := d.controller.start.2) ha site.schedule site.depth
    (some d.controller.start.1)
  rw [Desk.take, Control.perform_scan]
  cases ht : Control.treeOn site.list d.controller.start.2 site.schedule site.depth root patterns
      (some d.controller.start.1) with
  | error fault => exact ⟨hs, h.built⟩
  | ok found =>
    rw [ht] at hbuilt
    exact ⟨hs.accept d.controller.start.1 hbuilt, h.built⟩

/-- What is built is kept with the rules that it was built by. -/
theorem Fits.build {d : Desk} (h : d.Fits) {site : Site} {root : String} {patterns : List String}
    {generation : Option Int} (ha : d.Allowed (.build site root patterns generation)) :
    (d.take (.build site root patterns generation)).Fits := by
  have hs := h.controller.of_eq (d := Control.compiled patterns d.controller) rfl rfl rfl
  have hbuilt := Control.allows_treeOn ha site.schedule site.depth generation
  rw [Desk.take, Control.perform_buildTree]
  cases ht : Control.treeOn site.list d.controller site.schedule site.depth root patterns
      generation with
  | error fault => exact ⟨hs, h.built⟩
  | ok found =>
    rw [ht] at hbuilt
    refine ⟨hs, ?_⟩
    intro built hb
    rcases List.mem_append.1 hb with hb | hb
    · exact h.built built hb
    · rw [List.mem_singleton.1 hb]
      exact hbuilt

theorem Fits.take {d : Desk} (h : d.Fits) {step : Step} (ha : d.Allowed step) :
    (d.take step).Fits := by
  cases step with
  | scan site root patterns => exact h.scan ha
  | start => exact ⟨h.controller.of_eq rfl rfl rfl, h.built⟩
  | build site root patterns generation => exact h.build ha
  | accept generation number =>
    rw [Desk.take]
    split
    · next found rules hb =>
      have hmem := List.mem_of_getElem? hb
      exact ⟨h.controller.accept generation (h.built _ hmem), h.built⟩
    · exact h
  | edit edit =>
    refine ⟨h.controller.edit ?_, h.built⟩
    rintro paths rfl
    exact ha
  | setActive path => exact ⟨h.controller.of_eq rfl rfl rfl, h.built⟩

theorem Reachable.fits {d : Desk} (h : Reachable d) : d.Fits := by
  induction h with
  | fresh cache workers => exact fits_fresh cache workers
  | step _ _ ha ih => exact ih.take ha

/-- In every state that a new controller gets to, it shows nothing that its rules ignore, and the
selection is within the files that it shows. A node that is not there cannot be toggled, which
changes nothing. -/
theorem sound_of_reachable {d : Desk} (h : Reachable d) :
    d.controller.Sound ∧ ∀ path problem, d.controller.toggle path = .error problem →
      d.take (.edit (.toggle path)) = d := by
  refine ⟨h.fits.controller.sound, ?_⟩
  intro path problem hp
  rw [Desk.take, Controller.edit, hp]

/-- The listings of a directory with a file and two subdirectories of its own. -/
def twoDirectories (directory : String) : Except ListingFailure (List Entry) :=
  if directory = "/r" then
    .ok [⟨"a", true, "/r/a"⟩, ⟨"b", true, "/r/b"⟩, ⟨"x.log", false, "/r/x.log"⟩]
  else .ok [⟨"f", false, Host.Model.entryPath directory "f"⟩]

theorem nested_twoDirectories : Scan.Nested twoDirectories := by
  intro directory entry he
  unfold Scan.entriesOf twoDirectories at he
  by_cases hd : directory = "/r"
  · subst hd
    revert entry
    decide
  · rw [if_neg hd] at he
    rw [List.mem_singleton.1 he]
    exact ⟨rfl, by simp⟩

theorem sound_of_reachable_toggled :
    let site : Site := { list := twoDirectories, depth := 3 }
    let d := ((((Desk.mk { workers := 2 } []).take (.build site "/r" ["*.log"] none)).take
      (.scan site "/r" ["/a/f"])).take (.edit (.toggle "/r/b"))).take (.accept 1 0)
    Reachable d ∧ d.controller.Sound ∧ ∀ path problem, d.controller.toggle path = .error problem →
      d.take (.edit (.toggle path)) = d := by
  intro site d
  have hp : ∀ rules : List Rule, PathsTell site.list rules "/r" :=
    fun _ => Scan.pathsTell_of_nested nested_twoDirectories
  have hfresh : Reachable (Desk.mk { workers := 2 } []) := .fresh _ _
  have hbuilt := hfresh.step (.build site "/r" ["*.log"] none) fun _ => hp _
  have hscanned := hbuilt.step (.scan site "/r" ["/a/f"]) fun _ => hp _
  have htoggled := hscanned.step (.edit (.toggle "/r/b")) trivial
  have hr : Reachable d := htoggled.step (.accept 1 0) trivial
  exact ⟨hr, sound_of_reachable hr⟩

/-- Two directories that are one and the same under two names. -/
def sharedDirectory (directory : String) : Except ListingFailure (List Entry) :=
  if directory = "/r" then .ok [⟨"a", true, "/x"⟩, ⟨"b", true, "/x"⟩]
  else .ok [⟨"f", false, "/x/f"⟩]

/-- What workers find in a directory that is seen in two places: the listing of one of them. -/
def sharedTree : List Node :=
  [.directory "a" "/x" [.file "f" "/x/f"], .directory "b" "/x" [.file "f" "/x/f"]]

theorem treeOn_sharedDirectory :
    Control.treeOn sharedDirectory (Controller.start { workers := 1 }).2 .inOrder 3 "/r" ["/a/f"]
      (some (Controller.start { workers := 1 }).1) =
        .ok (some (Scan.result "/r" sharedTree)) := by
  have hc : (Scan.collect (compileRules ["/a/f"]) .inOrder 3 0 [⟨"/r", ""⟩] []).run.eval
      (Control.builderAnswer sharedDirectory false) =
        .ok (some [("/x", [⟨⟨"f", false, "/x/f"⟩, "b/f"⟩]), ("/x", []),
          ("/r", [⟨⟨"a", true, "/x"⟩, "a"⟩, ⟨⟨"b", true, "/x"⟩, "b"⟩])]) := by
    decide +kernel
  rw [← RuleCache.get_ofCapacity RuleCache.defaultCapacity] at hc
  have hfile : Node.sort [.file "f" "/x/f"] = [.file "f" "/x/f"] := List.mergeSort_singleton _
  have hsort : Node.sort sharedTree = sharedTree := List.mergeSort_of_pairwise (by decide)
  rw [Control.treeOn_of_collect (by decide) hc]
  simp only [sharedTree] at hsort
  simp [Scan.nodesFrom, Scan.directories, Scan.files, Scan.assemble, List.lookup_cons, List.lookup_nil, hfile,
    hsort]
  rfl

theorem shared_path_shows_ignored :
    let d := Desk.take { controller := { workers := 1 } }
      (.scan { list := sharedDirectory, depth := 3 } "/r" ["/a/f"])
    "a/f" ∈ Tree.judged "" d.controller.tree ∧ (d.controller.explain "a/f").ignored = true := by
  intro d
  have hd : d.controller.tree = sharedTree ∧ d.controller.rules = compileRules ["/a/f"] := by
    have hscan := Control.perform_scan_of_treeOn treeOn_sharedDirectory
    simp only [d, Desk.take, hscan]
    exact ⟨rfl, RuleCache.get_ofCapacity _ _⟩
  rw [Controller.explain, hd.1, hd.2]
  decide +kernel

end Desk

end FileSieve
