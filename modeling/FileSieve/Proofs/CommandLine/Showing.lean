import FileSieve.Proofs.CommandLine.Checking
import FileSieve.Proofs.Scan.Runs
import FileSieve.Proofs.Store.ContextMap

/-! # Showing a project step by step

Showing a project scans it, keeps its root, finds a selection, saves it where that is asked for, and
prints. Only the steps that save anything change the files of the host, and what is printed last
depends on the tree and the selection alone. -/

namespace FileSieve

open Program

/-! ### What a scan installs -/

/-- A tree builder finds the nodes of its root, and files them. -/
theorem Control.eq_result_of_treeOn {list : String → Except ListingFailure (List Entry)}
    {c : Controller} {schedule : Scan.Schedule} {depth : Nat} {root : String}
    {patterns : List String} {generation : Option Int} {found : ScanResult}
    (h : treeOn list c schedule depth root patterns generation = .ok (some found)) :
    found = Scan.result root found.tree := by
  by_cases hw : c.workers > 0
  · cases hc : (Scan.collect (c.cache.get patterns).1 schedule depth 0 [⟨root, ""⟩] []).run.eval
        (builderAnswer list (superseded c generation)) with
    | error fault =>
      rw [treeOn, if_pos hw, Scan.byLevels, ExceptT.run_bind, eval_bind, hc] at h
      cases h
    | ok collected =>
      cases collected with
      | none =>
        rw [treeOn, if_pos hw, Scan.byLevels, ExceptT.run_bind, eval_bind, hc] at h
        cases h
      | some listings =>
        rw [treeOn_of_collect hw hc] at h
        cases hn : Scan.nodesFrom listings depth root with
        | error fault =>
          rw [hn] at h
          cases h
        | ok tree =>
          rw [hn] at h
          cases h
          rfl
  · rw [treeOn, if_neg hw, Scan.depthFirst, ExceptT.run_bind, eval_bind] at h
    cases ht : (Scan.depthFirstNodes (c.cache.get patterns).1 depth root "").run.eval
        (builderAnswer list (superseded c generation)) with
    | error fault =>
      rw [ht] at h
      cases h
    | ok tree =>
      rw [ht] at h
      cases h
      rfl

namespace Controller

/-- A controller that shows a result, with a selection within its files. -/
structure Holds (c : Controller) (found : ScanResult) : Prop where
  result : c.result = some found
  selected : ∀ path ∈ c.selection, path ∈ (Tree.flatFiles found.tree).map FlatFile.path

variable {c d : Controller} {found : ScanResult}

theorem Holds.tree (h : c.Holds found) : c.tree = found.tree := by
  rw [Controller.tree, h.result]
  rfl

theorem Holds.toggle {path : String} (h : c.Holds found) (ht : c.toggle path = .ok d) :
    d.Holds found := by
  unfold Controller.toggle at ht
  split at ht
  · cases ht
  · next node hnode =>
    cases ht
    refine ⟨h.result, fun other ho => ?_⟩
    rw [find?, h.tree] at hnode
    rcases Selection.mem_or_mem_of_mem_toggle ho with ho | ho
    · exact h.selected other ho
    · exact Tree.filePaths_subset (List.mem_of_find?_eq_some hnode) ho

theorem Holds.restore (h : c.Holds found) (hf : found.files = Tree.flatFiles found.tree)
    (saved : List String) : (c.restore saved).Holds found where
  result := h.result
  selected := by
    intro path hp
    obtain ⟨-, hp⟩ := List.mem_filter.1 (Selection.mem_ofList.1 hp)
    rw [← hf]
    rw [files, h.result] at hp
    exact List.contains_iff_mem.1 hp

/-- A selection within the files of a result is the one that its own paths restore, in whatever
order they come. -/
theorem Holds.selection_restore (h : c.Holds found) (hd : d.result = some found)
    (hf : found.files = Tree.flatFiles found.tree) {saved : List String}
    (hs : saved.Perm c.selection.paths) : (d.restore saved).selection = c.selection := by
  apply Selection.ext_mem
  intro path
  change path ∈ Selection.restore saved d.files ↔ _
  rw [Selection.restore, Selection.mem_ofList, List.mem_filter, hs.mem_iff, files, hd,
    Option.map_some, Option.getD_some, hf, List.contains_iff_mem]
  exact and_iff_left_of_imp (h.selected path)

end Controller

namespace CommandLine

open Host

variable {m n : Model} {places : Store.Places} {setting : Setting} {o : Options} {root : String}
  {c d : Controller} {found : ScanResult}

/-- A scan of the command line returns what it has installed, without a selection. -/
theorem installed_of_scanRoot {depth : Nat} {patterns : List String} {workers : Value Nat}
    (h : (scanRoot depth root patterns workers).run.eval m.reply = .ok (found, c)) :
    found = Scan.result root found.tree ∧ c.Holds found ∧ c.selection = ∅ := by
  rw [scanRoot_eq] at h
  cases workers with
  | void => cases h
  | given count =>
    rw [eval_run_bind_of_ok (eval_required .count count), eval_run_lift_bind, scanned,
      eval_run_hostAnswer] at h
    change (outcomeOf (Control.perform m.listing (Control.scan .inOrder depth root patterns)
      { workers := count })).run.eval m.reply = _ at h
    rw [Control.perform_scan] at h
    cases ht : Control.treeOn m.listing (Controller.start { workers := count }).2 .inOrder depth
        root patterns (some (Controller.start { workers := count }).1) with
    | error fault =>
      rw [ht] at h
      cases h
    | ok built =>
      cases built with
      | none =>
        rw [ht] at h
        cases h
      | some result =>
        rw [← Control.perform_scan, Control.perform_scan_of_treeOn ht] at h
        cases h
        refine ⟨Control.eq_result_of_treeOn ht, ⟨rfl, ?_⟩, rfl⟩
        exact fun path hp => absurd hp (Selection.not_mem_empty path)

/-! ### Finding a selection -/

/-- The saved selection of the root, if it is asked for. -/
def restored (places : Store.Places) (o : Options) (root : String) (c : Controller) :
    Task Controller :=
  if o.restoreSelection then
    onStores (Store.loadSelection places root) >>= fun saved =>
      pure (c.restore (saved.filterMap Utf16.toString?))
  else pure c

/-- The selection of the saved context that is named, if one is. -/
def recalled (places : Store.Places) (o : Options) (root : String) (c : Controller) :
    Task Controller :=
  match o.loadContext with
  | none => pure c
  | some value =>
    onStores (Store.contextsFor places root) >>= fun contexts =>
      findContext contexts value >>= fun
        | none => fail ("No saved context named " ++ value.text)
        | some context => pure (c.restore (context.paths.filterMap Utf16.toString?))

/-- The selection after one path is toggled. -/
def toggledAt (root : String) (c : Controller) (value : Value String) : Task Controller :=
  required .path value >>= fun name =>
    match c.toggle (PathName.resolveIn root name) with
    | .error e => fail e.message
    | .ok next => pure next

/-- Toggling the paths one after the other. -/
theorem forIn_toggled (root : String) (values : List (Value String)) (c : Controller) :
    (forIn values c fun value c => required .path value >>= fun name =>
      match c.toggle (PathName.resolveIn root name) with
      | .error e => (fail e.message : Task Unit) >>= fun _ => pure (ForInStep.yield c)
      | .ok next => pure (ForInStep.yield next)) = values.foldlM (toggledAt root) c := by
  induction values generalizing c with
  | nil => rfl
  | cons value values ih =>
    rw [List.forIn_cons, List.foldlM_cons, toggledAt, LawfulMonad.bind_assoc,
      LawfulMonad.bind_assoc]
    congr 1
    funext name
    cases c.toggle (PathName.resolveIn root name) with
    | error e => rfl -- What the loop would go on with after a failure is of no account.
    | ok next => exact ih next

theorem recalled_bind {α : Type} {value : Value String} (h : o.loadContext = some value)
    (f : Controller → Task α) :
    recalled places o root c >>= f =
      onStores (Store.contextsFor places root) >>= fun contexts =>
        findContext contexts value >>= fun
          | none => fail ("No saved context named " ++ value.text)
          | some context => f (c.restore (context.paths.filterMap Utf16.toString?)) := by
  rw [recalled, h]
  simp only [LawfulMonad.bind_assoc]
  congr 1
  funext contexts
  congr 1
  funext context
  cases context <;> rfl

theorem selectPaths_eq (places : Store.Places) (o : Options) (root : String) (c : Controller) :
    selectPaths places o root c = restored places o root c >>= fun c =>
      recalled places o root c >>= fun c => o.select.foldlM (toggledAt root) c := by
  unfold selectPaths restored
  simp only [bind_pure, ← forIn_toggled]
  cases hl : o.loadContext with
  | none =>
    simp only [recalled, hl]
    split
    · rw [LawfulMonad.bind_assoc]
      rfl
    · rfl
  | some value =>
    simp only [recalled_bind hl]
    split
    · rw [LawfulMonad.bind_assoc]
      rfl
    · rfl

theorem looksT_restored (places : Store.Places) (o : Options) (root : String) (c : Controller) :
    LooksT (restored places o root c) := by
  unfold restored
  split
  · exact (looksT_onStores (Store.looksT_loadSelection places root)).bind fun _ => looksT_pure _
  · exact looksT_pure c

theorem looksT_findContext (contexts : List Store.SavedContext) (value : Value String) :
    LooksT (findContext contexts value) := by
  unfold findContext
  split
  · exact looksT_pure none
  · exact (looksT_required _ value).bind fun _ => looksT_pure _

theorem looksT_recalled (places : Store.Places) (o : Options) (root : String) (c : Controller) :
    LooksT (recalled places o root c) := by
  unfold recalled
  split
  · exact looksT_pure c
  · next value _ =>
    apply (looksT_onStores (Store.looksT_contextsFor places root)).bind
    intro contexts
    apply (looksT_findContext contexts value).bind
    intro context
    cases context with
    | none => exact looksT_fail _
    | some context => exact looksT_pure _

theorem looksT_toggledAt (root : String) (c : Controller) (value : Value String) :
    LooksT (toggledAt root c value) := by
  apply (looksT_required _ value).bind
  intro name
  split
  · exact looksT_fail _
  · exact looksT_pure _

theorem looksT_foldlM_toggledAt (root : String) (values : List (Value String)) (c : Controller) :
    LooksT (values.foldlM (toggledAt root) c) := by
  induction values generalizing c with
  | nil => exact looksT_pure c
  | cons value values ih =>
    rw [List.foldlM_cons]
    exact (looksT_toggledAt root c value).bind ih

/-- A selection is found by looking only. -/
theorem looksT_selectPaths (places : Store.Places) (o : Options) (root : String)
    (c : Controller) : LooksT (selectPaths places o root c) := by
  rw [selectPaths_eq]
  exact (looksT_restored places o root c).bind fun c =>
    (looksT_recalled places o root c).bind fun c => looksT_foldlM_toggledAt root o.select c

section Holds

variable (hc : c.Holds found) (hf : found.files = Tree.flatFiles found.tree)
include hc

theorem holds_of_toggledAt {values : List (Value String)}
    (h : (values.foldlM (toggledAt root) c).run.eval m.reply = .ok d) : d.Holds found := by
  induction values generalizing c with
  | nil =>
    cases h
    exact hc
  | cons value values ih =>
    rw [List.foldlM_cons, eval_run_bind_iff] at h
    obtain ⟨e, he, h⟩ := h
    refine ih ?_ h
    cases value with
    | void => cases he
    | given name =>
      rw [toggledAt, eval_run_bind_of_ok (eval_required .path name)] at he
      cases ht : c.toggle (PathName.resolveIn root name) with
      | error problem =>
        rw [ht] at he
        cases he
      | ok next =>
        rw [ht] at he
        cases he
        exact hc.toggle ht

include hf

/-- The selection that is found is within the files of the tree. -/
theorem holds_of_selectPaths
    (h : (selectPaths places o root c).run.eval m.reply = .ok d) : d.Holds found := by
  rw [selectPaths_eq, eval_run_bind_iff] at h
  obtain ⟨c₁, h₁, h⟩ := h
  obtain ⟨c₂, h₂, h⟩ := eval_run_bind_iff.1 h
  have hc₁ : c₁.Holds found := by
    unfold restored at h₁
    split at h₁
    · obtain ⟨selected, -, h₁⟩ := eval_run_bind_iff.1 h₁
      cases h₁
      exact hc.restore hf _
    · cases h₁
      exact hc
  refine holds_of_toggledAt ?_ h
  cases hl : o.loadContext with
  | none =>
    rw [recalled, hl] at h₂
    cases h₂
    exact hc₁
  | some value =>
    rw [recalled, hl] at h₂
    obtain ⟨contexts, -, h₂⟩ := eval_run_bind_iff.1 h₂
    obtain ⟨context, -, h₂⟩ := eval_run_bind_iff.1 h₂
    cases context with
    | none => cases h₂
    | some context =>
      cases h₂
      exact hc₁.restore hf _

end Holds

/-! ### Saving and printing -/

/-- The session with the selection, if that is asked for. -/
def savedSession (places : Store.Places) (o : Options) (root : String) (s : Selection) :
    Task Unit :=
  if o.saveSelection then onStores (Store.saveSelection places root s.paths) else pure ()

/-- The contexts with the selection under the name that is given, if one is. -/
def savedContext (places : Store.Places) (o : Options) (root : String) (s : Selection) :
    Task Unit :=
  match o.saveContext with
  | none => pure ()
  | some value =>
    required .text value >>= fun name =>
      onStores (Store.saveContext places name root s.paths) >>= fun
        | none => fail "Context name must not be blank"
        | some saved =>
          liftM (log ⟨.info, "Saved context " ++ saved.name.lossy ++ " (" ++ saved.id.lossy ++ ")"⟩)

theorem saveSelected_eq (places : Store.Places) (o : Options) (root : String) (s : Selection) :
    saveSelected places o root s =
      savedSession places o root s >>= fun _ => savedContext places o root s := by
  unfold saveSelected savedSession savedContext
  cases o.saveSelection <;> cases o.saveContext <;> rfl

/-- The path of the subtree that is printed, if not the whole tree is. -/
def topOf (o : Options) (root : String) : Option String :=
  (o.treeRoot.filter (· ≠ "")).map (PathName.resolveIn root)

/-- What is printed of a tree: the root, the nodes with their markers and the number of files that
are selected. -/
def treeText (o : Options) (root : String) (c : Controller) : String :=
  let selected := c.selection.size ≠ 0
  let marker := if selected then checkMarker c.checkStates else Tree.noMarker
  let count := (c.selection.inTreeOrder c.tree).length
  root ++ "\n" ++ Tree.text (Tree.subtree c.tree (topOf o root)) marker ++
    if selected then "\n" ++ toString count ++ " files selected\n" else ""

/-- The part of printing a tree that follows the look for its top. -/
def printNodes (o : Options) (root : String) (c : Controller) : Task Unit :=
  let selected := c.selection.size ≠ 0
  let marker := if selected then checkMarker c.checkStates else Tree.noMarker
  (liftM (print (root ++ "\n")) : Task Unit) >>= fun _ =>
    (liftM (print (Tree.text (Tree.subtree c.tree (topOf o root)) marker)) : Task Unit) >>= fun _ =>
      if selected then
        let count := (c.selection.inTreeOrder c.tree).length
        liftM (print ("\n" ++ toString count ++ " files selected\n"))
      else pure ()

theorem run_printNodes (m : Model) (o : Options) (root : String) (c : Controller) :
    m.run (printNodes o root c).run =
      (.ok (), { m with output := m.output ++ Utf16.ofString (treeText o root c) }) := by
  by_cases hs : c.selection.size ≠ 0
  · simp only [printNodes, treeText, if_pos hs, Model.runT_lift_bind, Model.runT_lift, run_print,
      Utf16.ofString_append, Utf16.append_assoc]
  · simp only [printNodes, treeText, if_neg hs, Model.runT_lift_bind, run_print,
      Utf16.ofString_append, Utf16.append_assoc, Utf16.append_empty]
    rfl

/-- The look for the node that is to be at the top, if one is asked for. -/
def lookForTop (o : Options) (root : String) (c : Controller) : Task Unit :=
  match topOf o root with
  | none => pure ()
  | some path =>
    if (c.find? path).isNone then fail (SelectionError.unknownPath path).message else pure ()

theorem printTree_eq (o : Options) (root : String) (c : Controller) :
    printTree o root c = lookForTop o root c >>= fun _ => printNodes o root c := by
  unfold printTree lookForTop printNodes
  dsimp only
  rw [← topOf]
  cases topOf o root with
  | none => rfl
  | some path =>
    dsimp only
    split <;> rfl

theorem looksT_lookForTop (o : Options) (root : String) (c : Controller) :
    LooksT (lookForTop o root c) := by
  unfold lookForTop
  split
  · exact looksT_pure ()
  · split
    · exact looksT_fail _
    · exact looksT_pure ()

/-! ### Whole runs -/

/-- What is shown of a result: the matches of a search, the files or the tree. -/
def display (o : Options) (found : ScanResult) (c : Controller) : Task Unit :=
  match o.search with
  | some query =>
    required .text query >>= fun text => liftM (printPaths (Tree.search found.files text none))
  | none => if o.files then liftM (printPaths found.files) else printTree o found.root c

/-- What follows a scan. -/
def afterScan (setting : Setting) (o : Options) (found : ScanResult × Controller) : Task Unit :=
  onStores (Store.saveLast setting.places (some found.1.root)) >>= fun _ =>
    selectPaths setting.places o found.1.root found.2 >>= fun c =>
      saveSelected setting.places o found.1.root c.selection >>= fun _ => display o found.1 c

theorem showProject_steps (setting : Setting) (o : Options) (root : String)
    (patterns : List String) :
    showProject setting o root patterns =
      scanRoot setting.depth root patterns o.workers >>= afterScan setting o := by
  unfold showProject afterScan display
  cases o.search <;> rfl

/-- The root that a run finds has a name. -/
theorem root_ne_empty (h : (findRoot setting o).run.eval m.reply = .ok root) :
    Utf16.ofString root ≠ "" := by
  obtain ⟨-, -, hdirectory⟩ := resolve_of_findRoot h
  obtain ⟨place, hl⟩ := Disk.locate_of_isDirectory hdirectory
  obtain ⟨-, hne, -⟩ := Disk.fits_of_locate hl
  exact mt Utf16.ofString_inj.1 hne

/-- What follows the edits of a run. -/
def afterEdits (setting : Setting) (o : Options) : Task Unit :=
  findRoot setting o >>= fun root =>
    if o.listContexts then
      onStores (Store.contextsFor setting.places root) >>= fun contexts =>
        (forIn contexts PUnit.unit fun context _ =>
          (liftM (print (context.id ++ "\t" ++ context.name ++ "\t" ++
            toString context.paths.length ++ " files\n")) : Task Unit) >>= fun _ =>
              pure (ForInStep.yield PUnit.unit) : Task PUnit) >>= fun _ => pure ()
    else
      gatherPatterns setting.places o >>= fun patterns =>
        match o.check with
        | some path => explainPath root patterns path
        | none => showProject setting o root patterns

theorem perform_steps (setting : Setting) (o : Options) :
    perform setting o =
      (liftM (logFrom (Log.effective (Log.threshold o.logLevel setting.environmentLevel))) :
        Task Unit) >>= fun _ => editStores setting.places o >>= fun edited =>
          if edited then pure () else afterEdits setting o := by
  unfold perform afterEdits
  cases o.check <;> rfl

/-- A run with arguments that can be read ends as its task does. -/
theorem run_of_parseArguments {arguments : List String} (h : parseArguments arguments = .ok o)
    (m : Model) :
    m.run (run setting arguments) =
      match m.run (perform setting o).run with
      | (.ok (), n) => (.finished, n)
      | (.error outcome, n) => (outcome, n) := by
  rw [run, h]
  dsimp only
  rw [Model.run_bind]
  obtain ⟨result, n⟩ := m.run (perform setting o).run
  cases result <;> rfl

end CommandLine

end FileSieve
