import FileSieve.Proofs.CommandLine.Failing
import FileSieve.Proofs.CommandLine.Outcomes
import FileSieve.Proofs.Store.ContextNames

/-! # Restored selections

A selection that a run saves is the one that a later run restores, if both see the same tree: then
both print the same. It may be saved with its root or as a context under a name. -/

namespace FileSieve.CommandLine

open Host Program

variable {m n k : Model} {setting : Setting} {places : Store.Places} {o p : Options}
  {root : String} {c d : Controller} {found : ScanResult}

/-! ### Runs that print a tree -/

/-- The options of a run that prints a tree: it edits, lists, checks and searches nothing. -/
structure PrintsTree (o : Options) : Prop where
  listPatterns : o.listPatterns = false
  removePattern : o.removePattern = none
  replacePattern : o.replacePattern = none
  deleteContext : o.deleteContext = none
  addPattern : o.addPattern = none
  importGitignore : o.importGitignore = none
  listContexts : o.listContexts = false
  check : o.check = none
  search : o.search = none
  files : o.files = false

/-- What a run looks at: its root, scanned with its patterns. -/
def lookAt (setting : Setting) (o : Options) : Task (ScanResult × Controller) :=
  findRoot setting o >>= fun root =>
    gatherPatterns setting.places o >>= fun patterns =>
      scanRoot setting.depth root patterns o.workers

theorem looksT_lookAt (setting : Setting) (o : Options) : LooksT (lookAt setting o) :=
  (looksT_findRoot setting o).bind fun root =>
    (looksT_gatherPatterns setting.places o).bind fun patterns =>
      looksT_scanRoot setting.depth root patterns o.workers

/-- The root and the tree that a run sees. -/
def sees (setting : Setting) (o : Options) (m : Model) : Except Outcome ScanResult :=
  ((lookAt setting o).run.eval m.reply).map Prod.fst

/-- The start of a run: from here on, the log keeps what the options ask for. -/
def started (setting : Setting) (o : Options) (m : Model) : Model :=
  (m.run (logFrom (Log.effective (Log.threshold o.logLevel setting.environmentLevel)))).2

theorem looksLike_started (setting : Setting) (o : Options) (m : Model) :
    m.LooksLike (started setting o m) :=
  ⟨⟨rfl, rfl⟩, rfl⟩

theorem PrintsTree.perform_eq (h : PrintsTree o) (setting : Setting) :
    perform setting o =
      (liftM (logFrom (Log.effective (Log.threshold o.logLevel setting.environmentLevel))) :
        Task Unit) >>= fun _ => lookAt setting o >>= afterScan setting o := by
  have hedit : editStores setting.places o = pure false := by
    unfold editStores
    simp [h.listPatterns, h.removePattern, h.replacePattern, h.deleteContext, h.addPattern,
      h.importGitignore]
  rw [perform_steps, hedit]
  simp only [pure_bind, Bool.false_eq_true, if_false, afterEdits, lookAt, LawfulMonad.bind_assoc,
    h.listContexts, h.check, showProject_steps]

/-- The result that a run looks at has a root with a name, and is installed without a selection. -/
theorem installed_of_lookAt (h : (lookAt setting o).run.eval m.reply = .ok (found, c)) :
    Utf16.ofString found.root ≠ "" ∧ found.files = Tree.flatFiles found.tree ∧ c.Holds found := by
  rw [lookAt, eval_run_bind_iff] at h
  obtain ⟨root, hroot, h⟩ := h
  obtain ⟨patterns, -, h⟩ := eval_run_bind_iff.1 h
  obtain ⟨hfound, hc, -⟩ := installed_of_scanRoot h
  rw [hfound]
  exact ⟨root_ne_empty hroot, rfl, hfound ▸ hc⟩

/-! ### What is printed -/

theorem PrintsTree.display_eq (h : PrintsTree o) (found : ScanResult) (c : Controller) :
    display o found c = printTree o found.root c := by
  simp [display, h.search, h.files]

/-- What is printed of a tree depends on its top, its nodes and the selection alone. -/
theorem printTree_congr (htop : p.treeRoot = o.treeRoot) (htree : d.tree = c.tree)
    (hs : d.selection = c.selection) : printTree p root d = printTree o root c := by
  simp only [printTree, Controller.find?, Controller.checkStates, htop, htree, hs]

/-- A tree that is printed on one host is printed alike on any other one. -/
theorem exists_text_of_printTree (h : m.run (printTree o root c).run = (.ok (), n)) :
    ∃ text, n = { m with output := m.output ++ text } ∧
      ∀ k : Model, k.run (printTree o root c).run =
        (.ok (), { k with output := k.output ++ text }) := by
  have hfound : lookForTop o root c = pure () := by
    rw [printTree_eq] at h
    revert h
    unfold lookForTop
    split
    · exact fun _ => rfl
    · split
      · intro h
        cases h
      · exact fun _ => rfl
  rw [printTree_eq, hfound, pure_bind, run_printNodes] at h
  refine ⟨Utf16.ofString (treeText o root c), ?_, fun k => ?_⟩
  · cases h
    rfl
  · rw [printTree_eq, hfound, pure_bind, run_printNodes]

/-! ### Saving prints nothing -/

theorem quiet_saveSelection (places : Store.Places) (root : Utf16) (paths : List String) :
    Quiet (Store.saveSelection places root paths).run := by
  unfold Store.saveSelection
  split
  · trivial
  · exact Quiet.bindT (Looks.quiet (Store.looksT_loadSession places)) fun _ =>
      quiet_lift (Store.quiet_write _ _)

theorem quiet_saveContext (places : Store.Places) (name root : Utf16) (paths : List String) :
    Quiet (Store.saveContext places name root paths).run := by
  have hsaved (list : List Store.SavedContext) (context : Store.SavedContext) :
      Quiet (do
        Store.saveContexts places list
        return some context : Store.Reading (Option Store.SavedContext)).run :=
    (quiet_lift (Store.quiet_write _ _)).bindT fun _ => trivial
  unfold Store.saveContext
  dsimp only
  split
  · trivial
  · apply Quiet.bindT (Looks.quiet (Store.looksT_loadContexts places))
    intro contexts
    split
    · exact hsaved _ _
    · exact (quiet_lift (quiet_ask .freshId trivial)).bindT fun _ => hsaved _ _

theorem quiet_saveSelected (places : Store.Places) (o : Options) (root : String)
    (s : Selection) : Quiet (saveSelected places o root s).run := by
  rw [saveSelected_eq]
  apply Quiet.bindT
  · unfold savedSession
    split
    · exact quiet_onStores (quiet_saveSelection _ _ _)
    · trivial
  · intro _
    unfold savedContext
    split
    · trivial
    · next value _ =>
      apply Quiet.bindT
      · cases value <;> trivial
      · intro name
        apply Quiet.bindT (quiet_onStores (quiet_saveContext _ _ _ _))
        intro saved
        cases saved with
        | none => trivial
        | some saved => exact quiet_lift (quiet_ask (.log _) trivial)

/-! ### The course of a run -/

/-- Between two hosts the root has been saved, and otherwise no file has changed. -/
def Rooted (places : Store.Places) (root : String) (m n : Model) : Prop :=
  ∃ o k, m.SameFiles o ∧ o.run (Store.saveLast places (some root)).run = (.ok (), k) ∧
    k.SameFiles n

theorem Rooted.canWrite (h : Rooted places root m n)
    (hw : Store.canWrite m places.session = true) : Store.canWrite n places.session = true := by
  obtain ⟨o, k, ho, hrun, hn⟩ := h
  rw [← Store.canWrite_eq_of_sameFiles ho] at hw
  have hedit := Store.canWrite_run_sessionEdit hw (.saveLast root)
  rw [Store.SessionEdit.perform, hrun] at hedit
  exact (Store.canWrite_eq_of_sameFiles hn).trans hedit

theorem Rooted.selections (h : Rooted places root m n)
    (hw : Store.canWrite m places.session = true) :
    (Store.register places n).selections = (Store.register places m).selections := by
  obtain ⟨o, k, ho, hrun, hn⟩ := h
  rw [← Store.canWrite_eq_of_sameFiles ho] at hw
  have hedit := @Store.SessionEdit.register_perform places o (.saveLast root) fun _ _ _ => hw
  rw [Store.SessionEdit.perform, hrun] at hedit
  rw [Store.register_eq_of_document (Store.document_eq_of_sameFiles hn), hedit,
    ← Store.register_eq_of_document (Store.document_eq_of_sameFiles ho)]
  rfl

/-- The session can be read before the root has been saved, and after that. -/
theorem Rooted.exists_session (h : Rooted places root m n)
    (hw : Store.canWrite m places.session = true ∨ Store.Separate places m) :
    ∃ s, Store.session places n = .ok s := by
  obtain ⟨o, k, ho, hrun, hn⟩ := h
  cases hs : Store.session places o with
  | error part =>
    have hstopped := Store.run_saveLast places o (some root)
    rw [hrun, hs] at hstopped
    cases hstopped
  | ok s =>
    rw [← Store.canWrite_eq_of_sameFiles ho] at hw
    have hedit := Store.exists_session_perform hs
      (hw.imp_right (Store.apart_of_sameFiles ho)) (.saveLast root)
    rw [Store.SessionEdit.perform, hrun] at hedit
    rwa [Store.session_eq_of_sameFiles hn]

theorem Rooted.keepsContexts (h : Rooted places root m n) (hm : Store.Separate places m) :
    Store.KeepsContexts places m n := by
  obtain ⟨o, k, ho, hrun, hn⟩ := h
  have hsame := Store.KeepsContexts.of_sameFiles hm ho
  have hedit := hsame.separate.run_sessionEdit (.saveLast root)
  rw [Store.SessionEdit.perform, hrun] at hedit
  exact (hsame.trans hedit).trans (.of_sameFiles hedit.separate hn)

/-- A run that has printed a tree: it has seen a result, saved its root, made a selection, saved
that and printed a text. -/
structure Course (setting : Setting) (o : Options) (found : ScanResult) (d : Controller)
    (text : Utf16) (m rooted saved n : Model) : Prop where
  sees : sees setting o m = .ok found
  root_ne : Utf16.ofString found.root ≠ ""
  files : found.files = Tree.flatFiles found.tree
  holds : d.Holds found
  saves_root : Rooted setting.places found.root m rooted
  saves_selection : rooted.run (saveSelected setting.places o found.root d.selection).run =
    (.ok (), saved)
  same : saved.SameFiles n
  output : n.output = m.output ++ text
  prints : ∀ k : Model, k.run (printTree o found.root d).run =
    (.ok (), { k with output := k.output ++ text })

theorem exists_course {arguments : List String} (hp : parseArguments arguments = .ok o)
    (ho : PrintsTree o) (h : m.run (run setting arguments) = (.finished, n)) :
    ∃ found d text rooted saved, Course setting o found d text m rooted saved n := by
  rw [run_eq_finished_iff hp, ho.perform_eq, Model.runT_lift_bind] at h
  change (started setting o m).run _ = _ at h
  obtain ⟨⟨found, c⟩, m₁, hlook, hm₁, hscan⟩ :=
    Model.exists_of_runT_bind_looks (looksT_lookAt setting o) h
  have hlike := looksLike_started setting o m
  rw [hlike.eval_eq (looksT_lookAt setting o)] at hlook
  obtain ⟨hroot, hfiles, hc⟩ := installed_of_lookAt hlook
  -- Up to here the run has looked only. Now it saves, looks and saves again, and prints at the end.
  rw [afterScan] at hscan
  obtain ⟨_, kept, hlast, hselect⟩ := Model.exists_of_runT_bind hscan
  obtain ⟨d, rooted, hselect, hrooted, hsave⟩ :=
    Model.exists_of_runT_bind_looks (looksT_selectPaths _ _ _ _) hselect
  obtain ⟨_, saved, hsaved, hdisplay⟩ := Model.exists_of_runT_bind hsave
  rw [ho.display_eq] at hdisplay
  obtain ⟨text, hn, htext⟩ := exists_text_of_printTree hdisplay
  have hm := hlike.trans hm₁
  have hlast := run_onStores_eq_ok_iff.1 hlast
  have hkept := Model.output_run_of_quiet (quiet_saveLast setting.places (some found.root)) m₁
  rw [hlast] at hkept
  have hquiet := Model.output_run_of_quiet
    (quiet_saveSelected setting.places o found.root d.selection) rooted
  rw [hsaved] at hquiet
  refine ⟨found, d, text, rooted, saved, ?_, hroot, hfiles, holds_of_selectPaths hc hfiles hselect,
    ⟨m₁, kept, hm.toSameFiles, hlast, hrooted.toSameFiles⟩, hsaved, ?_, ?_, htext⟩
  · rw [CommandLine.sees, hlook]
    rfl
  · rw [hn]
    exact ⟨rfl, rfl⟩
  · calc n.output = saved.output ++ text := by rw [hn]
      _ = rooted.output ++ text := by rw [← hquiet]
      _ = kept.output ++ text := by rw [hrooted.output]
      _ = m.output ++ text := by rw [hkept, hm.output]

/-! ### What is saved -/

/-- The paths of a selection as they are saved. -/
def savedPaths (s : Selection) : List Utf16 :=
  (Store.sortPaths s.paths).map Utf16.ofString

theorem filterMap_savedPaths (s : Selection) :
    (savedPaths s).filterMap Utf16.toString? = Store.sortPaths s.paths := by
  rw [savedPaths, List.filterMap_map]
  simp [Utf16.toString?_ofString]

/-- Where the session is saved without a failure, this was asked for, or nothing was done. -/
theorem savedSession_cases {s : Selection}
    (h : m.run (savedSession places o root s).run = (.ok (), n)) :
    o.saveSelection = true ∧ m.run (Store.saveSelection places root s.paths).run = (.ok (), n) ∨
      o.saveSelection = false ∧ n = m := by
  unfold savedSession at h
  cases hs : o.saveSelection with
  | true =>
    rw [if_pos hs] at h
    exact .inl ⟨rfl, run_onStores_eq_ok_iff.1 h⟩
  | false =>
    rw [if_neg (by simp [hs])] at h
    cases h
    exact .inr ⟨rfl, rfl⟩

/-- A selection can be saved wherever the session can be read. -/
theorem exists_run_savedSession {session : Store.Session}
    (h : Store.session places m = .ok session) (o : Options) (root : String) (s : Selection) :
    ∃ n, m.run (savedSession places o root s).run = (.ok (), n) := by
  unfold savedSession
  split
  · obtain ⟨n, hn⟩ := Store.SessionEdit.exists_run_perform_ok h (.saveSelection root s.paths)
    exact ⟨n, run_onStores_eq_ok_iff.2 hn⟩
  · exact ⟨m, rfl⟩

/-- Where a context is saved without a failure, its name is given and has been found good. -/
theorem savedContext_cases {s : Selection}
    (h : m.run (savedContext places o root s).run = (.ok (), n)) :
    o.saveContext = none ∧ n = m ∨ ∃ name c q, o.saveContext = some (.given name) ∧
      m.run (Store.saveContext places name root s.paths).run = (.ok (some c), q) ∧
        q.SameFiles n := by
  unfold savedContext at h
  cases hc : o.saveContext with
  | none =>
    rw [hc] at h
    cases h
    exact .inl ⟨rfl, rfl⟩
  | some value =>
    rw [hc] at h
    cases value with
    | void => cases h
    | given name =>
      have hname : required .text (.given name) = pure name := rfl
      dsimp only at h
      rw [hname, pure_bind] at h
      obtain ⟨answer, q, hsave, h⟩ := Model.exists_of_runT_bind h
      cases answer with
      | none => cases h
      | some c =>
        refine .inr ⟨name, c, q, rfl, run_onStores_eq_ok_iff.1 hsave, ?_⟩
        dsimp only at h
        rw [Model.runT_lift] at h
        have hlog := Model.run_of_looks (looks_ask (.log ⟨.info, "Saved context " ++
          c.name.lossy ++ " (" ++ c.id.lossy ++ ")"⟩) trivial) q
        rw [← (Prod.mk.inj h).2]
        exact hlog.2.toSameFiles

/-- A context is saved without touching the session. -/
theorem document_of_savedContext {s : Selection}
    (hsep : o.saveContext = none ∨ Store.Separate places m)
    (h : m.run (savedContext places o root s).run = (.ok (), n)) :
    Store.document n places.session = Store.document m places.session := by
  rcases savedContext_cases h with ⟨-, rfl⟩ | ⟨name, c, q, hname, hq, hsame⟩
  · rfl
  · have hm : Store.Separate places m := hsep.resolve_left (by simp [hname])
    have hkept := hm.document_saveContext name root s.paths
    rw [hq] at hkept
    rw [Store.document_eq_of_sameFiles hsame]
    exact hkept

variable {found : ScanResult} {text : Utf16} {rooted saved : Model}

/-- A run that has come to its end leaves a session that can be read. -/
theorem Course.exists_session (h : Course setting o found d text m rooted saved n)
    (hsep : Store.Separate setting.places m) :
    ∃ s, Store.session setting.places n = .ok s := by
  have hsaved := h.saves_selection
  rw [saveSelected_eq] at hsaved
  obtain ⟨_, kept, hsession, hcontext⟩ := Model.exists_of_runT_bind hsaved
  have hrooted := (h.saves_root.keepsContexts hsep).separate
  have hkept := (keepsContexts_of_savedSession hrooted hsession).separate
  obtain ⟨s, hs⟩ := h.saves_root.exists_session (.inr hsep)
  have hread : ∃ t, Store.session setting.places kept = .ok t := by
    rcases savedSession_cases hsession with ⟨-, hsave⟩ | ⟨-, rfl⟩
    · have hedit := Store.exists_session_perform hs (.inr hrooted)
        (.saveSelection found.root d.selection.paths)
      rwa [Store.SessionEdit.perform, hsave] at hedit
    · exact ⟨s, hs⟩
  rwa [Store.session_eq_of_sameFiles h.same, Store.session,
    document_of_savedContext (.inr hkept) hcontext]

/-- The selection of a run is what the session holds for its root. -/
theorem Course.selections_eq (h : Course setting o found d text m rooted saved n)
    (hs : o.saveSelection = true) (hw : Store.canWrite m setting.places.session = true)
    (hsep : o.saveContext = none ∨ Store.Separate setting.places m) :
    (Store.register setting.places n).selections found.root = .ok (savedPaths d.selection) := by
  have hsaved := h.saves_selection
  rw [saveSelected_eq] at hsaved
  obtain ⟨_, kept, hsession, hcontext⟩ := Model.exists_of_runT_bind hsaved
  obtain ⟨-, hsave⟩ := (savedSession_cases hsession).resolve_right (by simp [hs])
  obtain ⟨session, hrooted⟩ := h.saves_root.exists_session (.inl hw)
  have hedit := @Store.SessionEdit.register_perform setting.places rooted
    (.saveSelection found.root d.selection.paths) fun _ _ _ => h.saves_root.canWrite hw
  rw [Store.SessionEdit.perform, hsave] at hedit
  have hkept : o.saveContext = none ∨ Store.Separate setting.places kept := by
    apply hsep.imp_right
    intro hm
    have hrooted := (h.saves_root.keepsContexts hm).separate
    exact (keepsContexts_of_savedSession hrooted hsession).separate
  rw [Store.register_eq_of_document (Store.document_eq_of_sameFiles h.same),
    Store.register_eq_of_document (document_of_savedContext hkept hcontext), hedit,
    Store.Register.selections_after h.root_ne, if_pos rfl,
    Store.selections_register _ _ h.root_ne, hrooted]
  rfl

/-- The selection of a run is what the contexts hold for its root under the name that it gives. -/
theorem Course.find?_eq {name : String} {list : List Store.SavedContext}
    (h : Course setting o found d text m rooted saved n)
    (hc : o.saveContext = some (.given name)) (hsep : Store.Separate setting.places m)
    (hw : Store.canWrite m setting.places.contexts = true)
    (hl : Store.stored setting.places m = .ok list) (hkeyed : Store.Keyed list) :
    ∃ c kept, Store.stored setting.places n = .ok kept ∧
      (kept.filter (·.root = Utf16.ofString found.root)).find?
        (·.name = Utf16.ofString (Text.trim name)) = some c ∧
      c.paths = savedPaths d.selection := by
  have hsaved := h.saves_selection
  rw [saveSelected_eq] at hsaved
  obtain ⟨_, q, hsession, hcontext⟩ := Model.exists_of_runT_bind hsaved
  have hrooted := h.saves_root.keepsContexts hsep
  have hkept := hrooted.trans (keepsContexts_of_savedSession hrooted.separate hsession)
  rcases savedContext_cases hcontext with ⟨hnone, -⟩ | ⟨given, c, p, hname, hp, hsame⟩
  · rw [hnone] at hc
    cases hc
  · rw [hc] at hname
    cases hname
    have hgood : ¬((Utf16.ofString name).trim = "" ∨ Utf16.ofString found.root = "") := by
      intro hrefused
      rw [Store.run_saveContext_of_refused hrefused] at hp
      cases hp
    rw [← hkept.stored_eq] at hl
    obtain ⟨c', kept, p', hp', hstored, hfind, hpaths⟩ :=
      Store.find?_saved hl hkeyed hgood (hkept.writable hw) d.selection.paths
    rw [hp] at hp'
    cases hp'
    rw [Store.stored_eq_of_sameFiles h.same, Store.stored_eq_of_sameFiles hsame,
      ← Utf16.trim_ofString]
    exact ⟨c, kept, hstored, hfind, hpaths⟩

/-! ### Selecting what was saved -/

theorem eval_restored {list : List Utf16} (h : p.restoreSelection = true)
    (hl : (Store.register places m).selections root = .ok list) (c : Controller) :
    (restored places p root c).run.eval m.reply =
      .ok (c.restore (list.filterMap Utf16.toString?)) := by
  have hload : (Store.loadSelection places root).run.eval m.reply = .ok list :=
    (Model.run_of_looks (Store.looksT_loadSelection places root) m).1.symm.trans hl
  rw [restored, if_pos h, eval_run_bind_of_ok (eval_onStores_eq_ok_iff.2 hload)]
  rfl

theorem eval_recalled {name : String} {list : List Store.SavedContext}
    {context : Store.SavedContext} (h : p.loadContext = some (.given name))
    (hl : Store.stored places m = .ok list)
    (hfind : (list.filter (·.root = Utf16.ofString root)).find?
      (·.name = Utf16.ofString (Text.trim name)) = some context) (c : Controller) :
    (recalled places p root c).run.eval m.reply =
      .ok (c.restore (context.paths.filterMap Utf16.toString?)) := by
  have hcontexts : (Store.contextsFor places root).run.eval m.reply =
      .ok (list.filter (·.root = Utf16.ofString root)) := by
    rw [← (Model.run_of_looks (Store.looksT_contextsFor places root) m).1, Store.run_contextsFor,
      hl]
    rfl
  have hfound : (findContext (list.filter (·.root = Utf16.ofString root))
      (.given name)).run.eval m.reply = .ok (some context) := by
    rw [findContext, if_neg]
    · exact congrArg Except.ok hfind
    · intro hempty
      rw [List.isEmpty_iff.1 hempty] at hfind
      cases hfind
  rw [recalled, h]
  dsimp only
  rw [eval_run_bind_of_ok (eval_onStores_eq_ok_iff.2 hcontexts), eval_run_bind_of_ok hfound]
  rfl

/-- The selection that is read for the root is the one that is made. -/
theorem Course.eval_selectPaths_of_restored (h : Course setting o found d text m rooted saved n)
    (hrestore : p.restoreSelection = true) (hload : p.loadContext = none) (hselect : p.select = [])
    (hread : (Store.register setting.places k).selections found.root =
      .ok (savedPaths d.selection))
    (hc : c.result = some found) :
    ∃ e, (selectPaths setting.places p found.root c).run.eval k.reply = .ok e ∧
      e.result = some found ∧ e.selection = d.selection := by
  refine ⟨c.restore (Store.sortPaths d.selection.paths), ?_, hc,
    h.holds.selection_restore hc h.files (Store.sortPaths_perm _)⟩
  rw [selectPaths_eq, eval_run_bind_of_ok (eval_restored hrestore hread c), filterMap_savedPaths,
    recalled, hload, hselect]
  rfl

/-- The selection of the context that is found under the name is the one that is made. -/
theorem Course.eval_selectPaths_of_recalled {name : String} {session : Store.Session}
    {list : List Store.SavedContext} {context : Store.SavedContext}
    (h : Course setting o found d text m rooted saved n)
    (hload : p.loadContext = some (.given name)) (hselect : p.select = [])
    (hsession : Store.session setting.places k = .ok session)
    (hl : Store.stored setting.places k = .ok list)
    (hfind : (list.filter (·.root = Utf16.ofString found.root)).find?
      (·.name = Utf16.ofString (Text.trim name)) = some context)
    (hpaths : context.paths = savedPaths d.selection) (hc : c.result = some found) :
    ∃ e, (selectPaths setting.places p found.root c).run.eval k.reply = .ok e ∧
      e.result = some found ∧ e.selection = d.selection := by
  obtain ⟨c₁, hc₁, hresult⟩ : ∃ c₁, (restored setting.places p found.root c).run.eval k.reply =
      .ok c₁ ∧ c₁.result = some found := by
    by_cases hrestore : p.restoreSelection = true
    · have hread : (Store.register setting.places k).selections found.root =
          .ok (session.selectionOf found.root) := by
        rw [Store.selections_register _ _ h.root_ne, hsession]
        rfl
      exact ⟨_, eval_restored hrestore hread c, hc⟩
    · rw [restored, if_neg hrestore]
      exact ⟨c, rfl, hc⟩
  refine ⟨c₁.restore (Store.sortPaths d.selection.paths), ?_, hresult,
    h.holds.selection_restore hresult h.files (Store.sortPaths_perm _)⟩
  rw [selectPaths_eq, eval_run_bind_of_ok hc₁,
    eval_run_bind_of_ok (eval_recalled hload hl hfind c₁), hpaths, filterMap_savedPaths, hselect]
  rfl

/-! ### Two runs -/

/-- Where the same result is seen and the same selection is made, the same is printed. -/
theorem Course.printed_again {arguments : List String} {session : Store.Session}
    (h : Course setting o found d text m rooted saved n)
    (harguments : parseArguments arguments = .ok p) (hp : PrintsTree p)
    (htop : p.treeRoot = o.treeRoot) (hsave : p.saveContext = none)
    (hsees : CommandLine.sees setting p k = .ok found)
    (hsession : Store.session setting.places k = .ok session)
    (hsafe : Store.canWrite k setting.places.session = true ∨ Store.Separate setting.places k)
    (hselect : ∀ c q, c.result = some found → Rooted setting.places found.root k q →
      ∃ e, (selectPaths setting.places p found.root c).run.eval q.reply = .ok e ∧
        e.result = some found ∧ e.selection = d.selection) :
    ∃ q, k.run (run setting arguments) = (.finished, q) ∧ q.output = k.output ++ text := by
  have hlike := looksLike_started setting p k
  obtain ⟨c, hlook⟩ : ∃ c, (lookAt setting p).run.eval k.reply = .ok (found, c) := by
    rw [CommandLine.sees] at hsees
    generalize (lookAt setting p).run.eval k.reply = result at hsees
    cases result with
    | error outcome => cases hsees
    | ok seen =>
      cases hsees
      exact ⟨seen.2, rfl⟩
  obtain ⟨-, -, hc⟩ := installed_of_lookAt hlook
  rw [← hlike.eval_eq (looksT_lookAt setting p)] at hlook
  obtain ⟨k₁, hk₁, hscan⟩ := Model.runT_bind_of_looks (looksT_lookAt setting p) hlook
    (afterScan setting p)
  have hk := hlike.trans hk₁
  rw [← Store.session_eq_of_sameFiles hk.toSameFiles] at hsession
  obtain ⟨q, hlast⟩ := Store.SessionEdit.exists_run_perform_ok hsession (.saveLast found.root)
  rw [Store.SessionEdit.perform] at hlast
  have hrooted : Rooted setting.places found.root k q :=
    ⟨k₁, q, hk.toSameFiles, hlast, ⟨rfl, rfl⟩⟩
  obtain ⟨e, he, hresult, hselection⟩ := hselect c q hc.result hrooted
  obtain ⟨k₂, hk₂, hshow⟩ := Model.runT_bind_of_looks (looksT_selectPaths _ _ _ _) he fun e =>
    saveSelected setting.places p found.root e.selection >>= fun _ => display p found e
  obtain ⟨s, hs⟩ := hrooted.exists_session hsafe
  rw [← Store.session_eq_of_sameFiles hk₂.toSameFiles] at hs
  obtain ⟨k₃, hk₃⟩ : ∃ k₃, k₂.run (saveSelected setting.places p found.root e.selection).run =
      (.ok (), k₃) := by
    obtain ⟨k₃, hk₃⟩ := exists_run_savedSession hs p found.root e.selection
    refine ⟨k₃, ?_⟩
    rw [saveSelected_eq, Model.runT_bind_of_eq hk₃, savedContext, hsave]
    rfl
  -- The text depends on the tree and the selection, and both runs have the same of these.
  have htree : e.tree = d.tree := by rw [Controller.tree, Controller.tree, hresult, h.holds.result]
  have hprinted := h.prints k₃
  rw [← printTree_congr htop htree hselection, ← hp.display_eq] at hprinted
  refine ⟨{ k₃ with output := k₃.output ++ text }, ?_, ?_⟩
  · rw [run_eq_finished_iff harguments, hp.perform_eq, Model.runT_lift_bind]
    change (started setting p k).run _ = _
    rw [hscan, afterScan, Model.runT_bind_of_eq (run_onStores_eq_ok_iff.2 hlast), hshow,
      Model.runT_bind_of_eq hk₃, hprinted]
  · have hquiet := Model.output_run_of_quiet
      (quiet_saveSelected setting.places p found.root e.selection) k₂
    rw [hk₃] at hquiet
    have hkept := Model.output_run_of_quiet (quiet_saveLast setting.places (some found.root)) k₁
    rw [hlast] at hkept
    calc k₃.output ++ text = k₂.output ++ text := by rw [← hquiet]
      _ = q.output ++ text := by rw [hk₂.output]
      _ = k.output ++ text := by rw [hkept, hk.output]

/-- What one run has printed on its way from a host to another one, a second run prints again. -/
def PrintsAgain (m n k : Model) (second : Action Outcome) : Prop :=
  ∃ text q, n.output = m.output ++ text ∧ k.run second = (.finished, q) ∧
    q.output = k.output ++ text

/-- A run saves its selection with the root, and another one restores it. The session can be written
by both and stays in between. If a context is saved as well, it is kept apart. -/
structure Restores (places : Store.Places) (o p : Options) (m n k : Model) : Prop where
  saves : o.saveSelection = true
  restores : p.restoreSelection = true
  loads : p.loadContext = none
  separate : o.saveContext = none ∨ Store.Separate places m
  writable : Store.canWrite m places.session = true
  writable_again : Store.canWrite k places.session = true
  kept : Store.document k places.session = Store.document n places.session

/-- A run saves its selection under a name, and another one loads it under that name, with whatever
white space around it. So far the contexts have been edited only, from an empty store on, and they
stay in between. The session does not become unreadable: the other run saves its root there, too. -/
structure Recalls (places : Store.Places) (o p : Options) (m n k : Model) : Prop where
  named : ∃ name again, o.saveContext = some (.given name) ∧ p.loadContext = some (.given again) ∧
    Text.trim again = Text.trim name
  separate : Store.Separate places m
  separate_again : Store.Separate places k
  readable_again : (∃ s, Store.session places n = .ok s) → ∃ s, Store.session places k = .ok s
  writable : Store.canWrite m places.contexts = true
  edited : ∃ first uses, Store.stored places first = .ok [] ∧
    Store.LeadsTo places.contexts (Store.ContextEdit.perform places) first uses m ∧
    ∀ use ∈ uses, use.2.Writes places use.1
  kept : Store.document k places.contexts = Store.document n places.contexts

/-- What a run has printed of a tree with its selection, a second run prints again that sees the
same tree and takes the selection from where the first one has saved it: with the root or under a
name. -/
theorem printed_again_of_saved {first second : List String}
    (hfirst : parseArguments first = .ok o) (hsecond : parseArguments second = .ok p)
    (ho : PrintsTree o) (hp : PrintsTree p) (htop : p.treeRoot = o.treeRoot)
    (hselect : p.select = []) (hsave : p.saveContext = none)
    (hrun : m.run (run setting first) = (.finished, n))
    (hsees : sees setting p k = sees setting o m)
    (hkept : Restores setting.places o p m n k ∨ Recalls setting.places o p m n k) :
    PrintsAgain m n k (run setting second) := by
  obtain ⟨found, d, text, rooted, saved, h⟩ := exists_course hfirst ho hrun
  rw [h.sees] at hsees
  have hmade (c : Controller) (q : Model) (hc : c.result = some found)
      (hrooted : Rooted setting.places found.root k q) :
      ∃ e, (selectPaths setting.places p found.root c).run.eval q.reply = .ok e ∧
        e.result = some found ∧ e.selection = d.selection := by
    rcases hkept with hkept | hkept
    · have hread : (Store.register setting.places q).selections found.root =
          .ok (savedPaths d.selection) := by
        rw [hrooted.selections hkept.writable_again, Store.register_eq_of_document hkept.kept]
        exact h.selections_eq hkept.saves hkept.writable hkept.separate
      exact h.eval_selectPaths_of_restored hkept.restores hkept.loads hselect hread hc
    · obtain ⟨name, again, hname, hagain, htrim⟩ := hkept.named
      obtain ⟨start, uses, hstart, huses, hwrites⟩ := hkept.edited
      -- Among contexts that were edited only, the name that was saved last is found.
      obtain ⟨list, hl, hkeyed⟩ := Store.keyed_of_leadsTo hstart huses hwrites
      obtain ⟨context, kept, hstored, hfind, hpaths⟩ :=
        h.find?_eq hname hkept.separate hkept.writable hl hkeyed
      have hread : Store.stored setting.places q = .ok kept := by
        rw [← hstored, (hrooted.keepsContexts hkept.separate_again).stored_eq, Store.stored,
          hkept.kept]
        rfl
      rw [← htrim] at hfind
      obtain ⟨session, hs⟩ := hrooted.exists_session (.inr hkept.separate_again)
      exact h.eval_selectPaths_of_recalled hagain hselect hs hread hfind hpaths hc
  obtain ⟨⟨session, hsession⟩, hsafe⟩ : (∃ session, Store.session setting.places k = .ok session) ∧
      (Store.canWrite k setting.places.session = true ∨ Store.Separate setting.places k) := by
    rcases hkept with hkept | hkept
    · have hread := h.selections_eq hkept.saves hkept.writable hkept.separate
      rw [← Store.register_eq_of_document hkept.kept] at hread
      exact ⟨Store.exists_session_of_selections h.root_ne hread, .inl hkept.writable_again⟩
    · have hread := h.exists_session hkept.separate
      exact ⟨hkept.readable_again hread, .inr hkept.separate_again⟩
  obtain ⟨q, hq, houtput⟩ := h.printed_again hsecond hp htop hsave hsees hsession hsafe hmade
  exact ⟨text, q, h.output, hq, houtput⟩

/-- The arguments of a run that saves the selection of a file with the root and under a name. -/
def savingArguments : List String :=
  ["--no-saved-patterns", "--select", "f", "--save-selection", "--save-context", " pick ", "/p"]

def savingOptions : Options where
  path := some "/p"
  noSavedPatterns := true
  select := [.given "f"]
  saveSelection := true
  saveContext := some (.given " pick ")

def restoringArguments : List String :=
  ["--no-saved-patterns", "--restore-selection", "/p"]

def restoringOptions : Options where
  path := some "/p"
  noSavedPatterns := true
  restoreSelection := true

def recallingArguments : List String :=
  ["--no-saved-patterns", "--load-context", "pick\t", "/p"]

def recallingOptions : Options where
  path := some "/p"
  noSavedPatterns := true
  loadContext := some (.given "pick\t")

/-- The host after the run that saves. -/
def savedHost : Model :=
  (storedHost.run (run storedSetting savingArguments)).2

theorem run_savingArguments :
    storedHost.run (run storedSetting savingArguments) = (.finished, savedHost) := by
  have hfinished : (storedHost.run (run storedSetting savingArguments)).1 = .finished := by
    decide +kernel
  unfold savedHost
  generalize storedHost.run (run storedSetting savingArguments) = ended at hfinished
  exact Prod.ext hfinished rfl

theorem separate_savedHost : Store.Separate storedSetting.places savedHost := by
  obtain ⟨hsession, hcontexts, hgrounded, hhome⟩ :
      savedHost.disk.ComesTo savedHost.directory storedSetting.places.session
          ["store", "session.json"] ∧
        savedHost.disk.ComesTo savedHost.directory storedSetting.places.contexts
          ["store", "contexts.json"] ∧
        savedHost.disk.Grounded ∧
        savedHost.disk.isDirectory savedHost.directory
          (PathName.normalize (Store.home storedSetting.places.session)) = .ok true := by
    decide +kernel
  exact Store.apart_of_distinct (by decide +kernel) hhome
    (Store.distinct_of_comesTo hgrounded hsession hcontexts (by decide))

/-- The file that is selected once is shown as selected by each of the later runs. -/
theorem printed_again_of_saved_file :
    parseArguments savingArguments = .ok savingOptions ∧
      parseArguments restoringArguments = .ok restoringOptions ∧
      parseArguments recallingArguments = .ok recallingOptions ∧
      storedHost.run (run storedSetting savingArguments) = (.finished, savedHost) ∧
      savedHost.output = "/p\n└─ [x] f\n\n1 files selected\n" ∧
      sees storedSetting restoringOptions savedHost = sees storedSetting savingOptions storedHost ∧
      sees storedSetting recallingOptions savedHost = sees storedSetting savingOptions storedHost ∧
      Restores storedSetting.places savingOptions restoringOptions storedHost savedHost savedHost ∧
      Recalls storedSetting.places savingOptions recallingOptions storedHost savedHost savedHost ∧
      PrintsAgain storedHost savedHost savedHost (run storedSetting restoringArguments) ∧
      PrintsAgain storedHost savedHost savedHost (run storedSetting recallingArguments) := by
  have hsaving : parseArguments savingArguments = .ok savingOptions := by decide +kernel
  have hrestoring : parseArguments restoringArguments = .ok restoringOptions := by decide +kernel
  have hrecalling : parseArguments recallingArguments = .ok recallingOptions := by decide +kernel
  have hsaves : PrintsTree savingOptions := by constructor <;> rfl
  have hrestores : PrintsTree restoringOptions := by constructor <;> rfl
  have hrecalls : PrintsTree recallingOptions := by constructor <;> rfl
  obtain ⟨hprinted, hsees, hsees', hwritable⟩ :
      savedHost.output = "/p\n└─ [x] f\n\n1 files selected\n" ∧
        sees storedSetting restoringOptions savedHost =
          sees storedSetting savingOptions storedHost ∧
        sees storedSetting recallingOptions savedHost =
          sees storedSetting savingOptions storedHost ∧
        Store.canWrite savedHost storedSetting.places.session = true := by
    decide +kernel
  have hrestored : Restores storedSetting.places savingOptions restoringOptions storedHost
      savedHost savedHost :=
    ⟨rfl, rfl, rfl, .inr separate_storedHost, by decide +kernel, hwritable, rfl⟩
  have hrecalled : Recalls storedSetting.places savingOptions recallingOptions storedHost savedHost
      savedHost :=
    ⟨⟨_, _, rfl, rfl, by decide +kernel⟩, separate_storedHost, separate_savedHost,
      id, by decide +kernel, ⟨storedHost, [], by decide +kernel, .refl, nofun⟩, rfl⟩
  exact ⟨hsaving, hrestoring, hrecalling, run_savingArguments, hprinted, hsees, hsees', hrestored,
    hrecalled,
    printed_again_of_saved hsaving hrestoring hsaves hrestores rfl rfl rfl run_savingArguments
      hsees (.inl hrestored),
    printed_again_of_saved hsaving hrecalling hsaves hrecalls rfl rfl rfl run_savingArguments
      hsees' (.inr hrecalled)⟩

end FileSieve.CommandLine
