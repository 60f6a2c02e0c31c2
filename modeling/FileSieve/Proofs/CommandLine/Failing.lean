import FileSieve.Proofs.CommandLine.Outcomes
import FileSieve.Proofs.Store.Separation

/-! # Runs that fail

A run that fails leaves what is saved as it was: all its checks come before its writes. There are a
few checks that come too late. -/

namespace FileSieve.CommandLine

open Host Program

open Store (KeepsContexts SavedAlike Separate savedAlike_of_sameFiles)

variable {α β ε : Type} {start m n : Model} {places : Store.Places} {setting : Setting}
  {o : Options}

/-! ### Actions that leave the files alone -/

/-- An action that leaves the files of the host as they are if it comes to a value of some kind. -/
def LeavesIf (kind : α → Prop) (action : Action α) : Prop :=
  ∀ m : Model, kind (m.run action).1 → m.SameFiles (m.run action).2

theorem leavesIf_of_looks {kind : α → Prop} {action : Action α} (h : Looks action) :
    LeavesIf kind action :=
  fun m _ => (Model.run_of_looks h m).2.toSameFiles

theorem leavesIf_of_meets {kind : α → Prop} {action : Action α}
    (h : Meets {} (fun value => ¬kind value) action) : LeavesIf kind action :=
  fun m hk => absurd hk (Model.run_of_meets h m)

theorem LeavesIf.bind_looksT {kind : Except ε β → Prop} {action : ExceptT ε Action α}
    {f : α → ExceptT ε Action β} (h : LooksT action) (hf : ∀ value, LeavesIf kind (f value).run) :
    LeavesIf kind (action >>= f).run := by
  intro m hk
  obtain ⟨n, hn, hlike⟩ := Model.exists_run_of_looks h m
  cases hv : action.run.eval m.reply with
  | ok value =>
    rw [hv] at hn
    rw [Model.runT_bind_of_eq hn] at hk ⊢
    exact hlike.toSameFiles.trans (hf value n hk)
  | error e =>
    rw [hv] at hn
    rw [Model.runT_bind_of_error hn]
    exact hlike.toSameFiles

/-- The same for an action that may end early: if it does, it leaves the files alone, too. -/
abbrev LeavesIfT (kind : α → Prop) (action : ExceptT ε Action α) : Prop :=
  LeavesIf (Allows (fun _ => True) kind) action.run

theorem meets_of_delivers {kind : α → Prop} {action : ExceptT ε Action α}
    (h : Delivers {} (fun _ => False) (fun value => ¬kind value) action) :
    Meets {} (fun result => ¬Allows (fun _ => True) kind result) action.run := by
  apply Meets.mono h
  intro result hr
  cases result with
  | ok value => exact hr
  | error e => exact hr.elim

theorem leavesIfT_of_delivers {kind : α → Prop} {action : ExceptT ε Action α}
    (h : Delivers {} (fun _ => False) (fun value => ¬kind value) action) :
    LeavesIfT kind action :=
  leavesIf_of_meets (meets_of_delivers h)

/-- An action is carried out, and a value of another kind is made of what it comes to. -/
theorem delivers_made {kind : β → Prop} (action : Action α) {f : α → β}
    (h : ∀ value, ¬kind (f value)) :
    Delivers {} (fun _ => False) (fun value => ¬kind value)
      ((liftM action : ExceptT ε Action α) >>= fun value => pure (f value)) :=
  (delivers_lift (meets_of_asks (fun _ => trivial) action)).bind fun value _ => h value

/-- After an action on the stores that leaves the files alone if its value is of one kind, a task
does so if a value of another kind leads to no value of its own kind. -/
theorem LeavesIfT.bind_onStores {first : α → Prop} {kind : β → Prop} {action : Store.Reading α}
    {f : α → Task β} (h : LeavesIfT first action)
    (hf : ∀ value, first value → LeavesIfT kind (f value))
    (hn : ∀ value, ¬first value →
      Delivers {} (fun _ => False) (fun value => ¬kind value) (f value)) :
    LeavesIfT kind (onStores action >>= f) := by
  intro m hk
  have hleaves := h m
  have hrun := run_onStores m action
  generalize m.run action.run = ended at hleaves hrun
  obtain ⟨result, n⟩ := ended
  cases result with
  | error part =>
    rw [Model.runT_bind_of_error hrun]
    exact hleaves trivial
  | ok value =>
    rw [Model.runT_bind_of_eq hrun] at hk ⊢
    by_cases hv : first value
    · exact (hleaves hv).trans (hf value hv n hk)
    · exact absurd hk (Model.run_of_meets (meets_of_delivers (hn value hv)) n)

/-! ### Edits that do nothing -/

theorem leavesIfT_removePattern (places : Store.Places) (index : Int) :
    LeavesIfT (· = none) (Store.removePattern places index) := by
  apply LeavesIf.bind_looksT (Store.looksT_loadPatterns places)
  intro patterns
  cases hi : Store.position? patterns index with
  | none => exact leavesIf_of_looks (looksT_pure none)
  | some i =>
    apply leavesIfT_of_delivers
    apply delivers_made
    intro _
    have hlt : i < patterns.length := by
      rw [Store.position?] at hi
      split at hi
      · next hrange =>
        cases hi
        simp at hrange
        omega
      · cases hi
    change ¬patterns[i]? = none
    simp [hlt]

theorem leavesIfT_updatePattern (places : Store.Places) (index : Int) (pattern : Utf16) :
    LeavesIfT (· = false) (Store.updatePattern places index pattern) := by
  apply LeavesIf.bind_looksT (Store.looksT_loadPatterns places)
  intro patterns
  split
  · exact leavesIf_of_looks (looksT_pure false)
  · split
    · exact leavesIf_of_looks (looksT_pure false)
    · exact leavesIfT_of_delivers (delivers_made _ fun _ => nofun)

theorem leavesIfT_deleteContext (places : Store.Places) (value : Value String) :
    LeavesIfT (· = false) (deleteContext places value) := by
  cases value with
  | void =>
    exact leavesIf_of_looks ((Store.looksT_loadContexts places).bind fun _ => looksT_pure false)
  | given id =>
    apply LeavesIf.bind_looksT (Store.looksT_loadContexts places)
    intro contexts
    dsimp only
    split
    · exact leavesIf_of_looks (looksT_pure false)
    · exact leavesIfT_of_delivers (delivers_made _ fun _ => nofun)

/-- Adding a pattern fails only where the list cannot be loaded. -/
theorem leavesIfT_addPattern (places : Store.Places) (pattern : Utf16) :
    LeavesIfT (fun _ => False) (Store.addPattern places pattern) := by
  unfold Store.addPattern
  dsimp only
  split
  · exact leavesIf_of_looks (looksT_pure false)
  · apply LeavesIf.bind_looksT (Store.looksT_loadPatterns places)
    intro patterns
    split
    · exact leavesIf_of_looks (looksT_pure false)
    · exact leavesIfT_of_delivers (delivers_made _ fun _ => not_false)

theorem leavesIfT_importPatterns (places : Store.Places) (name : String) :
    LeavesIfT (fun result => ∃ problem, result = .error problem)
      (Store.importPatterns places name) := by
  apply LeavesIf.bind_looksT (looksT_lift (looks_ask (.readFile _) trivial))
  intro result
  cases result with
  | error problem => exact leavesIf_of_looks (looksT_pure _)
  | ok bytes =>
    have hcounted (count : Nat) :
        ¬∃ problem, (Except.ok count : Except FileProblem Nat) = .error problem := nofun
    dsimp only
    generalize Store.parseIgnoreText (Store.ignoreTextOf bytes) = imported
    split
    · exact leavesIf_of_looks (looksT_pure _)
    · apply LeavesIf.bind_looksT (Store.looksT_loadPatterns places)
      intro current
      exact leavesIfT_of_delivers (delivers_made _ fun _ => hcounted _)

/-- An edit that is carried out says so at the end. -/
theorem delivers_done (action : Action Unit) :
    Delivers {} (fun _ => False) (fun done => ¬done = false)
      ((liftM action : Task Unit) >>= fun _ => (pure true : Task Bool)) :=
  delivers_made action fun _ => nofun

/-- The edits check everything before they write. -/
theorem leavesIfT_editStores (places : Store.Places) (o : Options) :
    LeavesIfT (· = false) (editStores places o) := by
  unfold editStores
  split
  · exact LeavesIf.bind_looksT (looksT_onStores (Store.looksT_loadPatterns places)) fun _ =>
      leavesIfT_of_delivers (delivers_done _)
  split
  · next value _ =>
    apply LeavesIf.bind_looksT (looksT_required _ value)
    intro index
    apply LeavesIfT.bind_onStores (leavesIfT_removePattern places index)
    · rintro _ rfl
      exact leavesIf_of_looks (looksT_fail _)
    · intro removed hr
      cases removed with
      | none => exact absurd rfl hr
      | some removed => exact delivers_done _
  split
  · next text pattern _ =>
    dsimp only
    split
    · exact leavesIf_of_looks (looksT_fail _)
    · next index _ =>
      apply LeavesIfT.bind_onStores (leavesIfT_updatePattern places index pattern)
      · rintro _ rfl
        exact leavesIf_of_looks (looksT_fail _)
      · intro replaced hr
        cases replaced with
        | false => exact absurd rfl hr
        | true => exact delivers_done _
  split
  · next value _ =>
    apply LeavesIfT.bind_onStores (leavesIfT_deleteContext places value)
    · rintro _ rfl
      exact leavesIf_of_looks (looksT_fail _)
    · intro deleted hr
      cases deleted with
      | false => exact absurd rfl hr
      | true => exact delivers_done _
  split
  · next value _ =>
    apply LeavesIf.bind_looksT (looksT_required _ value)
    intro pattern
    exact LeavesIfT.bind_onStores (leavesIfT_addPattern places pattern) (fun _ => False.elim)
      fun _ _ => delivers_done _
  split
  · next value _ =>
    apply LeavesIf.bind_looksT (looksT_required _ value)
    intro name
    apply LeavesIfT.bind_onStores (leavesIfT_importPatterns places name)
    · rintro _ ⟨problem, rfl⟩
      exact LeavesIf.bind_looksT (looksT_readIgnoreFile _ _) fun _ =>
        leavesIfT_of_delivers (delivers_done _)
    · intro result hr
      cases result with
      | error problem => exact absurd ⟨problem, rfl⟩ hr
      | ok count => exact delivers_done _
  · exact leavesIf_of_looks (looksT_pure _)

/-! ### Tasks that fail without harm -/

variable {late : Outcome → Prop}

/-- Where a task fails, it has saved no selection and no context, unless its outcome is one of the
late ones. So far the contexts are as they were at the start of the run. -/
def FailsClean (places : Store.Places) (start : Model) (late : Outcome → Prop) (task : Task α) :
    Prop :=
  ∀ (m n : Model) (outcome : Outcome), KeepsContexts places start m →
    m.run task.run = (.error outcome, n) → late outcome ∨ SavedAlike places m n

/-- A failure that is not a late one. -/
def IsEarly (late : Outcome → Prop) (result : Except Outcome α) : Prop :=
  ∃ outcome, result = .error outcome ∧ ¬late outcome

theorem failsClean_of_leavesIf {task : Task α} (h : LeavesIf (IsEarly late) task.run) :
    FailsClean places start late task := by
  intro m n outcome _ hrun
  have hsame := h m
  rw [hrun] at hsame
  by_cases hl : late outcome
  · exact .inl hl
  · exact .inr (savedAlike_of_sameFiles (hsame ⟨outcome, rfl, hl⟩))

theorem meets_of_endsWith {task : Task α} (h : EndsWith late task) :
    Meets {} (fun result => ¬IsEarly late result) task.run := by
  apply Meets.mono h
  rintro result hr ⟨outcome, rfl, hl⟩
  exact hl hr

theorem FailsClean.bind_looksT {task : Task α} {f : α → Task β} (h : LooksT task)
    (hf : ∀ value, (∃ m : Model, task.run.eval m.reply = .ok value) →
      FailsClean places start late (f value)) : FailsClean places start late (task >>= f) := by
  intro m n outcome hkept hrun
  obtain ⟨k, hk, hlike⟩ := Model.exists_run_of_looks h m
  rw [Model.runT_bind, hk] at hrun
  cases hv : task.run.eval m.reply with
  | ok value =>
    rw [hv] at hrun
    have hkept := hkept.trans (.of_sameFiles hkept.separate hlike.toSameFiles)
    exact (hf value ⟨m, hv⟩ k n outcome hkept hrun).imp_right
      (savedAlike_of_sameFiles hlike.toSameFiles).trans
  | error e =>
    rw [hv] at hrun
    cases hrun
    exact .inr (savedAlike_of_sameFiles hlike.toSameFiles)

theorem FailsClean.bind_saveLast {root : Option Utf16} {f : Unit → Task β}
    (h : FailsClean places start late (f ())) :
    FailsClean places start late (onStores (Store.saveLast places root) >>= f) := by
  intro m n outcome hkept hrun
  have hedit := hkept.separate.run_sessionEdit (.saveLast root)
  have hlike := hkept.separate.savedAlike_saveLast root
  have hsave := run_onStores m (Store.saveLast places root)
  rw [Store.SessionEdit.perform] at hedit
  generalize m.run (Store.saveLast places root).run = ended at hedit hlike hsave
  obtain ⟨result, k⟩ := ended
  cases result with
  | ok value =>
    rw [Model.runT_bind_of_eq hsave] at hrun
    exact (h k n outcome (hkept.trans hedit) hrun).imp_right hlike.trans
  | error part =>
    rw [Model.runT_bind_of_error hsave] at hrun
    cases hrun
    exact .inr hlike

/-! ### Checks that come too late -/

/-- A run that saves something fails after it has done so. -/
inductive FailsLate (places : Store.Places) (m : Model) (o : Options) : Outcome → Prop
  | blankName {name : String} (hs : o.saveSelection = true)
      (hc : o.saveContext = some (.given name)) (hn : (Utf16.ofString name).trim = "") :
      FailsLate places m o (.failed "Context name must not be blank")
  | voidName (hs : o.saveSelection = true) (hc : o.saveContext = some .void) :
      FailsLate places m o (.valueless .text)
  | nestedContexts {part : Json.Overflow} (hs : o.saveSelection = true)
      (hc : o.saveContext ≠ none) (hl : Store.stored places m = .error part) :
      FailsLate places m o (.nested part)
  | voidQuery (hs : o.saveSelection = true ∨ o.saveContext ≠ none) (hq : o.search = some .void) :
      FailsLate places m o (.valueless .text)
  | unknownTop {root top : String} (hs : o.saveSelection = true ∨ o.saveContext ≠ none)
      (hq : o.search = none) (hf : o.files = false) (ht : topOf o root = some top) :
      FailsLate places m o (.failed (SelectionError.unknownPath top).message)

/-- Only a run that is to save a context, to search or to print a subtree fails late. -/
theorem FailsLate.asked {outcome : Outcome} (h : FailsLate places m o outcome) :
    o.saveContext ≠ none ∨ o.search ≠ none ∨ o.treeRoot ≠ none := by
  cases h with
  | blankName _ hc _ => simp [hc]
  | voidName _ hc => simp [hc]
  | nestedContexts _ hc _ => exact .inl hc
  | voidQuery _ hq => simp [hq]
  | unknownTop _ _ _ ht =>
    refine .inr (.inr ?_)
    rintro hn
    simp [topOf, hn] at ht

/-- A run that has saved something and fails then fails late. -/
theorem endsWith_display_late (hs : o.saveSelection = true ∨ o.saveContext ≠ none)
    (found : ScanResult) (c : Controller) :
    EndsWith (FailsLate places start o) (display o found c) :=
  endsWith_display (.voidQuery hs) found (fun _ => .unknownTop hs) c

/-- What is shown is looked up first. -/
theorem leavesIf_display (late : Outcome → Prop) (o : Options) (found : ScanResult)
    (c : Controller) : LeavesIf (IsEarly late) (display o found c).run := by
  have hprint (action : Action Unit) : LeavesIf (IsEarly late) (liftM action : Task Unit).run :=
    leavesIf_of_meets (meets_of_endsWith (endsWith_lift action))
  unfold display
  cases o.search with
  | some query =>
    apply LeavesIf.bind_looksT (looksT_required _ query)
    intro text
    generalize printPaths (Tree.search found.files text none) = action
    exact hprint action
  | none =>
    dsimp only
    split
    · exact hprint _
    · rw [printTree_eq]
      exact LeavesIf.bind_looksT (looksT_lookForTop o found.root c) fun _ =>
        leavesIf_of_meets (meets_of_endsWith (endsWith_printNodes o found.root c))

section Saving

variable {root : String} {s : Selection} {outcome : Outcome}

/-- Where the session cannot be loaded, no selection is saved. -/
theorem sameFiles_of_savedSession
    (h : m.run (savedSession places o root s).run = (.error outcome, n)) : m.SameFiles n := by
  unfold savedSession at h
  split at h
  · obtain ⟨part, hsave, -⟩ := run_onStores_eq_error_iff.1 h
    exact Store.SessionEdit.sameFiles_of_run_perform (.saveSelection root s.paths) hsave
  · cases h

theorem keepsContexts_of_savedSession (hsep : Separate places m)
    (h : m.run (savedSession places o root s).run = (.ok (), n)) : KeepsContexts places m n := by
  unfold savedSession at h
  split at h
  · have hedit := hsep.run_sessionEdit (.saveSelection root s.paths)
    rw [Store.SessionEdit.perform, run_onStores_eq_ok_iff.1 h] at hedit
    exact hedit
  · cases h
    exact hsep.keepsContexts

/-- A context is refused for its name alone or where the contexts cannot be loaded, and nothing is
written then. -/
theorem sameFiles_of_savedContext (hr : Utf16.ofString root ≠ "")
    (hstored : Store.stored places m = Store.stored places start)
    (h : m.run (savedContext places o root s).run = (.error outcome, n)) :
    m.SameFiles n ∧ (o.saveSelection = true → FailsLate places start o outcome) := by
  unfold savedContext at h
  cases hc : o.saveContext with
  | none =>
    rw [hc] at h
    cases h
  | some value =>
    rw [hc] at h
    cases value with
    | void =>
      cases h
      exact ⟨⟨rfl, rfl⟩, fun hs => .voidName hs hc⟩
    | given name =>
      have hname : required .text (.given name) = pure name := rfl
      dsimp only at h
      rw [hname, pure_bind] at h
      by_cases hb : (Utf16.ofString name).trim = "" ∨ Utf16.ofString root = ""
      · have hrefused : m.run (Store.saveContext places name root s.paths).run = (.ok none, m) :=
          Store.run_saveContext_of_refused hb
        rw [Model.runT_bind_of_eq (run_onStores_eq_ok_iff.2 hrefused)] at h
        cases h
        exact ⟨⟨rfl, rfl⟩, fun hs => .blankName hs hc (hb.resolve_right hr)⟩
      · cases hl : Store.stored places m with
        | error part =>
          obtain ⟨k, hk, hsame⟩ := Store.exists_run_saveContext_of_error hl hb s.paths
          rw [Model.runT_bind_of_error (run_onStores_eq_error_iff.2 ⟨part, hk, rfl⟩)] at h
          cases h
          exact ⟨hsame, fun hs => .nestedContexts hs (by simp [hc]) (hstored.symm.trans hl)⟩
        | ok list =>
          obtain ⟨c, k, hk⟩ := Store.exists_run_saveContext_of_ok hl hb s.paths
          rw [Model.runT_bind_of_eq (run_onStores_eq_ok_iff.2 hk)] at h
          dsimp only at h
          rw [Model.runT_lift] at h
          cases h

end Saving

/-- Once anything is saved, only late failures are left. Before that nothing is written. -/
theorem failsClean_saveSelected {found : ScanResult} (hr : Utf16.ofString found.root ≠ "")
    (o : Options) (c : Controller) :
    FailsClean places start (FailsLate places start o)
      (saveSelected places o found.root c.selection >>= fun _ => display o found c) := by
  by_cases hsaves : o.saveSelection = true ∨ o.saveContext ≠ none
  · intro m n outcome hkept hrun
    rw [saveSelected_eq, LawfulMonad.bind_assoc] at hrun
    cases hsession : m.run (savedSession places o found.root c.selection).run with
    | mk result k =>
      cases result with
      | error e =>
        rw [Model.runT_bind_of_error hsession] at hrun
        cases hrun
        exact .inr (savedAlike_of_sameFiles (sameFiles_of_savedSession hsession))
      | ok =>
        rw [Model.runT_bind_of_eq hsession] at hrun
        have hk := keepsContexts_of_savedSession hkept.separate hsession
        cases hcontext : k.run (savedContext places o found.root c.selection).run with
        | mk result q =>
          cases result with
          | error e =>
            rw [Model.runT_bind_of_error hcontext] at hrun
            cases hrun
            obtain ⟨hsame, hlate⟩ :=
              sameFiles_of_savedContext hr (hkept.trans hk).stored_eq hcontext
            by_cases hs : o.saveSelection = true
            · exact .inl (hlate hs)
            · rw [savedSession, if_neg hs] at hsession
              cases hsession
              exact .inr (savedAlike_of_sameFiles hsame)
          | ok =>
            rw [Model.runT_bind_of_eq hcontext] at hrun
            have hends : EndsWith (FailsLate places start o) (display o found c) :=
              endsWith_display_late hsaves found c
            have hlate := Model.run_of_meets hends q
            rw [hrun] at hlate
            exact .inl hlate
  · obtain ⟨hs, hc⟩ := not_or.1 hsaves
    rw [saveSelected_eq, savedSession, if_neg hs, savedContext, not_not.1 hc, pure_bind, pure_bind]
    exact failsClean_of_leavesIf (leavesIf_display _ o found c)

/-- After a scan, only saving the root comes before a check that is not a late one. -/
theorem failsClean_afterScan {found : ScanResult} (hr : Utf16.ofString found.root ≠ "")
    (c : Controller) :
    FailsClean setting.places start (FailsLate setting.places start o)
      (afterScan setting o (found, c)) := by
  apply FailsClean.bind_saveLast
  exact FailsClean.bind_looksT (looksT_selectPaths _ _ _ _) fun c _ =>
    failsClean_saveSelected hr o c

theorem failsClean_afterEdits (setting : Setting) (start : Model) (o : Options) :
    FailsClean setting.places start (FailsLate setting.places start o) (afterEdits setting o) := by
  apply FailsClean.bind_looksT (looksT_findRoot setting o)
  rintro root ⟨m, hroot⟩
  split
  · apply FailsClean.bind_looksT (looksT_onStores (Store.looksT_contextsFor setting.places root))
    intro contexts _
    apply failsClean_of_leavesIf
    apply leavesIf_of_meets
    apply meets_of_endsWith
    exact (endsWith_prints _ contexts).bind fun _ => endsWith_pure ()
  · apply FailsClean.bind_looksT (looksT_gatherPatterns setting.places o)
    intro patterns _
    cases o.check with
    | some path =>
      dsimp only
      rw [explainPath_eq]
      apply FailsClean.bind_looksT (looksT_decisionAt root patterns path)
      intro decision _
      exact failsClean_of_leavesIf (leavesIf_of_meets (meets_of_endsWith (endsWith_lift _)))
    | none =>
      dsimp only
      rw [showProject_steps]
      apply FailsClean.bind_looksT (looksT_scanRoot _ root patterns o.workers)
      rintro ⟨found, c⟩ ⟨k, hscan⟩
      obtain ⟨hfound, -, -⟩ := installed_of_scanRoot hscan
      apply failsClean_afterScan
      rw [hfound]
      exact root_ne_empty hroot

/-- A run checks everything before it saves a selection or a context, but for the late checks. -/
theorem failsClean_perform (setting : Setting) (start : Model) (o : Options) :
    FailsClean setting.places start (FailsLate setting.places start o) (perform setting o) := by
  intro m n outcome hkept hrun
  let threshold := Log.effective (Log.threshold o.logLevel setting.environmentLevel)
  have hstart : m.SameFiles (m.run (logFrom threshold)).2 := ⟨rfl, rfl⟩
  have hleaves := leavesIfT_editStores setting.places o (m.run (logFrom threshold)).2
  rw [perform_steps, Model.runT_lift_bind, Model.runT_bind] at hrun
  cases hedit : (m.run (logFrom threshold)).2.run (editStores setting.places o).run with
  | mk result k =>
    rw [hedit] at hrun hleaves
    cases result with
    | error e =>
      cases hrun
      exact .inr (savedAlike_of_sameFiles (hstart.trans (hleaves trivial)))
    | ok edited =>
      cases edited with
      | true => cases hrun
      | false =>
        have hsame := hstart.trans (hleaves rfl)
        have hk := hkept.trans (.of_sameFiles hkept.separate hsame)
        exact (failsClean_afterEdits setting start o k n outcome hk hrun).imp_right
          (savedAlike_of_sameFiles hsame).trans

/-- A run that fails leaves the saved selections of all roots and the saved contexts as they were,
unless it was to save something and the name of the context is blank or void, the saved contexts are
nested too deeply, the text to search for is void, or the node to print is not in the tree: these
checks come after the selection has been saved. -/
theorem savedAlike_of_run_failed {arguments : List String} {outcome : Outcome}
    (hsep : Separate setting.places m) (hrun : m.run (run setting arguments) = (outcome, n))
    (hfail : outcome ≠ .finished) :
    SavedAlike setting.places m n ∨
      ∃ o, parseArguments arguments = .ok o ∧ FailsLate setting.places m o outcome := by
  cases hp : parseArguments arguments with
  | error refusal =>
    rw [run, hp] at hrun
    cases refusal with
    | help =>
      cases hrun
      exact absurd rfl hfail
    | misuse error =>
      cases hrun
      exact .inl (savedAlike_of_sameFiles ⟨rfl, rfl⟩)
  | ok o =>
    rw [run_of_parseArguments hp] at hrun
    cases hperform : m.run (perform setting o).run with
    | mk result k =>
      rw [hperform] at hrun
      cases result with
      | ok =>
        cases hrun
        exact absurd rfl hfail
      | error e =>
        cases hrun
        have hclean := failsClean_perform setting m o m n outcome hsep.keepsContexts hperform
        exact hclean.symm.imp_right fun hlate => ⟨o, rfl, hlate⟩

/-- A project with one file, and a directory for the stores. -/
def storedHost : Model where
  disk := { items := [(["store"], .directory), (["p"], .directory), (["p", "f"], .file [])] }

def storedSetting : Setting where
  places := .inDirectory "/store"

theorem separate_storedHost : Separate storedSetting.places storedHost := by
  have hsession : storedHost.disk.ComesTo storedHost.directory storedSetting.places.session
      ["store", "session.json"] := by
    decide +kernel
  have hcontexts : storedHost.disk.ComesTo storedHost.directory storedSetting.places.contexts
      ["store", "contexts.json"] := by
    decide +kernel
  apply Store.apart_of_distinct
  · decide +kernel
  · decide +kernel
  · exact Store.distinct_of_comesTo (by decide +kernel) hsession hcontexts (by decide)

/-- The arguments of a run that is to select a file that is not there. -/
def strangeArguments : List String :=
  ["--no-saved-patterns", "--select", "g", "--save-selection", "/p"]

/-- A path to select that is not there is found out before anything is saved. -/
theorem savedAlike_of_run_failed_select :
    Separate storedSetting.places storedHost ∧
      ∃ n, storedHost.run (run storedSetting strangeArguments) =
          (.failed "path is not part of the current tree: /p/g", n) ∧
        SavedAlike storedSetting.places storedHost n := by
  have houtcome : (storedHost.run (run storedSetting strangeArguments)).1 =
      .failed "path is not part of the current tree: /p/g" := by
    decide +kernel
  have hparse : parseArguments strangeArguments = .ok
      { noSavedPatterns := true, select := [.given "g"], saveSelection := true,
        path := some "/p" } := by
    decide +kernel
  obtain ⟨n, hn⟩ : ∃ n, storedHost.run (run storedSetting strangeArguments) =
      (.failed "path is not part of the current tree: /p/g", n) := by
    generalize storedHost.run (run storedSetting strangeArguments) = result at houtcome
    exact ⟨result.2, Prod.ext houtcome rfl⟩
  refine ⟨separate_storedHost, n, hn, ?_⟩
  rcases savedAlike_of_run_failed separate_storedHost hn nofun with halike | ⟨o, ho, hlate⟩
  · exact halike
  · rw [hparse] at ho
    cases ho
    exact absurd hlate.asked (by decide)

/-- A node to print that is not there is found out after the selection has been saved. -/
theorem failed_run_saves_selection :
    let n := (storedHost.run (run storedSetting ["--no-saved-patterns", "--select", "f",
      "--save-selection", "--tree-root", "nope", "/p"])).2
    (storedHost.run (run storedSetting ["--no-saved-patterns", "--select", "f",
        "--save-selection", "--tree-root", "nope", "/p"])).1 =
      .failed "path is not part of the current tree: /p/nope" ∧
    (Store.register storedSetting.places storedHost).selections "/p" = .ok [] ∧
    (Store.register storedSetting.places n).selections "/p" = .ok ["/p/f"] := by
  decide +kernel

end FileSieve.CommandLine
