import FileSieve.Proofs.CommandLine.Showing

/-! # Tasks that end early

A task ends early only where it fails, so a run finishes exactly if its task comes to its end. -/

namespace FileSieve.CommandLine

open Host Program

variable {α β : Type} {m n : Model} {setting : Setting} {o : Options} {late : Outcome → Prop}

/-! ### Outcomes of one kind -/

/-- A task that ends early with outcomes of one kind only. -/
def EndsWith (late : Outcome → Prop) (task : Task α) : Prop :=
  Delivers {} late (fun _ => True) task

theorem endsWith_pure (value : α) : EndsWith late (pure value) :=
  delivers_pure trivial

theorem endsWith_throw {outcome : Outcome} (h : late outcome) :
    EndsWith late (throw outcome : Task α) := h

theorem endsWith_lift (action : Action α) : EndsWith late (liftM action : Task α) :=
  delivers_lift (meets_of_asks (fun _ => trivial) action)

theorem delivers_onStores {post : α → Prop} {action : Store.Reading α}
    (h : Delivers {} (fun _ => True) post action) (hn : ∀ part, late (.nested part)) :
    Delivers {} late post (onStores action) := by
  unfold Delivers
  rw [run_onStores_eq]
  apply Meets.bind h
  intro result hr
  cases result with
  | ok value => exact hr
  | error part => exact hn part

theorem EndsWith.bind {task : Task α} {f : α → Task β} (h : EndsWith late task)
    (hf : ∀ value, EndsWith late (f value)) : EndsWith late (task >>= f) :=
  Delivers.bind h fun value _ => hf value

theorem EndsWith.mapM {f : α → Task β} (h : ∀ a, EndsWith late (f a)) (as : List α) :
    EndsWith late (as.mapM f) :=
  Delivers.mono (Delivers.mapM fun a _ => h a) fun _ _ => trivial

theorem endsWith_prints (action : β → Action Unit) (values : List β) :
    EndsWith late (forIn values PUnit.unit fun value _ =>
      (liftM (action value) : Task Unit) >>= fun _ => pure (ForInStep.yield PUnit.unit)) := by
  induction values with
  | nil => exact endsWith_pure _
  | cons value values ih =>
    rw [List.forIn_cons, LawfulMonad.bind_assoc]
    exact (endsWith_lift (action value)).bind fun _ => ih

theorem endsWith_required_print {need : Need} {value : Value α}
    (h : value = .void → late (.valueless need)) (action : α → Action Unit) :
    EndsWith late (required need value >>= fun value => (liftM (action value) : Task Unit)) := by
  cases value with
  | given value => exact endsWith_lift (action value)
  | void => exact endsWith_throw (h rfl)

theorem endsWith_printNodes (o : Options) (root : String) (c : Controller) :
    EndsWith late (printNodes o root c) := by
  apply (endsWith_lift _).bind
  intro _
  apply (endsWith_lift _).bind
  intro _
  split
  · exact endsWith_lift _
  · exact endsWith_pure ()

/-- Showing a result fails for a search without a text, and for a node at the top that is not
there. -/
theorem endsWith_display (hquery : o.search = some .void → late (.valueless .text))
    (found : ScanResult) (htop : ∀ top, o.search = none → o.files = false →
      topOf o found.root = some top → late (.failed (SelectionError.unknownPath top).message))
    (c : Controller) : EndsWith late (display o found c) := by
  unfold display
  cases hq : o.search with
  | some query =>
    exact endsWith_required_print (fun hv => hquery (hv ▸ hq))
      fun text => printPaths (Tree.search found.files text none)
  | none =>
    dsimp only
    split
    · exact endsWith_lift _
    · next hf =>
      have hlook : EndsWith late (lookForTop o found.root c) := by
        unfold lookForTop
        cases ht : topOf o found.root with
        | none => exact endsWith_pure ()
        | some top =>
          dsimp only
          split
          · exact endsWith_throw (htop top hq (by simpa using hf) ht)
          · exact endsWith_pure ()
      rw [printTree_eq]
      exact hlook.bind fun _ => endsWith_printNodes o found.root c

/-! ### Failures -/

/-- A task that ends early with failures only. -/
abbrev FailsOnly (task : Task α) : Prop :=
  EndsWith (· ≠ .finished) task

theorem failsOnly_fail (message : String) : FailsOnly (fail message : Task α) :=
  endsWith_throw Outcome.noConfusion

theorem failsOnly_orUnusable (result : Except FileProblem α) : FailsOnly (orUnusable result) := by
  cases result with
  | ok value => exact endsWith_pure value
  | error problem => exact endsWith_throw Outcome.noConfusion

theorem failsOnly_orUnencodable (result : Except Utf16.LoneHalves α) :
    FailsOnly (orUnencodable result) := by
  cases result with
  | ok value => exact endsWith_pure value
  | error halves => exact endsWith_throw Outcome.noConfusion

theorem failsOnly_required (need : Need) (value : Value α) : FailsOnly (required need value) := by
  cases value with
  | given value => exact endsWith_pure value
  | void => exact endsWith_throw Outcome.noConfusion

theorem failsOnly_readIgnoreFile (name : String) (result : Except FileProblem α) :
    FailsOnly (readIgnoreFile name result) := by
  cases result with
  | ok value => exact endsWith_pure value
  | error problem =>
    unfold readIgnoreFile
    dsimp only
    split <;> exact endsWith_throw Outcome.noConfusion

/-- An action on the stores fails only where a document is nested too deeply. -/
theorem failsOnly_onStores (action : Store.Reading α) : FailsOnly (onStores action) :=
  delivers_onStores (delivers_of_asks (fun _ => trivial) action) fun _ => Outcome.noConfusion

/-! ### Parts of a run -/

theorem failsOnly_editStores (places : Store.Places) (o : Options) :
    FailsOnly (editStores places o) := by
  have hdone (action : Action Unit) :
      FailsOnly ((liftM action : Task Unit) >>= fun _ => (pure true : Task Bool)) :=
    (endsWith_lift action).bind fun _ => endsWith_pure true
  unfold editStores
  split
  · exact (failsOnly_onStores _).bind fun _ => hdone _
  split
  · apply (failsOnly_required _ _).bind
    intro index
    apply (failsOnly_onStores _).bind
    intro removed
    cases removed with
    | none => exact (failsOnly_fail _).bind fun _ => endsWith_pure true
    | some removed => exact hdone _
  split
  · dsimp only
    split
    · exact (failsOnly_fail _).bind fun _ => endsWith_pure true
    · apply (failsOnly_onStores _).bind
      intro replaced
      split
      · exact (failsOnly_fail _).bind fun _ => hdone _
      · exact hdone _
  split
  · apply (failsOnly_onStores _).bind
    intro deleted
    split
    · exact (failsOnly_fail _).bind fun _ => hdone _
    · exact hdone _
  split
  · exact (failsOnly_required _ _).bind fun _ => (failsOnly_onStores _).bind fun _ => hdone _
  split
  · exact (failsOnly_required _ _).bind fun _ => (failsOnly_onStores _).bind fun _ =>
      (failsOnly_readIgnoreFile _ _).bind fun _ => hdone _
  · exact endsWith_pure false

theorem failsOnly_findRoot (setting : Setting) (o : Options) : FailsOnly (findRoot setting o) := by
  have hfallback : FailsOnly (fallbackRoot setting o) := by
    unfold fallbackRoot
    split
    · apply (failsOnly_onStores _).bind
      intro last
      cases last with
      | none => exact failsOnly_fail _
      | some last => exact (failsOnly_orUnencodable _).bind fun name => endsWith_pure (some name)
    · exact endsWith_pure _
  have hname (fallback : Option String) : FailsOnly (rootName o fallback) := by
    unfold rootName
    split
    · exact endsWith_pure _
    · exact endsWith_pure _
    · exact endsWith_lift _
  rw [findRoot_eq]
  apply hfallback.bind
  intro fallback
  apply (hname fallback).bind
  intro name
  apply (endsWith_lift _).bind
  intro resolved
  apply (failsOnly_orUnusable resolved).bind
  intro root
  apply (endsWith_lift _).bind
  intro found
  apply (failsOnly_orUnusable found).bind
  intro isThere
  split
  · exact (failsOnly_fail _).bind fun _ => endsWith_pure root
  · exact endsWith_pure root

theorem failsOnly_gatherPatterns (places : Store.Places) (o : Options) :
    FailsOnly (gatherPatterns places o) := by
  have hsaved : FailsOnly (savedPatterns places o) := by
    unfold savedPatterns
    split
    · exact endsWith_pure []
    · exact failsOnly_onStores _
  have hfile (value : Value String) : FailsOnly (ignoreFile value) :=
    (failsOnly_required _ value).bind fun _ => (endsWith_lift _).bind fun _ =>
      (failsOnly_readIgnoreFile _ _).bind fun _ => endsWith_pure _
  rw [gatherPatterns_eq]
  exact hsaved.bind fun saved => (EndsWith.mapM hfile o.gitignore).bind fun read =>
    failsOnly_orUnencodable _

theorem failsOnly_explainPath (root : String) (patterns : List String) (path : Value String) :
    FailsOnly (explainPath root patterns path) := by
  have hlogs (records : List Log.Record) :
      FailsOnly (records.forM fun record => (liftM (log record) : Task Unit)) := by
    induction records with
    | nil => exact endsWith_pure ()
    | cons record records ih => exact (endsWith_lift (log record)).bind fun _ => ih
  rw [explainPath_eq]
  unfold decisionAt
  dsimp only
  apply EndsWith.bind
  · exact (hlogs _).bind fun _ => (failsOnly_required _ path).bind fun _ =>
      (endsWith_lift _).bind fun _ => (failsOnly_orUnusable _).bind fun _ => endsWith_pure _
  · exact fun decision => endsWith_lift _

theorem failsOnly_scanRoot (depth : Nat) (root : String) (patterns : List String)
    (workers : Value Nat) : FailsOnly (scanRoot depth root patterns workers) := by
  rw [scanRoot_eq]
  apply (failsOnly_required _ workers).bind
  intro count
  apply (endsWith_lift _).bind
  rintro ⟨result, controller⟩
  rcases result with fault | _ | result
  · exact endsWith_throw Outcome.noConfusion
  · exact failsOnly_fail _
  · exact endsWith_pure _

theorem failsOnly_selectPaths (places : Store.Places) (o : Options) (root : String)
    (c : Controller) : FailsOnly (selectPaths places o root c) := by
  have hrestored : FailsOnly (restored places o root c) := by
    unfold restored
    split
    · exact (failsOnly_onStores _).bind fun _ => endsWith_pure _
    · exact endsWith_pure c
  have hrecalled (c : Controller) : FailsOnly (recalled places o root c) := by
    unfold recalled
    split
    · exact endsWith_pure c
    · next value _ =>
      have hfind (contexts : List Store.SavedContext) : FailsOnly (findContext contexts value) := by
        unfold findContext
        split
        · exact endsWith_pure none
        · exact (failsOnly_required _ value).bind fun _ => endsWith_pure _
      apply (failsOnly_onStores _).bind
      intro contexts
      apply (hfind contexts).bind
      intro context
      cases context with
      | none => exact failsOnly_fail _
      | some context => exact endsWith_pure _
  have htoggled (values : List (Value String)) (c : Controller) :
      FailsOnly (values.foldlM (toggledAt root) c) := by
    induction values generalizing c with
    | nil => exact endsWith_pure c
    | cons value values ih =>
      rw [List.foldlM_cons]
      refine EndsWith.bind ?_ ih
      apply (failsOnly_required _ value).bind
      intro name
      split
      · exact failsOnly_fail _
      · exact endsWith_pure _
  rw [selectPaths_eq]
  exact hrestored.bind fun c => (hrecalled c).bind fun c => htoggled o.select c

theorem failsOnly_saveSelected (places : Store.Places) (o : Options) (root : String)
    (s : Selection) : FailsOnly (saveSelected places o root s) := by
  rw [saveSelected_eq]
  apply EndsWith.bind
  · unfold savedSession
    split
    · exact failsOnly_onStores _
    · exact endsWith_pure ()
  · intro _
    unfold savedContext
    split
    · exact endsWith_pure ()
    · next value _ =>
      apply (failsOnly_required _ value).bind
      intro name
      apply (failsOnly_onStores _).bind
      intro saved
      cases saved with
      | none => exact failsOnly_fail _
      | some saved => exact endsWith_lift _

theorem failsOnly_afterScan (setting : Setting) (o : Options) (found : ScanResult × Controller) :
    FailsOnly (afterScan setting o found) :=
  (failsOnly_onStores _).bind fun _ => (failsOnly_selectPaths _ _ _ _).bind fun _ =>
    (failsOnly_saveSelected _ _ _ _).bind fun _ =>
      endsWith_display (fun _ => Outcome.noConfusion) _ (fun _ _ _ _ => Outcome.noConfusion) _

/-! ### Whole runs -/

theorem failsOnly_perform (setting : Setting) (o : Options) : FailsOnly (perform setting o) := by
  rw [perform_steps]
  apply (endsWith_lift _).bind
  intro _
  apply (failsOnly_editStores _ _).bind
  intro edited
  split
  · exact endsWith_pure ()
  · apply (failsOnly_findRoot _ _).bind
    intro root
    split
    · exact (failsOnly_onStores _).bind fun contexts => (endsWith_prints _ contexts).bind fun _ =>
        endsWith_pure ()
    · apply (failsOnly_gatherPatterns _ _).bind
      intro patterns
      split
      · exact failsOnly_explainPath _ _ _
      · rw [showProject_steps]
        exact (failsOnly_scanRoot _ _ _ _).bind (failsOnly_afterScan _ _)

/-- A run finishes exactly if its task comes to its end. -/
theorem run_eq_finished_iff {arguments : List String} (h : parseArguments arguments = .ok o) :
    m.run (run setting arguments) = (.finished, n) ↔
      m.run (perform setting o).run = (.ok (), n) := by
  have hresult := Model.run_of_meets (failsOnly_perform setting o) m
  rw [run_of_parseArguments h]
  generalize m.run (perform setting o).run = ended at hresult
  obtain ⟨result, k⟩ := ended
  cases result with
  | ok => simp
  | error outcome => exact iff_of_false (fun he => hresult (Prod.mk.inj he).1) nofun

end FileSieve.CommandLine
