import FileSieve.Proofs.Store.Importing
import FileSieve.Proofs.Store.SessionRegister

/-! # The patterns and the root of a run

A run gathers its patterns by looking only: the saved ones, then those of its ignore files, then its
own. It finds its root by looking too, and the root is a directory. -/

namespace FileSieve.CommandLine

open Host Program

variable {α : Type} {m n : Model} {places : Store.Places}

/-! ### Parts that end a run or not -/

theorem looksT_orUnusable (result : Except FileProblem α) : LooksT (orUnusable result) := by
  cases result with
  | ok value => exact looksT_pure value
  | error problem => exact looksT_throw _

theorem looksT_orUnencodable (result : Except Utf16.LoneHalves α) :
    LooksT (orUnencodable result) := by
  cases result with
  | ok value => exact looksT_pure value
  | error halves => exact looksT_throw _

theorem looksT_required (need : Need) (value : Value α) : LooksT (required need value) := by
  cases value with
  | given value => exact looksT_pure value
  | void => exact looksT_throw _

theorem eval_required (need : Need) (value : α) :
    (required need (.given value)).run.eval m.reply = .ok value := rfl

theorem looksT_readIgnoreFile (name : String) (result : Except FileProblem α) :
    LooksT (readIgnoreFile name result) := by
  cases result with
  | ok value => exact looksT_pure value
  | error problem =>
    unfold readIgnoreFile
    dsimp only
    split <;> exact looksT_throw _

/-! ### Actions on the stores -/

section OnStores

variable {action : Store.Reading α}

theorem run_onStores_eq (action : Store.Reading α) :
    (onStores action).run = action.run >>= fun result => pure (result.mapError .nested) :=
  map_eq_pure_bind _ _

theorem looksT_onStores (h : LooksT action) : LooksT (onStores action) := by
  rw [LooksT, run_onStores_eq]
  exact Looks.bind h fun _ => looks_pure _

theorem quiet_onStores (h : Quiet action.run) : Quiet (onStores action).run := by
  rw [run_onStores_eq]
  exact h.bind fun _ => trivial

theorem eval_onStores (m : Model) (action : Store.Reading α) :
    (onStores action).run.eval m.reply = (action.run.eval m.reply).mapError .nested := by
  rw [run_onStores_eq, eval_bind]
  rfl

theorem eval_onStores_eq_ok_iff {value : α} :
    (onStores action).run.eval m.reply = .ok value ↔ action.run.eval m.reply = .ok value := by
  rw [eval_onStores]
  cases action.run.eval m.reply with
  | ok found => rw [Except.mapError, Except.ok.injEq, Except.ok.injEq]
  | error part => exact iff_of_false nofun nofun

/-- An action on the stores is carried out as it is, and only the reason why it stops is told
otherwise. -/
theorem run_onStores (m : Model) (action : Store.Reading α) :
    m.run (onStores action).run =
      ((m.run action.run).1.mapError .nested, (m.run action.run).2) := by
  rw [run_onStores_eq, Model.run_bind]
  rfl

theorem run_onStores_eq_ok_iff {value : α} :
    m.run (onStores action).run = (.ok value, n) ↔ m.run action.run = (.ok value, n) := by
  rw [run_onStores]
  obtain ⟨result, k⟩ := m.run action.run
  cases result with
  | ok found =>
    rw [Except.mapError, Prod.mk.injEq, Prod.mk.injEq, Except.ok.injEq, Except.ok.injEq]
  | error part => exact iff_of_false nofun nofun

theorem run_onStores_eq_error_iff {outcome : Outcome} :
    m.run (onStores action).run = (.error outcome, n) ↔
      ∃ part, m.run action.run = (.error part, n) ∧ outcome = .nested part := by
  rw [run_onStores]
  obtain ⟨result, k⟩ := m.run action.run
  cases result with
  | ok found => exact iff_of_false nofun nofun
  | error part =>
    constructor
    · intro h
      cases h
      exact ⟨part, rfl, rfl⟩
    · rintro ⟨_, h, rfl⟩
      cases h
      rfl

end OnStores

/-! ### Patterns -/

/-- The patterns of an ignore file. -/
def ignoreFile (value : Value String) : Task (List String) := do
  let name ← required .path value
  let bytes ← readIgnoreFile name (← readFile (PathName.normalize name))
  return Store.parseIgnoreText (Store.ignoreTextOf bytes)

theorem looksT_ignoreFile (value : Value String) : LooksT (ignoreFile value) :=
  (looksT_required _ value).bind fun name =>
    (looksT_lift (looks_ask (.readFile (PathName.normalize name)) trivial)).bind fun result =>
      (looksT_readIgnoreFile name result).bind fun _ => looksT_pure _

/-- The saved patterns that a run takes. -/
def savedPatterns (places : Store.Places) (o : Options) : Task (List Utf16) :=
  if o.noSavedPatterns then pure [] else onStores (Store.loadPatterns places)

theorem looksT_savedPatterns (places : Store.Places) (o : Options) :
    LooksT (savedPatterns places o) := by
  unfold savedPatterns
  split
  · exact looksT_pure []
  · exact looksT_onStores (Store.looksT_loadPatterns places)

/-- The list that patterns from these sources make. -/
def together (saved : List Utf16) (read : List (List String)) (o : Options) : Task (List String) :=
  orUnencodable (usablePatterns (saved ++ (read.flatten ++ o.ignore).map Utf16.ofString))

theorem gatherPatterns_eq (places : Store.Places) (o : Options) :
    gatherPatterns places o = savedPatterns places o >>= fun saved =>
      o.gitignore.mapM ignoreFile >>= fun read => together saved read o := by
  unfold gatherPatterns savedPatterns
  split <;> rfl

theorem looksT_gatherPatterns (places : Store.Places) (o : Options) :
    LooksT (gatherPatterns places o) := by
  rw [gatherPatterns_eq]
  exact (looksT_savedPatterns places o).bind fun saved =>
    (LooksT.mapM looksT_ignoreFile o.gitignore).bind fun read => looksT_orUnencodable _

/-! ### Values -/

theorem eval_savedPatterns_iff {o : Options} (h : o.noSavedPatterns = false) {list : List Utf16} :
    (savedPatterns places o).run.eval m.reply = .ok list ↔ Store.loaded places m = .ok list := by
  rw [savedPatterns, if_neg (by simp [h])]
  exact eval_onStores_eq_ok_iff

theorem eval_readIgnoreFile_iff {name : String} {result : Except FileProblem α} {value : α} :
    (readIgnoreFile name result).run.eval m.reply = .ok value ↔ result = .ok value := by
  cases result with
  | ok found => exact eval_run_pure_iff
  | error problem =>
    unfold readIgnoreFile
    dsimp only
    split <;> exact iff_of_false nofun nofun

theorem eval_ignoreFile_iff {name : String} {patterns : List String} :
    (ignoreFile (.given name)).run.eval m.reply = .ok patterns ↔
      ∃ bytes, m.disk.read m.directory (PathName.normalize name) = .ok bytes ∧
        Store.parseIgnoreText (Store.ignoreTextOf bytes) = patterns := by
  have hfile : ignoreFile (.given name) =
      ((liftM (readFile (PathName.normalize name)) : Task _) >>= fun result =>
        readIgnoreFile name result >>= fun bytes =>
          pure (Store.parseIgnoreText (Store.ignoreTextOf bytes))) := rfl
  rw [hfile, eval_run_lift_bind, Model.eval_readFile, eval_run_bind_iff]
  simp only [eval_readIgnoreFile_iff, eval_run_pure, Except.ok.injEq]

theorem eval_orUnencodable_iff {result : Except Utf16.LoneHalves α} {value : α} :
    (orUnencodable result).run.eval m.reply = .ok value ↔ result = .ok value := by
  cases result with
  | ok found => exact eval_run_pure_iff
  | error halves => exact iff_of_false nofun nofun

theorem eval_together_iff {saved : List Utf16} {read : List (List String)} {o : Options}
    {patterns : List String} :
    (together saved read o).run.eval m.reply = .ok patterns ↔
      saved ++ (read.flatten ++ o.ignore).map Utf16.ofString = patterns.map Utf16.ofString := by
  rw [together, eval_orUnencodable_iff, usablePatterns_eq_ok_iff]

/-- A run with one ignore file makes its list from the saved patterns, those of the file and its
own. -/
theorem eval_gatherPatterns_file {name : String} {more patterns : List String}
    (h : (gatherPatterns places { gitignore := [.given name], ignore := more }).run.eval m.reply =
      .ok patterns) :
    ∃ list bytes, Store.loaded places m = .ok list ∧
      m.disk.read m.directory (PathName.normalize name) = .ok bytes ∧
      list ++ (Store.parseIgnoreText (Store.ignoreTextOf bytes) ++ more).map Utf16.ofString =
        patterns.map Utf16.ofString := by
  rw [gatherPatterns_eq, eval_run_bind_iff] at h
  obtain ⟨list, hlist, h⟩ := h
  rw [List.mapM_cons, List.mapM_nil, LawfulMonad.bind_assoc, eval_run_bind_iff] at h
  obtain ⟨fromFile, hfile, h⟩ := h
  obtain ⟨bytes, hbytes, rfl⟩ := eval_ignoreFile_iff.1 hfile
  rw [pure_bind, pure_bind, eval_together_iff] at h
  refine ⟨list, bytes, (eval_savedPatterns_iff rfl).1 hlist, hbytes, ?_⟩
  simpa using h

/-- A run without ignore files makes its list from the saved patterns and its own. -/
theorem eval_gatherPatterns_saved {list : List Utf16} {more patterns : List String}
    (hl : Store.loaded places m = .ok list)
    (h : list ++ more.map Utf16.ofString = patterns.map Utf16.ofString) :
    (gatherPatterns places { ignore := more }).run.eval m.reply = .ok patterns := by
  rw [gatherPatterns_eq, eval_run_bind_of_ok ((eval_savedPatterns_iff rfl).2 hl), List.mapM_nil,
    pure_bind, eval_together_iff]
  exact h

/-! ### The root of a run -/

/-- The directory that is scanned when none is given. -/
def fallbackRoot (setting : Setting) (o : Options) : Task (Option String) :=
  if o.last && o.path.isNone then
    onStores (Store.loadLast setting.places) >>= fun
      | none => fail "No previously scanned project"
      | some last => orUnencodable last.asString >>= fun name => pure (some name)
  else pure setting.defaultPath

/-- The name of the root. -/
def rootName (o : Options) (fallback : Option String) : Task String :=
  match o.path.filter (· ≠ ""), fallback with
  | some path, _ => pure path
  | none, some path => pure path
  | none, none => liftM workingDirectory

/-- The directory that a name leads to. -/
def directoryAt (name : String) : Task String :=
  (liftM (resolve (PathName.normalize name)) : Task _) >>= fun resolved =>
    orUnusable resolved >>= fun root =>
      (liftM (isDirectory root) : Task _) >>= fun found =>
        orUnusable found >>= fun isThere =>
          if !isThere then fail ("Not a directory: " ++ root) >>= fun (_ : Unit) => pure root
          else pure root

theorem findRoot_eq (setting : Setting) (o : Options) :
    findRoot setting o = fallbackRoot setting o >>= fun fallback =>
      rootName o fallback >>= directoryAt := by
  unfold findRoot fallbackRoot
  dsimp only
  split
  · rw [LawfulMonad.bind_assoc]
    congr 1
    funext last
    cases last with
    | none => rfl
    | some last =>
      dsimp only
      rw [LawfulMonad.bind_assoc]
      congr 1
      funext name
      unfold rootName
      cases o.path.filter (· ≠ "") <;> rfl
  · unfold rootName
    cases o.path.filter (· ≠ "") with
    | some path => rfl
    | none => cases setting.defaultPath <;> rfl

theorem looksT_fail (message : String) : LooksT (fail message : Task α) := looksT_throw _

theorem looksT_fallbackRoot (setting : Setting) (o : Options) :
    LooksT (fallbackRoot setting o) := by
  unfold fallbackRoot
  split
  · apply (looksT_onStores (Store.looksT_loadLast setting.places)).bind
    intro last
    cases last with
    | none => exact looksT_fail _
    | some last => exact (looksT_orUnencodable _).bind fun name => looksT_pure (some name)
  · exact looksT_pure _

theorem looksT_rootName (o : Options) (fallback : Option String) : LooksT (rootName o fallback) := by
  unfold rootName
  split
  · exact looksT_pure _
  · exact looksT_pure _
  · exact looksT_lift (looks_ask .workingDirectory trivial)

theorem looksT_directoryAt (name : String) : LooksT (directoryAt name) := by
  apply (looksT_lift (looks_ask (.resolve (PathName.normalize name)) trivial)).bind
  intro resolved
  apply (looksT_orUnusable resolved).bind
  intro root
  apply (looksT_lift (looks_ask (.isDirectory root) trivial)).bind
  intro found
  apply (looksT_orUnusable found).bind
  intro isThere
  split
  · exact (looksT_fail _).bind fun _ => looksT_pure root
  · exact looksT_pure root

theorem looksT_findRoot (setting : Setting) (o : Options) : LooksT (findRoot setting o) := by
  rw [findRoot_eq]
  exact (looksT_fallbackRoot setting o).bind fun fallback =>
    (looksT_rootName o fallback).bind looksT_directoryAt

theorem eval_orUnusable_iff {result : Except FileProblem α} {value : α} :
    (orUnusable result).run.eval m.reply = .ok value ↔ result = .ok value := by
  cases result with
  | ok found => exact eval_run_pure_iff
  | error problem => exact iff_of_false nofun nofun

/-- The root that a run finds is what its name resolves to, and it is a directory. -/
theorem resolve_of_findRoot {setting : Setting} {o : Options} {root : String}
    (h : (findRoot setting o).run.eval m.reply = .ok root) :
    ∃ name, m.disk.resolve m.directory name = .ok root ∧
      m.disk.isDirectory m.directory root = .ok true := by
  rw [findRoot_eq, eval_run_bind_iff] at h
  obtain ⟨fallback, -, h⟩ := h
  obtain ⟨name, -, h⟩ := eval_run_bind_iff.1 h
  rw [directoryAt, eval_run_lift_bind, eval_run_bind_iff] at h
  obtain ⟨top, hresolve, h⟩ := h
  rw [eval_run_lift_bind, eval_run_bind_iff] at h
  obtain ⟨isThere, hdirectory, h⟩ := h
  rw [eval_orUnusable_iff, Model.eval_resolve] at hresolve
  rw [eval_orUnusable_iff, Model.eval_isDirectory] at hdirectory
  cases isThere with
  | false => cases h
  | true =>
    cases h
    exact ⟨_, hresolve, hdirectory⟩

end FileSieve.CommandLine
