import FileSieve.Proofs.CommandLine.Gathering
import FileSieve.Proofs.CommandLine.Scanning
import FileSieve.Proofs.Files.Listing
import FileSieve.Proofs.Scan.Visibility

/-! # Checking one path and showing all files

Checking a path looks up what it leads to, while a scan takes it from the listing of its directory.
Both decide alike about a file, but not about a link to a directory. -/

namespace FileSieve.CommandLine

open Host Program

variable {α : Type} {m n : Model}

/-! ### Explaining a path -/

theorem looksT_logs (records : List Log.Record) :
    LooksT (records.forM fun record => (liftM (log record) : Task Unit)) := by
  induction records with
  | nil => exact looksT_pure ()
  | cons record records ih => exact (looksT_lift (looks_ask (.log record) trivial)).bind fun _ => ih

theorem eval_logs (m : Model) (records : List Log.Record) :
    (records.forM fun record => (liftM (log record) : Task Unit)).run.eval m.reply = .ok () := by
  induction records with
  | nil => rfl
  | cons record records ih => exact ih

/-- The decision about a path seen from the root. -/
def decisionAt (root : String) (patterns : List String) (path : Value String) :
    Task (Decision Rule) :=
  let found := (RuleCache.ofCapacity RuleCache.defaultCapacity).get patterns
  (found.2.1.forM fun record => (liftM (log record) : Task Unit)) >>= fun _ =>
    required .path path >>= fun name =>
      (liftM (isDirectory (PathName.resolveIn root name)) : Task _) >>= fun there =>
        orUnusable there >>= fun asDirectory =>
          let relative := Scan.relativePath root (PathName.resolveIn root name)
          pure (explain found.1 (if asDirectory && relative ≠ "" then relative ++ "/" else relative))

theorem explainPath_eq (root : String) (patterns : List String) (path : Value String) :
    explainPath root patterns path = decisionAt root patterns path >>= fun decision =>
      liftM (print (decisionText decision)) := by
  unfold explainPath decisionAt
  simp only [LawfulMonad.bind_assoc, pure_bind]

/-- The decision about a path that leads to no directory. -/
theorem eval_decisionAt {root name : String} {patterns : List String}
    (h : m.disk.isDirectory m.directory (PathName.resolveIn root name) = .ok false) :
    (decisionAt root patterns (.given name)).run.eval m.reply =
      .ok (explain (compileRules patterns)
        (Scan.relativePath root (PathName.resolveIn root name))) := by
  unfold decisionAt
  dsimp only
  rw [eval_run_bind_of_ok (eval_logs m _), eval_run_bind_of_ok (eval_required .path name),
    eval_run_lift_bind, Model.eval_isDirectory, h]
  rfl

theorem looksT_decisionAt (root : String) (patterns : List String) (path : Value String) :
    LooksT (decisionAt root patterns path) := by
  apply (looksT_logs _).bind
  intro _
  apply (looksT_required _ path).bind
  intro name
  apply (looksT_lift (looks_ask (.isDirectory (PathName.resolveIn root name)) trivial)).bind
  intro there
  exact (looksT_orUnusable there).bind fun _ => looksT_pure _

theorem run_print (m : Model) (text : Utf16) :
    m.run (print text) = ((), { m with output := m.output ++ text }) := rfl

/-- Explaining a path prints the decision about it. -/
theorem run_explainPath {root name : String} {patterns : List String}
    (h : m.disk.isDirectory m.directory (PathName.resolveIn root name) = .ok false) :
    ∃ n, m.run (explainPath root patterns (.given name)).run = (.ok (), n) ∧
      n.output = m.output ++ Utf16.ofString (decisionText (explain (compileRules patterns)
        (Scan.relativePath root (PathName.resolveIn root name)))) := by
  obtain ⟨n, hn, hrun⟩ := Model.runT_bind_of_looks (looksT_decisionAt root patterns (.given name))
    (eval_decisionAt h) fun decision => liftM (print (decisionText decision))
  rw [explainPath_eq, hrun, Model.runT_lift, run_print]
  exact ⟨_, rfl, by rw [hn.output]⟩

/-! ### Showing files -/

theorem quiet_saveLast (places : Store.Places) (root : Option Utf16) :
    Quiet (Store.saveLast places root).run :=
  Quiet.bindT (Looks.quiet (Store.looksT_loadSession places)) fun _ =>
    quiet_lift (Store.quiet_write places.session _)

/-- The paths of files, one a line. -/
def pathLines (files : List FlatFile) : String :=
  String.join (files.map fun file => file.path ++ "\n")

theorem output_printPaths (files : List FlatFile) (m : Model) :
    (m.run (printPaths files)).2.output = m.output ++ Utf16.ofString (pathLines files) := by
  induction files generalizing m with
  | nil => exact (Utf16.append_empty m.output).symm
  | cons file files ih =>
    have hprint : m.run (print (file.path ++ "\n")) =
        ((), { m with output := m.output ++ (file.path ++ "\n") }) := run_print m _
    have hlines : pathLines (file :: files) = file.path ++ "\n" ++ pathLines files := by
      simp [pathLines, String.join_cons]
    change (m.run (print (file.path ++ "\n") >>= fun _ => printPaths files)).2.output = _
    rw [Model.run_bind_of_eq hprint, ih, hlines, Utf16.ofString_append, Utf16.ofString_append,
      Utf16.append_assoc]

/-- What is scanned, and by which patterns. -/
structure Subject where
  path : Option String := none
  last : Bool := false
  noSavedPatterns : Bool := false
  gitignore : List (Value String) := []
  ignore : List String := []
  workers : Nat := 0
  logLevel : Option String := none

def Subject.options (s : Subject) : Options where
  path := s.path
  last := s.last
  noSavedPatterns := s.noSavedPatterns
  gitignore := s.gitignore
  ignore := s.ignore
  workers := .given s.workers
  logLevel := s.logLevel

theorem showProject_eq (setting : Setting) (s : Subject) (root : String) (patterns : List String) :
    showProject setting { s.options with files := true } root patterns =
      scanRoot setting.depth root patterns (.given s.workers) >>= fun found =>
        onStores (Store.saveLast setting.places (some found.1.root)) >>= fun _ =>
          liftM (printPaths found.1.files) := by
  unfold showProject
  congr 1

theorem editStores_eq (places : Store.Places) (s : Subject) (check : Option (Value String))
    (files : Bool) :
    editStores places { s.options with check := check, files := files } = pure false := by
  rfl

theorem perform_eq (setting : Setting) (o : Options) (h : o.listContexts = false) :
    perform setting o =
      (liftM (logFrom (Log.effective (Log.threshold o.logLevel setting.environmentLevel))) :
        Task Unit) >>= fun _ => editStores setting.places o >>= fun edited =>
          if edited then pure () else findRoot setting o >>= fun root =>
            gatherPatterns setting.places o >>= fun patterns =>
              match o.check with
              | some path => explainPath root patterns path
              | none => showProject setting o root patterns := by
  unfold perform
  congr 1
  funext _
  congr 1
  funext edited
  split
  · rfl
  · congr 1
    funext root
    rw [if_neg (by simp [h])]
    congr 1
    funext patterns
    cases o.check <;> rfl

/-- A run that edits nothing goes on with its root and its patterns. -/
theorem run_perform {setting : Setting} {o : Options} {root : String} {patterns : List String}
    (hedit : editStores setting.places o = pure false) (hlist : o.listContexts = false)
    (hroot : (m.run (findRoot setting o).run).1 = .ok root)
    (hpatterns : (m.run (gatherPatterns setting.places o).run).1 = .ok patterns) :
    ∃ n, m.LooksLike n ∧ m.run (perform setting o).run =
      n.run (match o.check with
        | some path => explainPath root patterns path
        | none => showProject setting o root patterns).run := by
  let level := Log.effective (Log.threshold o.logLevel setting.environmentLevel)
  have hstart : m.LooksLike (m.run (logFrom level)).2 := ⟨⟨rfl, rfl⟩, rfl⟩
  rw [(Model.run_of_looks (looksT_findRoot setting o) m).1,
    ← hstart.eval_eq (looksT_findRoot setting o)] at hroot
  rw [(Model.run_of_looks (looksT_gatherPatterns setting.places o) m).1,
    ← hstart.eval_eq (looksT_gatherPatterns setting.places o)] at hpatterns
  rw [perform_eq setting o hlist, Model.runT_lift_bind, hedit, pure_bind,
    if_neg Bool.false_ne_true]
  obtain ⟨n, hn, hrun⟩ := Model.runT_bind_of_looks (looksT_findRoot setting o) hroot fun root =>
    gatherPatterns setting.places o >>= fun patterns =>
      match o.check with
      | some path => explainPath root patterns path
      | none => showProject setting o root patterns
  rw [← hn.eval_eq (looksT_gatherPatterns setting.places o)] at hpatterns
  obtain ⟨k, hk, hrun'⟩ := Model.runT_bind_of_looks (looksT_gatherPatterns setting.places o)
    hpatterns fun patterns =>
      match o.check with
      | some path => explainPath root patterns path
      | none => showProject setting o root patterns
  exact ⟨k, (hstart.trans hn).trans hk, hrun.trans hrun'⟩

/-- How showing files ends: they are printed, one a line, unless the session is nested too deeply to
be read. -/
def Shows (setting : Setting) (m : Model) (files : List FlatFile)
    (ended : Except Outcome Unit × Model) : Prop :=
  match Store.session setting.places m with
  | .ok _ => ended.1 = .ok () ∧ ended.2.output = m.output ++ Utf16.ofString (pathLines files)
  | .error part => ended.1 = .error (.nested part) ∧ ended.2.output = m.output

theorem Shows.of_looksLike {setting : Setting} {files : List FlatFile}
    {ended : Except Outcome Unit × Model} (hn : m.LooksLike n) (h : Shows setting n files ended) :
    Shows setting m files ended := by
  rwa [Shows, Store.session_eq_of_sameFiles hn.toSameFiles, hn.output] at h

theorem Shows.exists_eq_ok {setting : Setting} {files : List FlatFile}
    {ended : Except Outcome Unit × Model} {session : Store.Session}
    (hs : Store.session setting.places m = .ok session) (h : Shows setting m files ended) :
    ∃ shown, ended = (.ok (), shown) ∧
      shown.output = m.output ++ Utf16.ofString (pathLines files) := by
  rw [Shows, hs] at h
  exact ⟨ended.2, Prod.ext h.1 rfl, h.2⟩

/-- Showing files prints those that the scan has found. -/
theorem run_showProject {setting : Setting} {s : Subject} {root : String} {patterns : List String}
    {found : ScanResult} {c : Controller}
    (h : (scanRoot setting.depth root patterns (.given s.workers)).run.eval m.reply =
      .ok (found, c)) :
    Shows setting m found.files
      (m.run (showProject setting { s.options with files := true } root patterns).run) := by
  obtain ⟨n, hn, hrun⟩ := Model.runT_bind_of_looks (looksT_scanRoot _ _ _ _) h fun found =>
    onStores (Store.saveLast setting.places (some found.1.root)) >>= fun _ =>
      liftM (printPaths found.1.files)
  rw [showProject_eq, hrun]
  apply Shows.of_looksLike hn
  have hsaved := run_onStores n (Store.saveLast setting.places (some found.root))
  have hquiet := Model.output_run_of_quiet (quiet_saveLast setting.places (some found.root)) n
  rw [Store.run_saveLast] at hsaved
  rw [Shows]
  cases hs : Store.session setting.places n with
  | ok session =>
    rw [hs] at hsaved
    rw [Model.runT_bind_of_eq hsaved, Model.runT_lift]
    refine ⟨rfl, ?_⟩
    rw [output_printPaths, hquiet]
  | error part =>
    rw [hs] at hsaved
    rw [Model.runT_bind_of_error hsaved]
    exact ⟨rfl, hquiet⟩

/-! ### Checking and showing -/

/-- Below a directory of a host there are not more levels than a scan may go down. -/
theorem hasLevels_of_isDirectory {root : String} {depth : Nat} (hdepth : Disk.nameLimit < depth)
    (hroot : m.disk.isDirectory m.directory root = .ok true) :
    Scan.HasLevels m.listing depth root := by
  obtain ⟨place, hl⟩ := Disk.locate_of_isDirectory hroot
  obtain ⟨-, hne, -⟩ := Disk.fits_of_locate hl
  have hpos := Model.utf8ByteSize_pos hne
  cases depth with
  | zero => exact absurd hdepth (Nat.not_lt_zero _)
  | succ depth =>
    apply Model.hasLevels_listing
    omega

/-- The files that a host has below a root and that the patterns do not ignore, in the order in
which they are shown. -/
def filesBelow (m : Model) (depth : Nat) (root : String) (patterns : List String) :
    List FlatFile :=
  (Scan.result root (Scan.treeOf m.listing (compileRules patterns) depth ⟨root, ""⟩)).files

/-- A scan of the command line finds the files below its root. -/
theorem eval_scanRoot_listing {root : String} {depth : Nat} {patterns : List String}
    {workers : Nat} (hm : m.WellFormed) (hdepth : Disk.nameLimit < depth)
    (hroot : m.disk.isDirectory m.directory root = .ok true) :
    ∃ found c, (scanRoot depth root patterns (.given workers)).run.eval m.reply =
        .ok (found, c) ∧ found.files = filesBelow m depth root patterns := by
  obtain ⟨place, hl⟩ := Disk.locate_of_isDirectory hroot
  obtain ⟨hnull, -, -⟩ := Disk.fits_of_locate hl
  have hbuilt : Control.treeOn m.listing (Controller.start { workers := workers }).2 .inOrder depth
      root patterns (some (Controller.start { workers := workers }).1) =
        .ok (some (Scan.result root
          (Scan.treeOf m.listing (compileRules patterns) depth ⟨root, ""⟩))) := by
    apply Control.treeOn_start (hasLevels_of_isDirectory hdepth hroot)
    · exact Scan.nodup_directories (Model.nested_listing hm) (Model.distinct_listing hm) depth root
    · intro job hj
      exact Model.not_isBroken_listing
        (Model.no_null_of_reaches hm hnull (Scan.Reaches.root.of_mem_reached hj))
  obtain ⟨c, hc⟩ := eval_scanRoot hbuilt
  exact ⟨_, c, hc, rfl⟩

theorem isDirectory_of_findRoot {setting : Setting} {o : Options} {root : String}
    (hroot : (m.run (findRoot setting o).run).1 = .ok root) :
    m.disk.isDirectory m.directory root = .ok true := by
  rw [(Model.run_of_looks (looksT_findRoot setting o) m).1] at hroot
  obtain ⟨-, -, hdirectory⟩ := resolve_of_findRoot hroot
  exact hdirectory

/-- Showing all files prints those below the root. -/
theorem run_files {setting : Setting} {s : Subject} {root : String} {patterns : List String}
    (hm : m.WellFormed) (hdepth : Disk.nameLimit < setting.depth)
    (hroot : (m.run (findRoot setting s.options).run).1 = .ok root)
    (hpatterns : (m.run (gatherPatterns setting.places s.options).run).1 = .ok patterns) :
    Shows setting m (filesBelow m setting.depth root patterns)
      (m.run (perform setting { s.options with files := true }).run) := by
  obtain ⟨k, hk, hshow⟩ := run_perform (editStores_eq setting.places s none true) rfl hroot
    hpatterns
  obtain ⟨found, c, hscan, hfound⟩ := @eval_scanRoot_listing m root setting.depth patterns
    s.workers hm hdepth (isDirectory_of_findRoot hroot)
  rw [← hk.eval_eq (looksT_scanRoot _ _ _ _)] at hscan
  rw [← hfound]
  exact (congrArg (Shows setting m found.files) hshow).mpr ((run_showProject hscan).of_looksLike hk)

/-- An entry that a full scan reaches, other than a directory, is among the files below the root if
the patterns do not ignore it. -/
theorem path_mem_filesBelow_iff {depth : Nat} {root : String} {patterns : List String}
    {job : Scan.Job} {entry : Entry} (hm : m.WellFormed) (hdepth : Disk.nameLimit < depth)
    (hroot : m.disk.isDirectory m.directory root = .ok true)
    (hjob : Scan.Reaches m.listing ([] : List Rule) root job)
    (hentry : entry ∈ Scan.entriesOf m.listing job.directory) (hfile : entry.isDirectory = false) :
    entry.path ∈ (filesBelow m depth root patterns).map FlatFile.path ↔
      isIgnored (compileRules patterns) (Scan.joinRelative job.relative entry.name) = false :=
  Scan.path_mem_files_iff (Model.nested_listing hm) (hasLevels_of_isDirectory hdepth hroot) hjob
    hentry hfile (Model.isName_of_mem hm hentry).ne_empty

/-- The path from the root of an entry that a full scan reaches leads back to its place. -/
theorem relativePath_of_reaches {root : String} {job : Scan.Job} {entry : Entry}
    (hm : m.WellFormed) (hjob : Scan.Reaches m.listing ([] : List Rule) root job)
    (hentry : entry ∈ Scan.entriesOf m.listing job.directory)
    (hback : '\\' ∉ (Scan.joinRelative job.relative entry.name).toList) :
    Scan.relativePath root entry.path = Scan.joinRelative job.relative entry.name := by
  have hnested := Model.nested_listing hm
  have hproper := Model.isName_of_mem hm hentry
  rw [(hjob.stands hnested).path_eq hnested hentry]
  exact Scan.relativePath_entryPath
    (Scan.head?_joinRelative (hjob.head?_relative hnested) hproper.no_slash) hback

/-- Checking a file that a full scan reaches says that it is included, if and only if showing all
files shows it. The file must not be a link to a directory or have a name that is too long to be
looked up, and there must be no backslash in its path from the root. Where the session cannot be
read, checking does not notice that, and showing ends before it shows any file. -/
theorem included_iff_shown {setting : Setting} {s : Subject} {root name : String}
    {patterns : List String} {job : Scan.Job} {entry : Entry} (hm : m.WellFormed)
    (hdepth : Disk.nameLimit < setting.depth)
    (hroot : (m.run (findRoot setting s.options).run).1 = .ok root)
    (hpatterns : (m.run (gatherPatterns setting.places s.options).run).1 = .ok patterns)
    (hjob : Scan.Reaches m.listing ([] : List Rule) root job)
    (hentry : entry ∈ Scan.entriesOf m.listing job.directory) (hfile : entry.isDirectory = false)
    (hname : PathName.resolveIn root name = entry.path)
    (hleads : m.disk.isDirectory m.directory entry.path = .ok false)
    (hback : '\\' ∉ (Scan.joinRelative job.relative entry.name).toList) :
    let decision := explain (compileRules patterns) (Scan.joinRelative job.relative entry.name)
    let files := filesBelow m setting.depth root patterns
    (∃ checked,
      m.run (perform setting { s.options with check := some (.given name) }).run =
        (.ok (), checked) ∧
      checked.output = m.output ++ Utf16.ofString (decisionText decision)) ∧
    Shows setting m files (m.run (perform setting { s.options with files := true }).run) ∧
    (decision.ignored = false ↔ entry.path ∈ files.map FlatFile.path) := by
  intro decision files
  have hplace : Scan.relativePath root (PathName.resolveIn root name) =
      Scan.joinRelative job.relative entry.name := by
    rw [hname]
    exact relativePath_of_reaches hm hjob hentry hback
  obtain ⟨n, hn, hcheck⟩ := run_perform (editStores_eq setting.places s (some (.given name)) false)
    rfl hroot hpatterns
  rw [← hname, ← hn.disk, ← hn.directory] at hleads
  obtain ⟨checked, hchecked, hprinted⟩ := @run_explainPath n root name patterns hleads
  refine ⟨⟨checked, hcheck.trans hchecked, ?_⟩, run_files hm hdepth hroot hpatterns, ?_⟩
  · rw [hprinted, hn.output, hplace]
  · rw [explain_ignored, path_mem_filesBelow_iff hm hdepth (isDirectory_of_findRoot hroot) hjob
      hentry hfile]

/-- A project with a file in a directory, and beside the directory a link to it. -/
def linkedHost : Model where
  disk := { items := [(["p"], .directory), (["p", "d"], .directory), (["p", "d", "f"], .file []),
    (["p", "ln"], .link "d")] }

def linkedSetting : Setting where
  places := .inDirectory "/store"

def linkedSubject : Subject where
  path := some "/p"
  noSavedPatterns := true
  ignore := ["ln/"]

theorem wellFormed_linkedHost : linkedHost.WellFormed := ⟨by decide, by decide⟩

theorem findRoot_linkedSubject :
    (linkedHost.run (findRoot linkedSetting linkedSubject.options).run).1 = .ok "/p" := by
  decide +kernel

theorem gatherPatterns_linkedSubject :
    (linkedHost.run (gatherPatterns linkedSetting.places linkedSubject.options).run).1 =
      .ok ["ln/"] := by
  decide +kernel

theorem session_linkedHost :
    Store.session linkedSetting.places linkedHost = .ok (Store.Session.ofDocument none) := by
  have hread : (linkedHost.disk.read linkedHost.directory linkedSetting.places.session).toOption =
      none := by
    decide +kernel
  have hdocument : Store.document linkedHost linkedSetting.places.session = .ok none := by
    rw [Store.document_eq, hread]
    rfl
  exact Store.session_eq_ok_iff.2 ⟨none, hdocument, rfl⟩

theorem included_iff_shown_linked_project :
    linkedHost.WellFormed ∧ Disk.nameLimit < linkedSetting.depth ∧
      (linkedHost.run (findRoot linkedSetting linkedSubject.options).run).1 = .ok "/p" ∧
      (linkedHost.run (gatherPatterns linkedSetting.places linkedSubject.options).run).1 =
        .ok ["ln/"] ∧
      Scan.Reaches linkedHost.listing ([] : List Rule) "/p" ⟨"/p/d", "d"⟩ ∧
      ⟨"f", false, "/p/d/f"⟩ ∈ Scan.entriesOf linkedHost.listing "/p/d" ∧
      PathName.resolveIn "/p" "d/f" = "/p/d/f" ∧
      linkedHost.disk.isDirectory linkedHost.directory "/p/d/f" = .ok false ∧
      '\\' ∉ (Scan.joinRelative "d" "f").toList ∧
      let decision := explain (compileRules ["ln/"]) (Scan.joinRelative "d" "f")
      let files := filesBelow linkedHost linkedSetting.depth "/p" ["ln/"]
      ∃ checked shown,
        linkedHost.run (perform linkedSetting
          { linkedSubject.options with check := some (.given "d/f") }).run = (.ok (), checked) ∧
        checked.output = linkedHost.output ++ Utf16.ofString (decisionText decision) ∧
        linkedHost.run (perform linkedSetting { linkedSubject.options with files := true }).run =
          (.ok (), shown) ∧
        shown.output = linkedHost.output ++ Utf16.ofString (pathLines files) ∧
        (decision.ignored = false ↔ "/p/d/f" ∈ files.map FlatFile.path) := by
  have hdirectory : (⟨⟨"d", true, "/p/d"⟩, "d"⟩ : VisibleEntry) ∈
      Scan.directories (Scan.view linkedHost.listing ([] : List Rule) ⟨"/p", ""⟩) := by
    decide +kernel
  have hjob : Scan.Reaches linkedHost.listing ([] : List Rule) "/p" ⟨"/p/d", "d"⟩ :=
    Scan.Reaches.root.enter hdirectory
  have hentry : (⟨"f", false, "/p/d/f"⟩ : Entry) ∈ Scan.entriesOf linkedHost.listing "/p/d" := by
    decide +kernel
  have hname : PathName.resolveIn "/p" "d/f" = "/p/d/f" := by decide +kernel
  have hleads : linkedHost.disk.isDirectory linkedHost.directory "/p/d/f" = .ok false := by
    decide +kernel
  have hback : '\\' ∉ (Scan.joinRelative "d" "f").toList := by decide +kernel
  obtain ⟨⟨checked, hchecked, hprinted⟩, hshows, hiff⟩ :=
    @included_iff_shown linkedHost linkedSetting linkedSubject "/p" "d/f" ["ln/"] ⟨"/p/d", "d"⟩
      ⟨"f", false, "/p/d/f"⟩ wellFormed_linkedHost (by decide) findRoot_linkedSubject
      gatherPatterns_linkedSubject hjob hentry rfl hname hleads hback
  obtain ⟨shown, hshown, hlines⟩ := hshows.exists_eq_ok session_linkedHost
  exact ⟨wellFormed_linkedHost, by decide, findRoot_linkedSubject, gatherPatterns_linkedSubject,
    hjob, hentry, hname, hleads, hback, checked, shown, hchecked, hprinted, hshown, hlines, hiff⟩

/-- A link to a directory is checked as a directory, but it is shown as a file. -/
theorem ignored_link_is_shown :
    (linkedHost.run (perform linkedSetting
        { linkedSubject.options with check := some (.given "ln") }).run).2.output =
          "ln/: ignored (last match: 'ln/')\n" ∧
      ∃ shown,
        linkedHost.run (perform linkedSetting { linkedSubject.options with files := true }).run =
          (.ok (), shown) ∧
        shown.output = linkedHost.output ++
          Utf16.ofString (pathLines (filesBelow linkedHost linkedSetting.depth "/p" ["ln/"])) ∧
        "/p/ln" ∈ (filesBelow linkedHost linkedSetting.depth "/p" ["ln/"]).map FlatFile.path := by
  refine ⟨by decide +kernel, ?_⟩
  have hshows := @run_files linkedHost linkedSetting linkedSubject "/p" ["ln/"]
    wellFormed_linkedHost (by decide) findRoot_linkedSubject gatherPatterns_linkedSubject
  obtain ⟨shown, hshown, hlines⟩ := hshows.exists_eq_ok session_linkedHost
  refine ⟨shown, hshown, hlines, ?_⟩
  have hentry : (⟨"ln", false, "/p/ln"⟩ : Entry) ∈ Scan.entriesOf linkedHost.listing "/p" := by
    decide +kernel
  apply (path_mem_filesBelow_iff wellFormed_linkedHost (by decide)
    (isDirectory_of_findRoot findRoot_linkedSubject) .root hentry rfl).2
  decide +kernel

end FileSieve.CommandLine
