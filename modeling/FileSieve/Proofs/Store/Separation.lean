import FileSieve.Proofs.Files.Frames
import FileSieve.Proofs.Store.ContextMap
import FileSieve.Proofs.Store.SessionRegister

/-! # Two documents on one host

Two documents that stand in one directory, at different places, do not disturb each other: a write
of one of them, whether it succeeds or not, leaves the other as it was, and they stay apart. -/

namespace FileSieve.Store

open Host Program

variable {m n : Model} {a b name : String}

/-! ### How a write ends -/

/-- The directory that a document stands in. -/
def home (name : String) : String :=
  (PathName.ofText name).parent.toText

theorem canWrite_iff {bytes : List UInt8} : canWrite m name = true ↔
    ∃ d e, m.disk.makeDirectories m.directory (home name) = .ok d ∧
      d.write m.directory name bytes = .ok e := by
  constructor
  · intro h
    obtain ⟨d, hd, hwrite⟩ := exists_of_canWrite h
    obtain ⟨e, he⟩ := hwrite bytes
    exact ⟨d, e, hd, he⟩
  · rintro ⟨d, e, hd, he⟩
    obtain ⟨f, hf⟩ := exists_write he []
    rw [canWrite, ← home, hd]
    change (d.write m.directory name []).toOption.isSome = true
    rw [hf]
    rfl

/-- The disk after an attempt to write a document. -/
inductive WriteEnds (m : Model) (name : String) (bytes : List UInt8) : Disk → Prop
  | unmade {problem : FileProblem}
      (hmake : m.disk.makeDirectories m.directory (home name) = .error problem) :
      WriteEnds m name bytes m.disk
  | unwritten {d : Disk} {problem : FileProblem}
      (hmake : m.disk.makeDirectories m.directory (home name) = .ok d)
      (hwrite : d.write m.directory name bytes = .error problem) : WriteEnds m name bytes d
  | written {d e : Disk} (hmake : m.disk.makeDirectories m.directory (home name) = .ok d)
      (hwrite : d.write m.directory name bytes = .ok e) : WriteEnds m name bytes e

theorem exists_writeEnds (m : Model) (name : String) (value : Json) :
    ∃ d, WriteEnds m name (Text.toUtf8 (encode value)) d ∧
      Model.SameFiles { m with disk := d } (m.run (write name value)).2 := by
  have hlog (n : Model) : n.SameFiles (n.run (log ⟨.warning, "Cannot write " ++ name⟩)).2 :=
    (Model.looksLike_answer (q := .log _) trivial).toSameFiles
  cases hmake : m.disk.makeDirectories m.directory (home name) with
  | error problem =>
    have hmade : m.run (makeDirectories (home name)) = (.error problem, m) := by
      rw [run_makeDirectories, hmake]
      rfl
    refine ⟨m.disk, .unmade hmake, ?_⟩
    rw [write, ← home, Model.run_bind_of_eq hmade]
    exact hlog m
  | ok d =>
    have hmade : m.run (makeDirectories (home name)) = (.ok (), { m with disk := d }) := by
      rw [run_makeDirectories, hmake]
      rfl
    rw [write, ← home, Model.run_bind_of_eq hmade]
    dsimp only
    rw [Model.run_bind, run_writeFile]
    cases hwrite : d.write m.directory name (Text.toUtf8 (encode value)) with
    | error problem => exact ⟨d, .unwritten hmake hwrite, hlog { m with disk := d }⟩
    | ok e => exact ⟨e, .written hmake hwrite, rfl, rfl⟩

/-! ### Documents that stand apart -/

/-- On a disk on which their directory is there, two documents read as on a host and come to
different places. -/
structure Distinct (a b : String) (m : Model) (d : Disk) : Prop where
  grounded : d.Grounded
  left : document { m with disk := d } a = document m a
  right : document { m with disk := d } b = document m b
  places : ∀ place, d.ComesTo m.directory a place → ¬d.ComesTo m.directory b place

/-- Two documents stand in one directory, and they are distinct when it has been made. -/
structure Apart (a b : String) (m : Model) : Prop where
  home : home b = home a
  distinct : ∀ d, m.disk.makeDirectories m.directory (Store.home a) = .ok d → Distinct a b m d

theorem Apart.symm (h : Apart a b m) : Apart b a m where
  home := h.home.symm
  distinct := by
    intro d hd
    rw [h.home] at hd
    obtain ⟨hg, hl, hr, hp⟩ := h.distinct d hd
    exact ⟨hg, hr, hl, fun place hb ha => hp place ha hb⟩

theorem apart_of_sameFiles (hs : m.SameFiles n) (h : Apart a b m) : Apart a b n where
  home := h.home
  distinct := by
    intro d hd
    rw [hs.disk, hs.directory] at hd
    obtain ⟨hg, hl, hr, hp⟩ := h.distinct d hd
    have hsame : Model.SameFiles { m with disk := d } { n with disk := d } := ⟨rfl, hs.directory⟩
    refine ⟨hg, ?_, ?_, ?_⟩
    · rw [document_eq_of_sameFiles hsame, hl, document_eq_of_sameFiles hs]
    · rw [document_eq_of_sameFiles hsame, hr, document_eq_of_sameFiles hs]
    · rw [hs.directory]
      exact hp

/-- Names that come to two places are those of distinct documents. -/
theorem distinct_of_comesTo {q r : Place} (hg : m.disk.Grounded)
    (ha : m.disk.ComesTo m.directory a q) (hb : m.disk.ComesTo m.directory b r) (hqr : q ≠ r) :
    Distinct a b m m.disk where
  grounded := hg
  left := rfl
  right := rfl
  places _ ha' hb' := hqr ((ha.unique ha').trans (hb'.unique hb))

/-- Where the directory is there already, nothing more has to be made. -/
theorem apart_of_distinct (hhome : home b = home a)
    (hd : m.disk.isDirectory m.directory (PathName.normalize (home a)) = .ok true)
    (h : Distinct a b m m.disk) : Apart a b m where
  home := hhome
  distinct := by
    intro d hmake
    rw [Disk.makeDirectories_of_isDirectory hd] at hmake
    cases hmake
    exact h

/-- A file that was written in the prepared directory leaves the other document apart. -/
theorem Distinct.write {d e : Disk} {bytes : List UInt8} (h : Distinct a b m d)
    (hw : d.write m.directory a bytes = .ok e) :
    Distinct a b { m with disk := e } e ∧
      document { m with disk := e } b = document m b := by
  obtain ⟨place, hwritten⟩ := Disk.exists_written hw
  have hother : ¬d.ComesTo m.directory b place := h.places place hwritten.before
  have hread := Disk.read_toOption_of_renews hwritten.renews h.grounded hother
  have hb : document { m with disk := e } b = document m b := by
    rw [← h.right, document_eq, document_eq, hread]
  refine ⟨⟨hwritten.grounded h.grounded, rfl, rfl, ?_⟩, hb⟩
  -- After the write the first name leads to what was written, where the second one never led.
  rintro other ⟨found, hfound, hat⟩ hcomes
  have hplace : place = other := by
    rw [hwritten.after] at hfound
    cases hfound
    exact hat
  exact Disk.not_comesTo_of_renews hwritten.renews h.grounded hother (hplace ▸ hcomes)

/-- Writing one of two documents that are apart leaves the other as it was, and both apart. -/
theorem Apart.run_write (h : Apart a b m) (value : Json) :
    Apart a b (m.run (write a value)).2 ∧
      document (m.run (write a value)).2 b = document m b := by
  obtain ⟨d, hends, hsame⟩ := exists_writeEnds m a value
  suffices hd : Apart a b { m with disk := d } ∧ document { m with disk := d } b = document m b by
    exact ⟨apart_of_sameFiles hsame hd.1, (document_eq_of_sameFiles hsame).trans hd.2⟩
  cases hends with
  | unmade => exact ⟨h, rfl⟩
  | unwritten hmake hwrite =>
    have hdistinct := h.distinct d hmake
    have hthere := Disk.isDirectory_of_makeDirectories hmake
    refine ⟨apart_of_distinct h.home hthere ⟨hdistinct.grounded, rfl, rfl, hdistinct.places⟩, ?_⟩
    exact hdistinct.right
  | @written prepared e hmake hwrite =>
    obtain ⟨hdistinct, hb⟩ := (h.distinct prepared hmake).write hwrite
    obtain ⟨place, hwritten⟩ := Disk.exists_written hwrite
    have hthere := Disk.isDirectory_of_renews hwritten.renews
      (Disk.isDirectory_of_makeDirectories hmake)
    exact ⟨apart_of_distinct h.home hthere hdistinct, hb⟩

/-- A write that fails leaves the document as it was, too. -/
theorem Apart.document_run_write (h : Apart a b m) (hw : ¬canWrite m a = true) (value : Json) :
    document (m.run (write a value)).2 a = document m a := by
  obtain ⟨d, hends, hsame⟩ := exists_writeEnds m a value
  rw [document_eq_of_sameFiles hsame]
  cases hends with
  | unmade => rfl
  | unwritten hmake => exact (h.distinct d hmake).left
  | written hmake hwrite => exact absurd (canWrite_iff.2 ⟨_, _, hmake, hwrite⟩) hw

/-! ### What can be written stays so -/

/-- Where the directory is there, it is enough that the file can be written. -/
theorem canWrite_of_isDirectory {e : Disk} {bytes : List UInt8}
    (hd : m.disk.isDirectory m.directory (PathName.normalize (home name)) = .ok true)
    (hw : m.disk.write m.directory name bytes = .ok e) : canWrite m name = true :=
  canWrite_iff.2 ⟨m.disk, e, Disk.makeDirectories_of_isDirectory hd, hw⟩

/-- A document that can be written can be written again. -/
theorem canWrite_run_write (hw : canWrite m name = true) (value : Json) :
    canWrite (m.run (write name value)).2 name = true := by
  obtain ⟨d, hends, hsame⟩ := exists_writeEnds m name value
  obtain ⟨prepared, e, hmade, hwritable⟩ := canWrite_iff.1 hw
  rw [canWrite_eq_of_sameFiles hsame]
  cases hends with
  | unmade hmake =>
    rw [hmake] at hmade
    cases hmade
  | unwritten hmake hwrite =>
    rw [hmake] at hmade
    cases hmade
    rw [hwrite] at hwritable
    cases hwritable
  | written hmake hwrite =>
    obtain ⟨place, hwritten⟩ := Disk.exists_written hwrite
    obtain ⟨f, hf⟩ := hwritten.exists_write []
    exact canWrite_of_isDirectory (Disk.isDirectory_of_renews hwritten.renews
      (Disk.isDirectory_of_makeDirectories hmake)) hf

/-- A document can be written after another one if it could be before. -/
theorem Apart.canWrite_run_write (h : Apart a b m) (hw : canWrite m b = true) (value : Json) :
    canWrite (m.run (write a value)).2 b = true := by
  obtain ⟨d, hends, hsame⟩ := exists_writeEnds m a value
  obtain ⟨prepared, e, hmade, hwritable⟩ := (@canWrite_iff m b []).1 hw
  rw [canWrite_eq_of_sameFiles hsame]
  rw [h.home] at hmade
  cases hends with
  | unmade => exact hw
  | unwritten hmake =>
    rw [hmake] at hmade
    cases hmade
    refine canWrite_of_isDirectory ?_ hwritable
    rw [h.home]
    exact Disk.isDirectory_of_makeDirectories hmake
  | written hmake hwrite =>
    rw [hmake] at hmade
    cases hmade
    obtain ⟨place, hwritten⟩ := Disk.exists_written hwrite
    obtain ⟨f, hf⟩ := hwritten.exists_write_elsewhere
      ((h.distinct _ hmake).places place hwritten.before) hwritable
    refine canWrite_of_isDirectory ?_ hf
    rw [h.home]
    exact Disk.isDirectory_of_renews hwritten.renews (Disk.isDirectory_of_makeDirectories hmake)

/-! ### The session and the contexts -/

variable {places : Places} {k : Model}

/-- The session and the contexts are different documents in one directory. -/
abbrev Separate (places : Places) (m : Model) : Prop :=
  Apart places.session places.contexts m

/-- The selections and the contexts that are saved on two hosts are the same. -/
structure SavedAlike (places : Places) (m n : Model) : Prop where
  selections : (register places n).selections = (register places m).selections
  contexts : stored places n = stored places m

theorem SavedAlike.trans (h : SavedAlike places m n) (h' : SavedAlike places n k) :
    SavedAlike places m k :=
  ⟨h'.selections.trans h.selections, h'.contexts.trans h.contexts⟩

theorem savedAlike_of_sameFiles (h : m.SameFiles n) : SavedAlike places m n where
  selections := by rw [register_eq_of_document (document_eq_of_sameFiles h)]
  contexts := stored_eq_of_sameFiles h

/-- What an edit of the session leaves of the contexts: all, and as writable as they were. -/
structure KeepsContexts (places : Places) (m n : Model) : Prop where
  separate : Separate places n
  contexts : document n places.contexts = document m places.contexts
  writable : canWrite m places.contexts = true → canWrite n places.contexts = true

theorem Separate.keepsContexts (h : Separate places m) : KeepsContexts places m m :=
  ⟨h, rfl, id⟩

theorem KeepsContexts.stored_eq (h : KeepsContexts places m n) :
    stored places n = stored places m := by
  rw [stored, stored, h.contexts]

theorem KeepsContexts.trans (h : KeepsContexts places m n) (h' : KeepsContexts places n k) :
    KeepsContexts places m k :=
  ⟨h'.separate, h'.contexts.trans h.contexts, h'.writable ∘ h.writable⟩

theorem KeepsContexts.of_sameFiles (h : Separate places m) (hs : m.SameFiles n) :
    KeepsContexts places m n where
  separate := apart_of_sameFiles hs h
  contexts := document_eq_of_sameFiles hs
  writable hw := by rwa [canWrite_eq_of_sameFiles hs]

theorem Separate.run_sessionEdit (h : Separate places m) (edit : SessionEdit) :
    KeepsContexts places m (m.run (edit.perform places).run).2 := by
  cases hs : session places m with
  | error part => exact .of_sameFiles h (SessionEdit.sameFiles_perform_of_error hs edit)
  | ok s =>
    cases hsaved : edit.saved? s with
    | none =>
      rw [SessionEdit.run_perform_of_none hsaved]
      exact h.keepsContexts
    | some t =>
      obtain ⟨o, hsame, hrun⟩ := SessionEdit.exists_run_perform_eq hs hsaved
      have ho := apart_of_sameFiles hsame h
      rw [hrun]
      dsimp only
      refine (KeepsContexts.of_sameFiles h hsame).trans ⟨?_, ?_, ?_⟩
      · exact (ho.run_write t.document).1
      · exact (ho.run_write t.document).2
      · exact fun hw => ho.canWrite_run_write hw t.document

/-- The session can be edited again and again. -/
theorem canWrite_run_sessionEdit (hw : canWrite m places.session = true) (edit : SessionEdit) :
    canWrite (m.run (edit.perform places).run).2 places.session = true := by
  cases hs : session places m with
  | error part =>
    have hsame := SessionEdit.sameFiles_perform_of_error hs edit
    exact (canWrite_eq_of_sameFiles hsame).trans hw
  | ok s =>
    cases hsaved : edit.saved? s with
    | none =>
      rw [SessionEdit.run_perform_of_none hsaved]
      exact hw
    | some t =>
      obtain ⟨o, hsame, hrun⟩ := SessionEdit.exists_run_perform_eq hs hsaved
      have ho : canWrite o places.session = true := (canWrite_eq_of_sameFiles hsame).trans hw
      rw [hrun, saveSession]
      dsimp only
      exact canWrite_run_write ho t.document

/-- A session that cannot be written stays as it is. -/
theorem Separate.document_perform (h : Separate places m)
    (hw : ¬canWrite m places.session = true) (edit : SessionEdit) :
    document (m.run (edit.perform places).run).2 places.session = document m places.session := by
  cases hs : session places m with
  | error part => exact document_eq_of_sameFiles (SessionEdit.sameFiles_perform_of_error hs edit)
  | ok s =>
    cases hsaved : edit.saved? s with
    | none => rw [SessionEdit.run_perform_of_none hsaved]
    | some t =>
      obtain ⟨o, hsame, hrun⟩ := SessionEdit.exists_run_perform_eq hs hsaved
      rw [hrun, ← document_eq_of_sameFiles hsame]
      dsimp only
      exact (apart_of_sameFiles hsame h).document_run_write
        (by rwa [canWrite_eq_of_sameFiles hsame]) t.document

/-- A session that can be read can be read after an edit, even if that goes wrong. -/
theorem exists_session_perform {s : Session} (hs : session places m = .ok s)
    (h : canWrite m places.session = true ∨ Separate places m) (edit : SessionEdit) :
    ∃ t, session places (m.run (edit.perform places).run).2 = .ok t := by
  by_cases hw : canWrite m places.session = true
  · cases hsaved : edit.saved? s with
    | none =>
      rw [SessionEdit.run_perform_of_none hsaved]
      exact ⟨s, hs⟩
    | some t =>
      obtain ⟨n, hn, hdoc⟩ := SessionEdit.exists_run_perform (fun _ _ _ => hw) hs hsaved
      rw [hn]
      exact ⟨_, session_eq_ok_iff.2 ⟨_, hdoc, rfl⟩⟩
  · refine ⟨s, ?_⟩
    rw [session, (h.resolve_left hw).document_perform hw edit]
    exact hs

/-- Saving the root keeps the selections and the contexts, even if it goes wrong. -/
theorem Separate.savedAlike_saveLast (h : Separate places m) (root : Option Utf16) :
    SavedAlike places m (m.run (saveLast places root).run).2 where
  selections := by
    let edit := SessionEdit.saveLast root
    change (register places (m.run (edit.perform places).run).2).selections = _
    by_cases hw : canWrite m places.session = true
    · rw [SessionEdit.register_perform fun _ _ _ => hw]
      rfl
    · rw [register_eq_of_document (h.document_perform hw (.saveLast root))]
  contexts := (h.run_sessionEdit (.saveLast root)).stored_eq

theorem Separate.document_saveContexts (h : Separate places m) (list : List SavedContext) :
    document (m.run (saveContexts places list)).2 places.session = document m places.session := by
  obtain ⟨-, hkept⟩ := h.symm.run_write (.array (list.map SavedContext.toRecord))
  exact hkept

/-- Saving a context keeps the session. -/
theorem Separate.document_saveContext (h : Separate places m) (name root : Utf16)
    (paths : List String) :
    document (m.run (saveContext places name root paths).run).2 places.session =
      document m places.session := by
  by_cases hb : name.trim = "" ∨ root = ""
  · rw [run_saveContext_of_refused hb]
  · obtain ⟨o, hload, hsame, -⟩ := exists_run_loadContexts places m
    -- Both ways of saving end alike; for a new context an identifier has been used up before.
    have hkept (p : Model) (hp : o.SameFiles p) (list : List SavedContext) (answer : SavedContext) :
        document (p.run (do
          saveContexts places list
          return some answer : Reading (Option SavedContext)).run).2 places.session =
            document m places.session := by
      have hmp := hsame.trans hp
      rw [Model.runT_bind_pure, Model.runT_lift, ← document_eq_of_sameFiles hmp]
      dsimp only
      exact Separate.document_saveContexts (apart_of_sameFiles hmp h) list
    have hid : o.run freshId = ((o.run freshId).1, { o with idsUsed := o.idsUsed + 1 }) := rfl
    rw [saveContext]
    dsimp only
    rw [if_neg (by simpa using hb)]
    cases hl : stored places m with
    | error part =>
      rw [hl] at hload
      rw [Model.runT_bind_of_error hload]
      exact document_eq_of_sameFiles hsame
    | ok list =>
      rw [hl] at hload
      rw [Model.runT_bind_of_eq hload]
      split
      · exact hkept o ⟨rfl, rfl⟩ _ _
      · rw [Model.runT_lift_bind, hid]
        exact hkept { o with idsUsed := o.idsUsed + 1 } ⟨rfl, rfl⟩ _ _

end FileSieve.Store
