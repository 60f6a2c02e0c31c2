import FileSieve.Proofs.Files.Rewriting
import FileSieve.Proofs.Host.Running
import FileSieve.Proofs.Store.Documents

/-! # Documents on a host

A document that was written is the one that is read from then on, as long as the files stay as they
are. Reading changes no file, whatever stands in the way of it, and so does reading that stops. -/

namespace FileSieve.Store

open Host Program

/-! ### Reading -/

variable {m n : Model} {name : String}

/-- What a file is read as; `none` is one that is missing or cannot be read. -/
def readAs : Option (List UInt8) → Except Json.Overflow (Option Json)
  | none => .ok none
  | some bytes =>
    match decode bytes with
    | .ok value => .ok (some value)
    | .error (.tooDeep part) => .error part
    | .error .malformed => .ok none

/-- The document that is read on a host, or why reading stops. -/
def document (m : Model) (name : String) : Except Json.Overflow (Option Json) :=
  (read name).run.eval m.reply

theorem document_eq (m : Model) (name : String) :
    document m name = readAs (m.disk.read m.directory name).toOption := by
  rw [document, read, eval_run_lift_bind, Model.eval_readFile]
  cases m.disk.read m.directory name with
  | ok bytes =>
    rw [Except.toOption, readAs]
    dsimp only
    cases decode bytes with
    | ok value => rfl
    | error fault => cases fault <;> rfl
  | error problem =>
    obtain ⟨cause, path⟩ := problem
    cases cause <;> rfl

theorem looksT_read (name : String) : LooksT (read name) := by
  have hlog : LooksT (do
      log (unreadable name)
      return none : Reading (Option Json)) :=
    (looksT_lift (looks_ask (.log _) trivial)).bind fun _ => looksT_pure none
  apply (looksT_lift (looks_ask (.readFile name) trivial)).bind
  intro result
  cases result with
  | ok bytes =>
    dsimp only
    cases decode bytes with
    | ok value => exact looksT_pure (some value)
    | error fault => cases fault with
      | malformed => exact hlog
      | tooDeep part => exact looksT_throw part
  | error problem =>
    obtain ⟨cause, path⟩ := problem
    cases cause with
    | notFound => exact looksT_pure none
    | _ => exact hlog

theorem exists_run_read (name : String) (m : Model) :
    ∃ n, m.run (read name).run = (document m name, n) ∧ m.SameFiles n ∧
      n.idsUsed = m.idsUsed := by
  obtain ⟨n, hn, hlike⟩ := Model.exists_run_of_looks (looksT_read name) m
  have hids := Model.idsUsed_run_of_looks (looksT_read name) m
  rw [hn] at hids
  exact ⟨n, hn, hlike.toSameFiles, hids⟩

/-- What is made of a document comes to nothing more than reading it. -/
theorem exists_run_load {α : Type} (name : String) (f : Option Json → α) (m : Model) :
    ∃ n, m.run (read name >>= fun data => pure (f data)).run = ((document m name).map f, n) ∧
      m.SameFiles n ∧ n.idsUsed = m.idsUsed := by
  obtain ⟨n, hn, hsame, hids⟩ := exists_run_read name m
  refine ⟨n, ?_, hsame, hids⟩
  rw [Model.runT_bind_pure, hn]

theorem document_eq_of_sameFiles (h : m.SameFiles n) : document n name = document m name :=
  h.eval_eq (looksT_read name)

theorem document_of_decode {bytes : List UInt8} {value : Json}
    (hr : m.disk.read m.directory name = .ok bytes) (hd : decode bytes = .ok value) :
    document m name = .ok (some value) := by
  rw [document_eq, hr, Except.toOption, readAs, hd]

/-- A document that is read can be written. -/
theorem writable_document {value : Json} (h : document m name = .ok (some value)) :
    Json.Writable Json.nestingLimit value := by
  rw [document_eq, readAs.eq_def] at h
  split at h
  · cases h
  · split at h
    · next hd =>
      cases h
      exact writable_of_decode hd
    · cases h
    · cases h

/-! ### Writing -/

/-- Whether a file can be written with a name, in a directory that is made if it is missing. -/
def canWrite (m : Model) (name : String) : Bool :=
  (do
    let d ← m.disk.makeDirectories m.directory (PathName.ofText name).parent.toText
    d.write m.directory name []).toOption.isSome

/-- Whether a file can be written does not depend on its contents. -/
theorem exists_write {d e : Disk} {directory : Place} {bytes : List UInt8}
    (h : d.write directory name bytes = .ok e) (more : List UInt8) :
    ∃ e, d.write directory name more = .ok e := by
  rw [Disk.write, Disk.blame_eq_ok] at h
  simp only [Disk.write, Disk.blame_eq_ok]
  cases hl : d.locate true directory name with
  | error cause =>
    rw [hl] at h
    cases h
  | ok found =>
    rw [hl] at h
    cases found with
    | link => cases h
    | item place item => cases item with
      | file old => exact ⟨_, rfl⟩
      | link | directory => cases h
    | missing place slashAfter => cases slashAfter with
      | false => exact ⟨_, rfl⟩
      | true => cases h

theorem exists_of_canWrite (h : canWrite m name = true) :
    ∃ d, m.disk.makeDirectories m.directory (PathName.ofText name).parent.toText = .ok d ∧
      ∀ bytes, ∃ e, d.write m.directory name bytes = .ok e := by
  rw [canWrite] at h
  cases hd : m.disk.makeDirectories m.directory (PathName.ofText name).parent.toText with
  | error problem =>
    rw [hd] at h
    cases h
  | ok d =>
    rw [hd] at h
    change (d.write m.directory name []).toOption.isSome = true at h
    cases he : d.write m.directory name [] with
    | error problem =>
      rw [he] at h
      cases h
    | ok e => exact ⟨d, rfl, exists_write he⟩

theorem run_makeDirectories (m : Model) (name : String) :
    m.run (makeDirectories name) = m.commit (m.disk.makeDirectories m.directory name) := rfl

theorem run_writeFile (m : Model) (name text : String) :
    m.run (writeFile name text) =
      m.commit (m.disk.write m.directory name (Text.toUtf8 text)) := rfl

/-- What was written stands where it is read. -/
theorem run_write (h : canWrite m name = true) (value : Json) :
    ∃ n, m.run (write name value) = ((), n) ∧ n.directory = m.directory ∧
      n.disk.read n.directory name = .ok (Text.toUtf8 (encode value)) := by
  obtain ⟨d, hd, hwrite⟩ := exists_of_canWrite h
  obtain ⟨e, he⟩ := hwrite (Text.toUtf8 (encode value))
  refine ⟨{ m with disk := e }, ?_, rfl, Disk.read_of_write he⟩
  have hmade : m.run (makeDirectories (PathName.ofText name).parent.toText) =
      (.ok (), { m with disk := d }) := by
    rw [run_makeDirectories, hd]
    rfl
  have hwritten : ({ m with disk := d } : Model).run (writeFile name (encode value)) =
      (.ok (), { m with disk := e }) := by
    rw [run_writeFile]
    dsimp only
    rw [he]
    rfl
  rw [write, Model.run_bind_of_eq hmade]
  exact Model.run_bind_of_eq hwritten _

/-- A document is read as it was written. -/
theorem exists_run_write (h : canWrite m name = true) {value : Json}
    (hv : Json.Writable Json.nestingLimit value) :
    ∃ n, m.run (write name value) = ((), n) ∧ document n name = .ok (some value) := by
  obtain ⟨n, hn, -, hread⟩ := run_write h value
  exact ⟨n, hn, document_of_decode hread (decode_encode hv)⟩

theorem quiet_write (name : String) (value : Json) : Quiet (write name value) := by
  have hfailed : Quiet (log ⟨.warning, "Cannot write " ++ name⟩) := quiet_ask (.log _) trivial
  apply (quiet_ask (.makeDirectories _) trivial).bind
  intro made
  cases made with
  | ok _ =>
    apply (quiet_ask (.writeFile name (encode value)) trivial).bind
    intro written
    cases written with
    | ok _ => trivial
    | error problem => exact hfailed
  | error problem => exact hfailed

theorem canWrite_eq_of_sameFiles (h : m.SameFiles n) : canWrite n name = canWrite m name := by
  rw [canWrite, canWrite, h.disk, h.directory]

/-! ### Runs

A store is used one step after the other. In between the rest of the host may change in any way, as
long as the document is read as it was left. -/

/-- A host that a run of uses of a document leads to from another one. The uses are listed with the
hosts they were made on, the last one first. -/
inductive LeadsTo {ε α : Type} (name : String) (perform : ε → Reading α) (m : Model) :
    List (Model × ε) → Model → Prop
  | refl : LeadsTo name perform m [] m
  | meanwhile {uses : List (Model × ε)} {n o : Model} (h : LeadsTo name perform m uses n)
      (hd : document o name = document n name) : LeadsTo name perform m uses o
  | use {uses : List (Model × ε)} {n : Model} (h : LeadsTo name perform m uses n) (e : ε) :
      LeadsTo name perform m ((n, e) :: uses) (n.run (perform e).run).2

/-- What depends on the document alone and is kept by each allowed use is kept by a run of them. -/
theorem LeadsTo.invariant {ε α : Type} {perform : ε → Reading α} {uses : List (Model × ε)}
    {allowed : Model × ε → Prop} {P : List (Model × ε) → Model → Prop}
    (h : LeadsTo name perform m uses n) (ha : ∀ use ∈ uses, allowed use) (hm : P [] m)
    (hsame : ∀ uses n o, document o name = document n name → P uses n → P uses o)
    (huse : ∀ uses n e, allowed (n, e) → P uses n →
      P ((n, e) :: uses) (n.run (perform e).run).2) :
    P uses n := by
  induction h with
  | refl => exact hm
  | meanwhile _ hd ih => exact hsame _ _ _ hd (ih ha)
  | use _ e ih =>
    obtain ⟨he, ha⟩ := List.forall_mem_cons.1 ha
    exact huse _ _ e he (ih ha)

end FileSieve.Store
