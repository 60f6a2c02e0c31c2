import FileSieve.Proofs.Store.Storing
import FileSieve.Store.Session
import Mathlib.Logic.Function.Basic

/-! # The session as a register and a map

Whatever a session file holds, it acts as a register for the root that was scanned last and as a map
from roots to selections. Each save reads the whole document and writes it with one field changed,
so what the other fields hold stays. -/

namespace FileSieve.Store

open Host Program

/-! ### Fields of a session -/

/-- The fields of a document, none if it is missing or no object. -/
def fieldsOf : Option Json → List (Utf16 × Json)
  | some (.object given) => given
  | _ => []

/-- The fields of a document that can be written. -/
abbrev Storable (fields : List (Utf16 × Json)) : Prop :=
  Json.WritableFields (Json.nestingLimit - 1) fields

theorem writable_object_iff {fields : List (Utf16 × Json)} :
    Json.Writable Json.nestingLimit (.object fields) ↔ Storable fields :=
  Json.writable_object_iff

namespace Session

variable {s : Session} {data : Option Json} {name : Utf16} {byRoot : List (Utf16 × Json)}

theorem lastField_ne : lastField ≠ selectionsField := by decide

/-- A session as it is read: it can be written, the last root has a field, and the selections are an
object. -/
structure Settled (s : Session) : Prop where
  storable : Storable s.fields
  last : ∃ value, s.fields.lookup lastField = some value
  selections : ∃ byRoot, s.fields.lookup selectionsField = some (.object byRoot)

theorem storable_blank : Storable blank := by
  refine ⟨?_, by decide⟩
  simp only [blank, List.forall_mem_cons]
  exact ⟨.null _, Json.writable_object_nil _, List.forall_mem_nil _⟩

theorem lookup_blank (hl : name ≠ lastField) (hs : name ≠ selectionsField) :
    blank.lookup name = none := by
  have hl : (name == lastField) = false := by simpa using hl
  have hs : (name == selectionsField) = false := by simpa using hs
  simp [blank, List.lookup_cons, hl, hs]

theorem ofDocument_eq (data : Option Json) :
    ofDocument data =
      match (Json.setFields (fieldsOf data) blank).lookup selectionsField with
      | some (.object _) => ⟨Json.setFields (fieldsOf data) blank⟩
      | _ => ⟨Json.setField selectionsField (.object [])
        (Json.setFields (fieldsOf data) blank)⟩ := by
  cases data with
  | none => rfl
  | some value => cases value <;> rfl

theorem ofDocument_of_object
    (h : (Json.setFields (fieldsOf data) blank).lookup selectionsField = some (.object byRoot)) :
    ofDocument data = ⟨Json.setFields (fieldsOf data) blank⟩ := by
  rw [ofDocument_eq, h]

/-- Another field than the selections is that of the document. -/
theorem lookup_ofDocument (hn : ((fieldsOf data).map Prod.fst).Nodup) (h : name ≠ selectionsField) :
    (ofDocument data).fields.lookup name =
      ((fieldsOf data).lookup name).or (blank.lookup name) := by
  rw [ofDocument_eq, ← Json.lookup_setFields hn]
  split
  · rfl
  · exact Json.lookup_setField_of_ne h _ _

theorem settled_ofDocument (hd : Storable (fieldsOf data)) : (ofDocument data).Settled := by
  have hfields := storable_blank.setFields hd.values
  refine ⟨?_, ?_, ?_⟩
  · rw [ofDocument_eq]
    split
    · exact hfields
    · exact hfields.setField (Json.writable_object_nil _) _
  · rw [lookup_ofDocument hd.names lastField_ne]
    cases (fieldsOf data).lookup lastField with
    | none => exact ⟨_, rfl⟩
    | some value => exact ⟨value, rfl⟩
  · rw [ofDocument_eq]
    split
    · next byRoot h => exact ⟨byRoot, h⟩
    · exact ⟨[], Json.lookup_setField_self _ _ _⟩

/-- A field that a document has is kept, except for selections that are no object. -/
theorem lookup_ofDocument_of_some (hn : ((fieldsOf data).map Prod.fst).Nodup) {value : Json}
    (h : (fieldsOf data).lookup name = some value)
    (hv : name = selectionsField → ∃ byRoot, value = .object byRoot) :
    (ofDocument data).fields.lookup name = some value := by
  by_cases hs : name = selectionsField
  · obtain ⟨byRoot, rfl⟩ := hv hs
    subst hs
    have hobject : (Json.setFields (fieldsOf data) blank).lookup selectionsField =
        some (.object byRoot) := by
      rw [Json.lookup_setFields hn, h]
      rfl
    rw [ofDocument_of_object hobject]
    exact hobject
  · rw [lookup_ofDocument hn hs, h]
    rfl

/-- A settled session is read as it was written. -/
theorem Settled.lookup_reread (h : s.Settled) (name : Utf16) :
    (ofDocument (some s.document)).fields.lookup name = s.fields.lookup name := by
  have hfields (name : Utf16) : (Json.setFields s.fields blank).lookup name =
      (s.fields.lookup name).or (blank.lookup name) :=
    Json.lookup_setFields h.storable.names blank name
  obtain ⟨last, hlast⟩ := h.last
  obtain ⟨byRoot, hselections⟩ := h.selections
  have hobject : (Json.setFields (fieldsOf (some s.document)) blank).lookup selectionsField =
      some (.object byRoot) := by
    rw [document, fieldsOf, hfields, hselections]
    rfl
  rw [ofDocument_of_object hobject, document, fieldsOf]
  dsimp only
  rw [hfields]
  cases hn : s.fields.lookup name with
  | some value => rfl
  | none =>
    have hl : name ≠ lastField := by
      rintro rfl
      rw [hlast] at hn
      cases hn
    have hs : name ≠ selectionsField := by
      rintro rfl
      rw [hselections] at hn
      cases hn
    rw [Option.none_or, lookup_blank hl hs]

theorem Settled.setField (h : s.Settled) {value : Json}
    (hw : Json.Writable (Json.nestingLimit - 1) value)
    (hv : name = selectionsField → ∃ byRoot, value = .object byRoot) :
    Settled ⟨Json.setField name value s.fields⟩ := by
  refine ⟨h.storable.setField hw name, ?_, ?_⟩
  · by_cases hn : lastField = name
    · exact ⟨value, by rw [hn, Json.lookup_setField_self]⟩
    · rw [Json.lookup_setField_of_ne hn]
      exact h.last
  · by_cases hn : selectionsField = name
    · obtain ⟨byRoot, rfl⟩ := hv hn.symm
      exact ⟨byRoot, by rw [hn, Json.lookup_setField_self]⟩
    · rw [Json.lookup_setField_of_ne hn]
      exact h.selections

theorem Settled.setLast (h : s.Settled) (root : Option Utf16) : (s.setLast root).Settled := by
  refine h.setField ?_ fun he => absurd he lastField_ne
  cases root with
  | none => exact .null _
  | some root => exact .string _ root

theorem Settled.setSelection (h : s.Settled) (root : Utf16) (paths : List String) :
    (s.setSelection root paths).Settled := by
  have hbyRoot : Json.WritableFields (Json.nestingLimit - 2) s.selections := by
    obtain ⟨byRoot, hselections⟩ := h.selections
    obtain ⟨front, back, hfields, -⟩ := List.lookup_eq_some_iff.1 hselections
    have hmem : (selectionsField, Json.object byRoot) ∈ s.fields := by
      rw [hfields]
      exact List.mem_append_right _ List.mem_cons_self
    rw [Session.selections, hselections]
    exact Json.writable_object_iff.1 (h.storable.values _ hmem)
  refine h.setField (Json.writable_object_iff.2 ?_) fun _ => ⟨_, rfl⟩
  exact hbyRoot.setField (Json.writable_texts _ _) root

theorem last?_setLast (s : Session) (root : Option Utf16) :
    (s.setLast root).last? = root.filter (· ≠ ("" : Utf16)) := by
  rw [last?, setLast, Json.lookup_setField_self]
  cases root <;> rfl

theorem selectionOf_setLast (s : Session) (last : Option Utf16) (root : Utf16) :
    (s.setLast last).selectionOf root = s.selectionOf root := by
  rw [selectionOf, selections, setLast, Json.lookup_setField_of_ne (Ne.symm lastField_ne)]
  rfl

theorem last?_setSelection (s : Session) (root : Utf16) (paths : List String) :
    (s.setSelection root paths).last? = s.last? := by
  rw [last?, setSelection, Json.lookup_setField_of_ne lastField_ne]
  rfl

theorem selections_setSelection (s : Session) (root : Utf16) (paths : List String) :
    (s.setSelection root paths).selections =
      Json.setField root (.texts (paths.map Utf16.ofString)) s.selections := by
  rw [selections, setSelection, Json.lookup_setField_self]

theorem selectionOf_setSelection (s : Session) (root other : Utf16) (paths : List String) :
    (s.setSelection root paths).selectionOf other =
      if other = root then paths.map Utf16.ofString else s.selectionOf other := by
  rw [selectionOf, selections_setSelection]
  split_ifs with h
  · rw [h, Json.lookup_setField_self, Json.texts]
    dsimp only
    rw [List.filterMap_map]
    exact List.filterMap_some
  · rw [Json.lookup_setField_of_ne h]
    rfl

theorem last?_congr {t : Session} (h : s.fields.lookup lastField = t.fields.lookup lastField) :
    s.last? = t.last? := by
  rw [last?, last?, h]

theorem selectionOf_congr {t : Session}
    (h : s.fields.lookup selectionsField = t.fields.lookup selectionsField) (root : Utf16) :
    s.selectionOf root = t.selectionOf root := by
  rw [selectionOf, selectionOf, selections, selections, h]

end Session

/-! ### The session of a host -/

variable {places : Places} {m n : Model} {s : Session} {name : Utf16} {data : Option Json}
  {part : Json.Overflow}

theorem storable_of_document {name : String} (h : document m name = .ok data) :
    Storable (fieldsOf data) := by
  cases data with
  | none => exact Json.writableFields_nil _
  | some value =>
    cases value with
    | object given => exact writable_object_iff.1 (writable_document h)
    | _ => exact Json.writableFields_nil _

/-- The session that is read on a host, or why reading stops. -/
def session (places : Places) (m : Model) : Except Json.Overflow Session :=
  (document m places.session).map Session.ofDocument

theorem session_eq_ok_iff : session places m = .ok s ↔
    ∃ data, document m places.session = .ok data ∧ Session.ofDocument data = s := by
  rw [session]
  cases document m places.session with
  | error part => exact iff_of_false nofun nofun
  | ok data =>
    exact ⟨fun h => ⟨data, rfl, Except.ok.inj h⟩, fun ⟨_, hd, h⟩ => by cases hd; rw [← h]; rfl⟩

theorem session_eq_of_sameFiles (h : m.SameFiles n) : session places n = session places m := by
  rw [session, session, document_eq_of_sameFiles h]

theorem settled_session (h : session places m = .ok s) : s.Settled := by
  obtain ⟨data, hd, rfl⟩ := session_eq_ok_iff.1 h
  exact Session.settled_ofDocument (storable_of_document hd)

theorem looksT_loadSession (places : Places) : LooksT (loadSession places) :=
  (looksT_read places.session).bind fun data => looksT_pure (Session.ofDocument data)

theorem looksT_loadLast (places : Places) : LooksT (loadLast places) :=
  (looksT_loadSession places).bind fun s => looksT_pure s.last?

theorem looksT_loadSelection (places : Places) (root : Utf16) :
    LooksT (loadSelection places root) := by
  unfold loadSelection
  split
  · exact looksT_pure []
  · exact (looksT_loadSession places).bind fun s => looksT_pure (s.selectionOf root)

theorem exists_run_loadSession (places : Places) (m : Model) :
    ∃ n, m.run (loadSession places).run = (session places m, n) ∧ m.SameFiles n := by
  obtain ⟨n, hn, hsame, -⟩ := exists_run_load places.session Session.ofDocument m
  exact ⟨n, hn, hsame⟩

theorem run_loadLast (places : Places) (m : Model) :
    (m.run (loadLast places).run).1 = (session places m).map Session.last? := by
  obtain ⟨n, hn, -⟩ := exists_run_loadSession places m
  rw [loadLast, Model.runT_bind_pure, hn]

theorem run_loadSelection (places : Places) (m : Model) (root : Utf16) :
    (m.run (loadSelection places root).run).1 =
      if root = "" then .ok [] else (session places m).map fun s => s.selectionOf root := by
  obtain ⟨n, hn, -⟩ := exists_run_loadSession places m
  rw [loadSelection]
  split_ifs
  · rfl
  · rw [Model.runT_bind_pure, hn]

/-- Saving a root stops only where the session cannot be loaded. -/
theorem run_saveLast (places : Places) (m : Model) (root : Option Utf16) :
    (m.run (saveLast places root).run).1 = (session places m).map fun _ => () := by
  obtain ⟨n, hn, -⟩ := exists_run_loadSession places m
  rw [saveLast, Model.runT_bind, hn]
  cases session places m with
  | ok s =>
    dsimp only
    rw [Model.runT_lift]
    generalize n.run (saveSession places (s.setLast root)) = ended
    rfl
  | error part => rfl

theorem exists_run_saveSession (hw : canWrite m places.session = true) (hs : s.Settled) :
    ∃ n, m.run (saveSession places s) = ((), n) ∧
      document n places.session = .ok (some s.document) :=
  exists_run_write hw (writable_object_iff.2 hs.storable)

/-- A field of the session file on a host. -/
def fieldOn (places : Places) (m : Model) (name : Utf16) : Option Json :=
  (document m places.session).toOption.bind fun data => (fieldsOf data).lookup name

theorem fieldOn_eq_of_sameFiles (h : m.SameFiles n) :
    fieldOn places n name = fieldOn places m name := by
  rw [fieldOn, fieldOn, document_eq_of_sameFiles h]

/-! ### The register and the map -/

/-- The root that was scanned last and the selections of all roots, or why they cannot be loaded. -/
structure Register where
  last : Except Json.Overflow (Option Utf16)
  selections : Utf16 → Except Json.Overflow (List Utf16)

/-- What a session file is read as. -/
def register (places : Places) (m : Model) : Register where
  last := (m.run (loadLast places).run).1
  selections root := (m.run (loadSelection places root).run).1

/-- What a session is loaded as. -/
def registerOf (found : Except Json.Overflow Session) : Register where
  last := found.map Session.last?
  selections root := if root = "" then .ok [] else found.map fun s => s.selectionOf root

theorem register_eq (places : Places) (m : Model) :
    register places m = registerOf (session places m) := by
  rw [register, registerOf, run_loadLast]
  congr 1
  funext root
  exact run_loadSelection places m root

theorem register_eq_of_document (h : document n places.session = document m places.session) :
    register places n = register places m := by
  rw [register_eq, register_eq, session, session, h]

theorem selections_register (places : Places) (m : Model) {root : Utf16} (hr : root ≠ "") :
    (register places m).selections root = (session places m).map fun s => s.selectionOf root := by
  rw [register_eq, registerOf]
  exact if_neg hr

/-- A session is there to be read wherever the last root is. -/
theorem exists_session_of_last {last : Option Utf16} (h : (register places m).last = .ok last) :
    ∃ s, session places m = .ok s := by
  rw [register_eq, registerOf] at h
  cases hs : session places m with
  | ok s => exact ⟨s, rfl⟩
  | error part =>
    rw [hs] at h
    cases h

/-- A session is there to be read wherever a selection is. -/
theorem exists_session_of_selections {root : Utf16} {list : List Utf16} (hr : root ≠ "")
    (h : (register places m).selections root = .ok list) : ∃ s, session places m = .ok s := by
  rw [selections_register places m hr] at h
  cases hs : session places m with
  | ok s => exact ⟨s, rfl⟩
  | error part =>
    rw [hs] at h
    cases h

/-- A settled session is read as what it was written for. -/
theorem Session.Settled.registerOf_reread (h : s.Settled) :
    registerOf (.ok (Session.ofDocument (some s.document))) = registerOf (.ok s) := by
  have hlast : (Session.ofDocument (some s.document)).last? = s.last? :=
    Session.last?_congr (h.lookup_reread _)
  have hselection (root : Utf16) :
      (Session.ofDocument (some s.document)).selectionOf root = s.selectionOf root :=
    Session.selectionOf_congr (h.lookup_reread _) root
  simp only [registerOf, Except.map, hlast, hselection]

/-- An edit of the session. -/
inductive SessionEdit where
  | saveLast (root : Option Utf16)
  | saveSelection (root : Utf16) (paths : List String)

/-- A register after an edit. The empty root is none, and has no selection. What cannot be loaded is
not replaced. -/
def Register.after (r : Register) : SessionEdit → Register
  | .saveLast root => { r with last := r.last.map fun _ => root.filter (· ≠ ("" : Utf16)) }
  | .saveSelection root paths =>
    if root = "" then r
    else
      { r with
        selections := Function.update r.selections root
          ((r.selections root).map fun _ => (sortPaths paths).map Utf16.ofString) }

theorem Register.selections_after {root : Utf16} (hr : root ≠ "") (r : Register)
    (paths : List String) (other : Utf16) :
    (r.after (.saveSelection root paths)).selections other =
      if other = root then (r.selections root).map fun _ => (sortPaths paths).map Utf16.ofString
      else r.selections other := by
  rw [after, if_neg hr]
  exact Function.update_apply r.selections root _ other

/-- Where nothing can be loaded, no edit changes anything. -/
theorem registerOf_error_after (part : Json.Overflow) (edit : SessionEdit) :
    (registerOf (.error part)).after edit = registerOf (.error part) := by
  cases edit with
  | saveLast root => rfl
  | saveSelection root paths =>
    rw [Register.after]
    split_ifs with hr
    · rfl
    · have hsame : ((registerOf (.error part)).selections root).map
          (fun _ => (sortPaths paths).map Utf16.ofString) =
            (registerOf (.error part)).selections root := by
        rw [registerOf]
        dsimp only
        rw [if_neg hr]
        rfl
      rw [hsame, Function.update_eq_self]

namespace SessionEdit

variable {edit : SessionEdit} {t : Session} {value : Json}

def perform (places : Places) : SessionEdit → Reading Unit
  | saveLast root => Store.saveLast places root
  | saveSelection root paths => Store.saveSelection places root paths

/-- The name of the field that an edit sets. -/
def field : SessionEdit → Utf16
  | saveLast _ => Session.lastField
  | saveSelection _ _ => Session.selectionsField

/-- The session that an edit saves, if it saves one. -/
def saved? (s : Session) : SessionEdit → Option Session
  | saveLast root => some (s.setLast root)
  | saveSelection root paths =>
    if root = "" then none else some (s.setSelection root (sortPaths paths))

/-- The session file can be written, if the edit saves anything. -/
def Writes (places : Places) (m : Model) (edit : SessionEdit) : Prop :=
  ∀ s, session places m = .ok s → (edit.saved? s).isSome = true →
    canWrite m places.session = true

theorem settled_saved? (hs : s.Settled) (h : edit.saved? s = some t) : t.Settled := by
  cases edit with
  | saveLast root =>
    cases h
    exact hs.setLast root
  | saveSelection root paths =>
    rw [saved?] at h
    split_ifs at h
    cases h
    exact hs.setSelection root (sortPaths paths)

theorem registerOf_saved? (h : edit.saved? s = some t) :
    registerOf (.ok t) = (registerOf (.ok s)).after edit := by
  cases edit with
  | saveLast root =>
    cases h
    simp only [registerOf, Register.after, Except.map, Session.last?_setLast,
      Session.selectionOf_setLast]
  | saveSelection root paths =>
    rw [saved?] at h
    split_ifs at h with hr
    cases h
    rw [Register.after, if_neg hr]
    simp only [registerOf, Except.map, Session.last?_setSelection]
    congr 1
    funext other
    rw [Session.selectionOf_setSelection, Function.update_apply]
    by_cases ho : other = root
    · rw [ho, if_neg hr, if_pos rfl, if_pos rfl, if_neg hr]
    · rw [if_neg ho, if_neg ho]

/-- An edit that saves nothing leaves the register as it is. -/
theorem after_of_saved?_eq_none (h : edit.saved? s = none) (r : Register) : r.after edit = r := by
  cases edit with
  | saveLast root => cases h
  | saveSelection root paths =>
    rw [saved?] at h
    split_ifs at h with hr
    rw [Register.after, if_pos hr]

/-- Other fields than the one that is set are saved as they were. -/
theorem lookup_saved? (h : edit.saved? s = some t) (hname : name ≠ edit.field) :
    t.fields.lookup name = s.fields.lookup name := by
  cases edit with
  | saveLast root =>
    cases h
    exact Json.lookup_setField_of_ne hname _ _
  | saveSelection root paths =>
    rw [saved?] at h
    split_ifs at h
    cases h
    exact Json.lookup_setField_of_ne hname _ _

theorem run_perform_of_none (h : edit.saved? s = none) :
    m.run (edit.perform places).run = (.ok (), m) := by
  cases edit with
  | saveLast root => cases h
  | saveSelection root paths =>
    rw [saved?] at h
    split_ifs at h with hr
    rw [perform, Store.saveSelection, if_pos hr]
    rfl

/-- An edit that saves anything reads the session and writes it. -/
theorem exists_run_perform_eq (hs : session places m = .ok s) (h : edit.saved? s = some t) :
    ∃ o, m.SameFiles o ∧
      m.run (edit.perform places).run = (.ok (), (o.run (saveSession places t)).2) := by
  obtain ⟨o, hload, hsame⟩ := exists_run_loadSession places m
  rw [hs] at hload
  refine ⟨o, hsame, ?_⟩
  cases edit with
  | saveLast root =>
    cases h
    rw [perform, Store.saveLast, Model.runT_bind_of_eq hload, Model.runT_lift]
  | saveSelection root paths =>
    rw [saved?] at h
    split_ifs at h with hr
    cases h
    rw [perform, Store.saveSelection, if_neg hr, Model.runT_bind_of_eq hload, Model.runT_lift]

/-- Where the session is nested too deeply to be read, an edit stops before anything is written. -/
theorem sameFiles_perform_of_error (h : session places m = .error part) (edit : SessionEdit) :
    m.SameFiles (m.run (edit.perform places).run).2 := by
  obtain ⟨o, hload, hsame⟩ := exists_run_loadSession places m
  rw [h] at hload
  cases edit with
  | saveLast root =>
    rw [perform, Store.saveLast, Model.runT_bind_of_error hload]
    exact hsame
  | saveSelection root paths =>
    rw [perform, Store.saveSelection]
    split_ifs
    · exact ⟨rfl, rfl⟩
    · rw [Model.runT_bind_of_error hload]
      exact hsame

/-- An edit stops only where the session cannot be loaded. -/
theorem exists_run_perform_ok (hs : session places m = .ok s) (edit : SessionEdit) :
    ∃ n, m.run (edit.perform places).run = (.ok (), n) := by
  cases h : edit.saved? s with
  | none => exact ⟨m, run_perform_of_none h⟩
  | some t =>
    obtain ⟨o, -, hrun⟩ := exists_run_perform_eq hs h
    exact ⟨_, hrun⟩

theorem sameFiles_of_run_perform (edit : SessionEdit)
    (h : m.run (edit.perform places).run = (.error part, n)) : m.SameFiles n := by
  cases hs : session places m with
  | error found =>
    have hsame := sameFiles_perform_of_error hs edit
    rwa [h] at hsame
  | ok s =>
    obtain ⟨k, hk⟩ := exists_run_perform_ok hs edit
    rw [hk] at h
    cases h

theorem exists_run_perform (hw : edit.Writes places m) (hs : session places m = .ok s)
    (h : edit.saved? s = some t) :
    ∃ n, m.run (edit.perform places).run = (.ok (), n) ∧
      document n places.session = .ok (some t.document) := by
  have hcan : canWrite m places.session = true := hw s hs (by rw [h]; rfl)
  have ht := settled_saved? (settled_session hs) h
  obtain ⟨o, hsame, hrun⟩ := exists_run_perform_eq hs h
  rw [← canWrite_eq_of_sameFiles hsame] at hcan
  obtain ⟨n, hn, hdoc⟩ := exists_run_saveSession hcan ht
  rw [hn] at hrun
  exact ⟨n, hrun, hdoc⟩

/-- The register that is read after an edit. -/
theorem register_perform (hw : edit.Writes places m) :
    register places (m.run (edit.perform places).run).2 = (register places m).after edit := by
  cases hs : session places m with
  | error part =>
    have hsame := sameFiles_perform_of_error hs edit
    rw [register_eq_of_document (document_eq_of_sameFiles hsame), register_eq, hs,
      registerOf_error_after]
  | ok s =>
    cases h : edit.saved? s with
    | none => rw [run_perform_of_none h, after_of_saved?_eq_none h]
    | some t =>
      obtain ⟨n, hn, hdoc⟩ := exists_run_perform hw hs h
      have ht := settled_saved? (settled_session hs) h
      have hreread : session places n = .ok (Session.ofDocument (some t.document)) :=
        session_eq_ok_iff.2 ⟨_, hdoc, rfl⟩
      rw [hn, register_eq, hreread, ht.registerOf_reread, registerOf_saved? h, register_eq, hs]

/-- The fields that an edit does not set keep their values. Selections that are no object are
replaced, whatever is saved. -/
theorem fieldOn_perform (hw : edit.Writes places m) (hname : name ≠ edit.field)
    (h : fieldOn places m name = some value)
    (hv : name = Session.selectionsField → ∃ byRoot, value = .object byRoot) :
    fieldOn places (m.run (edit.perform places).run).2 name = some value := by
  cases hs : session places m with
  | error part => rwa [fieldOn_eq_of_sameFiles (sameFiles_perform_of_error hs edit)]
  | ok s =>
    cases hsaved : edit.saved? s with
    | none => rwa [run_perform_of_none hsaved]
    | some t =>
      obtain ⟨n, hn, hdoc⟩ := exists_run_perform hw hs hsaved
      obtain ⟨data, hdata, rfl⟩ := session_eq_ok_iff.1 hs
      rw [fieldOn, hdata] at h
      rw [hn, fieldOn, hdoc]
      refine (lookup_saved? hsaved hname).trans ?_
      exact Session.lookup_ofDocument_of_some (storable_of_document hdata).names h hv

/-- No field comes in but the two of a session. -/
theorem fieldOn_perform_of_none (hw : edit.Writes places m) (h : fieldOn places m name = none)
    (hlast : name ≠ Session.lastField) (hselections : name ≠ Session.selectionsField) :
    fieldOn places (m.run (edit.perform places).run).2 name = none := by
  have hname : name ≠ edit.field := by
    cases edit with
    | saveLast root => exact hlast
    | saveSelection root paths => exact hselections
  cases hs : session places m with
  | error part => rwa [fieldOn_eq_of_sameFiles (sameFiles_perform_of_error hs edit)]
  | ok s =>
    cases hsaved : edit.saved? s with
    | none => rwa [run_perform_of_none hsaved]
    | some t =>
      obtain ⟨n, hn, hdoc⟩ := exists_run_perform hw hs hsaved
      obtain ⟨data, hdata, rfl⟩ := session_eq_ok_iff.1 hs
      have h : (fieldsOf data).lookup name = none := by
        rwa [fieldOn, hdata] at h
      rw [hn, fieldOn, hdoc]
      refine (lookup_saved? hsaved hname).trans ?_
      rw [Session.lookup_ofDocument (storable_of_document hdata).names hselections, h,
        Option.none_or, Session.lookup_blank hlast hselections]

end SessionEdit

/-- A run of edits makes of a session file what it makes of a register and a map, whatever the file
holds at first. Each edit comes to its end if the session can be loaded, and leaves the fields alone
that it does not set. Under the empty root nothing is saved. A file that is nested too deeply to be
loaded stays as it is. -/
theorem sessionEdits_follow_register {uses : List (Model × SessionEdit)}
    (hrun : LeadsTo places.session (SessionEdit.perform places) m uses n)
    (hw : ∀ use ∈ uses, use.2.Writes places use.1) :
    register places n = uses.foldr (fun use r => r.after use.2) (register places m) ∧
    (∀ edit : SessionEdit, edit.Writes places n →
      let o := (n.run (edit.perform places).run).2
      register places o = (register places n).after edit ∧
        (∀ last, (register places n).last = .ok last →
          (n.run (edit.perform places).run).1 = .ok ()) ∧
        (∀ name value, name ≠ edit.field → fieldOn places n name = some value →
          (name = Session.selectionsField → ∃ byRoot, value = .object byRoot) →
          fieldOn places o name = some value) ∧
        ∀ name, name ≠ Session.lastField → name ≠ Session.selectionsField →
          fieldOn places n name = none → fieldOn places o name = none) ∧
    (∀ paths, n.run (saveSelection places "" paths).run = (.ok (), n)) ∧
    ∀ paths, (sortPaths paths).Perm paths ∧ (sortPaths paths).Pairwise (· ≤ ·) := by
  refine ⟨?_, ?_, ?_, ?_⟩
  · refine hrun.invariant (P := fun uses n => register places n =
        uses.foldr (fun use r => r.after use.2) (register places m)) hw rfl ?_ ?_
    · intro uses n o hsame hn
      exact (register_eq_of_document hsame).trans hn
    · intro uses n edit hw hn
      rw [SessionEdit.register_perform hw, hn]
      rfl
  · intro edit hedit o
    refine ⟨SessionEdit.register_perform hedit, ?_, ?_, ?_⟩
    · intro last hlast
      obtain ⟨s, hs⟩ := exists_session_of_last hlast
      obtain ⟨k, hk⟩ := SessionEdit.exists_run_perform_ok hs edit
      rw [hk]
    · intro name value hname h hv
      exact SessionEdit.fieldOn_perform hedit hname h hv
    · intro name hl hs h
      exact SessionEdit.fieldOn_perform_of_none hedit h hl hs
  · exact fun paths => rfl
  · exact fun paths => ⟨sortPaths_perm paths, pairwise_sortPaths paths⟩

/-- A session file that lacks both fields and holds a foreign one. -/
theorem sessionEdits_follow_register_foreign :
    let places := Places.inDirectory "/s"
    let m : Model :=
      { disk := { items := [(["s"], .directory),
          (["s", "session.json"], .file (Text.toUtf8 "\x7b\"x\": 1.5\x7d"))] } }
    let first : SessionEdit := .saveLast (some "/p")
    let second : SessionEdit := .saveSelection "/p" ["b", "a"]
    let n := (m.run (first.perform places).run).2
    let o := (n.run (second.perform places).run).2
    first.Writes places m ∧ second.Writes places n ∧
      (register places o).last = .ok (some "/p") ∧
      (register places o).selections "/p" = .ok ["a", "b"] ∧
      ∃ value, fieldOn places m "x" = some value ∧ fieldOn places o "x" = some value := by
  intro places m first second n o
  have hfirst : first.Writes places m := fun _ _ _ => by decide +kernel
  have hsecond : second.Writes places n := fun _ _ _ => by decide +kernel
  have hrun : LeadsTo places.session (SessionEdit.perform places) m [(m, first)] n :=
    LeadsTo.refl.use first
  have huses : ∀ use ∈ [(n, second), (m, first)], use.2.Writes places use.1 :=
    List.forall_mem_cons.2 ⟨hsecond, List.forall_mem_singleton.2 hfirst⟩
  obtain ⟨hregister, -, -, -⟩ := sessionEdits_follow_register (hrun.use second) huses
  obtain ⟨-, hstart, -, -⟩ := sessionEdits_follow_register (m := m) LeadsTo.refl nofun
  obtain ⟨-, hnext, -, -⟩ := sessionEdits_follow_register hrun (List.forall_mem_singleton.2 hfirst)
  obtain ⟨-, -, hkept, -⟩ := hstart first hfirst
  obtain ⟨-, -, hkeptNext, -⟩ := hnext second hsecond
  obtain ⟨value, hx⟩ : ∃ value, fieldOn places m "x" = some value :=
    Option.isSome_iff_exists.1 (by decide +kernel)
  have hforeign : (("x" : Utf16) = Session.selectionsField → ∃ byRoot, value = .object byRoot) :=
    fun h => absurd h (by decide)
  have hxn := hkept "x" value (by decide) hx hforeign
  refine ⟨hfirst, hsecond, ?_, ?_, value, hx, hkeptNext "x" value (by decide) hxn hforeign⟩
  · have hlast : (register places m).last = .ok none := by decide +kernel
    rw [hregister]
    change ((register places m).last.map _) = _
    rw [hlast]
    rfl
  · have hsorted : sortPaths ["b", "a"] = ["a", "b"] := by simp [sortPaths, List.mergeSort]
    have hroot : ("/p" : Utf16) ≠ "" := by decide
    have hselection : (register places m).selections "/p" = .ok [] := by decide +kernel
    rw [hregister, List.foldr_cons, Register.selections_after hroot, if_pos rfl, hsorted]
    change ((register places m).selections "/p").map _ = _
    rw [hselection]
    rfl

end FileSieve.Store
