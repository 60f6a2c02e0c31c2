import FileSieve.Proofs.Store.Storing
import FileSieve.Proofs.Text.Trimming
import FileSieve.Store.Contexts
import Mathlib.Data.List.Nodup

/-! # Saved contexts as a map

A store of contexts that was empty at first is a map from names and roots to identifiers and paths.
A context is replaced by its identifier, although it was found by its name and its root: that comes
to the same as long as no two contexts share either. -/

namespace FileSieve.Store

open Host Program

/-! ### Records -/

namespace SavedContext

/-- What a context is saved under. -/
def slot (c : SavedContext) : Utf16 × Utf16 := (c.name, c.root)

/-- A context as it is saved. -/
structure WellFormed (c : SavedContext) : Prop where
  id : c.id ≠ ""
  name : c.name ≠ ""
  trimmed : c.name.trim = c.name
  root : c.root ≠ ""
  ascending : ∃ paths : List String, paths.Pairwise (· ≤ ·) ∧ c.paths = paths.map Utf16.ofString

theorem ofRecord?_toRecord {c : SavedContext} (h : c.WellFormed) :
    ofRecord? c.toRecord = some c := by
  have htext {name value : Utf16} (hf : c.toRecord.field? name = some (.string value))
      (hv : value ≠ "") : textField? c.toRecord name = some value := by
    simp [textField?, hf, Json.string?, hv]
  have hpaths : (c.paths.map Json.string).filterMap Json.string? = c.paths := by
    rw [List.filterMap_map]
    exact List.filterMap_some
  have hfield : c.toRecord.field? "paths" = some (.array (c.paths.map Json.string)) := rfl
  rw [ofRecord?, htext rfl h.id, htext rfl h.name, htext rfl h.root, hfield]
  simp [Json.array?, hpaths]

end SavedContext

open SavedContext

variable {list : List SavedContext} {c d : SavedContext}

theorem contextsOf_records (h : ∀ c ∈ list, c.WellFormed) :
    contextsOf (.array (list.map toRecord)) = list := by
  have hrecords : (list.map toRecord).filterMap ofRecord? = list.filterMap some := by
    rw [List.filterMap_map]
    exact List.filterMap_congr fun c hc => ofRecord?_toRecord (h c hc)
  exact hrecords.trans List.filterMap_some

theorem writable_records (list : List SavedContext) :
    Json.Writable Json.nestingLimit (.array (list.map toRecord)) := by
  apply Json.Writable.array
  intro record hr
  obtain ⟨c, -, rfl⟩ := List.mem_map.1 hr
  apply Json.Writable.object
  · simp only [List.forall_mem_cons]
    exact ⟨.string _ _, .string _ _, .string _ _, Json.writable_texts _ _, List.forall_mem_nil _⟩
  · change (["id", "name", "rootPath", "paths"] : List Utf16).Nodup
    decide

/-! ### Lists of contexts -/

/-- Contexts as they are saved: no two share an identifier, or a name and a root. -/
structure Sound (list : List SavedContext) : Prop where
  wellFormed : ∀ c ∈ list, c.WellFormed
  ids : (list.map SavedContext.id).Nodup
  slots : (list.map slot).Nodup

theorem sound_nil : Sound [] :=
  ⟨nofun, List.nodup_nil, List.nodup_nil⟩

theorem Sound.filter (h : Sound list) (p : SavedContext → Bool) : Sound (list.filter p) where
  wellFormed c hc := h.wellFormed c (List.mem_of_mem_filter hc)
  ids := h.ids.sublist (List.filter_sublist.map _)
  slots := h.slots.sublist (List.filter_sublist.map _)

theorem Sound.concat (h : Sound list) (hc : c.WellFormed) (hid : c.id ∉ list.map SavedContext.id)
    (hslot : c.slot ∉ list.map slot) : Sound (list ++ [c]) where
  wellFormed := by
    intro d hd
    rcases List.mem_append.1 hd with hd | hd
    · exact h.wellFormed d hd
    · rwa [List.mem_singleton.1 hd]
  ids := by
    rw [List.map_append, List.map_singleton, ← List.concat_eq_append]
    exact List.Nodup.concat hid h.ids
  slots := by
    rw [List.map_append, List.map_singleton, ← List.concat_eq_append]
    exact List.Nodup.concat hslot h.slots

/-- Without the context with an identifier is without the one under its name and root. -/
theorem Sound.filter_id (h : Sound list) (hc : c ∈ list) :
    list.filter (·.id ≠ c.id) = list.filter (·.slot ≠ c.slot) := by
  refine List.filter_congr fun d hd => ?_
  have hsame : d.id = c.id ↔ d.slot = c.slot :=
    ⟨fun hid => congrArg slot (List.inj_on_of_nodup_map h.ids hd hc hid),
      fun hslot => congrArg SavedContext.id (List.inj_on_of_nodup_map h.slots hd hc hslot)⟩
  simp [hsame]

theorem not_mem_map_filter {α β : Type} [DecidableEq β] (f : α → β) (as : List α) (b : β) :
    b ∉ (as.filter (f · ≠ b)).map f := by
  simp

/-- The context that is saved under a name and a root, with the identifier of the one before it or a
new one. -/
def saving (fresh : Utf16) (list : List SavedContext) (name root : Utf16) (paths : List String) :
    SavedContext where
  id := ((list.find? fun c => c.slot = (name, root)).map SavedContext.id).getD fresh
  name
  root
  paths := (sortPaths paths).map Utf16.ofString

variable {fresh name root : Utf16} {paths : List String}

theorem wellFormed_saving (h : ∀ c ∈ list, c.WellFormed) (hfresh : fresh ≠ "")
    (hn : name.trim ≠ "") (hr : root ≠ "") :
    (saving fresh list name.trim root paths).WellFormed where
  id := by
    rw [saving]
    cases hf : list.find? fun c => c.slot = (name.trim, root) with
    | none => exact hfresh
    | some c => exact (h c (List.mem_of_find?_eq_some hf)).id
  name := hn
  trimmed := Utf16.trim_trim name
  root := hr
  ascending := ⟨sortPaths paths, pairwise_sortPaths paths, rfl⟩

/-- With a context saved, no two share an identifier or a name and a root either. -/
theorem Sound.save (h : Sound list) (hfresh : fresh ≠ "") (hn : name.trim ≠ "") (hr : root ≠ "")
    (hnew : (name.trim, root) ∉ list.map slot → fresh ∉ list.map SavedContext.id)
    (paths : List String) :
    Sound (list.filter (·.slot ≠ (name.trim, root)) ++
      [saving fresh list name.trim root paths]) := by
  apply (h.filter _).concat (wellFormed_saving h.wellFormed hfresh hn hr)
  · rw [saving]
    cases hf : list.find? fun c => c.slot = (name.trim, root) with
    | none =>
      have hfree : (name.trim, root) ∉ list.map slot := by simpa using hf
      exact fun hm => hnew hfree ((List.filter_sublist.map _).subset hm)
    | some c =>
      have hslot : c.slot = (name.trim, root) := by simpa using List.find?_some hf
      have hc := List.mem_of_find?_eq_some hf
      rw [← hslot, ← h.filter_id hc]
      exact not_mem_map_filter SavedContext.id list c.id
  · exact not_mem_map_filter slot list (name.trim, root)

/-- A list with a context in place of the one under its name and its root. That one is taken out by
its identifier. -/
def replacing (list : List SavedContext) (c : SavedContext) : List SavedContext :=
  match list.find? (·.slot = c.slot) with
  | some d => list.filter (·.id ≠ d.id) ++ [c]
  | none => list ++ [c]

theorem forall_mem_replacing {p : SavedContext → Prop} (h : ∀ d ∈ list, p d) (hc : p c) :
    ∀ d ∈ replacing list c, p d := by
  intro d hd
  rw [replacing] at hd
  split at hd
  · rcases List.mem_append.1 hd with hd | hd
    · exact h d (List.mem_of_mem_filter hd)
    · rwa [List.mem_singleton.1 hd]
  · rcases List.mem_append.1 hd with hd | hd
    · exact h d hd
    · rwa [List.mem_singleton.1 hd]

theorem Sound.replacing_eq (h : Sound list) (c : SavedContext) :
    replacing list c = list.filter (·.slot ≠ c.slot) ++ [c] := by
  rw [replacing]
  cases hf : list.find? (·.slot = c.slot) with
  | none =>
    have hall : list.filter (·.slot ≠ c.slot) = list :=
      List.filter_eq_self.2 (by simpa using hf)
    rw [hall]
  | some d =>
    have hslot : d.slot = c.slot := by simpa using List.find?_some hf
    rw [← hslot, ← h.filter_id (List.mem_of_find?_eq_some hf)]

/-! ### Saving and deleting -/

variable {places : Places} {m n : Model} {id : Utf16} {part : Json.Overflow}

/-- The contexts that are stored on a host, or why they cannot be loaded. -/
def stored (places : Places) (m : Model) : Except Json.Overflow (List SavedContext) :=
  (document m places.contexts).map fun data => (data.map contextsOf).getD []

/-- The identifier that a host gives next. -/
def nextId (m : Model) : Utf16 := Utf16.ofString (m.run freshId).1

theorem nextId_ne_empty (m : Model) : nextId m ≠ "" := by
  rw [nextId, Ne, Utf16.ofString_inj]
  intro h
  have hdigits : Text.hex 32 (m.idsUsed + 1) = [] := String.ofList_inj.1 h
  simp [Text.hex] at hdigits

theorem stored_eq_of_sameFiles (h : m.SameFiles n) : stored places n = stored places m := by
  rw [stored, stored, document_eq_of_sameFiles h]

theorem looksT_loadContexts (places : Places) : LooksT (loadContexts places) :=
  (looksT_read places.contexts).bind fun data => looksT_pure ((data.map contextsOf).getD [])

theorem looksT_contextsFor (places : Places) (root : Utf16) : LooksT (contextsFor places root) :=
  (looksT_loadContexts places).bind fun _ => looksT_pure _

theorem exists_run_loadContexts (places : Places) (m : Model) :
    ∃ n, m.run (loadContexts places).run = (stored places m, n) ∧ m.SameFiles n ∧
      nextId n = nextId m := by
  obtain ⟨n, hn, hsame, hids⟩ := exists_run_load places.contexts
    (fun data => (data.map contextsOf).getD []) m
  have hnext : nextId n = nextId m := by
    change Utf16.ofString (String.ofList (Text.hex 32 (n.idsUsed + 1))) = _
    rw [hids]
    rfl
  exact ⟨n, hn, hsame, hnext⟩

theorem exists_run_saveContexts (hw : canWrite m places.contexts = true)
    (h : ∀ c ∈ list, c.WellFormed) :
    ∃ n, m.run (saveContexts places list) = ((), n) ∧ stored places n = .ok list := by
  obtain ⟨n, hn, hdoc⟩ := exists_run_write hw (writable_records list)
  refine ⟨n, hn, ?_⟩
  rw [stored, hdoc]
  exact congrArg Except.ok (contextsOf_records h)

/-- Contexts are saved, and an answer is given. -/
theorem exists_run_saveContexts_then {α : Type} (hw : canWrite m places.contexts = true)
    (h : ∀ c ∈ list, c.WellFormed) (answer : α) :
    ∃ n, m.run (do
        saveContexts places list
        return answer : Reading α).run = (.ok answer, n) ∧
      stored places n = .ok list := by
  obtain ⟨n, hn, hstored⟩ := exists_run_saveContexts hw h
  refine ⟨n, ?_, hstored⟩
  rw [Model.runT_lift_bind, hn]
  rfl

/-- Nothing is saved under a blank name or for the empty root. -/
theorem run_saveContext_of_refused (h : name.trim = "" ∨ root = "") :
    m.run (saveContext places name root paths).run = (.ok none, m) := by
  rw [saveContext]
  dsimp only
  rw [if_pos (by simpa using h)]
  rfl

/-- Where the contexts are nested too deeply to be read, none is saved. -/
theorem exists_run_saveContext_of_error (hl : stored places m = .error part)
    (h : ¬(name.trim = "" ∨ root = "")) (paths : List String) :
    ∃ n, m.run (saveContext places name root paths).run = (.error part, n) ∧ m.SameFiles n := by
  obtain ⟨o, hload, hsame, -⟩ := exists_run_loadContexts places m
  rw [hl] at hload
  refine ⟨o, ?_, hsame⟩
  rw [saveContext]
  dsimp only
  rw [if_neg (by simpa using h), Model.runT_bind_of_error hload]

/-- Where the contexts can be read, one is saved, even if it cannot be written. -/
theorem exists_run_saveContext_of_ok (hl : stored places m = .ok list)
    (h : ¬(name.trim = "" ∨ root = "")) (paths : List String) :
    ∃ c n, m.run (saveContext places name root paths).run = (.ok (some c), n) := by
  obtain ⟨o, hload, -, -⟩ := exists_run_loadContexts places m
  rw [hl] at hload
  have hsaved (p : Model) (kept : List SavedContext) (c : SavedContext) :
      ∃ n, p.run (do
        saveContexts places kept
        return some c : Reading (Option SavedContext)).run = (.ok (some c), n) := by
    rw [Model.runT_lift_bind]
    exact ⟨_, rfl⟩
  rw [saveContext]
  dsimp only
  rw [if_neg (by simpa using h), Model.runT_bind_of_eq hload]
  split
  · exact ⟨_, hsaved o _ _⟩
  · rw [Model.runT_lift_bind]
    exact ⟨_, hsaved _ _ _⟩

/-- The context that is saved takes the place of the one under its name and root. -/
theorem run_saveContext (hl : stored places m = .ok list) (hs : ∀ c ∈ list, c.WellFormed)
    (h : ¬(name.trim = "" ∨ root = "")) (hw : canWrite m places.contexts = true)
    (paths : List String) :
    let context := saving (nextId m) list name.trim root paths
    ∃ n, m.run (saveContext places name root paths).run = (.ok (some context), n) ∧
      stored places n = .ok (replacing list context) := by
  intro context
  obtain ⟨hn, hr⟩ := not_or.1 h
  have hformed : ∀ c ∈ replacing list context, c.WellFormed :=
    forall_mem_replacing hs (wellFormed_saving hs (nextId_ne_empty m) hn hr)
  obtain ⟨o, hload, hsame, hnext⟩ := exists_run_loadContexts places m
  rw [hl] at hload
  rw [← canWrite_eq_of_sameFiles hsame] at hw
  have hfind : (list.find? fun c => c.name = name.trim && c.root = root) =
      list.find? fun c => c.slot = (name.trim, root) := by
    simp [slot]
  have hslot : context.slot = (name.trim, root) := rfl
  rw [replacing, hslot] at hformed ⊢
  rw [saveContext]
  dsimp only
  rw [if_neg (by simpa using h), Model.runT_bind_of_eq hload, hfind]
  cases hf : list.find? fun c => c.slot = (name.trim, root) with
  | none =>
    have hcontext : (⟨(o.run freshId).1, name.trim, root, (sortPaths paths).map Utf16.ofString⟩ :
        SavedContext) = context := by
      simp only [context, saving, hf, ← hnext]
      rfl
    have hid : o.run freshId = ((o.run freshId).1, { o with idsUsed := o.idsUsed + 1 }) := rfl
    have hwrite : canWrite { o with idsUsed := o.idsUsed + 1 } places.contexts = true := hw
    rw [hf] at hformed
    obtain ⟨n, hn, hstored⟩ := exists_run_saveContexts_then hwrite hformed (some context)
    refine ⟨n, ?_, hstored⟩
    dsimp only
    rw [Model.runT_lift_bind, hid, hcontext]
    exact hn
  | some existing =>
    have hcontext : (⟨existing.id, name.trim, root, (sortPaths paths).map Utf16.ofString⟩ :
        SavedContext) = context := by
      simp only [context, saving, hf]
      rfl
    rw [hf] at hformed
    obtain ⟨n, hn, hstored⟩ := exists_run_saveContexts_then hw hformed (some context)
    refine ⟨n, ?_, hstored⟩
    dsimp only
    rw [hcontext]
    exact hn

theorem run_deleteContext_of_absent (hl : stored places m = .ok list)
    (h : id ∉ list.map SavedContext.id) :
    ∃ n, m.run (deleteContext places id).run = (.ok false, n) ∧ stored places n = .ok list := by
  obtain ⟨o, hload, hsame, -⟩ := exists_run_loadContexts places m
  rw [hl] at hload
  refine ⟨o, ?_, (stored_eq_of_sameFiles hsame).trans hl⟩
  rw [deleteContext, Model.runT_bind_of_eq hload]
  dsimp only
  rw [if_pos (List.length_filter_eq_length_iff.2 (by simpa using h))]
  rfl

theorem run_deleteContext_of_present (hl : stored places m = .ok list)
    (hs : ∀ c ∈ list, c.WellFormed) (h : id ∈ list.map SavedContext.id)
    (hw : canWrite m places.contexts = true) :
    ∃ n, m.run (deleteContext places id).run = (.ok true, n) ∧
      stored places n = .ok (list.filter (·.id ≠ id)) := by
  obtain ⟨o, hload, hsame, -⟩ := exists_run_loadContexts places m
  rw [hl] at hload
  rw [← canWrite_eq_of_sameFiles hsame] at hw
  obtain ⟨n, hn, hstored⟩ := exists_run_saveContexts_then hw
    (fun c hc => hs c (List.mem_of_mem_filter hc)) true
  refine ⟨n, ?_, hstored⟩
  rw [deleteContext, Model.runT_bind_of_eq hload]
  dsimp only
  rw [if_neg (mt List.length_filter_eq_length_iff.1 (by simpa using h))]
  exact hn

theorem run_contextsFor (places : Places) (root : Utf16) (m : Model) :
    (m.run (contextsFor places root).run).1 =
      (stored places m).map fun list => list.filter (·.root = root) := by
  obtain ⟨n, hn, -, -⟩ := exists_run_loadContexts places m
  rw [contextsFor, Model.runT_bind_pure, hn]

/-! ### The map -/

/-- The identifier and the paths that are held under a name and a root. -/
def mapOf (list : List SavedContext) (k : Utf16 × Utf16) : Option (Utf16 × List Utf16) :=
  (list.find? (·.slot = k)).map fun c => (c.id, c.paths)

theorem Sound.mapOf_eq_some_iff (h : Sound list) {k : Utf16 × Utf16} {v : Utf16 × List Utf16} :
    mapOf list k = some v ↔ ∃ c ∈ list, c.slot = k ∧ (c.id, c.paths) = v := by
  rw [mapOf, Option.map_eq_some_iff]
  constructor
  · rintro ⟨c, hc, hv⟩
    exact ⟨c, List.mem_of_find?_eq_some hc, by simpa using List.find?_some hc, hv⟩
  · rintro ⟨c, hc, hk, hv⟩
    refine ⟨c, ?_, hv⟩
    cases hf : list.find? (·.slot = k) with
    | none => exact absurd hk (by simpa using List.find?_eq_none.1 hf c hc)
    | some d =>
      have hd : d.slot = k := by simpa using List.find?_some hf
      rw [List.inj_on_of_nodup_map h.slots (List.mem_of_find?_eq_some hf) hc (hd.trans hk.symm)]

theorem mapOf_replaced (list : List SavedContext) (c : SavedContext) :
    mapOf (list.filter (·.slot ≠ c.slot) ++ [c]) =
      Function.update (mapOf list) c.slot (some (c.id, c.paths)) := by
  funext k
  by_cases hk : k = c.slot
  · have hnone : (list.filter (·.slot ≠ c.slot)).find? (·.slot = c.slot) = none := by simp
    rw [hk, Function.update_self, mapOf, List.find?_append, hnone]
    simp
  · have hsame : (list.filter (·.slot ≠ c.slot)).find? (·.slot = k) = list.find? (·.slot = k) := by
      rw [List.find?_filter]
      congr 1
      funext d
      by_cases hd : d.slot = k <;> simp [hd, hk]
    have hlast : [c].find? (·.slot = k) = none := by simp [Ne.symm hk]
    rw [Function.update_of_ne hk, mapOf, mapOf, List.find?_append, hsame, hlast, Option.or_none]

theorem Sound.mapOf_without (h : Sound list) (id : Utf16) (k : Utf16 × Utf16) :
    mapOf (list.filter (·.id ≠ id)) k = (mapOf list k).filter (·.1 ≠ id) := by
  ext v
  rw [(h.filter _).mapOf_eq_some_iff, Option.filter_eq_some_iff, h.mapOf_eq_some_iff]
  constructor
  · rintro ⟨c, hc, hk, rfl⟩
    obtain ⟨hc, hid⟩ := List.mem_filter.1 hc
    exact ⟨⟨c, hc, hk, rfl⟩, hid⟩
  · rintro ⟨⟨c, hc, hk, rfl⟩, hid⟩
    exact ⟨c, List.mem_filter.2 ⟨hc, hid⟩, hk, rfl⟩

/-- The context that was saved is the only one of its root under its name. -/
theorem filter_replaced (list : List SavedContext) (c : SavedContext) :
    ((list.filter (·.slot ≠ c.slot) ++ [c]).filter (·.root = c.root)).filter (·.name = c.name) =
      [c] := by
  simp +contextual [List.filter_append, slot]

/-! ### Edits -/

/-- An edit of the stored contexts. -/
inductive ContextEdit where
  | save (name root : Utf16) (paths : List String)
  | delete (id : Utf16)

inductive ContextAnswer where
  | saved (context : Option SavedContext)
  | deleted (isDone : Bool)
deriving DecidableEq

namespace ContextEdit

def perform (places : Places) : ContextEdit → Reading ContextAnswer
  | save name root paths => do return .saved (← saveContext places name root paths)
  | delete id => do return .deleted (← deleteContext places id)

/-- What an edit answers on a list, and the list that it saves, if it saves one. -/
def onList (fresh : Utf16) (list : List SavedContext) :
    ContextEdit → ContextAnswer × Option (List SavedContext)
  | save name root paths =>
    if name.trim = "" ∨ root = "" then (.saved none, none)
    else
      let context := saving fresh list name.trim root paths
      (.saved (some context), some (list.filter (·.slot ≠ context.slot) ++ [context]))
  | delete id =>
    if id ∈ list.map SavedContext.id then
      (.deleted true, some (list.filter (·.id ≠ id)))
    else (.deleted false, none)

/-- What an edit makes of a map. -/
def onMap (fresh : Utf16) (map : Utf16 × Utf16 → Option (Utf16 × List Utf16)) :
    ContextEdit → Utf16 × Utf16 → Option (Utf16 × List Utf16)
  | save name root paths =>
    if name.trim = "" ∨ root = "" then map
    else Function.update map (name.trim, root)
      (some (((map (name.trim, root)).map Prod.fst).getD fresh,
        (sortPaths paths).map Utf16.ofString))
  | delete id => fun k => (map k).filter (·.1 ≠ id)

/-- The new identifier that a use is given, if it asks for one. -/
def given? (places : Places) : Model × ContextEdit → Option Utf16
  | (m, save name root _) =>
    match stored places m with
    | .ok list =>
      if name.trim = "" ∨ root = "" ∨ (name.trim, root) ∈ list.map slot then none
      else some (nextId m)
    | .error _ => none
  | (_, delete _) => none

/-- The contexts can be written if the edit saves them. -/
def Writes (places : Places) (m : Model) (edit : ContextEdit) : Prop :=
  ∀ list, stored places m = .ok list → (edit.onList (nextId m) list).2.isSome →
    canWrite m places.contexts = true

/-- An edit answers as it does on the list that is stored, leaves the list that it says, and changes
the map alike. A context that it answers is the only one of its root under its name then. -/
def Follows (places : Places) (m : Model) (edit : ContextEdit) : Prop :=
  ∃ list kept n, stored places m = .ok list ∧ kept = (edit.onList (nextId m) list).2.getD list ∧
    m.run (edit.perform places).run = (.ok (edit.onList (nextId m) list).1, n) ∧
    stored places n = .ok kept ∧ mapOf kept = edit.onMap (nextId m) (mapOf list) ∧
    ∀ c, (edit.onList (nextId m) list).1 = .saved (some c) →
      ∃ held, (n.run (contextsFor places c.root).run).1 = .ok held ∧
        held.filter (·.name = c.name) = [c]

variable {edit : ContextEdit}

/-- An identifier that is asked for is the next one. -/
theorem given?_save (hl : stored places m = .ok list) (h : ¬(name.trim = "" ∨ root = ""))
    (hnew : (name.trim, root) ∉ list.map slot) :
    given? places (m, save name root paths) = some (nextId m) := by
  obtain ⟨hn, hr⟩ := not_or.1 h
  rw [given?, hl]
  exact if_neg (not_or.2 ⟨hn, not_or.2 ⟨hr, hnew⟩⟩)

theorem follows_save (hl : stored places m = .ok list) (hs : Sound list)
    (hw : (save name root paths).Writes places m) :
    (save name root paths).Follows places m := by
  have hw := hw list hl
  refine ⟨list, ?_⟩
  by_cases h : name.trim = "" ∨ root = ""
  · rw [onList, onMap, if_pos h, if_pos h]
    exact ⟨_, m, hl, rfl, Model.runT_bind_of_eq (run_saveContext_of_refused h) _, hl, rfl, nofun⟩
  · rw [onList, if_neg h] at hw ⊢
    rw [onMap, if_neg h]
    obtain ⟨n, hn, hstored⟩ := run_saveContext hl hs.wellFormed h (hw rfl) paths
    rw [hs.replacing_eq] at hstored
    refine ⟨_, n, hl, rfl, Model.runT_bind_of_eq hn _, hstored, ?_, ?_⟩
    · have hid : ((mapOf list (name.trim, root)).map Prod.fst).getD (nextId m) =
          (saving (nextId m) list name.trim root paths).id := by
        rw [mapOf, Option.map_map]
        rfl
      rw [hid]
      exact mapOf_replaced list (saving (nextId m) list name.trim root paths)
    · intro c hc
      cases hc
      refine ⟨_, ?_, filter_replaced list (saving (nextId m) list name.trim root paths)⟩
      rw [run_contextsFor, hstored]
      rfl

theorem follows_delete (hl : stored places m = .ok list) (hs : Sound list)
    (hw : (delete id).Writes places m) : (delete id).Follows places m := by
  have hw := hw list hl
  refine ⟨list, ?_⟩
  have hmap : mapOf (list.filter (·.id ≠ id)) = (delete id).onMap (nextId m) (mapOf list) :=
    funext (hs.mapOf_without id)
  rw [onList] at hw ⊢
  by_cases h : id ∈ list.map SavedContext.id
  · rw [if_pos h] at hw ⊢
    obtain ⟨n, hn, hstored⟩ := run_deleteContext_of_present hl hs.wellFormed h (hw rfl)
    exact ⟨_, n, hl, rfl, Model.runT_bind_of_eq hn _, hstored, hmap, nofun⟩
  · rw [if_neg h]
    obtain ⟨n, hn, hstored⟩ := run_deleteContext_of_absent hl h
    have hall : list.filter (·.id ≠ id) = list := List.filter_eq_self.2 (by simpa using h)
    rw [hall] at hmap
    exact ⟨_, n, hl, rfl, Model.runT_bind_of_eq hn _, hstored, hmap, nofun⟩

theorem follows (hl : stored places m = .ok list) (hs : Sound list) (hw : edit.Writes places m) :
    edit.Follows places m := by
  cases edit with
  | save name root paths => exact follows_save hl hs hw
  | delete id => exact follows_delete hl hs hw

/-- Where the contexts are nested too deeply to be loaded, an edit stops before anything is
written. -/
theorem sameFiles_perform_of_error (h : stored places m = .error part) (edit : ContextEdit) :
    m.SameFiles (m.run (edit.perform places).run).2 := by
  obtain ⟨o, hload, hsame, -⟩ := exists_run_loadContexts places m
  rw [h] at hload
  cases edit with
  | save name root paths =>
    rw [perform, Model.runT_bind_pure, saveContext]
    dsimp only
    split_ifs
    · exact ⟨rfl, rfl⟩
    · rwa [Model.runT_bind_of_error hload]
  | delete id =>
    rw [perform, Model.runT_bind_pure, deleteContext, Model.runT_bind_of_error hload]
    exact hsame

/-- What is saved is sound, and its identifiers are those from before and the one that was given. -/
theorem sound_onList {kept : List SavedContext} (hl : stored places m = .ok list) (hs : Sound list)
    (hnew : ∀ id, given? places (m, edit) = some id → id ∉ list.map SavedContext.id)
    (h : (edit.onList (nextId m) list).2 = some kept) :
    Sound kept ∧ ∀ id ∈ kept.map SavedContext.id,
      given? places (m, edit) = some id ∨ id ∈ list.map SavedContext.id := by
  cases edit with
  | save name root paths =>
    rw [onList] at h
    split at h
    · cases h
    · next hgiven =>
      obtain ⟨hn, hr⟩ := not_or.1 hgiven
      cases h
      have hfree := fun hslot => hnew _ (given?_save hl hgiven hslot)
      refine ⟨hs.save (nextId_ne_empty m) hn hr hfree paths, ?_⟩
      intro id hid
      rw [List.map_append, List.mem_append] at hid
      rcases hid with hid | hid
      · exact .inr ((List.filter_sublist.map _).subset hid)
      · rw [List.map_singleton, List.mem_singleton] at hid
        rw [hid, saving]
        dsimp only
        cases hf : list.find? fun c => c.slot = (name.trim, root) with
        | none => exact .inl (given?_save hl hgiven (by simpa using hf))
        | some c => exact .inr (List.mem_map_of_mem (List.mem_of_find?_eq_some hf))
  | delete id =>
    rw [onList] at h
    split at h
    · cases h
      exact ⟨hs.filter _, fun id hid => .inr ((List.filter_sublist.map _).subset hid)⟩
    · cases h

theorem sound_perform (hl : stored places m = .ok list) (hs : Sound list)
    (hw : edit.Writes places m)
    (hnew : ∀ id, given? places (m, edit) = some id → id ∉ list.map SavedContext.id) :
    ∃ kept, stored places (m.run (edit.perform places).run).2 = .ok kept ∧ Sound kept ∧
      ∀ id ∈ kept.map SavedContext.id,
        given? places (m, edit) = some id ∨ id ∈ list.map SavedContext.id := by
  obtain ⟨found, kept, n, hfound, rfl, hn, hstored, -, -⟩ := follows hl hs hw
  rw [hl] at hfound
  cases hfound
  rw [hn]
  refine ⟨_, hstored, ?_⟩
  cases hkept : (edit.onList (nextId m) list).2 with
  | none => exact ⟨hs, fun _ => .inr⟩
  | some kept => exact sound_onList hl hs hnew hkept

end ContextEdit

/-- The new identifiers of a run. -/
def givenIds (places : Places) (uses : List (Model × ContextEdit)) : List Utf16 :=
  uses.filterMap (ContextEdit.given? places)

variable {uses : List (Model × ContextEdit)} {edit : ContextEdit}

/-- An identifier that no edit before was given is not stored, if all that are stored were given. -/
theorem not_stored_of_nodup (hids : (givenIds places ((m, edit) :: uses)).Nodup)
    (hstored : ∀ id ∈ list.map SavedContext.id, id ∈ givenIds places uses) :
    ∀ id, ContextEdit.given? places (m, edit) = some id → id ∉ list.map SavedContext.id := by
  intro id hid hm
  rw [givenIds, List.filterMap_cons_some hid, List.nodup_cons] at hids
  exact hids.1 (hstored id hm)

/-- The stored contexts can be loaded, and they are sound. -/
def LoadsSound (places : Places) (m : Model) : Prop :=
  ∃ list, stored places m = .ok list ∧ Sound list

/-- After any run from an empty store, what is stored is sound, and its identifiers were given. -/
theorem sound_of_leadsTo (hm : stored places m = .ok [])
    (hrun : LeadsTo places.contexts (ContextEdit.perform places) m uses n)
    (hw : ∀ use ∈ uses, use.2.Writes places use.1) (hids : (givenIds places uses).Nodup) :
    ∃ list, stored places n = .ok list ∧ Sound list ∧
      ∀ id ∈ list.map SavedContext.id, id ∈ givenIds places uses := by
  revert hids
  refine hrun.invariant (P := fun uses n => (givenIds places uses).Nodup →
    ∃ list, stored places n = .ok list ∧ Sound list ∧
      ∀ id ∈ list.map SavedContext.id, id ∈ givenIds places uses) hw ?_ ?_ ?_
  · exact fun _ => ⟨[], hm, sound_nil, nofun⟩
  · intro uses n o hsame hn hids
    have hstored : stored places o = stored places n := by rw [stored, stored, hsame]
    rw [hstored]
    exact hn hids
  · intro uses n edit hw hn hids
    have hsub : (givenIds places uses).Sublist (givenIds places ((n, edit) :: uses)) :=
      (List.sublist_cons_self _ _).filterMap _
    obtain ⟨list, hl, hs, hstored⟩ := hn (hids.sublist hsub)
    obtain ⟨kept, hkept, hs', hnew⟩ :=
      ContextEdit.sound_perform hl hs hw (not_stored_of_nodup hids hstored)
    refine ⟨kept, hkept, hs', fun id hid => ?_⟩
    rcases hnew id hid with hid | hid
    · exact List.mem_filterMap.2 ⟨(n, edit), List.mem_cons_self, hid⟩
    · exact hsub.subset (hstored id hid)

/-- A store that was empty at first holds sound contexts after any run of edits that are given
distinct identifiers, and one more edit answers and changes it as a list, and as a map. -/
theorem contextEdits_follow_map (hm : stored places m = .ok [])
    (hrun : LeadsTo places.contexts (ContextEdit.perform places) m uses n)
    (hw : ∀ use ∈ uses, use.2.Writes places use.1) :
    (∀ paths, (sortPaths paths).Perm paths ∧ (sortPaths paths).Pairwise (· ≤ ·)) ∧
    ((givenIds places uses).Nodup → LoadsSound places n) ∧
    ∀ edit : ContextEdit, edit.Writes places n → (givenIds places ((n, edit) :: uses)).Nodup →
      edit.Follows places n := by
  refine ⟨fun paths => ⟨sortPaths_perm paths, pairwise_sortPaths paths⟩, ?_, ?_⟩
  · intro hids
    obtain ⟨list, hl, hs, -⟩ := sound_of_leadsTo hm hrun hw hids
    exact ⟨list, hl, hs⟩
  · intro edit hedit hids
    have hsub : (givenIds places uses).Sublist (givenIds places ((n, edit) :: uses)) :=
      (List.sublist_cons_self _ _).filterMap _
    obtain ⟨list, hl, hs, -⟩ := sound_of_leadsTo hm hrun hw (hids.sublist hsub)
    exact ContextEdit.follows hl hs hedit

/-- A context is replaced under its name and keeps its identifier. -/
theorem contextEdits_follow_map_replaced :
    let places := Places.inDirectory "/store"
    let m : Model := {}
    let first : ContextEdit := .save " work " "/p" []
    let again : ContextEdit := .save "work" "/p" ["b"]
    let n := (m.run (first.perform places).run).2
    stored places m = .ok [] ∧ first.Writes places m ∧ again.Writes places n ∧
      (givenIds places [(n, again), (m, first)]).Nodup ∧ LoadsSound places n ∧
      ∃ o, n.run (again.perform places).run =
          (.ok (.saved (some ⟨nextId m, "work", "/p", ["b"]⟩)), o) ∧
        stored places o = .ok [⟨nextId m, "work", "/p", ["b"]⟩] := by
  intro places m first again n
  have hm : stored places m = .ok [] := by decide +kernel
  have hfirst : first.Writes places m := fun _ _ _ => by decide +kernel
  have hagain : again.Writes places n := fun _ _ _ => by decide +kernel
  have hgiven : (givenIds places [(m, first)]).Nodup := by
    have hnext : ContextEdit.given? places (m, first) = some (nextId m) :=
      ContextEdit.given?_save hm (by decide) List.not_mem_nil
    rw [givenIds, List.filterMap_cons_some hnext]
    exact List.nodup_singleton _
  have hn : stored places n = .ok [⟨nextId m, "work", "/p", []⟩] := by
    obtain ⟨-, -, hfollows⟩ := contextEdits_follow_map hm LeadsTo.refl nofun
    obtain ⟨list, kept, o, hl, hkept, ho, hstored, -, -⟩ := hfollows first hfirst hgiven
    rw [hm] at hl
    cases hl
    have hfrom : n = o := congrArg Prod.snd ho
    rw [hfrom, hstored, hkept]
    decide +kernel
  have hids : (givenIds places [(n, again), (m, first)]).Nodup := by
    have hnone : ContextEdit.given? places (n, again) = none := by
      rw [ContextEdit.given?, hn]
      decide +kernel
    rw [givenIds, List.filterMap_cons_none hnone]
    exact hgiven
  obtain ⟨-, hsound, hfollows⟩ := contextEdits_follow_map hm (LeadsTo.refl.use first)
    (List.forall_mem_singleton.2 hfirst)
  obtain ⟨list, kept, o, hl, hkept, ho, hstored, -, -⟩ := hfollows again hagain hids
  rw [hn] at hl
  cases hl
  have honList : again.onList (nextId n) [⟨nextId m, "work", "/p", []⟩] =
      (.saved (some ⟨nextId m, "work", "/p", ["b"]⟩),
        some [⟨nextId m, "work", "/p", ["b"]⟩]) := by
    decide +kernel
  rw [honList] at ho hkept
  rw [hkept] at hstored
  exact ⟨hm, hfirst, hagain, hids, hsound hgiven, o, ho, hstored⟩

end FileSieve.Store
