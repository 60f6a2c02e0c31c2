import FileSieve.Proofs.Store.ContextMap

/-! # Saved contexts by name

A store of contexts that was empty at first holds at most one context of a root under each name,
even if two contexts of it should share an identifier. So the context that was saved last under a
name is the one that is found under it. -/

namespace FileSieve.Store

open Host Program SavedContext

variable {list : List SavedContext} {c d : SavedContext}

/-- Contexts as they are saved: no two share a name and a root. -/
structure Keyed (list : List SavedContext) : Prop where
  wellFormed : ∀ c ∈ list, c.WellFormed
  slots : (list.map slot).Nodup

theorem keyed_nil : Keyed [] :=
  ⟨nofun, List.nodup_nil⟩

theorem Keyed.filter (h : Keyed list) (p : SavedContext → Bool) : Keyed (list.filter p) where
  wellFormed c hc := h.wellFormed c (List.mem_of_mem_filter hc)
  slots := h.slots.sublist (List.filter_sublist.map _)

theorem Keyed.concat (h : Keyed list) (hc : c.WellFormed) (hslot : c.slot ∉ list.map slot) :
    Keyed (list ++ [c]) where
  wellFormed := List.forall_mem_append.2 ⟨h.wellFormed, List.forall_mem_singleton.2 hc⟩
  slots := by
    rw [List.map_append, List.map_singleton, ← List.concat_eq_append]
    exact List.Nodup.concat hslot h.slots

/-- A context that takes the place of another one is the only one under its name and its root: the
identifier may take out more than the one that is replaced, but it does not leave that one in. -/
theorem Keyed.replacing (h : Keyed list) (hc : c.WellFormed) : Keyed (replacing list c) := by
  rw [Store.replacing]
  cases hf : list.find? (·.slot = c.slot) with
  | none =>
    apply h.concat hc
    simpa using hf
  | some d =>
    have hd : d ∈ list := List.mem_of_find?_eq_some hf
    have hslot : d.slot = c.slot := by simpa using List.find?_some hf
    apply (h.filter _).concat hc
    intro hm
    obtain ⟨e, he, hsame⟩ := List.mem_map.1 hm
    obtain ⟨he, hid⟩ := List.mem_filter.1 he
    -- A context that is left in this slot is the one that was to be replaced.
    have hed : e = d := List.inj_on_of_nodup_map h.slots he hd (hsame.trans hslot.symm)
    rw [hed] at hid
    simp at hid

theorem mem_replacing (list : List SavedContext) (c : SavedContext) : c ∈ replacing list c := by
  rw [replacing]
  split <;> simp

/-- A context of a root is found under its name. -/
theorem Keyed.find?_eq (h : Keyed list) (hc : c ∈ list) :
    (list.filter (·.root = c.root)).find? (·.name = c.name) = some c := by
  cases hf : (list.filter (·.root = c.root)).find? (·.name = c.name) with
  | none =>
    rw [List.find?_eq_none] at hf
    exact absurd (decide_eq_true rfl) (hf c (List.mem_filter.2 ⟨hc, decide_eq_true rfl⟩))
  | some d =>
    obtain ⟨hd, hroot⟩ := List.mem_filter.1 (List.mem_of_find?_eq_some hf)
    have hname : d.name = c.name := by simpa using List.find?_some hf
    have hslot : d.slot = c.slot := Prod.ext hname (of_decide_eq_true hroot)
    rw [List.inj_on_of_nodup_map h.slots hd hc hslot]

/-! ### Edits -/

variable {places : Places} {m n : Model} {name root : Utf16} {paths : List String}

namespace ContextEdit

theorem keyed_perform {edit : ContextEdit} (hl : stored places m = .ok list) (hs : Keyed list)
    (hw : edit.Writes places m) :
    ∃ kept, stored places (m.run (edit.perform places).run).2 = .ok kept ∧ Keyed kept := by
  have hw := hw list hl
  cases edit with
  | save name root paths =>
    rw [onList] at hw
    by_cases h : name.trim = "" ∨ root = ""
    · rw [perform, Model.runT_bind_of_eq (run_saveContext_of_refused h)]
      exact ⟨list, hl, hs⟩
    · rw [if_neg h] at hw
      obtain ⟨hn, hr⟩ := not_or.1 h
      obtain ⟨n, hn', hstored⟩ := run_saveContext hl hs.wellFormed h (hw rfl) paths
      rw [perform, Model.runT_bind_of_eq hn']
      exact ⟨_, hstored,
        hs.replacing (wellFormed_saving hs.wellFormed (nextId_ne_empty m) hn hr)⟩
  | delete id =>
    rw [onList] at hw
    by_cases h : id ∈ list.map SavedContext.id
    · rw [if_pos h] at hw
      obtain ⟨n, hn, hstored⟩ := run_deleteContext_of_present hl hs.wellFormed h (hw rfl)
      rw [perform, Model.runT_bind_of_eq hn]
      exact ⟨_, hstored, hs.filter _⟩
    · obtain ⟨n, hn, hstored⟩ := run_deleteContext_of_absent hl h
      rw [perform, Model.runT_bind_of_eq hn]
      exact ⟨list, hstored, hs⟩

end ContextEdit

/-- After any run from an empty store no two contexts share a name and a root. -/
theorem keyed_of_leadsTo {uses : List (Model × ContextEdit)} (hm : stored places m = .ok [])
    (hrun : LeadsTo places.contexts (ContextEdit.perform places) m uses n)
    (hw : ∀ use ∈ uses, use.2.Writes places use.1) :
    ∃ list, stored places n = .ok list ∧ Keyed list := by
  refine hrun.invariant (P := fun _ n => ∃ list, stored places n = .ok list ∧ Keyed list) hw
    ⟨[], hm, keyed_nil⟩ ?_ ?_
  · intro _ n o hsame hn
    have hstored : stored places o = stored places n := by rw [stored, stored, hsame]
    rwa [hstored]
  · intro _ n edit hw hn
    obtain ⟨list, hl, hs⟩ := hn
    exact ContextEdit.keyed_perform hl hs hw

/-- A context that was saved is found under its name. -/
theorem find?_saved (hl : stored places m = .ok list) (hs : Keyed list)
    (h : ¬(name.trim = "" ∨ root = "")) (hw : canWrite m places.contexts = true)
    (paths : List String) :
    ∃ c kept n, m.run (saveContext places name root paths).run = (.ok (some c), n) ∧
      stored places n = .ok kept ∧
      (kept.filter (·.root = root)).find? (·.name = name.trim) = some c ∧
      c.paths = (sortPaths paths).map Utf16.ofString := by
  obtain ⟨hn, hr⟩ := not_or.1 h
  obtain ⟨n, hrun, hstored⟩ := run_saveContext hl hs.wellFormed h hw paths
  refine ⟨_, _, n, hrun, hstored, ?_, rfl⟩
  exact (hs.replacing (wellFormed_saving hs.wellFormed (nextId_ne_empty m) hn hr)).find?_eq
    (mem_replacing _ _)

end FileSieve.Store
