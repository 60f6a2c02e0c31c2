import Mathlib.Data.List.Forall2
import Mathlib.Data.List.Nodup

/-! # Tables with distinct keys

A row of a table is found under its key, in whatever order the rows stand, if no other row has that
key. -/

namespace FileSieve

theorem lookup_of_mem {β γ : Type} [BEq β] [LawfulBEq β] {table : List (β × γ)}
    (hn : (table.map Prod.fst).Nodup) {key : β} {value : γ} (h : (key, value) ∈ table) :
    table.lookup key = some value := by
  induction table with
  | nil => cases h
  | cons first rest ih =>
    obtain ⟨hfirst, hrest⟩ := List.nodup_cons.1 hn
    rw [List.lookup_cons]
    by_cases he : first.1 = key
    · rcases List.mem_cons.1 h with rfl | hm
      · simp
      · exact absurd (List.mem_map_of_mem hm) (he ▸ hfirst)
    · have hm := (List.mem_cons.1 h).resolve_left fun hc => he (hc ▸ rfl)
      have hb : (key == first.1) = false := by simpa using Ne.symm he
      rw [hb]
      exact ih hrest hm

/-- Results that follow a table of distinct keys row by row are found under their keys. -/
theorem exists_lookup {β γ δ : Type} [BEq β] [LawfulBEq β] {post : γ → δ → Prop}
    {table : List (β × γ)} {results : List (β × δ)}
    (h : List.Forall₂ (fun row result => result.1 = row.1 ∧ post row.2 result.2) table results)
    (hn : (table.map Prod.fst).Nodup) :
    ∀ row ∈ table, ∃ value, results.lookup row.1 = some value ∧ post row.2 value := by
  induction h with
  | nil => exact fun row hrow => absurd hrow List.not_mem_nil
  | @cons first result table results hfirst _ ih =>
    obtain ⟨hkey, hpost⟩ := hfirst
    obtain ⟨hnot, hn⟩ := List.nodup_cons.1 hn
    intro row hrow
    rw [List.lookup_cons, hkey]
    rcases List.mem_cons.1 hrow with rfl | hrow
    · exact ⟨result.2, by simp, hpost⟩
    · have hne : (row.1 == first.1) = false := by
        apply beq_false_of_ne
        intro he
        exact hnot (he ▸ List.mem_map_of_mem hrow)
      rw [hne]
      exact ih hn row hrow

theorem forall₂_filterMap_lookup {β γ δ : Type} [BEq β] {post : γ → δ → Prop}
    {table : List (β × γ)} {results : List (β × δ)}
    (h : ∀ row ∈ table, ∃ value, results.lookup row.1 = some value ∧ post row.2 value) :
    List.Forall₂ post (table.map Prod.snd)
      ((table.map Prod.fst).filterMap (results.lookup ·)) := by
  induction table with
  | nil => exact .nil
  | cons row rest ih =>
    obtain ⟨value, hv, hp⟩ := h row List.mem_cons_self
    have hrest := ih fun other ho => h other (List.mem_cons_of_mem row ho)
    rw [List.map_cons, List.map_cons, List.filterMap_cons, hv]
    exact .cons hp hrest

end FileSieve
