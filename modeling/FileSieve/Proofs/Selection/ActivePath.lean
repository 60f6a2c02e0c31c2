import FileSieve.Proofs.Scan.Runs

/-! # The active path

Adding and taking out paths resets the active path when it is taken out of the selection. Toggling a
node and restoring a selection leave it as it is, even when they take it out. -/

namespace FileSieve

/-- Whether a change looks after the active path. -/
def Edit.tracksActive : Edit → Bool
  | .toggle _ | .restore _ => false
  | .add _ | .remove _ | .removeWhere _ | .clear => true

namespace Controller

/-- Whether the active path is selected in one state and no longer in another. -/
def loses (c d : Controller) : Bool :=
  c.active.any fun path => path ∈ c.selection && path ∉ d.selection

theorem loses_iff {c d : Controller} :
    c.loses d = true ↔ ∃ path, c.active = some path ∧ path ∈ c.selection ∧ path ∉ d.selection := by
  simp [loses, Option.any_eq_true]

theorem active_toggle {c d : Controller} {path : String} (h : c.toggle path = .ok d) :
    d.active = c.active := by
  unfold Controller.toggle at h
  split at h
  · cases h
  · cases h
    rfl

theorem active_remove (c : Controller) (paths : List String) :
    (c.remove paths).2.active = if c.loses (c.remove paths).2 then none else c.active := by
  have hlost : c.loses (c.remove paths).2 = c.active.any (· ∈ c.selection.inter paths) := by
    rw [Bool.eq_iff_iff, loses_iff, Option.any_eq_true]
    refine exists_congr fun path => and_congr_right fun _ => ?_
    have hremoved : path ∈ (c.remove paths).2.selection ↔
        path ∈ c.selection ∧ path ∉ c.selection.inter paths := Selection.mem_diff
    rw [hremoved, decide_eq_true_iff]
    constructor
    · rintro ⟨hs, hn⟩
      exact Decidable.byContradiction fun hi => hn ⟨hs, hi⟩
    · intro hi
      exact ⟨(Selection.mem_inter.1 hi).1, fun h => h.2 hi⟩
  rw [hlost]
  rfl

theorem loses_add (c : Controller) (paths : List String) : c.loses (c.add paths).2 = false := by
  rw [Bool.eq_false_iff, Ne, loses_iff]
  rintro ⟨path, -, hs, hn⟩
  exact hn (Selection.mem_union.2 (.inl hs))

/-- A change resets the active path if it looks after it and takes it out of the selection, and
leaves it as it is otherwise. -/
theorem active_edit (c : Controller) (e : Edit) :
    (c.edit e).active =
      if e.tracksActive && c.loses (c.edit e) then none else c.active := by
  cases e with
  | toggle path =>
    rw [edit]
    cases ht : c.toggle path with
    | ok d => exact active_toggle ht
    | error problem => rfl
  | restore saved => rfl
  | add paths =>
    rw [edit, loses_add, Bool.and_false]
    rfl
  | remove paths => exact active_remove c paths
  | removeWhere test => exact active_remove c _
  | clear => exact active_remove c _

end Controller

namespace Desk

/-- The listing of a directory with one file. -/
def oneFile (directory : String) : Except ListingFailure (List Entry) :=
  .ok [⟨"f", false, Host.Model.entryPath directory "f"⟩]

theorem treeOn_oneFile :
    Control.treeOn oneFile (Controller.start {}).2 .inOrder 2 "/r" []
      (some (Controller.start {}).1) = .ok (some (Scan.result "/r" [.file "f" "/r/f"])) := by
  have hl : Scan.HasLevels oneFile 2 "/r" := by
    intro entry he hd
    rw [List.mem_singleton.1 he] at hd
    cases hd
  have htree : Scan.treeOf oneFile ([] : List Rule) 2 ⟨"/r", ""⟩ = [.file "f" "/r/f"] :=
    List.mergeSort_singleton _
  rw [← htree]
  exact Control.treeOn_of_hasLevels (by decide) (Control.superseded_start _) hl
    fun job _ hb => nomatch hb

/-- A selected file is active, and toggling it or restoring an empty selection leaves it active. -/
theorem toggled_stays_active :
    let d := (((Desk.mk {} []).take (.scan { list := oneFile, depth := 2 } "/r" [])).take
      (.edit (.toggle "/r/f"))).take (.setActive (some "/r/f"))
    Reachable d ∧ d.controller.active = some "/r/f" ∧ "/r/f" ∈ d.controller.selection ∧
      ∀ e ∈ [Edit.toggle "/r/f", .restore []], "/r/f" ∉ (d.controller.edit e).selection ∧
        (d.controller.edit e).active = some "/r/f" := by
  intro d
  have hscanned := Reachable.step (.fresh (RuleCache.ofCapacity RuleCache.defaultCapacity) 0)
    (.scan { list := oneFile, depth := 2 } "/r" []) fun h => absurd h (by decide)
  have hr : Reachable d := (hscanned.step (.edit (.toggle "/r/f")) trivial).step
    (.setActive (some "/r/f")) trivial
  refine ⟨hr, ?_⟩
  have hscan := Control.perform_scan_of_treeOn treeOn_oneFile
  simp only [d, Desk.take, hscan]
  clear hscan hr hscanned d
  decide +kernel

end Desk

end FileSieve
