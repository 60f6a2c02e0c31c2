import FileSieve.Proofs.Selection.CheckStates
import FileSieve.Selection.Change

/-! # What toggling a node changes

Toggling takes out the files at and below a checked node and puts those of any other node in. Where
no two nodes share a path, this reaches the states of the nodes above and below and no others. -/

namespace FileSieve

open FileSieve.Tree

namespace Selection

variable {tree : List Node} {node : Node} {s : Selection} {path : String}

/-! ## Selected paths -/

theorem toggle_of_checked (h : CheckState.ofPaths s (filePaths node) = .checked) :
    s.toggle node = s.diff (filePaths node) := by
  obtain ⟨hne, hall⟩ := CheckState.ofPaths_eq_checked_iff.1 h
  rw [toggle, if_neg (by simpa using hne), if_pos (by simpa using hall)]

theorem toggle_of_not_checked (h : CheckState.ofPaths s (filePaths node) ≠ .checked) :
    s.toggle node = s.union (filePaths node) := by
  rw [Ne, CheckState.ofPaths_eq_checked_iff, not_and] at h
  rw [toggle]
  split
  · next hnil =>
    rw [List.isEmpty_iff.1 hnil]
    rfl
  · next hne =>
    rw [if_neg (by simpa using h (by simpa using hne))]

theorem toggle_of_filePaths_eq_nil (h : filePaths node = []) (s : Selection) :
    s.toggle node = s := by
  rw [toggle, h, List.isEmpty_nil, if_pos rfl]

/-- Paths of other files stay as they are. -/
theorem mem_toggle_of_not_mem (h : path ∉ filePaths node) : path ∈ s.toggle node ↔ path ∈ s := by
  by_cases hs : CheckState.ofPaths s (filePaths node) = .checked
  · simp [toggle_of_checked hs, h]
  · simp [toggle_of_not_checked hs, h]

theorem mem_or_mem_of_mem_toggle (h : path ∈ s.toggle node) : path ∈ s ∨ path ∈ filePaths node := by
  by_cases hp : path ∈ filePaths node
  · exact .inr hp
  · exact .inl ((mem_toggle_of_not_mem hp).1 h)

/-! ## States of nodes -/

theorem ofPaths_toggle_of_checked (h : CheckState.ofPaths s (filePaths node) = .checked)
    {below : Node} (hb : below ∈ nodesOf node) :
    CheckState.ofPaths (s.toggle node) (filePaths below) = .unchecked := by
  rw [CheckState.ofPaths_eq_unchecked_iff, toggle_of_checked h]
  intro path hpath
  simp [filePaths_subset_of_mem hb hpath]

theorem ofPaths_toggle_of_not_checked (h : CheckState.ofPaths s (filePaths node) ≠ .checked)
    {below : Node} (hb : below ∈ nodesOf node) (hne : filePaths below ≠ []) :
    CheckState.ofPaths (s.toggle node) (filePaths below) = .checked := by
  rw [CheckState.ofPaths_eq_checked_iff, toggle_of_not_checked h]
  refine ⟨hne, ?_⟩
  intro path hpath
  simp [filePaths_subset_of_mem hb hpath]

theorem toggleIn?_eq_some_iff (hd : ((nodes tree).map Node.path).Nodup) {t : Selection} :
    s.toggleIn? tree node = some t ↔ node ∈ nodes tree ∧ s.toggle node = t := by
  rw [toggleIn?, ← contains_iff hd]
  split <;> simp_all

theorem toggleIn?_eq_none_iff (hd : ((nodes tree).map Node.path).Nodup) :
    s.toggleIn? tree node = none ↔ node ∉ nodes tree := by
  rw [toggleIn?, ← contains_iff hd]
  split <;> simp_all

/-- A node can be toggled if it is in the tree. Toggling unchecks a checked node with everything
below it and checks any other, as far as there are files. Nodes that stand neither above nor below
it keep their states, and paths of other files stay selected or not. -/
theorem toggle_reaches_below (hd : ((nodes tree).map Node.path).Nodup) (node : Node)
    (s : Selection) :
    (s.toggleIn? tree node = none ↔ node ∉ nodes tree) ∧
    ∀ t, s.toggleIn? tree node = some t →
      let before := checkStates tree s
      let after := checkStates tree t
      (filePaths node = [] → t = s) ∧
      (filePaths node ≠ [] →
        (∀ below ∈ nodesOf node, filePaths below ≠ [] →
          (before.get? node.path = some .checked → after.get? below.path = some .unchecked) ∧
          (before.get? node.path = some .unchecked ∨ before.get? node.path = some .indeterminate →
            after.get? below.path = some .checked)) ∧
        (∀ other ∈ nodes tree, node ∉ nodesOf other → other ∉ nodesOf node →
          after.get? other.path = before.get? other.path) ∧
        ∀ path, path ∉ filePaths node → (path ∈ t ↔ path ∈ s)) := by
  refine ⟨toggleIn?_eq_none_iff hd, ?_⟩
  intro t ht before after
  obtain ⟨hnode, rfl⟩ := (toggleIn?_eq_some_iff hd).1 ht
  have hbefore : before.get? node.path = some (.ofPaths s (filePaths node)) :=
    get?_checkStates hd hnode s
  refine ⟨fun hnil => toggle_of_filePaths_eq_nil hnil s, fun _ => ⟨?_, ?_, ?_⟩⟩
  · intro below hbelow hne
    have hafter : after.get? below.path =
        some (.ofPaths (s.toggle node) (filePaths below)) :=
      get?_checkStates hd (nodesOf_subset hnode hbelow) _
    simp only [hbefore, hafter, Option.some_inj]
    constructor
    · intro hchecked
      exact ofPaths_toggle_of_checked hchecked hbelow
    · intro hother
      refine ofPaths_toggle_of_not_checked ?_ hbelow hne
      rcases hother with h | h <;> simp [h]
  · intro other hother habove hbelow
    have hdisjoint := filePaths_disjoint hd hother hnode hbelow habove
    rw [show after.get? other.path = _ from get?_checkStates hd hother _,
      show before.get? other.path = _ from get?_checkStates hd hother _,
      CheckState.ofPaths_congr fun path hpath => mem_toggle_of_not_mem (hdisjoint hpath)]
  · exact fun path hpath => mem_toggle_of_not_mem hpath

theorem toggle_reaches_below_partly :
    let node : Node := .directory "d" "/d" [.file "a" "/d/a", .file "b" "/d/b"]
    let tree : List Node := [node, .directory "e" "/e" [.file "c" "/e/c"]]
    let s := ofList ["/d/a", "/x"]
    let t := s.toggle node
    ((nodes tree).map Node.path).Nodup ∧ s.toggleIn? tree (.file "z" "/z") = none ∧
      s.toggleIn? tree node = some t ∧ filePaths node ≠ [] ∧
      (checkStates tree s).get? "/d" = some .indeterminate ∧
      (checkStates tree t).get? "/d/b" = some .checked ∧
      (checkStates tree t).get? "/e" = (checkStates tree s).get? "/e" ∧
      ("/x" ∈ t ↔ "/x" ∈ s) := by
  intro node tree s t
  have hd : ((nodes tree).map Node.path).Nodup := by decide +kernel
  have hpart : (checkStates tree s).get? "/d" = some .indeterminate := by decide +kernel
  have ht : s.toggleIn? tree node = some t := by decide +kernel
  have hne : filePaths node ≠ [] := by decide +kernel
  obtain ⟨hbelow, hapart, hother⟩ := ((toggle_reaches_below hd node s).2 t ht).2 hne
  refine ⟨hd, ?_, ht, hne, hpart, ?_, ?_, ?_⟩
  · exact (toggle_reaches_below hd (.file "z" "/z") s).1.2 (by decide +kernel)
  · exact (hbelow (.file "b" "/d/b") (by decide +kernel) (by decide +kernel)).2 (.inr hpart)
  · exact hapart (.directory "e" "/e" [.file "c" "/e/c"]) (by decide +kernel) (by decide +kernel)
      (by decide +kernel)
  · exact hother "/x" (by decide +kernel)

end Selection

end FileSieve
