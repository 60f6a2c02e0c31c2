import FileSieve.Proofs.Selection.Toggling

/-! # Toggling more than once

After a toggle all files at and below a node are selected or none of them is, so that from then on
toggling goes back and forth between the two. A folder that was selected in part is full at first
and empty the next time. Nodes without a common file do not get in each other's way. -/

namespace FileSieve

open FileSieve.Tree

namespace Selection

variable {node other : Node} {s : Selection} {path : String}

/-- The files at and below a node are selected if the node was not checked. -/
theorem mem_toggle_of_mem (h : path ∈ filePaths node) :
    path ∈ s.toggle node ↔ CheckState.ofPaths s (filePaths node) ≠ .checked := by
  by_cases hs : CheckState.ofPaths s (filePaths node) = .checked
  · simp [toggle_of_checked hs, hs, h]
  · simp [toggle_of_not_checked hs, hs, h]

/-- Toggling turns a checked node into one that is not and, if it has files, the other way round. -/
theorem ofPaths_toggle_eq_checked_iff (hne : filePaths node ≠ []) :
    CheckState.ofPaths (s.toggle node) (filePaths node) = .checked ↔
      CheckState.ofPaths s (filePaths node) ≠ .checked := by
  rw [CheckState.ofPaths_eq_checked_iff, and_iff_right hne]
  constructor
  · intro hall
    obtain ⟨path, hpath⟩ := List.exists_mem_of_ne_nil _ hne
    exact (mem_toggle_of_mem hpath).1 (hall path hpath)
  · exact fun hs path hpath => (mem_toggle_of_mem hpath).2 hs

theorem mem_toggle_toggle_of_mem (h : path ∈ filePaths node) :
    path ∈ (s.toggle node).toggle node ↔ CheckState.ofPaths s (filePaths node) = .checked := by
  rw [mem_toggle_of_mem h, Ne, ofPaths_toggle_eq_checked_iff (List.ne_nil_of_mem h), not_not]

theorem toggle_toggle_toggle (node : Node) (s : Selection) :
    ((s.toggle node).toggle node).toggle node = s.toggle node := by
  apply ext_mem
  intro path
  by_cases h : path ∈ filePaths node
  · rw [mem_toggle_toggle_of_mem h, mem_toggle_of_mem h,
      ofPaths_toggle_eq_checked_iff (List.ne_nil_of_mem h)]
  · rw [mem_toggle_of_not_mem h, mem_toggle_of_not_mem h]

/-- Toggling twice changes nothing but the files of a node that is selected in part. -/
theorem toggle_toggle_eq_self_iff :
    (s.toggle node).toggle node = s ↔
      CheckState.ofPaths s (filePaths node) ≠ .indeterminate := by
  have hagree : (s.toggle node).toggle node = s ↔ ∀ path ∈ filePaths node,
      (path ∈ s ↔ CheckState.ofPaths s (filePaths node) = .checked) := by
    constructor
    · intro hsame path hpath
      rw [← mem_toggle_toggle_of_mem hpath, hsame]
    · intro hall
      apply ext_mem
      intro path
      by_cases h : path ∈ filePaths node
      · rw [mem_toggle_toggle_of_mem h, hall path h]
      · rw [mem_toggle_of_not_mem h, mem_toggle_of_not_mem h]
  rw [hagree]
  cases hs : CheckState.ofPaths s (filePaths node) with
  | checked => simpa using (CheckState.ofPaths_eq_checked_iff.1 hs).2
  | unchecked => simpa using CheckState.ofPaths_eq_unchecked_iff.1 hs
  | indeterminate => simpa using (CheckState.ofPaths_eq_indeterminate_iff.1 hs).1

/-- Toggling a node leaves the state of another one that has no file in common with it. -/
theorem ofPaths_toggle_of_disjoint (h : (filePaths node).Disjoint (filePaths other)) :
    CheckState.ofPaths (s.toggle node) (filePaths other) =
      CheckState.ofPaths s (filePaths other) :=
  CheckState.ofPaths_congr fun _ hpath => mem_toggle_of_not_mem fun hnode => h hnode hpath

theorem toggle_comm (h : (filePaths node).Disjoint (filePaths other)) :
    (s.toggle node).toggle other = (s.toggle other).toggle node := by
  apply ext_mem
  intro path
  by_cases hn : path ∈ filePaths node
  · have ho : path ∉ filePaths other := h hn
    rw [mem_toggle_of_not_mem ho, mem_toggle_of_mem hn, mem_toggle_of_mem hn,
      ofPaths_toggle_of_disjoint (List.disjoint_symm h)]
  · rw [mem_toggle_of_not_mem (s := s.toggle other) hn]
    by_cases ho : path ∈ filePaths other
    · rw [mem_toggle_of_mem ho, mem_toggle_of_mem ho, ofPaths_toggle_of_disjoint h]
    · rw [mem_toggle_of_not_mem ho, mem_toggle_of_not_mem hn, mem_toggle_of_not_mem ho]

/-- The third toggle of a node does what the first did. The second takes the first back exactly if
the node has no file or all its files are selected or none is. Toggling two nodes without a common
file comes to the same in either order. -/
theorem toggle_repeated (node : Node) (s : Selection) :
    ((s.toggle node).toggle node).toggle node = s.toggle node ∧
    ((s.toggle node).toggle node = s ↔
      filePaths node = [] ∨ (∀ path ∈ filePaths node, path ∈ s) ∨
        ∀ path ∈ filePaths node, path ∉ s) ∧
    ∀ other, (filePaths node).Disjoint (filePaths other) →
      (s.toggle node).toggle other = (s.toggle other).toggle node := by
  refine ⟨toggle_toggle_toggle node s, ?_, fun other h => toggle_comm h⟩
  rw [toggle_toggle_eq_self_iff, Ne, CheckState.ofPaths_eq_indeterminate_iff, not_and_or]
  push Not
  constructor
  · rintro (hnone | hall)
    · exact .inr (.inr hnone)
    · exact .inr (.inl hall)
  · rintro (hnil | hall | hnone)
    · exact .inl (by simp [hnil])
    · exact .inr hall
    · exact .inl hnone

theorem toggle_repeated_partly :
    let node : Node := .directory "d" "/d" [.file "a" "/d/a", .file "b" "/d/b"]
    let other : Node := .directory "e" "/e" [.file "a" "/e/a"]
    let s := ofList ["/d/a", "/x"]
    (filePaths node).Disjoint (filePaths other) ∧
      (s.toggle node).toggle node ≠ s ∧
      ((s.toggle node).toggle node).toggle node = s.toggle node ∧
      (s.toggle node).toggle other = (s.toggle other).toggle node := by
  intro node other s
  have hd : (filePaths node).Disjoint (filePaths other) :=
    List.disjoint_left.2 (by decide +kernel)
  obtain ⟨hthird, hsecond, hcomm⟩ := toggle_repeated node s
  refine ⟨hd, ?_, hthird, hcomm other hd⟩
  rw [Ne, hsecond]
  decide +kernel

end Selection

end FileSieve
