import FileSieve.Proofs.Scan.Distinct
import FileSieve.Proofs.Tree.Walking

/-! # Paths that follow the labels

In a tree the path of each node may be that of the directory above, a slash and the label. Where
siblings then have distinct labels without slashes, no path occurs twice in the tree. -/

namespace FileSieve.Tree

open FileSieve.Scan (LeadsOn name_eq_of_leadsOn)

/-! ## Siblings at each depth -/

/-- A property of siblings and the path of the directory they stand in holds at each depth. -/
def Throughout (p : String → List Node → Prop) (directory : String) (siblings : List Node) : Prop :=
  p directory siblings ∧ ∀ node ∈ nodes siblings, p node.path node.children

section

variable {p q : String → List Node → Prop} {directory : String} {siblings : List Node}

theorem throughout_iff : Throughout p directory siblings ↔
    p directory siblings ∧ ∀ node ∈ siblings, Throughout p node.path node.children := by
  rw [Throughout, nodes_eq_flatMap, List.forall_mem_flatMap]
  simp only [nodesOf_eq, List.forall_mem_cons, Throughout]

theorem throughout_nil : Throughout p directory [] ↔ p directory [] := by
  simp [Throughout, nodes]

theorem Throughout.imp (h : Throughout p directory siblings)
    (hi : ∀ directory siblings, p directory siblings → q directory siblings) :
    Throughout q directory siblings :=
  ⟨hi _ _ h.1, fun node hn => hi _ _ (h.2 node hn)⟩

/-- What holds of all siblings at each depth holds of all nodes. -/
theorem throughout_forall_mem_iff {p : Node → Prop} :
    Throughout (fun _ siblings => ∀ node ∈ siblings, p node) directory siblings ↔
      ∀ node ∈ nodes siblings, p node := by
  induction siblings using induction_children generalizing directory with
  | h siblings ih =>
    rw [throughout_iff, nodes_eq_flatMap, List.forall_mem_flatMap, ← forall₂_and]
    apply forall₂_congr
    intro top htop
    rw [ih top htop, nodesOf_eq, List.forall_mem_cons]

end

/-! ## Paths -/

/-- Siblings with distinct labels without slashes whose paths are told by them. -/
structure Named (directory : String) (siblings : List Node) : Prop where
  path_eq : ∀ node ∈ siblings, node.path = directory ++ "/" ++ node.label
  slashless : ∀ node ∈ siblings, '/' ∉ node.label.toList
  distinct : (siblings.map Node.label).Nodup

section

variable {directory : String} {siblings : List Node} (h : Throughout Named directory siblings)

include h

/-- The path of a directory is the front of all paths below it. -/
theorem path_of_mem_nodes {node : Node} (hn : node ∈ nodes siblings) :
    ∃ rest, node.path = directory ++ "/" ++ rest := by
  induction siblings using induction_children generalizing directory with
  | h siblings ih =>
    obtain ⟨hnamed, hbelow⟩ := throughout_iff.1 h
    obtain ⟨top, htop, hn⟩ := mem_nodes_iff.1 hn
    have hpath := hnamed.path_eq top htop
    rcases mem_nodesOf_iff.1 hn with rfl | hn
    · exact ⟨node.label, hpath⟩
    · obtain ⟨rest, hrest⟩ := ih top htop (hbelow top htop) hn
      exact ⟨top.label ++ "/" ++ rest, by rw [hrest, hpath]; simp only [String.append_assoc]⟩

theorem leadsOn_of_mem_nodesOf {top node : Node} (ht : top ∈ siblings) (hn : node ∈ nodesOf top) :
    LeadsOn (directory ++ "/" ++ top.label) node.path := by
  obtain ⟨hnamed, hbelow⟩ := throughout_iff.1 h
  rw [← hnamed.path_eq top ht]
  exact (mem_nodesOf_iff.1 hn).imp (congrArg Node.path) (path_of_mem_nodes (hbelow top ht))

/-- No two nodes share a path. -/
theorem nodup_paths : ((nodes siblings).map Node.path).Nodup := by
  induction siblings using induction_children generalizing directory with
  | h siblings ih =>
    obtain ⟨hnamed, hbelow⟩ := throughout_iff.1 h
    rw [nodes_eq_flatMap, List.map_flatMap, List.nodup_flatMap]
    constructor
    · intro top htop
      rw [nodesOf_eq, List.map_cons, List.nodup_cons]
      refine ⟨?_, ih top htop (hbelow top htop)⟩
      intro hmem
      obtain ⟨node, hn, hsame⟩ := List.mem_map.1 hmem
      obtain ⟨rest, hrest⟩ := path_of_mem_nodes (hbelow top htop) hn
      simp [← String.toList_inj, hsame] at hrest
    · -- a path tells the label at the top that leads to it
      have hlabels := hnamed.distinct
      rw [List.Nodup, List.pairwise_map] at hlabels
      apply hlabels.imp_of_mem
      intro a b ha hb hne
      apply List.disjoint_left.2
      intro path hpath hpath'
      obtain ⟨node, hn, rfl⟩ := List.mem_map.1 hpath
      obtain ⟨node', hn', hsame⟩ := List.mem_map.1 hpath'
      have hleads := leadsOn_of_mem_nodesOf h ha hn
      have hleads' := leadsOn_of_mem_nodesOf h hb hn'
      rw [hsame] at hleads'
      exact hne (name_eq_of_leadsOn (hnamed.slashless a ha) (hnamed.slashless b hb) hleads hleads')

end

/-! ## Files -/

/-- Where no directory is empty each way down ends at a file. -/
theorem exists_file {siblings : List Node}
    (h : ∀ node ∈ nodes siblings, node.isFile = false → node.children ≠ []) (hne : siblings ≠ []) :
    ∃ file ∈ nodes siblings, file.isFile = true := by
  induction siblings using induction_children with
  | h siblings ih =>
    obtain ⟨top, htop⟩ := List.exists_mem_of_ne_nil siblings hne
    have htop' : top ∈ nodes siblings := mem_nodes_iff.2 ⟨top, htop, mem_nodesOf_self top⟩
    have hbelow := nodes_children_subset htop'
    by_cases hf : top.isFile = true
    · exact ⟨top, htop', hf⟩
    · have hchildren := h top htop' (by simpa using hf)
      obtain ⟨file, hfile, hf⟩ := ih top htop (fun node hn => h node (hbelow hn)) hchildren
      exact ⟨file, hbelow hfile, hf⟩

end FileSieve.Tree
