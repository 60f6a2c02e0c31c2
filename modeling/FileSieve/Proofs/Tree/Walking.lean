import Mathlib.Data.List.Nodup
import Mathlib.Data.List.Pairwise
import FileSieve.Proofs.Tree.Pruning

/-! # The nodes of a tree

The nodes at and below a node stand together in pre-order. Where no two nodes share a path, a node
is found by its path, and two nodes have nothing below them in common unless one of them stands
below the other. -/

namespace FileSieve.Tree

/-! ## Nodes at and below a node -/

theorem nodesOf_eq (node : Node) : nodesOf node = node :: nodes node.children := by
  cases node <;> rfl

theorem nodes_cons (node : Node) (rest : List Node) :
    nodes (node :: rest) = nodesOf node ++ nodes rest := rfl

theorem nodes_eq_flatMap (tree : List Node) : nodes tree = tree.flatMap nodesOf := by
  induction tree with
  | nil => rfl
  | cons node rest ih => rw [nodes_cons, ih, List.flatMap_cons]

theorem mem_nodesOf_iff {top node : Node} :
    node ∈ nodesOf top ↔ node = top ∨ node ∈ nodes top.children := by
  rw [nodesOf_eq, List.mem_cons]

theorem mem_nodes_iff {tree : List Node} {node : Node} :
    node ∈ nodes tree ↔ ∃ top ∈ tree, node ∈ nodesOf top := by
  rw [nodes_eq_flatMap, List.mem_flatMap]

theorem mem_nodesOf_self (node : Node) : node ∈ nodesOf node :=
  mem_nodesOf_iff.2 (.inl rfl)

/-- A tree is built from trees below its nodes. -/
@[elab_as_elim]
theorem induction_children {motive : List Node → Prop}
    (h : ∀ tree, (∀ top ∈ tree, motive top.children) → motive tree) (tree : List Node) :
    motive tree := by
  have hnil : motive [] := h [] (by simp)
  have hall : ∀ top ∈ tree, motive top.children := by
    induction tree using induction with
    | nil => simp
    | file label path rest ih => simpa [Node.children, hnil] using ih
    | directory label path children rest ihc ih => simpa [Node.children, h children ihc] using ih
  exact h tree hall

/-- A tree is built from the nodes below its first node and those beside it. -/
@[elab_as_elim]
theorem induction_cons {motive : List Node → Prop} (nil : motive [])
    (cons : ∀ node rest, motive node.children → motive rest → motive (node :: rest))
    (tree : List Node) : motive tree := by
  induction tree using induction with
  | nil => exact nil
  | file label path rest ih => exact cons _ rest nil ih
  | directory label path children rest ihc ih => exact cons _ rest ihc ih

theorem forall_mem_nodes_cons_iff {p : Node → Prop} {first : Node} {rest : List Node} :
    (∀ node ∈ nodes (first :: rest), p node) ↔
      p first ∧ (∀ node ∈ nodes first.children, p node) ∧ ∀ node ∈ nodes rest, p node := by
  rw [nodes_cons, nodesOf_eq, List.forall_mem_append, List.forall_mem_cons, and_assoc]

/-- What stands below a node of a tree stands in the tree. -/
theorem nodesOf_subset {tree : List Node} {node : Node} (h : node ∈ nodes tree) :
    nodesOf node ⊆ nodes tree := by
  induction tree using induction_children with
  | h tree ih =>
    intro other ho
    rw [mem_nodes_iff] at h ⊢
    obtain ⟨top, htop, hnode⟩ := h
    refine ⟨top, htop, ?_⟩
    rcases mem_nodesOf_iff.1 hnode with rfl | hnode
    · exact ho
    · exact mem_nodesOf_iff.2 (.inr (ih top htop hnode ho))

theorem nodes_children_subset {tree : List Node} {node : Node} (h : node ∈ nodes tree) :
    nodes node.children ⊆ nodes tree :=
  fun _ hb => nodesOf_subset h (mem_nodesOf_iff.2 (.inr hb))

theorem nodesOf_subset_of_mem {node below : Node} (h : below ∈ nodesOf node) :
    nodesOf below ⊆ nodesOf node := by
  have hnodes : nodes [node] = nodesOf node := List.append_nil _
  rw [← hnodes] at h ⊢
  exact nodesOf_subset h

/-! ## Files at and below a node -/

theorem filePaths_eq (node : Node) :
    filePaths node = ((nodesOf node).filterMap Node.flatFile?).map FlatFile.path := by
  simp [filePaths, flatFiles, nodes]

theorem flatFile?_eq_some_iff {node : Node} {file : FlatFile} :
    node.flatFile? = some file ↔ node = .file file.label file.path := by
  obtain ⟨label, path⟩ := file
  cases node <;> simp [Node.flatFile?]

theorem mem_flatFiles_iff {tree : List Node} {file : FlatFile} :
    file ∈ flatFiles tree ↔ .file file.label file.path ∈ nodes tree := by
  simp [flatFiles, flatFile?_eq_some_iff]

theorem mem_filePaths_iff {node : Node} {path : String} :
    path ∈ filePaths node ↔ ∃ label, .file label path ∈ nodesOf node := by
  rw [filePaths_eq, List.mem_map]
  constructor
  · rintro ⟨⟨label, path⟩, hfile, rfl⟩
    obtain ⟨_, hmem, hfile⟩ := List.mem_filterMap.1 hfile
    rw [flatFile?_eq_some_iff] at hfile
    exact ⟨label, hfile ▸ hmem⟩
  · intro h
    obtain ⟨label, hmem⟩ := h
    exact ⟨⟨label, path⟩, List.mem_filterMap.2 ⟨_, hmem, rfl⟩, rfl⟩

theorem filePaths_subset_of_mem {node below : Node} (h : below ∈ nodesOf node) :
    filePaths below ⊆ filePaths node := by
  intro path hpath
  rw [mem_filePaths_iff] at hpath ⊢
  obtain ⟨label, hmem⟩ := hpath
  exact ⟨label, nodesOf_subset_of_mem h hmem⟩

theorem filePaths_subset {tree : List Node} {node : Node} (h : node ∈ nodes tree) :
    filePaths node ⊆ (flatFiles tree).map FlatFile.path := by
  intro path hpath
  obtain ⟨label, hmem⟩ := mem_filePaths_iff.1 hpath
  exact List.mem_map.2 ⟨⟨label, path⟩, mem_flatFiles_iff.2 (nodesOf_subset h hmem), rfl⟩

/-! ## Nodes with distinct paths -/

/-- No node stands below two of the nodes at the top. -/
theorem top_eq_of_mem {tree : List Node} (hn : (nodes tree).Nodup) {first second node : Node}
    (hf : first ∈ tree) (hs : second ∈ tree) (h : node ∈ nodesOf first)
    (h' : node ∈ nodesOf second) : first = second := by
  rw [nodes_eq_flatMap, List.nodup_flatMap] at hn
  have : Std.Symm (Function.onFun List.Disjoint nodesOf) := ⟨fun _ _ h => List.disjoint_symm h⟩
  by_contra hne
  exact hn.2.forall hf hs hne h h'

section

variable {tree : List Node} (hd : ((nodes tree).map Node.path).Nodup)

include hd

theorem eq_of_path_eq {a b : Node} (ha : a ∈ nodes tree) (hb : b ∈ nodes tree)
    (h : a.path = b.path) : a = b :=
  List.inj_on_of_nodup_map hd ha hb h

/-- A node is found by its path. -/
theorem find?_path {node : Node} (h : node ∈ nodes tree) : find? tree node.path = some node := by
  cases hfind : find? tree node.path with
  | none => simpa using List.find?_eq_none.1 hfind node h
  | some found =>
    have hpath : found.path = node.path := by simpa using List.find?_some hfind
    rw [eq_of_path_eq hd (List.mem_of_find?_eq_some hfind) h hpath]

theorem contains_iff {node : Node} : contains tree node = true ↔ node ∈ nodes tree := by
  rw [contains, beq_iff_eq]
  constructor
  · exact List.mem_of_find?_eq_some
  · exact find?_path hd

/-- Two nodes have nothing below them in common unless one of them stands below the other. -/
theorem nested_or_disjoint {a b : Node} (ha : a ∈ nodes tree) (hb : b ∈ nodes tree) :
    a ∈ nodesOf b ∨ b ∈ nodesOf a ∨ (nodesOf a).Disjoint (nodesOf b) := by
  have hnodes := List.Nodup.of_map Node.path hd
  clear hd
  induction tree using induction_children with
  | h tree ih =>
    obtain ⟨first, hfirst, ha⟩ := mem_nodes_iff.1 ha
    obtain ⟨second, hsecond, hb⟩ := mem_nodes_iff.1 hb
    by_cases hsame : first = second
    · subst hsame
      have hchildren : (nodes first.children).Nodup := by
        rw [nodes_eq_flatMap, List.nodup_flatMap] at hnodes
        have hbelow := hnodes.1 first hfirst
        rw [nodesOf_eq] at hbelow
        exact hbelow.of_cons
      rcases mem_nodesOf_iff.1 ha with rfl | ha
      · exact .inr (.inl hb)
      · rcases mem_nodesOf_iff.1 hb with rfl | hb
        · exact .inl (mem_nodesOf_iff.2 (.inr ha))
        · exact ih first hfirst ha hb hchildren
    · refine .inr (.inr ?_)
      intro node hnode hnode'
      exact hsame (top_eq_of_mem hnodes hfirst hsecond (nodesOf_subset_of_mem ha hnode)
        (nodesOf_subset_of_mem hb hnode'))

theorem filePaths_disjoint {a b : Node} (ha : a ∈ nodes tree) (hb : b ∈ nodes tree)
    (hab : a ∉ nodesOf b) (hba : b ∉ nodesOf a) : (filePaths a).Disjoint (filePaths b) := by
  have hdisjoint := ((nested_or_disjoint hd ha hb).resolve_left hab).resolve_left hba
  intro path hpath hpath'
  obtain ⟨label, hfile⟩ := mem_filePaths_iff.1 hpath
  obtain ⟨label', hfile'⟩ := mem_filePaths_iff.1 hpath'
  have hsame : Node.file label path = .file label' path :=
    eq_of_path_eq hd (nodesOf_subset ha hfile) (nodesOf_subset hb hfile') rfl
  exact hdisjoint hfile (hsame ▸ hfile')

end

end FileSieve.Tree
