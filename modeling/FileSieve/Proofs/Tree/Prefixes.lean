import FileSieve.Proofs.Tree.Nesting

/-! # What stands below a directory, told by paths

The nodes at and below a node stand next to each other in pre-order, and so do their files in the
flat index. Where the paths follow the labels, the files below a directory are those whose paths
start with the path of the directory and a slash. -/

namespace FileSieve.Tree

open FileSieve.Scan (LeadsOn name_eq_of_leadsOn)

/-- Whether a path starts with that of a directory and a slash. -/
def isBelow (directory path : String) : Bool :=
  (directory ++ "/").toList.isPrefixOf path.toList

theorem isBelow_iff {directory path : String} :
    isBelow directory path = true ↔ ∃ rest, path = directory ++ "/" ++ rest := by
  rw [isBelow, List.isPrefixOf_iff_prefix]
  constructor
  · rintro ⟨rest, hrest⟩
    refine ⟨String.ofList rest, String.toList_inj.1 ?_⟩
    simp [← hrest]
  · rintro ⟨rest, rfl⟩
    exact ⟨rest.toList, String.toList_append.symm⟩

/-! ## Neighbours in pre-order -/

theorem nodesOf_isInfix {tree : List Node} {node : Node} (h : node ∈ nodes tree) :
    nodesOf node <:+: nodes tree := by
  induction tree using induction_children with
  | h tree ih =>
    obtain ⟨top, htop, hnode⟩ := mem_nodes_iff.1 h
    have hbelow : nodesOf node <:+: nodesOf top := by
      rcases mem_nodesOf_iff.1 hnode with rfl | hnode
      · exact List.infix_rfl
      · rw [nodesOf_eq top]
        exact List.infix_cons (ih top htop hnode)
    obtain ⟨front, back, rfl⟩ := List.append_of_mem htop
    rw [nodes_append, nodes_cons]
    exact hbelow.trans ⟨nodes front, nodes back, by simp⟩

theorem flatFiles_children_isInfix {tree : List Node} {node : Node} (h : node ∈ nodes tree) :
    flatFiles node.children <:+: flatFiles tree := by
  have hchildren : nodes node.children <:+: nodesOf node := by
    rw [nodesOf_eq]
    exact List.infix_cons List.infix_rfl
  exact (hchildren.trans (nodesOf_isInfix h)).filterMap _

/-! ## Files by their paths -/

theorem flatFiles_singleton {node : Node} (h : node.isFile = false) :
    flatFiles [node] = flatFiles node.children := by
  cases node with
  | file label path => cases h
  | directory label path children => exact (flatFiles_directory ..).trans (List.append_nil _)

section

variable {directory : String} {siblings : List Node} (h : Throughout Named directory siblings)

include h

theorem isBelow_of_mem_flatFiles {file : FlatFile} (hf : file ∈ flatFiles siblings) :
    isBelow directory file.path = true :=
  isBelow_iff.2 (path_of_mem_nodes h (mem_flatFiles_iff.1 hf))

/-- Files with the path of a node in front stand at or below the sibling that leads to the node. -/
theorem label_eq_of_isBelow {top other node : Node} {file : FlatFile} (ht : top ∈ siblings)
    (ho : other ∈ siblings) (hn : node ∈ nodesOf top)
    (hf : .file file.label file.path ∈ nodesOf other) (hb : isBelow node.path file.path = true) :
    other.label = top.label := by
  obtain ⟨hnamed, -⟩ := throughout_iff.1 h
  have hother := leadsOn_of_mem_nodesOf h ho hf
  have htop := (leadsOn_of_mem_nodesOf h ht hn).trans (.inr (isBelow_iff.1 hb))
  exact name_eq_of_leadsOn (hnamed.slashless other ho) (hnamed.slashless top ht) hother htop

/-- The files below a directory are those with its path and a slash in front. -/
theorem filter_isBelow_flatFiles {label path : String} {children : List Node}
    (hn : .directory label path children ∈ nodes siblings) :
    (flatFiles siblings).filter (fun file => isBelow path file.path) = flatFiles children := by
  induction siblings using induction_children generalizing directory with
  | h siblings ih =>
    obtain ⟨hnamed, hbelow⟩ := throughout_iff.1 h
    obtain ⟨top, htop, hntop⟩ := mem_nodes_iff.1 hn
    have hin : (flatFiles [top]).filter (fun file => isBelow path file.path) =
        flatFiles children := by
      rcases mem_nodesOf_iff.1 hntop with rfl | hntop
      · have hall : ∀ file ∈ flatFiles children, isBelow path file.path = true :=
          fun file hf => isBelow_of_mem_flatFiles (hbelow _ htop) hf
        rw [flatFiles_singleton rfl]
        exact List.filter_eq_self.2 hall
      · have hdir : top.isFile = false := by
          cases top with
          | file label path => cases hntop
          | directory label path children => rfl
        rw [flatFiles_singleton hdir, ih top htop (hbelow top htop) hntop]
    -- no file beside the directory at the top that leads to the node has its path in front
    have hout : ∀ others ⊆ siblings, (∀ other ∈ others, other.label ≠ top.label) →
        (flatFiles others).filter (fun file => isBelow path file.path) = [] := by
      intro others hsub hne
      rw [List.filter_eq_nil_iff]
      intro file hf hb
      obtain ⟨other, ho, hfile⟩ := mem_nodes_iff.1 (mem_flatFiles_iff.1 hf)
      exact hne other ho (label_eq_of_isBelow h htop (hsub ho) hntop hfile hb)
    have hlabels := hnamed.distinct
    obtain ⟨front, back, rfl⟩ := List.append_of_mem htop
    rw [List.map_append, List.map_cons, List.nodup_middle, List.nodup_cons,
      ← List.map_append] at hlabels
    have hne : ∀ other ∈ front ++ back, other.label ≠ top.label :=
      fun other ho hsame => hlabels.1 (hsame ▸ List.mem_map_of_mem ho)
    have hfront := hout front (by simp) fun other ho => hne other (List.mem_append_left _ ho)
    have hback := hout back (by simp) fun other ho => hne other (List.mem_append_right _ ho)
    rw [flatFiles_append, ← List.singleton_append, flatFiles_append, List.filter_append,
      List.filter_append, hfront, hin, hback, List.nil_append, List.append_nil]

end

end FileSieve.Tree
