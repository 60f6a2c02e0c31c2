import FileSieve.Proofs.Scan.Reordering
import FileSieve.Proofs.Tree.Nesting

/-! # The shape of a scanned tree

In the tree of a scan there is a file below each directory, siblings stand in strict order, and the
paths follow the labels, so that none occurs twice. The flat index has each file of the tree once.
Whatever walks over a scanned tree builds on that. -/

namespace FileSieve.Scan

open FileSieve.Tree

variable {α : Type} [PathRule α] {list : String → Except ListingFailure (List Entry)}
  {rules : List α} {root : String}

/-! ### The nodes of one directory -/

/-- Each node stands for an entry that the rules let through. -/
theorem exists_view_of_mem_treeOf {n : Nat} {job : Job} {node : Node}
    (h : node ∈ treeOf list rules n job) :
    ∃ v ∈ view list rules job, node.label = v.entry.name ∧ node.path = v.entry.path := by
  cases n with
  | zero => cases h
  | succ n =>
    rcases mem_treeOf_succ.1 h with ⟨v, hv, -, rfl⟩ | ⟨v, hv, rfl⟩
    · exact ⟨v, List.mem_of_mem_filter hv, rfl, rfl⟩
    · exact ⟨v, List.mem_of_mem_filter hv, rfl, rfl⟩

theorem children_ne_nil_of_mem_treeOf {n : Nat} {job : Job} {node : Node}
    (h : node ∈ treeOf list rules n job) (hf : node.isFile = false) : node.children ≠ [] := by
  cases n with
  | zero => cases h
  | succ n =>
    rcases mem_treeOf_succ.1 h with ⟨v, -, hne, rfl⟩ | ⟨v, -, rfl⟩
    · exact hne
    · cases hf

section

variable {job : Job} (hd : ((entriesOf list job.directory).map Entry.name).Nodup) (n : Nat)

include hd

theorem nodup_labels_treeOf : ((treeOf list rules n job).map Node.label).Nodup := by
  cases n with
  | zero => exact List.nodup_nil
  | succ n =>
    apply nodup_labels_assemble
    rw [List.map_map]
    exact nodup_names_split hd

theorem pairwise_treeOf : (treeOf list rules n job).Pairwise Node.Precedes := by
  have hlabels := @nodup_labels_treeOf _ _ _ rules _ hd n
  cases n with
  | zero => exact .nil
  | succ n =>
    rw [treeOf, assemble, ((Node.sort_perm _).map Node.label).nodup_iff] at hlabels
    exact Node.pairwise_sort hlabels

end

theorem named_treeOf (ht : IsTree list root) (n : Nat) {job : Job}
    (hj : Reaches list rules root job) : Named job.directory (treeOf list rules n job) where
  path_eq node hnode := by
    obtain ⟨v, hv, hlabel, hpath⟩ := exists_view_of_mem_treeOf hnode
    rw [hlabel, hpath]
    exact ht.path_eq job hj.hasDirectory v.entry (mem_of_mem_visible hv).1
  slashless node hnode := by
    obtain ⟨v, hv, hlabel, -⟩ := exists_view_of_mem_treeOf hnode
    rw [hlabel]
    exact ht.slashless job hj.hasDirectory v.entry (mem_of_mem_visible hv).1
  distinct := nodup_labels_treeOf (ht.distinct job hj.hasDirectory) n

/-! ### All directories -/

/-- What holds of the nodes of each directory that is reached, and of no nodes, holds at each
depth. -/
theorem throughout_treeOf {p : String → List Node → Prop} (hnil : ∀ directory, p directory [])
    (hp : ∀ n job, Reaches list rules root job → p job.directory (treeOf list rules n job))
    (n : Nat) {job : Job} (hj : Reaches list rules root job) :
    Throughout p job.directory (treeOf list rules n job) := by
  induction n generalizing job with
  | zero => exact throughout_nil.2 (hnil job.directory)
  | succ n ih =>
    refine throughout_iff.2 ⟨hp (n + 1) job hj, ?_⟩
    intro node hnode
    rcases mem_treeOf_succ.1 hnode with ⟨v, hv, -, rfl⟩ | ⟨v, -, rfl⟩
    · exact ih (hj.enter hv)
    · exact throughout_nil.2 (hnil _)

theorem throughout_named (ht : IsTree list root) (n : Nat) :
    Throughout Named root (treeOf list rules n ⟨root, ""⟩) := by
  have hnil (directory : String) : Named directory [] := ⟨by simp, by simp, by simp⟩
  exact throughout_treeOf hnil (fun m job hj => named_treeOf ht m hj) n .root

/-- No directory is shown empty, at whatever depth. -/
theorem children_ne_nil_of_mem_nodes (n : Nat) :
    ∀ node ∈ nodes (treeOf list rules n ⟨root, ""⟩), node.isFile = false → node.children ≠ [] := by
  refine throughout_forall_mem_iff.1 (throughout_treeOf (by simp) ?_ n .root)
  exact fun m job _ node hnode => children_ne_nil_of_mem_treeOf hnode

/-! ### The whole tree -/

/-- What can be relied on in the result of a scan. -/
structure WellFormed (found : ScanResult) : Prop where
  /-- There is a file below each directory. -/
  filled : ∀ node ∈ nodes found.tree, node.isFile = false →
    ∃ file ∈ nodes node.children, file.isFile = true
  /-- Siblings stand in strict order. -/
  ascending : Throughout (fun _ siblings => siblings.Pairwise Node.Precedes) found.root found.tree
  /-- The path of a node is that of the directory above, a slash and the label. -/
  spelled : Throughout
    (fun directory siblings => ∀ node ∈ siblings, node.path = directory ++ "/" ++ node.label)
    found.root found.tree
  distinct : ((nodes found.tree).map Node.path).Nodup
  /-- The flat index has the files of the tree in pre-order. -/
  indexed : found.files = (nodes found.tree).filterMap Node.flatFile?
  once : (found.files.map FlatFile.path).Nodup

theorem flatFile?_path {node : Node} {file : FlatFile} (h : node.flatFile? = some file) :
    file.path = node.path := by
  rw [flatFile?_eq_some_iff.1 h]
  rfl

theorem wellFormed_result (ht : IsTree list root) (n : Nat) :
    WellFormed (result root (treeOf list rules n ⟨root, ""⟩)) where
  filled node hnode hf := by
    have hbelow := nodes_children_subset hnode
    apply exists_file
    · exact fun below hb => children_ne_nil_of_mem_nodes n below (hbelow hb)
    · exact children_ne_nil_of_mem_nodes n node hnode hf
  ascending := by
    apply throughout_treeOf (fun _ => .nil) ?_ n .root
    exact fun m job hj => pairwise_treeOf (ht.distinct job hj.hasDirectory) m
  spelled := (throughout_named ht n).imp fun _ _ h => h.path_eq
  distinct := nodup_paths (throughout_named ht n)
  indexed := rfl
  once := by
    refine (map_filterMap_sublist ?_ _).nodup (nodup_paths (throughout_named ht n))
    exact fun _ _ => flatFile?_path

/-- Of a tree of directories a scan makes a well-formed result. -/
theorem depthFirst_wellFormed (rules : List α) {n : Nat} {root : String} (ht : IsTree list root)
    (hl : HasLevels list n root)
    (hb : ∀ job ∈ reached list rules n ⟨root, ""⟩, ¬IsBroken list job.directory) :
    ∃ found, (observe list none (depthFirst rules n root)).1 = .ok found ∧ found.root = root ∧
      WellFormed found :=
  ⟨_, (observe_depthFirst hl hb).1, rfl, wellFormed_result ht n⟩

theorem depthFirst_wellFormed_folded :
    let c : Catalogue :=
      { directories := [
          ("/r", [⟨"b.txt", false, "/r/b.txt"⟩, ⟨"a.b", true, "/r/a.b"⟩, ⟨"old", true, "/r/old"⟩,
            ⟨"B.txt", false, "/r/B.txt"⟩, ⟨"a", true, "/r/a"⟩, ⟨"logs", true, "/r/logs"⟩]),
          ("/r/a", [⟨"a", true, "/r/a/a"⟩, ⟨"b.txt", false, "/r/a/b.txt"⟩]),
          ("/r/a/a", [⟨"a", false, "/r/a/a/a"⟩]),
          ("/r/a.b", [⟨"b.txt", false, "/r/a.b/b.txt"⟩]),
          ("/r/logs", [⟨"x.log", false, "/r/logs/x.log"⟩])]
        failures := [("/r/old", .unreadable "denied")] }
    let rules := compileRules ["*.log"]
    IsTree c.list "/r" ∧ HasLevels c.list 3 "/r" ∧
      (∀ job ∈ reached c.list rules 3 ⟨"/r", ""⟩, ¬IsBroken c.list job.directory) ∧
      ∃ found, (observe c.list none (depthFirst rules 3 "/r")).1 = .ok found ∧ found.root = "/r" ∧
        WellFormed found := by
  intro c rules
  have ht : IsTree c.list "/r" := isTree_catalogue "/r" (by decide +kernel)
  have hl : HasLevels c.list 3 "/r" := by
    simp [HasLevels, entriesOf, c, Catalogue.list, List.lookup_cons, List.lookup_nil]
  have hb : ∀ job ∈ reached c.list rules 3 ⟨"/r", ""⟩, ¬IsBroken c.list job.directory :=
    fun job _ => not_isBroken_catalogue (by simp [c]) job.directory
  clear_value c rules
  exact ⟨ht, hl, hb, depthFirst_wellFormed rules ht hl hb⟩

end FileSieve.Scan
