import FileSieve.Proofs.Tables
import FileSieve.Proofs.Tree.Walking
import FileSieve.Selection.Check

/-! # What check states say

One pass over a tree counts files upwards and notes a state for each node. Where no two nodes share
a path no state is noted twice, and what is noted for a node is told by the files at and below it. -/

namespace FileSieve

open FileSieve.Tree

/-! ## States of sets of files -/

namespace CheckState

theorem ofCounts_eq_unchecked_iff {total selected : Nat} :
    ofCounts total selected = .unchecked ↔ total = 0 ∨ selected = 0 := by
  rw [← decide_eq_true_eq (p := total = 0), ← decide_eq_true_eq (p := selected = 0),
    ← Bool.or_eq_true, ofCounts]
  split
  · next h => simp [h]
  · next h => split <;> simp [h]

theorem ofCounts_eq_checked_iff {total selected : Nat} :
    ofCounts total selected = .checked ↔ total ≠ 0 ∧ selected = total := by
  unfold ofCounts
  split
  · next h =>
    simp only [Bool.or_eq_true, decide_eq_true_eq] at h
    simp only [reduceCtorEq, false_iff]
    omega
  · next h =>
    simp only [Bool.or_eq_true, decide_eq_true_eq, not_or] at h
    split <;> simp_all

theorem eq_indeterminate_iff (state : CheckState) :
    state = .indeterminate ↔ state ≠ .checked ∧ state ≠ .unchecked := by
  cases state <;> simp

variable {s : Selection} {paths : List String}

/-- The state of a node with these files at and below it. -/
def ofPaths (s : Selection) (paths : List String) : CheckState :=
  ofCounts paths.length (paths.countP (· ∈ s))

theorem ofPaths_eq_unchecked_iff : ofPaths s paths = .unchecked ↔ ∀ path ∈ paths, path ∉ s := by
  have hle : paths.countP (· ∈ s) ≤ paths.length := List.countP_le_length
  have hnone : paths.length = 0 ∨ paths.countP (· ∈ s) = 0 ↔ paths.countP (· ∈ s) = 0 := by omega
  rw [ofPaths, ofCounts_eq_unchecked_iff, hnone]
  simp [List.countP_eq_zero]

theorem ofPaths_eq_checked_iff :
    ofPaths s paths = .checked ↔ paths ≠ [] ∧ ∀ path ∈ paths, path ∈ s := by
  rw [ofPaths, ofCounts_eq_checked_iff, List.countP_eq_length]
  simp

/-- Some of the files are selected and some are not. -/
theorem ofPaths_eq_indeterminate_iff :
    ofPaths s paths = .indeterminate ↔ (∃ path ∈ paths, path ∈ s) ∧ ∃ path ∈ paths, path ∉ s := by
  simp only [eq_indeterminate_iff, ne_eq, ofPaths_eq_checked_iff, ofPaths_eq_unchecked_iff,
    not_and, not_forall, not_not, exists_prop]
  constructor
  · rintro ⟨hmissing, path, hpath, hs⟩
    exact ⟨⟨path, hpath, hs⟩, hmissing (List.ne_nil_of_mem hpath)⟩
  · rintro ⟨hsome, hmissing⟩
    exact ⟨fun _ => hmissing, hsome⟩

theorem ofPaths_congr {t : Selection} (h : ∀ path ∈ paths, path ∈ t ↔ path ∈ s) :
    ofPaths t paths = ofPaths s paths := by
  have hcount : paths.countP (· ∈ t) = paths.countP (· ∈ s) := by
    apply List.countP_congr
    simpa using h
  rw [ofPaths, hcount, ofPaths]

end CheckState

/-! ## Counting files upwards -/

theorem total_checkNodes (s : Selection) (tree : List Node) :
    (checkNodes s tree).total = (flatFiles tree).length := by
  induction tree using induction with
  | nil => rfl
  | file label path rest ih =>
    rw [checkNodes, checkNode, flatFiles_file, ih]
    split <;> simp [Nat.add_comm]
  | directory label path children rest ihc ih =>
    simp [checkNodes, checkNode, flatFiles_directory, ihc, ih]

theorem selected_checkNodes (s : Selection) (tree : List Node) :
    (checkNodes s tree).selected = ((flatFiles tree).map FlatFile.path).countP (· ∈ s) := by
  induction tree using induction with
  | nil => rfl
  | file label path rest ih =>
    rw [checkNodes, checkNode, flatFiles_file, ih]
    by_cases hs : path ∈ s <;> simp [hs, Nat.add_comm]
  | directory label path children rest ihc ih =>
    simp [checkNodes, checkNode, flatFiles_directory, ihc, ih]

/-- The state that is noted for a node is told by the files at and below it. -/
def noteOf (s : Selection) (node : Node) : String × CheckState :=
  (node.path, CheckState.ofPaths s (filePaths node))

theorem noteOf_file (s : Selection) (label path : String) :
    noteOf s (.file label path) = (path, if path ∈ s then .checked else .unchecked) := by
  rw [noteOf, filePaths_file, CheckState.ofPaths, CheckState.ofCounts]
  by_cases hs : path ∈ s <;> simp [hs, Node.path]

theorem noteOf_directory (s : Selection) (label path : String) (children : List Node) :
    noteOf s (.directory label path children) =
      (path, .ofCounts (checkNodes s children).total (checkNodes s children).selected) := by
  rw [noteOf, filePaths_directory, CheckState.ofPaths, total_checkNodes, selected_checkNodes,
    List.length_map]
  rfl

/-- Each node is noted once, and nothing else is. -/
theorem states_checkNodes_perm (s : Selection) (tree : List Node) :
    (checkNodes s tree).states.Perm ((nodes tree).map (noteOf s)) := by
  induction tree using induction with
  | nil => exact .refl _
  | file label path rest ih =>
    have hfile : (checkNode s (.file label path)).states = [noteOf s (.file label path)] := by
      rw [checkNode, noteOf_file]
      by_cases hs : path ∈ s <;> simp [hs]
    rw [checkNodes, hfile]
    exact ih.cons _
  | directory label path children rest ihc ih =>
    have hdirectory : (checkNode s (.directory label path children)).states =
        (checkNodes s children).states ++ [noteOf s (.directory label path children)] := by
      rw [checkNode, noteOf_directory]
    rw [checkNodes, hdirectory, nodes, nodesOf, List.map_append, List.map_cons]
    exact ((ihc.append_right _).trans (List.perm_append_singleton ..)).append ih

/-! ## States of nodes -/

variable {tree : List Node}

theorem checkStates_perm (tree : List Node) (s : Selection) :
    (checkStates tree s).Perm ((nodes tree).map (noteOf s)) :=
  states_checkNodes_perm s tree

theorem mem_checkStates_iff {s : Selection} {note : String × CheckState} :
    note ∈ checkStates tree s ↔ ∃ node ∈ nodes tree, noteOf s node = note := by
  rw [(checkStates_perm tree s).mem_iff, List.mem_map]

/-- The paths with a state are those of the nodes. -/
theorem isSome_get?_checkStates {s : Selection} {path : String} :
    ((checkStates tree s).get? path).isSome = true ↔ ∃ node ∈ nodes tree, node.path = path := by
  rw [CheckStates.get?, List.lookup_isSome_iff]
  constructor
  · rintro ⟨note, hnote, hpath⟩
    obtain ⟨node, hnode, rfl⟩ := mem_checkStates_iff.1 (List.mem_reverse.1 hnote)
    exact ⟨node, hnode, (eq_of_beq hpath).symm⟩
  · rintro ⟨node, hnode, rfl⟩
    refine ⟨noteOf s node, List.mem_reverse.2 ?_, beq_self_eq_true _⟩
    exact mem_checkStates_iff.2 ⟨node, hnode, rfl⟩

/-- Where no two nodes share a path a node has the state that the files at and below it make. -/
theorem get?_checkStates (hd : ((nodes tree).map Node.path).Nodup) {node : Node}
    (h : node ∈ nodes tree) (s : Selection) :
    (checkStates tree s).get? node.path = some (.ofPaths s (filePaths node)) := by
  have hperm := (List.reverse_perm _).trans (checkStates_perm tree s)
  apply lookup_of_mem
  · rw [(hperm.map Prod.fst).nodup_iff, List.map_map]
    exact hd
  · exact hperm.mem_iff.2 (List.mem_map_of_mem h)

/-- The states are those of the nodes. A file is checked if it is selected. A directory is checked
if it has files at some depth and all of them are selected, unchecked if none is, and indeterminate
otherwise. -/
theorem checkStates_tell_files (hd : ((nodes tree).map Node.path).Nodup) (s : Selection) :
    let states := checkStates tree s
    (∀ path, (states.get? path).isSome = true ↔ ∃ node ∈ nodes tree, node.path = path) ∧
    (∀ label path, .file label path ∈ nodes tree →
      (path ∈ s → states.get? path = some .checked) ∧
      (path ∉ s → states.get? path = some .unchecked)) ∧
    ∀ label path children, .directory label path children ∈ nodes tree →
      let files := filePaths (.directory label path children)
      (states.get? path = some .checked ↔ files ≠ [] ∧ ∀ file ∈ files, file ∈ s) ∧
      (states.get? path = some .unchecked ↔ ∀ file ∈ files, file ∉ s) ∧
      (states.get? path = some .indeterminate ↔
        (∃ file ∈ files, file ∈ s) ∧ ∃ file ∈ files, file ∉ s) := by
  intro states
  refine ⟨fun path => isSome_get?_checkStates, ?_, ?_⟩
  · intro label path hfile
    have hstate : states.get? path = some (.ofPaths s [path]) := get?_checkStates hd hfile s
    rw [hstate, Option.some_inj, CheckState.ofPaths_eq_checked_iff, Option.some_inj,
      CheckState.ofPaths_eq_unchecked_iff]
    simp
  · intro label path children hdirectory files
    have hstate : states.get? path = some (.ofPaths s files) := get?_checkStates hd hdirectory s
    simp only [hstate, Option.some_inj]
    exact ⟨CheckState.ofPaths_eq_checked_iff, CheckState.ofPaths_eq_unchecked_iff,
      CheckState.ofPaths_eq_indeterminate_iff⟩

theorem checkStates_tell_files_partly :
    let children : List Node :=
      [.directory "b" "/a/b" [], .file "f" "/a/f", .file "g" "/a/g"]
    let tree : List Node := [.directory "a" "/a" children, .file "h" "/h"]
    let s := Selection.ofList ["/a/f", "/x"]
    let states := checkStates tree s
    ((nodes tree).map Node.path).Nodup ∧ (states.get? "/x").isSome = false ∧
      states.get? "/a/f" = some .checked ∧ states.get? "/a" = some .indeterminate ∧
      states.get? "/a/b" = some .unchecked := by
  intro children tree s states
  have hd : ((nodes tree).map Node.path).Nodup := by decide +kernel
  obtain ⟨hpaths, hfiles, hdirectories⟩ := checkStates_tell_files hd s
  refine ⟨hd, ?_, ?_, ?_, ?_⟩
  · rw [Bool.eq_false_iff, Ne, hpaths]
    decide +kernel
  · exact (hfiles "f" "/a/f" (by decide +kernel)).1 (by decide +kernel)
  · exact (hdirectories "a" "/a" children (by decide +kernel)).2.2.2 (by decide +kernel)
  · exact (hdirectories "b" "/a/b" [] (by decide +kernel)).2.1.2 (by decide +kernel)

end FileSieve
