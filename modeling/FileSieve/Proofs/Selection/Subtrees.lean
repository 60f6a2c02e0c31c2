import FileSieve.Proofs.Scan.Shape
import FileSieve.Proofs.Selection.Toggling
import FileSieve.Proofs.Tree.Prefixes

/-! # Directories as prefixes of paths

In a scanned tree a directory and the paths that start with its own stand for the same files. What
toggling a directory puts into a selection can be taken out by a test on paths. -/

namespace FileSieve

open FileSieve.Tree

namespace Selection

variable {node : Node} {s : Selection} {p : String → Bool} {path : String}

theorem mem_removeWhere {active : Option String} :
    path ∈ (s.removeWhere p active).selection ↔ path ∈ s ∧ p path = false := by
  have hout : path ∈ s → (path ∈ (s.inter (s.filter p).paths).paths ↔ p path = true) := by
    intro hmem
    simp [mem_paths, hmem]
  rw [removeWhere, remove, mem_diff, ← Bool.not_eq_true]
  exact and_congr_right fun hmem => not_congr (hout hmem)

/-- Taking out all paths with a property undoes toggling a node whose files have it, if nothing with
the property was selected before. -/
theorem removeWhere_toggle (hf : ∀ path ∈ filePaths node, p path = true)
    (hs : ∀ path ∈ s, p path = false) (active : Option String) :
    ((s.toggle node).removeWhere p active).selection = s := by
  have hout : ∀ path, p path = false → path ∉ filePaths node := by
    intro path hp hin
    rw [hf path hin] at hp
    cases hp
  apply ext_mem
  intro path
  rw [mem_removeWhere]
  constructor
  · rintro ⟨ht, hp⟩
    exact (mem_toggle_of_not_mem (hout path hp)).1 ht
  · intro hmem
    have hp := hs path hmem
    exact ⟨(mem_toggle_of_not_mem (hout path hp)).2 hmem, hp⟩

end Selection

namespace Scan

variable {α : Type} [PathRule α] {list : String → Except ListingFailure (List Entry)}

/-- Of a tree of directories a scan makes a tree in which the files below a directory are the flat
files with its path and a slash in front, next to each other and in their order. If nothing with
that prefix is selected, taking out what has it undoes toggling the directory. -/
theorem depthFirst_files_below (rules : List α) {n : Nat} {root : String} (ht : IsTree list root)
    (hl : HasLevels list n root)
    (hb : ∀ job ∈ reached list rules n ⟨root, ""⟩, ¬IsBroken list job.directory) :
    ∃ found, (observe list none (depthFirst rules n root)).1 = .ok found ∧
      ∀ label path children, .directory label path children ∈ nodes found.tree →
        flatFiles children = found.files.filter (fun file => isBelow path file.path) ∧
        flatFiles children <:+: found.files ∧
        ∀ s : Selection, (∀ other ∈ s, isBelow path other = false) → ∀ active,
          ((s.toggle (.directory label path children)).removeWhere (isBelow path) active).selection
            = s := by
  refine ⟨_, (observe_depthFirst hl hb).1, ?_⟩
  intro label path children hd
  have hfiles : (flatFiles (treeOf list rules n ⟨root, ""⟩)).filter
      (fun file => isBelow path file.path) = flatFiles children :=
    filter_isBelow_flatFiles (throughout_named ht n) hd
  refine ⟨hfiles.symm, flatFiles_children_isInfix hd, ?_⟩
  intro s hs active
  apply Selection.removeWhere_toggle ?_ hs
  intro other hother
  rw [filePaths_directory, ← hfiles] at hother
  obtain ⟨file, hfile, rfl⟩ := List.mem_map.1 hother
  exact (List.mem_filter.1 hfile).2

theorem depthFirst_files_below_siblings :
    let c : Catalogue :=
      { directories := [
          ("/r", [⟨"ab", false, "/r/ab"⟩, ⟨"a", true, "/r/a"⟩, ⟨"a.b", true, "/r/a.b"⟩]),
          ("/r/a", [⟨"x.log", false, "/r/a/x.log"⟩, ⟨"a", true, "/r/a/a"⟩]),
          ("/r/a/a", [⟨"a", false, "/r/a/a/a"⟩]),
          ("/r/a.b", [⟨"a", false, "/r/a.b/a"⟩])] }
    let rules := compileRules ["*.log"]
    let children : List Node := [.directory "a" "/r/a/a" [.file "a" "/r/a/a/a"]]
    let d : Node := .directory "a" "/r/a" children
    let tree : List Node :=
      [d, .directory "a.b" "/r/a.b" [.file "a" "/r/a.b/a"], .file "ab" "/r/ab"]
    let s := Selection.ofList ["/r/a.b/a", "/r/ab"]
    IsTree c.list "/r" ∧ HasLevels c.list 3 "/r" ∧
      (∀ job ∈ reached c.list rules 3 ⟨"/r", ""⟩, ¬IsBroken c.list job.directory) ∧
      (observe c.list none (depthFirst rules 3 "/r")).1 = .ok (result "/r" tree) ∧
      d ∈ nodes tree ∧ (∀ other ∈ s, isBelow "/r/a" other = false) ∧
      flatFiles children = (flatFiles tree).filter (fun file => isBelow "/r/a" file.path) ∧
      ((s.toggle d).removeWhere (isBelow "/r/a") none).selection = s := by
  intro c rules children d tree s
  have ht : IsTree c.list "/r" := isTree_catalogue "/r" (by decide +kernel)
  have hl : HasLevels c.list 3 "/r" := by
    simp [HasLevels, entriesOf, c, Catalogue.list, List.lookup_cons, List.lookup_nil]
  have hb : ∀ job ∈ reached c.list rules 3 ⟨"/r", ""⟩, ¬IsBroken c.list job.directory :=
    fun job _ => not_isBroken_catalogue (by simp [c]) job.directory
  have htree : treeOf c.list rules 3 ⟨"/r", ""⟩ = tree := by
    have htop : view c.list rules ⟨"/r", ""⟩ = [⟨⟨"ab", false, "/r/ab"⟩, "ab"⟩,
        ⟨⟨"a", true, "/r/a"⟩, "a"⟩, ⟨⟨"a.b", true, "/r/a.b"⟩, "a.b"⟩] := by decide +kernel
    have ha : view c.list rules ⟨"/r/a", "a"⟩ = [⟨⟨"a", true, "/r/a/a"⟩, "a/a"⟩] := by
      decide +kernel
    have haa : view c.list rules ⟨"/r/a/a", "a/a"⟩ = [⟨⟨"a", false, "/r/a/a/a"⟩, "a/a/a"⟩] := by
      decide +kernel
    have hab : view c.list rules ⟨"/r/a.b", "a.b"⟩ = [⟨⟨"a", false, "/r/a.b/a"⟩, "a.b/a"⟩] := by
      decide +kernel
    have hone (node : Node) : Node.sort [node] = [node] := List.mergeSort_singleton node
    have hsorted : Node.sort tree = tree := List.mergeSort_of_pairwise (by decide +kernel)
    simp only [treeOf, jobOf, htop, ha, haa, hab, directories, files, List.filter, Bool.not_true,
      Bool.not_false, List.map, assemble, List.filterMap, List.nil_append, hone, List.append_nil,
      List.isEmpty, Bool.false_eq_true, if_false]
    exact hsorted
  have hseen : (observe c.list none (depthFirst rules 3 "/r")).1 = .ok (result "/r" tree) := by
    rw [← htree]
    exact (observe_depthFirst hl hb).1
  have hd : d ∈ nodes tree := by decide +kernel
  have hs : ∀ other ∈ s, isBelow "/r/a" other = false := by
    simp only [← Selection.mem_paths]
    decide +kernel
  clear htree
  clear_value c rules
  obtain ⟨found, hfound, hbelow⟩ := depthFirst_files_below rules ht hl hb
  obtain rfl : found = result "/r" tree := Except.ok.inj (hfound.symm.trans hseen)
  obtain ⟨hfiles, -, hundone⟩ := hbelow "a" "/r/a" children hd
  exact ⟨ht, hl, hb, hseen, hd, hs, hfiles, hundone s hs none⟩

end Scan

end FileSieve
