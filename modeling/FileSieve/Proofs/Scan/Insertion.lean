import FileSieve.Proofs.Rule.Ancestors
import FileSieve.Proofs.Scan.Filtering

/-! # Putting a rule into a list

A plain rule put into a list, at whatever place, hides more paths, and a negated one hides fewer. A
scan with rules that hide more enters fewer directories and shows some of the files only, in the
same order. -/

namespace FileSieve

universe u

section Deciding

variable {α : Type u} [PathRule α] (before after : List α) {rule : α} {path : String}

theorem isIgnored_insert_of_plain (hn : PathRule.negated rule = false)
    (h : isIgnored (before ++ after) path = true) :
    isIgnored (before ++ rule :: after) path = true :=
  isIgnored_mono (fun judged => excludes_insert_of_plain before after rule judged hn) h

theorem isIgnored_of_insert_negated (hn : PathRule.negated rule = true)
    (h : isIgnored (before ++ rule :: after) path = true) :
    isIgnored (before ++ after) path = true :=
  isIgnored_mono (fun judged => excludes_of_insert_negated before after rule judged hn) h

end Deciding

namespace Scan

open FileSieve.Tree

variable {α : Type} [PathRule α] {list : String → Except ListingFailure (List Entry)}

section Hiding

variable {rules more : List α}
  (h : ∀ path, isIgnored rules path = true → isIgnored more path = true)

include h

theorem IsOpen.of_hiding {relative : String} (ho : IsOpen more relative) : IsOpen rules relative :=
  ho.imp_right fun hm => by
    rw [← Bool.not_eq_true] at hm ⊢
    exact mt (h _) hm

/-- Of an open directory less is visible with rules that hide more. -/
theorem view_subset_of_hiding {job : Job} (ho : IsOpen more job.relative) :
    view list more job ⊆ view list rules job := by
  intro v hv
  rw [view, visible_eq_filter ho, List.mem_filter] at hv
  rw [view, visible_eq_filter (ho.of_hiding h), List.mem_filter]
  refine hv.imp_right fun hm => ?_
  rw [Bool.not_eq_true', ← Bool.not_eq_true] at hm ⊢
  exact mt (h _) hm

/-- A scan with rules that hide more reaches nothing else. -/
theorem reached_subset_of_hiding (n : Nat) {job : Job} (ho : IsOpen more job.relative) :
    reached list more n job ⊆ reached list rules n job := by
  induction n generalizing job with
  | zero => exact List.Subset.refl _
  | succ n ih =>
    intro j hj
    rcases mem_reached_succ.1 hj with rfl | ⟨v, hv, hj⟩
    · exact mem_reached_succ.2 (.inl rfl)
    · obtain ⟨hv, hd⟩ := List.mem_filter.1 hv
      have hopen : IsOpen more (jobOf v).relative := isOpen_of_mem_visible ho hv hd
      have hview := view_subset_of_hiding h ho hv
      exact mem_reached_succ.2 (.inr ⟨v, List.mem_filter.2 ⟨hview, hd⟩, ih hopen hj⟩)

end Hiding

/-- The flat index of a scan lists the files of a full scan that the rules do not ignore. -/
theorem flatFiles_treeOf (rules : List α) (n : Nat) (root : String) :
    flatFiles (treeOf list rules n ⟨root, ""⟩) =
      ((located "" (treeOf list ([] : List α) n ⟨root, ""⟩)).filter fun file =>
        !isIgnored rules file.1).map Prod.snd := by
  have htree := @prune_treeOf _ _ rules list n ⟨root, ""⟩ (.inl rfl)
  rw [← htree, flatFiles_eq_located "", prune, located_filled, located_keepFiles]

/-- The second list hides all that the first one does: it ignores what that ignores, and where a
scan with the first list finds files, one with the second finds some of them, in the same order. -/
structure HidesMore (rules more : List α) : Prop where
  ignored : ∀ path, isIgnored rules path = true → isIgnored more path = true
  files : ∀ (list : String → Except ListingFailure (List Entry)) (n : Nat) (root : String),
    HasLevels list n root →
    (∀ job ∈ reached list rules n ⟨root, ""⟩, ¬IsBroken list job.directory) →
    ∃ found fewer, (observe list none (depthFirst rules n root)).1 = .ok found ∧
      (observe list none (depthFirst more n root)).1 = .ok fewer ∧
      fewer.files.Sublist found.files

/-- What is ignored settles which files a scan finds. -/
theorem hidesMore_of_ignored {rules more : List α}
    (h : ∀ path, isIgnored rules path = true → isIgnored more path = true) :
    HidesMore rules more where
  ignored := h
  files list n root hl hb := by
    have hreached := @reached_subset_of_hiding _ _ list _ _ h n ⟨root, ""⟩ (.inl rfl)
    refine ⟨result root (treeOf list rules n ⟨root, ""⟩),
      result root (treeOf list more n ⟨root, ""⟩), ?_, ?_, ?_⟩
    · rw [observe_eq]
      exact (yields_depthFirst hl hb).1
    · rw [observe_eq]
      exact (yields_depthFirst hl fun job hj => hb job (hreached hj)).1
    · rw [result, result, flatFiles_treeOf, flatFiles_treeOf]
      refine (List.monotone_filter_right _ fun file hkept => ?_).map _
      rw [Bool.not_eq_true', ← Bool.not_eq_true] at hkept ⊢
      exact mt (h _) hkept

/-- With a plain rule put into it, at any place, a list hides more than without, and with a negated
rule put into it the list hides less. -/
theorem hidesMore_insert (before after : List α) (rule : α) :
    (PathRule.negated rule = false → HidesMore (before ++ after) (before ++ rule :: after)) ∧
    (PathRule.negated rule = true → HidesMore (before ++ rule :: after) (before ++ after)) :=
  ⟨fun hn => hidesMore_of_ignored fun _ => isIgnored_insert_of_plain before after hn,
    fun hn => hidesMore_of_ignored fun _ => isIgnored_of_insert_negated before after hn⟩

theorem hidesMore_insert_between :
    let c : Catalogue :=
      { directories := [
          ("/r", [⟨"z.log", false, "/r/z.log"⟩, ⟨"out", true, "/r/out"⟩, ⟨"old", true, "/r/old"⟩]),
          ("/r/out", [⟨"b.log", false, "/r/out/b.log"⟩, ⟨"c.txt", false, "/r/out/c.txt"⟩])]
        failures := [("/r/old", .unreadable "denied")] }
    let before := compileRules ["*.txt"]
    let after := compileRules ["!b.*"]
    let plain := Rule.ofPattern "*.log" false "*.log".toList
    let negated := Rule.ofPattern "!c.txt" true "c.txt".toList
    HidesMore (before ++ after) (before ++ plain :: after) ∧
      HidesMore (before ++ negated :: after) (before ++ after) ∧
      HasLevels c.list 2 "/r" ∧
      (∀ job ∈ reached c.list (before ++ after) 2 ⟨"/r", ""⟩, ¬IsBroken c.list job.directory) ∧
      ∃ found fewer, (observe c.list none (depthFirst (before ++ after) 2 "/r")).1 = .ok found ∧
        (observe c.list none (depthFirst (before ++ plain :: after) 2 "/r")).1 = .ok fewer ∧
        fewer.files.Sublist found.files := by
  intro c before after plain negated
  have hplain := (hidesMore_insert before after plain).1 rfl
  have hnegated := (hidesMore_insert before after negated).2 rfl
  have hl : HasLevels c.list 2 "/r" := by
    simp [HasLevels, entriesOf, c, Catalogue.list, List.lookup_cons, List.lookup_nil]
  have hb : ∀ job ∈ reached c.list (before ++ after) 2 ⟨"/r", ""⟩,
      ¬IsBroken c.list job.directory :=
    fun job _ => not_isBroken_catalogue (by simp [c]) job.directory
  exact ⟨hplain, hnegated, hl, hb, hplain.files c.list 2 "/r" hl hb⟩

end Scan

end FileSieve
