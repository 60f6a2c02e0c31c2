import Mathlib.Data.List.Nodup
import Mathlib.Order.Defs.LinearOrder
import FileSieve.Tree.Order

/-! # Sorting siblings

The order of siblings is total and its sort is stable, so it does not matter whether nodes are left
out before or after sorting. It tells siblings with different labels apart, so they come to stand in
strict order, and it does not matter how they stand before they are sorted. -/

namespace FileSieve

/-! ## Stable sorting and partial maps -/

section Sorting

variable {α : Type*} {le : α → α → Bool} (trans : ∀ a b c, le a b → le b c → le a c)
  (total : ∀ a b, le a b || le b a)

/-- A list is cut in one way only into a front without and a back with a property. -/
theorem append_cut_unique {p : α → Bool} {front back front' back' : List α}
    (h : front ++ back = front' ++ back') (hf : ∀ a ∈ front, p a = false)
    (hb : ∀ a ∈ back, p a = true) (hf' : ∀ a ∈ front', p a = false)
    (hb' : ∀ a ∈ back', p a = true) : front = front' ∧ back = back' := by
  have cut (front back : List α) (hf : ∀ a ∈ front, p a = false) (hb : ∀ a ∈ back, p a = true) :
      (front ++ back).filter p = back := by
    rw [List.filter_append, List.filter_eq_self.2 hb, List.filter_eq_nil_iff.2, List.nil_append]
    intro a ha
    simp [hf a ha]
  have hback : back = back' := by
    rw [← cut front back hf hb, h, cut front' back' hf' hb']
  subst hback
  exact ⟨List.append_cancel_right h, rfl⟩

include trans total in
/-- A partial map that keeps the order commutes with stable sorting. -/
theorem filterMap_mergeSort {f : α → Option α}
    (hf : ∀ a b c d, f a = some c → f b = some d → le c d = le a b) (as : List α) :
    (as.mergeSort le).filterMap f = (as.filterMap f).mergeSort le := by
  induction as with
  | nil => simp
  | cons a as ih =>
    obtain ⟨front, back, ha, has, hfront⟩ := List.mergeSort_cons trans total a as
    have hsorted := List.pairwise_mergeSort trans total (a :: as)
    rw [has, List.filterMap_append] at ih
    rw [ha] at hsorted ⊢
    rw [List.filterMap_append, List.filterMap_cons, List.filterMap_cons]
    cases hc : f a with
    | none => exact ih
    | some c =>
      obtain ⟨front', back', hc', hcs, hfront'⟩ := List.mergeSort_cons trans total c (as.filterMap f)
      have hsorted' := List.pairwise_mergeSort trans total (c :: as.filterMap f)
      rw [hc'] at hsorted'
      rw [hcs] at ih
      have hcut : front.filterMap f = front' ∧ back.filterMap f = back' := by
        apply @append_cut_unique _ (le c) _ _ _ _ ih
        · intro d hd
          obtain ⟨b, hb, hbd⟩ := List.mem_filterMap.1 hd
          rw [hf a b c d hc hbd]
          simpa using hfront b hb
        · intro d hd
          obtain ⟨b, hb, hbd⟩ := List.mem_filterMap.1 hd
          rw [hf a b c d hc hbd]
          exact List.rel_of_pairwise_cons (List.pairwise_append.1 hsorted).2.1 hb
        · intro d hd
          simpa using hfront' d hd
        · intro d hd
          exact List.rel_of_pairwise_cons (List.pairwise_append.1 hsorted').2.1 hd
      rw [hc', hcut.1, hcut.2]

end Sorting

/-! ## The order of siblings -/

instance : Std.TransCmp compareNames :=
  inferInstanceAs (Std.TransCmp (compareLex (compareOn Text.foldCase) compare))

/-- Texts are compared at the first character in which they differ. -/
theorem compare_chars_eq_lt_iff {as bs : List Char} : compare as bs = .lt ↔ as < bs := by
  induction as generalizing bs with
  | nil => cases bs <;> simp [List.nil_lt_cons]
  | cons a as ih =>
    cases bs with
    | nil => simp
    | cons b bs =>
      have hchar : compare a b = .lt ↔ a < b := compareOfLessAndEq_eq_lt
      rw [List.compare_eq_compareLex] at ih ⊢
      rw [List.compareLex_cons_cons, Ordering.then_eq_lt, hchar, List.cons_lt_cons_iff, ih,
        Std.LawfulEqCmp.compare_eq_iff_eq]

namespace Node

/-- A sibling comes before another one: a directory before a file, then the folded labels decide,
and last the labels as they are written. -/
def Precedes (a b : Node) : Prop :=
  a.isFile < b.isFile ∨ a.isFile = b.isFile ∧
    (Text.foldCase a.label < Text.foldCase b.label ∨
      Text.foldCase a.label = Text.foldCase b.label ∧ a.label < b.label)

theorem order_eq_lt_iff {a b : Node} : order a b = .lt ↔ Precedes a b := by
  have hkind : compare a.isFile b.isFile = .lt ↔ a.isFile < b.isFile := by
    generalize a.isFile = p, b.isFile = q
    decide +revert
  have hlabel : compare a.label b.label = .lt ↔ a.label < b.label := compareOfLessAndEq_eq_lt
  rw [order, compareNames, Ordering.then_eq_lt, Ordering.then_eq_lt, hkind, compare_chars_eq_lt_iff,
    hlabel, Std.LawfulEqCmp.compare_eq_iff_eq, Std.LawfulEqCmp.compare_eq_iff_eq, Precedes]

/-- The place of a node among its siblings hangs on its kind and its label. -/
theorem order_congr {a b c d : Node} (hac : c.isFile = a.isFile) (hac' : c.label = a.label)
    (hbd : d.isFile = b.isFile) (hbd' : d.label = b.label) : order c d = order a b := by
  rw [order, order, hac, hac', hbd, hbd']

instance : Std.TransCmp order :=
  inferInstanceAs (Std.TransCmp (compareLex (compareOn isFile)
    (compareLex (compareOn fun node => Text.foldCase node.label) (compareOn label))))

theorem order_total (a b : Node) : ((order a b).isLE || (order b a).isLE) = true := by
  rw [@Std.OrientedCmp.eq_swap _ order _ a b]
  cases order b a <;> rfl

/-- Leaving out and changing nodes within their places commutes with sorting. -/
theorem filterMap_sort {f : Node → Option Node}
    (hf : ∀ a b, f a = some b → b.isFile = a.isFile ∧ b.label = a.label) (siblings : List Node) :
    (sort siblings).filterMap f = sort (siblings.filterMap f) := by
  apply filterMap_mergeSort (fun _ _ _ => Std.TransCmp.isLE_trans) order_total
  intro a b c d hac hbd
  obtain ⟨hc, hc'⟩ := hf a c hac
  obtain ⟨hd, hd'⟩ := hf b d hbd
  rw [order_congr hc hc' hd hd']

/-- Case folding merges labels, but labels that it merges are compared as they are written. -/
theorem label_eq_of_order {a b : Node} (h : order a b = .eq) : a.label = b.label := by
  rw [order, compareNames, Ordering.then_eq_eq, Ordering.then_eq_eq] at h
  exact Std.LawfulEqCmp.eq_of_compare h.2.2

theorem sort_perm (siblings : List Node) : (sort siblings).Perm siblings :=
  List.mergeSort_perm ..

theorem pairwise_sort_isLE (siblings : List Node) :
    (sort siblings).Pairwise fun a b => (order a b).isLE = true :=
  List.pairwise_mergeSort (fun _ _ _ => Std.TransCmp.isLE_trans) order_total siblings

/-- Siblings with distinct labels come to stand in strict order. -/
theorem pairwise_sort {siblings : List Node} (hd : (siblings.map label).Nodup) :
    (sort siblings).Pairwise Precedes := by
  have hlabels : (sort siblings).Pairwise fun a b => a.label ≠ b.label := by
    rw [← List.pairwise_map]
    exact ((sort_perm siblings).map label).nodup_iff.2 hd
  apply (pairwise_sort_isLE siblings).imp₂ ?_ hlabels
  intro a b hle hne
  rw [← order_eq_lt_iff]
  cases h : order a b with
  | lt => rfl
  | eq => exact absurd (label_eq_of_order h) hne
  | gt => simp [h] at hle

/-- Siblings with distinct labels come to stand in one way only. -/
theorem sort_eq_of_perm {siblings others : List Node} (hp : siblings.Perm others)
    (hd : (siblings.map label).Nodup) : sort siblings = sort others := by
  have hperm := (sort_perm siblings).trans (hp.trans (sort_perm others).symm)
  apply List.Perm.eq_of_pairwise ?_ (pairwise_sort_isLE siblings) (pairwise_sort_isLE others) hperm
  intro a b ha hb hab hba
  have hb := hp.symm.subset ((sort_perm others).subset hb)
  apply List.inj_on_of_nodup_map hd ((sort_perm siblings).subset ha) hb
  exact label_eq_of_order (Std.OrientedCmp.isLE_antisymm hab hba)

end Node

end FileSieve
