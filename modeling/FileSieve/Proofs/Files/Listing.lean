import FileSieve.Proofs.Files.Rewriting
import FileSieve.Proofs.Scan.Distinct

/-! # Listings of a host held in memory

The names in a directory are parts of places, and the path of an entry is that of its directory and
its name. So paths grow from level to level, and since long ones cannot be looked up, directories
are nested in a limited number of levels. -/

namespace FileSieve

/-! ### Lookups that fail -/

namespace Disk

variable {d : Disk} {q : Place} {directory : Place} {name : String} {followLast : Bool}

/-- A search never finds fault with the characters of a name. -/
theorem descend_ne_nullInName (parts : List String) :
    d.descend followLast q parts ≠ .error .nullInName := by
  induction parts generalizing q with
  | nil =>
    rw [descend]
    split <;> simp
  | cons part rest ih =>
    rw [descend]
    split
    · simp
    split
    · exact ih
    split
    · exact ih
    split
    · simp
    dsimp only
    split
    · split <;> simp
    · split <;> simp
    · exact ih

theorem follow_ne_nullInName (links : Nat) (parts : List String) :
    d.follow followLast links q parts ≠ .error .nullInName := by
  induction links generalizing q parts with
  | zero =>
    rw [follow.eq_def]
    cases hd : d.descend followLast q parts with
    | error cause =>
      rintro ⟨⟩
      exact descend_ne_nullInName parts hd
    | ok found =>
      intro h
      cases found <;> cases h
  | succ links ih =>
    cases hd : d.descend followLast q parts with
    | error cause =>
      rw [follow.eq_def, hd]
      rintro ⟨⟩
      exact descend_ne_nullInName parts hd
    | ok found =>
      cases found with
      | link directory target rest =>
        rw [follow_of_link hd]
        exact ih (partsOf target ++ rest)
      | item | missing =>
        rw [follow.eq_def, hd]
        intro h
        cases h

theorem locate_eq_nullInName_iff :
    d.locate followLast directory name = .error .nullInName ↔ '\x00' ∈ name.toList := by
  unfold locate
  split
  · next h => simpa using h
  · next hnull =>
    have hnull : '\x00' ∉ name.toList := by simpa using hnull
    refine iff_of_false ?_ hnull
    split
    · simp
    split
    · simp
    · exact follow_ne_nullInName linkLimit (partsOf name)

/-- A name that leads somewhere has no null character and is not too long. -/
theorem fits_of_locate {found : Found} (h : d.locate followLast directory name = .ok found) :
    '\x00' ∉ name.toList ∧ name ≠ "" ∧ name.utf8ByteSize ≤ nameLimit := by
  unfold locate at h
  split at h
  · cases h
  split at h
  · cases h
  split at h
  · cases h
  · next hnull hempty hlong =>
    exact ⟨by simpa using hnull, hempty, Nat.not_lt.1 hlong⟩

theorem locate_of_isDirectory (h : d.isDirectory directory name = .ok true) :
    ∃ place, d.locate true directory name = .ok (.item place .directory) := by
  unfold isDirectory at h
  split at h
  · next place hl => exact ⟨place, hl⟩
  · cases h
  · cases h

/-- A directory that has a listing stands at a place, and the listing gives its children. -/
theorem locate_of_list {names : List (String × Bool)} (h : d.list directory name = .ok names) :
    ∃ place, d.locate true directory name = .ok (.item place .directory) ∧
      names = (d.children place).map fun (name, item) => (name, item == .directory) := by
  rw [list, blame_eq_ok] at h
  cases hl : d.locate true directory name with
  | error cause =>
    rw [hl] at h
    cases h
  | ok found =>
    rw [hl] at h
    cases found with
    | item place item => cases item with
      | directory =>
        cases h
        exact ⟨place, rfl, rfl⟩
      | file | link => cases h
    | missing | link => cases h

/-- A listing fails because of the name itself only if there is a null character in it. -/
theorem mem_of_list_error {problem : FileProblem} (h : d.list directory name = .error problem)
    (hs : problem.isSystem = false) : '\x00' ∈ name.toList := by
  have hc : problem.cause = .nullInName := by simpa [FileProblem.isSystem] using hs
  rw [list] at h
  cases hl : d.locate true directory name with
  | error cause =>
    rw [hl] at h
    cases h
    exact locate_eq_nullInName_iff.1 (hl.trans (congrArg Except.error hc))
  | ok found =>
    rw [hl] at h
    cases found with
    | item place item => cases item with
      | directory => cases h
      | file | link =>
        cases h
        cases hc
    | missing | link =>
      cases h
      cases hc

/-- A child of a place is named by the last part of its own. -/
theorem child_eq {other place : Place} {item : Item} {child : String × Item}
    (h : (match other.getLast? with
      | some name => if other.dropLast = place then some (name, item) else none
      | none => none) = some child) : (other, item) = (place ++ [child.1], child.2) := by
  split at h
  · next name hlast =>
    split at h
    · next hplace =>
      cases h
      rw [← hplace, List.dropLast_append_getLast? name hlast]
    · cases h
  · cases h

theorem mem_items_of_mem_children {place : Place} {child : String × Item}
    (h : child ∈ d.children place) : (place ++ [child.1], child.2) ∈ d.items := by
  obtain ⟨⟨other, item⟩, hmem, hchild⟩ := List.mem_filterMap.1 h
  rwa [← child_eq hchild]

/-- Where each place occurs once, so does each name in a directory. -/
theorem nodup_children (hd : (d.items.map Prod.fst).Nodup) (place : Place) :
    ((d.children place).map Prod.fst).Nodup := by
  rw [List.Nodup, List.pairwise_map] at hd ⊢
  rw [children, List.pairwise_filterMap]
  apply hd.imp
  rintro ⟨other, item⟩ ⟨other', item'⟩ hne child hchild child' hchild' hsame
  obtain ⟨rfl, -⟩ := Prod.mk.inj (child_eq hchild)
  obtain ⟨rfl, -⟩ := Prod.mk.inj (child_eq hchild')
  exact hne (congrArg (place ++ [·]) hsame)

end Disk

/-! ### Listings -/

/-- A part of a place that a file or directory can have as its name. -/
structure IsName (part : String) : Prop where
  ne_empty : part ≠ ""
  no_slash : '/' ∉ part.toList
  no_null : '\x00' ∉ part.toList

instance (part : String) : Decidable (IsName part) :=
  decidable_of_iff (part ≠ "" ∧ '/' ∉ part.toList ∧ '\x00' ∉ part.toList)
    ⟨fun h => ⟨h.1, h.2.1, h.2.2⟩, fun h => ⟨h.ne_empty, h.no_slash, h.no_null⟩⟩

namespace Host.Model

open Scan

variable {m : Model} {directory : String}

/-- Each place on a host occurs once, and it is made of names. -/
structure WellFormed (m : Model) : Prop where
  names : ∀ entry ∈ m.disk.items, ∀ part ∈ entry.1, IsName part
  distinct : (m.disk.items.map Prod.fst).Nodup

theorem entriesOf_listing (m : Model) (directory : String) :
    entriesOf m.listing directory = [] ∨
      ∃ place, m.disk.locate true m.directory directory = .ok (.item place .directory) ∧
        entriesOf m.listing directory = (m.disk.children place).map fun child =>
          ⟨child.1, child.2 == .directory, entryPath directory child.1⟩ := by
  unfold entriesOf listing
  cases hl : m.disk.list m.directory directory with
  | error problem => exact .inl rfl
  | ok names =>
    obtain ⟨place, hplace, rfl⟩ := Disk.locate_of_list hl
    refine .inr ⟨place, hplace, ?_⟩
    dsimp only
    rw [List.map_map]
    rfl

theorem mem_entriesOf_listing {entry : Entry} (h : entry ∈ entriesOf m.listing directory) :
    ∃ place item, m.disk.locate true m.directory directory = .ok (.item place .directory) ∧
      (place ++ [entry.name], item) ∈ m.disk.items ∧
      entry = ⟨entry.name, item == .directory, entryPath directory entry.name⟩ := by
  rcases entriesOf_listing m directory with hnone | ⟨place, hplace, hentries⟩
  · rw [hnone] at h
    cases h
  · rw [hentries] at h
    obtain ⟨child, hchild, rfl⟩ := List.mem_map.1 h
    exact ⟨place, child.2, hplace, Disk.mem_items_of_mem_children hchild, rfl⟩

theorem distinct_listing (hm : m.WellFormed) : Distinct m.listing := by
  intro directory
  rcases entriesOf_listing m directory with hnone | ⟨place, -, hentries⟩
  · rw [hnone]
    exact List.nodup_nil
  · rw [hentries, List.map_map]
    exact Disk.nodup_children hm.distinct place

theorem isName_of_mem (hm : m.WellFormed) {entry : Entry}
    (h : entry ∈ entriesOf m.listing directory) : IsName entry.name := by
  obtain ⟨place, item, -, hitem, -⟩ := mem_entriesOf_listing h
  exact hm.names _ hitem entry.name (List.mem_append_right place List.mem_cons_self)

theorem nested_listing (hm : m.WellFormed) : Nested m.listing := by
  intro directory entry he
  obtain ⟨place, item, -, -, hentry⟩ := mem_entriesOf_listing he
  refine ⟨?_, (isName_of_mem hm he).no_slash⟩
  rw [hentry]

theorem utf8ByteSize_pos {name : String} (hn : name ≠ "") : 0 < name.utf8ByteSize := by
  rw [Nat.pos_iff_ne_zero, Ne, String.utf8ByteSize_eq_zero_iff]
  exact hn

theorem utf8ByteSize_entryPath {name : String} (hn : name ≠ "") :
    directory.utf8ByteSize < (entryPath directory name).utf8ByteSize := by
  have hpos := utf8ByteSize_pos hn
  unfold entryPath
  split <;> simp only [String.utf8ByteSize_append] <;> omega

/-- Directories whose paths are long are not nested deeply. -/
theorem hasLevels_listing {n : Nat} (h : Disk.nameLimit < directory.utf8ByteSize + n) :
    HasLevels m.listing (n + 1) directory := by
  induction n generalizing directory with
  | zero =>
    intro entry he _ _
    obtain ⟨place, item, hplace, -⟩ := mem_entriesOf_listing he
    have hfits := (Disk.fits_of_locate hplace).2.2
    omega
  | succ n ih =>
    intro entry he _ hname
    obtain ⟨place, item, -, -, hentry⟩ := mem_entriesOf_listing he
    have hgrows := @utf8ByteSize_entryPath directory entry.name hname
    rw [hentry]
    apply ih
    dsimp only
    omega

/-- Names have no null character, so no listing below a root goes wrong because of one. -/
theorem no_null_of_reaches {α : Type} [PathRule α] {rules : List α} {root : String}
    (hm : m.WellFormed) (hroot : '\x00' ∉ root.toList) {job : Job}
    (h : Reaches m.listing rules root job) : '\x00' ∉ job.directory.toList := by
  induction h with
  | root => exact hroot
  | @enter job v _ hv ih =>
    obtain ⟨he, -, -⟩ := mem_of_mem_visible (List.mem_of_mem_filter hv)
    rw [jobOf, (nested_listing hm job.directory v.entry he).1, entryPath_eq, String.toList_append,
      List.mem_append, not_or]
    refine ⟨?_, (isName_of_mem hm he).no_null⟩
    unfold entryPath
    split
    · simpa using ih
    · simpa using ih

theorem not_isBroken_listing (h : '\x00' ∉ directory.toList) : ¬IsBroken m.listing directory := by
  rintro ⟨reason, hb⟩
  unfold listing at hb
  split at hb
  · cases hb
  · next problem hl =>
    have hs : problem.isSystem = false := by
      cases hsystem : problem.isSystem with
      | false => rfl
      | true => simp [hsystem] at hb
    exact h (Disk.mem_of_list_error hl hs)

end Host.Model

end FileSieve
