import Mathlib.Data.List.Nodup
import FileSieve.Proofs.Scan.Visibility

/-! # No directory is reached twice

Where names in a directory are distinct and have no slash, different names lead to different places,
and so to different paths. -/

namespace FileSieve.Scan

variable {α : Type} [PathRule α] {list : String → Except ListingFailure (List Entry)}
  {rules : List α} {root : String}

/-- Listings in which each name occurs once. -/
def Distinct (list : String → Except ListingFailure (List Entry)) : Prop :=
  ∀ directory, ((entriesOf list directory).map Entry.name).Nodup

/-- A path is another one or leads on from it. -/
def LeadsOn (above path : String) : Prop :=
  path = above ∨ ∃ rest, path = above ++ "/" ++ rest

theorem LeadsOn.trans {above path further : String} (h : LeadsOn above path)
    (h' : LeadsOn path further) : LeadsOn above further := by
  rcases h with rfl | ⟨rest, rfl⟩
  · exact h'
  · rcases h' with rfl | ⟨more, rfl⟩
    · exact .inr ⟨rest, rfl⟩
    · exact .inr ⟨rest ++ "/" ++ more, by simp only [String.append_assoc]⟩

theorem LeadsOn.length_le {above path : String} (h : LeadsOn above path) :
    above.toList.length ≤ path.toList.length := by
  rcases h with rfl | ⟨rest, rfl⟩
  · exact Nat.le_refl _
  · simp only [String.toList_append, List.length_append]
    omega

theorem length_lt_joinRelative (above : String) {name : String} (hn : name ≠ "") :
    above.toList.length < (joinRelative above name).toList.length := by
  have hpos : 0 < name.toList.length := List.length_pos_iff.2 (by simpa using hn)
  unfold joinRelative
  split
  · next h => simpa [h] using hpos
  · simp only [String.toList_append, List.length_append]
    omega

theorem joinRelative_eq (above name : String) : joinRelative above name = inside above ++ name := by
  unfold joinRelative inside
  split <;> simp

/-- Whatever is reached from a directory below the root stands at a path that leads on. -/
theorem leadsOn_of_mem_reached {n : Nat} {job other : Job} (hr : job.relative ≠ "")
    (ho : other ∈ reached list rules n job) : LeadsOn job.relative other.relative := by
  induction n generalizing job with
  | zero => cases ho
  | succ n ih =>
    rcases mem_reached_succ.1 ho with rfl | ⟨v, hv, ho⟩
    · exact .inl rfl
    · have hrel := relative_of_mem_view (List.mem_of_mem_filter hv)
      rw [joinRelative, if_neg hr] at hrel
      have hne : v.relative ≠ "" := by simp [hrel]
      have hstep : LeadsOn job.relative v.relative := .inr ⟨v.entry.name, hrel⟩
      exact hstep.trans (@ih (jobOf v) hne ho)

/-- A name is what a path that leads on from it begins with, behind what stands before the name. -/
theorem takeWhile_of_leadsOn {front name path : String} (hn : '/' ∉ name.toList)
    (h : LeadsOn (front ++ name) path) :
    ∃ rest, path.toList = front.toList ++ rest ∧ rest.takeWhile (· ≠ '/') = name.toList := by
  have hname : ∀ c ∈ name.toList, decide (c ≠ '/') = true := by
    intro c hc
    exact decide_eq_true fun hslash => hn (hslash ▸ hc)
  rcases h with rfl | ⟨rest, rfl⟩
  · refine ⟨name.toList, String.toList_append, ?_⟩
    rw [← List.append_nil name.toList, List.takeWhile_append_of_pos hname, List.takeWhile_nil]
  · refine ⟨name.toList ++ '/' :: rest.toList, by simp, ?_⟩
    rw [List.takeWhile_append_of_pos hname]
    simp

theorem name_eq_of_leadsOn {front name other path : String} (hn : '/' ∉ name.toList)
    (ho : '/' ∉ other.toList) (h : LeadsOn (front ++ name) path)
    (h' : LeadsOn (front ++ other) path) : name = other := by
  obtain ⟨rest, hpath, hrest⟩ := takeWhile_of_leadsOn hn h
  obtain ⟨rest', hpath', hrest'⟩ := takeWhile_of_leadsOn ho h'
  obtain rfl : rest = rest' := List.append_cancel_left (hpath.symm.trans hpath')
  exact String.toList_inj.1 (hrest.symm.trans hrest')

/-- What keeps a mark of the values that it lets through lists marks in their order. -/
theorem map_filterMap_sublist {β γ δ : Type} {f : β → Option γ} {mark : γ → δ} {origin : β → δ}
    (hf : ∀ a b, f a = some b → mark b = origin a) (as : List β) :
    ((as.filterMap f).map mark).Sublist (as.map origin) := by
  induction as with
  | nil => exact .slnil
  | cons a as ih =>
    rw [List.filterMap_cons, List.map_cons]
    cases hb : f a with
    | none => exact ih.cons _
    | some b =>
      rw [List.map_cons, hf a b hb]
      exact ih.cons_cons _

/-- The entries that the rules let through have distinct names. -/
theorem nodup_names_view {job : Job} (hd : ((entriesOf list job.directory).map Entry.name).Nodup) :
    ((view list rules job).map fun v => v.entry.name).Nodup := by
  refine (map_filterMap_sublist ?_ _).nodup hd
  intro entry v hv
  split at hv
  · cases hv
  · cases hv
    rfl

/-- Where names are distinct and have no slash, no two directories are reached at one place. -/
theorem nodup_reached
    (hs : ∀ job, Reaches list rules root job → ∀ entry ∈ entriesOf list job.directory,
      '/' ∉ entry.name.toList)
    (hd : ∀ job, Reaches list rules root job →
      ((entriesOf list job.directory).map Entry.name).Nodup)
    (n : Nat) {job : Job} (hj : Reaches list rules root job) :
    ((reached list rules n job).map Job.relative).Nodup := by
  induction n generalizing job with
  | zero => exact List.nodup_nil
  | succ n ih =>
    have hbelow : ∀ v ∈ directories (view list rules job), ∀ other ∈ reached list rules n (jobOf v),
        LeadsOn (joinRelative job.relative v.entry.name) other.relative := by
      intro v hv other ho
      obtain ⟨-, hn, hrel⟩ := mem_of_mem_visible (List.mem_of_mem_filter hv)
      rw [← hrel]
      have hne : v.relative ≠ "" := by
        rw [hrel]
        exact joinRelative_ne_empty job.relative hn
      exact @leadsOn_of_mem_reached _ _ _ _ n (jobOf v) other hne ho
    have hslash : ∀ v ∈ directories (view list rules job), '/' ∉ v.entry.name.toList := by
      intro v hv
      obtain ⟨he, -, -⟩ := mem_of_mem_visible (List.mem_of_mem_filter hv)
      exact hs job hj v.entry he
    rw [reached, jobsFor_eq, List.flatMap_map, List.map_cons, List.nodup_cons, List.map_flatMap,
      List.nodup_flatMap]
    refine ⟨?_, fun v hv => ih (hj.enter hv), ?_⟩
    · intro hmem
      obtain ⟨v, hv, hmem⟩ := List.mem_flatMap.1 hmem
      obtain ⟨other, ho, hsame⟩ := List.mem_map.1 hmem
      obtain ⟨-, hn, -⟩ := mem_of_mem_visible (List.mem_of_mem_filter hv)
      have hlength := (hbelow v hv other ho).length_le
      rw [hsame] at hlength
      exact absurd hlength (Nat.not_le.2 (length_lt_joinRelative job.relative hn))
    · have hnames : ((directories (view list rules job)).map fun v => v.entry.name).Nodup :=
        (List.filter_sublist.map _).nodup (nodup_names_view (hd job hj))
      rw [List.Nodup, List.pairwise_map] at hnames
      apply hnames.imp_of_mem
      intro v w hv hw hne
      apply List.disjoint_left.2
      intro path hpath hpath'
      obtain ⟨other, ho, rfl⟩ := List.mem_map.1 hpath
      obtain ⟨other', ho', hsame⟩ := List.mem_map.1 hpath'
      have hw' := hbelow w hw other' ho'
      rw [hsame] at hw'
      have hv' := hbelow v hv other ho
      rw [joinRelative_eq] at hv' hw'
      exact hne (name_eq_of_leadsOn (hslash v hv) (hslash w hw) hv' hw')

/-- Where paths tell places, directories that are reached at different places have different paths. -/
theorem nodup_directories_of_pathsTell {n : Nat} (hp : PathsTell list rules root)
    (h : ((reached list rules n ⟨root, ""⟩).map Job.relative).Nodup) :
    ((reached list rules n ⟨root, ""⟩).map Job.directory).Nodup := by
  rw [List.Nodup, List.pairwise_map] at h ⊢
  apply h.imp_of_mem
  intro job other hj ho hne hsame
  exact hne (hp job other (Reaches.root.of_mem_reached hj) (Reaches.root.of_mem_reached ho) hsame)

/-- Where the path of an entry is that of its directory and its name, no directory is reached
twice. -/
theorem nodup_directories (hl : Nested list) (hd : Distinct list) (n : Nat) (root : String) :
    ((reached list rules n ⟨root, ""⟩).map Job.directory).Nodup := by
  apply nodup_directories_of_pathsTell (pathsTell_of_nested hl)
  apply nodup_reached (fun job _ entry he => (hl job.directory entry he).2)
    (fun job _ => hd job.directory) n
  exact .root

end FileSieve.Scan
