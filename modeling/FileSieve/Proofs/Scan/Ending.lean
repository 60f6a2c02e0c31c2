import Mathlib.Data.List.MinMax
import Mathlib.Order.Nat
import FileSieve.Proofs.Program.Evaluation
import FileSieve.Proofs.Scan.Directories
import FileSieve.Proofs.Scan.Faults

/-! # Scans come to an end

Where the path of an entry is that of its directory, a slash and its name, paths get longer from
level to level, and a directory with a path longer than each one in the catalogue is empty. So a
scan comes to a result in a limited number of levels, and it does nothing else when more of them are
allowed. It does not matter that names occur twice, that they hold slashes, or that several places
have one path. -/

namespace FileSieve

namespace Catalogue

/-- The length of the longest path among the directories. -/
def longest (c : Catalogue) : Nat :=
  (c.directories.map fun row => row.1.length).foldr max ⊥

/-- How far the length of a path falls short of going beyond the longest one. -/
def distance (c : Catalogue) (directory : String) : Nat :=
  c.longest + 1 - directory.length

theorem length_le_longest {c : Catalogue} {row : String × List Entry} (h : row ∈ c.directories) :
    row.1.length ≤ c.longest :=
  List.le_max_of_le (List.mem_map_of_mem h) le_rfl

end Catalogue

namespace Scan

open Program

variable {α β γ : Type} {list : String → Except ListingFailure (List Entry)}

/-! ### More levels make no difference -/

/-- A scan in two parts that comes to a value does so by a value of its first part. -/
theorem Yields.exists_of_bind {scan : Scanning β} {f : β → Scanning γ} {result : γ}
    {sent : List Request} (h : Yields list (scan >>= f) result sent) :
    ∃ value first more, Yields list scan value first ∧ Yields list (f value) result more ∧
      sent = first ++ more := by
  obtain ⟨hresult, hsent⟩ := h
  rw [outcome_bind] at hresult
  cases hvalue : outcome list scan with
  | error fault =>
    rw [hvalue] at hresult
    cases hresult
  | ok value =>
    rw [hvalue] at hresult
    rw [requests_bind_of_ok hvalue] at hsent
    exact ⟨value, _, _, ⟨hvalue, rfl⟩, ⟨hresult, rfl⟩, hsent.symm⟩

/-- Whatever the first scan comes to, the second one comes to it as well, by the same requests. -/
def Extends (list : String → Except ListingFailure (List Entry)) (scan other : Scanning β) : Prop :=
  ∀ value sent, Yields list scan value sent → Yields list other value sent

theorem Extends.refl (scan : Scanning β) : Extends list scan scan :=
  fun _ _ h => h

theorem extends_throw (fault : Fault) (other : Scanning β) : Extends list (throw fault) other := by
  intro value sent h
  cases h.1

theorem Extends.bind {scan other : Scanning β} {f g : β → Scanning γ}
    (h : Extends list scan other) (hf : ∀ value, Extends list (f value) (g value)) :
    Extends list (scan >>= f) (other >>= g) := by
  intro result sent hresult
  obtain ⟨value, first, more, hvalue, hmore, rfl⟩ := hresult.exists_of_bind
  exact (h value first hvalue).bind (hf value result more hmore)

theorem Extends.mapM {f g : β → Scanning γ} (h : ∀ b, Extends list (f b) (g b)) (bs : List β) :
    Extends list (bs.mapM f) (bs.mapM g) := by
  induction bs with
  | nil => exact .refl _
  | cons b bs ih =>
    rw [List.mapM_cons, List.mapM_cons]
    exact (h b).bind fun _ => ih.bind fun _ => .refl _

/-- A scan that each further level extends is extended by any number of them. -/
theorem Extends.of_succ {f : Nat → Scanning β} (h : ∀ n, Extends list (f n) (f (n + 1)))
    {n m : Nat} (hnm : n ≤ m) : Extends list (f n) (f m) := by
  induction m, hnm using Nat.le_induction with
  | base => exact .refl _
  | succ m _ ih => exact fun value sent hn => h m value sent (ih value sent hn)

variable [PathRule α] {rules : List α}

theorem extends_depthFirstNodes (n : Nat) (directory relative : String) :
    Extends list (depthFirstNodes rules n directory relative)
      (depthFirstNodes rules (n + 1) directory relative) := by
  induction n generalizing directory relative with
  | zero => exact extends_throw _ _
  | succ n ih =>
    rw [depthFirstNodes, depthFirstNodes]
    refine (Extends.refl _).bind fun entries => Extends.bind (Extends.mapM (fun v => ?_) _) fun _ =>
      .refl _
    exact (ih v.entry.path v.relative).bind fun _ => .refl _

theorem extends_depthFirst (n : Nat) (root : String) :
    Extends list (depthFirst rules n root) (depthFirst rules (n + 1) root) :=
  (extends_depthFirstNodes n root "").bind fun _ => .refl _

theorem extends_collect (schedule : Schedule) (n level : Nat) (frontier : List Job)
    (found : Listings) :
    Extends list (collect rules schedule n level frontier found)
      (collect rules schedule (n + 1) level frontier found) := by
  induction n generalizing level frontier found with
  | zero =>
    cases frontier with
    | nil => exact .refl _
    | cons job jobs => exact extends_throw _ _
  | succ n ih =>
    cases frontier with
    | nil => exact .refl _
    | cons job jobs =>
      rw [collect, collect]
      refine (Extends.refl _).bind fun cancelled => ?_
      split
      · exact .refl _
      · exact (Extends.refl _).bind fun outcomes => (Extends.refl _).bind fun entries => ih _ _ _

theorem mk_pure_bind (result : Except Fault β) (f : β → Except Fault γ) :
    (ExceptT.mk (pure (result >>= f)) : Scanning γ) =
      ExceptT.mk (pure result) >>= fun value => ExceptT.mk (pure (f value)) := by
  cases result <;> rfl

theorem mk_pure_mapM (f : β → Except Fault γ) (bs : List β) :
    (ExceptT.mk (pure (bs.mapM f)) : Scanning (List γ)) =
      bs.mapM fun b => ExceptT.mk (pure (f b)) := by
  induction bs with
  | nil => rfl
  | cons b bs ih =>
    simp only [List.mapM_cons, mk_pure_bind, ih]
    rfl

theorem extends_nodesFrom (found : Listings) (n : Nat) (directory : String) :
    Extends list (ExceptT.mk (pure (nodesFrom found n directory)))
      (ExceptT.mk (pure (nodesFrom found (n + 1) directory))) := by
  induction n generalizing directory with
  | zero => exact extends_throw _ _
  | succ n ih =>
    rw [nodesFrom, nodesFrom]
    simp only [mk_pure_bind, mk_pure_mapM]
    exact (Extends.mapM (fun v : VisibleEntry => (ih v.entry.path).bind fun _ => .refl _) _).bind
      fun _ => .refl _

theorem extends_byLevels (schedule : Schedule) (workers : Int) (n : Nat) (root : String) :
    Extends list (byLevels rules schedule workers n root)
      (byLevels rules schedule workers (n + 1) root) := by
  refine (extends_collect schedule n 0 _ _).bind fun found => ?_
  cases found with
  | none => exact .refl _
  | some found => exact (extends_nodesFrom found n root).bind fun _ => .refl _

/-- Further levels leave a scan that comes to a result as it is. -/
theorem exists_observe_of_succ {f : Nat → Scanning β} (h : ∀ n, Extends list (f n) (f (n + 1)))
    {n : Nat} {value : β} (hn : outcome list (f n) = .ok value) :
    ∃ seen, ∀ m ≥ n, observe list none (f m) = (.ok value, seen) := by
  refine ⟨noted {} (requests list (f n)), fun m hm => ?_⟩
  obtain ⟨hvalue, hsent⟩ := Extends.of_succ h hm value _ ⟨hn, rfl⟩
  rw [observe_eq, hvalue, hsent]

/-! ### Ranked directories -/

theorem exists_ok_of_allows {ε : Type} {post : β → Prop} {result : Except ε β}
    (h : Allows (fun _ => False) post result) : ∃ value, result = .ok value := by
  cases result with
  | error fault => exact h.elim
  | ok value => exact ⟨value, rfl⟩

theorem exists_outcome_depthFirst (rules : List α) {rank : String → Nat} {n : Nat} {root : String}
    (hr : ∀ q, Descends rank ⟨q, steadyAnswer list q⟩) (hn : rank root < n) :
    ∃ found, outcome list (depthFirst rules n root) = .ok found :=
  exists_ok_of_allows (Meets.eval (delivers_depthFirst hn) hr)

theorem exists_outcome_byLevels (rules : List α) (schedule : Schedule) (workers : Int)
    {rank : String → Nat} {n : Nat} {root : String}
    (hr : ∀ q, Descends rank ⟨q, steadyAnswer list q⟩) (hn : rank root < n) :
    ∃ found, outcome list (byLevels rules schedule workers n root) = .ok (some found) := by
  have hcalm : ∀ q, uncancelled.gets ⟨q, steadyAnswer list q⟩ := by
    intro q
    cases q with
    | list directory => simp [uncancelled]
    | log record => simp [uncancelled]
    | cancelled => simp [uncancelled, steadyAnswer]
  have hsome : Allows (fun _ => True) (fun found => found.isSome = true)
      (outcome list (byLevels rules schedule workers n root)) :=
    Meets.eval (delivers_byLevels_isSome schedule workers n root) hcalm
  have hok : ∃ found, outcome list (byLevels rules schedule workers n root) = .ok found :=
    exists_ok_of_allows (Meets.eval (delivers_byLevels schedule workers hn) hr)
  obtain ⟨found, hfound⟩ := hok
  rw [hfound] at hsome
  obtain ⟨result, rfl⟩ := Option.isSome_iff_exists.1 hsome
  exact ⟨result, hfound⟩

/-! ### Catalogues -/

/-- Directories are ranked by how far their paths fall short of the longest one, if the path of each
entry is longer than that of its directory. -/
theorem descends_distance {c : Catalogue}
    (hpath : ∀ row ∈ c.directories, ∀ entry ∈ row.2, entry.path = row.1 ++ "/" ++ entry.name)
    (hfail : ∀ row ∈ c.failures, ∃ reason, row.2 = .unreadable reason) (q : Request) :
    Descends c.distance ⟨q, steadyAnswer c.list q⟩ := by
  cases q with
  | log record => trivial
  | cancelled => trivial
  | list directory =>
    have hentries := @entriesOf_catalogue
      (fun directory entries => ∀ entry ∈ entries,
        directory.length ≤ c.longest ∧ entry.path = directory ++ "/" ++ entry.name)
      c (by simp) (fun row hrow entry he =>
        ⟨Catalogue.length_le_longest hrow, hpath row hrow entry he⟩) directory
    have hbroken := not_isBroken_catalogue hfail directory
    unfold steadyAnswer Descends
    dsimp only
    split
    · next entries hl =>
      rw [entriesOf, hl] at hentries
      intro entry he _ _
      obtain ⟨hshort, hpath⟩ := hentries entry he
      have hgrows : directory.length < entry.path.length := by
        have hslash : "/".length = 1 := rfl
        rw [hpath, String.length_append, String.length_append, hslash]
        omega
      unfold Catalogue.distance
      omega
    · trivial
    · next reason hl => exact hbroken ⟨reason, hl⟩

/-- A scan over a finite map of directories, in which the path of each entry is that of its
directory, a slash and its name, comes to a result, with workers and without. It is the same result,
come to in the same way, however many levels are allowed beyond those that the paths make room
for. -/
theorem scans_end (rules : List α) (schedule : Schedule) (workers : Int) (root : String)
    {c : Catalogue}
    (hpath : ∀ row ∈ c.directories, ∀ entry ∈ row.2, entry.path = row.1 ++ "/" ++ entry.name)
    (hfail : ∀ row ∈ c.failures, ∃ reason, row.2 = .unreadable reason) :
    ∃ sequential parallel seen seen', ∀ depth > c.distance root,
      runOver c none (depthFirst rules depth root) = (.ok sequential, seen) ∧
      runOver c none (byLevels rules schedule workers depth root) =
        (.ok (some parallel), seen') := by
  have hr := descends_distance hpath hfail
  have hn : c.distance root < c.distance root + 1 := Nat.lt_succ_self _
  obtain ⟨sequential, hs⟩ := exists_outcome_depthFirst rules hr hn
  obtain ⟨parallel, hp⟩ := exists_outcome_byLevels rules schedule workers hr hn
  obtain ⟨seen, hseen⟩ := exists_observe_of_succ (fun n => extends_depthFirst n root) hs
  obtain ⟨seen', hseen'⟩ :=
    exists_observe_of_succ (fun n => extends_byLevels schedule workers n root) hp
  exact ⟨sequential, parallel, seen, seen', fun depth hdepth =>
    ⟨hseen depth hdepth, hseen' depth hdepth⟩⟩

theorem scans_end_repeated :
    let c : Catalogue :=
      { directories := [
          ("/r", [⟨"a", true, "/r/a"⟩, ⟨"a/b", true, "/r/a/b"⟩, ⟨"a", true, "/r/a"⟩]),
          ("/r/a", [⟨"b", true, "/r/a/b"⟩, ⟨"/b", true, "/r/a//b"⟩, ⟨"c", true, "/r/a/c"⟩]),
          ("/r/a/b", [⟨"x.txt", false, "/r/a/b/x.txt"⟩, ⟨"../b", true, "/r/a/b/../b"⟩])]
        failures := [("/r/a/c", .unreadable "denied")] }
    let rules := compileRules ["*.log"]
    let backwards : Schedule := ⟨fun _ jobs => jobs.reverse, fun _ jobs => jobs.reverse_perm⟩
    (∀ row ∈ c.directories, ∀ entry ∈ row.2, entry.path = row.1 ++ "/" ++ entry.name) ∧
      (∀ row ∈ c.failures, ∃ reason, row.2 = .unreadable reason) ∧
      c.distance "/r" = 5 ∧
      ∃ sequential parallel seen seen', ∀ depth > c.distance "/r",
        runOver c none (depthFirst rules depth "/r") = (.ok sequential, seen) ∧
        runOver c none (byLevels rules backwards 4 depth "/r") = (.ok (some parallel), seen') := by
  intro c rules backwards
  have hpath : ∀ row ∈ c.directories, ∀ entry ∈ row.2,
      entry.path = row.1 ++ "/" ++ entry.name := by
    decide +kernel
  have hfail : ∀ row ∈ c.failures, ∃ reason, row.2 = .unreadable reason := by
    intro row hrow
    exact ⟨"denied", congrArg Prod.snd (List.mem_singleton.1 hrow)⟩
  have hdistance : c.distance "/r" = 5 := by
    decide +kernel
  clear_value c
  exact ⟨hpath, hfail, hdistance, scans_end rules backwards 4 "/r" hpath hfail⟩

end Scan

end FileSieve
