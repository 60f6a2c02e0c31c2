import Mathlib.Data.List.DropRight
import Mathlib.Data.List.Induction
import FileSieve.Proofs.Scan.Directories

/-! # Paths told apart from the root

The path of an entry is that of the root with the names that lead there, each after a slash. Taking
the root off again leaves the names joined, however the root is spelled, and that is the path under
which a scan asks the rules about the entry. A path that does not lie below the root keeps all of
its names. -/

namespace FileSieve.Scan

variable {α : Type} [PathRule α] {list : String → Except ListingFailure (List Entry)}
  {rules : List α} {root : String}

/-- A name of a file or directory, without either kind of slash. -/
structure IsPlainName (name : String) : Prop where
  ne_empty : name ≠ ""
  no_slash : '/' ∉ name.toList
  no_backslash : '\\' ∉ name.toList

instance (name : String) : Decidable (IsPlainName name) :=
  decidable_of_iff (name ≠ "" ∧ '/' ∉ name.toList ∧ '\\' ∉ name.toList)
    ⟨fun h => ⟨h.1, h.2.1, h.2.2⟩, fun h => ⟨h.ne_empty, h.no_slash, h.no_backslash⟩⟩

/-- The path that names lead to from a directory, each after a slash. -/
def pathTo (directory : String) (names : List String) : String :=
  names.foldl (fun path name => path ++ "/" ++ name) directory

/-- The names of a place joined, from the root on. -/
def placeOf (names : List String) : String :=
  names.foldl joinRelative ""

theorem pathTo_concat (directory : String) (names : List String) (name : String) :
    pathTo directory (names ++ [name]) = pathTo directory names ++ "/" ++ name := by
  rw [pathTo, List.foldl_concat, ← pathTo]

theorem placeOf_concat (names : List String) (name : String) :
    placeOf (names ++ [name]) = joinRelative (placeOf names) name := by
  rw [placeOf, List.foldl_concat, ← placeOf]

theorem placeOf_ne_empty {names : List String} (hne : names ≠ [])
    (h : ∀ name ∈ names, IsPlainName name) : placeOf names ≠ "" := by
  induction names using List.reverseRecOn with
  | nil => exact absurd rfl hne
  | append_singleton names name _ =>
    rw [placeOf_concat]
    exact joinRelative_ne_empty _ (h name (by simp)).ne_empty

/-- The path of a place below a root is the root, a slash and the place. -/
theorem pathTo_eq {names : List String} (hne : names ≠ [])
    (h : ∀ name ∈ names, IsPlainName name) :
    pathTo root names = root ++ "/" ++ placeOf names := by
  induction names using List.reverseRecOn with
  | nil => exact absurd rfl hne
  | append_singleton names name ih =>
    rw [pathTo_concat, placeOf_concat]
    by_cases hn : names = []
    · subst hn
      rfl
    · have hnames : ∀ name ∈ names, IsPlainName name :=
        fun name hname => h name (List.mem_append_left _ hname)
      rw [ih hn hnames, joinRelative, if_neg (placeOf_ne_empty hn hnames)]
      simp only [String.append_assoc]

theorem head?_placeOf {names : List String} (h : ∀ name ∈ names, IsPlainName name) :
    (placeOf names).toList.head? ≠ some '/' := by
  induction names using List.reverseRecOn with
  | nil => simp [placeOf]
  | append_singleton names name ih =>
    rw [placeOf_concat]
    exact head?_joinRelative (ih fun name hname => h name (List.mem_append_left _ hname))
      (h name (by simp)).no_slash

theorem no_backslash_placeOf {names : List String} (h : ∀ name ∈ names, IsPlainName name) :
    '\\' ∉ (placeOf names).toList := by
  induction names using List.reverseRecOn with
  | nil => simp [placeOf]
  | append_singleton names name ih =>
    have hnames := ih fun name hname => h name (List.mem_append_left _ hname)
    have hname := (h name (by simp)).no_backslash
    rw [placeOf_concat, joinRelative]
    split
    · exact hname
    · simp [hnames, hname]

/-- The names that lead to a path are told from it, however the root is spelled. -/
theorem relativePath_pathTo {names : List String} (hne : names ≠ [])
    (h : ∀ name ∈ names, IsPlainName name) :
    relativePath root (pathTo root names) = placeOf names := by
  obtain ⟨slashes, hs, hslashes, hpath⟩ := forwardSlashes_below root (placeOf names)
  rw [← pathTo_eq hne h, forwardSlashes_eq_self (no_backslash_placeOf h)] at hpath
  rw [relativePath_of_slashes hpath hs hslashes (head?_placeOf h), String.ofList_toList]

/-- A path that is not the root and does not lie below it only loses the slashes at its front. -/
theorem relativePath_beside {path : String} (hroot : '\\' ∉ root.toList)
    (hlast : root.toList.getLast? ≠ some '/') (hne : forwardSlashes path.toList ≠ root.toList)
    (hbeside : ¬root.toList ++ ['/'] <+: forwardSlashes path.toList) :
    relativePath root path =
      String.ofList ((forwardSlashes path.toList).dropWhile (· = '/')) := by
  have htop : Text.dropEndWhile (· = '/') root.toList = root.toList := by
    apply List.rdropWhile_eq_self_iff.2
    intro hroot hslash
    rw [List.getLast?_eq_some_getLast hroot] at hlast
    exact hlast (congrArg some (of_decide_eq_true hslash))
  unfold relativePath
  rw [forwardSlashes_eq_self hroot, htop]
  dsimp only
  rw [if_neg hne, if_neg (mt List.isPrefixOf_iff_prefix.1 hbeside)]

/-! ### Paths that the rules are asked about -/

/-- What a scan reaches stands where plain names lead. -/
theorem Reaches.exists_names
    (h : ∀ directory, ∀ entry ∈ entriesOf list directory, entry.name ≠ "" →
      IsPlainName entry.name ∧ entry.path = directory ++ "/" ++ entry.name)
    {job : Job} (hj : Reaches list rules root job) :
    ∃ names, (∀ name ∈ names, IsPlainName name) ∧ job = ⟨pathTo root names, placeOf names⟩ := by
  induction hj with
  | root => exact ⟨[], by simp, rfl⟩
  | @enter job v _ hv ih =>
    obtain ⟨names, hnames, rfl⟩ := ih
    obtain ⟨he, hn, hr⟩ := mem_of_mem_visible (List.mem_of_mem_filter hv)
    obtain ⟨hplain, hpath⟩ := h _ v.entry he hn
    refine ⟨names ++ [v.entry.name], ?_, ?_⟩
    · simpa [or_imp, forall_and] using ⟨hnames, hplain⟩
    · rw [jobOf, hpath, hr, pathTo_concat, placeOf_concat]

theorem Reaches.relativePath_entry
    (h : ∀ directory, ∀ entry ∈ entriesOf list directory, entry.name ≠ "" →
      IsPlainName entry.name ∧ entry.path = directory ++ "/" ++ entry.name)
    {job : Job} (hj : Reaches list rules root job) {entry : Entry}
    (he : entry ∈ entriesOf list job.directory) (hn : entry.name ≠ "") :
    relativePath root entry.path = joinRelative job.relative entry.name := by
  obtain ⟨names, hnames, rfl⟩ := hj.exists_names h
  obtain ⟨hplain, hpath⟩ := h _ entry he hn
  have hall : ∀ name ∈ names ++ [entry.name], IsPlainName name := by
    simpa [or_imp, forall_and] using ⟨hnames, hplain⟩
  rw [hpath, ← pathTo_concat, relativePath_pathTo (by simp) hall, placeOf_concat]

/-- Taking a root off the path that names lead to leaves the names joined. Off a path beside the
root it takes the slashes at the front only. A scan asks the rules about an entry under what the
root leaves of its path. -/
theorem relativePath_undoes_joining :
    (∀ (root : String) (names : List String), names ≠ [] → (∀ name ∈ names, IsPlainName name) →
      relativePath root (pathTo root names) = placeOf names) ∧
    (∀ root path : String, '\\' ∉ root.toList → root.toList.getLast? ≠ some '/' →
      forwardSlashes path.toList ≠ root.toList →
      ¬root.toList ++ ['/'] <+: forwardSlashes path.toList →
        relativePath root path =
          String.ofList ((forwardSlashes path.toList).dropWhile (· = '/'))) ∧
    ∀ (list : String → Except ListingFailure (List Entry)) (rules : List α) (root : String),
      (∀ directory, ∀ entry ∈ entriesOf list directory, entry.name ≠ "" →
        IsPlainName entry.name ∧ entry.path = directory ++ "/" ++ entry.name) →
      ∀ job, Reaches list rules root job →
        view list rules job = (entriesOf list job.directory).filterMap fun entry =>
          let place := relativePath root entry.path
          if entry.name = "" || isIgnored rules (judgedPath entry place) then none
          else some ⟨entry, place⟩ := by
  refine ⟨fun root names => relativePath_pathTo, fun root path => relativePath_beside, ?_⟩
  intro list rules root h job hj
  rw [view, visible_eq hj.isOpen]
  apply List.filterMap_congr
  intro entry he
  by_cases hn : entry.name = ""
  · simp [hn]
  · rw [hj.relativePath_entry h he hn]

theorem relativePath_undoes_joining_spellings :
    let c : Catalogue := { directories := [
      ("C:\\p\\", [⟨"src", true, "C:\\p\\/src"⟩]),
      ("C:\\p\\/src",
        [⟨"a.py", false, "C:\\p\\/src/a.py"⟩, ⟨"a.pyc", false, "C:\\p\\/src/a.pyc"⟩])] }
    let rules := compileRules ["/src/*.pyc"]
    (∀ name ∈ ["src", "a.py"], IsPlainName name) ∧
      relativePath "C:\\p\\" "C:\\p\\/src/a.py" = "src/a.py" ∧
      ¬"/r".toList ++ ['/'] <+: forwardSlashes "\\rx/a".toList ∧
      relativePath "/r" "\\rx/a" = "rx/a" ∧
      Reaches c.list rules "C:\\p\\" ⟨"C:\\p\\/src", "src"⟩ ∧
      view c.list rules ⟨"C:\\p\\/src", "src"⟩ =
        [⟨⟨"a.py", false, "C:\\p\\/src/a.py"⟩, "src/a.py"⟩] := by
  intro c rules
  have hnames : ∀ name ∈ ["src", "a.py"], IsPlainName name := by decide +kernel
  have hbeside : ¬"/r".toList ++ ['/'] <+: forwardSlashes "\\rx/a".toList := by decide +kernel
  have hc := @entriesOf_catalogue
    (fun directory entries => ∀ entry ∈ entries, entry.name ≠ "" →
      IsPlainName entry.name ∧ entry.path = directory ++ "/" ++ entry.name)
    c (by simp) (by decide +kernel)
  have hsrc : Reaches c.list rules "C:\\p\\" ⟨"C:\\p\\/src", "src"⟩ :=
    .enter (v := ⟨⟨"src", true, "C:\\p\\/src"⟩, "src"⟩) .root (by decide +kernel)
  obtain ⟨hbelow, hother, hview⟩ := @relativePath_undoes_joining Rule _
  refine ⟨hnames, hbelow _ ["src", "a.py"] (by simp) hnames, hbeside, ?_, hsrc, ?_⟩
  · exact hother "/r" "\\rx/a" (by decide +kernel) (by decide +kernel) (by decide +kernel) hbeside
  · rw [hview c.list rules _ hc _ hsrc]
    decide +kernel

end FileSieve.Scan
