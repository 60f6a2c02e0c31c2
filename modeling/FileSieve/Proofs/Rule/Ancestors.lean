import FileSieve.Proofs.Rule.LastMatch

/-! # The directories above a path

A path is ignored if the last rule that accepts it is plain, or if that is so for a directory above
it. Of these directories the longest is reported. A directory above a directory is also above what
that holds, so an ignored directory takes along everything beneath it. -/

namespace FileSieve

universe u

variable {α : Type u} [PathRule α]

/-- The path goes on below a directory. One slash at the end of the path does not count for that. -/
def IsAbove (directory path : List Char) : Prop :=
  directory ≠ [] ∧ ∃ rest, Pattern.dropLast '/' path = directory ++ '/' :: rest

theorem dropLast_cases (c : Char) (cs : List Char) :
    cs = Pattern.dropLast c cs ++ [c] ∨ Pattern.dropLast c cs = cs ∧ cs.getLast? ≠ some c := by
  unfold Pattern.dropLast
  split
  · next h =>
    obtain ⟨front, rfl⟩ := List.getLast?_eq_some_iff.1 h
    exact .inl (by simp)
  · next h => exact .inr ⟨rfl, h⟩

theorem IsAbove.exists_rest {directory path : List Char} (h : IsAbove directory path) :
    ∃ rest, path = directory ++ '/' :: rest := by
  obtain ⟨-, rest, hr⟩ := h
  rcases dropLast_cases '/' path with hp | ⟨hp, -⟩
  · exact ⟨rest ++ ['/'], by simpa [hr] using hp⟩
  · exact ⟨rest, hp ▸ hr⟩

/-! ### The walk upward -/

theorem mem_headsBeforeSlash_iff {head path : List Char} :
    head ∈ headsBeforeSlash path ↔ ∃ rest, path = head ++ '/' :: rest := by
  constructor
  · intro h
    induction path generalizing head with
    | nil => simp [headsBeforeSlash] at h
    | cons c path ih =>
      have hlonger (hm : head ∈ (headsBeforeSlash path).map (c :: ·)) :
          ∃ rest, c :: path = head ++ '/' :: rest := by
        obtain ⟨shorter, hs, rfl⟩ := List.mem_map.1 hm
        obtain ⟨rest, rfl⟩ := ih hs
        exact ⟨rest, rfl⟩
      by_cases hc : c = '/'
      · simp only [headsBeforeSlash, hc, if_true, List.mem_cons] at h
        rcases h with rfl | h
        · exact ⟨path, by simp [hc]⟩
        · exact hlonger (hc ▸ h)
      · exact hlonger (by simpa [headsBeforeSlash, hc] using h)
  · rintro ⟨rest, rfl⟩
    simp [headsBeforeSlash_append, headsBeforeSlash]

theorem mem_ancestors_iff {directory path : List Char} :
    directory ∈ ancestors path ↔ IsAbove directory path := by
  rw [ancestors, List.mem_reverse, List.mem_filter, mem_headsBeforeSlash_iff, IsAbove, and_comm,
    decide_eq_true_iff]

theorem headsBeforeSlash_pairwise (path : List Char) :
    (headsBeforeSlash path).Pairwise fun a b => a.length < b.length := by
  induction path with
  | nil => exact .nil
  | cons c path ih =>
    have hlonger : ((headsBeforeSlash path).map (c :: ·)).Pairwise fun a b => a.length < b.length :=
      List.pairwise_map.2 (by simpa using ih)
    by_cases hc : c = '/'
    · simpa [headsBeforeSlash, hc] using hlonger
    · simpa [headsBeforeSlash, hc] using hlonger

/-- The walk upward comes to ever shorter directories. -/
theorem ancestors_pairwise (path : List Char) :
    (ancestors path).Pairwise fun a b => b.length < a.length :=
  List.pairwise_reverse.2 ((headsBeforeSlash_pairwise _).filter _)

/-- In a list of falling size the first of a kind is the largest of its kind. -/
theorem find?_eq_some_iff_of_pairwise {β : Type} {p : β → Bool} {size : β → Nat} {bs : List β}
    {b : β} (h : bs.Pairwise fun a b => size b < size a) :
    bs.find? p = some b ↔
      b ∈ bs ∧ p b = true ∧ ∀ other ∈ bs, p other = true → size other ≤ size b := by
  induction bs with
  | nil => simp
  | cons first rest ih =>
    obtain ⟨hfirst, hrest⟩ := List.pairwise_cons.1 h
    by_cases hp : p first = true
    · rw [List.find?_cons_of_pos hp, Option.some_inj]
      constructor
      · rintro rfl
        refine ⟨by simp, hp, ?_⟩
        rintro other ho -
        rcases List.mem_cons.1 ho with rfl | ho
        · exact Nat.le_refl _
        · exact Nat.le_of_lt (hfirst other ho)
      · rintro ⟨hb, -, hmax⟩
        rcases List.mem_cons.1 hb with rfl | hb
        · rfl
        · exact absurd (hmax first (by simp) hp) (by simpa using hfirst b hb)
    · rw [List.find?_cons_of_neg hp, ih hrest]
      simp only [List.mem_cons]
      constructor
      · rintro ⟨hb, hpb, hmax⟩
        refine ⟨.inr hb, hpb, ?_⟩
        rintro other (rfl | ho) hpo
        · exact absurd hpo hp
        · exact hmax other ho hpo
      · rintro ⟨rfl | hb, hpb, hmax⟩
        · exact absurd hpb hp
        · exact ⟨hb, hpb, fun other ho => hmax other (.inr ho)⟩

/-- The directory is the longest of those above the path whose last rule is plain. -/
structure IsNearestPlain (rules : List α) (path directory : List Char) : Prop where
  above : IsAbove directory path
  plain : IsLastPlain rules (directory ++ ['/'])
  longest : ∀ other, IsAbove other path → IsLastPlain rules (other ++ ['/']) →
    other.length ≤ directory.length

section Walk

variable {rules : List α} {path : List Char}

theorem excludedAncestor_eq_some_iff {found : List Char} :
    excludedAncestor rules path = some found ↔
      ∃ directory, IsNearestPlain rules path directory ∧ found = directory ++ ['/'] := by
  rw [excludedAncestor, List.find?_map, Option.map_eq_some_iff]
  refine exists_congr fun directory => and_congr ?_ eq_comm
  rw [find?_eq_some_iff_of_pairwise (ancestors_pairwise path)]
  simp only [mem_ancestors_iff, Function.comp_apply, excludes_eq_true_iff]
  constructor
  · rintro ⟨habove, hplain, hlongest⟩
    exact ⟨habove, hplain, hlongest⟩
  · intro h
    exact ⟨h.above, h.plain, h.longest⟩

theorem excludedAncestor_isSome_iff :
    (excludedAncestor rules path).isSome = true ↔
      ∃ directory, IsAbove directory path ∧ excludes rules (directory ++ ['/']) = true := by
  simp only [excludedAncestor, List.find?_isSome, List.mem_map, mem_ancestors_iff]
  constructor
  · rintro ⟨_, ⟨directory, ha, rfl⟩, he⟩
    exact ⟨directory, ha, he⟩
  · rintro ⟨directory, ha, he⟩
    exact ⟨_, ⟨directory, ha, rfl⟩, he⟩

end Walk

theorem isIgnored_iff_excludes {rules : List α} {path : String} :
    isIgnored rules path = true ↔ excludes rules path.toList = true ∨
      ∃ directory, IsAbove directory path.toList ∧ excludes rules (directory ++ ['/']) = true := by
  rw [isIgnored, Bool.or_eq_true, excludedAncestor_isSome_iff]

/-- Rules that exclude more paths ignore more paths. -/
theorem isIgnored_mono {rules more : List α}
    (h : ∀ path, excludes rules path = true → excludes more path = true) {path : String}
    (hi : isIgnored rules path = true) : isIgnored more path = true := by
  rw [isIgnored_iff_excludes] at hi ⊢
  rcases hi with he | ⟨directory, ha, he⟩
  · exact .inl (h _ he)
  · exact .inr ⟨directory, ha, h _ he⟩

/-- Rules that exclude the same paths ignore the same paths. -/
theorem isIgnored_congr {rules more : List α}
    (h : ∀ path, excludes rules path = excludes more path) (path : String) :
    isIgnored rules path = isIgnored more path := by
  rw [Bool.eq_iff_iff]
  constructor
  · exact isIgnored_mono fun judged he => h judged ▸ he
  · exact isIgnored_mono fun judged he => (h judged).symm ▸ he

theorem explain_excludedAncestor (rules : List α) (path : String) :
    (explain rules path).excludedAncestor =
      if excludes rules path.toList then none
      else (excludedAncestor rules path.toList).map String.ofList := by
  unfold explain
  split <;> rfl

/-- Whatever rules say about a path in an ignored directory, the path is ignored. -/
theorem isIgnored_of_directory (rules : List α) {directory : String} (rest : String)
    (hd : directory ≠ "") (h : isIgnored rules (directory ++ "/") = true) :
    isIgnored rules (directory ++ "/" ++ rest) = true := by
  by_cases hr : rest = ""
  · rwa [hr, String.append_empty]
  · have hnames : directory ++ "/" ++ rest =
        String.ofList (directory.toList ++ '/' :: rest.toList) := by
      simp [← String.toList_inj]
    have hdirectory : directory ++ "/" = String.ofList (directory.toList ++ ['/']) := by
      simp
    rw [hnames, isIgnored_append rules (by simpa using hd) (by simpa using hr), ← hdirectory, h,
      Bool.or_true]

theorem isIgnored_of_directory_negated :
    let rules := compileRules ["build/", "!build/keep.txt"]
    ((lastMatch rules "build/keep.txt".toList).map Rule.negated = some true) ∧ "build" ≠ "" ∧
      isIgnored rules ("build" ++ "/") = true ∧
      isIgnored rules ("build" ++ "/" ++ "keep.txt") = true := by
  intro rules
  have h : isIgnored rules ("build" ++ "/") = true := by decide +kernel
  exact ⟨by decide +kernel, by decide, h, isIgnored_of_directory rules "keep.txt" (by decide) h⟩

/-- A path is ignored if its last rule is plain or that of a directory above it is. An explanation
says the same, and it names the longest such directory where the path's own rule does not decide. -/
theorem isIgnored_and_explain (rules : List α) (path : String) :
    (isIgnored rules path = true ↔ IsLastPlain rules path.toList ∨
      ∃ directory, IsAbove directory path.toList ∧ IsLastPlain rules (directory ++ ['/'])) ∧
    (explain rules path).ignored = isIgnored rules path ∧
    (∀ found, (explain rules path).excludedAncestor = some found ↔
      ¬IsLastPlain rules path.toList ∧
        ∃ directory, IsNearestPlain rules path.toList directory ∧
          found = String.ofList (directory ++ ['/'])) ∧
    ((explain rules path).excludedAncestor = none ↔ IsLastPlain rules path.toList ∨
      ¬∃ directory, IsAbove directory path.toList ∧ IsLastPlain rules (directory ++ ['/'])) := by
  have hignored := @isIgnored_iff_excludes _ _ rules path
  have habove := @excludedAncestor_isSome_iff _ _ rules path.toList
  simp only [excludes_eq_true_iff] at hignored habove
  refine ⟨hignored, explain_ignored rules path, ?_, ?_⟩
  · intro found
    rw [explain_excludedAncestor, ← excludes_eq_true_iff]
    by_cases he : excludes rules path.toList = true
    · simp [he]
    · simp only [he, Bool.false_eq_true, if_false, Option.map_eq_some_iff,
        excludedAncestor_eq_some_iff, not_false_eq_true, true_and]
      constructor
      · rintro ⟨_, ⟨directory, hn, rfl⟩, rfl⟩
        exact ⟨directory, hn, rfl⟩
      · rintro ⟨directory, hn, rfl⟩
        exact ⟨_, ⟨directory, hn, rfl⟩, rfl⟩
  · rw [explain_excludedAncestor, ← habove, ← excludes_eq_true_iff]
    by_cases he : excludes rules path.toList = true
    · simp [he]
    · simp [he]

end FileSieve
