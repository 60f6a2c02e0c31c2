import FileSieve.Proofs.Pattern.Translation
import FileSieve.Proofs.Regex.Sequence

/-! # What a pattern accepts

The expression of a pattern finds a match in a path exactly when the segments of the pattern spell
names of the path. Both sides are followed from name to name: `p` stands for what is left of the
name at hand, and `ps` for the names after it. -/

namespace FileSieve.Pattern

open Text Regex

/-- Names in a row as they occur in a path: only the last of them may be empty. -/
structure AreNames (ps : List (List Char)) : Prop where
  slashFree : ∀ p ∈ ps, '/' ∉ p
  inLine : ∀ p ∈ ps, '\n' ∉ p
  named : ∀ p ∈ ps.dropLast, p ≠ []

theorem AreNames.right {as bs : List (List Char)} (h : AreNames (as ++ bs)) : AreNames bs := by
  refine ⟨fun p hp => h.slashFree p (List.mem_append_right as hp),
    fun p hp => h.inLine p (List.mem_append_right as hp), ?_⟩
  intro p hp
  have hb : bs ≠ [] := List.ne_nil_of_mem (List.dropLast_subset bs hp)
  apply h.named p
  rw [List.dropLast_append_of_ne_nil hb]
  exact List.mem_append_right as hp

theorem AreNames.tail {p : List Char} {ps : List (List Char)} (h : AreNames (p :: ps)) :
    AreNames ps := @AreNames.right [p] ps h

theorem AreNames.head_ne_nil {p : List Char} {ps : List (List Char)} (h : AreNames (p :: ps))
    (hp : ps ≠ []) : p ≠ [] := by
  apply h.named p
  rw [List.dropLast_cons_of_ne_nil hp]
  exact List.mem_cons_self

theorem AreNames.newline_not_mem {ps : List (List Char)} (h : AreNames ps) :
    '\n' ∉ joinPieces '/' ps := by
  induction ps with
  | nil => simp [joinPieces]
  | cons p ps ih =>
    by_cases hp : ps = []
    · subst hp
      exact h.inLine p List.mem_cons_self
    · rw [joinPieces_cons p hp]
      have := h.inLine p List.mem_cons_self
      simp [this, ih h.tail]

/-! ### The text from the middle of a name on -/

theorem joinPieces_eq_slash_cons_iff {p : List Char} {ps : List (List Char)} {rest : List Char}
    (hp : '/' ∉ p) :
    joinPieces '/' (p :: ps) = '/' :: rest ↔ p = [] ∧ ps ≠ [] ∧ rest = joinPieces '/' ps := by
  by_cases hs : ps = []
  · subst hs
    constructor
    · intro h
      rw [joinPieces] at h
      simp [h] at hp
    · intro h
      obtain ⟨_, h, _⟩ := h
      exact absurd rfl h
  · rw [joinPieces_cons p hs]
    cases p with
    | nil => simp [hs, eq_comm]
    | cons c p =>
      rw [List.mem_cons, not_or] at hp
      simp [Ne.symm hp.1]

theorem joinPieces_eq_append {p run rest : List Char} {ps : List (List Char)}
    (hr : '/' ∉ run) (h : joinPieces '/' (p :: ps) = run ++ rest) :
    ∃ left, p = run ++ left ∧ rest = joinPieces '/' (left :: ps) := by
  by_cases hs : ps = []
  · subst hs
    exact ⟨rest, h, rfl⟩
  · rw [joinPieces_cons p hs] at h
    rcases List.append_eq_append_iff.1 h with ⟨mid, rfl, hm⟩ | ⟨left, rfl, hl⟩
    · cases mid with
      | nil => exact ⟨[], by simp, by rw [joinPieces_cons [] hs]; simpa using hm.symm⟩
      | cons c mid =>
        rw [List.cons_append, List.cons.injEq] at hm
        exact absurd (hm.1 ▸ List.mem_append_right p List.mem_cons_self) hr
    · exact ⟨left, rfl, by rw [joinPieces_cons left hs, hl]⟩

theorem joinPieces_append_cons (run left : List Char) (ps : List (List Char)) :
    joinPieces '/' ((run ++ left) :: ps) = run ++ joinPieces '/' (left :: ps) := by
  by_cases hs : ps = []
  · subst hs
    rfl
  · rw [joinPieces_cons _ hs, joinPieces_cons _ hs, List.append_assoc]

/-! ### One segment -/

theorem found_segment_iff {segment : List Char} (hs : '/' ∉ segment) {rs : List Regex}
    {cs : List Char} :
    Found ((segment.map Part.ofChar).map Part.regex ++ rs) cs ↔
      ∃ run rest, cs = run ++ rest ∧ '/' ∉ run ∧ Fits segment run ∧ Found rs rest := by
  induction segment generalizing cs with
  | nil => simp [fits_nil_iff]
  | cons c segment ih =>
    rw [List.mem_cons, not_or] at hs
    by_cases hstar : c = '*'
    · subst hstar
      have hp : (Part.ofChar '*').regex = .star .inSegment := rfl
      simp only [List.map_cons, List.cons_append, hp, found_star_iff, ih hs.2, fits_star_iff]
      constructor
      · intro h
        obtain ⟨front, _, rfl, hf, back, rest, rfl, hb, hfits, hr⟩ := h
        refine ⟨front ++ back, rest, (List.append_assoc ..).symm, ?_, ⟨front, back, rfl, hfits⟩, hr⟩
        simp only [List.mem_append, not_or]
        exact ⟨fun h => by simpa [CharClass.holds] using hf _ h, hb⟩
      · intro h
        obtain ⟨_, rest, rfl, hn, ⟨front, back, rfl, hfits⟩, hr⟩ := h
        simp only [List.mem_append, not_or] at hn
        refine ⟨front, back ++ rest, List.append_assoc .., ?_, back, rest, rfl, hn.2, hfits, hr⟩
        intro d hd
        have : d ≠ '/' := fun he => hn.1 (he ▸ hd)
        simpa [CharClass.holds] using this
    · by_cases hany : c = '?'
      · subst hany
        have hp : (Part.ofChar '?').regex = .one .inSegment := rfl
        simp only [List.map_cons, List.cons_append, hp, found_one_iff, ih hs.2, fits_any_iff]
        constructor
        · intro h
          obtain ⟨d, _, rfl, hd, run, rest, rfl, hn, hfits, hr⟩ := h
          refine ⟨d :: run, rest, rfl, ?_, ⟨d, run, rfl, hfits⟩, hr⟩
          have : d ≠ '/' := by simpa [CharClass.holds] using hd
          simp [hn, Ne.symm this]
        · intro h
          obtain ⟨_, rest, rfl, hn, ⟨d, run, rfl, hfits⟩, hr⟩ := h
          rw [List.mem_cons, not_or] at hn
          refine ⟨d, run ++ rest, rfl, ?_, run, rest, rfl, hn.2, hfits, hr⟩
          simpa [CharClass.holds] using Ne.symm hn.1
      · have hp : (Part.ofChar c).regex = Regex.char c := by
          simp [Part.ofChar, hstar, hany, Part.regex]
        simp only [List.map_cons, List.cons_append, hp, found_char_iff, ih hs.2,
          fits_char_iff hstar hany]
        constructor
        · intro h
          obtain ⟨_, rfl, run, rest, rfl, hn, hfits, hr⟩ := h
          refine ⟨c :: run, rest, rfl, ?_, ⟨run, rfl, hfits⟩, hr⟩
          simp [hn, hs.1]
        · intro h
          obtain ⟨_, rest, rfl, hn, ⟨run, rfl, hfits⟩, hr⟩ := h
          rw [List.mem_cons, not_or] at hn
          exact ⟨run ++ rest, rfl, run, rest, rfl, hn.2, hfits, hr⟩

/-- A segment takes all of a name if what comes after it takes up at the end of that name. -/
theorem found_name_iff {segment : List Char} (hs : '/' ∉ segment) {rs : List Regex}
    {p : List Char} {ps : List (List Char)} {Q : Prop} (hp : '/' ∉ p) (hl : '\n' ∉ p)
    (hrs : ∀ left, '/' ∉ left → '\n' ∉ left →
      (Found rs (joinPieces '/' (left :: ps)) ↔ left = [] ∧ Q)) :
    Found ((segment.map Part.ofChar).map Part.regex ++ rs) (joinPieces '/' (p :: ps)) ↔
      Fits segment p ∧ Q := by
  rw [found_segment_iff hs]
  constructor
  · intro h
    obtain ⟨run, rest, he, hr, hf, hrest⟩ := h
    obtain ⟨left, rfl, rfl⟩ := joinPieces_eq_append hr he
    rw [List.mem_append, not_or] at hp hl
    obtain ⟨rfl, hq⟩ := (hrs left hp.2 hl.2).1 hrest
    exact ⟨by rwa [List.append_nil], hq⟩
  · intro h
    obtain ⟨hf, hq⟩ := h
    refine ⟨p, joinPieces '/' ([] :: ps), ?_, hp, hf, (hrs [] (by simp) (by simp)).2 ⟨rfl, hq⟩⟩
    rw [← joinPieces_append_cons, List.append_nil]

/-! ### Slashes and globstars -/

section Steps

variable {p : List Char} {ps : List (List Char)} {rs : List Regex}

theorem found_slash_iff (hp : '/' ∉ p) :
    Found (Regex.slash :: rs) (joinPieces '/' (p :: ps)) ↔
      p = [] ∧ ps ≠ [] ∧ Found rs (joinPieces '/' ps) := by
  simp only [Regex.slash, found_char_iff, joinPieces_eq_slash_cons_iff hp]
  constructor
  · intro h
    obtain ⟨rest, ⟨h₁, h₂, rfl⟩, hf⟩ := h
    exact ⟨h₁, h₂, hf⟩
  · intro h
    obtain ⟨h₁, h₂, hf⟩ := h
    exact ⟨_, ⟨h₁, h₂, rfl⟩, hf⟩

theorem inLine_of_subset {run cs : List Char} (h : '\n' ∉ cs) (hr : run ⊆ cs) :
    ∀ c ∈ run, CharClass.inLine.holds c = true := by
  intro c hc
  have : c ≠ '\n' := fun he => h (he ▸ hr hc)
  simpa [CharClass.holds] using this

/-- Any directories before a name: the names are skipped as long as one is left. -/
theorem found_anyDirectories_iff (h : AreNames ps) (hne : ps ≠ []) :
    Found (anyDirectories :: rs) (joinPieces '/' ps) ↔
      ∃ skipped left, ps = skipped ++ left ∧ left ≠ [] ∧ Found rs (joinPieces '/' left) := by
  simp only [anyDirectories, found_cons_iff, matches_opt_iff, matches_cat_iff, Bool.false_and,
    Regex.slash, matches_char_iff, matches_star_iff_append]
  constructor
  · intro h
    obtain ⟨mid, rfl | ⟨_, ⟨run, he, _⟩, rfl⟩, hf⟩ := h
    · exact ⟨[], ps, rfl, hne, hf⟩
    · obtain ⟨skipped, left, rfl, _, hl, _, rfl⟩ := (joinPieces_eq_append_iff h.slashFree).1 he
      exact ⟨skipped, left, rfl, hl, hf⟩
  · intro h
    obtain ⟨skipped, left, rfl, hl, hf⟩ := h
    by_cases hs : skipped = []
    · subst hs
      exact ⟨_, .inl rfl, hf⟩
    · have he := (joinPieces_eq_append_iff h.slashFree).2 ⟨skipped, left, rfl, hs, hl, rfl, rfl⟩
      refine ⟨_, .inr ⟨_, ⟨joinPieces '/' skipped, he, ?_⟩, rfl⟩, hf⟩
      apply inLine_of_subset h.newline_not_mem
      rw [he]
      exact List.subset_append_left _ _

/-- A globstar between slashes: names after the one at hand are skipped as long as one is left. -/
theorem found_between_iff (hp : '/' ∉ p) (h : AreNames ps) :
    Found (Part.between.regex :: rs) (joinPieces '/' (p :: ps)) ↔
      p = [] ∧ ∃ skipped left, ps = skipped ++ left ∧ left ≠ [] ∧
        Found rs (joinPieces '/' left) := by
  simp only [Part.regex, found_cons_iff, matches_alt_iff, Regex.concat, matches_cat_iff,
    Bool.false_and, Regex.slash, matches_char_iff, matches_plus_iff, matches_star_iff_append]
  constructor
  · intro h
    obtain ⟨mid, he | ⟨_, he, _, ⟨c, _, rfl, _, run, rfl, _⟩, rfl⟩, hf⟩ := h
    · obtain ⟨rfl, hne, rfl⟩ := (joinPieces_eq_slash_cons_iff hp).1 he
      exact ⟨rfl, [], ps, rfl, hne, hf⟩
    · obtain ⟨rfl, -, hr⟩ := (joinPieces_eq_slash_cons_iff hp).1 he
      have hr : joinPieces '/' ps = (c :: run) ++ '/' :: mid := by simp [← hr]
      obtain ⟨skipped, left, rfl, _, hl, _, rfl⟩ := (joinPieces_eq_append_iff h.slashFree).1 hr
      exact ⟨rfl, skipped, left, rfl, hl, hf⟩
  · intro h
    obtain ⟨rfl, skipped, left, rfl, hl, hf⟩ := h
    by_cases hs : skipped = []
    · subst hs
      exact ⟨_, .inl ((joinPieces_eq_slash_cons_iff hp).2 ⟨rfl, hl, rfl⟩), hf⟩
    · have hne : skipped ++ left ≠ [] := by simp [hs]
      have he := (joinPieces_eq_append_iff h.slashFree).2 ⟨skipped, left, rfl, hs, hl, rfl, rfl⟩
      have hn := h.newline_not_mem
      -- the first of the skipped names is not the last of all, so it holds a character
      have hfront : joinPieces '/' skipped ≠ [] := by
        intro hj
        obtain ⟨a, as, rfl⟩ := List.exists_cons_of_ne_nil hs
        have ha : a ≠ [] := h.head_ne_nil (by simp [hl])
        by_cases has : as = []
        · subst has
          exact ha hj
        · rw [joinPieces_cons a has] at hj
          simp at hj
      obtain ⟨c, run, hc⟩ := List.exists_cons_of_ne_nil hfront
      rw [hc] at he
      rw [he] at hn
      have hin := inLine_of_subset hn (List.subset_append_left (c :: run) _)
      rw [List.forall_mem_cons] at hin
      refine ⟨_, .inr ⟨_, (joinPieces_eq_slash_cons_iff hp).2 ⟨rfl, hne, rfl⟩,
        '/' :: joinPieces '/' left, ⟨c, run ++ '/' :: joinPieces '/' left, he, hin.1, run, rfl,
          hin.2⟩, rfl⟩, hf⟩

end Steps

/-! ### What comes after the segments -/

/-- What must come after given parts. -/
def ending (directoryOnly : Bool) (ps : List Part) : List Regex :=
  Glob.closing ⟨false, false, directoryOnly, ps⟩

theorem ending_congr {directoryOnly : Bool} {ps qs : List Part}
    (h : ps.getLast? = qs.getLast?) : ending directoryOnly ps = ending directoryOnly qs := by
  unfold ending Glob.closing isOpenEnded
  rw [h]

theorem ending_append {directoryOnly : Bool} {front : List Part} (back : List Part)
    (h : ∀ part ∈ front, part ≠ .everything ∧ part ≠ .trailing) :
    ending directoryOnly (front ++ back) = ending directoryOnly back := by
  by_cases hb : back = []
  · subst hb
    rw [List.append_nil]
    cases hf : front.getLast? with
    | none => exact ending_congr hf
    | some part =>
      obtain ⟨h₁, h₂⟩ := h part (List.mem_of_getLast? hf)
      simp [ending, Glob.closing, isOpenEnded, hf, h₁, h₂]
  · exact ending_congr (List.getLast?_append_of_ne_nil front hb)

theorem ofChar_ne (segment : List Char) :
    ∀ part ∈ segment.map Part.ofChar, part ≠ .everything ∧ part ≠ .trailing := by
  intro part hp
  obtain ⟨c, -, rfl⟩ := List.mem_map.1 hp
  unfold Part.ofChar
  split
  · simp
  · split <;> simp

section Ends

variable {p : List Char} {ps : List (List Char)}

theorem atFinish_joinPieces_iff (hl : '\n' ∉ p) :
    atFinish (joinPieces '/' (p :: ps)) = true ↔ p = [] ∧ ps = [] := by
  rw [atFinish_iff]
  by_cases hs : ps = []
  · subst hs
    have hn : p ≠ ['\n'] := fun he => hl (he ▸ List.mem_cons_self)
    simp [joinPieces, hn]
  · rw [joinPieces_cons p hs]
    constructor
    · intro h
      rcases h with h | h
      · simp at h
      · have hc : '/' ∈ ['\n'] := h ▸ List.mem_append_right p List.mem_cons_self
        simp at hc
    · intro h
      obtain ⟨-, h⟩ := h
      exact absurd h hs

theorem found_finish_or_slash_iff (hp : '/' ∉ p) (hl : '\n' ∉ p) :
    Found [.alt .finish .slash] (joinPieces '/' (p :: ps)) ↔ p = [] := by
  simp only [found_cons_iff, found_nil, and_true, matches_alt_iff, matches_finish_iff,
    atFinish_joinPieces_iff hl, Regex.slash, matches_char_iff, joinPieces_eq_slash_cons_iff hp]
  constructor
  · intro h
    obtain ⟨rest, ⟨⟨h, -⟩, -⟩ | ⟨h, -⟩⟩ := h
    · exact h
    · exact h
  · intro h
    subst h
    by_cases hs : ps = []
    · exact ⟨_, .inl ⟨⟨rfl, hs⟩, rfl⟩⟩
    · exact ⟨_, .inr ⟨rfl, hs, rfl⟩⟩

theorem found_trailing_iff (hp : '/' ∉ p) (hl : '\n' ∉ p) (h : AreNames ps)
    (directoryOnly : Bool) :
    Found (Part.trailing.regex :: ending directoryOnly [.trailing]) (joinPieces '/' (p :: ps)) ↔
      p = [] ∧ (directoryOnly = true → ps ≠ []) := by
  simp only [Part.regex, found_cons_iff, matches_opt_iff, matches_cat_iff, Bool.false_and,
    Regex.slash, matches_char_iff, matches_star_iff_append, joinPieces_eq_slash_cons_iff hp]
  cases directoryOnly with
  | true =>
    have he : ending true [.trailing] = [Regex.slash] := rfl
    simp only [he, Regex.slash, found_char_iff, found_nil, and_true, true_implies]
    constructor
    · intro h
      obtain ⟨mid, rfl | ⟨_, ⟨h₁, h₂, -⟩, -⟩, rest, hr⟩ := h
      · obtain ⟨h₁, h₂, -⟩ := (joinPieces_eq_slash_cons_iff hp).1 hr
        exact ⟨h₁, h₂⟩
      · exact ⟨h₁, h₂⟩
    · intro h
      obtain ⟨h₁, h₂⟩ := h
      exact ⟨_, .inl rfl, _, (joinPieces_eq_slash_cons_iff hp).2 ⟨h₁, h₂, rfl⟩⟩
  | false =>
    have he : ending false [.trailing] = [.finish] := rfl
    simp only [he, found_cons_iff, found_nil, and_true, matches_finish_iff, Bool.false_eq_true,
      false_implies]
    constructor
    · intro h
      obtain ⟨mid, rfl | ⟨_, ⟨h₁, -, -⟩, -⟩, _, hf, -⟩ := h
      · exact ((atFinish_joinPieces_iff hl).1 hf).1
      · exact h₁
    · intro h
      subst h
      by_cases hs : ps = []
      · exact ⟨_, .inl rfl, _, (atFinish_joinPieces_iff hl).2 ⟨rfl, hs⟩, rfl⟩
      · have hin := inLine_of_subset h.newline_not_mem (List.Subset.refl _)
        exact ⟨[], .inr ⟨_, ⟨rfl, hs, rfl⟩, _, (List.append_nil _).symm, hin⟩, [], rfl, rfl⟩

theorem found_ending_iff (hp : '/' ∉ p) (hl : '\n' ∉ p) (directoryOnly : Bool) :
    Found (ending directoryOnly []) (joinPieces '/' (p :: ps)) ↔
      p = [] ∧ (directoryOnly = true → ps ≠ []) := by
  cases directoryOnly with
  | true =>
    have he : ending true [] = [Regex.slash] := rfl
    simp [he, found_slash_iff hp, found_nil]
  | false =>
    have he : ending false [] = [.alt .finish .slash] := rfl
    simp [he, found_finish_or_slash_iff hp hl]

end Ends

/-! ### All segments -/

/-- The segments spell names at the front. In a pattern for directories a name must follow. -/
def Reaches (directoryOnly : Bool) (segments ps : List (List Char)) : Prop :=
  ∃ names below, ps = names ++ below ∧ Spells segments names ∧
    (directoryOnly = true → below ≠ [])

theorem reaches_nil_iff {directoryOnly : Bool} {ps : List (List Char)} :
    Reaches directoryOnly [] ps ↔ (directoryOnly = true → ps ≠ []) := by
  simp [Reaches, spells_nil_iff]

theorem reaches_segment_iff {directoryOnly : Bool} {segment : List Char}
    {segments ps : List (List Char)} (hs : segment ≠ globstarSegment) :
    Reaches directoryOnly (segment :: segments) ps ↔
      ∃ p left, ps = p :: left ∧ Fits segment p ∧ Reaches directoryOnly segments left := by
  simp only [Reaches, spells_segment_iff hs]
  constructor
  · intro h
    obtain ⟨_, below, rfl, ⟨name, taken, rfl, hf, ht⟩, hb⟩ := h
    exact ⟨name, taken ++ below, rfl, hf, taken, below, rfl, ht, hb⟩
  · intro h
    obtain ⟨name, _, rfl, hf, taken, below, rfl, ht, hb⟩ := h
    exact ⟨name :: taken, below, rfl, ⟨name, taken, rfl, hf, ht⟩, hb⟩

theorem reaches_globstar_iff {directoryOnly : Bool} {segments ps : List (List Char)} :
    Reaches directoryOnly (globstarSegment :: segments) ps ↔
      ∃ skipped left, ps = skipped ++ left ∧ Reaches directoryOnly segments left := by
  simp only [Reaches, spells_globstar_iff]
  constructor
  · intro h
    obtain ⟨_, below, rfl, ⟨skipped, taken, rfl, ht⟩, hb⟩ := h
    exact ⟨skipped, taken ++ below, List.append_assoc .., taken, below, rfl, ht, hb⟩
  · intro h
    obtain ⟨skipped, _, rfl, taken, below, rfl, ht, hb⟩ := h
    exact ⟨skipped ++ taken, below, (List.append_assoc ..).symm, ⟨skipped, taken, rfl, ht⟩, hb⟩

theorem Reaches.ne_nil {directoryOnly : Bool} {segment : List Char} {segments ps : List (List Char)}
    (hg : segment ≠ globstarSegment) (h : Reaches directoryOnly (segment :: segments) ps) :
    ps ≠ [] := by
  obtain ⟨p, left, rfl, -⟩ := (reaches_segment_iff hg).1 h
  simp

/-- The expressions take up at the end of a name and go on with the given segments. -/
def Continues (directoryOnly : Bool) (rs : List Regex) (segments : List (List Char)) : Prop :=
  ∀ p ps, '/' ∉ p → '\n' ∉ p → AreNames ps →
    (Found rs (joinPieces '/' (p :: ps)) ↔ p = [] ∧ Reaches directoryOnly segments ps)

theorem Continues.found_segment {directoryOnly : Bool} {rs : List Regex} {segment : List Char}
    {segments ps : List (List Char)} (hr : Continues directoryOnly rs segments)
    (hs : '/' ∉ segment) (hg : segment ≠ globstarSegment) (h : AreNames ps) (hne : ps ≠ []) :
    Found ((segment.map Part.ofChar).map Part.regex ++ rs) (joinPieces '/' ps) ↔
      Reaches directoryOnly (segment :: segments) ps := by
  obtain ⟨p, left, rfl⟩ := List.exists_cons_of_ne_nil hne
  have hp := h.slashFree p List.mem_cons_self
  have hl := h.inLine p List.mem_cons_self
  rw [found_name_iff hs hp hl fun q hq hql => hr q left hq hql h.tail, reaches_segment_iff hg]
  simp

theorem Continues.slash_segment {directoryOnly : Bool} {rs : List Regex} {segment : List Char}
    {segments : List (List Char)} (hr : Continues directoryOnly rs segments)
    (hs : '/' ∉ segment) (hg : segment ≠ globstarSegment) :
    Continues directoryOnly
      (Regex.slash :: ((segment.map Part.ofChar).map Part.regex ++ rs)) (segment :: segments) := by
  intro p ps hp hl h
  rw [found_slash_iff hp]
  refine and_congr_right fun _ => ?_
  constructor
  · intro h
    obtain ⟨hne, hf⟩ := h
    exact (hr.found_segment hs hg h hne).1 hf
  · intro hf
    have hne := hf.ne_nil hg
    exact ⟨hne, (hr.found_segment hs hg h hne).2 hf⟩

theorem Continues.between_segment {directoryOnly : Bool} {rs : List Regex} {segment : List Char}
    {segments : List (List Char)} (hr : Continues directoryOnly rs segments)
    (hs : '/' ∉ segment) (hg : segment ≠ globstarSegment) :
    Continues directoryOnly
      (Part.between.regex :: ((segment.map Part.ofChar).map Part.regex ++ rs))
      (globstarSegment :: segment :: segments) := by
  intro p ps hp hl h
  rw [found_between_iff hp h, reaches_globstar_iff]
  refine and_congr_right fun _ => ?_
  constructor
  · intro h
    obtain ⟨skipped, left, rfl, hne, hf⟩ := h
    exact ⟨skipped, left, rfl, (hr.found_segment hs hg h.right hne).1 hf⟩
  · intro h
    obtain ⟨skipped, left, rfl, hf⟩ := h
    have hne := hf.ne_nil hg
    exact ⟨skipped, left, rfl, hne, (hr.found_segment hs hg h.right hne).2 hf⟩

/-- The expressions of given parts with what must come after them. -/
def closed (directoryOnly : Bool) (ps : List Part) : List Regex :=
  ps.map Part.regex ++ ending directoryOnly ps

theorem closed_append {directoryOnly : Bool} {front : List Part} (back : List Part)
    (h : ∀ part ∈ front, part ≠ .everything ∧ part ≠ .trailing) :
    closed directoryOnly (front ++ back) = front.map Part.regex ++ closed directoryOnly back := by
  rw [closed, closed, ending_append back h, List.map_append, List.append_assoc]

theorem closed_cons {directoryOnly : Bool} {part : Part} (back : List Part)
    (h₁ : part ≠ .everything) (h₂ : part ≠ .trailing) :
    closed directoryOnly (part :: back) = part.regex :: closed directoryOnly back :=
  @closed_append directoryOnly [part] back (by simp [h₁, h₂])

theorem continues_nil (directoryOnly : Bool) :
    Continues directoryOnly (closed directoryOnly []) [] := by
  intro p ps hp hl _
  exact (found_ending_iff hp hl directoryOnly).trans (by rw [reaches_nil_iff])

/-- The parts after a name take up at its end and go on with the segments that they stand for. -/
theorem continues_tailParts (directoryOnly : Bool) {segments : List (List Char)}
    (hm : IsMerged segments) (hs : ∀ segment ∈ segments, '/' ∉ segment) :
    Continues directoryOnly (closed directoryOnly (tailParts segments)) segments := by
  induction segments using tailParts.induct with
  | case1 => exact continues_nil directoryOnly
  | case2 =>
    intro p ps hp hl h
    have ht := found_trailing_iff hp hl h directoryOnly
    refine ht.trans (and_congr_right fun _ => ?_)
    rw [reaches_globstar_iff]
    simp only [reaches_nil_iff]
    constructor
    · intro hd
      exact ⟨[], ps, rfl, hd⟩
    · rintro ⟨skipped, left, rfl, hd⟩ he
      simp [hd he]
  | case3 segment hg =>
    rw [List.forall_mem_cons] at hs
    have ht : tailParts [segment] = .slash :: (segment.map Part.ofChar ++ []) := by
      simp [tailParts, hg]
    rw [ht, closed_cons _ (by simp) (by simp), closed_append _ (ofChar_ne segment)]
    exact (continues_nil directoryOnly).slash_segment hs.1 hg
  | case4 next rest ih =>
    simp only [List.forall_mem_cons] at hs
    have hg : next ≠ globstarSegment := hm.next_ne
    rw [tailParts, if_pos rfl, closed_cons _ (by simp) (by simp),
      closed_append _ (ofChar_ne next)]
    exact (ih hm.tail.tail hs.2.2).between_segment hs.2.1 hg
  | case5 segment next rest hg ih =>
    rw [List.forall_mem_cons] at hs
    rw [tailParts, if_neg hg, closed_cons _ (by simp) (by simp),
      closed_append _ (ofChar_ne segment)]
    exact (ih hm.tail hs.2).slash_segment hs.1 hg

/-- The segments spell names at the front, and a pattern for directories spells some and leaves
some. -/
def Covers (directoryOnly : Bool) (segments ps : List (List Char)) : Prop :=
  ∃ names below, ps = names ++ below ∧ Spells segments names ∧
    (directoryOnly = true → names ≠ [] ∧ below ≠ [])

theorem covers_iff_reaches {directoryOnly : Bool} {segments : List (List Char)}
    (h : ¬Spells segments []) (ps : List (List Char)) :
    Covers directoryOnly segments ps ↔ Reaches directoryOnly segments ps := by
  constructor
  · intro h
    obtain ⟨names, below, he, hn, hd⟩ := h
    exact ⟨names, below, he, hn, fun hdir => (hd hdir).2⟩
  · intro h
    obtain ⟨names, below, he, hn, hd⟩ := h
    exact ⟨names, below, he, hn, fun hdir => ⟨fun hnil => h (hnil ▸ hn), hd hdir⟩⟩

theorem not_spells_nil {segment : List Char} {segments : List (List Char)}
    (hs : segment ≠ globstarSegment) : ¬Spells (segment :: segments) [] := by
  rw [spells_segment_iff hs]
  intro h
  obtain ⟨name, taken, he, -⟩ := h
  cases he

theorem found_everything_iff (directoryOnly : Bool) {ps : List (List Char)} (h : AreNames ps) :
    Found (closed directoryOnly [.everything]) (joinPieces '/' ps) ↔
      Covers directoryOnly [globstarSegment] ps := by
  have hin (run : List Char) (hr : run ⊆ joinPieces '/' ps) :=
    inLine_of_subset h.newline_not_mem hr
  have hall (names : List (List Char)) : Spells [globstarSegment] names :=
    spells_globstar_iff.2 ⟨names, [], (List.append_nil names).symm, .nil⟩
  cases directoryOnly with
  | true =>
    have he : closed true [.everything] = [.star .inLine, Regex.slash] := rfl
    simp only [he, found_star_iff, Regex.slash, found_char_iff, found_nil, and_true]
    constructor
    · intro h
      obtain ⟨run, _, hr, -, rest, rfl⟩ := h
      obtain ⟨as, bs, rfl, ha, hb, -⟩ := (joinPieces_eq_append_iff h.slashFree).1 hr
      exact ⟨as, bs, rfl, hall as, fun _ => ⟨ha, hb⟩⟩
    · intro h
      obtain ⟨as, bs, rfl, -, hd⟩ := h
      have hr := (joinPieces_eq_append_iff h.slashFree).2
        ⟨as, bs, rfl, (hd rfl).1, (hd rfl).2, rfl, rfl⟩
      exact ⟨_, _, hr, hin _ (hr ▸ List.subset_append_left _ _), _, rfl⟩
  | false =>
    have he : closed false [.everything] = [.star .inLine] := rfl
    simp only [he, found_star_iff, found_nil, and_true]
    constructor
    · intro _
      exact ⟨[], ps, rfl, hall [], by simp⟩
    · intro _
      exact ⟨[], _, rfl, by simp⟩

/-- From the front of a name on, the parts of a body find what its segments cover. -/
theorem found_bodyParts_iff (directoryOnly : Bool) {segments : List (List Char)}
    (hne : segments ≠ []) (hm : IsMerged segments) (hs : ∀ segment ∈ segments, '/' ∉ segment)
    {ps : List (List Char)} (h : AreNames ps) (hps : ps ≠ []) :
    Found (closed directoryOnly (bodyParts segments)) (joinPieces '/' ps) ↔
      Covers directoryOnly segments ps := by
  cases segments with
  | nil => exact absurd rfl hne
  | cons segment rest =>
    rw [List.forall_mem_cons] at hs
    have htail := continues_tailParts directoryOnly hm.tail hs.2
    by_cases hg : segment = globstarSegment
    · subst hg
      cases rest with
      | nil => exact found_everything_iff directoryOnly h
      | cons next rest =>
        rw [List.forall_mem_cons] at hs
        have hg : next ≠ globstarSegment := hm.next_ne
        have hnil : ¬Spells (globstarSegment :: next :: rest) [] := by
          rw [spells_globstar_iff]
          intro h
          obtain ⟨skipped, taken, he, ht⟩ := h
          exact not_spells_nil hg ((List.append_eq_nil_iff.1 he.symm).2 ▸ ht)
        have htail := continues_tailParts directoryOnly hm.tail.tail hs.2.2
        rw [bodyParts, if_pos rfl, closed_cons _ (by simp) (by simp),
          closed_append _ (ofChar_ne next), Part.regex, found_anyDirectories_iff h hps,
          covers_iff_reaches hnil, reaches_globstar_iff]
        constructor
        · intro h
          obtain ⟨skipped, left, rfl, hl, hf⟩ := h
          exact ⟨skipped, left, rfl, (htail.found_segment hs.2.1 hg h.right hl).1 hf⟩
        · intro h
          obtain ⟨skipped, left, rfl, hf⟩ := h
          have hl := hf.ne_nil hg
          exact ⟨skipped, left, rfl, hl, (htail.found_segment hs.2.1 hg h.right hl).2 hf⟩
    · have hb : bodyParts (segment :: rest) = segment.map Part.ofChar ++ tailParts rest := by
        cases rest <;> simp [bodyParts, tailParts, hg]
      rw [hb, closed_append _ (ofChar_ne segment), covers_iff_reaches (not_spells_nil hg),
        htail.found_segment hs.1 hg h hps]

end FileSieve.Pattern
