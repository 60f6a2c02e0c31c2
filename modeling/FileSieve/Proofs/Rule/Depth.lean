import FileSieve.Proofs.Pattern.SegmentWise
import FileSieve.Proofs.Rule.Ancestors

/-! # How deep a path must be

A pattern of several plain segments takes one name for each of them. The empty name behind the slash
at the end of a directory is a name as well, and a segment of stars fits it. So a pattern that ends
with such a segment accepts the directory it looks into, and through it all that the directory
holds: a later line cannot take a file in it back out. -/

namespace FileSieve.Pattern

open Text

/-- The names of a path, without empty ones. -/
def namesOf (path : List Char) : List (List Char) :=
  (pieces '/' path).filter (· ≠ [])

/-- Only the last name of a path may be empty, as it is for a directory. -/
def IsNamed (path : List Char) : Prop :=
  ∀ name ∈ (pieces '/' path).dropLast, name ≠ []

theorem namesOf_eq_pieces {path : List Char} (h : ∀ name ∈ pieces '/' path, name ≠ []) :
    namesOf path = pieces '/' path := by
  simpa [namesOf, List.filter_eq_self] using h

/-- A path with a slash at its end has an empty name there. -/
theorem pieces_eq_concat_nil {path : List Char} (h : IsNamed path)
    (hn : ¬∀ name ∈ pieces '/' path, name ≠ []) :
    ∃ names, pieces '/' path = names ++ [[]] ∧ ∀ name ∈ names, name ≠ [] := by
  have he := List.dropLast_append_getLast (pieces_ne_nil '/' path)
  have hlast : (pieces '/' path).getLast (pieces_ne_nil '/' path) = [] := by
    by_contra hne
    refine hn fun name hm => ?_
    rw [← he, List.mem_append, List.mem_singleton] at hm
    rcases hm with hm | hm
    · exact h name hm
    · exact hm ▸ hne
  exact ⟨_, by rw [← hlast, he], h⟩

theorem namesOf_of_concat_nil {path : List Char} {names : List (List Char)}
    (hp : pieces '/' path = names ++ [[]]) (hn : ∀ name ∈ names, name ≠ []) :
    namesOf path = names := by
  simpa [namesOf, hp, List.filter_eq_self] using hn

/-- A character other than a slash goes to the last name. -/
theorem exists_pieces_concat {c : Char} (hc : c ≠ '/') (front : List Char) :
    ∃ names last, pieces '/' front = names ++ [last] ∧
      pieces '/' (front ++ [c]) = names ++ [last ++ [c]] := by
  induction front with
  | nil => exact ⟨[], [], rfl, by simp [pieces, hc]⟩
  | cons d front ih =>
    obtain ⟨names, last, hf, hc⟩ := ih
    by_cases hd : d = '/'
    · exact ⟨[] :: names, last, by simp [pieces, hd, hf], by simp [pieces, hd, hc]⟩
    · cases names with
      | nil => exact ⟨[], d :: last, by simp [pieces, hd, hf], by simp [pieces, hd, hc]⟩
      | cons first names =>
        exact ⟨(d :: first) :: names, last, by simp [pieces, hd, hf], by simp [pieces, hd, hc]⟩

/-- Nothing but stars fits the empty name. -/
theorem fits_empty_iff {segment : List Char} : Fits segment [] ↔ ∀ c ∈ segment, c = '*' := by
  induction segment with
  | nil => simp [Fits.nil]
  | cons c segment ih =>
    by_cases hs : c = '*'
    · simp [hs, fits_star_iff, ih]
    · by_cases hq : c = '?'
      · simp [hq, fits_any_iff]
      · simp [hs, fits_char_iff hs hq]

variable {segments : List (List Char)} {directoryOnly : Bool} {path : List Char}

/-! ### Too few names -/

/-- All segments but the last fit the names of a directory, and the last fits the empty name behind
it. -/
def EndsInStars (segments : List (List Char)) (path : List Char) : Prop :=
  ∃ front last names, segments = front ++ [last] ∧ (∀ c ∈ last, c = '*') ∧
    pieces '/' path = names ++ [[]] ∧ List.Forall₂ Fits front names

/-- The empty name that a segment of stars fits is one name more than the path has otherwise. -/
theorem EndsInStars.namesOf_lt (h : EndsInStars segments path) (hp : IsNamed path) :
    (namesOf path).length < segments.length := by
  obtain ⟨front, last, names, rfl, -, hpath, hf⟩ := h
  have hn : ∀ name ∈ names, name ≠ [] := by simpa [IsNamed, hpath] using hp
  rw [namesOf_of_concat_nil hpath hn, List.length_append, List.length_singleton, hf.length_eq]
  omega

theorem EndsInStars.reaches (h : EndsInStars segments path) (hs : IsPlain segments) :
    Reaches false segments (pieces '/' path) := by
  obtain ⟨front, last, names, rfl, hlast, hpath, hf⟩ := h
  refine ⟨pieces '/' path, [], by simp, hs.spells_iff.2 ?_, by simp⟩
  rw [hpath]
  exact List.rel_append hf (.cons (fits_empty_iff.2 hlast) .nil)

/-- Where there are fewer names than segments, the last segment has fitted the empty name. -/
theorem IsPlain.endsInStars_of_reaches (hs : IsPlain segments) (hp : IsNamed path)
    (h : Reaches directoryOnly segments (pieces '/' path))
    (hfew : (namesOf path).length < segments.length) :
    directoryOnly = false ∧ EndsInStars segments path := by
  obtain ⟨taken, below, hpath, hspells, hd⟩ := h
  have hfits := hs.spells_iff.1 hspells
  have hlen := hfits.length_eq
  have hnamed : ¬∀ name ∈ pieces '/' path, name ≠ [] := by
    intro hn
    rw [namesOf_eq_pieces hn, hpath, List.length_append] at hfew
    omega
  obtain ⟨names, hnames, hn⟩ := pieces_eq_concat_nil hp hnamed
  rw [namesOf_of_concat_nil hnames hn] at hfew
  have htotal : taken.length + below.length = names.length + 1 := by
    simpa [hnames] using (congrArg List.length hpath).symm
  -- All names are taken, the empty one at the end too, since the others are too few.
  have hbelow : below = [] := List.length_eq_zero_iff.1 (by omega)
  refine ⟨?_, ?_⟩
  · rw [← Bool.not_eq_true]
    exact fun ht => hd ht hbelow
  · have htaken : taken = names ++ [[]] := by simpa [hbelow, hnames] using hpath.symm
    rw [htaken] at hfits
    have hlast := List.forall₂_drop_append segments names [[]] hfits
    obtain ⟨last, _, hstars, hnil, hdrop⟩ := List.forall₂_cons_right_iff.1 hlast
    obtain rfl := List.forall₂_nil_right_iff.1 hnil
    refine ⟨segments.take names.length, last, names, ?_, fits_empty_iff.1 hstars, hnames,
      List.forall₂_take_append segments names [[]] hfits⟩
    rw [← hdrop, List.take_append_drop]

/-- A line feed at the end of a path belongs to a name, so that no name is empty. -/
theorem le_length_namesOf_of_reaches {front : List Char} (hs : IsPlain segments)
    (hp : IsNamed (front ++ ['\n'])) (h : Reaches directoryOnly segments (pieces '/' front)) :
    segments.length ≤ (namesOf (front ++ ['\n'])).length := by
  obtain ⟨taken, below, hpath, hspells, -⟩ := h
  have hlen := (hs.spells_iff.1 hspells).length_eq
  obtain ⟨names, last, hf, hfc⟩ := exists_pieces_concat (c := '\n') (by decide) front
  have hnamed : ∀ name ∈ pieces '/' (front ++ ['\n']), name ≠ [] := by
    intro name hm
    rw [hfc, List.mem_append, List.mem_singleton] at hm
    rcases hm with hm | hm
    · exact hp name (by simpa [hfc] using hm)
    · simp [hm]
  have htotal : taken.length + below.length = names.length + 1 := by
    simpa [hf] using (congrArg List.length hpath).symm
  rw [namesOf_eq_pieces hnamed, hfc, List.length_append, List.length_singleton]
  omega

/-! ### Lines that are written as they are meant -/

/-- A segment that may stand anywhere in a line: it is no globstar, and none of its characters is a
blank, a slash or one that marks a line. -/
structure IsBare (segment : List Char) : Prop where
  ne_nil : segment ≠ []
  ne_globstar : segment ≠ globstarSegment
  inside : ∀ c ∈ segment, isBlank c = false ∧ c ∉ ['!', '#', '/', '\\', '\x00']

theorem IsBare.of_all {segment : List Char} (hn : segment ≠ []) (hg : segment ≠ globstarSegment)
    (h : (segment.all fun c =>
      !isBlank c && decide (c ∉ ['!', '#', '/', '\\', '\x00'])) = true) : IsBare segment where
  ne_nil := hn
  ne_globstar := hg
  inside c hc := by simpa using List.all_eq_true.1 h c hc

/-- A bare segment that stands for itself alone. -/
structure IsLiteral (segment : List Char) : Prop extends IsBare segment where
  noStar : '*' ∉ segment
  noAny : '?' ∉ segment

/-- A line that consists of a sign and segments. -/
def lineOf (negated : Bool) (segments : List (List Char)) : String :=
  String.ofList ((if negated then ['!'] else []) ++ joinPieces '/' segments)

theorem fits_self {name : List Char} (hs : '*' ∉ name) (hq : '?' ∉ name) : Fits name name := by
  induction name with
  | nil => exact .nil
  | cons c name ih =>
    rw [List.mem_cons, not_or] at hs hq
    exact .char (Ne.symm hs.1) (Ne.symm hq.1) (ih hs.2 hq.2)

/-- A segment with a character that is no star does not fit the empty name. -/
theorem IsLiteral.not_stars {name : List Char} (h : IsLiteral name) : ¬∀ c ∈ name, c = '*' := by
  intro hall
  obtain ⟨c, rest, rfl⟩ := List.exists_cons_of_ne_nil h.ne_nil
  exact h.noStar (by simp [hall c])

theorem mem_joinPieces {separator c : Char} {ps : List (List Char)}
    (h : c ∈ joinPieces separator ps) : c = separator ∨ ∃ piece ∈ ps, c ∈ piece := by
  induction ps with
  | nil => simp [joinPieces] at h
  | cons piece more ih =>
    by_cases hm : more = []
    · exact .inr ⟨piece, by simp, by simpa [hm, joinPieces] using h⟩
    · rw [joinPieces_cons piece hm, List.mem_append, List.mem_cons] at h
      rcases h with h | h | h
      · exact .inr ⟨piece, by simp, h⟩
      · exact .inl h
      · rcases ih h with hc | ⟨other, ho, hc⟩
        · exact .inl hc
        · exact .inr ⟨other, by simp [ho], hc⟩

theorem joinPieces_ne_nil {separator : Char} {ps : List (List Char)} (hne : ps ≠ [])
    (h : ∀ piece ∈ ps, piece ≠ []) : joinPieces separator ps ≠ [] := by
  obtain ⟨piece, more, rfl⟩ := List.exists_cons_of_ne_nil hne
  by_cases hm : more = []
  · simpa [hm, joinPieces] using h piece
  · simp [joinPieces_cons piece hm]

section Bare

variable (hne : segments ≠ []) (h : ∀ segment ∈ segments, IsBare segment)

include h

theorem not_mem_joinPieces_of_isBare {c : Char} (hc : c ∈ ['!', '#', '\\', '\x00']) :
    c ∉ joinPieces '/' segments := by
  intro hm
  rcases mem_joinPieces hm with rfl | ⟨segment, hs, hcs⟩
  · simp at hc
  · have := ((h segment hs).inside c hcs).2
    simp only [List.mem_cons, List.not_mem_nil, or_false, not_or] at hc this
    tauto

theorem isPlain_of_isBare : IsPlain segments :=
  fun segment hs => (h segment hs).ne_globstar

theorem slash_not_mem_of_isBare : ∀ segment ∈ segments, '/' ∉ segment :=
  fun segment hs hm => ((h segment hs).inside '/' hm).2 (by simp)

theorem trim_lineOf (negated : Bool) :
    trim (lineOf negated segments) = lineOf negated segments := by
  have hblank : ∀ c ∈ (lineOf negated segments).toList, isBlank c = false := by
    intro c hc
    rw [lineOf, String.toList_ofList, List.mem_append] at hc
    rcases hc with hc | hc
    · have he : c = '!' := by
        cases negated <;> simp_all
      simp [he, isBlank]
    · rcases mem_joinPieces hc with rfl | ⟨segment, hs, hcs⟩
      · rfl
      · exact ((h segment hs).inside c hcs).1
  have hkeep (as : List Char) (ha : ∀ c ∈ as, isBlank c = false) : as.dropWhile isBlank = as := by
    cases as with
    | nil => rfl
    | cons c rest => exact List.dropWhile_cons_of_neg (by simp [ha c])
  rw [trim, dropBothWhile, dropEndWhile, hkeep _ hblank,
    hkeep _ (by simpa using hblank), List.reverse_reverse, String.ofList_toList]

theorem head?_joinPieces_ne : (joinPieces '/' segments).head? ≠ some '/' := by
  intro hh
  obtain ⟨back, hb⟩ := List.head?_eq_some_iff.1 hh
  obtain ⟨as, bs, he, ha, -, hnil, -⟩ :=
    (@joinPieces_eq_append_iff '/' segments [] back (slash_not_mem_of_isBare h)).1 hb
  refine joinPieces_ne_nil ha (fun piece hp => (h piece ?_).ne_nil) hnil.symm
  simp [he, hp]

theorem getLast?_joinPieces_ne : (joinPieces '/' segments).getLast? ≠ some '/' := by
  intro hl
  obtain ⟨front, hf⟩ := List.getLast?_eq_some_iff.1 hl
  obtain ⟨as, bs, he, -, hb, -, hnil⟩ :=
    (@joinPieces_eq_append_iff '/' segments front [] (slash_not_mem_of_isBare h)).1 hf
  refine joinPieces_ne_nil hb (fun piece hp => (h piece ?_).ne_nil) hnil.symm
  simp [he, hp]

theorem unescapeBang_joinPieces :
    unescapeBang (joinPieces '/' segments) = joinPieces '/' segments := by
  have hmark := not_mem_joinPieces_of_isBare (c := '\\') h (by simp)
  unfold unescapeBang
  split
  · next he => exact absurd (he ▸ List.mem_cons_self) hmark
  · rfl

theorem nul_not_mem_lineOf (negated : Bool) : '\x00' ∉ (lineOf negated segments).toList := by
  have hnul := not_mem_joinPieces_of_isBare (c := '\x00') h (by simp)
  cases negated <;> simp [lineOf, hnul]

include hne

/-- The sign and the segments of a line are read back. -/
theorem outline_lineOf (negated : Bool) :
    Outline.ofText (lineOf negated segments) = ⟨negated, false, false, segments⟩ := by
  have hbang := not_mem_joinPieces_of_isBare (c := '!') h (by simp)
  have hhead : (joinPieces '/' segments).head? ≠ some '!' := by
    exact fun hh => hbang (List.mem_of_mem_head? hh)
  have hsign : (lineOf negated segments).toList.head? = some '!' ↔ negated = true := by
    cases negated <;> simp [lineOf, hhead]
  have hbody : dropFirst '!' (lineOf negated segments).toList = joinPieces '/' segments := by
    cases negated <;> simp [lineOf, dropFirst, hhead]
  rw [outline_ofText, unsignedText, trim_lineOf h, hbody, unescapeBang_joinPieces h]
  simp [Outline.ofBody, dropFirst, dropLast, head?_joinPieces_ne h, getLast?_joinPieces_ne h, hsign,
    pieces_joinPieces hne (slash_not_mem_of_isBare h)]

theorem ofText_lineOf (negated : Bool) :
    Line.ofText (lineOf negated segments) = .pattern negated (joinPieces '/' segments) := by
  have hhash := not_mem_joinPieces_of_isBare (c := '#') h (by simp)
  have hbang := not_mem_joinPieces_of_isBare (c := '!') h (by simp)
  have hslash := head?_joinPieces_ne h
  have hescape := unescapeBang_joinPieces h
  obtain ⟨c, rest, hc⟩ := List.exists_cons_of_ne_nil
    (@joinPieces_ne_nil '/' segments hne fun segment hs => (h segment hs).ne_nil)
  rw [hc] at hhash hbang hslash hescape
  simp only [List.mem_cons, not_or, List.head?_cons, ne_eq, Option.some.injEq] at hhash hbang hslash
  rw [Line.ofText, trim_lineOf h, hc]
  cases negated with
  | true => simp [lineOf, hc, hescape, hslash]
  | false => simp [lineOf, hc, hescape, hslash, Ne.symm hhash.1, Ne.symm hbang.1]

/-- The rule of a line that consists of a sign and segments. -/
theorem ofLine?_lineOf (negated : Bool) : Rule.ofLine? (lineOf negated segments) =
    some (Rule.ofPattern (lineOf negated segments) negated (joinPieces '/' segments)) := by
  rw [Rule.ofLine?, ofText_lineOf hne h]

end Bare

end FileSieve.Pattern

namespace FileSieve

open Pattern Text

/-! ### What a rule accepts beyond its depth -/

section Rules

variable {s : String} {rule : Rule} {path : List Char}

/-- A rule of several plain segments accepts a path with fewer names only if its last segment fits
the empty name behind a directory. -/
theorem accepts_and_few_names_iff (hr : Rule.ofLine? s = some rule) (hs : '\x00' ∉ s.toList)
    (h : IsPlain (Outline.ofText s).segments) (hk : 2 ≤ (Outline.ofText s).segments.length)
    (hp : IsNamed path) :
    rule.accepts path = true ∧ (namesOf path).length < (Outline.ofText s).segments.length ↔
      (Outline.ofText s).directoryOnly = false ∧
        EndsInStars (Outline.ofText s).segments path := by
  have hne : (Outline.ofText s).segments ≠ [] := List.ne_nil_of_length_pos (by omega)
  have htop : (Outline.ofText s).rooted = true ∨ 1 < (Outline.ofText s).segments.length :=
    .inr (by omega)
  rw [accepts_iff_of_isPlain hr hs h]
  simp only [selects_iff_of_isPlain h hne, if_pos htop]
  constructor
  · rintro ⟨hreach | ⟨front, rfl, hreach⟩, hfew⟩
    · exact h.endsInStars_of_reaches hp hreach hfew
    · have := le_length_namesOf_of_reaches h hp hreach
      omega
  · rintro ⟨hd, hends⟩
    exact ⟨.inl (hd ▸ hends.reaches h), hends.namesOf_lt hp⟩

end Rules

/-! ### A file taken back out of its directory -/

theorem excludes_pair (a b : Rule) (path : List Char) :
    excludes [a, b] path =
      if b.accepts path then !b.negated else if a.accepts path then !a.negated else false := by
  simp only [excludes, lastMatch, List.foldl_cons, List.foldl_nil, PathRule.accepts,
    PathRule.negated]
  by_cases hb : b.accepts path = true
  · simp [hb]
  · by_cases ha : a.accepts path = true <;> simp [ha, hb]

section Line

variable {negated : Bool} {front as : List (List Char)} {last : List Char}

/-- The rule of a line with several segments. -/
def ruleOf (negated : Bool) (segments : List (List Char)) : Rule :=
  Rule.ofPattern (lineOf negated segments) negated (joinPieces '/' segments)

theorem pieces_directory (hne : as ≠ []) (h : ∀ name ∈ as, IsBare name) :
    pieces '/' (joinPieces '/' as ++ ['/']) = as ++ [[]] := by
  rw [pieces_joinPieces_append hne (slash_not_mem_of_isBare h)]
  rfl

/-- Of the directories a line looks into, its rule accepts the innermost, if stars end the line. -/
theorem ruleOf_accepts_directory_iff (hf : front ≠ [])
    (h : ∀ segment ∈ front ++ [last], IsBare segment) (ha : as ≠ [])
    (has : ∀ name ∈ as, IsBare name) (hlen : as.length ≤ front.length) :
    (ruleOf negated (front ++ [last])).accepts (joinPieces '/' as ++ ['/']) = true ↔
      (∀ c ∈ last, c = '*') ∧ List.Forall₂ Fits front as := by
  have hne : front ++ [last] ≠ [] := by simp
  have hpieces := pieces_directory ha has
  have hnames : ∀ name ∈ as, name ≠ [] := fun name hm => (has name hm).ne_nil
  have hnamed : IsNamed (joinPieces '/' as ++ ['/']) := by simpa [IsNamed, hpieces] using hnames
  have hfew : (namesOf (joinPieces '/' as ++ ['/'])).length < (front ++ [last]).length := by
    rw [namesOf_of_concat_nil hpieces hnames, List.length_append, List.length_singleton]
    omega
  have hk : 2 ≤ (front ++ [last]).length := by
    have := List.length_pos_of_ne_nil hf
    rw [List.length_append, List.length_singleton]
    omega
  have hiff := accepts_and_few_names_iff (ofLine?_lineOf hne h negated)
    (nul_not_mem_lineOf h negated) (by rw [outline_lineOf hne h]; exact isPlain_of_isBare h)
    (by rw [outline_lineOf hne h]; exact hk) hnamed
  rw [outline_lineOf hne h] at hiff
  simp only [hfew, and_true, true_and] at hiff
  rw [ruleOf, hiff]
  constructor
  · rintro ⟨start, stars, names, he, hstars, hp, hfits⟩
    obtain ⟨rfl, rfl⟩ : front = start ∧ last = stars := by simpa using he
    obtain rfl : as = names := by simpa [hpieces] using hp
    exact ⟨hstars, hfits⟩
  · rintro ⟨hstars, hfits⟩
    exact ⟨front, last, as, rfl, hstars, hpieces, hfits⟩

/-- A rule accepts the path that is spelled like its line. -/
theorem ruleOf_accepts_self (hf : front ≠ []) (h : ∀ segment ∈ front ++ [last], IsLiteral segment) :
    (ruleOf negated (front ++ [last])).accepts (joinPieces '/' (front ++ [last])) = true := by
  have hne : front ++ [last] ≠ [] := by simp
  have hbare : ∀ segment ∈ front ++ [last], IsBare segment :=
    fun segment hs => (h segment hs).toIsBare
  have hplain := isPlain_of_isBare hbare
  have houtline := outline_lineOf hne hbare negated
  have hk : 1 < (front ++ [last]).length := by
    have := List.length_pos_of_ne_nil hf
    rw [List.length_append, List.length_singleton]
    omega
  rw [ruleOf, accepts_iff_of_isPlain (ofLine?_lineOf hne hbare negated)
    (nul_not_mem_lineOf hbare negated) (by rw [houtline]; exact hplain), houtline]
  refine .inl ((selects_iff_of_isPlain hplain hne _).2 ?_)
  rw [if_pos (.inr hk), pieces_joinPieces hne (slash_not_mem_of_isBare hbare)]
  refine ⟨front ++ [last], [], by simp, hplain.spells_iff.2 ?_, by simp⟩
  exact List.forall₂_same.2 fun name hm => fits_self (h name hm).noStar (h name hm).noAny

end Line

section Directory

variable {directory : List (List Char)} {file last : List Char} (hd : directory ≠ [])
  (h : ∀ name ∈ directory ++ [file], IsLiteral name)

/-- The two lines: what a directory holds, and one file of it taken back out. -/
def holdBack (directory : List (List Char)) (last file : List Char) : List String :=
  [lineOf false (directory ++ [last]), lineOf true (directory ++ [file])]

include h

theorem bare_of_literal : ∀ name ∈ directory, IsBare name :=
  fun name hm => (h name (by simp [hm])).toIsBare

theorem bare_concat (hb : IsBare last) : ∀ name ∈ directory ++ [last], IsBare name := by
  intro name hm
  rw [List.mem_append, List.mem_singleton] at hm
  rcases hm with hm | rfl
  · exact bare_of_literal h name hm
  · exact hb

theorem compileRules_holdBack (hb : IsBare last) : compileRules (holdBack directory last file) =
    [ruleOf false (directory ++ [last]), ruleOf true (directory ++ [file])] := by
  have hlast := bare_concat h hb
  have hfile : ∀ name ∈ directory ++ [file], IsBare name := fun name hm => (h name hm).toIsBare
  simp [compileRules, holdBack, ofLine?_lineOf (by simp) hlast, ofLine?_lineOf (by simp) hfile,
    ruleOf]

include hd

/-- A directory above the file is excluded only if it is the innermost one and stars end the
line. -/
theorem excludes_holdBack_directory (hb : IsBare last) {as : List (List Char)} (ha : as ≠ [])
    (has : ∀ name ∈ as, IsBare name) (hlen : as.length ≤ directory.length) :
    excludes (compileRules (holdBack directory last file)) (joinPieces '/' as ++ ['/']) = true ↔
      (∀ c ∈ last, c = '*') ∧ List.Forall₂ Fits directory as := by
  have hlast := bare_concat h hb
  have hfile : ∀ name ∈ directory ++ [file], IsBare name := fun name hm => (h name hm).toIsBare
  have hback :
      (ruleOf true (directory ++ [file])).accepts (joinPieces '/' as ++ ['/']) = false := by
    rw [← Bool.not_eq_true, ruleOf_accepts_directory_iff hd hfile ha has hlen]
    exact fun hn => (h file (by simp)).not_stars hn.1
  have hsign : (ruleOf false (directory ++ [last])).negated = false := rfl
  have hstars : (ruleOf false (directory ++ [last])).accepts (joinPieces '/' as ++ ['/']) = true ↔
      (∀ c ∈ last, c = '*') ∧ List.Forall₂ Fits directory as :=
    ruleOf_accepts_directory_iff hd hlast ha has hlen
  rw [compileRules_holdBack h hb, excludes_pair, hback, hsign, ← hstars]
  simp

/-- Stars behind a directory exclude the directory, and so all that it holds. -/
theorem isIgnored_behind_star :
    isIgnored (compileRules (holdBack directory ['*'] file))
      (String.ofList (joinPieces '/' (directory ++ [file]))) = true := by
  have hstar : IsBare ['*'] := .of_all (by decide) (by decide) (by decide)
  have hbare := bare_of_literal h
  have hself : List.Forall₂ Fits directory directory :=
    List.forall₂_same.2 fun name hm =>
      fits_self (h name (by simp [hm])).noStar (h name (by simp [hm])).noAny
  have hexcluded := (excludes_holdBack_directory hd h hstar hd hbare le_rfl).2 ⟨by simp, hself⟩
  have hne : joinPieces '/' directory ≠ [] :=
    joinPieces_ne_nil hd fun name hm => (hbare name hm).ne_nil
  have hfile : joinPieces '/' [file] ≠ [] := (h file (by simp)).ne_nil
  rw [joinPieces_append hd (by simp), isIgnored_append _ hne hfile]
  simp [isIgnored, hexcluded]

/-- A line that needs a character leaves the directory alone, so that a file of it can be taken
back out. -/
theorem not_isIgnored_behind_any :
    isIgnored (compileRules (holdBack directory ['?', '*'] file))
      (String.ofList (joinPieces '/' (directory ++ [file]))) = false := by
  -- The second line has the last word on the file, and no directory above it is excluded.
  have hany : IsBare ['?', '*'] := .of_all (by decide) (by decide) (by decide)
  have hbare : ∀ name ∈ directory ++ [file], IsBare name := fun name hm => (h name hm).toIsBare
  have hown : excludes (compileRules (holdBack directory ['?', '*'] file))
      (joinPieces '/' (directory ++ [file])) = false := by
    rw [compileRules_holdBack h hany, excludes_pair, if_pos (ruleOf_accepts_self hd h)]
    rfl
  have habove : ∀ head ∈ headsBeforeSlash (joinPieces '/' (directory ++ [file])),
      excludes (compileRules (holdBack directory ['?', '*'] file)) (head ++ ['/']) = false := by
    intro head hm
    obtain ⟨rest, hr⟩ := mem_headsBeforeSlash_iff.1 hm
    obtain ⟨as, bs, he, ha, hb, rfl, -⟩ :=
      (joinPieces_eq_append_iff (slash_not_mem_of_isBare hbare)).1 hr
    have has : ∀ name ∈ as, IsBare name := fun name hn => hbare name (by simp [he, hn])
    have hlen : as.length ≤ directory.length := by
      have := congrArg List.length he
      have := List.length_pos_of_ne_nil hb
      simp only [List.length_append, List.length_singleton] at *
      omega
    rw [← Bool.not_eq_true, excludes_holdBack_directory hd h hany ha has hlen]
    simp
  have hkeep : dropLast '/' (joinPieces '/' (directory ++ [file])) =
      joinPieces '/' (directory ++ [file]) := if_neg (getLast?_joinPieces_ne hbare)
  rw [isIgnored_eq_isIgnoredIn, isIgnoredIn, List.nil_append, hown, hkeep, Bool.false_or,
    List.any_eq_false]
  intro head hm
  simp [habove head hm]

end Directory

/-- A rule of several segments, none of them a globstar, accepts a path with fewer names only where
its last segment consists of stars: there it accepts the directory it looks into. So a file cannot
be taken back out of a directory of which everything is ignored, but it can be where the ignoring
line asks for a character. -/
theorem accepts_directory_looked_into {s : String} {rule : Rule} {path : List Char}
    (hr : Rule.ofLine? s = some rule) (hs : '\x00' ∉ s.toList)
    (hplain : ∀ segment ∈ (Outline.ofText s).segments, segment ≠ globstarSegment)
    (hk : 2 ≤ (Outline.ofText s).segments.length)
    (hp : ∀ name ∈ (pieces '/' path).dropLast, name ≠ [])
    {directory : List (List Char)} {file : List Char} (hd : directory ≠ [])
    (h : ∀ name ∈ directory ++ [file], IsLiteral name) :
    (rule.accepts path = true ∧ (namesOf path).length < (Outline.ofText s).segments.length ↔
      (Outline.ofText s).directoryOnly = false ∧
        EndsInStars (Outline.ofText s).segments path) ∧
      isIgnored (compileRules (holdBack directory ['*'] file))
        (String.ofList (joinPieces '/' (directory ++ [file]))) = true ∧
      isIgnored (compileRules (holdBack directory ['?', '*'] file))
        (String.ofList (joinPieces '/' (directory ++ [file]))) = false :=
  ⟨accepts_and_few_names_iff hr hs hplain hk hp, isIgnored_behind_star hd h,
    not_isIgnored_behind_any hd h⟩

theorem accepts_directory_looked_into_docs :
    let rule := Rule.ofPattern "docs/*" false "docs/*".toList
    Rule.ofLine? "docs/*" = some rule ∧
      (rule.accepts "docs/".toList = true ∧
          (namesOf "docs/".toList).length < (Outline.ofText "docs/*").segments.length ↔
        (Outline.ofText "docs/*").directoryOnly = false ∧
          EndsInStars (Outline.ofText "docs/*").segments "docs/".toList) ∧
      isIgnored (compileRules ["docs/*", "!docs/plan"]) "docs/plan" = true ∧
      isIgnored (compileRules ["docs/?*", "!docs/plan"]) "docs/plan" = false := by
  have hr : Rule.ofLine? "docs/*" = some (Rule.ofPattern "docs/*" false "docs/*".toList) := by
    decide +kernel
  have hliteral : ∀ name ∈ ["docs".toList] ++ ["plan".toList], IsLiteral name := by
    intro name hm
    have hcases : name = "docs".toList ∨ name = "plan".toList := by simpa using hm
    rcases hcases with rfl | rfl
    · exact ⟨.of_all (by decide) (by decide) (by decide), by decide, by decide⟩
    · exact ⟨.of_all (by decide) (by decide) (by decide), by decide, by decide⟩
  have hstar : holdBack ["docs".toList] ['*'] "plan".toList = ["docs/*", "!docs/plan"] := by
    decide +kernel
  have hany : holdBack ["docs".toList] ['?', '*'] "plan".toList = ["docs/?*", "!docs/plan"] := by
    decide +kernel
  have hpath : String.ofList (joinPieces '/' (["docs".toList] ++ ["plan".toList])) =
      "docs/plan" := by
    decide +kernel
  have hnames : ∀ name ∈ (pieces '/' "docs/".toList).dropLast, name ≠ [] := by decide
  have h := accepts_directory_looked_into hr (by decide) (by decide +kernel) (by decide +kernel)
    hnames (by simp) hliteral
  rw [hstar, hany, hpath] at h
  exact ⟨hr, h⟩

/-- A line of two segments accepts a directory path of one name, and hides a file that the next line
takes back out. -/
theorem star_accepts_one_name :
    ∃ rule, Rule.ofLine? "D/*" = some rule ∧ (Outline.ofText "D/*").segments.length = 2 ∧
      rule.accepts "D/".toList = true ∧ (namesOf "D/".toList).length = 1 ∧
      isIgnored (compileRules ["D/*", "!D/f"]) "D/f" = true := by
  refine ⟨Rule.ofPattern "D/*" false "D/*".toList, ?_⟩
  decide +kernel

end FileSieve
