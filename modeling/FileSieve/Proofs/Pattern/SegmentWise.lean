import FileSieve.Proofs.Rule.Acceptance

/-! # Patterns without globstars

Segments that are no globstars take one name each. What such a pattern accepts is told here for any
path at all: names may be empty, and line feeds may stand in them. A line feed at the very end of a
path is passed over by the end of a pattern. -/

namespace FileSieve.Text

theorem pieces_joinPieces_append {separator : Char} {ps : List (List Char)} (hne : ps ≠ [])
    (h : ∀ piece ∈ ps, separator ∉ piece) (cs : List Char) :
    pieces separator (joinPieces separator ps ++ separator :: cs) = ps ++ pieces separator cs := by
  induction ps with
  | nil => exact absurd rfl hne
  | cons piece more ih =>
    rw [List.forall_mem_cons] at h
    by_cases hm : more = []
    · simp [hm, joinPieces, pieces_append h.1]
    · simp [joinPieces_cons piece hm, pieces_append h.1, ih hm h.2]

theorem joinPieces_append {separator : Char} {ps qs : List (List Char)} (hp : ps ≠ [])
    (hq : qs ≠ []) :
    joinPieces separator (ps ++ qs) =
      joinPieces separator ps ++ separator :: joinPieces separator qs := by
  induction ps with
  | nil => exact absurd rfl hp
  | cons piece more ih =>
    by_cases hm : more = []
    · simp [hm, joinPieces_cons piece hq, joinPieces]
    · have hmq : more ++ qs ≠ [] := by simp [hm]
      simp [joinPieces_cons piece hm, joinPieces_cons piece hmq, ih hm]

end FileSieve.Text

namespace FileSieve.Pattern

open Text Regex

/-- No segment is a globstar. -/
def IsPlain (segments : List (List Char)) : Prop :=
  ∀ segment ∈ segments, segment ≠ globstarSegment

variable {segment : List Char} {segments names ps : List (List Char)} {directoryOnly : Bool}

theorem isPlain_cons_iff :
    IsPlain (segment :: segments) ↔ segment ≠ globstarSegment ∧ IsPlain segments :=
  List.forall_mem_cons

/-- Without globstars each segment takes one name. -/
theorem IsPlain.spells_iff (h : IsPlain segments) :
    Spells segments names ↔ List.Forall₂ Fits segments names := by
  induction segments generalizing names with
  | nil => simp [spells_nil_iff]
  | cons segment segments ih =>
    obtain ⟨hs, hrest⟩ := isPlain_cons_iff.1 h
    simp only [spells_segment_iff hs, ih hrest, List.forall₂_cons_left_iff]
    constructor
    · rintro ⟨name, taken, rfl, hf, ht⟩
      exact ⟨name, taken, hf, ht, rfl⟩
    · rintro ⟨name, taken, hf, ht, rfl⟩
      exact ⟨name, taken, rfl, hf, ht⟩

theorem IsPlain.mergeGlobstars_eq (h : IsPlain segments) : mergeGlobstars segments = segments := by
  induction segments using mergeGlobstars.induct with
  | case1 => rfl
  | case2 segment => rfl
  | case3 segment next rest hg ih =>
    simp only [Bool.and_eq_true, decide_eq_true_eq] at hg
    exact absurd hg.1 (isPlain_cons_iff.1 h).1
  | case4 segment next rest hg ih =>
    rw [mergeGlobstars, if_neg hg, ih (isPlain_cons_iff.1 h).2]

theorem IsPlain.bodyParts_cons {next : List Char} {rest : List (List Char)}
    (h : IsPlain (segment :: next :: rest)) :
    bodyParts (segment :: next :: rest) =
      segment.map Part.ofChar ++ .slash :: bodyParts (next :: rest) := by
  obtain ⟨hs, hrest⟩ := isPlain_cons_iff.1 h
  have hn := (isPlain_cons_iff.1 hrest).1
  cases rest <;> simp [bodyParts, tailParts, hs, hn]

/-! ### What is found -/

/-- What may follow the names that were taken: the end of the path, up to one final line feed, or a
slash, which must follow in a pattern for directories. -/
def MayFollow (directoryOnly : Bool) (rest : List Char) : Prop :=
  directoryOnly = false ∧ (rest = [] ∨ rest = ['\n']) ∨ ∃ more, rest = '/' :: more

theorem found_ending_nil_iff {rest : List Char} :
    Found (ending directoryOnly []) rest ↔ MayFollow directoryOnly rest := by
  cases directoryOnly with
  | true =>
    have he : ending true [] = [Regex.slash] := rfl
    simp [he, MayFollow, Regex.slash, found_char_iff, found_nil]
  | false =>
    have he : ending false [] = [.alt .finish .slash] := rfl
    simp only [he, found_cons_iff, found_nil, matches_alt_iff, matches_finish_iff, atFinish_iff,
      Regex.slash, matches_char_iff, MayFollow, and_true, true_and]
    constructor
    · rintro ⟨more, ⟨h, -⟩ | h⟩
      · exact .inl h
      · exact .inr ⟨more, h⟩
    · rintro (h | ⟨more, h⟩)
      · exact ⟨rest, .inl ⟨h, rfl⟩⟩
      · exact ⟨more, .inr h⟩

/-- From the front of a name on, plain segments find names that they fit, and what may follow. -/
theorem IsPlain.found_bodyParts_iff (h : IsPlain segments) (hne : segments ≠ [])
    (hs : ∀ segment ∈ segments, '/' ∉ segment) {cs : List Char} :
    Found (closed directoryOnly (bodyParts segments)) cs ↔
      ∃ names rest, cs = joinPieces '/' names ++ rest ∧ (∀ name ∈ names, '/' ∉ name) ∧
        List.Forall₂ Fits segments names ∧ MayFollow directoryOnly rest := by
  -- By induction on the segments. No slash belongs to the last one, so it is a case of its own.
  induction segments generalizing cs with
  | nil => exact absurd rfl hne
  | cons segment rest ih =>
    obtain ⟨hg, hrest⟩ := isPlain_cons_iff.1 h
    obtain ⟨hseg, hslash⟩ := List.forall_mem_cons.1 hs
    cases rest with
    | nil =>
      have hb : bodyParts [segment] = segment.map Part.ofChar ++ [] := by simp [bodyParts, hg]
      have hclosed : closed directoryOnly [] = ending directoryOnly [] := rfl
      simp only [hb, closed_append _ (ofChar_ne segment), hclosed, found_segment_iff hseg,
        found_ending_nil_iff]
      constructor
      · rintro ⟨run, rest, rfl, hrun, hf, hr⟩
        exact ⟨[run], rest, rfl, by simpa using hrun, .cons hf .nil, hr⟩
      · rintro ⟨names, rest, rfl, hn, hf, hr⟩
        obtain ⟨run, _, hrun, hnil, rfl⟩ := List.forall₂_cons_left_iff.1 hf
        obtain rfl := List.forall₂_nil_left_iff.1 hnil
        exact ⟨run, rest, rfl, by simpa using hn, hrun, hr⟩
    | cons next rest =>
      simp only [h.bodyParts_cons, closed_append _ (ofChar_ne segment), found_segment_iff hseg,
        closed_cons _ (by simp : Part.slash ≠ .everything) (by simp : Part.slash ≠ .trailing),
        Part.regex, Regex.slash, found_char_iff, ih hrest (by simp) hslash]
      constructor
      · rintro ⟨run, _, rfl, hrun, hf, _, rfl, names, rest, rfl, hn, hnames, hr⟩
        obtain ⟨name, more, -, -, rfl⟩ := List.forall₂_cons_left_iff.1 hnames
        refine ⟨run :: name :: more, rest, ?_, List.forall_mem_cons.2 ⟨hrun, hn⟩,
          .cons hf hnames, hr⟩
        simp [joinPieces]
      · rintro ⟨names, rest, rfl, hn, hf, hr⟩
        obtain ⟨run, names, hrun, hnames, rfl⟩ := List.forall₂_cons_left_iff.1 hf
        obtain ⟨name, more, -, -, rfl⟩ := List.forall₂_cons_left_iff.1 hnames
        obtain ⟨hslashRun, hn⟩ := List.forall_mem_cons.1 hn
        exact ⟨run, _, by simp [joinPieces], hslashRun, hrun, _, rfl, name :: more, rest, rfl, hn,
          hnames, hr⟩

/-! ### What that means for the names of a path -/

/-- Plain segments cover names of a path from its front on. A line feed at its end need not
count. -/
theorem IsPlain.found_iff (h : IsPlain segments) (hne : segments ≠ [])
    (hs : ∀ segment ∈ segments, '/' ∉ segment) {cs : List Char} :
    Found (closed directoryOnly (bodyParts segments)) cs ↔
      Reaches directoryOnly segments (pieces '/' cs) ∨
        ∃ front, cs = front ++ ['\n'] ∧ Reaches directoryOnly segments (pieces '/' front) := by
  have hnames {names : List (List Char)} (hf : List.Forall₂ Fits segments names) : names ≠ [] := by
    rintro rfl
    exact hne (List.forall₂_nil_right_iff.1 hf)
  rw [h.found_bodyParts_iff hne hs]
  simp only [Reaches, h.spells_iff]
  constructor
  · rintro ⟨names, rest, rfl, hn, hf, ⟨hd, rfl | rfl⟩ | ⟨more, rfl⟩⟩
    · refine .inl ⟨names, [], ?_, hf, by simp [hd]⟩
      simp [pieces_joinPieces (hnames hf) hn]
    · refine .inr ⟨_, rfl, names, [], ?_, hf, by simp [hd]⟩
      simp [pieces_joinPieces (hnames hf) hn]
    · exact .inl ⟨names, _, pieces_joinPieces_append (hnames hf) hn more, hf,
        fun _ => pieces_ne_nil '/' more⟩
  · have hcovers {path : List Char} {tail : List Char} (ht : tail = [] ∨ tail = ['\n'])
        (hr : ∃ names below, pieces '/' path = names ++ below ∧ List.Forall₂ Fits segments names ∧
          (directoryOnly = true → below ≠ [])) :
        ∃ names rest, path ++ tail = joinPieces '/' names ++ rest ∧ (∀ name ∈ names, '/' ∉ name) ∧
          List.Forall₂ Fits segments names ∧ MayFollow directoryOnly rest := by
      obtain ⟨names, below, hp, hf, hd⟩ := hr
      have hslash : ∀ name ∈ names, '/' ∉ name := fun name hn =>
        not_mem_of_mem_pieces (hp ▸ List.mem_append_left below hn)
      have hj : path = joinPieces '/' (names ++ below) := by rw [← hp, joinPieces_pieces]
      -- Names that are left over stand behind a slash, and then the tail does not count.
      by_cases hb : below = []
      · refine ⟨names, tail, ?_, hslash, hf, .inl ⟨?_, ht⟩⟩
        · simp [hj, hb]
        · simpa [hb] using hd
      · refine ⟨names, '/' :: joinPieces '/' below ++ tail, ?_, hslash, hf, .inr ⟨_, rfl⟩⟩
        simp [hj, joinPieces_append (hnames hf) hb]
    rintro (hr | ⟨front, rfl, hr⟩)
    · simpa using hcovers (.inl rfl) hr
    · exact hcovers (.inr rfl) hr

/-! ### Patterns -/

theorem IsPlain.parts_tokens {body : List Char} (h : IsPlain (pieces '/' body))
    (hb : '\x00' ∉ body) : parts (tokens body) = bodyParts (pieces '/' body) := by
  rw [Pattern.parts_tokens hb, h.mergeGlobstars_eq]

/-- A pattern that begins with a globstar and a slash has a globstar as its first segment. -/
theorem IsPlain.not_deep {body : List Char} (h : IsPlain (pieces '/' body)) :
    "**/".toList.isPrefixOf body = false := by
  rw [Bool.eq_false_iff]
  intro hp
  obtain ⟨rest, he⟩ := List.isPrefixOf_iff_prefix.1 hp
  have hs : '/' ∉ globstarSegment := by simp [globstarSegment]
  have hpieces : pieces '/' body = globstarSegment :: pieces '/' rest := he ▸ pieces_append hs rest
  exact (isPlain_cons_iff.1 (hpieces ▸ h)).1 rfl

/-- The segments are reached from some name of the path on. -/
def ReachesWithin (directoryOnly : Bool) (segments : List (List Char)) (path : List Char) : Prop :=
  ∃ above left, pieces '/' path = above ++ left ∧ left ≠ [] ∧ Reaches directoryOnly segments left

theorem reachesWithin_iff {path : List Char} :
    ReachesWithin directoryOnly segments path ↔
      Reaches directoryOnly segments (pieces '/' path) ∨
        ∃ front back, path = front ++ '/' :: back ∧
          Reaches directoryOnly segments (pieces '/' back) := by
  have hj : path = joinPieces '/' (pieces '/' path) := (joinPieces_pieces '/' path).symm
  constructor
  · rintro ⟨above, left, he, hl, hr⟩
    have hslash {name : List Char} (hn : name ∈ left) : '/' ∉ name :=
      not_mem_of_mem_pieces (he ▸ List.mem_append_right above hn)
    by_cases ha : above = []
    · exact .inl (by simpa [he, ha] using hr)
    · refine .inr ⟨joinPieces '/' above, joinPieces '/' left, ?_, ?_⟩
      · rw [hj, he, joinPieces_append ha hl]
      · rwa [pieces_joinPieces hl fun _ => hslash]
  · rintro (hr | ⟨front, back, rfl, hr⟩)
    · exact ⟨[], _, rfl, pieces_ne_nil '/' path, hr⟩
    · refine ⟨pieces '/' front, pieces '/' back, ?_, pieces_ne_nil '/' back, hr⟩
      have hslash : ∀ name ∈ pieces '/' front, '/' ∉ name := fun _ => not_mem_of_mem_pieces
      rw [← pieces_joinPieces_append (pieces_ne_nil '/' front) hslash, joinPieces_pieces]

section Searches

variable {body path : List Char} (h : IsPlain (pieces '/' body)) (hb : '\x00' ∉ body)

include h hb

theorem IsPlain.search_anchored_iff :
    (concat (.start :: closed directoryOnly (parts (tokens body)))).search path = true ↔
      Reaches directoryOnly (pieces '/' body) (pieces '/' path) ∨
        ∃ front, path = front ++ ['\n'] ∧
          Reaches directoryOnly (pieces '/' body) (pieces '/' front) := by
  rw [search_start_iff (isStartFree_closed _ _), h.parts_tokens hb,
    h.found_iff (pieces_ne_nil '/' body) fun _ => not_mem_of_mem_pieces]

theorem IsPlain.search_floating_iff :
    (concat (.alt .start .slash :: closed directoryOnly (parts (tokens body)))).search path =
        true ↔
      ReachesWithin directoryOnly (pieces '/' body) path ∨
        ∃ front, path = front ++ ['\n'] ∧ ReachesWithin directoryOnly (pieces '/' body) front := by
  simp only [Regex.slash, search_start_or_char_iff (isStartFree_closed _ _), h.parts_tokens hb,
    h.found_iff (pieces_ne_nil '/' body) fun _ => not_mem_of_mem_pieces, reachesWithin_iff]
  constructor
  · rintro ((hr | ⟨front, rfl, hr⟩) | ⟨front, back, rfl, hr | ⟨inner, rfl, hr⟩⟩)
    · exact .inl (.inl hr)
    · exact .inr ⟨front, rfl, .inl hr⟩
    · exact .inl (.inr ⟨front, back, rfl, hr⟩)
    · exact .inr ⟨front ++ '/' :: inner, by simp, .inr ⟨front, inner, rfl, hr⟩⟩
  · rintro ((hr | ⟨front, back, rfl, hr⟩) | ⟨_, rfl, hr | ⟨front, back, rfl, hr⟩⟩)
    · exact .inl (.inl hr)
    · exact .inr ⟨front, back, rfl, .inl hr⟩
    · exact .inl (.inr ⟨_, rfl, hr⟩)
    · exact .inr ⟨front, back ++ ['\n'], by simp, .inr ⟨back, rfl, hr⟩⟩

end Searches

/-- What a plain outline selects, told by what its segments reach. -/
theorem selects_iff_of_isPlain {o : Outline} (h : IsPlain o.segments) (hne : o.segments ≠ [])
    (path : List Char) :
    o.Selects path ↔
      if o.rooted = true ∨ 1 < o.segments.length then
        Reaches o.directoryOnly o.segments (pieces '/' path)
      else ReachesWithin o.directoryOnly o.segments path := by
  have hnil : ¬Spells o.segments [] := by
    obtain ⟨segment, rest, hs⟩ := List.exists_cons_of_ne_nil hne
    rw [hs]
    exact not_spells_nil (h segment (by simp [hs]))
  split
  · next htop => rw [selects_iff_covers htop, covers_iff_reaches hnil]
  · next hfloat =>
    simp only [Outline.Selects, hfloat, false_implies, true_and, ReachesWithin,
      ← covers_iff_reaches hnil]
    exact (exists_covers_iff hne (pieces_ne_nil '/' path)).symm

/-- The expression of a pattern without globstars finds a match in the paths that its outline
selects, and in these with a line feed at the end. -/
theorem IsPlain.search_ofText_iff {text : List Char} (negated : Bool)
    (h : IsPlain (Outline.ofBody negated text).segments) (hn : '\x00' ∉ text) (path : List Char) :
    (Glob.ofText text).regex.search path = true ↔
      (Outline.ofBody negated text).Selects path ∨
        ∃ front, path = front ++ ['\n'] ∧ (Outline.ofBody negated text).Selects front := by
  have hbody : '\x00' ∉ dropLast '/' (dropFirst '/' text) := not_mem_dropLast (not_mem_dropFirst hn)
  have hplain : IsPlain (pieces '/' (dropLast '/' (dropFirst '/' text))) := h
  have hdeep := hplain.not_deep
  simp only [selects_iff_of_isPlain h (pieces_ne_nil '/' _), regex_eq]
  by_cases hroot : (Outline.ofBody negated text).rooted = true ∨
      1 < (Outline.ofBody negated text).segments.length
  · have hanchor : text.head? = some '/' ∨ '/' ∈ dropLast '/' (dropFirst '/' text) := by
      simpa [Outline.ofBody, one_lt_length_pieces_iff] using hroot
    simp only [if_pos hroot, Glob.ofText, Glob.opening, hdeep, Bool.false_eq_true, if_false,
      Bool.not_false, Bool.true_and]
    rw [if_pos (by simpa using hanchor)]
    exact hplain.search_anchored_iff hbody
  · have hanchor : ¬(text.head? = some '/' ∨ '/' ∈ dropLast '/' (dropFirst '/' text)) := by
      simpa [Outline.ofBody, one_lt_length_pieces_iff] using hroot
    simp only [if_neg hroot, Glob.ofText, Glob.opening, hdeep, Bool.false_eq_true, if_false,
      Bool.not_false, Bool.true_and]
    rw [if_neg (by simpa using hanchor)]
    exact hplain.search_floating_iff hbody

end FileSieve.Pattern

namespace FileSieve

open Pattern

/-- A rule without globstars accepts the paths that the outline of its line selects, and these with
a line feed at the end. -/
theorem accepts_iff_of_isPlain {s : String} {rule : Rule} (hr : Rule.ofLine? s = some rule)
    (hs : '\x00' ∉ s.toList) (h : IsPlain (Outline.ofText s).segments) (path : List Char) :
    rule.accepts path = true ↔ (Outline.ofText s).Selects path ∨
      ∃ front, path = front ++ ['\n'] ∧ (Outline.ofText s).Selects front := by
  have hn : '\x00' ∉ unsignedText s :=
    not_mem_unescapeBang (not_mem_dropFirst fun hc => hs (mem_of_mem_trim hc))
  rw [eq_ofPattern_of_ofLine? hr, ofPattern_accepts]
  exact IsPlain.search_ofText_iff _ h hn path

end FileSieve
