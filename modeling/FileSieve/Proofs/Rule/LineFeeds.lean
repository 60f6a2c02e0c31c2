import FileSieve.Proofs.Pattern.SegmentWise

/-! # Line feeds in paths

A rule is compared on a path and on the path with a letter in place of each line feed. Without
globstars the two differ only where a line feed ends the path, which the end of a pattern passes
over. A globstar does not cross a line feed, so that a rule with one accepts less, never more. -/

namespace FileSieve

open Text

/-- Puts a letter in place of a line feed. -/
def fill (letter c : Char) : Char :=
  if c = '\n' then letter else c

variable {letter c : Char}

theorem fill_eq_iff {d : Char} (hd : d ≠ '\n') (hl : d ≠ letter) : fill letter c = d ↔ c = d := by
  by_cases hc : c = '\n'
  · simp [fill, hc, Ne.symm hd, Ne.symm hl]
  · simp [fill, hc]

theorem fill_ne_lineFeed (h : letter ≠ '\n') : fill letter c ≠ '\n' := by
  by_cases hc : c = '\n'
  · simp [fill, hc, h]
  · simp [fill, hc]

theorem lineFeed_not_mem_map_fill (h : letter ≠ '\n') (path : List Char) :
    '\n' ∉ path.map (fill letter) := by
  intro hm
  obtain ⟨c, -, hc⟩ := List.mem_map.1 hm
  exact fill_ne_lineFeed h hc

namespace Text

theorem pieces_map_fill (h : letter ≠ '/') (path : List Char) :
    pieces '/' (path.map (fill letter)) = (pieces '/' path).map (List.map (fill letter)) := by
  induction path with
  | nil => rfl
  | cons c path ih =>
    have hslash : fill letter c = '/' ↔ c = '/' := fill_eq_iff (by decide) (Ne.symm h)
    by_cases hc : c = '/'
    · have hf : fill letter '/' = '/' := hc ▸ hslash.2 hc
      simp [pieces, hc, ih, hf]
    · obtain ⟨piece, more, hp⟩ := List.exists_cons_of_ne_nil (pieces_ne_nil '/' path)
      simp [pieces, hc, ih, hslash, hp]

end Text

/-! ### What an outline selects -/

namespace Pattern

/-- The segments hold no line feed, and not the letter that stands in for one. -/
def Lacks (letter : Char) (segments : List (List Char)) : Prop :=
  ∀ segment ∈ segments, '\n' ∉ segment ∧ letter ∉ segment

theorem fits_map_fill_iff {segment name : List Char} (h : '\n' ∉ segment ∧ letter ∉ segment) :
    Fits segment (name.map (fill letter)) ↔ Fits segment name := by
  induction segment generalizing name with
  | nil => simp [fits_nil_iff]
  | cons d segment ih =>
    simp only [List.mem_cons, not_or] at h
    have ih {name : List Char} : Fits segment (name.map (fill letter)) ↔ Fits segment name :=
      ih ⟨h.1.2, h.2.2⟩
    by_cases hs : d = '*'
    · subst hs
      simp only [fits_star_iff, List.map_eq_append_iff]
      constructor
      · rintro ⟨_, _, ⟨run, rest, rfl, rfl, rfl⟩, hf⟩
        exact ⟨run, rest, rfl, ih.1 hf⟩
      · rintro ⟨run, rest, rfl, hf⟩
        exact ⟨_, _, ⟨run, rest, rfl, rfl, rfl⟩, ih.2 hf⟩
    · by_cases hq : d = '?'
      · subst hq
        simp only [fits_any_iff, List.map_eq_cons_iff]
        constructor
        · rintro ⟨_, _, ⟨c, rest, rfl, rfl, rfl⟩, hf⟩
          exact ⟨c, rest, rfl, ih.1 hf⟩
        · rintro ⟨c, rest, rfl, hf⟩
          exact ⟨_, _, ⟨c, rest, rfl, rfl, rfl⟩, ih.2 hf⟩
      · have hd (c : Char) : fill letter c = d ↔ c = d :=
          fill_eq_iff (Ne.symm h.1.1) (Ne.symm h.2.1)
        simp only [fits_char_iff hs hq, List.map_eq_cons_iff]
        constructor
        · rintro ⟨_, ⟨c, rest, rfl, hc, rfl⟩, hf⟩
          exact ⟨rest, by rw [(hd c).1 hc], ih.1 hf⟩
        · rintro ⟨rest, rfl, hf⟩
          exact ⟨_, ⟨d, rest, rfl, (hd d).2 rfl, rfl⟩, ih.2 hf⟩

theorem spells_map_fill_iff {segments names : List (List Char)} (h : Lacks letter segments) :
    Spells segments (names.map (List.map (fill letter))) ↔ Spells segments names := by
  induction segments generalizing names with
  | nil => simp [spells_nil_iff]
  | cons segment segments ih =>
    obtain ⟨hsegment, hrest⟩ := List.forall_mem_cons.1 h
    have ih {names : List (List Char)} :
        Spells segments (names.map (List.map (fill letter))) ↔ Spells segments names := ih hrest
    by_cases hg : segment = globstarSegment
    · subst hg
      simp only [spells_globstar_iff, List.map_eq_append_iff]
      constructor
      · rintro ⟨_, _, ⟨skipped, taken, rfl, rfl, rfl⟩, ht⟩
        exact ⟨skipped, taken, rfl, ih.1 ht⟩
      · rintro ⟨skipped, taken, rfl, ht⟩
        exact ⟨_, _, ⟨skipped, taken, rfl, rfl, rfl⟩, ih.2 ht⟩
    · simp only [spells_segment_iff hg, List.map_eq_cons_iff]
      constructor
      · rintro ⟨_, _, ⟨name, taken, rfl, rfl, rfl⟩, hf, ht⟩
        exact ⟨name, taken, rfl, (fits_map_fill_iff hsegment).1 hf, ih.1 ht⟩
      · rintro ⟨name, taken, rfl, hf, ht⟩
        exact ⟨_, _, ⟨name, taken, rfl, rfl, rfl⟩, (fits_map_fill_iff hsegment).2 hf, ih.2 ht⟩

/-- To the segments of an outline a line feed is a character like others. -/
theorem selects_map_fill_iff {o : Outline} (h : Lacks letter o.segments) (hl : letter ≠ '/')
    (path : List Char) : o.Selects (path.map (fill letter)) ↔ o.Selects path := by
  simp only [Outline.Selects, pieces_map_fill hl, List.map_eq_append_iff]
  constructor
  · rintro ⟨_, _, _, ⟨_, below, he, ⟨above, names, rfl, rfl, rfl⟩, rfl⟩, hs, htop, hd⟩
    exact ⟨above, names, below, he, (spells_map_fill_iff h).1 hs, by simpa using htop,
      by simpa using hd⟩
  · rintro ⟨above, names, below, he, hs, htop, hd⟩
    exact ⟨_, _, _, ⟨_, below, he, ⟨above, names, rfl, rfl, rfl⟩, rfl⟩,
      (spells_map_fill_iff h).2 hs, by simpa using htop, by simpa using hd⟩

end Pattern

/-! ### What an expression matches -/

def CharClass.literals : CharClass → List Char
  | only c => [c]
  | _ => []

namespace Regex

/-- The characters that an expression asks for by name. -/
def literals : Regex → List Char
  | one k | star k | plus k => k.literals
  | cat r s | alt r s => r.literals ++ s.literals
  | opt r => r.literals
  | _ => []

/-- No character that the expression asks for by name is a line feed or the letter. -/
def Spares (letter : Char) (r : Regex) : Prop :=
  ∀ c ∈ r.literals, c ≠ '\n' ∧ c ≠ letter

theorem holds_fill {k : CharClass} (hk : ∀ c ∈ k.literals, c ≠ '\n' ∧ c ≠ letter)
    (hl : letter ≠ '/') (hn : letter ≠ '\n') {c : Char} (h : k.holds c = true) :
    k.holds (fill letter c) = true := by
  cases k with
  | only d =>
    obtain ⟨hd, hdl⟩ := hk d (by simp [CharClass.literals])
    have hc : d = c := by simpa [CharClass.holds] using h
    have hf : fill letter c = d := (fill_eq_iff hd hdl).2 hc.symm
    simp [CharClass.holds, hf]
  | inLine => simp [CharClass.holds, fill_ne_lineFeed hn]
  | inSegment =>
    have hslash : fill letter c = '/' ↔ c = '/' := fill_eq_iff (by decide) (Ne.symm hl)
    simpa [CharClass.holds, hslash] using h

theorem getLast?_ne_of_suffix {cs mid : List Char} (h : mid <:+ cs)
    (hcs : cs.getLast? ≠ some '\n') : mid.getLast? ≠ some '\n' := by
  obtain ⟨front, rfl⟩ := h
  intro hm
  exact hcs (by simp [List.getLast?_append, hm])

/-- A match is a match with a letter in place of each line feed, if no line feed ends the path. -/
theorem Matches.map_fill {r : Regex} {b : Bool} {cs rest : List Char} (h : Matches r b cs rest)
    (hr : r.Spares letter) (hl : letter ≠ '/') (hn : letter ≠ '\n')
    (hcs : cs.getLast? ≠ some '\n') :
    Matches r b (cs.map (fill letter)) (rest.map (fill letter)) := by
  induction h with
  | empty => exact .empty
  | start => exact .start
  | @finish b cs h =>
    -- Only here it counts that no line feed ends the path: the end would pass over it.
    refine .finish ?_
    unfold atFinish at h
    split at h
    · rfl
    · exact absurd rfl hcs
    · cases h
  | one h => exact .one (holds_fill hr hl hn h)
  | starNil => exact .starNil
  | starCons h _ ih =>
    have hrest := getLast?_ne_of_suffix (List.suffix_cons _ _) hcs
    exact .starCons (holds_fill hr hl hn h) (ih hr hrest)
  | plus h _ ih =>
    have hrest := getLast?_ne_of_suffix (List.suffix_cons _ _) hcs
    exact .plus (holds_fill hr hl hn h) (ih hr hrest)
  | cat h₁ _ ih₁ ih₂ =>
    have hmid := getLast?_ne_of_suffix h₁.isSuffix hcs
    refine .cat (ih₁ (fun c hc => hr c (List.mem_append_left _ hc)) hcs) ?_
    simpa using ih₂ (fun c hc => hr c (List.mem_append_right _ hc)) hmid
  | altLeft _ ih => exact .altLeft (ih (fun c hc => hr c (List.mem_append_left _ hc)) hcs)
  | altRight _ ih => exact .altRight (ih (fun c hc => hr c (List.mem_append_right _ hc)) hcs)
  | optNil => exact .optNil
  | optSome _ ih => exact .optSome (ih hr hcs)

theorem search_map_fill {r : Regex} (hr : r.Spares letter) (hl : letter ≠ '/') (hn : letter ≠ '\n')
    {path : List Char} (hp : path.getLast? ≠ some '\n') (h : r.search path = true) :
    r.search (path.map (fill letter)) = true := by
  rw [search_iff] at h ⊢
  obtain ⟨i, rest, hi, hm⟩ := h
  have hdrop := getLast?_ne_of_suffix (List.drop_suffix i path) hp
  refine ⟨i, rest.map (fill letter), by simpa using hi, ?_⟩
  simpa [List.map_drop] using hm.map_fill hr hl hn hdrop

theorem mem_literals_concat {rs : List Regex} {c : Char} (h : c ∈ (concat rs).literals) :
    ∃ r ∈ rs, c ∈ r.literals := by
  induction rs with
  | nil => simp [concat, literals] at h
  | cons r rs ih =>
    cases rs with
    | nil => exact ⟨r, by simp, h⟩
    | cons s rest =>
      rcases List.mem_append.1 h with h | h
      · exact ⟨r, by simp, h⟩
      · obtain ⟨r', hr, hc⟩ := ih h
        exact ⟨r', List.mem_cons_of_mem _ hr, hc⟩

end Regex

namespace Pattern

theorem char_mem_innerParts {ts : List Token} (h : .char c ∈ innerParts ts) : .char c ∈ ts := by
  fun_induction innerParts ts <;> grind

theorem char_mem_parts {ts : List Token} (h : .char c ∈ parts ts) : .char c ∈ ts := by
  unfold parts at h
  split at h <;> grind [char_mem_innerParts]

theorem mem_of_char_mem_segmentTokens {segment : List Char} (h : .char c ∈ segmentTokens segment) :
    c ∈ segment := by
  unfold segmentTokens at h
  split at h
  · simp at h
  · obtain ⟨d, hd, he⟩ := List.mem_map.1 h
    unfold Token.ofChar at he
    split_ifs at he
    obtain rfl := Token.char.inj he
    exact hd

theorem char_mem_tokensOf {segments : List (List Char)} (h : .char c ∈ tokensOf segments) :
    ∃ segment ∈ segments, c ∈ segment := by
  fun_induction tokensOf segments with
  | case1 => simp at h
  | case2 segment => exact ⟨segment, by simp, mem_of_char_mem_segmentTokens h⟩
  | case3 segment next rest ih =>
    rw [List.mem_append, List.mem_cons] at h
    rcases h with h | h | h
    · exact ⟨segment, by simp, mem_of_char_mem_segmentTokens h⟩
    · cases h
    · obtain ⟨other, ho, hc⟩ := ih h
      exact ⟨other, List.mem_cons_of_mem _ ho, hc⟩

theorem mem_of_char_mem_tokens {body : List Char} (h : .char c ∈ tokens body) : c ∈ body := by
  obtain ⟨segment, hs, hc⟩ := char_mem_tokensOf h
  exact mem_of_mem_pieces (mergeGlobstars_subset _ hs) hc

theorem mem_of_mem_dropFirst {d : Char} {cs : List Char} (h : c ∈ dropFirst d cs) : c ∈ cs :=
  (dropFirst_isSuffix d cs).subset h

theorem mem_of_mem_dropLast {d : Char} {cs : List Char} (h : c ∈ dropLast d cs) : c ∈ cs :=
  (dropLast_isPrefix d cs).subset h

theorem literals_opening (g : Glob) : ∀ r ∈ g.opening, r.literals ⊆ ['/'] := by
  unfold Glob.opening
  split
  · decide
  · split <;> decide

theorem literals_closing (g : Glob) : ∀ r ∈ g.closing, r.literals ⊆ ['/'] := by
  unfold Glob.closing
  split_ifs <;> decide

theorem literals_part {part : Part} (h : c ∈ part.regex.literals) : c = '/' ∨ part = .char c := by
  cases part with
  | char d =>
    have hd : c = d := by simpa [Part.regex, Regex.char, Regex.literals, CharClass.literals] using h
    exact .inr (hd ▸ rfl)
  | everything | star | any =>
    exact absurd h (by simp [Part.regex, Regex.literals, CharClass.literals])
  | leading | between | trailing | slash =>
    exact .inl (by simpa [Part.regex, anyDirectories, Regex.concat, Regex.slash, Regex.char,
      Regex.literals, CharClass.literals] using h)

/-- A pattern asks for slashes and for characters of its own. -/
theorem mem_literals_ofText {text : List Char} (h : c ∈ (Glob.ofText text).regex.literals) :
    c = '/' ∨ c ∈ text := by
  obtain ⟨r, hr, hc⟩ := Regex.mem_literals_concat h
  rw [List.mem_append, List.mem_append] at hr
  rcases hr with (hr | hr) | hr
  · exact .inl (by simpa using literals_opening _ r hr hc)
  · obtain ⟨part, hp, rfl⟩ := List.mem_map.1 hr
    refine (literals_part hc).imp_right fun hpart => ?_
    have htokens := mem_of_char_mem_tokens (char_mem_parts (hpart ▸ hp))
    have hbody : c ∈ dropLast '/' (dropFirst '/' text) := by
      split at htokens
      · exact List.mem_of_mem_drop htokens
      · exact htokens
    exact mem_of_mem_dropFirst (mem_of_mem_dropLast hbody)
  · exact .inl (by simpa using literals_closing _ r hr hc)

end Pattern

open Pattern

/-! ### What a rule accepts -/

section Rules

variable {s : String} {rule : Rule} {letter : Char}

theorem mem_of_mem_unsignedText {c : Char} (h : c ∈ unsignedText s) : c ∈ s.toList :=
  (unsignedText_isInfix s).subset h

theorem ofPattern_regex (line : String) (negated : Bool) (text : List Char) :
    (Rule.ofPattern line negated text).regex = (Glob.ofText text).regex := rfl

theorem spares_of_ofLine? (hr : Rule.ofLine? s = some rule) (hn : '\n' ∉ s.toList)
    (hc : letter ∉ s.toList) (hslash : letter ≠ '/') : rule.regex.Spares letter := by
  rw [eq_ofPattern_of_ofLine? hr, ofPattern_regex]
  intro c hm
  rcases mem_literals_ofText hm with rfl | hm
  · exact ⟨by decide, Ne.symm hslash⟩
  · have hs := mem_of_mem_unsignedText hm
    exact ⟨ne_of_mem_of_not_mem hs hn, ne_of_mem_of_not_mem hs hc⟩

theorem lacks_outline (hn : '\n' ∉ s.toList) (hc : letter ∉ s.toList) :
    Lacks letter (Outline.ofText s).segments := by
  intro segment hs
  simp only [outline_ofText, Outline.ofBody] at hs
  have hmem {c : Char} (hm : c ∈ segment) : c ∈ s.toList :=
    mem_of_mem_unsignedText (mem_of_mem_dropFirst (mem_of_mem_dropLast (mem_of_mem_pieces hs hm)))
  exact ⟨fun hm => hn (hmem hm), fun hm => hc (hmem hm)⟩

/-- A line feed in a path is a character like others to a pattern without globstars, unless it ends
the path: the pattern may end before it. To a pattern with globstars such a path is at most what the
path with a letter in place of each line feed is. -/
theorem accepts_fill_lineFeeds (hr : Rule.ofLine? s = some rule) (h0 : '\x00' ∉ s.toList)
    (hn : '\n' ∉ s.toList) (hc : letter ∉ s.toList) (hslash : letter ≠ '/') (hl : letter ≠ '\n')
    (path : List Char) :
    ((∀ segment ∈ (Outline.ofText s).segments, segment ≠ globstarSegment) →
      (rule.accepts path = true ↔ rule.accepts (path.map (fill letter)) = true ∨
        ∃ front, path = front ++ ['\n'] ∧ rule.accepts (front.map (fill letter)) = true)) ∧
    (path.getLast? ≠ some '\n' → rule.accepts path = true →
      rule.accepts (path.map (fill letter)) = true) := by
  have hspares := spares_of_ofLine? hr hn hc hslash
  have hlacks := lacks_outline hn hc
  constructor
  · intro hplain
    have hfilled (cs : List Char) : rule.accepts (cs.map (fill letter)) = true ↔
        (Outline.ofText s).Selects cs := by
      rw [accepts_iff_of_isPlain hr h0 hplain, selects_map_fill_iff hlacks hslash,
        or_iff_left_iff_imp]
      rintro ⟨front, he, -⟩
      exact absurd (he ▸ by simp) (lineFeed_not_mem_map_fill hl cs)
    simp only [hfilled]
    exact accepts_iff_of_isPlain hr h0 hplain path
  · intro hp
    exact Regex.search_map_fill hspares hslash hl hp

end Rules

theorem accepts_fill_lineFeeds_inside :
    let rule := Rule.ofPattern "a?b" false "a?b".toList
    let path := "a\nb".toList
    Rule.ofLine? "a?b" = some rule ∧
      (rule.accepts path = true ↔ rule.accepts (path.map (fill 'x')) = true ∨
        ∃ front, path = front ++ ['\n'] ∧ rule.accepts (front.map (fill 'x')) = true) ∧
      rule.accepts (path.map (fill 'x')) = true := by
  have hr : Rule.ofLine? "a?b" = some (Rule.ofPattern "a?b" false "a?b".toList) := by
    decide +kernel
  have hslash : 'x' ≠ '/' := by decide
  have h := accepts_fill_lineFeeds hr (by decide) (by decide) (by decide) hslash (by decide)
    "a\nb".toList
  exact ⟨hr, h.1 (by decide +kernel), h.2 (by decide) (by decide +kernel)⟩

/-- A rule accepts a path with a line feed at its end and not the one with a letter there, or one
with a letter in a directory and not the one with a line feed there. -/
theorem lineFeed_no_letter :
    (∃ rule, Rule.ofLine? "a" = some rule ∧ rule.accepts "a\n".toList = true ∧
      rule.accepts ("a\n".toList.map (fill 'b')) = false) ∧
    ∃ rule, Rule.ofLine? "**/x" = some rule ∧ rule.accepts "a\nb/x".toList = false ∧
      rule.accepts ("a\nb/x".toList.map (fill 'c')) = true := by
  refine ⟨⟨Rule.ofPattern "a" false "a".toList, ?_⟩,
    ⟨Rule.ofPattern "**/x" false "**/x".toList, ?_⟩⟩
  · decide +kernel
  · decide +kernel

end FileSieve
