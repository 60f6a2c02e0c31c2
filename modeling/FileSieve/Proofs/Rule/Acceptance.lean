import FileSieve.Proofs.Pattern.Matching

/-! # What a compiled rule accepts

A rule accepts a path exactly when the outline of its line selects it. The three ways in which an
expression may begin are three ways to pass over names before the segments. -/

namespace FileSieve.Pattern

open Text Regex

theorem areNames_pieces {path : List Char} (h : IsRelativePath path) :
    AreNames (pieces '/' path) where
  slashFree _ hp := not_mem_of_mem_pieces hp
  inLine _ hp hc := h.inLine (mem_of_mem_pieces hp hc)
  named := h.named

/-! ### Passing over names -/

/-- A globstar before the segments lets them begin anywhere, as long as a name is left. -/
theorem covers_globstar_iff {directoryOnly : Bool} {segments ps : List (List Char)}
    (hne : segments ≠ []) (hps : ps ≠ []) :
    Covers directoryOnly (globstarSegment :: segments) ps ↔
      ∃ skipped left, ps = skipped ++ left ∧ left ≠ [] ∧ Covers directoryOnly segments left := by
  constructor
  · intro h
    obtain ⟨_, below, rfl, hn, hd⟩ := h
    obtain ⟨skipped, taken, rfl, ht⟩ := spells_globstar_iff.1 hn
    by_cases hnil : taken = []
    · subst hnil
      exact ⟨[], _, rfl, hps, _, below, rfl, ht.of_nil hne _, hd⟩
    · refine ⟨skipped, taken ++ below, List.append_assoc .., by simp [hnil], taken, below, rfl, ht,
        fun hdir => ⟨hnil, (hd hdir).2⟩⟩
  · intro h
    obtain ⟨skipped, _, rfl, -, taken, below, rfl, ht, hd⟩ := h
    refine ⟨skipped ++ taken, below, (List.append_assoc ..).symm, .globstar skipped ht, ?_⟩
    intro hdir
    obtain ⟨hn, hb⟩ := hd hdir
    exact ⟨by simp [hn], hb⟩

theorem exists_covers_iff {directoryOnly : Bool} {segments ps : List (List Char)}
    (hne : segments ≠ []) (hps : ps ≠ []) :
    (∃ above left, ps = above ++ left ∧ left ≠ [] ∧ Covers directoryOnly segments left) ↔
      ∃ above names below, ps = above ++ names ++ below ∧ Spells segments names ∧
        (directoryOnly = true → names ≠ [] ∧ below ≠ []) := by
  constructor
  · intro h
    obtain ⟨above, _, rfl, -, names, below, rfl, hn, hd⟩ := h
    exact ⟨above, names, below, (List.append_assoc ..).symm, hn, hd⟩
  · intro h
    obtain ⟨above, names, below, rfl, hn, hd⟩ := h
    by_cases hl : names ++ below = []
    · obtain ⟨rfl, rfl⟩ := List.append_eq_nil_iff.1 hl
      have hdir : directoryOnly = false := by
        cases directoryOnly with
        | true => exact absurd rfl (hd rfl).1
        | false => rfl
      exact ⟨[], _, rfl, hps, _, [], rfl, hn.of_nil hne _, by simp [hdir]⟩
    · exact ⟨above, names ++ below, List.append_assoc .., hl, names, below, rfl, hn, hd⟩

/-! ### The expression of a body -/

theorem isStartFree_closed (directoryOnly : Bool) (ps : List Part) :
    ∀ r ∈ closed directoryOnly ps, r.isStartFree = true := by
  have hpart (part : Part) : part.regex.isStartFree = true := by cases part <;> rfl
  intro r hr
  rcases List.mem_append.1 hr with hr | hr
  · obtain ⟨part, -, rfl⟩ := List.mem_map.1 hr
    exact hpart part
  · unfold ending Glob.closing at hr
    split at hr
    · simp_all [isStartFree, Regex.slash, Regex.char]
    · split at hr
      · simp_all [isStartFree]
      · split at hr
        · simp at hr
        · simp_all [isStartFree, Regex.slash, Regex.char]

theorem parts_tokens {body : List Char} (h : '\x00' ∉ body) :
    parts (tokens body) = bodyParts (mergeGlobstars (pieces '/' body)) := by
  have hne : mergeGlobstars (pieces '/' body) ≠ [] := by
    obtain ⟨segment, rest, hp⟩ := List.exists_cons_of_ne_nil (pieces_ne_nil '/' body)
    obtain ⟨more, hm⟩ := exists_mergeGlobstars_cons segment rest
    rw [hp, hm]
    simp
  apply parts_tokensOf hne _ (isMerged_mergeGlobstars _)
  intro segment hs hc
  exact h (mem_of_mem_pieces (mergeGlobstars_subset _ hs) hc)

theorem covers_mergeGlobstars_iff {directoryOnly : Bool} {segments ps : List (List Char)} :
    Covers directoryOnly (mergeGlobstars segments) ps ↔ Covers directoryOnly segments ps := by
  simp only [Covers, spells_mergeGlobstars_iff]

theorem found_body_iff (directoryOnly : Bool) {body : List Char} (hb : '\x00' ∉ body)
    {ps : List (List Char)} (h : AreNames ps) (hps : ps ≠ []) :
    Found (closed directoryOnly (parts (tokens body))) (joinPieces '/' ps) ↔
      Covers directoryOnly (pieces '/' body) ps := by
  obtain ⟨segment, rest, hp⟩ := List.exists_cons_of_ne_nil (pieces_ne_nil '/' body)
  obtain ⟨more, hm⟩ := exists_mergeGlobstars_cons segment rest
  have hne : mergeGlobstars (pieces '/' body) ≠ [] := by
    rw [hp, hm]
    simp
  rw [parts_tokens hb, ← covers_mergeGlobstars_iff]
  exact found_bodyParts_iff directoryOnly hne (isMerged_mergeGlobstars _)
    (fun _ hs => not_mem_of_mem_pieces (mergeGlobstars_subset _ hs)) h hps

/-! ### The expression of a pattern -/

section Searches

variable {directoryOnly : Bool} {body path : List Char} (hb : '\x00' ∉ body)
  (h : IsRelativePath path)

include hb h

theorem search_deep_iff :
    (concat (.start :: anyDirectories :: closed directoryOnly (parts (tokens body)))).search path =
        true ↔
      Covers directoryOnly (globstarSegment :: pieces '/' body) (pieces '/' path) := by
  have hf : ∀ r ∈ anyDirectories :: closed directoryOnly (parts (tokens body)),
      r.isStartFree = true := List.forall_mem_cons.2 ⟨rfl, isStartFree_closed _ _⟩
  have hn := areNames_pieces h
  have hp := pieces_ne_nil '/' path
  have hj : path = joinPieces '/' (pieces '/' path) := (joinPieces_pieces '/' path).symm
  rw [search_start_iff hf, hj, found_anyDirectories_iff hn hp, ← hj,
    covers_globstar_iff (pieces_ne_nil '/' body) hp]
  constructor
  · intro h
    obtain ⟨skipped, left, he, hl, hm⟩ := h
    have hn := (he ▸ hn).right
    exact ⟨skipped, left, he, hl, (found_body_iff directoryOnly hb hn hl).1 hm⟩
  · intro h
    obtain ⟨skipped, left, he, hl, hm⟩ := h
    have hn := (he ▸ hn).right
    exact ⟨skipped, left, he, hl, (found_body_iff directoryOnly hb hn hl).2 hm⟩

theorem search_anchored_iff :
    (concat (.start :: closed directoryOnly (parts (tokens body)))).search path = true ↔
      Covers directoryOnly (pieces '/' body) (pieces '/' path) := by
  have hj : path = joinPieces '/' (pieces '/' path) := (joinPieces_pieces '/' path).symm
  rw [search_start_iff (isStartFree_closed _ _), hj,
    found_body_iff directoryOnly hb (areNames_pieces h) (pieces_ne_nil '/' path), ← hj]

theorem search_floating_iff :
    (concat (.alt .start .slash :: closed directoryOnly (parts (tokens body)))).search path =
        true ↔
      ∃ above names below, pieces '/' path = above ++ names ++ below ∧
        Spells (pieces '/' body) names ∧ (directoryOnly = true → names ≠ [] ∧ below ≠ []) := by
  have hn := areNames_pieces h
  have hp := pieces_ne_nil '/' path
  have hj : path = joinPieces '/' (pieces '/' path) := (joinPieces_pieces '/' path).symm
  rw [Regex.slash, search_start_or_char_iff (isStartFree_closed _ _),
    ← exists_covers_iff (pieces_ne_nil '/' body) hp]
  constructor
  · intro h
    rcases h with hm | ⟨front, back, he, hm⟩
    · rw [hj] at hm
      exact ⟨[], _, rfl, hp, (found_body_iff directoryOnly hb hn hp).1 hm⟩
    · obtain ⟨above, left, ha, -, hl, -, rfl⟩ :=
        (joinPieces_eq_append_iff hn.slashFree).1 (hj.symm.trans he)
      have hn := (ha ▸ hn).right
      exact ⟨above, left, ha, hl, (found_body_iff directoryOnly hb hn hl).1 hm⟩
  · intro h
    obtain ⟨above, left, ha, hl, hm⟩ := h
    have hm := (found_body_iff directoryOnly hb (ha ▸ hn).right hl).2 hm
    by_cases hs : above = []
    · subst hs
      rw [List.nil_append] at ha
      exact .inl (hj ▸ ha ▸ hm)
    · have he := (joinPieces_eq_append_iff hn.slashFree).2 ⟨above, left, ha, hs, hl, rfl, rfl⟩
      exact .inr ⟨_, _, hj.trans he, hm⟩

end Searches

theorem regex_eq (g : Glob) :
    g.regex = concat (g.opening ++ closed g.directoryOnly g.parts) := by
  rw [Glob.regex, closed, List.append_assoc]
  rfl

theorem dropFirst_isSuffix (c : Char) (cs : List Char) : dropFirst c cs <:+ cs := by
  unfold dropFirst
  split
  · exact List.drop_suffix 1 cs
  · exact List.suffix_refl cs

theorem dropLast_isPrefix (c : Char) (cs : List Char) : dropLast c cs <+: cs := by
  unfold dropLast
  split
  · exact List.dropLast_prefix cs
  · exact List.prefix_refl cs

theorem not_mem_dropFirst {c d : Char} {cs : List Char} (h : d ∉ cs) : d ∉ dropFirst c cs :=
  fun hd => h ((dropFirst_isSuffix c cs).subset hd)

theorem not_mem_dropLast {c d : Char} {cs : List Char} (h : d ∉ cs) : d ∉ dropLast c cs :=
  fun hd => h ((dropLast_isPrefix c cs).subset hd)

theorem selects_iff_covers {o : Outline} (h : o.rooted = true ∨ 1 < o.segments.length)
    (path : List Char) :
    o.Selects path ↔ Covers o.directoryOnly o.segments (pieces '/' path) := by
  constructor
  · intro h
    obtain ⟨above, names, below, he, hn, ha, hd⟩ := h
    rw [ha h, List.nil_append] at he
    exact ⟨names, below, he, hn, hd⟩
  · intro h
    obtain ⟨names, below, he, hn, hd⟩ := h
    exact ⟨[], names, below, he, hn, fun _ => rfl, hd⟩

theorem one_lt_length_pieces_iff {body : List Char} :
    1 < (pieces '/' body).length ↔ '/' ∈ body := by
  have hpos := List.length_pos_of_ne_nil (pieces_ne_nil '/' body)
  have hone := @length_pieces_eq_one_iff '/' body
  constructor
  · intro h
    by_contra hc
    have := hone.2 hc
    omega
  · intro h
    have : (pieces '/' body).length ≠ 1 := fun he => hone.1 he h
    omega

/-- The expression of a pattern finds a match in the paths that its outline selects. -/
theorem search_ofText_iff {text path : List Char} (hn : '\x00' ∉ text) (h : IsRelativePath path)
    (negated : Bool) :
    (Glob.ofText text).regex.search path = true ↔ (Outline.ofBody negated text).Selects path := by
  have hb : '\x00' ∉ dropLast '/' (dropFirst '/' text) := not_mem_dropLast (not_mem_dropFirst hn)
  rw [regex_eq]
  by_cases hdeep : "**/".toList.isPrefixOf (dropLast '/' (dropFirst '/' text)) = true
  · obtain ⟨body, he⟩ := List.isPrefixOf_iff_prefix.1 hdeep
    have hs : '/' ∉ globstarSegment := by simp [globstarSegment]
    have hp : pieces '/' (dropLast '/' (dropFirst '/' text)) =
        globstarSegment :: pieces '/' body := he ▸ pieces_append hs body
    have hd : (dropLast '/' (dropFirst '/' text)).drop 3 = body :=
      he ▸ List.drop_left' (by decide)
    have hlen : 1 < (Outline.ofBody negated text).segments.length := by
      simp [Outline.ofBody, hp, List.length_pos_iff, pieces_ne_nil]
    rw [selects_iff_covers (.inr hlen)]
    simp only [Glob.ofText, Glob.opening, Outline.ofBody, hdeep, if_true, hd, hp]
    exact search_deep_iff (fun hc => hb (he ▸ List.mem_append_right _ hc)) h
  · simp only [Glob.ofText, Glob.opening, hdeep, Bool.false_eq_true, if_false, Bool.not_false,
      Bool.true_and]
    by_cases hanchor : text.head? = some '/' ∨ '/' ∈ dropLast '/' (dropFirst '/' text)
    · have hroot : (Outline.ofBody negated text).rooted = true ∨
          1 < (Outline.ofBody negated text).segments.length := by
        simpa [Outline.ofBody, one_lt_length_pieces_iff] using hanchor
      rw [selects_iff_covers hroot, if_pos (by simpa using hanchor)]
      exact search_anchored_iff hb h
    · have hfloat : ¬((Outline.ofBody negated text).rooted = true ∨
          1 < (Outline.ofBody negated text).segments.length) := by
        simpa [Outline.ofBody, one_lt_length_pieces_iff] using hanchor
      rw [if_neg (by simpa using hanchor)]
      refine (search_floating_iff hb h).trans ?_
      simp only [Outline.Selects, hfloat, false_implies, true_and]
      rfl

end FileSieve.Pattern

namespace FileSieve

open Pattern

theorem trim_isInfix (s : String) : (Text.trim s).toList <:+: s.toList := by
  rw [Text.trim, String.toList_ofList, Text.dropBothWhile, Text.dropEndWhile]
  refine .trans (List.IsPrefix.isInfix ?_) (List.dropWhile_suffix Text.isBlank).isInfix
  exact List.reverse_suffix.1 (by simpa using List.dropWhile_suffix Text.isBlank)

theorem unescapeBang_isSuffix (text : List Char) : unescapeBang text <:+ text := by
  unfold unescapeBang
  split
  · exact List.suffix_cons _ _
  · exact List.suffix_refl _

theorem mem_of_mem_trim {s : String} {c : Char} (h : c ∈ (Text.trim s).toList) : c ∈ s.toList :=
  (trim_isInfix s).subset h

theorem not_mem_unescapeBang {c : Char} {text : List Char} (h : c ∉ text) :
    c ∉ unescapeBang text :=
  fun hc => h ((unescapeBang_isSuffix text).subset hc)

/-- The pattern of a line without its sign. -/
def unsignedText (s : String) : List Char :=
  unescapeBang (dropFirst '!' (Text.trim s).toList)

theorem unsignedText_isInfix (s : String) : unsignedText s <:+: s.toList :=
  ((unescapeBang_isSuffix _).trans (dropFirst_isSuffix '!' _)).isInfix.trans (trim_isInfix s)

theorem outline_ofText (s : String) :
    Outline.ofText s = Outline.ofBody ((Text.trim s).toList.head? = some '!') (unsignedText s) :=
  rfl

theorem eq_of_ofText_eq_pattern {s : String} {negated : Bool} {text : List Char}
    (h : Line.ofText s = .pattern negated text) :
    negated = (Outline.ofText s).negated ∧ text = unsignedText s := by
  rw [outline_ofText, Outline.ofBody, unsignedText]
  unfold Line.ofText at h
  cases ht : (Text.trim s).toList with
  | nil => simp [ht] at h
  | cons c rest =>
    have hd : dropFirst '!' (c :: rest) = if c = '!' then rest else c :: rest := by
      simp [dropFirst]
    rw [hd]
    by_cases hc : c = '#'
    · simp [ht, hc] at h
    · by_cases hb : c = '!'
      · subst hb
        simp only [ht, hc, if_false, decide_true, if_true] at h
        split at h
        · cases h
        · cases h
          simp
      · simp only [ht, hc, hb, decide_false, if_false] at h
        split at h
        · cases h
        · cases h
          simp [hb]

theorem eq_ofPattern_of_ofLine? {s : String} {rule : Rule} (h : Rule.ofLine? s = some rule) :
    rule = Rule.ofPattern s (Outline.ofText s).negated (unsignedText s) := by
  unfold Rule.ofLine? at h
  split at h
  · next negated text hl =>
    obtain ⟨hn, ht⟩ := eq_of_ofText_eq_pattern hl
    rw [← hn, ← ht]
    exact (Option.some.inj h).symm
  · cases h

theorem ofPattern_negated (line : String) (negated : Bool) (text : List Char) :
    (Rule.ofPattern line negated text).negated = negated := rfl

theorem ofPattern_accepts (line : String) (negated : Bool) (text path : List Char) :
    (Rule.ofPattern line negated text).accepts path = (Glob.ofText text).regex.search path := rfl

/-- A rule takes the sign of its line and accepts the paths that the outline of the line selects. -/
theorem accepts_iff_selects {s : String} {rule : Rule} (hr : Rule.ofLine? s = some rule)
    (hs : '\x00' ∉ s.toList) {path : List Char} (hp : IsRelativePath path) :
    rule.negated = (Outline.ofText s).negated ∧
      (rule.accepts path = true ↔ (Outline.ofText s).Selects path) := by
  have hn : '\x00' ∉ unsignedText s :=
    not_mem_unescapeBang (not_mem_dropFirst fun hc => hs (mem_of_mem_trim hc))
  have he := eq_ofPattern_of_ofLine? hr
  rw [he, ofPattern_negated, ofPattern_accepts, outline_ofText]
  exact ⟨rfl, search_ofText_iff hn hp _⟩

theorem accepts_iff_selects_sources :
    let rule := Rule.ofPattern "!src/**/*.txt/" true "src/**/*.txt/".toList
    Rule.ofLine? "!src/**/*.txt/" = some rule ∧ '\x00' ∉ "!src/**/*.txt/".toList ∧
      IsRelativePath "src/a/b.txt/".toList ∧
      rule.negated = (Outline.ofText "!src/**/*.txt/").negated ∧
      (rule.accepts "src/a/b.txt/".toList = true ↔
        (Outline.ofText "!src/**/*.txt/").Selects "src/a/b.txt/".toList) := by
  have hr : Rule.ofLine? "!src/**/*.txt/" =
      some (Rule.ofPattern "!src/**/*.txt/" true "src/**/*.txt/".toList) := by decide +kernel
  have hp : IsRelativePath "src/a/b.txt/".toList := ⟨by decide, by decide, by decide⟩
  exact ⟨hr, by decide, hp, accepts_iff_selects hr (by decide) hp⟩

end FileSieve
