import FileSieve.Proofs.Rule.Depth

/-! # Rules beneath a directory

A rule that accepts a directory accepts every path beneath it. Where the expression of the rule
matches up to the slash of the directory, what comes later does not disturb it, unless the match has
to end there. But then it ends with stars that took nothing, and these can take the name behind the
slash, or with a globstar, which takes all there is. So without negated rules a path is ignored only
on its own account. -/

namespace FileSieve

open Text

namespace Regex

/-- The expression does not ask for the end of the path. -/
def isFinishFree : Regex → Bool
  | finish => false
  | cat r s => r.isFinishFree && s.isFinishFree
  | alt r s => r.isFinishFree && s.isFinishFree
  | opt r => r.isFinishFree
  | _ => true

/-- Text behind it does not disturb a match that does not ask for the end of the path. -/
theorem Matches.append {r : Regex} {b : Bool} {cs rest : List Char} (h : Matches r b cs rest)
    (hr : r.isFinishFree = true) (more : List Char) :
    Matches r b (cs ++ more) (rest ++ more) := by
  induction h with
  | empty => exact .empty
  | start => exact .start
  | finish => cases hr
  | one h => exact .one h
  | starNil => exact .starNil
  | starCons h _ ih => exact .starCons h (ih hr)
  | plus h _ ih => exact .plus h (ih rfl)
  | @cat _ _ _ cs mid _ _ _ ih₁ ih₂ =>
    rw [isFinishFree, Bool.and_eq_true] at hr
    have hlength : ((mid ++ more).length == (cs ++ more).length) = (mid.length == cs.length) := by
      rw [Bool.eq_iff_iff]
      simp
    exact .cat (ih₁ hr.1) (hlength ▸ ih₂ hr.2)
  | altLeft _ ih =>
    rw [isFinishFree, Bool.and_eq_true] at hr
    exact .altLeft (ih hr.1)
  | altRight _ ih =>
    rw [isFinishFree, Bool.and_eq_true] at hr
    exact .altRight (ih hr.2)
  | optNil => exact .optNil
  | optSome _ ih => exact .optSome (ih hr)

end Regex

namespace Pattern

open Regex

/-! ### Texts that stop at a slash -/

/-- The text is empty or ends with a slash: what comes next is a new name. -/
def StopsAtSlash (cs : List Char) : Prop :=
  ∀ c ∈ cs.getLast?, c = '/'

theorem stopsAtSlash_concat (front : List Char) : StopsAtSlash (front ++ ['/']) := by
  simp [StopsAtSlash]

theorem StopsAtSlash.of_suffix {cs rest : List Char} (h : StopsAtSlash cs) (hs : rest <:+ cs) :
    StopsAtSlash rest := by
  obtain ⟨front, rfl⟩ := hs
  intro c hc
  exact h c (by simp [List.getLast?_append, Option.mem_def.1 hc])

theorem StopsAtSlash.eq_nil {cs : List Char} (h : StopsAtSlash cs) (hs : '/' ∉ cs) : cs = [] := by
  by_contra hne
  have hlast := List.getLast?_eq_some_getLast hne
  exact hs (h _ hlast ▸ List.getLast_mem hne)

/-! ### What goes on behind the slash -/

/-- What the expressions find in a text that stops at a slash, they find when the text goes on. -/
def GoesOn (rs : List Regex) : Prop :=
  ∀ cs more, StopsAtSlash cs → '\n' ∉ more → Found rs cs → Found rs (cs ++ more)

/-- Expressions that take up at the end of a name: they go on behind a slash, and what they find at
the end of the path they find before a slash as well. -/
structure GoesOnAfterName (rs : List Regex) : Prop where
  atEnd : ∀ more, '\n' ∉ more → Found rs [] → Found rs ('/' :: more)
  inside : ∀ cs more, cs ≠ [] → StopsAtSlash cs → '\n' ∉ more → Found rs cs → Found rs (cs ++ more)

theorem goesOn_nil : GoesOn [] := fun _ _ _ _ _ => found_nil _

theorem GoesOn.cons {r : Regex} {rs : List Regex} (h : GoesOn rs) (hr : r.isFinishFree = true) :
    GoesOn (r :: rs) := by
  intro cs more hcs hmore hf
  obtain ⟨mid, hm, hf⟩ := found_cons_iff.1 hf
  exact found_cons_iff.2
    ⟨mid ++ more, hm.append hr more, h mid more (hcs.of_suffix hm.isSuffix) hmore hf⟩

/-- An expression that takes a slash first stands for a new name. -/
theorem GoesOn.afterName {r : Regex} {rs : List Regex} (h : GoesOn rs) (hr : r.isFinishFree = true)
    (hn : ∀ rest, ¬Matches r false [] rest) : GoesOnAfterName (r :: rs) where
  atEnd _ _ hf := by
    obtain ⟨mid, hm, -⟩ := found_cons_iff.1 hf
    exact absurd hm (hn mid)
  inside cs more _ := h.cons hr cs more

/-- A segment that fits the empty name begins with a star, which takes any name. -/
theorem fits_of_fits_nil {segment : List Char} (hne : segment ≠ []) (h : Fits segment [])
    (name : List Char) : Fits segment name := by
  obtain ⟨c, rest, rfl⟩ := List.exists_cons_of_ne_nil hne
  have hstars := fits_empty_iff.1 h
  rw [List.forall_mem_cons] at hstars
  obtain ⟨rfl, hrest⟩ := hstars
  exact fits_star_iff.2 ⟨name, [], (List.append_nil name).symm, fits_empty_iff.2 hrest⟩

theorem GoesOnAfterName.segment {segment : List Char} {rs : List Regex} (h : GoesOnAfterName rs)
    (hne : segment ≠ []) (hs : '/' ∉ segment) :
    GoesOn ((segment.map Part.ofChar).map Part.regex ++ rs) := by
  intro cs more hcs hmore hfound
  obtain ⟨run, rest, rfl, hrun, hfits, hf⟩ := (found_segment_iff hs).1 hfound
  by_cases hrest : rest = []
  · -- The segment ended where the text did, so it took nothing and can take the next name instead.
    subst hrest
    rw [List.append_nil] at hcs ⊢
    obtain rfl := hcs.eq_nil hrun
    obtain ⟨name, names, hp⟩ := List.exists_cons_of_ne_nil (pieces_ne_nil '/' more)
    have hj : more = joinPieces '/' (name :: names) := by rw [← hp, joinPieces_pieces]
    have hname : '/' ∉ name := not_mem_of_mem_pieces (hp ▸ List.mem_cons_self)
    have hfits := fits_of_fits_nil hne hfits name
    by_cases hn : names = []
    · refine (found_segment_iff hs).2 ⟨name, [], ?_, hname, hfits, hf⟩
      simpa [hn, joinPieces] using hj
    · rw [joinPieces_cons name hn] at hj
      have hbelow : '\n' ∉ joinPieces '/' names := fun hm => hmore (by simp [hj, hm])
      exact (found_segment_iff hs).2 ⟨name, _, hj, hname, hfits, h.atEnd _ hbelow hf⟩
  · refine (found_segment_iff hs).2 ⟨run, rest ++ more, List.append_assoc .., hrun, hfits, ?_⟩
    exact h.inside rest more hrest (hcs.of_suffix (List.suffix_append run rest)) hmore hf

/-! ### The parts of a body -/

theorem goesOnAfterName_nil (directoryOnly : Bool) :
    GoesOnAfterName (closed directoryOnly []) := by
  have hclosed : closed directoryOnly [] = ending directoryOnly [] := rfl
  rw [hclosed]
  refine ⟨fun more _ _ => found_ending_nil_iff.2 (.inr ⟨more, rfl⟩), ?_⟩
  intro cs more hne hcs _ hf
  refine found_ending_nil_iff.2 (.inr ?_)
  rcases found_ending_nil_iff.1 hf with ⟨-, rfl | rfl⟩ | ⟨rest, rfl⟩
  · exact absurd rfl hne
  · exact absurd (hcs '\n' rfl) (by decide)
  · exact ⟨rest ++ more, rfl⟩

theorem matches_trailing_iff {cs rest : List Char} :
    Matches Part.trailing.regex false cs rest ↔
      rest = cs ∨ ∃ run, cs = '/' :: (run ++ rest) ∧ '\n' ∉ run := by
  have hrun (run : List Char) : (∀ c ∈ run, CharClass.inLine.holds c = true) ↔ '\n' ∉ run := by
    simp only [CharClass.holds, bne_iff_ne]
    exact ⟨fun h hm => h _ hm rfl, fun h c hc he => h (he ▸ hc)⟩
  simp only [Part.regex, matches_opt_iff, matches_cat_iff, Bool.false_and, Regex.slash,
    matches_char_iff, matches_star_iff_append, hrun]
  constructor
  · rintro (h | ⟨_, rfl, run, rfl, hn⟩)
    · exact .inl h
    · exact .inr ⟨run, rfl, hn⟩
  · rintro (h | ⟨run, rfl, hn⟩)
    · exact .inl h
    · exact .inr ⟨_, rfl, run, rfl, hn⟩

/-- A globstar at the end takes whatever comes, to the end of the path or to its last slash. -/
theorem goesOnAfterName_trailing (directoryOnly : Bool) :
    GoesOnAfterName (closed directoryOnly [.trailing]) := by
  cases directoryOnly with
  | true =>
    have hclosed : closed true [.trailing] = [Part.trailing.regex, Regex.slash] := rfl
    have hslash : GoesOn [Regex.slash] := goesOn_nil.cons rfl
    rw [hclosed]
    refine ⟨?_, fun cs more _ => hslash.cons rfl cs more⟩
    intro more _ hf
    simp only [found_cons_iff, matches_trailing_iff, Regex.slash, matches_char_iff] at hf
    obtain ⟨_, rfl | ⟨run, hn, -⟩, _, hs, -⟩ := hf
    · cases hs
    · cases hn
  | false =>
    have hclosed : closed false [.trailing] = [Part.trailing.regex, .finish] := rfl
    have hfinish {run : List Char} (hn : '\n' ∉ run) :
        Found [Part.trailing.regex, .finish] ('/' :: run) := by
      refine found_cons_iff.2 ⟨[], matches_trailing_iff.2 (.inr ⟨run, by simp, hn⟩), ?_⟩
      exact found_cons_iff.2 ⟨[], matches_finish_iff.2 ⟨rfl, rfl⟩, found_nil []⟩
    rw [hclosed]
    refine ⟨fun more hmore _ => hfinish hmore, ?_⟩
    intro cs more hne hcs hmore hf
    simp only [found_cons_iff, matches_finish_iff, atFinish_iff] at hf
    obtain ⟨mid, hm, _, ⟨hend, -⟩, -⟩ := hf
    -- Before the end of the path only a line feed could be left, but here a slash comes last.
    have hmid : mid = [] := by
      have hstop : StopsAtSlash mid := hcs.of_suffix hm.isSuffix
      rcases hend with rfl | rfl
      · rfl
      · exact absurd (hstop '\n' rfl) (by decide)
    subst hmid
    rcases matches_trailing_iff.1 hm with rfl | ⟨run, rfl, hn⟩
    · exact absurd rfl hne
    · rw [List.append_nil, List.cons_append]
      exact hfinish (by simp [hn, hmore])

section Bodies

variable {segments : List (List Char)} (directoryOnly : Bool)
  (h : ∀ segment ∈ segments, segment ≠ [] ∧ '/' ∉ segment)

include h

theorem goesOnAfterName_tailParts :
    GoesOnAfterName (closed directoryOnly (tailParts segments)) := by
  have hslash {rs : List Regex} (hrs : GoesOn rs) : GoesOnAfterName (Regex.slash :: rs) :=
    hrs.afterName rfl fun rest hm => by simp [Regex.slash, matches_char_iff] at hm
  have hbetween {rs : List Regex} (hrs : GoesOn rs) : GoesOnAfterName (Part.between.regex :: rs) :=
    hrs.afterName rfl fun rest hm => by
      simp [Part.regex, Regex.concat, Regex.slash, matches_alt_iff, matches_cat_iff,
        matches_char_iff] at hm
  induction segments using tailParts.induct with
  | case1 => exact goesOnAfterName_nil directoryOnly
  | case2 => exact goesOnAfterName_trailing directoryOnly
  | case3 segment hg =>
    rw [List.forall_mem_cons] at h
    have ht : tailParts [segment] = .slash :: (segment.map Part.ofChar ++ []) := by
      simp [tailParts, hg]
    rw [ht, closed_cons _ (by simp) (by simp), closed_append _ (ofChar_ne segment)]
    exact hslash ((goesOnAfterName_nil directoryOnly).segment h.1.1 h.1.2)
  | case4 next rest ih =>
    simp only [List.forall_mem_cons] at h
    rw [tailParts, if_pos rfl, closed_cons _ (by simp) (by simp), closed_append _ (ofChar_ne next)]
    exact hbetween ((ih h.2.2).segment h.2.1.1 h.2.1.2)
  | case5 segment next rest hg ih =>
    rw [List.forall_mem_cons] at h
    rw [tailParts, if_neg hg, closed_cons _ (by simp) (by simp),
      closed_append _ (ofChar_ne segment)]
    exact hslash ((ih h.2).segment h.1.1 h.1.2)

theorem goesOn_bodyParts (hne : segments ≠ []) :
    GoesOn (closed directoryOnly (bodyParts segments)) := by
  obtain ⟨segment, rest, rfl⟩ := List.exists_cons_of_ne_nil hne
  obtain ⟨hsegment, hrest⟩ := List.forall_mem_cons.1 h
  by_cases hg : segment = globstarSegment
  · subst hg
    cases rest with
    | nil =>
      cases directoryOnly with
      | true => exact (goesOn_nil.cons rfl).cons rfl
      | false => exact goesOn_nil.cons rfl
    | cons next rest =>
      obtain ⟨hnext, hrest⟩ := List.forall_mem_cons.1 hrest
      rw [bodyParts, if_pos rfl, closed_cons _ (by simp) (by simp),
        closed_append _ (ofChar_ne next)]
      exact ((goesOnAfterName_tailParts directoryOnly hrest).segment hnext.1 hnext.2).cons rfl
  · have hb : bodyParts (segment :: rest) = segment.map Part.ofChar ++ tailParts rest := by
      cases rest <;> simp [bodyParts, tailParts, hg]
    rw [hb, closed_append _ (ofChar_ne segment)]
    exact (goesOnAfterName_tailParts directoryOnly hrest).segment hsegment.1 hsegment.2

end Bodies

/-! ### Patterns without doubled slashes -/

/-- Wherever an expression begins, what its parts find goes on behind a slash. -/
theorem search_of_goesOn {g : Glob} (h : GoesOn (closed g.directoryOnly g.parts))
    {directory more : List Char} (hmore : '\n' ∉ more)
    (hd : g.regex.search (directory ++ ['/']) = true) :
    g.regex.search (directory ++ '/' :: more) = true := by
  have hfree := isStartFree_closed g.directoryOnly g.parts
  have hpath : directory ++ '/' :: more = (directory ++ ['/']) ++ more := by simp
  have hstop := stopsAtSlash_concat directory
  rw [regex_eq, Glob.opening] at hd ⊢
  rw [hpath]
  split_ifs at hd ⊢
  · have hdeep : ∀ r ∈ anyDirectories :: closed g.directoryOnly g.parts, r.isStartFree = true :=
      List.forall_mem_cons.2 ⟨rfl, hfree⟩
    exact (search_start_iff hdeep _).2
      (h.cons rfl _ more hstop hmore ((search_start_iff hdeep _).1 hd))
  · exact (search_start_iff hfree _).2 (h _ more hstop hmore ((search_start_iff hfree _).1 hd))
  · refine (search_start_or_char_iff hfree _).2 ?_
    rcases (search_start_or_char_iff hfree _).1 hd with hf | ⟨front, back, he, hf⟩
    · exact .inl (h _ more hstop hmore hf)
    · have hback : back <:+ directory ++ ['/'] := ⟨front ++ ['/'], by simp [he]⟩
      exact .inr ⟨front, back ++ more, by simp [he], h _ more (hstop.of_suffix hback) hmore hf⟩

/-- Between single slashes, none of them at an end, no piece is empty. -/
theorem ne_nil_of_mem_pieces {cs piece : List Char} (hne : cs ≠ []) (hfirst : cs.head? ≠ some '/')
    (hlast : cs.getLast? ≠ some '/') (hdouble : ¬['/', '/'] <:+: cs) (hp : piece ∈ pieces '/' cs) :
    piece ≠ [] := by
  rintro rfl
  obtain ⟨before, after, he⟩ := List.append_of_mem hp
  have hj : cs = joinPieces '/' (before ++ [] :: after) := by rw [← he, joinPieces_pieces]
  by_cases hb : before = []
  · by_cases ha : after = []
    · exact hne (by simpa [hb, ha, joinPieces] using hj)
    · rw [hb, List.nil_append, joinPieces_cons [] ha] at hj
      exact hfirst (by simp [hj])
  · rw [joinPieces_append hb (by simp)] at hj
    by_cases ha : after = []
    · exact hlast (by simp [hj, ha, joinPieces])
    · rw [joinPieces_cons [] ha] at hj
      exact hdouble ⟨joinPieces '/' before, joinPieces '/' after, by simp [hj]⟩

theorem dropFirst_cases (c : Char) (cs : List Char) :
    cs = c :: dropFirst c cs ∨ dropFirst c cs = cs ∧ cs.head? ≠ some c := by
  unfold dropFirst
  split
  · next h =>
    obtain ⟨rest, rfl⟩ := List.head?_eq_some_iff.1 h
    exact .inl rfl
  · next h => exact .inr ⟨rfl, h⟩

/-- The segments of a pattern without doubled slashes hold a character, unless there is nothing but
slashes in it. -/
theorem segment_ne_nil {text segment : List Char} (hdouble : ¬['/', '/'] <:+: text)
    (hall : ¬∀ c ∈ text, c = '/')
    (hs : segment ∈ pieces '/' (dropLast '/' (dropFirst '/' text))) : segment ≠ [] := by
  generalize hrest : dropFirst '/' text = rest at hs
  generalize hbody : dropLast '/' rest = body at hs
  have hfront : text = '/' :: rest ∨ rest = text ∧ text.head? ≠ some '/' :=
    hrest ▸ dropFirst_cases '/' text
  have hback : rest = body ++ ['/'] ∨ body = rest ∧ rest.getLast? ≠ some '/' :=
    hbody ▸ dropLast_cases '/' rest
  have hinside : rest <:+: text := hrest ▸ (dropFirst_isSuffix '/' text).isInfix
  have hwithin : body <+: rest := hbody ▸ dropLast_isPrefix '/' rest
  apply ne_nil_of_mem_pieces _ _ _ _ hs
  · rintro rfl
    apply hall
    rcases hfront with rfl | ⟨rfl, -⟩ <;> rcases hback with rfl | ⟨rfl, -⟩ <;> simp
  · intro hslash
    obtain ⟨more, rfl⟩ := List.head?_eq_some_iff.1 hslash
    obtain ⟨tail, rfl⟩ := hwithin
    rcases hfront with h | ⟨rfl, h⟩
    · exact hdouble ⟨[], more ++ tail, by simp [h]⟩
    · exact h rfl
  · intro hslash
    obtain ⟨front, rfl⟩ := List.getLast?_eq_some_iff.1 hslash
    rcases hback with h | ⟨rfl, h⟩
    · exact hdouble (.trans ⟨front, [], by simp [h]⟩ hinside)
    · exact h hslash
  · exact fun h => hdouble (h.trans (hwithin.isInfix.trans hinside))

/-- The parts of a pattern go on behind a slash if its segments hold a character each. -/
theorem goesOn_ofText {text : List Char} (hnul : '\x00' ∉ text)
    (h : ∀ segment ∈ pieces '/' (dropLast '/' (dropFirst '/' text)), segment ≠ []) :
    GoesOn (closed (Glob.ofText text).directoryOnly (Glob.ofText text).parts) := by
  have hb : '\x00' ∉ dropLast '/' (dropFirst '/' text) :=
    not_mem_dropLast (not_mem_dropFirst hnul)
  have hbody {body : List Char} (hb : '\x00' ∉ body) (h : ∀ segment ∈ pieces '/' body, segment ≠ [])
      (directoryOnly : Bool) : GoesOn (closed directoryOnly (parts (tokens body))) := by
    obtain ⟨segment, rest, hp⟩ := List.exists_cons_of_ne_nil (pieces_ne_nil '/' body)
    obtain ⟨more, hm⟩ := exists_mergeGlobstars_cons segment rest
    rw [parts_tokens hb]
    refine goesOn_bodyParts directoryOnly ?_ (by rw [hp, hm]; simp)
    intro segment hs
    have hs := mergeGlobstars_subset _ hs
    exact ⟨h segment hs, not_mem_of_mem_pieces hs⟩
  by_cases hdeep : "**/".toList.isPrefixOf (dropLast '/' (dropFirst '/' text)) = true
  · obtain ⟨body, he⟩ := List.isPrefixOf_iff_prefix.1 hdeep
    have hslash : '/' ∉ globstarSegment := by simp [globstarSegment]
    have hpieces : pieces '/' (dropLast '/' (dropFirst '/' text)) =
        globstarSegment :: pieces '/' body := he ▸ pieces_append hslash body
    have hdrop : (dropLast '/' (dropFirst '/' text)).drop 3 = body :=
      he ▸ List.drop_left' (by decide)
    rw [hpieces, List.forall_mem_cons] at h
    simp only [Glob.ofText, hdeep, if_true, hdrop]
    exact hbody (fun hc => hb (he ▸ List.mem_append_right _ hc)) h.2 _
  · simp only [Glob.ofText, hdeep, Bool.false_eq_true, if_false]
    exact hbody hb h _

end Pattern

open Pattern

/-! ### Rules -/

theorem not_all_slash_of_ofText {s : String} {negated : Bool} {text : List Char}
    (h : Line.ofText s = .pattern negated text) : ¬∀ c ∈ text, c = '/' := by
  unfold Line.ofText at h
  split at h
  · cases h
  · split at h
    · cases h
    · dsimp only at h
      generalize unescapeBang _ = unsigned at h
      split at h
      · cases h
      · next hall =>
        cases h
        simpa using hall

section Line

variable {s : String} {rule : Rule} (hr : Rule.ofLine? s = some rule)

include hr

theorem not_all_slash_of_ofLine? : ¬∀ c ∈ unsignedText s, c = '/' := by
  unfold Rule.ofLine? at hr
  split at hr
  · next negated text hl =>
    rw [← (eq_of_ofText_eq_pattern hl).2]
    exact not_all_slash_of_ofText hl
  · cases hr

theorem negated_of_ofLine? (hs : (trim s).toList.head? ≠ some '!') : rule.negated = false := by
  rw [eq_ofPattern_of_ofLine? hr, ofPattern_negated]
  simpa [outline_ofText, Outline.ofBody] using hs

/-- A rule that accepts a directory accepts every path beneath it, if no line feed stands there. -/
theorem accepts_beneath (hnul : '\x00' ∉ s.toList) (hdouble : ¬['/', '/'] <:+: s.toList)
    {directory more : List Char} (hmore : '\n' ∉ more)
    (h : rule.accepts (directory ++ ['/']) = true) :
    rule.accepts (directory ++ '/' :: more) = true := by
  have hinside := unsignedText_isInfix s
  have hsegments := fun segment => @segment_ne_nil (unsignedText s) segment
    (fun hd => hdouble (hd.trans hinside)) (not_all_slash_of_ofLine? hr)
  have hgoes := goesOn_ofText (fun hm => hnul (hinside.subset hm)) hsegments
  rw [eq_ofPattern_of_ofLine? hr, ofPattern_accepts] at h ⊢
  exact search_of_goesOn hgoes hmore h

end Line

/-- Without negated rules a path is ignored if a rule accepts it: a rule that accepts a directory
above the path accepts the path as well. -/
theorem isIgnored_iff_accepted {patterns : List String}
    (hplain : ∀ s ∈ patterns, (trim s).toList.head? ≠ some '!')
    (hdouble : ∀ s ∈ patterns, ¬['/', '/'] <:+: s.toList)
    (hnul : ∀ s ∈ patterns, '\x00' ∉ s.toList) {path : String} (hpath : '\n' ∉ path.toList) :
    (isIgnored (compileRules patterns) path = true ↔
      ∃ rule ∈ compileRules patterns, rule.accepts path.toList = true) ∧
    ∀ rule ∈ compileRules patterns, ∀ directory more, path.toList = directory ++ '/' :: more →
      rule.accepts (directory ++ ['/']) = true → rule.accepts path.toList = true := by
  have hbeneath : ∀ rule ∈ compileRules patterns, ∀ directory more,
      path.toList = directory ++ '/' :: more → rule.accepts (directory ++ ['/']) = true →
        rule.accepts path.toList = true := by
    intro rule hm directory more he ha
    obtain ⟨s, hs, hr⟩ := List.mem_filterMap.1 hm
    rw [he] at hpath ⊢
    exact accepts_beneath hr (hnul s hs) (hdouble s hs) (fun hc => hpath (by simp [hc])) ha
  have hsigns : ∀ rule ∈ compileRules patterns, PathRule.negated rule = false := by
    intro rule hm
    obtain ⟨s, hs, hr⟩ := List.mem_filterMap.1 hm
    exact negated_of_ofLine? hr (hplain s hs)
  refine ⟨?_, hbeneath⟩
  simp only [isIgnored_iff_excludes, excludes_iff_exists_accepts hsigns]
  constructor
  · rintro (ha | ⟨directory, habove, rule, hm, ha⟩)
    · exact ha
    · obtain ⟨more, he⟩ := habove.exists_rest
      exact ⟨rule, hm, hbeneath rule hm directory more he ha⟩
  · exact .inl

theorem isIgnored_iff_accepted_docs :
    let patterns := ["docs/*/**", "out/", "/a*"]
    (∀ s ∈ patterns, (trim s).toList.head? ≠ some '!') ∧
      (∀ s ∈ patterns, ¬['/', '/'] <:+: s.toList) ∧ (∀ s ∈ patterns, '\x00' ∉ s.toList) ∧
      '\n' ∉ "docs/api/v1/x.md".toList ∧
      (isIgnored (compileRules patterns) "docs/api/v1/x.md" = true ↔
        ∃ rule ∈ compileRules patterns, rule.accepts "docs/api/v1/x.md".toList = true) ∧
      ∀ rule ∈ compileRules patterns, ∀ directory more,
        "docs/api/v1/x.md".toList = directory ++ '/' :: more →
          rule.accepts (directory ++ ['/']) = true →
            rule.accepts "docs/api/v1/x.md".toList = true := by
  intro patterns
  have hplain : ∀ s ∈ patterns, (trim s).toList.head? ≠ some '!' := by
    simp [patterns, trim, dropBothWhile, dropEndWhile, isBlank]
  have hdouble : ∀ s ∈ patterns, ¬['/', '/'] <:+: s.toList := by decide +kernel
  have hnul : ∀ s ∈ patterns, '\x00' ∉ s.toList := by decide +kernel
  have hpath : '\n' ∉ "docs/api/v1/x.md".toList := by decide
  exact ⟨hplain, hdouble, hnul, hpath, isIgnored_iff_accepted hplain hdouble hnul hpath⟩

end FileSieve
