import FileSieve.Proofs.Pattern.Segments
import Mathlib.Data.List.Chain

/-! # The parts of a pattern by its segments

Parts are read off a sequence of tokens, in which a globstar and the slashes around it are taken
together. Without the null character that comes to a rule for each segment, given whether it is a
globstar and what stands around it. -/

namespace FileSieve.Pattern

/-- The part of one character of a segment. -/
def Part.ofChar (c : Char) : Part :=
  if c = '*' then star else if c = '?' then any else char c

/-- The parts of the segments after the first one, each with the slash before it. -/
def tailParts : List (List Char) → List Part
  | [] => []
  | [segment] =>
    if segment = globstarSegment then [.trailing] else .slash :: segment.map Part.ofChar
  | segment :: next :: rest =>
    if segment = globstarSegment then .between :: (next.map Part.ofChar ++ tailParts rest)
    else .slash :: (segment.map Part.ofChar ++ tailParts (next :: rest))

/-- The parts of all segments of a body. -/
def bodyParts : List (List Char) → List Part
  | [] => []
  | [segment] => if segment = globstarSegment then [.everything] else segment.map Part.ofChar
  | segment :: next :: rest =>
    if segment = globstarSegment then .leading :: (next.map Part.ofChar ++ tailParts rest)
    else segment.map Part.ofChar ++ tailParts (next :: rest)

/-- No globstar stands directly after another one. -/
def IsMerged (segments : List (List Char)) : Prop :=
  segments.IsChain fun a b => ¬(a = globstarSegment ∧ b = globstarSegment)

theorem IsMerged.tail {segment : List Char} {rest : List (List Char)}
    (h : IsMerged (segment :: rest)) : IsMerged rest := List.IsChain.tail h

theorem IsMerged.next_ne {next : List Char} {rest : List (List Char)}
    (h : IsMerged (globstarSegment :: next :: rest)) : next ≠ globstarSegment :=
  fun he => (List.isChain_cons_cons.1 h).1 ⟨rfl, he⟩

theorem exists_mergeGlobstars_cons (segment : List Char) (rest : List (List Char)) :
    ∃ more, mergeGlobstars (segment :: rest) = segment :: more := by
  induction rest generalizing segment with
  | nil => exact ⟨[], rfl⟩
  | cons next rest ih =>
    rw [mergeGlobstars]
    split
    · next h =>
      simp only [Bool.and_eq_true, decide_eq_true_eq] at h
      obtain ⟨more, hm⟩ := ih next
      exact ⟨more, by rw [hm, h.1, h.2]⟩
    · exact ⟨_, rfl⟩

theorem isMerged_mergeGlobstars (segments : List (List Char)) :
    IsMerged (mergeGlobstars segments) := by
  induction segments using mergeGlobstars.induct with
  | case1 => exact .nil
  | case2 segment => exact .singleton segment
  | case3 segment next rest hg ih => rwa [mergeGlobstars, if_pos hg]
  | case4 segment next rest hg ih =>
    rw [mergeGlobstars, if_neg hg]
    obtain ⟨more, hm⟩ := exists_mergeGlobstars_cons next rest
    rw [hm] at ih ⊢
    exact List.isChain_cons_cons.2 ⟨by simpa using hg, ih⟩

theorem mergeGlobstars_subset (segments : List (List Char)) :
    mergeGlobstars segments ⊆ segments := by
  induction segments using mergeGlobstars.induct with
  | case1 => exact List.Subset.refl _
  | case2 segment => exact List.Subset.refl _
  | case3 segment next rest hg ih =>
    rw [mergeGlobstars, if_pos hg]
    exact List.subset_cons_of_subset _ ih
  | case4 segment next rest hg ih =>
    rw [mergeGlobstars, if_neg hg]
    exact List.cons_subset_cons _ ih

/-! ### Tokens of a segment -/

theorem innerParts_append {segment : List Char} (h : '\x00' ∉ segment) (tokens : List Token) :
    innerParts (segment.map Token.ofChar ++ tokens) =
      segment.map Part.ofChar ++ innerParts tokens := by
  induction segment with
  | nil => rfl
  | cons c segment ih =>
    rw [List.mem_cons, not_or] at h
    have hc : c ≠ '\x00' := Ne.symm h.1
    by_cases hs : c = '*'
    · simp [Token.ofChar, Part.ofChar, hs, innerParts, ih h.2]
    · by_cases hq : c = '?'
      · simp [Token.ofChar, Part.ofChar, hq, innerParts, ih h.2]
      · simp [Token.ofChar, Part.ofChar, hs, hq, hc, innerParts, ih h.2]

theorem segmentTokens_of_ne {segment : List Char} (h : segment ≠ globstarSegment) :
    segmentTokens segment = segment.map Token.ofChar := if_neg h

theorem tokensOf_cons (segment : List Char) {rest : List (List Char)} (h : rest ≠ []) :
    tokensOf (segment :: rest) = segmentTokens segment ++ .slash :: tokensOf rest := by
  cases rest with
  | nil => exact absurd rfl h
  | cons next rest => rfl

theorem head?_tokensOf_ne_globstar {segment : List Char} (h : '\x00' ∉ segment)
    (hs : segment ≠ globstarSegment) (rest : List (List Char)) :
    (tokensOf (segment :: rest)).head? ≠ some .globstar := by
  have hc : ∀ c ∈ segment, Token.ofChar c ≠ .globstar := by
    intro c hc
    have hn : c ≠ '\x00' := fun he => h (he ▸ hc)
    unfold Token.ofChar
    split
    · simp
    · split <;> simp
  by_cases hr : rest = []
  · subst hr
    rw [tokensOf, segmentTokens_of_ne hs]
    cases segment with
    | nil => simp
    | cons c segment => simpa using hc c List.mem_cons_self
  · rw [tokensOf_cons segment hr, segmentTokens_of_ne hs]
    cases segment with
    | nil => simp
    | cons c segment => simpa using hc c List.mem_cons_self

/-! ### Parts of several segments -/

theorem innerParts_tokensOf_cons {segment : List Char} {rest : List (List Char)}
    (h : '\x00' ∉ segment) (hs : segment ≠ globstarSegment)
    (ih : rest ≠ [] → innerParts (.slash :: tokensOf rest) = tailParts rest) :
    innerParts (tokensOf (segment :: rest)) = segment.map Part.ofChar ++ tailParts rest := by
  by_cases hr : rest = []
  · subst hr
    have := innerParts_append h []
    rw [List.append_nil] at this
    rw [tokensOf, segmentTokens_of_ne hs, this, innerParts, tailParts]
  · rw [tokensOf_cons segment hr, segmentTokens_of_ne hs, innerParts_append h, ih hr]

theorem innerParts_slash {tokens : List Token} (h : tokens.head? ≠ some .globstar) :
    innerParts (.slash :: tokens) = .slash :: innerParts tokens := by
  cases tokens with
  | nil => rfl
  | cons token rest => cases token <;> simp_all [innerParts]

theorem innerParts_slash_tokensOf {segments : List (List Char)} (hne : segments ≠ [])
    (hn : ∀ segment ∈ segments, '\x00' ∉ segment) (hm : IsMerged segments) :
    innerParts (.slash :: tokensOf segments) = tailParts segments := by
  induction segments using tailParts.induct with
  | case1 => exact absurd rfl hne
  | case2 => rfl
  | case3 segment hs =>
    rw [List.forall_mem_cons] at hn
    rw [innerParts_slash (head?_tokensOf_ne_globstar hn.1 hs []),
      innerParts_tokensOf_cons hn.1 hs (fun h => absurd rfl h)]
    simp [tailParts, hs]
  | case4 next rest ih =>
    simp only [List.forall_mem_cons] at hn
    have hg : next ≠ globstarSegment := hm.next_ne
    have hi : innerParts (tokensOf (next :: rest)) = next.map Part.ofChar ++ tailParts rest :=
      innerParts_tokensOf_cons hn.2.1 hg fun h => ih h hn.2.2 hm.tail.tail
    rw [tailParts, if_pos rfl, ← hi]
    rfl
  | case5 segment next rest hs ih =>
    rw [List.forall_mem_cons] at hn
    rw [innerParts_slash (head?_tokensOf_ne_globstar hn.1 hs _),
      innerParts_tokensOf_cons hn.1 hs (fun h => ih h hn.2 hm.tail), tailParts, if_neg hs]

theorem parts_of_head?_ne {tokens : List Token} (h : tokens.head? ≠ some .globstar) :
    parts tokens = innerParts tokens := by
  cases tokens with
  | nil => rfl
  | cons token rest => cases token <;> simp_all [parts]

theorem parts_globstar_slash {tokens : List Token} (h : tokens.head? ≠ some .globstar) :
    parts (.globstar :: .slash :: tokens) = .leading :: innerParts tokens := by
  cases tokens with
  | nil => rfl
  | cons token rest => cases token <;> simp_all [parts]

/-- The parts of a body are those of its segments, once runs of globstars are merged. -/
theorem parts_tokensOf {segments : List (List Char)} (hne : segments ≠ [])
    (hn : ∀ segment ∈ segments, '\x00' ∉ segment) (hm : IsMerged segments) :
    parts (tokensOf segments) = bodyParts segments := by
  cases segments with
  | nil => exact absurd rfl hne
  | cons segment rest =>
    rw [List.forall_mem_cons] at hn
    by_cases hs : segment = globstarSegment
    · subst hs
      cases rest with
      | nil => rfl
      | cons next rest =>
        have hn := List.forall_mem_cons.1 hn.2
        have hg : next ≠ globstarSegment := hm.next_ne
        have hp := parts_globstar_slash (head?_tokensOf_ne_globstar hn.1 hg rest)
        rw [bodyParts, if_pos rfl, ← innerParts_tokensOf_cons hn.1 hg fun hr =>
          innerParts_slash_tokensOf hr hn.2 hm.tail.tail]
        exact hp
    · rw [parts_of_head?_ne (head?_tokensOf_ne_globstar hn.1 hs rest),
        innerParts_tokensOf_cons hn.1 hs fun hr => innerParts_slash_tokensOf hr hn.2 hm.tail]
      cases rest <;> simp [bodyParts, tailParts, hs]

end FileSieve.Pattern
