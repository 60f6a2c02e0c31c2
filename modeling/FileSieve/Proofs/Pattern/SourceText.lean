import FileSieve.Pattern.SourceText
import FileSieve.Proofs.Pattern.Translation
import FileSieve.Proofs.Regex.Writing

/-! # The text of a pattern's expression

Marks for globstars are replaced in a text that also holds what stands for other characters, slashes
and brackets among it. A mark is told apart from all of that, and a slash beside a mark is one of
the pattern. So the text comes out as the expression of the pattern is written. -/

namespace FileSieve.Pattern

/-! ### Tokens in marked texts -/

theorem source_only_cases (c : Char) :
    (CharClass.only c).source = ['\\', c] ∨ (CharClass.only c).source = [c] := by
  cases h : isMetacharacter c with
  | true => exact .inl (if_pos h)
  | false => exact .inr (if_neg (by simp [h]))

theorem source_only_ne_nil (c : Char) : (CharClass.only c).source ≠ [] := by
  rcases source_only_cases c with h | h <;> simp [h]

/-- What stands for a token in a marked text. -/
def Token.text : Token → List Char
  | slash => ['/']
  | globstar => [mark]
  | star => "[^/]*".toList
  | any => "[^/]".toList
  | char c => (CharClass.only c).source

/-- The marked text of tokens. -/
def written (ts : List Token) : List Char :=
  ts.flatMap Token.text

/-- Slashes and marks among the tokens are told as such. -/
def IsPlainToken (t : Token) : Prop :=
  t ≠ .char '/' ∧ t ≠ .char mark

theorem isPlainToken_ofChar {c : Char} (h : c ≠ '/') : IsPlainToken (Token.ofChar c) := by
  unfold Token.ofChar IsPlainToken
  split
  · simp
  · split
    · simp
    · split
      · simp
      · next hm => simpa [mark] using ⟨h, hm⟩

theorem charText_eq (c : Char) : charText c = (Token.ofChar c).text := by
  unfold charText Token.ofChar
  split
  · rfl
  · split
    · rfl
    · split
      · next hm =>
        subst hm
        decide
      · rfl

theorem segmentText_eq (segment : List Char) :
    segmentText segment = written (segmentTokens segment) := by
  unfold segmentText segmentTokens
  split
  · rfl
  · rw [written, List.flatMap_map]
    exact congrArg (fun f => segment.flatMap f) (funext charText_eq)

theorem joinPieces_segmentText (segments : List (List Char)) :
    Text.joinPieces '/' (segments.map segmentText) = written (tokensOf segments) := by
  induction segments using tokensOf.induct with
  | case1 => rfl
  | case2 segment => exact segmentText_eq segment
  | case3 segment next rest ih =>
    rw [tokensOf, written, List.flatMap_append, List.flatMap_cons, ← written, ← written, ← ih,
      ← segmentText_eq]
    rfl

theorem markedText_eq (body : List Char) : markedText body = written (tokens body) :=
  joinPieces_segmentText _

theorem isPlainToken_of_mem_segmentTokens {segment : List Char} (h : '/' ∉ segment) :
    ∀ t ∈ segmentTokens segment, IsPlainToken t := by
  unfold segmentTokens
  split
  · simp [IsPlainToken]
  · intro t ht
    obtain ⟨c, hc, rfl⟩ := List.mem_map.1 ht
    exact isPlainToken_ofChar fun he => h (he ▸ hc)

theorem isPlainToken_of_mem_tokensOf {segments : List (List Char)}
    (h : ∀ segment ∈ segments, '/' ∉ segment) : ∀ t ∈ tokensOf segments, IsPlainToken t := by
  induction segments using tokensOf.induct with
  | case1 => exact fun t ht => absurd ht List.not_mem_nil
  | case2 segment => exact isPlainToken_of_mem_segmentTokens (h segment List.mem_cons_self)
  | case3 segment next rest ih =>
    obtain ⟨hsegment, hrest⟩ := List.forall_mem_cons.1 h
    intro t ht
    rw [tokensOf, List.mem_append, List.mem_cons] at ht
    rcases ht with ht | rfl | ht
    · exact isPlainToken_of_mem_segmentTokens hsegment t ht
    · simp [IsPlainToken]
    · exact ih hrest t ht

theorem isPlainToken_of_mem_tokens {body : List Char} : ∀ t ∈ tokens body, IsPlainToken t :=
  isPlainToken_of_mem_tokensOf fun _ h =>
    Text.not_mem_of_mem_pieces (mergeGlobstars_subset _ h)

/-! ### The text between marks -/

/-- A piece of a marked text that comes to a part of its own. -/
inductive Piece : List Char → Part → Prop
  | between : Piece "(?:/|/.+/)".toList .between
  | slash : Piece ['/'] .slash
  | mark : Piece [mark] .star
  | star : Piece "[^/]*".toList .star
  | any : Piece "[^/]".toList .any
  | char {c : Char} (hs : c ≠ '/') (hm : c ≠ Pattern.mark) :
      Piece (CharClass.only c).source (.char c)

/-- A marked text in which the marks between slashes have been replaced, with its parts. A mark
after a slash comes to a part together with it only at the end. -/
inductive Reads : List Char → List Part → Prop
  | nil : Reads [] []
  | trailing : Reads ['/', mark] [.trailing]
  | cons {piece text : List Char} {p : Part} {ps : List Part} (hp : Piece piece p)
      (hm : piece = ['/'] → text ≠ [mark]) (h : Reads text ps) : Reads (piece ++ text) (p :: ps)

theorem replaceBetween_between (text : List Char) :
    replaceBetween ('/' :: mark :: '/' :: text) = "(?:/|/.+/)".toList ++ replaceBetween text :=
  @Text.replace_append ['/', mark, '/'] _ (by simp) text

theorem replaceBetween_slash {text : List Char} (h : ¬[mark, '/'] <+: text) :
    replaceBetween ('/' :: text) = '/' :: replaceBetween text :=
  Text.replace_cons (by simpa using h)

theorem replaceBetween_cons {c : Char} (hc : c ≠ '/') (text : List Char) :
    replaceBetween (c :: text) = c :: replaceBetween text :=
  Text.replace_cons (by simp [Ne.symm hc])

theorem replaceBetween_slash_bracket (text : List Char) :
    replaceBetween ('/' :: ']' :: text) = '/' :: ']' :: replaceBetween text := by
  rw [replaceBetween_slash (by simp [mark]), replaceBetween_cons (by decide)]

/-- Between slashes nothing but a mark is replaced. -/
theorem replaceBetween_text {t : Token} (ht : IsPlainToken t) (hs : t ≠ .slash)
    (text : List Char) : replaceBetween (t.text ++ text) = t.text ++ replaceBetween text := by
  cases t with
  | slash => exact absurd rfl hs
  | globstar => exact replaceBetween_cons (by decide) text
  | star =>
    change replaceBetween ('[' :: '^' :: '/' :: ']' :: '*' :: text) = _
    rw [replaceBetween_cons (by decide), replaceBetween_cons (by decide),
      replaceBetween_slash_bracket, replaceBetween_cons (by decide)]
    rfl
  | any =>
    change replaceBetween ('[' :: '^' :: '/' :: ']' :: text) = _
    rw [replaceBetween_cons (by decide), replaceBetween_cons (by decide),
      replaceBetween_slash_bracket]
    rfl
  | char c =>
    have hc : c ≠ '/' := fun he => ht.1 (he ▸ rfl)
    change replaceBetween ((CharClass.only c).source ++ text) =
      (CharClass.only c).source ++ replaceBetween text
    rcases source_only_cases c with h | h
    · rw [h]
      exact (replaceBetween_cons (by decide) _).trans (congrArg _ (replaceBetween_cons hc text))
    · rw [h]
      exact replaceBetween_cons hc text

/-- The part that a token comes to on its own. -/
def Token.part : Token → Part
  | slash => .slash
  | globstar => .star
  | star => .star
  | any => .any
  | char c => .char c

theorem innerParts_cons {t : Token} (hs : t ≠ .slash) (ts : List Token) :
    innerParts (t :: ts) = t.part :: innerParts ts := by
  cases t <;> first | exact absurd rfl hs | rfl

theorem innerParts_slash_of_ne {ts : List Token} (he : ts ≠ [.globstar])
    (hb : ∀ rest, ts ≠ .globstar :: .slash :: rest) :
    innerParts (.slash :: ts) = .slash :: innerParts ts := by
  rw [innerParts]
  · exact he
  · exact hb

theorem Token.piece {t : Token} (ht : IsPlainToken t) (hs : t ≠ .slash) :
    Piece t.text t.part := by
  cases t with
  | slash => exact absurd rfl hs
  | globstar => exact .mark
  | star => exact .star
  | any => exact .any
  | char c => exact .char (fun he => ht.1 (he ▸ rfl)) fun he => ht.2 (he ▸ rfl)

theorem Token.text_ne_nil (t : Token) : t.text ≠ [] := by
  cases t with
  | char c => exact source_only_ne_nil c
  | _ => decide

/-- What a text of tokens begins with tells the first token. -/
theorem head?_text {t : Token} (ht : IsPlainToken t) :
    (t.text.head? = some mark → t = .globstar) ∧ (t.text.head? = some '/' → t = .slash) := by
  cases t with
  | char c =>
    have hs : c ≠ '/' := fun he => ht.1 (he ▸ rfl)
    have hm : c ≠ mark := fun he => ht.2 (he ▸ rfl)
    change ((CharClass.only c).source.head? = some mark → _) ∧
      ((CharClass.only c).source.head? = some '/' → _)
    rcases source_only_cases c with h | h
    · simp [h, mark]
    · simp [h, hs, hm]
  | _ => decide

theorem written_cons (t : Token) (ts : List Token) : written (t :: ts) = t.text ++ written ts :=
  List.flatMap_cons

theorem eq_nil_of_written {ts : List Token} (h : written ts = []) : ts = [] := by
  cases ts with
  | nil => rfl
  | cons t ts =>
    rw [written_cons] at h
    exact absurd (List.append_eq_nil_iff.1 h).1 t.text_ne_nil

section Tokens

variable {ts : List Token} (ht : ∀ t ∈ ts, IsPlainToken t)

include ht

theorem exists_globstar_of_head?_written (h : (written ts).head? = some mark) :
    ∃ rest, ts = .globstar :: rest := by
  cases ts with
  | nil => cases h
  | cons t rest =>
    rw [written_cons, List.head?_append_of_ne_nil _ t.text_ne_nil] at h
    exact ⟨rest, congrArg (· :: rest) ((head?_text (ht t List.mem_cons_self)).1 h)⟩

theorem exists_slash_of_head?_written (h : (written ts).head? = some '/') :
    ∃ rest, ts = .slash :: rest := by
  cases ts with
  | nil => cases h
  | cons t rest =>
    rw [written_cons, List.head?_append_of_ne_nil _ t.text_ne_nil] at h
    exact ⟨rest, congrArg (· :: rest) ((head?_text (ht t List.mem_cons_self)).2 h)⟩

/-- A mark and a slash at the front of a marked text are those of two tokens. -/
theorem exists_of_prefix_written (h : [mark, '/'] <+: written ts) :
    ∃ rest, ts = .globstar :: .slash :: rest := by
  obtain ⟨back, hback⟩ := h
  obtain ⟨rest, rfl⟩ := exists_globstar_of_head?_written ht (by rw [← hback]; rfl)
  rw [List.forall_mem_cons] at ht
  have hrest : written rest = '/' :: back := (List.cons.inj hback).2.symm
  obtain ⟨rest, rfl⟩ := exists_slash_of_head?_written ht.2 (by rw [hrest]; rfl)
  exact ⟨rest, rfl⟩

end Tokens

/-- A text in which marks between slashes are replaced begins as before, or with what is put in. -/
theorem head?_replaceBetween_cons (c : Char) (text : List Char) :
    (replaceBetween (c :: text)).head? = some c ∨
      (replaceBetween (c :: text)).head? = some '(' := by
  by_cases hp : ['/', mark, '/'] <+: c :: text
  · obtain ⟨back, hback⟩ := hp
    rw [← hback]
    exact .inr (congrArg List.head? (replaceBetween_between back))
  · exact .inl (congrArg List.head? (Text.replace_cons hp))

theorem head?_eq_of_replaceBetween {text : List Char} {c : Char} (hc : c ≠ '(')
    (h : (replaceBetween text).head? = some c) : text.head? = some c := by
  cases text with
  | nil => exact h
  | cons d text =>
    rcases head?_replaceBetween_cons d text with hd | hd
    · exact hd.symm.trans h
    · exact absurd (Option.some.inj (h.symm.trans hd)) hc

theorem eq_nil_of_replaceBetween {text : List Char} (h : replaceBetween text = []) :
    text = [] := by
  cases text with
  | nil => rfl
  | cons d text =>
    have hd := head?_replaceBetween_cons d text
    simp [h] at hd

theorem eq_of_replaceBetween_eq_mark {ts : List Token} (ht : ∀ t ∈ ts, IsPlainToken t)
    (h : replaceBetween (written ts) = [mark]) : ts = [.globstar] := by
  have hhead : (written ts).head? = some mark :=
    head?_eq_of_replaceBetween (by decide) (by rw [h]; rfl)
  obtain ⟨rest, rfl⟩ := exists_globstar_of_head?_written ht hhead
  rw [written_cons, replaceBetween_text (ht _ List.mem_cons_self) (by simp)] at h
  rw [eq_nil_of_written (eq_nil_of_replaceBetween (List.cons.inj h).2)]

/-- A token other than a slash comes to its own part, whatever stands after it. -/
theorem reads_cons {t : Token} {ts : List Token} (ht : ∀ u ∈ t :: ts, IsPlainToken u)
    (hs : t ≠ .slash) (h : Reads (replaceBetween (written ts)) (innerParts ts)) :
    Reads (replaceBetween (written (t :: ts))) (innerParts (t :: ts)) := by
  have ht := ht t List.mem_cons_self
  rw [written_cons, replaceBetween_text ht hs, innerParts_cons hs]
  refine .cons (t.piece ht hs) (fun hp => ?_) h
  exact absurd ((head?_text ht).2 (by rw [hp]; rfl)) hs

/-- Once the marks between slashes have been replaced, a marked text holds the parts of its
tokens. -/
theorem reads_innerParts {ts : List Token} (ht : ∀ t ∈ ts, IsPlainToken t) :
    Reads (replaceBetween (written ts)) (innerParts ts) := by
  induction ts using innerParts.induct with
  | case1 => exact .nil
  | case2 =>
    have h : replaceBetween ['/', mark] = ['/', mark] := by decide
    exact h.symm ▸ Reads.trailing
  | case3 rest ih =>
    have hrest := ih fun t h => ht t (by simp [h])
    change Reads (replaceBetween ('/' :: mark :: '/' :: written rest)) (.between :: innerParts rest)
    rw [replaceBetween_between]
    exact .cons .between (fun h => absurd h (by decide)) hrest
  | case4 rest hone hmore ih =>
    have hrest := (List.forall_mem_cons.1 ht).2
    have hlead : ¬[mark, '/'] <+: written rest := by
      intro h
      obtain ⟨back, hback⟩ := exists_of_prefix_written hrest h
      exact hmore back hback
    rw [innerParts_slash_of_ne hone hmore]
    change Reads (replaceBetween ('/' :: written rest)) _
    rw [replaceBetween_slash hlead]
    exact .cons .slash (fun _ h => hone (eq_of_replaceBetween_eq_mark hrest h)) (ih hrest)
  | case5 rest ih => exact reads_cons ht (by simp) (ih (List.forall_mem_cons.1 ht).2)
  | case6 rest ih => exact reads_cons ht (by simp) (ih (List.forall_mem_cons.1 ht).2)
  | case7 rest ih => exact reads_cons ht (by simp) (ih (List.forall_mem_cons.1 ht).2)
  | case8 c rest ih => exact reads_cons ht (by simp) (ih (List.forall_mem_cons.1 ht).2)

/-! ### Marks at the ends and beside other characters -/

theorem endsMarked_iff {text : List Char} : endsMarked text = true ↔ ['/', mark] <:+ text :=
  List.isSuffixOf_iff_suffix

theorem endsMarked_concat_iff {text : List Char} {c : Char} :
    endsMarked (text ++ [c]) = true ↔ text.getLast? = some '/' ∧ c = mark := by
  rw [endsMarked_iff, List.getLast?_eq_some_iff]
  constructor
  · rintro ⟨front, hfront⟩
    rw [show ['/', mark] = ['/'] ++ [mark] from rfl, ← List.append_assoc] at hfront
    obtain ⟨htext, hc⟩ := List.append_inj' hfront rfl
    exact ⟨⟨front, htext.symm⟩, (List.cons.inj hc).1.symm⟩
  · rintro ⟨⟨front, rfl⟩, rfl⟩
    exact ⟨front, by simp⟩

/-- A slash and a mark at the end of a text stand in its second part, if they do not stand across
the two. -/
theorem endsMarked_append {front back : List Char} (hf : endsMarked front = false)
    (hm : front.getLast? = some '/' → back ≠ [mark]) :
    endsMarked (front ++ back) = endsMarked back := by
  rcases back.eq_nil_or_concat' with rfl | ⟨middle, c, rfl⟩
  · rw [List.append_nil, hf]
    rfl
  · rw [Bool.eq_iff_iff, ← List.append_assoc, endsMarked_concat_iff, endsMarked_concat_iff,
      List.getLast?_append]
    cases hl : middle.getLast? with
    | some d => rfl
    | none =>
      obtain rfl := List.getLast?_eq_none_iff.1 hl
      refine iff_of_false (fun h => hm h.1 ?_) (by simp)
      rw [h.2]
      rfl

theorem replaceTrailing_of_suffix (directoryOnly : Bool) (front : List Char) :
    replaceTrailing directoryOnly (front ++ ['/', mark]) =
      front ++ "(?:/.*)?".toList ++ if directoryOnly then [] else ['$'] := by
  have hends : endsMarked (front ++ ['/', mark]) = true :=
    endsMarked_iff.2 (List.suffix_append front _)
  rw [replaceTrailing, if_pos hends]
  simp

theorem replaceTrailing_append (directoryOnly : Bool) {front back : List Char}
    (hf : endsMarked front = false) (hm : front.getLast? = some '/' → back ≠ [mark]) :
    replaceTrailing directoryOnly (front ++ back) =
      front ++ replaceTrailing directoryOnly back := by
  have happend := endsMarked_append hf hm
  by_cases hb : endsMarked back = true
  · obtain ⟨middle, rfl⟩ := endsMarked_iff.1 hb
    rw [← List.append_assoc, replaceTrailing_of_suffix, replaceTrailing_of_suffix]
    simp
  · rw [replaceTrailing, replaceTrailing, happend, if_neg hb, if_neg hb]

theorem replaceMarks_append (front back : List Char) :
    replaceMarks (front ++ back) = replaceMarks front ++ replaceMarks back := by
  simp only [replaceMarks, Text.replace_singleton, List.flatMap_append]

namespace Piece

variable {piece : List Char} {p : Part} (h : Piece piece p)

include h

theorem endsMarked_eq_false : endsMarked piece = false := by
  cases h with
  | @char c hs hm =>
    rw [Bool.eq_false_iff, Ne]
    rcases source_only_cases c with h | h
    · rw [h, show ['\\', c] = ['\\'] ++ [c] from rfl, endsMarked_concat_iff]
      simp
    · rw [h, show [c] = [] ++ [c] from rfl, endsMarked_concat_iff]
      simp
  | _ => decide

theorem eq_slash_of_getLast? (hl : piece.getLast? = some '/') : piece = ['/'] := by
  cases h with
  | @char c hs hm =>
    rcases source_only_cases c with h | h <;> simp [h, hs] at hl
  | slash => rfl
  | _ => exact absurd hl (by decide)

theorem ne_nil : piece ≠ [] := by
  cases h with
  | @char c hs hm => exact source_only_ne_nil c
  | _ => decide

/-- A piece that begins with a mark or a slash is nothing else. -/
theorem eq_of_head? {c : Char} (hc : c = Pattern.mark ∨ c = '/') (hh : piece.head? = some c) :
    piece = [c] := by
  cases h with
  | @char d hs hm =>
    rcases source_only_cases d with h | h
    · rw [h] at hh
      rcases hc with rfl | rfl <;> exact absurd (Option.some.inj hh) (by decide)
    · rw [h] at hh ⊢
      exact congrArg (fun d => [d]) (Option.some.inj hh)
  | mark => exact congrArg (fun d => [d]) (Option.some.inj hh)
  | slash => exact congrArg (fun d => [d]) (Option.some.inj hh)
  | _ => rcases hc with rfl | rfl <;> exact absurd hh (by decide)

/-- What comes of a piece once all marks have been replaced. -/
theorem replaceMarks_eq : replaceMarks piece = p.regex.source := by
  cases h with
  | @char c hs hm =>
    have hb : '\\' ≠ Pattern.mark := by decide
    change replaceMarks (CharClass.only c).source = (CharClass.only c).source
    rw [replaceMarks, Text.replace_singleton]
    rcases source_only_cases c with h | h
    · simp only [h, List.flatMap_cons, List.flatMap_nil, if_neg hm, if_neg hb]
      rfl
    · simp only [h, List.flatMap_cons, List.flatMap_nil, if_neg hm]
      rfl
  | _ => decide

end Piece

/-- The texts of parts, one after the other. -/
def partsText (ps : List Part) : List Char :=
  ps.flatMap fun p => p.regex.source

theorem partsText_cons (p : Part) (ps : List Part) :
    partsText (p :: ps) = p.regex.source ++ partsText ps :=
  List.flatMap_cons

/-- What stands behind the parts of a body to keep them to whole paths. -/
def endText (directoryOnly : Bool) (ps : List Part) : List Char :=
  if ps.getLast? = some .trailing then if directoryOnly then [] else ['$'] else []

theorem endText_cons (directoryOnly : Bool) {p : Part} (hp : p ≠ .trailing) (ps : List Part) :
    endText directoryOnly (p :: ps) = endText directoryOnly ps := by
  rw [endText, endText, List.getLast?_cons]
  cases ps.getLast? <;> simp [hp]

theorem isOpenEnded_cons {p : Part} (he : p ≠ .everything) (ht : p ≠ .trailing) (ps : List Part) :
    isOpenEnded (p :: ps) = isOpenEnded ps := by
  rw [isOpenEnded, isOpenEnded, List.getLast?_cons]
  cases ps.getLast? <;> simp [he, ht]

theorem Piece.inner {piece : List Char} {p : Part} (h : Piece piece p) :
    p ≠ .everything ∧ p ≠ .trailing := by
  cases h <;> simp

namespace Reads

variable {text : List Char} {ps : List Part}

/-- A mark is left at the end of a text if its last part is a globstar there. -/
theorem endsMarked_eq (h : Reads text ps) : endsMarked text = isOpenEnded ps := by
  induction h with
  | nil => decide
  | trailing => decide
  | cons hp hm _ ih =>
    rw [endsMarked_append hp.endsMarked_eq_false fun hl => hm (hp.eq_slash_of_getLast? hl), ih,
      isOpenEnded_cons hp.inner.1 hp.inner.2]

theorem replaceTrailing_cons {piece : List Char} {p : Part} (hp : Piece piece p)
    (hm : piece = ['/'] → text ≠ [mark]) (directoryOnly : Bool) :
    replaceTrailing directoryOnly (piece ++ text) = piece ++ replaceTrailing directoryOnly text :=
  replaceTrailing_append directoryOnly hp.endsMarked_eq_false fun hl =>
    hm (hp.eq_slash_of_getLast? hl)

/-- When the other marks have been replaced the text is that of its parts. -/
theorem replaceMarks_eq (h : Reads text ps) (directoryOnly : Bool) :
    replaceMarks (replaceTrailing directoryOnly text) =
      partsText ps ++ endText directoryOnly ps := by
  induction h with
  | nil => cases directoryOnly <;> rfl
  | trailing => cases directoryOnly <;> decide
  | cons hp hm _ ih =>
    rw [replaceTrailing_cons hp hm, replaceMarks_append, ih, hp.replaceMarks_eq, partsText_cons,
      List.append_assoc, endText_cons directoryOnly hp.inner.2]

/-- A mark or a slash at the front stood there before a mark at the end was replaced. -/
theorem exists_of_head? (h : Reads text ps) {directoryOnly : Bool} {c : Char}
    (hc : c = mark ∨ c = '/') (hhead : (replaceTrailing directoryOnly text).head? = some c) :
    ∃ rest qs, text = c :: rest ∧ Reads rest qs ∧ (c = '/' → rest ≠ [mark]) ∧
      replaceTrailing directoryOnly text = c :: replaceTrailing directoryOnly rest := by
  cases h with
  | nil => exact absurd hhead (by simp [replaceTrailing, endsMarked])
  | trailing =>
    have hopen : (replaceTrailing directoryOnly ['/', mark]).head? = some '(' := by
      cases directoryOnly <;> rfl
    rw [hopen] at hhead
    rcases hc with rfl | rfl <;> exact absurd hhead (by decide)
  | @cons piece text p ps hp hm hrest =>
    rw [replaceTrailing_cons hp hm, List.head?_append_of_ne_nil _ hp.ne_nil] at hhead
    obtain rfl := hp.eq_of_head? hc hhead
    exact ⟨text, ps, rfl, hrest, fun he => hm (congrArg (fun d => [d]) he),
      replaceTrailing_cons hp hm directoryOnly⟩

/-- A mark with a slash behind it at the front stood there before a mark at the end was replaced. -/
theorem eq_of_leading (h : Reads text ps) {directoryOnly : Bool}
    (hlead : [mark, '/'] <+: replaceTrailing directoryOnly text) :
    ∃ rest, text = mark :: '/' :: rest ∧ rest ≠ [mark] := by
  obtain ⟨back, hback⟩ := hlead
  have hhead : (replaceTrailing directoryOnly text).head? = some mark := by
    rw [← hback]
    rfl
  obtain ⟨rest, qs, rfl, hrest, -, htail⟩ := h.exists_of_head? (.inl rfl) hhead
  rw [htail] at hback
  have hslash : (replaceTrailing directoryOnly rest).head? = some '/' := by
    rw [← (List.cons.inj hback).2]
    rfl
  obtain ⟨more, -, rfl, -, hmore, -⟩ := hrest.exists_of_head? (.inr rfl) hslash
  exact ⟨more, rfl, hmore rfl⟩

end Reads

/-! ### The text of a body -/

/-- A globstar and a slash stand before other tokens, and the slash does not belong to a globstar
after it. -/
def Leads (ts rest : List Token) : Prop :=
  ts = .globstar :: .slash :: rest ∧ rest ≠ [.globstar] ∧ ∀ more, rest ≠ .globstar :: .slash :: more

theorem parts_of_leads {ts rest : List Token} (h : Leads ts rest) :
    parts ts = .leading :: innerParts rest := by
  obtain ⟨rfl, hone, hmore⟩ := h
  rw [parts]
  · exact hmore
  · exact hone

theorem parts_of_not_leads {ts : List Token} (hone : ts ≠ [.globstar])
    (h : ∀ rest, ¬Leads ts rest) : parts ts = innerParts ts := by
  rw [parts.eq_def]
  split
  · exact absurd rfl hone
  · rfl
  · rfl
  · next rest hmore hlone => exact absurd ⟨rfl, hlone, hmore⟩ (h rest)
  · rfl

section Leading

variable {ts rest : List Token} (ht : ∀ t ∈ ts, IsPlainToken t) (h : Leads ts rest)

include ht h

theorem isPlainToken_of_leads : ∀ t ∈ rest, IsPlainToken t :=
  fun t hmem => ht t (by simp [h.1, hmem])

/-- The slash behind a globstar that leads is left as it is. -/
theorem replaceBetween_of_leads :
    replaceBetween (written ts) = mark :: '/' :: replaceBetween (written rest) := by
  have hlead : ¬[mark, '/'] <+: written rest := by
    intro hp
    obtain ⟨more, hmore⟩ := exists_of_prefix_written (isPlainToken_of_leads ht h) hp
    exact h.2.2 more hmore
  rw [h.1]
  change replaceBetween (mark :: '/' :: written rest) = _
  rw [replaceBetween_cons (by decide), replaceBetween_slash hlead]

theorem reads_of_leads : Reads (replaceBetween (written rest)) (innerParts rest) :=
  reads_innerParts (isPlainToken_of_leads ht h)

theorem replaceBetween_ne_mark_of_leads : replaceBetween (written rest) ≠ [mark] :=
  fun he => h.2.1 (eq_of_replaceBetween_eq_mark (isPlainToken_of_leads ht h) he)

end Leading

section Body

variable {ts : List Token} (ht : ∀ t ∈ ts, IsPlainToken t)

include ht

theorem written_ne_mark (hone : ts ≠ [.globstar]) : written ts ≠ [mark] := by
  intro h
  obtain ⟨rest, rfl⟩ := exists_globstar_of_head?_written ht (by rw [h]; rfl)
  have hrest : written rest = [] := (List.cons.inj h).2
  exact hone (congrArg (.globstar :: ·) (eq_nil_of_written hrest))

/-- A mark that is replaced at the front is that of a globstar that leads. -/
theorem exists_leads {directoryOnly : Bool}
    (h : [mark, '/'] <+: replaceTrailing directoryOnly (replaceBetween (written ts))) :
    ∃ rest, Leads ts rest := by
  obtain ⟨back, hback, hne⟩ := (reads_innerParts ht).eq_of_leading h
  have hmark : (written ts).head? = some mark :=
    head?_eq_of_replaceBetween (by decide) (by rw [hback]; rfl)
  obtain ⟨rest, rfl⟩ := exists_globstar_of_head?_written ht hmark
  rw [List.forall_mem_cons] at ht
  rw [written_cons, replaceBetween_text ht.1 (by simp)] at hback
  have hrest : replaceBetween (written rest) = '/' :: back := (List.cons.inj hback).2
  have hslash : (written rest).head? = some '/' :=
    head?_eq_of_replaceBetween (by decide) (by rw [hrest]; rfl)
  obtain ⟨rest, rfl⟩ := exists_slash_of_head?_written ht.2 hslash
  refine ⟨rest, rfl, ?_, ?_⟩
  · rintro rfl
    exact hne (List.cons.inj hrest).2.symm
  · rintro more rfl
    have hbetween : replaceBetween (written (.slash :: .globstar :: .slash :: more)) = _ :=
      replaceBetween_between (written more)
    rw [hbetween] at hrest
    exact absurd (List.cons.inj hrest).1 (by decide)

theorem bodyText_written (directoryOnly : Bool) :
    bodyText directoryOnly (written ts) =
      partsText (parts ts) ++ endText directoryOnly (parts ts) := by
  by_cases hone : ts = [.globstar]
  · subst hone
    cases directoryOnly <;> decide
  rw [bodyText, if_neg (written_ne_mark ht hone)]
  by_cases hleads : ∃ rest, Leads ts rest
  · obtain ⟨rest, h⟩ := hleads
    have htrailing : replaceTrailing directoryOnly (mark :: '/' :: replaceBetween (written rest)) =
        mark :: '/' :: replaceTrailing directoryOnly (replaceBetween (written rest)) :=
      @replaceTrailing_append directoryOnly [mark, '/'] _ (by decide) fun _ =>
        replaceBetween_ne_mark_of_leads ht h
    have hleading : replaceMarks "(?:.*/)?".toList = Part.leading.regex.source := by decide
    rw [replaceBetween_of_leads ht h, htrailing, replaceLeading, if_pos (by simp),
      replaceMarks_append, hleading, List.drop_succ_cons, List.drop_succ_cons, List.drop_zero,
      (reads_of_leads ht h).replaceMarks_eq, parts_of_leads h, partsText_cons,
      endText_cons directoryOnly (by simp), List.append_assoc]
  · have hlead : ¬[mark, '/'] <+: replaceTrailing directoryOnly (replaceBetween (written ts)) :=
      fun h => hleads (exists_leads ht h)
    rw [replaceLeading, if_neg (by simpa using hlead),
      (reads_innerParts ht).replaceMarks_eq, parts_of_not_leads hone fun rest h => hleads ⟨rest, h⟩]

theorem isOpenEndedText_written : isOpenEndedText (written ts) = isOpenEnded (parts ts) := by
  by_cases hone : ts = [.globstar]
  · subst hone
    decide
  rw [isOpenEndedText, decide_eq_false (written_ne_mark ht hone), Bool.false_or]
  by_cases hleads : ∃ rest, Leads ts rest
  · obtain ⟨rest, h⟩ := hleads
    have hends : endsMarked (mark :: '/' :: replaceBetween (written rest)) =
        endsMarked (replaceBetween (written rest)) :=
      @endsMarked_append [mark, '/'] _ (by decide) fun _ => replaceBetween_ne_mark_of_leads ht h
    rw [replaceBetween_of_leads ht h, hends, (reads_of_leads ht h).endsMarked_eq, parts_of_leads h,
      isOpenEnded_cons (by simp) (by simp)]
  · rw [(reads_innerParts ht).endsMarked_eq,
      parts_of_not_leads hone fun rest h => hleads ⟨rest, h⟩]

end Body

/-! ### The text of a whole expression -/

theorem Glob.openingText_eq (g : Glob) : g.openingText = g.opening.flatMap Regex.source := by
  unfold openingText opening
  split
  · decide
  · split <;> decide

/-- The closing of an expression is what is put behind the text of its parts. -/
theorem Glob.flatMap_closing (g : Glob) :
    g.closing.flatMap Regex.source = endText g.directoryOnly g.parts ++
      if g.directoryOnly then ['/'] else if isOpenEnded g.parts then [] else "(?:$|/)".toList := by
  have hslash : [Regex.slash].flatMap Regex.source = ['/'] := by decide
  have hfinish : [Regex.finish].flatMap Regex.source = ['$'] := rfl
  have hend : [Regex.alt .finish .slash].flatMap Regex.source = "(?:$|/)".toList := by decide
  rw [closing, endText]
  cases g.directoryOnly with
  | true => simp [hslash]
  | false =>
    by_cases htrailing : g.parts.getLast? = some .trailing
    · have hopen : isOpenEnded g.parts = true := by simp [isOpenEnded, htrailing]
      simp [htrailing, hopen, hfinish]
    · cases hopen : isOpenEnded g.parts with
      | true => simp [htrailing]
      | false => simpa [htrailing] using hend

/-- The text that is put together for a pattern is the expression of the pattern written out. -/
theorem sourceText_eq (text : List Char) : sourceText text = (Glob.ofText text).regex.source := by
  have hparts : (Glob.ofText text).parts = parts (tokens (bodyOf text)) := rfl
  have hplain := @isPlainToken_of_mem_tokens (bodyOf text)
  rw [sourceText, Glob.regex, Regex.source_concat, List.flatMap_append, List.flatMap_append,
    Glob.flatMap_closing, ← Glob.openingText_eq, List.flatMap_map, ← partsText, hparts,
    markedText_eq, bodyText_written hplain, isOpenEndedText_written hplain]
  simp only [List.append_assoc]

end FileSieve.Pattern
