/-!
Cutting a text at a separator and putting the pieces together again. There is always one piece more
than there are separators, so an empty text is one empty piece.
-/

namespace FileSieve.Text

/-- The pieces between the occurrences of the separator. -/
def pieces (separator : Char) : List Char → List (List Char)
  | [] => [[]]
  | c :: rest =>
    if c = separator then [] :: pieces separator rest
    else match pieces separator rest with
      | [] => [[c]]
      | piece :: more => (c :: piece) :: more

/-- The pieces with the separator between neighbours. -/
def joinPieces (separator : Char) : List (List Char) → List Char
  | [] => []
  | [piece] => piece
  | piece :: more => piece ++ separator :: joinPieces separator more

theorem pieces_ne_nil (separator : Char) (cs : List Char) : pieces separator cs ≠ [] := by
  induction cs with
  | nil => simp [pieces]
  | cons c rest ih =>
    simp only [pieces]
    split
    · simp
    · split <;> simp

theorem joinPieces_pieces (separator : Char) (cs : List Char) :
    joinPieces separator (pieces separator cs) = cs := by
  induction cs with
  | nil => rfl
  | cons c rest ih =>
    have hne := pieces_ne_nil separator rest
    simp only [pieces]
    split
    · next h =>
      cases hp : pieces separator rest with
      | nil => exact absurd hp hne
      | cons p ps => simp [joinPieces, ← hp, ih, h]
    · cases hp : pieces separator rest with
      | nil => exact absurd hp hne
      | cons p ps =>
        rw [hp] at ih
        cases ps with
        | nil => simpa [joinPieces] using ih
        | cons q qs => simpa [joinPieces] using ih

theorem joinPieces_cons {separator : Char} (piece : List Char) {more : List (List Char)}
    (h : more ≠ []) :
    joinPieces separator (piece :: more) = piece ++ separator :: joinPieces separator more := by
  cases more with
  | nil => exact absurd rfl h
  | cons next rest => rfl

theorem pieces_eq_singleton {separator : Char} {cs : List Char} (h : separator ∉ cs) :
    pieces separator cs = [cs] := by
  induction cs with
  | nil => rfl
  | cons c cs ih =>
    rw [List.mem_cons, not_or] at h
    simp [pieces, ih h.2, Ne.symm h.1]

theorem pieces_append {separator : Char} {piece : List Char} (h : separator ∉ piece)
    (cs : List Char) :
    pieces separator (piece ++ separator :: cs) = piece :: pieces separator cs := by
  induction piece with
  | nil => simp [pieces]
  | cons c piece ih =>
    rw [List.mem_cons, not_or] at h
    simp [pieces, ih h.2, Ne.symm h.1]

theorem not_mem_of_mem_pieces {separator : Char} {cs piece : List Char}
    (h : piece ∈ pieces separator cs) : separator ∉ piece := by
  induction cs generalizing piece with
  | nil =>
    rw [pieces, List.mem_singleton] at h
    simp [h]
  | cons c cs ih =>
    by_cases hc : c = separator
    · rw [pieces, if_pos hc, List.mem_cons] at h
      rcases h with rfl | h
      · simp
      · exact ih h
    · cases hp : pieces separator cs with
      | nil => exact absurd hp (pieces_ne_nil separator cs)
      | cons first more =>
        simp only [pieces, hc, ↓reduceIte, hp, List.mem_cons] at h
        rcases h with rfl | h
        · have hf := ih (hp ▸ List.mem_cons_self)
          simp [Ne.symm hc, hf]
        · exact ih (hp ▸ List.mem_cons_of_mem _ h)

theorem mem_of_mem_pieces {separator c : Char} {cs piece : List Char}
    (h : piece ∈ pieces separator cs) (hc : c ∈ piece) : c ∈ cs := by
  induction cs generalizing piece with
  | nil =>
    rw [pieces, List.mem_singleton] at h
    simp [h] at hc
  | cons d cs ih =>
    by_cases hd : d = separator
    · rw [pieces, if_pos hd, List.mem_cons] at h
      rcases h with rfl | h
      · simp at hc
      · exact List.mem_cons_of_mem _ (ih h hc)
    · cases hp : pieces separator cs with
      | nil => exact absurd hp (pieces_ne_nil separator cs)
      | cons first more =>
        simp only [pieces, hd, ↓reduceIte, hp, List.mem_cons] at h
        rcases h with rfl | h
        · rcases List.mem_cons.1 hc with rfl | hc
          · exact List.mem_cons_self
          · exact List.mem_cons_of_mem _ (ih (hp ▸ List.mem_cons_self) hc)
        · exact List.mem_cons_of_mem _ (ih (hp ▸ List.mem_cons_of_mem _ h) hc)

theorem pieces_joinPieces {separator : Char} {ps : List (List Char)} (hne : ps ≠ [])
    (h : ∀ piece ∈ ps, separator ∉ piece) : pieces separator (joinPieces separator ps) = ps := by
  induction ps with
  | nil => exact absurd rfl hne
  | cons piece more ih =>
    rw [List.forall_mem_cons] at h
    by_cases hm : more = []
    · subst hm
      exact pieces_eq_singleton h.1
    · rw [joinPieces_cons piece hm, pieces_append h.1, ih hm h.2]

theorem length_pieces_eq_one_iff {separator : Char} {cs : List Char} :
    (pieces separator cs).length = 1 ↔ separator ∉ cs := by
  constructor
  · intro h hc
    obtain ⟨piece, hp⟩ := List.length_eq_one_iff.1 h
    have hj := joinPieces_pieces separator cs
    rw [hp, joinPieces] at hj
    exact not_mem_of_mem_pieces (hp ▸ List.mem_cons_self) (hj ▸ hc)
  · intro h
    rw [pieces_eq_singleton h, List.length_singleton]

/-- A separator in joined pieces stands between two runs of them. -/
theorem joinPieces_eq_append_iff {separator : Char} {ps : List (List Char)} {front back : List Char}
    (h : ∀ piece ∈ ps, separator ∉ piece) :
    joinPieces separator ps = front ++ separator :: back ↔
      ∃ as bs, ps = as ++ bs ∧ as ≠ [] ∧ bs ≠ [] ∧ front = joinPieces separator as ∧
        back = joinPieces separator bs := by
  induction ps generalizing front with
  | nil => simp [joinPieces]
  | cons piece more ih =>
    rw [List.forall_mem_cons] at h
    by_cases hm : more = []
    · subst hm
      constructor
      · intro he
        rw [joinPieces] at he
        exact absurd (he ▸ List.mem_append_right front List.mem_cons_self) h.1
      · intro h
        obtain ⟨as, bs, he, ha, hb, _, _⟩ := h
        obtain ⟨a, as, rfl⟩ := List.exists_cons_of_ne_nil ha
        have hn : as ++ bs = [] := by simpa using (List.cons.inj he).2.symm
        exact absurd (List.append_eq_nil_iff.1 hn).2 hb
    · rw [joinPieces_cons piece hm]
      constructor
      · intro he
        rcases List.append_eq_append_iff.1 he with ⟨mid, rfl, hr⟩ | ⟨mid, rfl, hr⟩
        · cases mid with
          | nil => exact ⟨[piece], more, rfl, by simp, hm, by simp [joinPieces], by simpa using hr.symm⟩
          | cons c mid =>
            rw [List.cons_append, List.cons.injEq] at hr
            obtain ⟨rfl, hr⟩ := hr
            obtain ⟨as, bs, rfl, ha, hb, rfl, rfl⟩ := (ih h.2).1 hr
            exact ⟨piece :: as, bs, rfl, by simp, hb, (joinPieces_cons piece ha).symm, rfl⟩
        · cases mid with
          | nil => exact ⟨[front], more, by simp, by simp, hm, rfl, by simpa using hr⟩
          | cons c mid =>
            rw [List.cons_append, List.cons.injEq] at hr
            exact absurd (hr.1 ▸ List.mem_append_right front List.mem_cons_self) h.1
      · intro h
        obtain ⟨as, bs, he, ha, hb, rfl, rfl⟩ := h
        obtain ⟨a, as, rfl⟩ := List.exists_cons_of_ne_nil ha
        rw [List.cons_append, List.cons.injEq] at he
        obtain ⟨rfl, rfl⟩ := he
        by_cases hn : as = []
        · subst hn
          rfl
        · have hs := (ih h.2).2 ⟨as, bs, rfl, hn, hb, rfl, rfl⟩
          rw [joinPieces_cons piece hn, hs]
          simp

end FileSieve.Text
