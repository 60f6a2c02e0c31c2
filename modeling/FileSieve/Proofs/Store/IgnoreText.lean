import FileSieve.Proofs.Store.Normalization

/-! # The patterns of an ignore file

The text of an ignore file is cut at every character that ends a line in any script. Which patterns
it holds can be told line by line: texts put one below the other hold the patterns of both, patterns
written one below the other are read back, and a line that holds none is one that rules ignore. -/

namespace FileSieve

/-! ### Lines -/

namespace Text

theorem lines_of_break {c : Char} {rest : List Char} (hc : isLineBreak c = true)
    (hr : c = '\r' → rest.head? ≠ some '\n') : lines (c :: rest) = [] :: lines rest := by
  rw [lines.eq_def]
  split
  · next h => cases h
  · next h =>
    obtain ⟨rfl, rfl⟩ := List.cons.inj h
    exact absurd rfl (hr rfl)
  · next h =>
    obtain ⟨rfl, rfl⟩ := List.cons.inj h
    rw [if_pos hc]

theorem lines_of_not_break {c : Char} (hc : isLineBreak c = false) (rest : List Char) :
    lines (c :: rest) = (c :: (lines rest).headD []) :: (lines rest).tail := by
  rw [lines.eq_def]
  split
  · next h => cases h
  · next h =>
    obtain ⟨rfl, rfl⟩ := List.cons.inj h
    exact absurd hc (by decide)
  · next h =>
    obtain ⟨rfl, rfl⟩ := List.cons.inj h
    rw [if_neg (by simp [hc])]
    cases lines rest <;> rfl

/-- What holds of texts that begin with a line ending or with another character holds of all. -/
theorem lines_induction {motive : List Char → Prop} (nil : motive [])
    (pair : ∀ rest, motive rest → motive ('\r' :: '\n' :: rest))
    (lone : ∀ c rest, isLineBreak c = true → (c = '\r' → rest.head? ≠ some '\n') → motive rest →
      motive (c :: rest))
    (char : ∀ c rest, isLineBreak c = false → motive rest → motive (c :: rest))
    (cs : List Char) : motive cs := by
  fun_induction lines cs with
  | case1 => exact nil
  | case2 rest ih => exact pair rest ih
  | case3 c rest hr hc ih =>
    refine lone c rest hc (fun he hh => ?_) ih
    obtain ⟨back, rfl⟩ := List.head?_eq_some_iff.1 hh
    exact hr back he rfl
  | case4 c rest _ hc _ ih => exact char c rest (by simpa using hc) ih
  | case5 c rest _ hc _ _ _ ih => exact char c rest (by simpa using hc) ih

theorem lines_eq_nil_iff {cs : List Char} : lines cs = [] ↔ cs = [] := by
  induction cs using lines_induction with
  | nil => exact iff_of_true rfl rfl
  | pair rest => simp [lines]
  | lone c rest hc hr => simp [lines_of_break hc hr]
  | char c rest hc => simp [lines_of_not_break hc]

/-- A character that ends a line by itself still does so when a line feed comes behind the rest,
unless there is no rest. -/
theorem head?_append_lineFeed {c : Char} {rest : List Char} (hn : ¬(c = '\r' ∧ rest = []))
    (hr : c = '\r' → rest.head? ≠ some '\n') (back : List Char) :
    c = '\r' → (rest ++ '\n' :: back).head? ≠ some '\n' := by
  rintro rfl
  rw [List.head?_append_of_ne_nil _ fun he => hn ⟨rfl, he⟩]
  exact hr rfl

/-- A line feed ends the lines before it, whatever comes behind. -/
theorem lines_append (cs more : List Char) :
    lines (cs ++ '\n' :: more) = lines (cs ++ ['\n']) ++ lines more := by
  induction cs using lines_induction with
  | nil => rfl
  | pair rest ih => exact congrArg ([] :: ·) ih
  | lone c rest hc hr ih =>
    by_cases hn : c = '\r' ∧ rest = []
    · obtain ⟨rfl, rfl⟩ := hn
      rfl
    · have hlead := head?_append_lineFeed hn hr
      rw [List.cons_append, List.cons_append, lines_of_break hc (hlead more),
        lines_of_break hc (hlead []), ih, List.cons_append]
  | char c rest hc ih =>
    have hne : lines (rest ++ ['\n']) ≠ [] := by simp [lines_eq_nil_iff]
    rw [List.cons_append, List.cons_append, lines_of_not_break hc, lines_of_not_break hc, ih,
      List.tail_append_of_ne_nil hne, List.cons_append]
    obtain ⟨line, rest, hl⟩ := List.exists_cons_of_ne_nil hne
    rw [hl]
    rfl

/-- A line feed at the end adds an empty line at most. -/
theorem lines_concat (cs : List Char) :
    lines (cs ++ ['\n']) = lines cs ∨ lines (cs ++ ['\n']) = lines cs ++ [[]] := by
  induction cs using lines_induction with
  | nil => exact .inr rfl
  | pair rest ih => exact ih.imp (congrArg ([] :: ·)) (congrArg ([] :: ·))
  | lone c rest hc hr ih =>
    by_cases hn : c = '\r' ∧ rest = []
    · obtain ⟨rfl, rfl⟩ := hn
      exact .inl rfl
    · have hlead := head?_append_lineFeed hn hr []
      rw [List.cons_append, lines_of_break hc hlead, lines_of_break hc hr]
      exact ih.imp (congrArg ([] :: ·)) (congrArg ([] :: ·))
  | char c rest hc ih =>
    rw [List.cons_append, lines_of_not_break hc, lines_of_not_break hc]
    rcases ih with ih | ih
    · exact .inl (by rw [ih])
    · by_cases hr : rest = []
      · subst hr
        exact .inl rfl
      · refine .inr ?_
        obtain ⟨line, more, hl⟩ := List.exists_cons_of_ne_nil (mt lines_eq_nil_iff.1 hr)
        rw [ih, hl]
        rfl

theorem isLineBreak_of_mem_lines {cs line : List Char} (hl : line ∈ lines cs) {c : Char}
    (hc : c ∈ line) : isLineBreak c = false := by
  induction cs using lines_induction generalizing line with
  | nil => cases hl
  | pair rest ih =>
    rcases List.mem_cons.1 hl with rfl | hl
    · cases hc
    · exact ih hl hc
  | lone d rest hd hr ih =>
    rw [lines_of_break hd hr] at hl
    rcases List.mem_cons.1 hl with rfl | hl
    · cases hc
    · exact ih hl hc
  | char d rest hd ih =>
    rw [lines_of_not_break hd] at hl
    cases hls : lines rest with
    | nil =>
      rw [hls] at hl
      obtain rfl := List.mem_singleton.1 hl
      rw [List.mem_singleton.1 hc]
      exact hd
    | cons first more =>
      rw [hls] at hl ih
      rcases List.mem_cons.1 hl with rfl | hl
      · rcases List.mem_cons.1 hc with rfl | hc
        · exact hd
        · exact ih List.mem_cons_self hc
      · exact ih (List.mem_cons_of_mem _ hl) hc

/-- A text without line endings is one line. -/
theorem lines_eq_singleton {cs : List Char} (hne : cs ≠ [])
    (h : ∀ c ∈ cs, isLineBreak c = false) : lines cs = [cs] := by
  induction cs with
  | nil => exact absurd rfl hne
  | cons c cs ih =>
    rw [List.forall_mem_cons] at h
    rw [lines_of_not_break h.1]
    by_cases hcs : cs = []
    · subst hcs
      rfl
    · rw [ih hcs h.2]
      rfl

theorem mem_of_mem_trim {s : String} {c : Char} (h : c ∈ (trim s).toList) : c ∈ s.toList := by
  rw [trim, String.toList_ofList, dropBothWhile, dropEndWhile, List.mem_reverse] at h
  exact List.dropWhile_subset _ (List.mem_reverse.1 (List.dropWhile_subset _ h))

end Text

/-! ### Patterns of a text -/

namespace Store

/-- The pattern that a line of an ignore file holds. -/
def patternOf? (line : List Char) : Option String :=
  let pattern := Text.trim (String.ofList line)
  if pattern ≠ "" ∧ pattern.toList.head? ≠ some '#' then some pattern else none

theorem patternOf?_nil : patternOf? [] = none := rfl

theorem patternOf?_eq_some_iff {line : List Char} {pattern : String} :
    patternOf? line = some pattern ↔
      Text.trim (String.ofList line) = pattern ∧ pattern ≠ "" ∧
        pattern.toList.head? ≠ some '#' := by
  rw [patternOf?, Option.ite_none_right_eq_some]
  constructor
  · rintro ⟨h, he⟩
    obtain rfl := Option.some.inj he
    exact ⟨rfl, h⟩
  · rintro ⟨rfl, h⟩
    exact ⟨h, rfl⟩

theorem parseIgnoreText_eq (text : String) :
    parseIgnoreText text = (Text.lines text.toList).filterMap patternOf? := by
  rw [parseIgnoreText, List.filter_map, ← List.filterMap_eq_map, List.filterMap_filter]
  apply List.filterMap_congr
  intro line _
  simp [patternOf?]

/-- Texts put one below the other hold the patterns of both. -/
theorem parseIgnoreText_append (a b : String) :
    parseIgnoreText (a ++ "\n" ++ b) = parseIgnoreText a ++ parseIgnoreText b := by
  have hlines : Text.lines (a ++ "\n" ++ b).toList =
      Text.lines (a.toList ++ ['\n']) ++ Text.lines b.toList := by
    rw [← Text.lines_append, String.toList_append, String.toList_append, List.append_assoc]
    rfl
  have ha : (Text.lines (a.toList ++ ['\n'])).filterMap patternOf? =
      (Text.lines a.toList).filterMap patternOf? := by
    rcases Text.lines_concat a.toList with h | h
    · rw [h]
    · rw [h, List.filterMap_append, List.filterMap_cons_none patternOf?_nil, List.filterMap_nil,
        List.append_nil]
  rw [parseIgnoreText_eq, parseIgnoreText_eq, parseIgnoreText_eq, hlines, List.filterMap_append, ha]

/-- A pattern of a text is the only one of the text that it is itself. -/
theorem parseIgnoreText_of_mem {text pattern : String} (h : pattern ∈ parseIgnoreText text) :
    parseIgnoreText pattern = [pattern] := by
  rw [parseIgnoreText_eq, List.mem_filterMap] at h
  obtain ⟨line, hline, h⟩ := h
  obtain ⟨rfl, hne, hplain⟩ := patternOf?_eq_some_iff.1 h
  have hlines : Text.lines (Text.trim (String.ofList line)).toList =
      [(Text.trim (String.ofList line)).toList] := by
    apply Text.lines_eq_singleton (by simpa using hne)
    intro c hc
    have hc := Text.mem_of_mem_trim hc
    rw [String.toList_ofList] at hc
    exact Text.isLineBreak_of_mem_lines hline hc
  have hpattern : patternOf? (Text.trim (String.ofList line)).toList =
      some (Text.trim (String.ofList line)) := by
    rw [patternOf?_eq_some_iff, String.ofList_toList, Text.trim_trim]
    exact ⟨rfl, hne, hplain⟩
  rw [parseIgnoreText_eq, hlines, List.filterMap_cons_some hpattern, List.filterMap_nil]

/-- Patterns that each make up a text of their own are read back from the lines that they make. -/
theorem parseIgnoreText_intercalate {patterns : List String}
    (h : ∀ pattern ∈ patterns, parseIgnoreText pattern = [pattern]) :
    parseIgnoreText ("\n".intercalate patterns) = patterns := by
  induction patterns with
  | nil =>
    rw [String.intercalate_nil, parseIgnoreText_eq]
    rfl
  | cons pattern rest ih =>
    rw [List.forall_mem_cons] at h
    cases rest with
    | nil =>
      rw [String.intercalate_singleton]
      exact h.1
    | cons next rest =>
      rw [String.intercalate_cons_cons, parseIgnoreText_append, h.1, ih h.2]
      rfl

/-! ### What the lines of a text say -/

/-- A line without a pattern is a comment if it is not blank. -/
theorem ofText_of_patternOf?_eq_none {line : List Char} (h : patternOf? line = none) :
    Line.ofText (String.ofList line) = .silent := by
  apply Line.ofText_of_comment
  rintro hpattern
  rw [patternOf?] at h
  simp [hpattern] at h

/-- A line says what its pattern says, and nothing if it holds none. -/
theorem signAt_line (path line : List Char) :
    signAt path (String.ofList line) = (patternOf? line).bind (signAt path) := by
  cases hp : patternOf? line with
  | some pattern =>
    obtain ⟨hpattern, -⟩ := patternOf?_eq_some_iff.1 hp
    rw [Option.bind_some, ← hpattern, signAt_trim]
  | none =>
    rw [Option.bind_none, signAt, Rule.ofLine?, ofText_of_patternOf?_eq_none hp, Option.bind_none]

theorem excludes_lines (text : String) (path : List Char) :
    excludes (compileRules ((Text.lines text.toList).map String.ofList)) path =
      excludes (compileRules (parseIgnoreText text)) path := by
  rw [excludes_compileRules, excludes_compileRules, parseIgnoreText_eq, List.filterMap_map,
    List.filterMap_filterMap]
  simp only [Function.comp_def, signAt_line]

/-- Texts put one below the other hold the patterns of both, the patterns of a text are read back
from the lines that they make, and the lines of a text ignore what its patterns ignore. -/
theorem parseIgnoreText_by_lines :
    (∀ a b, parseIgnoreText (a ++ "\n" ++ b) = parseIgnoreText a ++ parseIgnoreText b) ∧
    (∀ text, parseIgnoreText ("\n".intercalate (parseIgnoreText text)) = parseIgnoreText text) ∧
    ∀ text path, isIgnored (compileRules (parseIgnoreText text)) path =
      isIgnored (compileRules ((Text.lines text.toList).map String.ofList)) path := by
  refine ⟨parseIgnoreText_append, fun text => ?_, fun text path => ?_⟩
  · exact parseIgnoreText_intercalate fun pattern hp => parseIgnoreText_of_mem hp
  · have hsame : excludes (compileRules ((Text.lines text.toList).map String.ofList)) =
        excludes (compileRules (parseIgnoreText text)) := funext (excludes_lines text)
    rw [isIgnored_eq_any, isIgnored_eq_any, hsame]

end Store

end FileSieve
