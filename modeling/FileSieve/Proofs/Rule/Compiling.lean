import FileSieve.Proofs.Pattern.SourceText
import FileSieve.Proofs.Regex.Writing
import FileSieve.Proofs.Rule.Acceptance
import FileSieve.Rule.Engine

/-! # No pattern is lost

Whatever characters a pattern is made of, the text that is put together for it writes an expression,
and that is the expression of its rule. So an engine that reads such texts refuses none of them, and
each line with a pattern comes to one rule. -/

namespace FileSieve

/-! ### Texts of patterns -/

namespace Pattern

theorem writesItem_slash : WritesItem Regex.slash.source .slash :=
  writesItem_one _

theorem writesItem_star : WritesItem (Regex.star .inLine).source (.star .inLine) :=
  .starInLine

theorem writesItem_plus : WritesItem (Regex.plus .inLine).source (.plus .inLine) :=
  .plusInLine

theorem writesItem_anyDirectories : WritesItem anyDirectories.source anyDirectories :=
  @writesItem_opt [.star .inLine, .slash] (by simp [writesItem_star, writesItem_slash])

theorem Part.writesItem (p : Part) : WritesItem p.regex.source p.regex := by
  cases p with
  | everything => exact writesItem_star
  | leading => exact writesItem_anyDirectories
  | between =>
    exact @writesItem_alt [.slash] [.slash, .plus .inLine, .slash] (by simp [writesItem_slash])
      (by simp [writesItem_slash, writesItem_plus])
  | trailing =>
    exact @writesItem_opt [.slash, .star .inLine] (by simp [writesItem_slash, writesItem_star])
  | slash => exact writesItem_slash
  | star => exact .starInSegment
  | any => exact writesItem_one _
  | char c => exact writesItem_one _

theorem Glob.writesItem_opening (g : Glob) : ∀ r ∈ g.opening, WritesItem r.source r := by
  have hstart : WritesItem Regex.start.source .start := .start
  have hborder : WritesItem (Regex.alt .start .slash).source (.alt .start .slash) :=
    @writesItem_alt [.start] [.slash] (by simp [hstart]) (by simp [writesItem_slash])
  unfold opening
  split
  · simp [hstart, writesItem_anyDirectories]
  · split
    · simp [hstart]
    · simp [hborder]

theorem Glob.writesItem_closing (g : Glob) : ∀ r ∈ g.closing, WritesItem r.source r := by
  have hfinish : WritesItem Regex.finish.source .finish := .finish
  have hborder : WritesItem (Regex.alt .finish .slash).source (.alt .finish .slash) :=
    @writesItem_alt [.finish] [.slash] (by simp [hfinish]) (by simp [writesItem_slash])
  unfold closing
  split
  · simp [writesItem_slash]
  · split
    · simp [hfinish]
    · split
      · simp
      · simp [hborder]

/-- The text that is put together for a pattern writes the expression of the pattern. -/
theorem writes_sourceText (text : List Char) :
    Writes (sourceText text) (Glob.ofText text).regex := by
  rw [sourceText_eq]
  apply writes_concat
  intro r hr
  simp only [List.mem_append, List.mem_map] at hr
  rcases hr with (hr | ⟨p, -, rfl⟩) | hr
  · exact Glob.writesItem_opening _ r hr
  · exact p.writesItem
  · exact Glob.writesItem_closing _ r hr

end Pattern

/-! ### Lines with a pattern -/

open Pattern

/-- A line holds a pattern: it is not blank and no comment, and without its sign and the backslash
that saves an exclamation mark something other than slashes is left of it. -/
def HoldsPattern (line : String) : Prop :=
  Text.trim line ≠ "" ∧ (Text.trim line).toList.head? ≠ some '#' ∧
    ∃ c ∈ unsignedText line, c ≠ '/'

instance (line : String) : Decidable (HoldsPattern line) :=
  haveI : Decidable (∃ c ∈ unsignedText line, c ≠ '/') := List.decidableBEx _ _
  inferInstanceAs (Decidable (_ ∧ _ ∧ _))

/-- The rule of a line that holds a pattern. -/
def ruleOfPattern (line : String) : Rule :=
  .ofPattern line ((Text.trim line).toList.head? = some '!') (unsignedText line)

/-- A line that is not blank and no comment holds a pattern unless nothing but slashes is left. -/
theorem ofText_of_ne_comment {line : String} (hne : Text.trim line ≠ "")
    (hc : (Text.trim line).toList.head? ≠ some '#') :
    Line.ofText line =
      if (unsignedText line).all (· = '/') then .pathless
      else .pattern ((Text.trim line).toList.head? = some '!') (unsignedText line) := by
  cases ht : (Text.trim line).toList with
  | nil => exact absurd (String.toList_eq_nil_iff.1 ht) hne
  | cons c rest =>
    have hunsigned : unsignedText line = unescapeBang (if c = '!' then rest else c :: rest) := by
      rw [unsignedText, ht]
      simp [dropFirst]
    have hc : c ≠ '#' := by simpa [ht] using hc
    rw [hunsigned, Line.ofText, ht]
    simp [hc]

/-- A line comes to a rule exactly if it holds a pattern. -/
theorem ofLine?_eq (line : String) :
    Rule.ofLine? line = if HoldsPattern line then some (ruleOfPattern line) else none := by
  rw [Rule.ofLine?]
  by_cases hplain : Text.trim line ≠ "" ∧ (Text.trim line).toList.head? ≠ some '#'
  · obtain ⟨hne, hc⟩ := hplain
    have hall : (unsignedText line).all (· = '/') = true ↔ ¬HoldsPattern line := by
      simp [HoldsPattern, hne, hc]
    rw [ofText_of_ne_comment hne hc]
    by_cases h : HoldsPattern line
    · rw [if_pos h, if_neg fun ha => hall.1 ha h]
      rfl
    · rw [if_neg h, if_pos (hall.2 h)]
  · rw [Line.ofText_of_comment hplain, if_neg fun h : HoldsPattern line => hplain ⟨h.1, h.2.1⟩]

theorem compileRules_eq (lines : List String) :
    compileRules lines = (lines.filter HoldsPattern).map ruleOfPattern := by
  rw [compileRules]
  induction lines with
  | nil => rfl
  | cons line lines ih =>
    rw [List.filterMap_cons, ofLine?_eq, ih, List.filter_cons]
    by_cases h : HoldsPattern line <;> simp [h]

/-! ### Engines -/

/-- A line comes to the same with an engine that refuses no pattern as without one. -/
theorem compile_of_accepts {engine : Engine}
    (h : ∀ text, engine (sourceText text) = none) (lines : List String) :
    engine.compile lines = (compileRules lines, compileNotes lines) := by
  have hline (line : String) :
      engine.compileLine line = (Rule.ofLine? line, (Rule.dropNote? line).toList) := by
    rw [Engine.compileLine, Rule.ofLine?, Rule.dropNote?]
    cases Line.ofText line with
    | pattern negated text => simp [h text]
    | _ => rfl
  simp only [Engine.compile, hline, compileRules, compileNotes,
    List.filterMap_eq_flatMap_toList]

/-- With an engine that reads expressions no pattern is lost. The text that is put together for a
pattern, whatever its characters, writes the expression of the rule. So it is not refused, and the
lines that hold a pattern come to one rule each, in their order. -/
theorem compile_keeps_patterns {engine : Engine}
    (h : ∀ text r, Writes text r → engine text = none) :
    (∀ text, Writes (sourceText text) (Glob.ofText text).regex ∧ engine (sourceText text) = none) ∧
    ∀ lines, engine.compile lines = (compileRules lines, compileNotes lines) ∧
      compileRules lines = (lines.filter HoldsPattern).map ruleOfPattern := by
  have haccepts : ∀ text, engine (sourceText text) = none :=
    fun text => h _ _ (writes_sourceText text)
  exact ⟨fun text => ⟨writes_sourceText text, haccepts text⟩, fun lines =>
    ⟨compile_of_accepts haccepts lines, compileRules_eq lines⟩⟩

/-- An engine that refuses a text only for a sign of repetition with nothing before it. -/
def leadingSignEngine : Engine := fun text =>
  if text.head?.any "*+?".toList.contains then some "nothing to repeat at position 0" else none

theorem WritesItem.leadingSign {text : List Char} {r : Regex} (h : WritesItem text r)
    (more : List Char) : leadingSignEngine (text ++ more) = none := by
  cases h with
  | @one text k h =>
    cases h with
    | @plain c h =>
      have hsigns : "*+?".toList.all isMetacharacter = true := by decide
      have hc : ¬"*+?".toList.contains c = true := by
        intro hsign
        rw [List.all_eq_true.1 hsigns c (List.contains_iff_mem.1 hsign)] at h
        cases h
      exact if_neg hc
    | _ => rfl
  | _ => rfl

theorem Writes.leadingSign {text : List Char} {r : Regex} (h : Writes text r) :
    leadingSignEngine text = none := by
  cases h with
  | sequence h =>
    cases h with
    | nil => rfl
    | cons h _ => exact h.leadingSign _
  | choice h _ =>
    cases h with
    | nil => rfl
    | cons h _ =>
      rw [List.append_assoc]
      exact h.leadingSign _

theorem compile_keeps_patterns_metacharacters :
    let lines := ["\x00/**/[a", " # (", "!//", "!\\!+(\n)?\x7b", "\t"]
    (∀ text r, Writes text r → leadingSignEngine text = none) ∧
    (leadingSignEngine.compile lines).1 = lines.filterMap Rule.ofLine? ∧
    (leadingSignEngine.compile lines).1.map Rule.line = ["\x00/**/[a", "!\\!+(\n)?\x7b"] := by
  intro lines
  have haccepts : ∀ text r, Writes text r → leadingSignEngine text = none :=
    fun text r h => h.leadingSign
  obtain ⟨-, hlines⟩ := compile_keeps_patterns haccepts
  obtain ⟨hcompile, hrules⟩ := hlines lines
  refine ⟨haccepts, congrArg Prod.fst hcompile, ?_⟩
  have hlines : lines.filter HoldsPattern = ["\x00/**/[a", "!\\!+(\n)?\x7b"] := by decide +kernel
  rw [hcompile, hrules, hlines]
  rfl

end FileSieve
