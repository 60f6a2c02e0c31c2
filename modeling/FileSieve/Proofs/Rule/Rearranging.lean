import FileSieve.Proofs.Rule.Ancestors

/-! # Rearranging a list of rules

Where rules stand in a list matters only if a plain and a negated one accept the same path: other
neighbours may change places. And a rule has no say if a later one has the same expression, whatever
the signs of the two and however many rules stand between them. -/

namespace FileSieve

universe u

variable {α : Type u} [PathRule α]

/-- There is no path that both rules accept. -/
def Apart (rule other : α) : Prop :=
  ∀ path, PathRule.accepts rule path = true → PathRule.accepts other path = false

/-- Two rules accept the same paths. -/
def AcceptAlike (rule other : α) : Prop :=
  ∀ path, PathRule.accepts rule path = PathRule.accepts other path

theorem acceptAlike_of_regex {rule other : Rule} (h : rule.regex = other.regex) :
    AcceptAlike rule other := by
  intro path
  have hsearch : rule.regex.search path = other.regex.search path := by rw [h]
  exact hsearch

/-- Neighbours decide alike in either order, unless they have different signs and both accept the
path. -/
theorem excludes_swap (before after : List α) {rule other : α}
    (h : PathRule.negated rule = PathRule.negated other ∨ Apart rule other) (path : List Char) :
    excludes (before ++ rule :: other :: after) path =
      excludes (before ++ other :: rule :: after) path := by
  rw [excludes_insert before (other :: after) rule, excludes_insert before after other,
    excludes_insert before (rule :: after) other, excludes_insert before after rule]
  simp only [lastMatch_cons_eq_none_iff]
  by_cases hlater : lastMatch after path = none
  · cases hrule : PathRule.accepts rule path with
    | false => simp [hlater]
    | true =>
      cases hother : PathRule.accepts other path with
      | false => simp [hlater]
      | true =>
        -- both are met before any later rule: the one behind the other decides
        rcases h with hsign | hapart
        · simp [hlater, hsign]
        · simp [hapart path hrule] at hother
  · simp [hlater]

/-- A rule does not decide about a path that a later rule accepts too. -/
theorem excludes_drop (before : List α) {after : List α} {rule later : α} (hl : later ∈ after)
    (h : AcceptAlike rule later) (path : List Char) :
    excludes (before ++ rule :: after) path = excludes (before ++ after) path := by
  rw [excludes_insert, if_neg]
  rintro ⟨hnone, haccepts⟩
  have hnot := lastMatch_eq_none_iff.1 hnone later hl
  rw [← h path, haccepts] at hnot
  cases hnot

theorem isIgnored_drop (before : List α) {after : List α} {rule : α}
    (h : ∃ later ∈ after, AcceptAlike rule later) (path : String) :
    isIgnored (before ++ rule :: after) path = isIgnored (before ++ after) path := by
  obtain ⟨later, hl, halike⟩ := h
  exact isIgnored_congr (excludes_drop before hl halike) path

/-- What is ignored stays the same when neighbours of one sign, or without a common path, change
places, and when a rule is left out that has a later one with the same matcher or, among compiled
rules, with the same expression. -/
theorem isIgnored_rearranged (before after : List α) (rule other : α) (path : String) :
    (PathRule.negated rule = PathRule.negated other ∨ Apart rule other →
      isIgnored (before ++ rule :: other :: after) path =
        isIgnored (before ++ other :: rule :: after) path) ∧
    ((∃ later ∈ after, AcceptAlike rule later) →
      isIgnored (before ++ rule :: after) path = isIgnored (before ++ after) path) ∧
    ∀ (front back : List Rule) (compiled : Rule),
      (∃ later ∈ back, later.regex = compiled.regex) →
        isIgnored (front ++ compiled :: back) path = isIgnored (front ++ back) path := by
  refine ⟨?_, ?_, ?_⟩
  · intro h
    exact isIgnored_congr (excludes_swap before after h) path
  · intro h
    exact isIgnored_drop before h path
  · rintro front back compiled ⟨later, hl, hregex⟩
    exact isIgnored_drop front ⟨later, hl, acceptAlike_of_regex hregex.symm⟩ path

theorem isIgnored_rearranged_logs :
    let before := compileRules ["*.tmp"]
    let after := compileRules ["!keep.log", "!*.log"]
    let logs := Rule.ofPattern "*.log" false "*.log".toList
    let docs := Rule.ofPattern "docs/" false "docs/".toList
    PathRule.negated logs = PathRule.negated docs ∧ (∃ later ∈ after, AcceptAlike logs later) ∧
      (∃ later ∈ after, later.regex = logs.regex) ∧
      isIgnored (before ++ logs :: docs :: after) "src/old.log" =
        isIgnored (before ++ docs :: logs :: after) "src/old.log" ∧
      isIgnored (before ++ logs :: after) "src/old.log" =
        isIgnored (before ++ after) "src/old.log" := by
  intro before after logs docs
  have hsign : PathRule.negated logs = PathRule.negated docs := rfl
  have hregex : ∃ later ∈ after, later.regex = logs.regex := by decide +kernel
  have halike : ∃ later ∈ after, AcceptAlike logs later := by
    obtain ⟨later, hl, hr⟩ := hregex
    exact ⟨later, hl, acceptAlike_of_regex hr.symm⟩
  obtain ⟨hswap, hdrop, -⟩ := isIgnored_rearranged before after logs docs "src/old.log"
  exact ⟨hsign, halike, hregex, hswap (.inl hsign), hdrop halike⟩

end FileSieve
