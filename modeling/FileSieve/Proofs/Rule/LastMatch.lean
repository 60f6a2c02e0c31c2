import Mathlib.Data.List.Induction
import FileSieve.Rule.Decision

/-! # The rule that decides

The last rule that accepts a path decides about it: it is the first one that is met from the end of
the list. A rule that is put into a list has a say only where no rule behind it accepts the path, so
that a plain rule ignores more there and a negated one less. -/

namespace FileSieve

universe u

variable {α : Type u} [PathRule α]

/-- The rule accepts the path, and no rule behind it in the list does. -/
def IsLastMatch (rules : List α) (path : List Char) (rule : α) : Prop :=
  ∃ before after, rules = before ++ rule :: after ∧ PathRule.accepts rule path = true ∧
    ∀ later ∈ after, PathRule.accepts later path = false

/-- The last rule that accepts the path is there, and it is plain. -/
def IsLastPlain (rules : List α) (path : List Char) : Prop :=
  ∃ rule, IsLastMatch rules path rule ∧ PathRule.negated rule = false

theorem lastMatch_concat (rules : List α) (rule : α) (path : List Char) :
    lastMatch (rules ++ [rule]) path =
      if PathRule.accepts rule path then some rule else lastMatch rules path := by
  rw [lastMatch, List.foldl_append]
  rfl

/-- Going through the list to its end and looking from its end come to the same rule. -/
theorem lastMatch_eq_find? (rules : List α) (path : List Char) :
    lastMatch rules path = rules.reverse.find? (PathRule.accepts · path) := by
  induction rules using List.reverseRecOn with
  | nil => rfl
  | append_singleton rules rule ih =>
    rw [lastMatch_concat, List.reverse_concat, List.find?_cons, ih]
    cases PathRule.accepts rule path <;> rfl

theorem lastMatch_eq_some_iff {rules : List α} {path : List Char} {rule : α} :
    lastMatch rules path = some rule ↔ IsLastMatch rules path rule := by
  rw [lastMatch_eq_find?, List.find?_eq_some_iff_append]
  constructor
  · rintro ⟨ha, after, before, hr, hn⟩
    refine ⟨before.reverse, after.reverse, ?_, ha, ?_⟩
    · simpa using congrArg List.reverse hr
    · simpa using hn
  · rintro ⟨before, after, rfl, ha, hn⟩
    exact ⟨ha, after.reverse, before.reverse, by simp, by simpa using hn⟩

theorem lastMatch_eq_none_iff {rules : List α} {path : List Char} :
    lastMatch rules path = none ↔ ∀ rule ∈ rules, PathRule.accepts rule path = false := by
  simp [lastMatch_eq_find?]

theorem lastMatch_cons_eq_none_iff {rule : α} {rules : List α} {path : List Char} :
    lastMatch (rule :: rules) path = none ↔
      PathRule.accepts rule path = false ∧ lastMatch rules path = none := by
  simp [lastMatch_eq_none_iff]

theorem excludes_eq_true_iff {rules : List α} {path : List Char} :
    excludes rules path = true ↔ IsLastPlain rules path := by
  simp only [IsLastPlain, ← lastMatch_eq_some_iff]
  unfold excludes
  cases lastMatch rules path <;> simp

/-- Plain rules ignore what one of them accepts. -/
theorem excludes_iff_exists_accepts {rules : List α} {path : List Char}
    (h : ∀ rule ∈ rules, PathRule.negated rule = false) :
    excludes rules path = true ↔ ∃ rule ∈ rules, PathRule.accepts rule path = true := by
  have hsome : (lastMatch rules path).isSome = true ↔
      ∃ rule ∈ rules, PathRule.accepts rule path = true := by
    simp [lastMatch_eq_find?]
  rw [← hsome]
  unfold excludes
  cases hl : lastMatch rules path with
  | none => simp
  | some rule =>
    obtain ⟨before, after, rfl, -⟩ := lastMatch_eq_some_iff.1 hl
    simp [h rule (by simp)]

/-! ### Putting a rule into a list -/

section Insertion

variable (before after : List α) (rule : α) (path : List Char)

theorem lastMatch_append :
    lastMatch (before ++ after) path = (lastMatch after path).or (lastMatch before path) := by
  rw [lastMatch_eq_find?, List.reverse_append, List.find?_append, ← lastMatch_eq_find?,
    ← lastMatch_eq_find?]

/-- A rule in a list decides about the paths that it accepts and no rule behind it does. -/
theorem excludes_insert : excludes (before ++ rule :: after) path =
    if lastMatch after path = none ∧ PathRule.accepts rule path = true then !PathRule.negated rule
    else excludes (before ++ after) path := by
  have hs : before ++ rule :: after = (before ++ [rule]) ++ after := by simp
  unfold excludes
  rw [hs, lastMatch_append, lastMatch_append before after, lastMatch_concat]
  cases hl : lastMatch after path with
  | some later => simp
  | none =>
    by_cases ha : PathRule.accepts rule path = true
    · simp [ha]
    · simp [ha]

theorem excludes_insert_of_plain (hn : PathRule.negated rule = false)
    (h : excludes (before ++ after) path = true) :
    excludes (before ++ rule :: after) path = true := by
  rw [excludes_insert, hn, h]
  split <;> rfl

theorem excludes_of_insert_negated (hn : PathRule.negated rule = true)
    (h : excludes (before ++ rule :: after) path = true) :
    excludes (before ++ after) path = true := by
  rw [excludes_insert, hn] at h
  split at h
  · cases h
  · exact h

end Insertion

end FileSieve
