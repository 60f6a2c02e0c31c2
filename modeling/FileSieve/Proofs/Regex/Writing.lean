import FileSieve.Regex.Basic

/-! # Texts of expressions

A text writes an expression by a grammar: a choice between sequences of items, where an item is an
anchor, a character, a class of characters that may be repeated, or a group that may be optional.
An expression that is made of items writes itself. -/

namespace FileSieve

/-- A text for one character of a class. -/
inductive WritesClass : List Char → CharClass → Prop
  | plain {c : Char} (h : isMetacharacter c = false) : WritesClass [c] (.only c)
  | escaped {c : Char} (h : isMetacharacter c = true) : WritesClass ['\\', c] (.only c)
  | inLine : WritesClass ['.'] .inLine
  | inSegment : WritesClass "[^/]".toList .inSegment

mutual

/-- A text that stands for itself between others. -/
inductive WritesItem : List Char → Regex → Prop
  | start : WritesItem ['^'] .start
  | finish : WritesItem ['$'] .finish
  | one {text : List Char} {k : CharClass} (h : WritesClass text k) : WritesItem text (.one k)
  | starInLine : WritesItem ".*".toList (.star .inLine)
  | starInSegment : WritesItem "[^/]*".toList (.star .inSegment)
  | plusInLine : WritesItem ".+".toList (.plus .inLine)
  | group {text : List Char} {r : Regex} (h : Writes text r) :
      WritesItem ("(?:".toList ++ text ++ ")".toList) r
  | option {text : List Char} {r : Regex} (h : Writes text r) :
      WritesItem ("(?:".toList ++ text ++ ")?".toList) (.opt r)

/-- Items one after the other. -/
inductive WritesSequence : List Char → List Regex → Prop
  | nil : WritesSequence [] []
  | cons {text more : List Char} {r : Regex} {rs : List Regex} (h : WritesItem text r)
      (hs : WritesSequence more rs) : WritesSequence (text ++ more) (r :: rs)

/-- A sequence of items, or a choice between several. -/
inductive Writes : List Char → Regex → Prop
  | sequence {text : List Char} {rs : List Regex} (h : WritesSequence text rs) :
      Writes text (.concat rs)
  | choice {text more : List Char} {rs : List Regex} {r : Regex} (h : WritesSequence text rs)
      (hr : Writes more r) : Writes (text ++ '|' :: more) (.alt (.concat rs) r)

end

/-! ### Expressions that write themselves -/

namespace Regex

theorem source_concat (rs : List Regex) : (concat rs).source = rs.flatMap source := by
  induction rs using concat.induct with
  | case1 => rfl
  | case2 r => exact (List.append_nil _).symm
  | case3 r s rest ih => exact congrArg (r.source ++ ·) ih

end Regex

theorem writesClass_source (k : CharClass) : WritesClass k.source k := by
  cases k with
  | only c =>
    rw [CharClass.source]
    split
    · next h => exact .escaped h
    · next h => exact .plain (by simpa using h)
  | inLine => exact .inLine
  | inSegment => exact .inSegment

theorem writesItem_one (k : CharClass) : WritesItem (Regex.one k).source (.one k) :=
  .one (writesClass_source k)

section Items

variable {rs ss : List Regex} (hr : ∀ r ∈ rs, WritesItem r.source r)
  (hs : ∀ s ∈ ss, WritesItem s.source s)

include hr

theorem writesSequence_source : WritesSequence (rs.flatMap Regex.source) rs := by
  induction rs with
  | nil => exact .nil
  | cons r rs ih =>
    rw [List.forall_mem_cons] at hr
    rw [List.flatMap_cons]
    exact .cons hr.1 (ih hr.2)

theorem writes_concat : Writes (Regex.concat rs).source (.concat rs) := by
  rw [Regex.source_concat]
  exact .sequence (writesSequence_source hr)

theorem writesItem_opt : WritesItem (Regex.opt (.concat rs)).source (.opt (.concat rs)) :=
  .option (writes_concat hr)

include hs

theorem writesItem_alt :
    WritesItem (Regex.alt (.concat rs) (.concat ss)).source (.alt (.concat rs) (.concat ss)) := by
  have h := WritesItem.group (.choice (writesSequence_source hr) (writes_concat hs))
  rw [← Regex.source_concat, ← List.append_assoc] at h
  exact h

end Items

end FileSieve
