import Mathlib.Data.List.Infix
import FileSieve.Tree.Search

/-! # What a search finds

A search goes through the files once and stops when enough of them are found. As long as it goes on
there is room for one more file, and so its result is a first part of all the files that match. -/

namespace FileSieve.Tree

/-! ## Going through the files -/

/-- The first members of a list, as many as a limit asks for, and at least one of them. -/
def upTo (limit : Option Int) (files : List FlatFile) : List FlatFile :=
  match limit with
  | none => files
  | some n => files.take (max 1 n.toNat)

/-- The search goes on: fewer files are found than the limit asks for, or none at all. -/
def HasRoom (limit : Option Int) (found : Array FlatFile) : Prop :=
  ∀ n, limit = some n → found.size < max 1 n.toNat

section

variable {limit : Option Int} {found : Array FlatFile} {file : FlatFile}

theorem isEnough_iff : isEnough limit found = true ↔ ∃ n, limit = some n ∧ n ≤ found.size := by
  rw [isEnough, Option.any_eq_true]
  simp

theorem hasRoom_empty : HasRoom limit #[] :=
  fun _ _ => Nat.lt_of_lt_of_le Nat.zero_lt_one (Nat.le_max_left ..)

theorem hasRoom_push (h : isEnough limit (found.push file) = false) :
    HasRoom limit (found.push file) := by
  intro n hn
  have hless : ¬n ≤ (found.push file).size := by
    intro hle
    rw [isEnough_iff.2 ⟨n, hn, hle⟩] at h
    cases h
  omega

theorem HasRoom.upTo_found (h : HasRoom limit found) : upTo limit found.toList = found.toList := by
  cases limit with
  | none => rfl
  | some n =>
    have hsize := h n rfl
    exact List.take_of_length_le (by rw [Array.length_toList]; omega)

/-- The file that makes up the number is the last one. -/
theorem HasRoom.upTo_push (h : HasRoom limit found)
    (henough : isEnough limit (found.push file) = true) (rest : List FlatFile) :
    upTo limit (found.toList ++ file :: rest) = (found.push file).toList := by
  obtain ⟨n, rfl, hn⟩ := isEnough_iff.1 henough
  have hsize : max 1 n.toNat = (found.push file).toList.length := by
    have hroom := h n rfl
    rw [Array.size_push] at hn
    rw [Array.length_toList, Array.size_push]
    omega
  rw [upTo, hsize, List.append_cons, ← Array.toList_push, List.take_left]

/-- A search that goes on finds the files that match, after those found before, up to the limit. -/
theorem toList_findMore (accepts : FlatFile → Bool) (h : HasRoom limit found)
    (files : List FlatFile) :
    (findMore accepts limit found files).toList =
      upTo limit (found.toList ++ files.filter accepts) := by
  induction files generalizing found with
  | nil => rw [findMore, List.filter_nil, List.append_nil, h.upTo_found]
  | cons file rest ih =>
    cases haccepts : accepts file with
    | false =>
      rw [findMore, haccepts, if_neg Bool.false_ne_true, ih h,
        List.filter_cons_of_neg (by rw [haccepts]; exact Bool.false_ne_true)]
    | true =>
      rw [findMore, haccepts, if_pos rfl, List.filter_cons_of_pos haccepts]
      cases henough : isEnough limit (found.push file) with
      | true => rw [if_pos rfl, h.upTo_push henough]
      | false =>
        rw [if_neg Bool.false_ne_true, ih (hasRoom_push henough), Array.toList_push,
          List.append_assoc, List.singleton_append]

end

/-! ## Searching -/

/-- The path of a file contains a query in the form in which texts are compared. A query of blanks
is contained in no path. -/
def IsMatch (query : String) (file : FlatFile) : Prop :=
  Text.foldCase (Text.trim query) ≠ [] ∧
    Text.foldCase (Text.trim query) <:+: Text.foldCase file.path

instance (query : String) : DecidablePred (IsMatch query) :=
  fun _ => inferInstanceAs (Decidable (_ ∧ _))

theorem search_eq (files : List FlatFile) (query : String) (limit : Option Int) :
    search files query limit = upTo limit (files.filter (IsMatch query ·)) := by
  unfold search
  by_cases hblank : Text.foldCase (Text.trim query) = []
  · have hnone : files.filter (IsMatch query ·) = [] :=
      List.filter_eq_nil_iff.2 fun file _ => by simp [IsMatch, hblank]
    rw [hnone, if_pos (List.isEmpty_iff.2 hblank)]
    cases limit with
    | none => rfl
    | some n => exact List.take_nil.symm
  · have haccepts : (fun file : FlatFile =>
        Text.occursIn (Text.foldCase (Text.trim query)) (Text.foldCase file.path)) =
          fun file => decide (IsMatch query file) := by
      funext file
      rw [Bool.eq_iff_iff, Text.occursIn_iff, decide_eq_true_iff, IsMatch, and_iff_right hblank]
    rw [if_neg (mt List.isEmpty_iff.1 hblank), haccepts, toList_findMore _ hasRoom_empty]
    rfl

/-- Without a limit a search finds all files that match, in their order. A positive limit cuts that
off behind so many files, and any other limit behind the first one. -/
theorem search_finds_first (files : List FlatFile) (query : String) :
    search files query none = files.filter (IsMatch query ·) ∧
    (∀ limit : Int, 1 ≤ limit →
      search files query (some limit) = (search files query none).take limit.toNat) ∧
    ∀ limit : Int, limit ≤ 0 →
      search files query (some limit) = (search files query none).take 1 := by
  refine ⟨search_eq files query none, fun limit h => ?_, fun limit h => ?_⟩
  · have hmax : max 1 limit.toNat = limit.toNat := by omega
    rw [search_eq, search_eq, upTo, upTo, hmax]
  · have hmax : max 1 limit.toNat = 1 := by omega
    rw [search_eq, search_eq, upTo, upTo, hmax]

/-- A search for one of three files, two of which match. -/
theorem search_finds_first_one :
    let files := [⟨"b", "/r/b"⟩, ⟨"A", "/r/A"⟩, ⟨"a", "/r/a"⟩]
    (1 : Int) ≤ 1 ∧ search files " A\t" none = [⟨"A", "/r/A"⟩, ⟨"a", "/r/a"⟩] ∧
      search files " A\t" (some 1) = [⟨"A", "/r/A"⟩] := by
  intro files
  have hall : files.filter (IsMatch " A\t" ·) = [⟨"A", "/r/A"⟩, ⟨"a", "/r/a"⟩] := by
    decide +kernel
  obtain ⟨hnone, hsome, -⟩ := search_finds_first files " A\t"
  rw [hall] at hnone
  refine ⟨Int.le_refl 1, hnone, ?_⟩
  rw [hsome 1 (Int.le_refl 1), hnone]
  rfl

/-- A search that is asked for no file finds one all the same. -/
theorem search_asked_for_none :
    ¬∀ (files : List FlatFile) (query : String) (limit : Int), 0 ≤ limit →
      search files query (some limit) = (search files query none).take limit.toNat := by
  intro h
  have hnone := h [⟨"a", "/r/a"⟩] "a" 0 (Int.le_refl 0)
  revert hnone
  decide +kernel

end FileSieve.Tree
