import FileSieve.Proofs.Store.Importing

/-! # The saved ignore list as a list

Each edit of the saved list loads it, changes it and saves it normalized. A list that is trimmed,
without blank patterns and without repetitions stays so, and is changed just as the edit says. -/

namespace FileSieve

open Host Program

/-! ## Normalized lists -/

namespace Store

variable {seen patterns more : List Utf16} {pattern : Utf16}

theorem nodup_dropRepeats (seen patterns : List Utf16) : (dropRepeats seen patterns).Nodup := by
  induction patterns generalizing seen with
  | nil => exact List.nodup_nil
  | cons first rest ih =>
    by_cases h : first ∈ seen
    · rw [dropRepeats_cons_of_mem h]
      exact ih seen
    · rw [dropRepeats_cons_of_not_mem h, List.nodup_cons]
      exact ⟨fun hm => (mem_dropRepeats_iff.1 hm).2 List.mem_cons_self, ih (first :: seen)⟩

theorem dropRepeats_eq_eraseDups (seen patterns : List Utf16) :
    dropRepeats seen patterns = (patterns.filter (· ∉ seen)).eraseDups := by
  induction patterns generalizing seen with
  | nil => rfl
  | cons first rest ih =>
    by_cases h : first ∈ seen
    · rw [dropRepeats_cons_of_mem h, ih, List.filter_cons_of_neg (by simpa using h)]
    · have hseen : rest.filter (· ∉ first :: seen) =
          (rest.filter (· ∉ seen)).filter fun pattern => !pattern == first := by
        rw [List.filter_filter]
        refine List.filter_congr fun pattern _ => ?_
        by_cases hp : pattern = first <;> simp [hp]
      rw [dropRepeats_cons_of_not_mem h, ih, List.filter_cons_of_pos (by simpa using h),
        List.eraseDups_cons, hseen]

/-- Normalizing trims, drops what is blank then, and keeps the first of equal patterns. -/
theorem normalize_eq_eraseDups (patterns : List Utf16) :
    normalize patterns = ((patterns.map Utf16.trim).filter (· ≠ ("" : Utf16))).eraseDups := by
  have hnone (list : List Utf16) : list.filter (· ∉ []) = list :=
    List.filter_eq_self.2 fun _ _ => decide_eq_true List.not_mem_nil
  rw [normalize, dropRepeats_eq_eraseDups, hnone]

/-- Patterns that are trimmed and not blank. -/
def Plain (patterns : List Utf16) : Prop :=
  ∀ pattern ∈ patterns, pattern.trim = pattern ∧ pattern ≠ ""

/-- Patterns as they are saved: trimmed, not blank and without repetitions. -/
structure Tidy (patterns : List Utf16) : Prop where
  plain : Plain patterns
  nodup : patterns.Nodup

theorem Plain.map_trim (h : Plain patterns) : patterns.map Utf16.trim = patterns :=
  (List.map_congr_left fun pattern hp => (h pattern hp).1).trans (List.map_id _)

theorem Plain.normalize (h : Plain patterns) : normalize patterns = patterns.eraseDups := by
  have hblank : patterns.filter (· ≠ ("" : Utf16)) = patterns :=
    List.filter_eq_self.2 fun pattern hp => decide_eq_true (h pattern hp).2
  rw [normalize_eq_eraseDups, h.map_trim, hblank]

theorem eraseDups_eq_self (h : patterns.Nodup) : patterns.eraseDups = patterns := by
  induction patterns with
  | nil => rfl
  | cons pattern rest ih =>
    obtain ⟨hp, hr⟩ := List.nodup_cons.1 h
    have hrest : (rest.filter fun other => !other == pattern) = rest :=
      List.filter_eq_self.2 fun other ho => by simpa using ne_of_mem_of_not_mem ho hp
    rw [List.eraseDups_cons, hrest, ih hr]

theorem Tidy.normalize (h : Tidy patterns) : normalize patterns = patterns :=
  h.plain.normalize.trans (eraseDups_eq_self h.nodup)

/-- What is saved is tidy. -/
theorem tidy_normalize (patterns : List Utf16) : Tidy (normalize patterns) := by
  refine ⟨?_, nodup_dropRepeats _ _⟩
  intro pattern hp
  obtain ⟨hm, -⟩ := mem_dropRepeats_iff.1 hp
  obtain ⟨hm, hblank⟩ := List.mem_filter.1 hm
  obtain ⟨given, -, rfl⟩ := List.mem_map.1 hm
  exact ⟨Utf16.trim_trim given, of_decide_eq_true hblank⟩

theorem Plain.append (h : Plain patterns) (hm : Plain more) : Plain (patterns ++ more) :=
  fun pattern hp => (List.mem_append.1 hp).elim (h pattern) (hm pattern)

theorem plain_trim (h : pattern.trim ≠ "") : Plain [pattern.trim] := by
  intro other ho
  rw [List.mem_singleton.1 ho]
  exact ⟨Utf16.trim_trim pattern, h⟩

/-- Of patterns that come behind a tidy list, those stay that are new, each once. -/
theorem Tidy.normalize_append (h : Tidy patterns) (hm : Plain more) :
    Store.normalize (patterns ++ more) =
      patterns ++ (more.filter (· ∉ patterns)).eraseDups := by
  have hnew : more.removeAll patterns = more.filter (· ∉ patterns) := by
    refine List.filter_congr fun pattern _ => ?_
    simp
  rw [(h.plain.append hm).normalize, List.eraseDups_append, eraseDups_eq_self h.nodup, hnew]

theorem Tidy.normalize_concat (h : Tidy patterns) (hp : pattern.trim ≠ "")
    (hn : pattern.trim ∉ patterns) :
    Store.normalize (patterns ++ [pattern.trim]) = patterns ++ [pattern.trim] := by
  rw [h.normalize_append (plain_trim hp), List.filter_cons_of_pos (by simpa using hn)]
  rfl

theorem Tidy.normalize_eraseIdx (h : Tidy patterns) (i : Nat) :
    Store.normalize (patterns.eraseIdx i) = patterns.eraseIdx i := by
  apply Tidy.normalize
  exact ⟨fun pattern hp => h.plain pattern (List.mem_of_mem_eraseIdx hp),
    h.nodup.sublist (List.eraseIdx_sublist patterns i)⟩

theorem Tidy.normalize_set (h : Tidy patterns) (hp : pattern.trim ≠ "") (i : Nat) :
    Store.normalize (patterns.set i pattern.trim) = (patterns.set i pattern.trim).eraseDups := by
  apply Plain.normalize
  intro other ho
  rcases List.mem_or_eq_of_mem_set ho with ho | rfl
  · exact h.plain other ho
  · exact ⟨Utf16.trim_trim pattern, hp⟩

/-- The patterns of an ignore file are trimmed and not blank. -/
theorem plain_parseIgnoreText (text : String) :
    Plain ((parseIgnoreText text).map Utf16.ofString) := by
  intro pattern hp
  obtain ⟨line, hline, rfl⟩ := List.mem_map.1 hp
  obtain ⟨hline, hkept⟩ := List.mem_filter.1 hline
  obtain ⟨raw, -, rfl⟩ := List.mem_map.1 hline
  rw [Utf16.trim_ofString, Text.trim_trim]
  refine ⟨rfl, fun hb => ?_⟩
  rw [Utf16.ofString_inj.1 hb] at hkept
  simp at hkept

/-! ## What the edits do -/

variable {places : Places} {m n : Model} {list : List Utf16} {index : Int}

/-- A blank pattern, or one that is there, is not added. -/
theorem run_addPattern_of_known (hl : loaded places m = .ok list) (ht : Tidy list)
    (h : pattern.trim = "" ∨ pattern.trim ∈ list) :
    ∃ n, m.run (addPattern places pattern).run = (.ok false, n) ∧ loaded places n = .ok list := by
  rw [addPattern]
  by_cases hb : pattern.trim = ""
  · rw [if_pos hb]
    exact ⟨m, rfl, hl⟩
  · obtain ⟨o, hload, hsame⟩ := exists_run_loadPatterns places m
    rw [hl] at hload
    refine ⟨o, ?_, (loaded_eq_of_sameFiles hsame).trans hl⟩
    rw [if_neg hb, Model.runT_bind_of_eq hload, ht.plain.map_trim,
      if_pos (List.contains_iff_mem.2 (h.resolve_left hb))]
    rfl

theorem run_addPattern_of_new (hl : loaded places m = .ok list) (ht : Tidy list)
    (h : ¬(pattern.trim = "" ∨ pattern.trim ∈ list))
    (hw : canWrite m places.patterns = true) :
    ∃ n, m.run (addPattern places pattern).run = (.ok true, n) ∧
      loaded places n = .ok (list ++ [pattern.trim]) := by
  obtain ⟨hb, hm⟩ := not_or.1 h
  obtain ⟨o, hload, hsame⟩ := exists_run_loadPatterns places m
  rw [hl] at hload
  rw [← canWrite_eq_of_sameFiles hsame] at hw
  obtain ⟨n, hn, hsaved⟩ := exists_run_saving hw (list ++ [pattern.trim]) fun _ => true
  rw [ht.normalize_concat hb hm] at hsaved
  refine ⟨n, ?_, hsaved⟩
  rw [addPattern, ← hn]
  rw [if_neg hb, Model.runT_bind_of_eq hload, ht.plain.map_trim,
    if_neg (mt List.contains_iff_mem.1 hm)]

/-- An index in range means the position that it counts to. -/
theorem position?_eq (patterns : List Utf16) (index : Int) :
    position? patterns index =
      if 0 ≤ index ∧ index < patterns.length then some index.toNat else none := by
  simp only [position?, Bool.and_eq_true, decide_eq_true_eq]

theorem run_removePattern_of_outside (hl : loaded places m = .ok list)
    (h : ¬(0 ≤ index ∧ index < list.length)) :
    ∃ n, m.run (removePattern places index).run = (.ok none, n) ∧ loaded places n = .ok list := by
  obtain ⟨o, hload, hsame⟩ := exists_run_loadPatterns places m
  rw [hl] at hload
  refine ⟨o, ?_, (loaded_eq_of_sameFiles hsame).trans hl⟩
  rw [removePattern, Model.runT_bind_of_eq hload, position?_eq, if_neg h]
  rfl

theorem run_removePattern_of_inside (hl : loaded places m = .ok list) (ht : Tidy list)
    (h : 0 ≤ index ∧ index < list.length) (hw : canWrite m places.patterns = true) :
    ∃ n, m.run (removePattern places index).run = (.ok list[index.toNat]?, n) ∧
      loaded places n = .ok (list.eraseIdx index.toNat) := by
  obtain ⟨o, hload, hsame⟩ := exists_run_loadPatterns places m
  rw [hl] at hload
  rw [← canWrite_eq_of_sameFiles hsame] at hw
  obtain ⟨n, hn, hsaved⟩ := exists_run_saving hw (list.eraseIdx index.toNat)
    fun _ => list[index.toNat]?
  rw [ht.normalize_eraseIdx index.toNat] at hsaved
  refine ⟨n, ?_, hsaved⟩
  rw [removePattern, Model.runT_bind_of_eq hload, position?_eq, if_pos h, ← hn]

theorem run_updatePattern_of_refused (hl : loaded places m = .ok list)
    (h : ¬(pattern.trim ≠ "" ∧ 0 ≤ index ∧ index < list.length)) :
    ∃ n, m.run (updatePattern places index pattern).run = (.ok false, n) ∧
      loaded places n = .ok list := by
  obtain ⟨o, hload, hsame⟩ := exists_run_loadPatterns places m
  rw [hl] at hload
  refine ⟨o, ?_, (loaded_eq_of_sameFiles hsame).trans hl⟩
  rw [updatePattern]
  rw [Model.runT_bind_of_eq hload, position?_eq]
  by_cases hi : 0 ≤ index ∧ index < list.length
  · have hb : pattern.trim = "" := Decidable.byContradiction fun hb => h ⟨hb, hi⟩
    rw [if_pos hi]
    dsimp only
    rw [if_pos hb]
    rfl
  · rw [if_neg hi]
    rfl

theorem run_updatePattern_of_allowed (hl : loaded places m = .ok list) (ht : Tidy list)
    (h : pattern.trim ≠ "" ∧ 0 ≤ index ∧ index < list.length)
    (hw : canWrite m places.patterns = true) :
    ∃ n, m.run (updatePattern places index pattern).run = (.ok true, n) ∧
      loaded places n = .ok (list.set index.toNat pattern.trim).eraseDups := by
  obtain ⟨hb, hi⟩ := h
  obtain ⟨o, hload, hsame⟩ := exists_run_loadPatterns places m
  rw [hl] at hload
  rw [← canWrite_eq_of_sameFiles hsame] at hw
  obtain ⟨n, hn, hsaved⟩ := exists_run_saving hw (list.set index.toNat pattern.trim) fun _ => true
  rw [ht.normalize_set hb index.toNat] at hsaved
  refine ⟨n, ?_, hsaved⟩
  rw [updatePattern, ← hn]
  rw [Model.runT_bind_of_eq hload, position?_eq, if_pos hi]
  dsimp only
  rw [if_neg hb]

/-- The contents of an ignore file. -/
def ignoreFile (m : Model) (name : String) : Except FileProblem (List UInt8) :=
  m.disk.read m.directory (PathName.normalize name)

theorem run_importPatterns_of_error {name : String} {problem : FileProblem}
    (h : ignoreFile m name = .error problem) :
    m.run (importPatterns places name).run = (.ok (.error problem), m) := by
  have hread : m.run (Host.readFile (PathName.normalize name)) = (.error problem, m) := by
    rw [← h]
    rfl
  rw [importPatterns, Model.runT_lift_bind, hread]
  rfl

/-- As many patterns are counted as stand behind the list then. -/
theorem run_importPatterns_of_tidy (hl : loaded places m = .ok list) (ht : Tidy list)
    {name : String} {bytes : List UInt8} (h : ignoreFile m name = .ok bytes)
    (hw : parseIgnoreText (ignoreTextOf bytes) ≠ [] → canWrite m places.patterns = true) :
    let patterns := (parseIgnoreText (ignoreTextOf bytes)).map Utf16.ofString
    let new := (patterns.filter (· ∉ list)).eraseDups
    ∃ n, m.run (importPatterns places name).run = (.ok (.ok new.length), n) ∧
      loaded places n = .ok (list ++ new) := by
  intro patterns new
  obtain ⟨n, hn, hloaded⟩ := run_importPatterns h hl hw
  rw [ht.normalize_append (plain_parseIgnoreText _)] at hn hloaded
  rw [ht.normalize, List.length_append, Nat.add_sub_cancel_left] at hn
  by_cases hi : parseIgnoreText (ignoreTextOf bytes) = []
  · have hnew : new = [] := by
      change ((((parseIgnoreText (ignoreTextOf bytes)).map Utf16.ofString).filter
        (· ∉ list)).eraseDups) = []
      rw [hi]
      rfl
    rw [if_pos hi] at hn hloaded
    exact ⟨n, by rw [hnew]; exact hn, by rw [hnew, List.append_nil]; exact hloaded⟩
  · rw [if_neg hi] at hn hloaded
    exact ⟨n, hn, hloaded⟩

/-! ## Edits -/

/-- An edit of the saved ignore list. -/
inductive PatternEdit where
  | save (patterns : List Utf16)
  | add (pattern : Utf16)
  | remove (index : Int)
  | update (index : Int) (pattern : Utf16)
  | importFile (name : String)

inductive PatternAnswer where
  | saved (patterns : List Utf16)
  | added (isNew : Bool)
  | removed (pattern : Option Utf16)
  | updated (isDone : Bool)
  | imported (count : Except FileProblem Nat)
deriving DecidableEq

namespace PatternEdit

def perform (places : Places) : PatternEdit → Reading PatternAnswer
  | save patterns => do return .saved (← savePatterns places patterns)
  | add pattern => do return .added (← addPattern places pattern)
  | remove index => do return .removed (← removePattern places index)
  | update index pattern => do return .updated (← updatePattern places index pattern)
  | importFile name => do return .imported (← importPatterns places name)

/-- What an edit answers on a list, and the list that it saves, if it saves one. -/
def onList (file : String → Except FileProblem (List UInt8)) (list : List Utf16) :
    PatternEdit → PatternAnswer × Option (List Utf16)
  | save patterns =>
    let kept := ((patterns.map Utf16.trim).filter (· ≠ ("" : Utf16))).eraseDups
    (.saved kept, some kept)
  | add pattern =>
    if pattern.trim = "" ∨ pattern.trim ∈ list then (.added false, none)
    else (.added true, some (list ++ [pattern.trim]))
  | remove index =>
    if 0 ≤ index ∧ index < list.length then
      (.removed list[index.toNat]?, some (list.eraseIdx index.toNat))
    else (.removed none, none)
  | update index pattern =>
    if pattern.trim ≠ "" ∧ 0 ≤ index ∧ index < list.length then
      (.updated true, some (list.set index.toNat pattern.trim).eraseDups)
    else (.updated false, none)
  | importFile name =>
    match file name with
    | .error problem => (.imported (.error problem), none)
    | .ok bytes =>
      let patterns := (parseIgnoreText (ignoreTextOf bytes)).map Utf16.ofString
      let new := (patterns.filter (· ∉ list)).eraseDups
      (.imported (.ok new.length), if patterns = [] then none else some (list ++ new))

/-- The list can be written if the edit saves one. -/
def Writes (places : Places) (m : Model) (edit : PatternEdit) : Prop :=
  ∀ list, loaded places m = .ok list → (edit.onList (ignoreFile m) list).2.isSome →
    canWrite m places.patterns = true

/-- An edit answers as it does on the list that is loaded, and leaves the list that it says. -/
def Follows (places : Places) (m : Model) (edit : PatternEdit) : Prop :=
  ∃ list n, loaded places m = .ok list ∧
    m.run (edit.perform places).run = (.ok (edit.onList (ignoreFile m) list).1, n) ∧
    loaded places n = .ok ((edit.onList (ignoreFile m) list).2.getD list)

theorem follows_save (hl : loaded places m = .ok list) (patterns : List Utf16)
    (hw : (save patterns).Writes places m) : (save patterns).Follows places m := by
  obtain ⟨n, hn, hsaved⟩ := exists_run_saving (hw list hl rfl) patterns PatternAnswer.saved
  rw [normalize_eq_eraseDups] at hn hsaved
  exact ⟨list, n, hl, hn, hsaved⟩

theorem follows_add (hl : loaded places m = .ok list) (ht : Tidy list) (pattern : Utf16)
    (hw : (add pattern).Writes places m) : (add pattern).Follows places m := by
  have hw := hw list hl
  refine ⟨list, ?_⟩
  rw [onList] at hw ⊢
  split at hw
  · next h =>
    obtain ⟨n, hn, hsaved⟩ := run_addPattern_of_known hl ht h
    rw [if_pos h]
    exact ⟨n, hl, Model.runT_bind_of_eq hn _, hsaved⟩
  · next h =>
    obtain ⟨n, hn, hsaved⟩ := run_addPattern_of_new hl ht h (hw rfl)
    rw [if_neg h]
    exact ⟨n, hl, Model.runT_bind_of_eq hn _, hsaved⟩

theorem follows_remove (hl : loaded places m = .ok list) (ht : Tidy list) (index : Int)
    (hw : (remove index).Writes places m) : (remove index).Follows places m := by
  have hw := hw list hl
  refine ⟨list, ?_⟩
  rw [onList] at hw ⊢
  split at hw
  · next h =>
    obtain ⟨n, hn, hsaved⟩ := run_removePattern_of_inside hl ht h (hw rfl)
    rw [if_pos h]
    exact ⟨n, hl, Model.runT_bind_of_eq hn _, hsaved⟩
  · next h =>
    obtain ⟨n, hn, hsaved⟩ := run_removePattern_of_outside hl h
    rw [if_neg h]
    exact ⟨n, hl, Model.runT_bind_of_eq hn _, hsaved⟩

theorem follows_update (hl : loaded places m = .ok list) (ht : Tidy list) (index : Int)
    (pattern : Utf16) (hw : (update index pattern).Writes places m) :
    (update index pattern).Follows places m := by
  have hw := hw list hl
  refine ⟨list, ?_⟩
  rw [onList] at hw ⊢
  split at hw
  · next h =>
    obtain ⟨n, hn, hsaved⟩ := run_updatePattern_of_allowed hl ht h (hw rfl)
    rw [if_pos h]
    exact ⟨n, hl, Model.runT_bind_of_eq hn _, hsaved⟩
  · next h =>
    obtain ⟨n, hn, hsaved⟩ := run_updatePattern_of_refused hl h
    rw [if_neg h]
    exact ⟨n, hl, Model.runT_bind_of_eq hn _, hsaved⟩

theorem follows_importFile (hl : loaded places m = .ok list) (ht : Tidy list) (name : String)
    (hw : (importFile name).Writes places m) : (importFile name).Follows places m := by
  have hw := hw list hl
  refine ⟨list, ?_⟩
  rw [onList] at hw ⊢
  cases hf : ignoreFile m name with
  | error problem =>
    exact ⟨m, hl, Model.runT_bind_of_eq (run_importPatterns_of_error hf) _, hl⟩
  | ok bytes =>
    rw [hf] at hw
    dsimp only at hw ⊢
    obtain ⟨n, hn, hsaved⟩ := run_importPatterns_of_tidy hl ht hf fun hne =>
      hw (by rw [if_neg (mt List.map_eq_nil_iff.1 hne), Option.isSome_some])
    refine ⟨n, hl, Model.runT_bind_of_eq hn _, hsaved.trans (congrArg Except.ok ?_)⟩
    split
    · next h => rw [h]; exact List.append_nil _
    · rfl

/-- Each edit follows the list, if it is tidy. -/
theorem follows (hl : loaded places m = .ok list) (ht : Tidy list) (edit : PatternEdit)
    (hw : edit.Writes places m) : edit.Follows places m := by
  cases edit with
  | save patterns => exact follows_save hl patterns hw
  | add pattern => exact follows_add hl ht pattern hw
  | remove index => exact follows_remove hl ht index hw
  | update index pattern => exact follows_update hl ht index pattern hw
  | importFile name => exact follows_importFile hl ht name hw

/-- On a tidy list, an edit saves a tidy one. -/
theorem tidy_onList {kept : List Utf16} (ht : Tidy list) (edit : PatternEdit)
    {file : String → Except FileProblem (List UInt8)} (h : (edit.onList file list).2 = some kept) :
    Tidy kept := by
  have hnormal : ∃ patterns, kept = normalize patterns := by
    cases edit with
    | save patterns =>
      exact ⟨patterns, (Option.some.inj h).symm.trans (normalize_eq_eraseDups patterns).symm⟩
    | add pattern =>
      rw [onList] at h
      split at h
      · cases h
      · next hnew =>
        obtain ⟨hb, hm⟩ := not_or.1 hnew
        exact ⟨_, (Option.some.inj h).symm.trans (ht.normalize_concat hb hm).symm⟩
    | remove index =>
      rw [onList] at h
      split at h
      · exact ⟨_, (Option.some.inj h).symm.trans (ht.normalize_eraseIdx index.toNat).symm⟩
      · cases h
    | update index pattern =>
      rw [onList] at h
      split at h
      · next hin =>
        exact ⟨_, (Option.some.inj h).symm.trans (ht.normalize_set hin.1 index.toNat).symm⟩
      · cases h
    | importFile name =>
      rw [onList] at h
      split at h
      · cases h
      · next bytes _ =>
        dsimp only at h
        split at h
        · cases h
        · have hplain := plain_parseIgnoreText (ignoreTextOf bytes)
          exact ⟨_, (Option.some.inj h).symm.trans (ht.normalize_append hplain).symm⟩
  obtain ⟨patterns, rfl⟩ := hnormal
  exact tidy_normalize patterns

end PatternEdit

/-- The saved list can be loaded, and it is tidy. -/
def LoadsTidy (places : Places) (m : Model) : Prop :=
  ∃ list, loaded places m = .ok list ∧ Tidy list

theorem PatternEdit.loadsTidy_perform (h : LoadsTidy places m) (edit : PatternEdit)
    (hw : edit.Writes places m) : LoadsTidy places (m.run (edit.perform places).run).2 := by
  obtain ⟨list, hl, ht⟩ := h
  obtain ⟨found, n, hfound, hn, hsaved⟩ := edit.follows hl ht hw
  rw [hl] at hfound
  cases hfound
  rw [hn]
  refine ⟨_, hsaved, ?_⟩
  cases hkept : (edit.onList (ignoreFile m) list).2 with
  | none => exact ht
  | some kept => exact PatternEdit.tidy_onList ht edit hkept

/-- Where the saved list is nested too deeply to be loaded, an edit that would change it stops
before anything is written. -/
theorem PatternEdit.sameFiles_perform_of_error {part : Json.Overflow} {edit : PatternEdit}
    (h : loaded places m = .error part) (hs : ∀ patterns, edit ≠ .save patterns) :
    m.SameFiles (m.run (edit.perform places).run).2 := by
  obtain ⟨o, hload, hsame⟩ := exists_run_loadPatterns places m
  rw [h] at hload
  cases edit with
  | save patterns => exact absurd rfl (hs patterns)
  | add pattern =>
    rw [perform, Model.runT_bind_pure, addPattern]
    split_ifs
    · exact ⟨rfl, rfl⟩
    · rwa [Model.runT_bind_of_error hload]
  | remove index =>
    rw [perform, Model.runT_bind_pure, removePattern, Model.runT_bind_of_error hload]
    exact hsame
  | update index pattern =>
    rw [perform, Model.runT_bind_pure, updatePattern, Model.runT_bind_of_error hload]
    exact hsame
  | importFile name =>
    rw [perform, Model.runT_bind_pure]
    cases hf : ignoreFile m name with
    | error problem =>
      rw [run_importPatterns_of_error hf]
      exact ⟨rfl, rfl⟩
    | ok bytes =>
      have hread : m.run (Host.readFile (PathName.normalize name)) = (.ok bytes, m) := by
        rw [← hf]
        rfl
      rw [importPatterns, Model.runT_lift_bind, hread]
      dsimp only
      split_ifs
      · exact ⟨rfl, rfl⟩
      · rwa [Model.runT_bind_of_error hload]

/-- The saved list is tidy where there is none yet and after each save. From there on each edit
answers and changes it as on a list, and it stays tidy. -/
theorem patternEdits_follow_list (places : Places) :
    (∀ m, document m places.patterns = .ok none → LoadsTidy places m) ∧
    (∀ m patterns, canWrite m places.patterns = true →
      LoadsTidy places (m.run (savePatterns places patterns)).2) ∧
    ∀ m uses n, LoadsTidy places m →
      LeadsTo places.patterns (PatternEdit.perform places) m uses n →
      (∀ use ∈ uses, use.2.Writes places use.1) →
      LoadsTidy places n ∧
        ∀ edit : PatternEdit, edit.Writes places n → edit.Follows places n := by
  refine ⟨?_, ?_, ?_⟩
  · intro m h
    refine ⟨[], ?_, nofun, List.nodup_nil⟩
    rw [loaded_eq, h]
    rfl
  · intro m patterns hw
    obtain ⟨n, hn, hl⟩ := run_savePatterns hw patterns
    rw [hn]
    exact ⟨_, hl, tidy_normalize patterns⟩
  · intro m uses n hm hrun hw
    have hn : LoadsTidy places n := by
      refine hrun.invariant (P := fun _ o => LoadsTidy places o) hw hm ?_
        fun _ o edit hw ho => PatternEdit.loadsTidy_perform ho edit hw
      intro _ o p hsame ho
      rwa [LoadsTidy, loaded_eq, hsame, ← loaded_eq]
    obtain ⟨list, hl, ht⟩ := hn
    exact ⟨⟨list, hl, ht⟩, PatternEdit.follows hl ht⟩

/-- A pattern is added, and then the only other one of an ignore file. -/
theorem patternEdits_follow_list_import :
    let places := Places.inDirectory "/store"
    let m : Model :=
      { disk := { items := [(["rules"], .file (Text.toUtf8 "*.log\n!keep.log\n*.log\n"))] } }
    let n := (m.run ((PatternEdit.add " *.log ").perform places).run).2
    LoadsTidy places m ∧ (PatternEdit.add " *.log ").Writes places m ∧
      LoadsTidy places n ∧ (PatternEdit.importFile "/rules").Writes places n ∧
      ∃ o, n.run ((PatternEdit.importFile "/rules").perform places).run =
          (.ok (.imported (.ok 1)), o) ∧
        loaded places o = .ok ["*.log", "!keep.log"] := by
  intro places m n
  have hnone : (m.disk.read m.directory places.patterns).toOption = none := by decide +kernel
  have hm : LoadsTidy places m :=
    (patternEdits_follow_list places).1 m (by rw [document_eq, hnone, readAs])
  have hadd : (PatternEdit.add " *.log ").Writes places m := fun _ _ _ => by decide +kernel
  have himport : (PatternEdit.importFile "/rules").Writes places n :=
    fun _ _ _ => by decide +kernel
  obtain ⟨hn, hfollows⟩ := (patternEdits_follow_list places).2.2 m _ n hm
    (.use .refl (PatternEdit.add " *.log ")) (List.forall_mem_singleton.2 hadd)
  obtain ⟨list, o, hl, ho, hsaved⟩ := hfollows (.importFile "/rules") himport
  have hlist : loaded places n = .ok ["*.log"] := by decide +kernel
  rw [hl] at hlist
  cases hlist
  have honList : (PatternEdit.importFile "/rules").onList (ignoreFile n) ["*.log"] =
      (.imported (.ok 1), some (["*.log", "!keep.log"] : List Utf16)) := by decide +kernel
  rw [honList] at ho hsaved
  exact ⟨hm, hadd, hn, himport, o, ho, hsaved⟩

end Store

end FileSieve
