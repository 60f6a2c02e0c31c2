import Mathlib.Tactic.SplitIfs
import FileSieve.Files.Disk

/-! # What was written is read

Writing changes what stands at one place, be it a file or nothing. Until a search for a name comes
to that place it goes the same way as before, so that the name leads to what was written. -/

namespace FileSieve.Disk

variable {d e : Disk} {place q : Place} {directory : Place} {name : String} {bytes : List UInt8}

/-! ### Items -/

theorem lookup_map_put {items : List (Place × Item)} (item : Item) (q : Place) :
    (items.map fun entry => if entry.1 = place then (place, item) else entry).lookup q =
      if q = place then (items.lookup q).map fun _ => item else items.lookup q := by
  induction items with
  | nil => simp
  | cons entry items ih =>
    obtain ⟨other, old⟩ := entry
    by_cases ho : other = place
    · subst ho
      by_cases hq : q = other
      · simp [hq]
      · have hb : (q == other) = false := by simpa using hq
        simpa [List.lookup_cons, hb, hq] using ih
    · by_cases hq : q = other
      · subst hq
        simp [ho]
      · have hb : (q == other) = false := by simpa using hq
        simpa [List.lookup_cons, hb, ho] using ih

/-- Putting an item at a place changes nothing elsewhere. -/
theorem item?_put (hp : place ≠ []) (item : Item) (q : Place) :
    (d.put place item).item? q = if q = place then some item else d.item? q := by
  unfold put item?
  by_cases hq : q = []
  · rw [if_pos hq, if_pos hq, if_neg (hq ▸ hp.symm)]
  rw [if_neg hq, if_neg hq]
  split
  · next hs =>
    obtain ⟨old, ho⟩ := Option.isSome_iff_exists.1 hs
    rw [lookup_map_put]
    by_cases hqp : q = place
    · rw [if_pos hqp, if_pos hqp, hqp, ho]
      rfl
    · rw [if_neg hqp, if_neg hqp]
  · next hs =>
    have hn : d.items.lookup place = none := Option.not_isSome_iff_eq_none.1 hs
    rw [List.lookup_append]
    by_cases hqp : q = place
    · simp [hqp, hn]
    · have hb : (q == place) = false := by simpa using hqp
      simp [List.lookup_cons, hb, hqp]

/-! ### Searches -/

/-- A part of a name that leads further down. -/
structure LeadsDown (part : String) : Prop where
  not_here : ¬(part = "" || part = ".")
  not_up : part ≠ ".."
  short : ¬part.utf8ByteSize > partLimit

theorem descend_cons {followLast : Bool} {part : String} (hq : d.isDirectoryAt q = true)
    (hp : LeadsDown part) (rest : List String) :
    d.descend followLast q (part :: rest) =
      match d.item? (q ++ [part]) with
      | none =>
        if rest.all (· = "") then .ok (.missing (q ++ [part]) !rest.isEmpty) else .error .notFound
      | some (.link target) =>
        if rest.isEmpty && !followLast then .ok (.item (q ++ [part]) (.link target))
        else .ok (.link q target rest)
      | some _ => d.descend followLast (q ++ [part]) rest := by
  rw [descend, if_neg (by simp [hq]), if_neg hp.not_here, if_neg hp.not_up]
  exact if_neg hp.short

theorem descend_here {followLast : Bool} {part : String} (hq : d.isDirectoryAt q = true)
    (hp : part = "" || part = ".") (rest : List String) :
    d.descend followLast q (part :: rest) = d.descend followLast q rest := by
  rw [descend, if_neg (by simp [hq]), if_pos hp]

theorem descend_up {followLast : Bool} (hq : d.isDirectoryAt q = true) (rest : List String) :
    d.descend followLast q (".." :: rest) = d.descend followLast q.dropLast rest := by
  rw [descend, if_neg (by simp [hq]), if_neg (by decide), if_pos rfl]

/-- A search that gets somewhere starts in a directory, and its first part stays there, leads up or
leads down. -/
theorem descend_cases {followLast : Bool} {part : String} {rest : List String} {found : Found}
    (h : d.descend followLast q (part :: rest) = .ok found) :
    d.isDirectoryAt q = true ∧ ((part = "" || part = ".") = true ∨ part = ".." ∨ LeadsDown part) := by
  rw [descend] at h
  by_cases hq : d.isDirectoryAt q = true
  · refine ⟨hq, ?_⟩
    rw [if_neg (by simp [hq])] at h
    by_cases hhere : (part = "" || part = ".") = true
    · exact .inl hhere
    · rw [if_neg hhere] at h
      by_cases hup : part = ".."
      · exact .inr (.inl hup)
      · rw [if_neg hup] at h
        by_cases hlong : part.utf8ByteSize > partLimit
        · rw [if_pos hlong] at h
          cases h
        · exact .inr (.inr ⟨hhere, hup, hlong⟩)
  · rw [if_pos (by simp [hq])] at h
    cases h

/-- A search ends at what stands at a place. -/
def Leads (d : Disk) : Found → Prop
  | .item q item => d.item? q = some item
  | .missing q _ => d.item? q = none
  | .link _ _ _ => True

theorem leads_of_descend {followLast : Bool} {parts : List String} {found : Found}
    (h : d.descend followLast q parts = .ok found) : d.Leads found := by
  induction parts generalizing q with
  | nil =>
    rw [descend] at h
    split at h
    · next hi =>
      cases h
      exact hi
    · cases h
  | cons part rest ih =>
    obtain ⟨hq, hhere | rfl | hp⟩ := descend_cases h
    · rw [descend_here hq hhere] at h
      exact ih h
    · rw [descend_up hq] at h
      exact ih h
    · rw [descend_cons hq hp] at h
      split at h
      · next hi =>
        split at h
        · cases h
          exact hi
        · cases h
      · next hi =>
        split at h
        · cases h
          exact hi
        · cases h
          trivial
      · exact ih h

theorem follow_of_link {followLast : Bool} {links : Nat} {parts rest : List String} {target : String}
    (h : d.descend followLast q parts = .ok (.link directory target rest)) :
    d.follow followLast (links + 1) q parts =
      d.follow followLast links (startOf directory target) (partsOf target ++ rest) := by
  rw [follow, h]
  rfl

theorem follow_of_item {followLast : Bool} {links : Nat} {parts : List String} {item : Item}
    (h : d.descend followLast q parts = .ok (.item place item)) :
    d.follow followLast links q parts = .ok (.item place item) := by
  rw [follow.eq_def, h]
  rfl

/-- A search comes to an end, or it comes to a link and goes on at its target. -/
theorem follow_cases {followLast : Bool} {links : Nat} {parts : List String} {found : Found}
    (h : d.follow followLast links q parts = .ok found) :
    (d.descend followLast q parts = .ok found ∧
        ∀ directory target rest, found ≠ .link directory target rest) ∨
      ∃ n directory target rest, links = n + 1 ∧
        d.descend followLast q parts = .ok (.link directory target rest) ∧
        d.follow followLast n (startOf directory target) (partsOf target ++ rest) = .ok found := by
  cases hd : d.descend followLast q parts with
  | error cause =>
    rw [follow.eq_def, hd] at h
    cases h
  | ok reached =>
    cases reached with
    | item place item =>
      rw [follow.eq_def, hd] at h
      cases h
      exact .inl ⟨rfl, nofun⟩
    | missing place slashAfter =>
      rw [follow.eq_def, hd] at h
      cases h
      exact .inl ⟨rfl, nofun⟩
    | link directory target rest =>
      cases links with
      | zero =>
        rw [follow.eq_def, hd] at h
        cases h
      | succ n =>
        rw [follow_of_link hd] at h
        exact .inr ⟨n, directory, target, rest, rfl, rfl, h⟩

theorem leads_of_follow {followLast : Bool} {links : Nat} {parts : List String} {found : Found}
    (h : d.follow followLast links q parts = .ok found) : d.Leads found := by
  induction links generalizing q parts with
  | zero =>
    rcases follow_cases h with ⟨hd, -⟩ | ⟨n, directory, target, rest, hn, -⟩
    · exact leads_of_descend hd
    · cases hn
  | succ links ih =>
    rcases follow_cases h with ⟨hd, -⟩ | ⟨n, directory, target, rest, hn, -, hf⟩
    · exact leads_of_descend hd
    · cases hn
      exact ih hf

/-! ### Searches in a file system that was written to -/

/-- Two file systems differ at one place only, where one has a file or nothing and the other has a
file with given contents. -/
structure Renews (d e : Disk) (place : Place) (bytes : List UInt8) : Prop where
  before : d.item? place = none ∨ ∃ old, d.item? place = some (.file old)
  after : e.item? place = some (.file bytes)
  elsewhere : ∀ q, q ≠ place → e.item? q = d.item? q

/-- What a search that came to a place, or to a link on the way, comes to once there is a file. -/
inductive Settles (place : Place) (bytes : List UInt8) : Found → Found → Prop
  | item (item : Item) : Settles place bytes (.item place item) (.item place (.file bytes))
  | missing : Settles place bytes (.missing place false) (.item place (.file bytes))
  | link (directory : Place) (target : String) (rest : List String) :
      Settles place bytes (.link directory target rest) (.link directory target rest)

/-- Directories and links are untouched. -/
theorem Renews.item? (h : Renews d e place bytes) {item : Item} (hi : d.item? q = some item)
    (hf : ∀ old, item ≠ .file old) : e.item? q = some item := by
  have hne : q ≠ place := by
    rintro rfl
    rcases h.before with hb | ⟨old, hb⟩
    · rw [hb] at hi
      cases hi
    · rw [hb] at hi
      cases hi
      exact hf old rfl
  rw [h.elsewhere q hne, hi]

theorem Renews.isDirectoryAt (h : Renews d e place bytes) (hq : d.isDirectoryAt q = true) :
    e.isDirectoryAt q = true := by
  unfold Disk.isDirectoryAt at hq ⊢
  rw [h.item? (beq_iff_eq.1 hq) nofun]
  rfl

theorem descend_renews (h : Renews d e place bytes) {parts : List String} {found new : Found}
    (hd : d.descend true q parts = .ok found) (hs : Settles place bytes found new) :
    e.descend true q parts = .ok new := by
  induction parts generalizing q with
  | nil =>
    rw [descend] at hd
    split at hd
    · next hi =>
      cases hd
      cases hs
      rw [descend, h.after]
    · cases hd
  | cons part rest ih =>
    obtain ⟨hq, hhere | rfl | hp⟩ := descend_cases hd
    · rw [descend_here hq hhere] at hd
      rw [descend_here (h.isDirectoryAt hq) hhere]
      exact ih hd
    · rw [descend_up hq] at hd
      rw [descend_up (h.isDirectoryAt hq)]
      exact ih hd
    · rw [descend_cons hq hp] at hd
      rw [descend_cons (h.isDirectoryAt hq) hp]
      cases hi : d.item? (q ++ [part]) with
      | none =>
        rw [hi] at hd
        dsimp only at hd
        split at hd
        · generalize hslash : (!rest.isEmpty) = slashAfter at hd
          cases hd
          cases hs
          obtain rfl : rest = [] := by simpa using hslash
          rw [h.after]
          dsimp only
          rw [descend, h.after]
        · cases hd
      | some item =>
        rw [hi] at hd
        cases item with
        | link target =>
          rw [h.item? hi nofun]
          dsimp only at hd ⊢
          rw [Bool.not_true, Bool.and_false, if_neg Bool.false_ne_true] at hd ⊢
          cases hd
          cases hs
          rfl
        | directory =>
          rw [h.item? hi nofun]
          exact ih hd
        | file old =>
          by_cases hp : q ++ [part] = place
          · rw [hp, h.after]
            rw [hp] at hd
            exact ih hd
          · rw [h.elsewhere _ hp, hi]
            exact ih hd

theorem follow_renews (h : Renews d e place bytes) {links : Nat} {parts : List String}
    {found : Found} (hf : d.follow true links q parts = .ok found)
    (hs : Settles place bytes found (.item place (.file bytes))) :
    e.follow true links q parts = .ok (.item place (.file bytes)) := by
  induction links generalizing q parts with
  | zero =>
    rcases follow_cases hf with ⟨hd, -⟩ | ⟨n, directory, target, rest, hn, -⟩
    · exact follow_of_item (descend_renews h hd hs)
    · cases hn
  | succ links ih =>
    rcases follow_cases hf with ⟨hd, -⟩ | ⟨n, directory, target, rest, hn, hd, hf⟩
    · exact follow_of_item (descend_renews h hd hs)
    · cases hn
      rw [follow_of_link (descend_renews h hd (.link directory target rest))]
      exact ih hf

/-! ### Reading and writing -/

theorem blame_eq_ok {α : Type} {result : Except FileCause α} {value : α} :
    blame name result = .ok value ↔ result = .ok value := by
  cases result with
  | ok found => simp [blame]
  | error cause => simp [blame]

theorem read_of_locate (h : e.locate true directory name = .ok (.item place (.file bytes))) :
    e.read directory name = .ok bytes := by
  rw [read, h]
  rfl

/-- A name that can be located is looked up in the same way in every file system. -/
theorem locate_cases {followLast : Bool} {found : Found}
    (h : d.locate followLast directory name = .ok found) (e : Disk) :
    e.locate followLast directory name =
      e.follow followLast linkLimit (startOf directory name) (partsOf name) := by
  unfold locate at h ⊢
  split_ifs at h ⊢
  rfl

theorem renews_put (h : d.Leads (.missing place false) ∨ ∃ old, d.Leads (.item place (.file old)))
    (bytes : List UInt8) : Renews d (d.put place (.file bytes)) place bytes := by
  have hp : place ≠ [] := by
    rintro rfl
    rcases h with h | ⟨old, h⟩
    · cases h
    · cases h
  refine ⟨h, ?_, ?_⟩
  · rw [item?_put hp, if_pos rfl]
  · intro q hq
    rw [item?_put hp, if_neg hq]

theorem read_put {found : Found} (hl : d.locate true directory name = .ok found)
    (hs : Settles place bytes found (.item place (.file bytes)))
    (hr : d.Leads found → Renews d (d.put place (.file bytes)) place bytes) :
    (d.put place (.file bytes)).read directory name = .ok bytes := by
  have hf := hl
  rw [locate_cases hl] at hf
  apply read_of_locate
  rw [locate_cases hl]
  exact follow_renews (hr (leads_of_follow hf)) hf hs

/-- A file that was written holds what was written. -/
theorem read_of_write (h : d.write directory name bytes = .ok e) :
    e.read directory name = .ok bytes := by
  rw [write, blame_eq_ok] at h
  cases hl : d.locate true directory name with
  | error cause =>
    rw [hl] at h
    cases h
  | ok found =>
    rw [hl] at h
    cases found with
    | link directory target rest => cases h
    | item place item =>
      cases item with
      | link target => cases h
      | directory => cases h
      | file old =>
        cases h
        exact read_put hl (.item _) fun hleads => renews_put (.inr ⟨old, hleads⟩) bytes
    | missing place slashAfter =>
      cases slashAfter with
      | true => cases h
      | false =>
        cases h
        exact read_put hl .missing fun hleads => renews_put (.inl hleads) bytes

end FileSieve.Disk
