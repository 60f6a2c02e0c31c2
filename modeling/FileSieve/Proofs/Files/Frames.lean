import FileSieve.Proofs.Files.Listing

/-! # What a write leaves as it was

A name that leads elsewhere than to the place of a file leads there before the file is written and
after it. Making a directory with those above it leaves nothing to be made a second time. -/

namespace FileSieve.Disk

variable {d e : Disk} {place q : Place} {directory : Place} {name : String} {bytes : List UInt8}
  {followLast : Bool}

/-! ### Grounded file systems -/

/-- What stands somewhere stands in a directory. -/
def Grounded (d : Disk) : Prop :=
  ∀ entry ∈ d.items, d.isDirectoryAt entry.1.dropLast = true

instance (d : Disk) : Decidable d.Grounded :=
  inferInstanceAs (Decidable (∀ entry ∈ d.items, _))

theorem Grounded.isDirectoryAt_dropLast (h : d.Grounded) (hq : (d.item? q).isSome = true) :
    d.isDirectoryAt q.dropLast = true := by
  by_cases ht : q = []
  · rw [ht]
    rfl
  · rw [item?, if_neg ht] at hq
    obtain ⟨item, hitem⟩ := Option.isSome_iff_exists.1 hq
    obtain ⟨front, back, hitems, -⟩ := List.lookup_eq_some_iff.1 hitem
    exact h (q, item) (by simp [hitems])

theorem isSome_of_isDirectoryAt (h : d.isDirectoryAt q = true) : (d.item? q).isSome = true := by
  rw [isDirectoryAt, beq_iff_eq] at h
  rw [h]
  rfl

theorem isDirectoryAt_put {item : Item} (hp : d.isDirectoryAt place = false)
    (hq : d.isDirectoryAt q = true) : (d.put place item).isDirectoryAt q = true := by
  have hne : place ≠ [] := by
    rintro rfl
    cases hp
  have hqp : q ≠ place := by
    rintro rfl
    rw [hp] at hq
    cases hq
  rwa [isDirectoryAt, item?_put hne, if_neg hqp]

theorem fst_mem_of_mem_put {item : Item} {entry : Place × Item}
    (h : entry ∈ (d.put place item).items) :
    entry.1 = place ∨ ∃ old ∈ d.items, entry.1 = old.1 := by
  unfold put at h
  split at h
  · obtain ⟨old, ho, rfl⟩ := List.mem_map.1 h
    by_cases hp : old.1 = place
    · exact .inl (by rw [if_pos hp])
    · exact .inr ⟨old, ho, by rw [if_neg hp]⟩
  · rcases List.mem_append.1 h with h | h
    · exact .inr ⟨entry, h, rfl⟩
    · exact .inl (by rw [List.mem_singleton.1 h])

/-- A file system stays grounded when something new is put into a directory. -/
theorem Grounded.put (h : d.Grounded) {item : Item} (hp : d.isDirectoryAt place = false)
    (hup : d.isDirectoryAt place.dropLast = true) : (d.put place item).Grounded := by
  intro entry he
  rcases fst_mem_of_mem_put he with hplace | ⟨old, ho, hplace⟩
  · rw [hplace]
    exact isDirectoryAt_put hp hup
  · rw [hplace]
    exact isDirectoryAt_put hp (h old ho)

/-! ### Searches that end elsewhere -/

/-- A search has come to a place. -/
def Found.IsAt (place : Place) : Found → Prop
  | .item q _ => q = place
  | .missing q _ => q = place
  | .link _ _ _ => False

instance (place : Place) : (found : Found) → Decidable (found.IsAt place)
  | .item q _ => inferInstanceAs (Decidable (q = place))
  | .missing q _ => inferInstanceAs (Decidable (q = place))
  | .link _ _ _ => inferInstanceAs (Decidable False)

theorem Found.IsAt.unique {found : Found} (h : found.IsAt place) (h' : found.IsAt q) :
    place = q := by
  cases found with
  | item => exact h.symm.trans h'
  | missing => exact h.symm.trans h'
  | link => exact h.elim

/-- What a search comes to after a change if it ended elsewhere than at a place before. In a
grounded file system a search that failed fails, but maybe in another way. -/
def Keeps (d : Disk) (place : Place) :
    Except FileCause Found → Except FileCause Found → Prop
  | .ok found, after => ¬found.IsAt place → after = .ok found
  | .error _, after => d.Grounded → ∃ cause, after = .error cause

theorem keeps_refl (d : Disk) (place : Place) (result : Except FileCause Found) :
    d.Keeps place result result := by
  cases result with
  | ok found => exact fun _ => rfl
  | error cause => exact fun _ => ⟨cause, rfl⟩

theorem descend_of_file {old : List UInt8} (hi : d.item? q = some (.file old)) {rest : List String}
    (hrest : rest ≠ []) : d.descend followLast q rest = .error .notDirectory := by
  obtain ⟨part, more, rfl⟩ := List.exists_cons_of_ne_nil hrest
  have hdir : d.isDirectoryAt q = false := by
    rw [isDirectoryAt, hi]
    rfl
  rw [descend, if_pos (by simp [hdir])]

/-- Going down by one part keeps what the search goes on with. -/
theorem descend_cons_keeps (h : Renews d e place bytes) {part : String} {rest : List String}
    (hdir : d.isDirectoryAt q = true) (hpart : LeadsDown part)
    (ih : (d.Grounded → rest = [] → (d.item? (q ++ [part])).isSome = true) →
      d.Keeps place (d.descend followLast (q ++ [part]) rest)
        (e.descend followLast (q ++ [part]) rest)) :
    d.Keeps place (d.descend followLast q (part :: rest))
      (e.descend followLast q (part :: rest)) := by
  rw [descend_cons hdir hpart, descend_cons (h.isDirectoryAt hdir) hpart]
  cases hi : d.item? (q ++ [part]) with
  | none =>
    by_cases hnext : q ++ [part] = place
    · -- The search stops short of the place before the write, and at a file after it.
      rw [hnext, h.after]
      dsimp only
      split
      · exact fun hne => absurd rfl hne
      · next hall =>
        refine fun _ => ⟨.notDirectory, descend_of_file h.after ?_⟩
        rintro rfl
        exact hall rfl
    · rw [h.elsewhere _ hnext, hi]
      exact keeps_refl d place _
  | some item =>
    have hthere : d.Grounded → rest = [] → (d.item? (q ++ [part])).isSome = true := by
      intro _ _
      rw [hi]
      rfl
    cases item with
    | link target =>
      rw [h.item? hi fun _ => Item.noConfusion]
      exact keeps_refl d place _
    | directory =>
      rw [h.item? hi fun _ => Item.noConfusion]
      exact ih hthere
    | file old =>
      by_cases hnext : q ++ [part] = place
      · have hdown := ih hthere
        rw [hnext] at hdown ⊢
        rw [h.after]
        exact hdown
      · rw [h.elsewhere _ hnext, hi]
        exact ih hthere

theorem descend_keeps (h : Renews d e place bytes) {parts : List String}
    (hq : d.Grounded → parts = [] → (d.item? q).isSome = true) :
    d.Keeps place (d.descend followLast q parts) (e.descend followLast q parts) := by
  induction parts generalizing q with
  | nil =>
    rw [descend]
    cases hitem : d.item? q with
    | none =>
      intro hg
      have hsome := hq hg rfl
      rw [hitem] at hsome
      cases hsome
    | some item =>
      intro hne
      have hqp : q ≠ place := hne
      rw [descend, h.elsewhere q hqp, hitem]
  | cons part rest ih =>
    cases hdir : d.isDirectoryAt q with
    | false =>
      have hafter : e.isDirectoryAt q = false := by
        by_cases hqp : q = place
        · rw [isDirectoryAt, hqp, h.after]
          rfl
        · rwa [isDirectoryAt, h.elsewhere q hqp]
      rw [descend, if_pos (by simp [hdir])]
      exact fun _ => ⟨.notDirectory, by rw [descend, if_pos (by simp [hafter])]⟩
    | true =>
      have hafter := h.isDirectoryAt hdir
      have hhere := isSome_of_isDirectoryAt hdir
      by_cases hstay : (part = "" || part = ".") = true
      · rw [descend_here hdir hstay, descend_here hafter hstay]
        exact ih fun _ _ => hhere
      by_cases hup : part = ".."
      · subst hup
        rw [descend_up hdir, descend_up hafter]
        exact ih fun hg _ => isSome_of_isDirectoryAt (hg.isDirectoryAt_dropLast hhere)
      by_cases hlong : part.utf8ByteSize > partLimit
      · have herror (disk : Disk) (hd : disk.isDirectoryAt q = true) :
            disk.descend followLast q (part :: rest) = .error .nameTooLong := by
          rw [descend, if_neg (by simp [hd]), if_neg hstay, if_neg hup, if_pos hlong]
        rw [herror d hdir]
        exact fun _ => ⟨.nameTooLong, herror e hafter⟩
      have hpart : LeadsDown part := ⟨hstay, hup, hlong⟩
      exact descend_cons_keeps h hdir hpart ih

theorem follow_keeps (h : Renews d e place bytes) {links : Nat} {parts : List String}
    (hparts : parts ≠ []) :
    d.Keeps place (d.follow followLast links q parts) (e.follow followLast links q parts) := by
  induction links using Nat.strongRecOn generalizing q parts with
  | ind links ih =>
    have hk : d.Keeps place (d.descend followLast q parts) (e.descend followLast q parts) :=
      descend_keeps h fun _ he => absurd he hparts
    cases hd : d.descend followLast q parts with
    | error cause =>
      rw [hd] at hk
      rw [follow.eq_def, hd]
      intro hg
      obtain ⟨after, he⟩ := hk hg
      exact ⟨after, by rw [follow.eq_def, he]; rfl⟩
    | ok found =>
      rw [hd] at hk
      cases found with
      | item q item =>
        rw [follow_of_item hd]
        exact fun hne => follow_of_item (hk hne)
      | missing q slashAfter =>
        rw [follow.eq_def, hd]
        exact fun hne => by rw [follow.eq_def, hk hne]; rfl
      | link directory target rest =>
        have he := hk id
        cases links with
        | zero =>
          rw [follow.eq_def, hd]
          exact fun _ => ⟨.linkLoop, by rw [follow.eq_def, he]; rfl⟩
        | succ links =>
          rw [follow_of_link hd, follow_of_link he]
          exact ih links (Nat.lt_succ_self links) (by simp [partsOf, Text.pieces_ne_nil])

theorem locate_keeps (h : Renews d e place bytes) (directory : Place) (name : String) :
    d.Keeps place (d.locate followLast directory name) (e.locate followLast directory name) := by
  unfold locate
  split
  · exact keeps_refl d place _
  split
  · exact keeps_refl d place _
  split
  · exact keeps_refl d place _
  · exact follow_keeps h (by simp [partsOf, Text.pieces_ne_nil])

/-- A name comes to a place: to what stands there, or to nothing. -/
def ComesTo (d : Disk) (directory : Place) (name : String) (place : Place) : Prop :=
  ∃ found, d.locate true directory name = .ok found ∧ found.IsAt place

instance (d : Disk) (directory : Place) (name : String) (place : Place) :
    Decidable (d.ComesTo directory name place) :=
  match h : d.locate true directory name with
  | .ok found => decidable_of_iff (found.IsAt place)
      ⟨fun hat => ⟨found, h, hat⟩, fun ⟨_, ho, hat⟩ => Except.ok.inj (h.symm.trans ho) ▸ hat⟩
  | .error _ => isFalse fun ⟨_, ho, _⟩ => nomatch h.symm.trans ho

theorem ComesTo.unique (h : d.ComesTo directory name place) (h' : d.ComesTo directory name q) :
    place = q := by
  obtain ⟨found, hl, hat⟩ := h
  obtain ⟨other, ho, hat'⟩ := h'
  rw [hl] at ho
  cases ho
  exact hat.unique hat'

/-- A name that leads elsewhere does not lead to a file once it is written. -/
theorem not_comesTo_of_renews (h : Renews d e place bytes) (hg : d.Grounded)
    (hne : ¬d.ComesTo directory name place) : ¬e.ComesTo directory name place := by
  have hk := @locate_keeps d e place bytes true h directory name
  rintro ⟨found, hfound, hat⟩
  cases hl : d.locate true directory name with
  | error cause =>
    rw [hl] at hk
    obtain ⟨after, he⟩ := hk hg
    rw [he] at hfound
    cases hfound
  | ok before =>
    rw [hl] at hk
    have hbefore : ¬before.IsAt place := fun hat => hne ⟨before, hl, hat⟩
    rw [hk hbefore] at hfound
    cases hfound
    exact hbefore hat

/-- A file that is written leaves the contents of others as they are. -/
theorem read_toOption_of_renews (h : Renews d e place bytes) (hg : d.Grounded)
    (hne : ¬d.ComesTo directory name place) :
    (e.read directory name).toOption = (d.read directory name).toOption := by
  have hk := @locate_keeps d e place bytes true h directory name
  cases hl : d.locate true directory name with
  | error cause =>
    rw [hl] at hk
    obtain ⟨after, he⟩ := hk hg
    rw [read, read, hl, he]
    rfl
  | ok found =>
    rw [hl] at hk
    have he : e.locate true directory name = .ok found := hk fun hat => hne ⟨found, hl, hat⟩
    rw [read, read, hl, he]

/-- A file that is written leaves directories where they are. -/
theorem isDirectory_of_renews (h : Renews d e place bytes)
    (hd : d.isDirectory directory name = .ok true) : e.isDirectory directory name = .ok true := by
  obtain ⟨q, hl⟩ := locate_of_isDirectory hd
  have hk := @locate_keeps d e place bytes true h directory name
  have hf := hl
  rw [locate_cases hl] at hf
  have hq : d.item? q = some .directory := leads_of_follow hf
  have hne : q ≠ place := by
    rintro rfl
    rcases h.before with hb | ⟨old, hb⟩
    · rw [hb] at hq
      cases hq
    · rw [hb] at hq
      cases hq
  rw [hl] at hk
  rw [isDirectory, hk hne]

/-! ### Where a write goes -/

/-- A name that comes to nothing comes to a place in a directory. -/
theorem isDirectoryAt_of_descend {parts : List String} {slashAfter : Bool}
    (h : d.descend followLast q parts = .ok (.missing place slashAfter)) :
    d.isDirectoryAt place.dropLast = true := by
  induction parts generalizing q with
  | nil =>
    rw [descend] at h
    split at h <;> cases h
  | cons part rest ih =>
    obtain ⟨hq, hhere | rfl | hp⟩ := descend_cases h
    · rw [descend_here hq hhere] at h
      exact ih h
    · rw [descend_up hq] at h
      exact ih h
    · rw [descend_cons hq hp] at h
      split at h
      · split at h
        · cases h
          simpa using hq
        · cases h
      · split at h <;> cases h
      · exact ih h

theorem isDirectoryAt_of_follow {links : Nat} {parts : List String} {slashAfter : Bool}
    (h : d.follow followLast links q parts = .ok (.missing place slashAfter)) :
    d.isDirectoryAt place.dropLast = true := by
  induction links generalizing q parts with
  | zero =>
    rcases follow_cases h with ⟨hd, -⟩ | ⟨n, directory, target, rest, hn, -⟩
    · exact isDirectoryAt_of_descend hd
    · cases hn
  | succ links ih =>
    rcases follow_cases h with ⟨hd, -⟩ | ⟨n, directory, target, rest, hn, -, hf⟩
    · exact isDirectoryAt_of_descend hd
    · cases hn
      exact ih hf

theorem locate_of_settles {found : Found} (h : Renews d e place bytes)
    (hl : d.locate true directory name = .ok found)
    (hs : Settles place bytes found (.item place (.file bytes))) :
    e.locate true directory name = .ok (.item place (.file bytes)) := by
  have hf := hl
  rw [locate_cases hl] at hf
  rw [locate_cases hl]
  exact follow_renews h hf hs

/-- A file that is written stands at the place that its name came to. -/
structure Written (d e : Disk) (directory : Place) (name : String) (bytes : List UInt8)
    (place : Place) : Prop where
  renews : Renews d e place bytes
  before : d.ComesTo directory name place
  after : e.locate true directory name = .ok (.item place (.file bytes))
  grounded : d.Grounded → e.Grounded

theorem exists_written (h : d.write directory name bytes = .ok e) :
    ∃ place, Written d e directory name bytes place := by
  rw [write, blame_eq_ok] at h
  cases hl : d.locate true directory name with
  | error cause =>
    rw [hl] at h
    cases h
  | ok found =>
    have hf := hl
    rw [locate_cases hl] at hf
    rw [hl] at h
    cases found with
    | link directory target rest => cases h
    | item place item =>
      cases item with
      | link target => cases h
      | directory => cases h
      | file old =>
        cases h
        have hleads : d.item? place = some (.file old) := leads_of_follow hf
        have hrenews := renews_put (.inr ⟨old, hleads⟩) bytes
        refine ⟨place, hrenews, ⟨_, hl, rfl⟩, locate_of_settles hrenews hl (.item _), fun hg => ?_⟩
        apply hg.put
        · rw [isDirectoryAt, hleads]
          rfl
        · exact hg.isDirectoryAt_dropLast (by rw [hleads]; rfl)
    | missing place slashAfter =>
      cases slashAfter with
      | true => cases h
      | false =>
        cases h
        have hleads : d.item? place = none := leads_of_follow hf
        have hrenews := renews_put (.inl hleads) bytes
        refine ⟨place, hrenews, ⟨_, hl, rfl⟩, locate_of_settles hrenews hl .missing, fun hg => ?_⟩
        apply hg.put
        · rw [isDirectoryAt, hleads]
          rfl
        · exact isDirectoryAt_of_follow hf

/-- A file that was written can be written again. -/
theorem Written.exists_write (h : Written d e directory name bytes place) (more : List UInt8) :
    ∃ f, e.write directory name more = .ok f := by
  refine ⟨e.put place (.file more), ?_⟩
  rw [write, h.after]
  rfl

/-- Another file that could be written can be written after it. -/
theorem Written.exists_write_elsewhere {other : String} {more : List UInt8} {f : Disk}
    (h : Written d e directory name bytes place) (hne : ¬d.ComesTo directory other place)
    (hw : d.write directory other more = .ok f) : ∃ f, e.write directory other more = .ok f := by
  have hk := @locate_keeps d e place bytes true h.renews directory other
  rw [write, blame_eq_ok] at hw
  simp only [write, blame_eq_ok]
  cases hl : d.locate true directory other with
  | error cause =>
    rw [hl] at hw
    cases hw
  | ok found =>
    rw [hl] at hk hw
    have he : e.locate true directory other = .ok found := hk fun hat => hne ⟨found, hl, hat⟩
    rw [he]
    cases found with
    | link => cases hw
    | item place item => cases item with
      | file old => exact ⟨_, rfl⟩
      | link | directory => cases hw
    | missing place slashAfter => cases slashAfter with
      | false => exact ⟨_, rfl⟩
      | true => cases hw

/-! ### Directories -/

/-- Where a name leads when a link at its end is followed, it leads too, or to that link, when the
link is not followed. -/
theorem descend_unfollowed {parts : List String} {found : Found}
    (h : d.descend true q parts = .ok found) :
    d.descend false q parts = .ok found ∨
      ∃ place target, d.descend false q parts = .ok (.item place (.link target)) := by
  induction parts generalizing q with
  | nil => exact .inl h
  | cons part rest ih =>
    obtain ⟨hq, hhere | rfl | hp⟩ := descend_cases h
    · rw [descend_here hq hhere] at h ⊢
      exact ih h
    · rw [descend_up hq] at h ⊢
      exact ih h
    · rw [descend_cons hq hp] at h ⊢
      cases hi : d.item? (q ++ [part]) with
      | none =>
        rw [hi] at h
        exact .inl h
      | some item =>
        rw [hi] at h
        cases item with
        | file old => exact ih h
        | directory => exact ih h
        | link target =>
          by_cases hlast : rest.isEmpty = true
          · exact .inr ⟨q ++ [part], target, by simp [hlast]⟩
          · exact .inl (by simpa [hlast] using h)

theorem follow_of_descend {links : Nat} {parts : List String} {found : Found}
    (h : d.descend followLast q parts = .ok found)
    (hne : ∀ directory target rest, found ≠ .link directory target rest) :
    d.follow followLast links q parts = .ok found := by
  rw [follow.eq_def, h]
  cases found with
  | item | missing => rfl
  | link directory target rest => exact absurd rfl (hne directory target rest)

theorem follow_unfollowed {links : Nat} {parts : List String} {found : Found}
    (h : d.follow true links q parts = .ok found) :
    d.follow false links q parts = .ok found ∨
      ∃ place target, d.follow false links q parts = .ok (.item place (.link target)) := by
  induction links using Nat.strongRecOn generalizing q parts with
  | ind links ih =>
    rcases follow_cases h with ⟨hd, hne⟩ | ⟨n, directory, target, rest, rfl, hd, hf⟩
    · rcases descend_unfollowed hd with hd | ⟨place, target, hd⟩
      · exact .inl (follow_of_descend hd hne)
      · exact .inr ⟨place, target, follow_of_item hd⟩
    · rcases descend_unfollowed hd with hd | ⟨place, other, hd⟩
      · rw [follow_of_link hd]
        exact ih n (Nat.lt_succ_self n) hf
      · exact .inr ⟨place, other, follow_of_item hd⟩

/-- A name that can be located one way is looked up the other way too. -/
theorem locate_eq_follow {found : Found} (h : d.locate followLast directory name = .ok found)
    (e : Disk) (followAfter : Bool) :
    e.locate followAfter directory name =
      e.follow followAfter linkLimit (startOf directory name) (partsOf name) := by
  unfold locate at h ⊢
  split_ifs at h ⊢
  rfl

theorem exists_locate_unfollowed {item : Item}
    (h : d.locate true directory name = .ok (.item place item)) :
    ∃ other there, d.locate false directory name = .ok (.item other there) := by
  have hlocate := locate_eq_follow h d false
  rw [locate_cases h] at h
  rw [hlocate]
  rcases follow_unfollowed h with hf | ⟨other, target, hf⟩
  · exact ⟨place, item, hf⟩
  · exact ⟨other, .link target, hf⟩

/-- A directory that is there cannot be made. -/
theorem makeDirectory_of_isDirectory (h : d.isDirectory directory name = .ok true) :
    d.makeDirectory directory name = .error ⟨.alreadyThere, name⟩ := by
  obtain ⟨place, hl⟩ := locate_of_isDirectory h
  obtain ⟨other, there, hfalse⟩ := exists_locate_unfollowed hl
  rw [makeDirectory, hfalse]
  rfl

/-- A directory that is there is provided as it is. -/
theorem provideDirectory_of_isDirectory (h : d.isDirectory directory name = .ok true) :
    d.provideDirectory directory name = .ok d := by
  rw [provideDirectory, makeDirectory_of_isDirectory h]
  dsimp only
  rw [if_neg (by decide), h]
  rfl

theorem provideParts_of_isDirectory {slashes : Nat} {parts : List String}
    (h : d.isDirectory directory (PathName.toText ⟨slashes, parts.reverse⟩) = .ok true) :
    d.provideParts directory slashes parts = .ok d := by
  cases parts with
  | nil => exact provideDirectory_of_isDirectory h
  | cons part above =>
    rw [provideParts, makeDirectory_of_isDirectory h]
    exact provideDirectory_of_isDirectory h

/-- Making a directory that is there, with those above it, changes nothing. -/
theorem makeDirectories_of_isDirectory
    (h : d.isDirectory directory (PathName.normalize name) = .ok true) :
    d.makeDirectories directory name = .ok d := by
  apply provideParts_of_isDirectory
  rw [List.reverse_reverse]
  exact h

/-- Two file systems differ at one place only, where one has nothing and the other a directory. -/
structure Adds (d e : Disk) (place : Place) : Prop where
  before : d.item? place = none
  after : e.item? place = some .directory
  elsewhere : ∀ q, q ≠ place → e.item? q = d.item? q

/-- What a search that came to a place, or to a link on the way, comes to once there is a
directory. -/
inductive Opens (place : Place) : Found → Found → Prop
  | missing (slashAfter : Bool) : Opens place (.missing place slashAfter) (.item place .directory)
  | link (directory : Place) (target : String) (rest : List String) :
      Opens place (.link directory target rest) (.link directory target rest)

theorem Adds.item? (h : Adds d e place) {item : Item} (hi : d.item? q = some item) :
    e.item? q = some item := by
  have hne : q ≠ place := by
    rintro rfl
    rw [h.before] at hi
    cases hi
  rw [h.elsewhere q hne, hi]

theorem Adds.isDirectoryAt (h : Adds d e place) (hq : d.isDirectoryAt q = true) :
    e.isDirectoryAt q = true := by
  rw [Disk.isDirectoryAt, beq_iff_eq] at hq ⊢
  exact h.item? hq

theorem descend_blank (hq : d.isDirectoryAt q = true) {rest : List String}
    (hrest : rest.all (· = "") = true) :
    d.descend followLast q rest = .ok (.item q .directory) := by
  induction rest with
  | nil =>
    rw [isDirectoryAt, beq_iff_eq] at hq
    rw [descend, hq]
  | cons part rest ih =>
    simp only [List.all_cons, Bool.and_eq_true] at hrest
    rw [descend_here hq (by simp [hrest.1])]
    exact ih hrest.2

theorem descend_adds (h : Adds d e place) {parts : List String} {found new : Found}
    (hd : d.descend false q parts = .ok found) (ho : Opens place found new) :
    e.descend true q parts = .ok new := by
  induction parts generalizing q with
  | nil =>
    rw [descend] at hd
    split at hd
    · cases hd
      cases ho
    · cases hd
  | cons part rest ih =>
    obtain ⟨hq, hhere | rfl | hp⟩ := descend_cases hd
    · rw [descend_here hq hhere] at hd
      rw [descend_here (h.isDirectoryAt hq) hhere]
      exact ih hd
    · rw [descend_up hq] at hd
      rw [descend_up (h.isDirectoryAt hq)]
      exact ih hd
    · rw [descend_cons hq hp] at hd
      rw [descend_cons (h.isDirectoryAt hq) hp]
      cases hi : d.item? (q ++ [part]) with
      | none =>
        rw [hi] at hd
        dsimp only at hd
        split at hd
        · next hall =>
          cases hd
          cases ho
          rw [h.after]
          refine descend_blank ?_ hall
          rw [isDirectoryAt, h.after]
          rfl
        · cases hd
      | some item =>
        rw [hi] at hd
        rw [h.item? hi]
        cases item with
        | file old => exact ih hd
        | directory => exact ih hd
        | link target =>
          dsimp only at hd ⊢
          split at hd
          · cases hd
            cases ho
          · cases hd
            cases ho
            simp

theorem follow_adds (h : Adds d e place) {links : Nat} {parts : List String} {slashAfter : Bool}
    (hf : d.follow false links q parts = .ok (.missing place slashAfter)) :
    e.follow true links q parts = .ok (.item place .directory) := by
  induction links using Nat.strongRecOn generalizing q parts with
  | ind links ih =>
    rcases follow_cases hf with ⟨hd, -⟩ | ⟨n, directory, target, rest, rfl, hd, hf⟩
    · exact follow_of_item (descend_adds h hd (.missing slashAfter))
    · rw [follow_of_link (descend_adds h hd (.link directory target rest))]
      exact ih n (Nat.lt_succ_self n) hf

/-- A directory that was made is there. -/
theorem isDirectory_of_makeDirectory (h : d.makeDirectory directory name = .ok e) :
    e.isDirectory directory name = .ok true := by
  rw [makeDirectory, blame_eq_ok] at h
  cases hl : d.locate false directory name with
  | error cause =>
    rw [hl] at h
    cases h
  | ok found =>
    have hf := hl
    rw [locate_cases hl] at hf
    rw [hl] at h
    cases found with
    | link => cases h
    | item => cases h
    | missing place slashAfter =>
      cases h
      have hbefore : d.item? place = none := leads_of_follow hf
      have hplace : place ≠ [] := by
        rintro rfl
        cases hbefore
      have hadds : Adds d (d.put place .directory) place := by
        refine ⟨hbefore, ?_, fun q hq => ?_⟩
        · rw [item?_put hplace, if_pos rfl]
        · rw [item?_put hplace, if_neg hq]
      have hlocate : (d.put place .directory).locate true directory name =
          .ok (.item place .directory) := by
        rw [locate_eq_follow hl]
        exact follow_adds hadds hf
      rw [isDirectory, hlocate]

theorem isDirectory_of_provideDirectory (h : d.provideDirectory directory name = .ok e) :
    e.isDirectory directory name = .ok true := by
  rw [provideDirectory] at h
  cases hm : d.makeDirectory directory name with
  | ok f =>
    rw [hm] at h
    cases h
    exact isDirectory_of_makeDirectory hm
  | error problem =>
    rw [hm] at h
    dsimp only at h
    split at h
    · cases h
    · cases hd : d.isDirectory directory name with
      | error problem =>
        rw [hd] at h
        cases h
      | ok there =>
        rw [hd] at h
        cases there with
        | false => cases h
        | true =>
          cases h
          exact hd

theorem isDirectory_of_provideParts {slashes : Nat} {parts : List String}
    (h : d.provideParts directory slashes parts = .ok e) :
    e.isDirectory directory (PathName.toText ⟨slashes, parts.reverse⟩) = .ok true := by
  cases parts with
  | nil => exact isDirectory_of_provideDirectory h
  | cons part above =>
    rw [provideParts] at h
    split at h
    · cases hp : d.provideParts directory slashes above with
      | error problem =>
        rw [hp] at h
        cases h
      | ok f =>
        rw [hp] at h
        exact isDirectory_of_provideDirectory h
    · exact isDirectory_of_provideDirectory h

/-- A directory that was made with those above it is there. -/
theorem isDirectory_of_makeDirectories (h : d.makeDirectories directory name = .ok e) :
    e.isDirectory directory (PathName.normalize name) = .ok true := by
  have hp := isDirectory_of_provideParts h
  rwa [List.reverse_reverse] at hp

end FileSieve.Disk
