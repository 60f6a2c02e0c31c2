import Mathlib.Data.List.Pairwise
import FileSieve.Proofs.Json.Documents
import FileSieve.Proofs.Rule.Usable

/-! # The text that stands for an ignore list

The text is the array of the quoted patterns, and they are read back from it, so lists with one text
are equal. Where the digest tells the texts of some lists apart, their keys tell the lists apart. -/

namespace FileSieve

/-! ### Compact arrays -/

namespace Json

/-- The texts of an array begin with a quote. -/
theorem exists_compactItems_eq_cons (t : Utf16) (more : List Utf16) :
    ∃ start, compactItems ((t :: more).map string) = '"' :: start := by
  cases more with
  | nil => exact ⟨_, writeString_append isUnescaped t [']']⟩
  | cons next more =>
    exact ⟨_, writeString_append isUnescaped t (',' :: compactItems ((next :: more).map string))⟩

theorem readValue_string (fuel depth : Nat) (t : Utf16) (rest : List Char) :
    readValue (fuel + 1) depth (writeString isUnescaped t ++ rest) = .ok (string t, rest) := by
  have hread : readString (t.decode.flatMap (writeSymbol isUnescaped) ++ '"' :: rest) =
      some (t.units, rest) := readString_decode le_of_isUnescaped t.units rest
  rw [writeString_append, readValue, hread]
  rfl

/-- The texts of an array are read back, up to its end. -/
theorem readItems_compact {ts : List Utf16} (hne : ts ≠ []) {fuel : Nat} (depth : Nat)
    (hf : (compactItems (ts.map string)).length ≤ fuel) (rest : List Char) :
    readItems fuel depth (compactItems (ts.map string) ++ rest) = .ok (ts.map string, rest) := by
  induction ts generalizing fuel with
  | nil => exact absurd rfl hne
  | cons t more ih =>
    cases more with
    | nil =>
      have htext : compactItems ([t].map string) = writeString isUnescaped t ++ [']'] := rfl
      rw [htext, writeString_append, List.length_cons, List.length_append,
        List.length_cons] at hf
      obtain ⟨fuel, rfl⟩ : ∃ n, fuel = n + 2 := ⟨fuel - 2, by omega⟩
      rw [htext, List.append_assoc]
      exact readItems_last (readValue_string fuel depth t _) (skipSpace_cons (by decide) rest)
    | cons next more =>
      have htext : compactItems ((t :: next :: more).map string) =
          writeString isUnescaped t ++ ',' :: compactItems ((next :: more).map string) := rfl
      obtain ⟨start, hstart⟩ := exists_compactItems_eq_cons next more
      rw [htext, writeString_append, List.length_cons, List.length_append, List.length_cons,
        List.length_cons] at hf
      obtain ⟨fuel, rfl⟩ : ∃ n, fuel = n + 2 := ⟨fuel - 2, by omega⟩
      have hquote : skipSpace (compactItems ((next :: more).map string) ++ rest) =
          compactItems ((next :: more).map string) ++ rest := by
        rw [hstart, List.cons_append, skipSpace_cons (by decide)]
      have hrest := @ih (List.cons_ne_nil _ _) (fuel + 1) (by omega)
      rw [← hquote] at hrest
      rw [htext, List.append_assoc]
      exact readItems_comma (readValue_string fuel depth t _) (skipSpace_cons (by decide) _) hrest

/-- An array of texts is read back from its compact form, whatever follows it. -/
theorem readValue_compact_texts (ts : List Utf16) {fuel : Nat} (depth : Nat)
    (hf : (texts ts).compact.length ≤ fuel) (rest : List Char) :
    readValue fuel (depth + 1) ((texts ts).compact ++ rest) = .ok (texts ts, rest) := by
  have htext : (texts ts).compact = '[' :: compactItems (ts.map string) := rfl
  rw [htext] at hf ⊢
  rw [List.length_cons] at hf
  obtain ⟨fuel, rfl⟩ : ∃ n, fuel = n + 1 := ⟨fuel - 1, by omega⟩
  rw [List.cons_append]
  cases ts with
  | nil =>
    have hclose : skipSpace (']' :: rest) = ']' :: rest := skipSpace_cons (by decide) rest
    change readValue (fuel + 1) (depth + 1) ('[' :: ']' :: rest) = .ok (texts [], rest)
    rw [readValue, hclose]
    rfl
  | cons t more =>
    have hitems := readItems_compact (List.cons_ne_nil t more) depth (Nat.le_of_lt_succ hf) rest
    obtain ⟨start, hstart⟩ := exists_compactItems_eq_cons t more
    rw [hstart, List.cons_append] at hitems ⊢
    exact readValue_items (skipSpace_cons (by decide) _) ⟨'"', _, rfl, by decide⟩ hitems

theorem read_compact_texts (ts : List Utf16) :
    read (String.ofList (texts ts).compact) = .ok (texts ts) := by
  have hstart : skipSpace (texts ts).compact = (texts ts).compact := skipSpace_cons (by decide) _
  have hvalue : readValue (2 * (texts ts).compact.length + 2) nestingLimit
      ((texts ts).compact ++ []) = .ok (texts ts, []) :=
    readValue_compact_texts ts _ (by omega) []
  rw [List.append_nil] at hvalue
  rw [read, String.toList_ofList]
  dsimp only
  rw [hstart, hvalue]
  rfl

theorem texts_inj {ts us : List Utf16} (h : texts ts = texts us) : ts = us :=
  (List.map_inj_right fun _ _ => string.inj).1 (array.inj h)

/-- The compact form of an array of texts tells the texts and where it ends. -/
theorem compact_texts_append_inj {ts us : List Utf16} {rest after : List Char}
    (h : (texts ts).compact ++ rest = (texts us).compact ++ after) : ts = us ∧ rest = after := by
  have hts := readValue_compact_texts ts 0 (Nat.le_add_right _ (texts us).compact.length) rest
  rw [h, readValue_compact_texts us 0 (Nat.le_add_left _ _) after] at hts
  obtain ⟨htexts, hrest⟩ := Prod.mk.inj (Except.ok.inj hts)
  exact ⟨texts_inj htexts.symm, hrest.symm⟩

end Json

/-! ### Texts of lists -/

theorem quoted_ofString (s : String) :
    (.ok '"' :: ((Utf16.ofString s).decode.flatMap ruleSetSymbol ++ [.ok '"']) :
      List (Except UInt16 Char)) =
        (Json.writeString Json.isUnescaped (Utf16.ofString s)).map .ok := by
  simp only [Json.writeString, Utf16.decode_ofString, List.flatMap_map, ruleSetSymbol,
    Json.writeSymbol, List.cons_append, List.map_append, List.map_cons, List.map_flatMap,
    List.map_nil]

/-- The items of an array of strings are their quoted texts with commas between them. -/
theorem map_ok_compactItems (strings : List String) :
    (Json.compactItems ((strings.map Utf16.ofString).map Json.string)).map .ok =
      List.intercalate [.ok ','] (strings.map fun s : String =>
        (Json.writeString Json.isUnescaped (Utf16.ofString s)).map .ok) ++
          [(.ok ']' : Except UInt16 Char)] := by
  induction strings with
  | nil => rfl
  | cons s more ih =>
    cases more with
    | nil =>
      have htext : Json.compactItems (([s].map Utf16.ofString).map Json.string) =
          Json.writeString Json.isUnescaped (Utf16.ofString s) ++ [']'] := rfl
      rw [htext, List.map_append, List.map_singleton, List.map_singleton,
        List.intercalate_singleton]
    | cons next more =>
      have htext : Json.compactItems (((s :: next :: more).map Utf16.ofString).map Json.string) =
          Json.writeString Json.isUnescaped (Utf16.ofString s) ++
            ',' :: Json.compactItems (((next :: more).map Utf16.ofString).map Json.string) := rfl
      rw [htext, List.map_append, List.map_cons, ih]
      simp only [List.map_cons, List.intercalate_cons_cons, List.append_assoc, List.cons_append,
        List.nil_append]

/-- The symbols of strings are the characters of their text. -/
theorem ruleSetSymbols_map_ofString (patterns : List String) :
    ruleSetSymbols (patterns.map Utf16.ofString) = (ruleSetText patterns).toList.map .ok := by
  have htext : (ruleSetText patterns).toList =
      '[' :: Json.compactItems ((patterns.map Utf16.ofString).map Json.string) :=
    String.toList_ofList
  rw [htext, List.map_cons, map_ok_compactItems, ruleSetSymbols, List.map_map]
  simp only [Function.comp_def, quoted_ofString, List.cons_append]

/-- The patterns of an ignore list are read back from the text that stands for it. -/
theorem read_ruleSetText (patterns : List String) :
    Json.read (ruleSetText patterns) = .ok (.texts (patterns.map Utf16.ofString)) :=
  Json.read_compact_texts _

/-- The text that stands for an ignore list tells the list and where it ends. -/
theorem ruleSetText_append_inj {patterns others : List String} {rest after : List Char}
    (h : (ruleSetText patterns).toList ++ rest = (ruleSetText others).toList ++ after) :
    patterns = others ∧ rest = after := by
  rw [ruleSetText, ruleSetText, String.toList_ofList, String.toList_ofList] at h
  obtain ⟨hunits, hrest⟩ := Json.compact_texts_append_inj h
  exact ⟨map_ofString_inj.1 hunits, hrest⟩

theorem eq_of_ruleSetText_eq {patterns others : List String}
    (h : ruleSetText patterns = ruleSetText others) : patterns = others :=
  (ruleSetText_append_inj (congrArg (·.toList ++ []) h)).1

theorem Text.toUtf8_inj {s t : String} (h : Text.toUtf8 s = Text.toUtf8 t) : s = t := by
  have hbytes (s : String) : (Text.toUtf8 s).toByteArray = s.toByteArray :=
    String.utf8Encode_toList
  rw [← String.toByteArray_inj, ← hbytes, ← hbytes, h]

/-- Every ignore list has a text, the array of its quoted patterns. They are read back from it, and
its bytes are those of no other list: the text tells the patterns and where it ends. -/
theorem ruleSetText_tells_patterns (patterns others : List String) :
    usablePatterns (patterns.map Utf16.ofString) = .ok patterns ∧
    ruleSetSymbols (patterns.map Utf16.ofString) = (ruleSetText patterns).toList.map .ok ∧
    Json.read (ruleSetText patterns) = .ok (.texts (patterns.map Utf16.ofString)) ∧
    (Text.toUtf8 (ruleSetText patterns) = Text.toUtf8 (ruleSetText others) ↔ patterns = others) ∧
    ∀ rest after, (ruleSetText patterns).toList ++ rest = (ruleSetText others).toList ++ after ↔
      patterns = others ∧ rest = after := by
  refine ⟨usablePatterns_eq_ok_iff.2 rfl, ruleSetSymbols_map_ofString patterns,
    read_ruleSetText patterns, ?_, fun rest after => ⟨ruleSetText_append_inj, ?_⟩⟩
  · constructor
    · exact fun h => eq_of_ruleSetText_eq (Text.toUtf8_inj h)
    · rintro rfl
      rfl
  · rintro ⟨rfl, rfl⟩
    rfl

/-- A quote in a pattern does not end it. -/
example : ruleSetText ["a\",\"b", "\\"] = "[\"a\\\",\\\"b\",\"\\\\\"]" := by decide

/-! ### Keys -/

/-- The bytes that are digested for an ignore list. -/
def keyBytes (patterns : List String) : List UInt8 :=
  Text.toUtf8 (ruleSetText patterns)

/-- The digest tells the bytes of some ignore lists apart. -/
def NoCollision (lists : List (List String)) : Prop :=
  ∀ a ∈ lists, ∀ b ∈ lists, Digest.sha256 (keyBytes a) = Digest.sha256 (keyBytes b) →
    keyBytes a = keyBytes b

theorem noCollision_iff_pairwise {lists : List (List String)} :
    NoCollision lists ↔ lists.Pairwise fun a b =>
      Digest.sha256 (keyBytes a) = Digest.sha256 (keyBytes b) → keyBytes a = keyBytes b := by
  constructor
  · intro h
    exact List.pairwise_of_forall_mem_list h
  · intro h
    have : Std.Symm fun a b : List String =>
        Digest.sha256 (keyBytes a) = Digest.sha256 (keyBytes b) → keyBytes a = keyBytes b :=
      ⟨fun _ _ hab he => (hab he.symm).symm⟩
    exact List.Pairwise.forall_of_forall (fun _ _ _ => rfl) h

instance (lists : List (List String)) : Decidable (NoCollision lists) :=
  decidable_of_iff _ noCollision_iff_pairwise.symm

/-- Without collisions, lists with one key are equal. -/
theorem NoCollision.eq {lists : List (List String)} (h : NoCollision lists) {a b : List String}
    (ha : a ∈ lists) (hb : b ∈ lists) (hk : ruleSetKey a = ruleSetKey b) : a = b :=
  eq_of_ruleSetText_eq (Text.toUtf8_inj (h a ha b hb hk))

end FileSieve
