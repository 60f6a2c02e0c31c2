import FileSieve.Proofs.Scan.Controlled
import FileSieve.Proofs.Scan.Interleaving

/-! # Superseded scans

However calls on a controller are interleaved, generations grow, only the latest one can install a
result, and a scan comes to nothing exactly when another one was opened before it handed in its own
result. -/

namespace FileSieve.Control

open Program

/-! ## Generations along a history -/

theorem Event.started?_eq_some_iff {e : Event} {g : Int} :
    e.started? = some g ↔ e.exchange = ⟨.start, g⟩ := by
  obtain ⟨caller, ⟨q, reply⟩, before, after⟩ := e
  cases q <;> simp [Event.started?]

theorem Linked.generation {c d : Controller} {events : List Event} (h : Linked c events d) :
    d.generation = c.generation + (events.countP (·.exchange.1.isStart) : Nat) := by
  induction events generalizing c with
  | nil =>
    cases h
    exact (Int.add_zero _).symm
  | cons e events ih =>
    obtain ⟨rfl, hf, hrest⟩ := h
    rw [ih hrest, hf.generation, List.countP_cons]
    split <;> omega

theorem Linked.started_bounds {c d : Controller} {events : List Event} (h : Linked c events d) :
    ∀ g ∈ events.filterMap Event.started?, c.generation < g ∧ g ≤ d.generation := by
  induction events generalizing c with
  | nil => exact fun g hg => absurd hg List.not_mem_nil
  | cons e events ih =>
    obtain ⟨rfl, hf, hrest⟩ := h
    have hstep := hf.generation
    have hlater := hrest.generation
    intro g hg
    obtain ⟨e', he', hs⟩ := List.mem_filterMap.1 hg
    rcases List.mem_cons.1 he' with rfl | he'
    · have he := Event.started?_eq_some_iff.1 hs
      have hg := hf.start he
      rw [he, Request.isStart, if_pos rfl] at hstep
      omega
    · have hb := ih hrest g (List.mem_filterMap.2 ⟨e', he', hs⟩)
      split at hstep <;> omega

/-- The generations are handed out in increasing order. -/
theorem Linked.increasing {c d : Controller} {events : List Event} (h : Linked c events d) :
    (events.filterMap Event.started?).Pairwise (· < ·) := by
  induction events generalizing c with
  | nil => exact .nil
  | cons e events ih =>
    obtain ⟨rfl, hf, hrest⟩ := h
    rw [List.filterMap_cons]
    cases hs : e.started? with
    | none => exact ih hrest
    | some g =>
      have he := Event.started?_eq_some_iff.1 hs
      have hg := hf.start he
      have hstep := hf.generation
      rw [he, Request.isStart, if_pos rfl] at hstep
      refine List.pairwise_cons.2 ⟨?_, ih hrest⟩
      intro later hl
      have hb := hrest.started_bounds later hl
      omega

/-! ## The events of one call -/

theorem own_append (caller : Nat) (front back : List Event) :
    own caller (front ++ back) = own caller front ++ own caller back := by
  simp [own]

theorem mem_own_iff {caller : Nat} {history : List Event} {exchange : Exchange interface} :
    exchange ∈ own caller history ↔
      ∃ e ∈ history, e.caller = caller ∧ e.exchange = exchange := by
  simp [own, and_assoc]

theorem own_eq_cons {caller : Nat} {history : List Event} {exchange : Exchange interface}
    {rest : List (Exchange interface)} (h : own caller history = exchange :: rest) :
    ∃ before e after, history = before ++ e :: after ∧ e.caller = caller ∧
      e.exchange = exchange ∧ (∀ e ∈ before, e.caller ≠ caller) ∧ own caller after = rest := by
  obtain ⟨e, events, hfilter, he, hrest⟩ := List.map_eq_cons_iff.1 h
  obtain ⟨before, after, rfl, hbefore, hcaller, rfl⟩ := List.filter_eq_cons_iff.1 hfilter
  refine ⟨before, e, after, rfl, by simpa using hcaller, he, ?_, hrest⟩
  intro e' he'
  simpa using hbefore e' he'

theorem own_eq_append {caller : Nat} {history : List Event} {front back : List (Exchange interface)}
    (h : own caller history = front ++ back) :
    ∃ before after, history = before ++ after ∧ own caller before = front ∧
      own caller after = back := by
  obtain ⟨front', back', hfilter, hfront, hback⟩ := List.map_eq_append_iff.1 h
  obtain ⟨before, after, rfl, rfl, rfl⟩ := List.filter_eq_append_iff.1 hfilter
  exact ⟨before, after, rfl, hfront, hback⟩

theorem forall_ne_of_own_eq_nil {caller : Nat} {history : List Event}
    (h : own caller history = []) : ∀ e ∈ history, e.caller ≠ caller := by
  intro e he hc
  have hmem := mem_own_iff.2 ⟨e, he, hc, rfl⟩
  rw [h] at hmem
  exact List.not_mem_nil hmem

/-- The first and the last exchange of a call cut the history. -/
theorem exists_span {caller : Nat} {history : List Event} {opening closing : Exchange interface}
    {between : List (Exchange interface)}
    (h : own caller history = opening :: (between ++ [closing])) :
    ∃ before first middle last after, history = before ++ first :: (middle ++ last :: after) ∧
      first.caller = caller ∧ first.exchange = opening ∧
      last.caller = caller ∧ last.exchange = closing ∧
      own caller middle = between ∧ ∀ e ∈ before ++ after, e.caller ≠ caller := by
  obtain ⟨before, first, later, rfl, hfc, hfe, hbefore, hlater⟩ := own_eq_cons h
  obtain ⟨inner, tail, rfl, hinner, htail⟩ := own_eq_append hlater
  obtain ⟨gap, last, after, rfl, hlc, hle, hgap, hafter⟩ := own_eq_cons htail
  refine ⟨before, first, inner ++ gap, last, after, by simp, hfc, hfe, hlc, hle, ?_, ?_⟩
  · rw [own_append, hinner, own_eq_nil hgap, List.append_nil]
  · intro e he
    rcases List.mem_append.1 he with he | he
    · exact hbefore e he
    · exact forall_ne_of_own_eq_nil hafter e he

/-! ## What holds of every history -/

theorem accept_eq_iff {c d : Controller} {g : Int} {found : Option ScanResult} {rules : List Rule}
    {accepted : Bool} (h : c.accept g found rules = (accepted, d)) :
    (accepted = true ↔ g = c.generation ∧ found ≠ none) ∧
      d = if accepted then
          { c with result := found, rules, selection := ∅, active := none }
        else c := by
  unfold Controller.accept Controller.isCurrent at h
  by_cases hg : g = c.generation
  · rw [if_pos (by simpa using hg)] at h
    cases found with
    | none =>
      cases h
      simp
    | some result =>
      cases h
      simp [hg]
  · rw [if_neg (by simpa using hg)] at h
    cases h
    simp [hg]

theorem Agree.refl (c : Controller) : Agree c c :=
  ⟨rfl, rfl, rfl, rfl⟩

/-- What a controller shows changes only when a result is accepted. -/
theorem Event.Fits.agree_of_ne {e : Event} (h : e.Fits)
    (hne : ∀ g found rules, e.exchange ≠ ⟨.accept g found rules, true⟩) :
    Agree e.before e.after := by
  by_cases hq : e.exchange.1.isAccept = false
  · exact h.agree hq
  · obtain ⟨g, found, rules, accepted, he⟩ :
        ∃ g found rules, ∃ accepted : Bool, e.exchange = ⟨.accept g found rules, accepted⟩ := by
      obtain ⟨caller, ⟨q, reply⟩, before, after⟩ := e
      cases q with
      | accept g found rules => exact ⟨g, found, rules, reply, rfl⟩
      | start | isCurrent | rules | workers | list | log => exact absurd rfl hq
    cases accepted with
    | true => exact absurd he (hne g found rules)
    | false =>
      have hafter := (accept_eq_iff (h.accept he)).2
      rw [if_neg Bool.false_ne_true] at hafter
      rw [hafter]
      exact .refl _

/-- What a scan that has returned has done: what it returns is what it has handed in, if that was
accepted. -/
def Returned (w : World) (caller : Nat) (found : Option ScanResult) : Prop :=
  ∃ before first middle last after, ∃ (generation : Int) (submitted : Option ScanResult)
      (rules : List Rule) (accepted : Bool),
    w.history = before ++ first :: (middle ++ last :: after) ∧
    (first.caller = caller ∧ first.exchange = ⟨.start, generation⟩) ∧
    (last.caller = caller ∧ last.exchange = ⟨.accept generation submitted rules, accepted⟩) ∧
    (∀ e ∈ before ++ after, e.caller ≠ caller) ∧
    (found = if accepted then submitted else none) ∧
    (found = none ↔ ∃ e ∈ middle, e.caller ≠ caller ∧ e.exchange.1.isStart = true) ∧
    (found = none → ∀ e ∈ w.history, e.caller = caller → Agree e.before e.after)

/-- What a call that has built a tree has done: it has opened no scan and installed nothing. The
rules that it returns are those that it was given for its patterns, and it returns no result only if
it was told that its generation is not the latest one. -/
def Built (w : World) (caller : Nat) (patterns : List String) (generation : Option Int)
    (result : Except Scan.Fault Reply) : Prop :=
  (∀ e ∈ w.history, e.caller = caller →
    Agree e.before e.after ∧ e.after.generation = e.before.generation) ∧
  ∀ reply, result = .ok reply → ∃ found rules, reply = .built found rules ∧
    (∃ e ∈ w.history, e.caller = caller ∧ e.exchange = ⟨.rules patterns, rules⟩) ∧
    (found = none → ∃ e ∈ w.history, e.caller = caller ∧
      ∃ g, generation = some g ∧ e.exchange = ⟨.isCurrent g, false⟩ ∧ g ≠ e.before.generation)

/-- What calls on a controller keep to, however they are interleaved. -/
structure HistorySpec (w : World) : Prop where
  /-- Scans get increasing generations. -/
  increasing : (w.history.filterMap Event.started?).Pairwise (· < ·)
  /-- A result is installed if it is one and its generation is the latest; otherwise handing it in
  changes nothing. -/
  accepts : ∀ e ∈ w.history, ∀ (generation : Int) found rules (accepted : Bool),
    e.exchange = ⟨.accept generation found rules, accepted⟩ →
      (accepted = true ↔ generation = e.before.generation ∧ found ≠ none) ∧
      e.after = if accepted then
          { e.before with result := found, rules, selection := ∅, active := none }
        else e.before
  /-- Nothing is installed under a generation that is older than one already handed out. -/
  stale : ∀ before e after, w.history = before ++ e :: after →
    ∀ (generation : Int) found rules (accepted : Bool),
      e.exchange = ⟨.accept generation found rules, accepted⟩ →
      (∃ newer ∈ before.filterMap Event.started?, generation < newer) →
        accepted = false ∧ e.after = e.before
  /-- A call that only opens a scan returns the generation that it was handed out. -/
  started : ∀ (caller : Nat) result, w.activities[caller]? = some ⟨.start, .done result⟩ →
    ∃ generation, result = .ok (.started generation) ∧
      own caller w.history = [⟨.start, generation⟩]
  /-- A call that only hands in a result returns whether that was accepted. -/
  accepted : ∀ (caller : Nat) generation found rules result,
    w.activities[caller]? = some ⟨.accept generation found rules, .done result⟩ →
    ∃ accepted, result = .ok (.accepted accepted) ∧
      own caller w.history = [⟨.accept generation found rules, accepted⟩]
  /-- A call that only builds a tree changes nothing that the controller shows. -/
  built : ∀ (caller : Nat) schedule depth root patterns generation result,
    w.activities[caller]? =
      some ⟨.build schedule depth root patterns generation, .done result⟩ →
    Built w caller patterns generation result
  /-- A scan returns if no listing goes wrong and the directories are not nested too deeply. -/
  returns : ∀ (caller : Nat) schedule depth root patterns result,
    w.activities[caller]? = some ⟨.scan schedule depth root patterns, .done result⟩ →
    (∃ rank : String → Nat, rank root < depth ∧
      ∀ e ∈ w.history, e.caller = caller → Descends rank e.exchange) →
      ∃ found, result = .ok (.scanned found)
  /-- A scan returns nothing if another one was opened before it handed in its result, and only
  then; in that case it has changed nothing that the controller shows. -/
  superseded : ∀ (caller : Nat) schedule depth root patterns found,
    w.activities[caller]? =
      some ⟨.scan schedule depth root patterns, .done (.ok (.scanned found))⟩ →
      Returned w caller found

theorem ends_call_start {exchanges : List (Exchange interface)}
    {result : Except Scan.Fault Reply} (h : Ends Call.start.program.run exchanges result) :
    ∃ generation, result = .ok (.started generation) ∧ exchanges = [⟨.start, generation⟩] := by
  obtain ⟨_, hs, rfl⟩ := ends_bind_pure h
  obtain ⟨generation, rfl, rfl⟩ := ends_lift_request hs
  exact ⟨generation, rfl, rfl⟩

theorem ends_call_accept {generation : Int} {found : Option ScanResult} {rules : List Rule}
    {exchanges : List (Exchange interface)} {result : Except Scan.Fault Reply}
    (h : Ends (Call.accept generation found rules).program.run exchanges result) :
    ∃ accepted, result = .ok (.accepted accepted) ∧
      exchanges = [⟨.accept generation found rules, accepted⟩] := by
  obtain ⟨_, hs, rfl⟩ := ends_bind_pure h
  obtain ⟨accepted, rfl, rfl⟩ := ends_lift_request hs
  exact ⟨accepted, rfl, rfl⟩

theorem ends_call_build {schedule : Scan.Schedule} {depth : Nat} {root : String}
    {patterns : List String} {generation : Option Int} {exchanges : List (Exchange interface)}
    {result : Except Scan.Fault Reply}
    (h : Ends (Call.build schedule depth root patterns generation).program.run exchanges result) :
    ∃ returned, Ends (buildTree schedule depth root patterns generation).run exchanges returned ∧
      result = returned.map fun built => .built built.1 built.2 :=
  ends_bind_pure h

theorem ends_call_scan {schedule : Scan.Schedule} {depth : Nat} {root : String}
    {patterns : List String} {exchanges : List (Exchange interface)}
    {result : Except Scan.Fault Reply}
    (h : Ends (Call.scan schedule depth root patterns).program.run exchanges result) :
    ∃ returned, Ends (scan schedule depth root patterns).run exchanges returned ∧
      result = returned.map Reply.scanned :=
  ends_bind_pure h

/-- As long as no scan is opened, the latest one is told that it is the latest one. -/
theorem Linked.still_current {c d : Controller} {events : List Event} (h : Linked c events d)
    (hn : events.countP (·.exchange.1.isStart) = 0) :
    ∀ e ∈ events, e.exchange ≠ ⟨.isCurrent c.generation, false⟩ := by
  intro e he hx
  obtain ⟨front, back, rfl⟩ := List.append_of_mem he
  obtain ⟨c', hfront, hback⟩ := linked_append_iff.1 h
  obtain ⟨rfl, hf, -⟩ := hback
  have hg := hfront.generation
  have hcurrent := hf.isCurrent hx
  rw [List.countP_append] at hn
  have hsame : c.generation = e.before.generation := by omega
  simp [Controller.isCurrent, hsame] at hcurrent

/-- A scan comes to nothing when another one was opened in the meantime, and only then. -/
theorem returned_eq_none_iff {c d : Controller} {middle : List Event} {caller : Nat}
    {schedule : Scan.Schedule} {depth : Nat} {root : String} {patterns : List String}
    {submitted : Option ScanResult} {rules : List Rule} {accepted : Bool}
    (hl : Linked c middle d)
    (hb : Ends (buildTree schedule depth root patterns (some c.generation)).run
      (own caller middle) (.ok (submitted, rules)))
    (ha : accepted = true ↔ c.generation = d.generation ∧ submitted ≠ none) :
    (if accepted then submitted else none) = none ↔
      ∃ e ∈ middle, e.caller ≠ caller ∧ e.exchange.1.isStart = true := by
  have hquiet := ((buildTree_quiet schedule depth root patterns (some c.generation)).trace hb
    fun _ _ => trivial).1
  have hgeneration := hl.generation
  by_cases hn : middle.countP (·.exchange.1.isStart) = 0
  · have hsome : submitted.isSome = true := by
      apply (buildTree_current schedule depth root patterns (some c.generation)).ends hb
      intro exchange hx g hg
      cases hg
      obtain ⟨e, he, -, rfl⟩ := mem_own_iff.1 hx
      exact hl.still_current hn e he
    have hne : submitted ≠ none := Option.isSome_iff_ne_none.1 hsome
    have hacc : accepted = true := ha.2 ⟨by omega, hne⟩
    rw [if_pos hacc]
    refine iff_of_false hne ?_
    intro h
    obtain ⟨e, he, -, hs⟩ := h
    exact List.countP_eq_zero.1 hn e he hs
  · have hacc : ¬accepted = true := by
      intro h
      have := (ha.1 h).1
      omega
    rw [if_neg hacc]
    refine iff_of_true rfl ?_
    obtain ⟨e, he, hs⟩ := List.countP_pos_iff.1 (Nat.pos_of_ne_zero hn)
    refine ⟨e, he, ?_, hs⟩
    intro hc
    have hq := (hquiet e.exchange (mem_own_iff.2 ⟨e, he, hc, rfl⟩)).1
    rw [hq] at hs
    cases hs

theorem returned_of_consistent {c : Controller} {w : World} (h : Consistent c w) {caller : Nat}
    {schedule : Scan.Schedule} {depth : Nat} {root : String} {patterns : List String}
    {found : Option ScanResult}
    (ha : w.activities[caller]? =
      some ⟨.scan schedule depth root patterns, .done (.ok (.scanned found))⟩) :
    Returned w caller found := by
  obtain ⟨returned, hscan, hr⟩ := ends_call_scan (h.traces caller _ ha)
  obtain ⟨generation, mid, built, hb, hcases⟩ := ends_scan _ _ _ _ hscan
  rcases hcases with ⟨fault, -, rfl, -⟩ | ⟨submitted, rules, accepted, rfl, rfl, hown⟩
  · cases hr
  · have hfound : found = if accepted then submitted else none := by
      cases hr
      rfl
    obtain ⟨before, first, middle, last, after, hw, hfc, hfe, hlc, hle, rfl, houter⟩ :=
      exists_span hown
    have hlinked := h.linked
    rw [hw] at hlinked
    obtain ⟨c', -, rfl, hff, hinner⟩ := linked_append_iff.1 hlinked
    obtain ⟨d', hmiddle, rfl, hlf, -⟩ := linked_append_iff.1 hinner
    have hg : generation = first.after.generation := by
      have hstart := hff.start hfe
      have hstep := hff.generation
      rw [hfe, Request.isStart, if_pos rfl] at hstep
      omega
    subst hg
    have haccept := (accept_eq_iff (hlf.accept hle)).1
    refine ⟨before, first, middle, last, after, _, submitted, rules, accepted, hw, ⟨hfc, hfe⟩,
      ⟨hlc, hle⟩, houter, hfound, hfound ▸ returned_eq_none_iff hmiddle hb haccept, ?_⟩
    intro hnone e he hc
    apply (h.linked.fits e he).agree_of_ne
    intro g result rules' hx
    have hmem := mem_own_iff.2 ⟨e, he, hc, hx⟩
    rw [hown] at hmem
    rcases List.mem_cons.1 hmem with hmem | hmem
    · cases hmem
    · rcases List.mem_append.1 hmem with hmem | hmem
      · have hquiet := ((buildTree_quiet schedule depth root patterns
          (some first.after.generation)).trace hb fun _ _ => trivial).1
        cases (hquiet _ hmem).2
      · cases List.mem_singleton.1 hmem
        rw [if_pos rfl] at hfound
        exact (haccept.1 rfl).2 (hfound ▸ hnone)

/-- A request that is neither a start nor an accept changes nothing that the controller shows. -/
theorem Event.Fits.of_quiet {e : Event} (h : e.Fits) (hq : IsQuiet e.exchange.1) :
    Agree e.before e.after ∧ e.after.generation = e.before.generation := by
  refine ⟨h.agree hq.2, ?_⟩
  rw [h.generation, hq.1]
  exact Int.add_zero _

theorem built_of_consistent {c : Controller} {w : World} (h : Consistent c w) {caller : Nat}
    {schedule : Scan.Schedule} {depth : Nat} {root : String} {patterns : List String}
    {generation : Option Int} {result : Except Scan.Fault Reply}
    (ha : w.activities[caller]? =
      some ⟨.build schedule depth root patterns generation, .done result⟩) :
    Built w caller patterns generation result := by
  obtain ⟨returned, hb, rfl⟩ := ends_call_build (h.traces caller _ ha)
  refine ⟨?_, ?_⟩
  · have hquiet := ((buildTree_quiet schedule depth root patterns generation).trace hb
      fun _ _ => trivial).1
    intro e he hc
    exact (h.linked.fits e he).of_quiet (hquiet e.exchange (mem_own_iff.2 ⟨e, he, hc, rfl⟩))
  · intro reply hreply
    obtain fault | ⟨found, rules⟩ := returned
    · cases hreply
    · cases hreply
      obtain ⟨more, hown⟩ := ends_buildTree _ _ _ _ hb
      refine ⟨found, rules, rfl, mem_own_iff.1 (hown ▸ List.mem_cons_self), ?_⟩
      -- Had it always been told that it is the latest one, there would be a result.
      contrapose!
      intro htold
      have hsome : found.isSome = true := by
        apply (buildTree_current schedule depth root patterns generation).ends hb
        intro exchange hx g hg hfalse
        obtain ⟨e, he, hc, rfl⟩ := mem_own_iff.1 hx
        have hbefore := htold e he hc g hg hfalse
        have hcurrent := (h.linked.fits e he).isCurrent hfalse
        simp [Controller.isCurrent, hbefore] at hcurrent
      exact Option.isSome_iff_ne_none.1 hsome

theorem exists_scanned_of_consistent {c : Controller} {w : World} (h : Consistent c w)
    {caller : Nat} {schedule : Scan.Schedule} {depth : Nat} {root : String}
    {patterns : List String} {result : Except Scan.Fault Reply}
    (ha : w.activities[caller]? = some ⟨.scan schedule depth root patterns, .done result⟩)
    {rank : String → Nat} (hr : rank root < depth)
    (hd : ∀ e ∈ w.history, e.caller = caller → Descends rank e.exchange) :
    ∃ found, result = .ok (.scanned found) := by
  obtain ⟨returned, hscan, rfl⟩ := ends_call_scan (h.traces caller _ ha)
  obtain ⟨generation, mid, built, hb, hcases⟩ := ends_scan _ _ _ _ hscan
  rcases hcases with ⟨fault, rfl, rfl, hown⟩ | ⟨submitted, rules, accepted, rfl, rfl, -⟩
  · have hranked : ∀ exchange ∈ mid, (ranked rank).gets exchange := by
      intro exchange hx
      have hmem : exchange ∈ own caller w.history := hown ▸ List.mem_cons_of_mem _ hx
      obtain ⟨e, he, hc, rfl⟩ := mem_own_iff.1 hmem
      exact hd e he hc
    have hbuild := buildTree_ranked schedule depth root patterns hr (some generation)
    exact (hbuild.ends hb hranked).elim
  · exact ⟨_, rfl⟩

/-- The histories of calls on one controller keep to the rules, whatever the calls, the order in
which they go on and the listings. -/
theorem historySpec_run (c : Controller) (moves : List Move) :
    HistorySpec (World.run { controller := c } moves) := by
  have h := (consistent_start c).run moves
  generalize World.run { controller := c } moves = w at h
  refine ⟨h.linked.increasing, ?_, ?_, ?_, ?_, ?_, ?_, ?_⟩
  · intro e he generation found rules accepted hx
    exact accept_eq_iff ((h.linked.fits e he).accept hx)
  · intro before e after hw generation found rules accepted hx hnewer
    obtain ⟨newer, hmem, hlt⟩ := hnewer
    obtain ⟨d, hbefore, rfl, hf, -⟩ := linked_append_iff.1 (hw ▸ h.linked)
    have hbound := (hbefore.started_bounds newer hmem).2
    obtain ⟨hacc, hafter⟩ := accept_eq_iff (hf.accept hx)
    have hnot : accepted = false := by
      apply Bool.eq_false_iff.2
      intro ha
      have := (hacc.1 ha).1
      omega
    rw [hnot, if_neg Bool.false_ne_true] at hafter
    exact ⟨hnot, hafter⟩
  · exact fun caller result ha => ends_call_start (h.traces caller _ ha)
  · exact fun caller _ _ _ result ha => ends_call_accept (h.traces caller _ ha)
  · exact fun caller _ _ _ _ _ result ha => built_of_consistent h ha
  · intro caller schedule depth root patterns result ha hranked
    obtain ⟨rank, hr, hd⟩ := hranked
    exact exists_scanned_of_consistent h ha hr hd
  · intro caller schedule depth root patterns found ha
    exact returned_of_consistent h ha

-- Another scan is opened while the only directory is being listed.
example :
    let moves : List Move := [.call (.scan .inOrder 3 "/r" []), .goOn 0 (.ok []), .goOn 0 (.ok []),
      .goOn 0 (.ok []), .goOn 0 (.ok []), .call .start, .goOn 1 (.ok []),
      .goOn 0 (.ok [⟨"a.txt", false, "/r/a.txt"⟩]), .goOn 0 (.ok []), .goOn 0 (.ok [])]
    let results := (World.run { controller := { workers := 2 } } moves).activities.map fun a =>
      match a.rest with
      | .done result => some result
      | .ask _ _ => none
    results = [some (.ok (.scanned none)), some (.ok (.started 2))] := by
  rfl

end FileSieve.Control
