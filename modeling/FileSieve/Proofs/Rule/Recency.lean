import Mathlib.Data.Finset.Card
import FileSieve.Proofs.Rule.Keys
import FileSieve.Rule.Cache

/-! # The cache as a list of uses

A cache of compiled ignore lists answers as if it kept the lists themselves in the order of their
last use and compiled them anew each time. So a list is held until it is given up, or as many other
lists as the cache has room for have been used after it. -/

namespace FileSieve

/-! ## Requests -/

/-- What a cache is asked for. -/
inductive CacheRequest where
  | get (patterns : List String)
  | invalidate (patterns : List String)
  | clear
deriving DecidableEq

inductive CacheAnswer where
  | rules (rules : List Rule)
  | held (wasHeld : Bool)
  | cleared
deriving DecidableEq

namespace CacheRequest

/-- The ignore list that a request is about. -/
def patterns? : CacheRequest → Option (List String)
  | get patterns | invalidate patterns => some patterns
  | clear => none

/-- The ignore list that a request gets. -/
def gotten? : CacheRequest → Option (List String)
  | get patterns => some patterns
  | _ => none

/-- The requests after the last time that everything was forgotten, the latest first. -/
def sinceClear (requests : List CacheRequest) : List CacheRequest :=
  requests.reverse.takeWhile (· ≠ clear)

end CacheRequest

open CacheRequest (patterns? gotten? sinceClear)

section Serving

variable {α : Type} (serve : CacheRequest → α → CacheAnswer × α)

/-- The answers to some requests, served one after the other, and what is left in the end. -/
def serveAll : List CacheRequest → α → List CacheAnswer × α
  | [], state => ([], state)
  | request :: more, state =>
    let (answer, next) := serve request state
    let (answers, last) := serveAll more next
    (answer :: answers, last)

theorem serveAll_cons (request : CacheRequest) (more : List CacheRequest) (state : α) :
    (serveAll serve (request :: more) state).2 =
      (serveAll serve more (serve request state).2).2 := rfl

theorem serveAll_append (requests more : List CacheRequest) (state : α) :
    (serveAll serve (requests ++ more) state).2 =
      (serveAll serve more (serveAll serve requests state).2).2 := by
  induction requests generalizing state with
  | nil => rfl
  | cons request requests ih => exact ih (serve request state).2

end Serving

namespace RuleCache

def serve : CacheRequest → RuleCache → CacheAnswer × RuleCache
  | .get patterns, cache =>
    let (rules, _, next) := cache.get patterns
    (.rules rules, next)
  | .invalidate patterns, cache =>
    let (wasHeld, next) := cache.invalidate patterns
    (.held wasHeld, next)
  | .clear, cache => (.cleared, cache.clear)

end RuleCache

/-! ## The list of uses -/

/-- Ignore lists in the order of their last use, the latest first, with counts of the gets that
found their list there and of those that did not. -/
structure Recency where
  capacity : Nat
  lists : List (List String) := []
  hits : Nat := 0
  misses : Nat := 0

namespace Recency

def serve : CacheRequest → Recency → CacheAnswer × Recency
  | .get patterns, r =>
    (.rules (compileRules patterns),
      { r with
        lists := (patterns :: r.lists.filter (· ≠ patterns)).take r.capacity
        hits := r.hits + if patterns ∈ r.lists then 1 else 0
        misses := r.misses + if patterns ∈ r.lists then 0 else 1 })
  | .invalidate patterns, r =>
    (.held (patterns ∈ r.lists), { r with lists := r.lists.filter (· ≠ patterns) })
  | .clear, r => (.cleared, { capacity := r.capacity })

theorem capacity_serve (request : CacheRequest) (r : Recency) :
    (serve request r).2.capacity = r.capacity := by
  cases request <;> rfl

/-! ### Counts -/

/-- Hits and misses are the gets since everything was forgotten. -/
theorem hits_add_misses (capacity : Nat) (requests : List CacheRequest) :
    let r := (serveAll serve requests { capacity }).2
    r.hits + r.misses = ((sinceClear requests).filterMap gotten?).length := by
  induction requests using List.reverseRecOn with
  | nil => rfl
  | append_singleton requests request ih =>
    rw [serveAll_append, sinceClear, List.reverse_concat]
    cases request with
    | get patterns =>
      rw [List.takeWhile_cons_of_pos (by simp), List.filterMap_cons_some (f := gotten?) rfl,
        List.length_cons, ← sinceClear, ← ih]
      change _ + (if _ then 1 else 0) + (_ + if _ then 0 else 1) = _
      split <;> omega
    | invalidate patterns =>
      rw [List.takeWhile_cons_of_pos (by simp), List.filterMap_cons_none rfl, ← sinceClear, ← ih]
      rfl
    | clear =>
      rw [List.takeWhile_cons_of_neg (by decide)]
      rfl

/-! ### What is kept

The lists used after a given one stand in front of it, and it is dropped only when they leave no
room. -/

variable {patterns : List String} {others : Finset (List String)} {r : Recency}

/-- A list is kept behind some others. -/
def KeptBehind (others : Finset (List String)) (patterns : List String) (r : Recency) : Prop :=
  ∃ front back, r.lists = front ++ patterns :: back ∧ front.Nodup ∧ ∀ list ∈ front, list ∈ others

theorem length_le_card {front : List (List String)} (hn : front.Nodup)
    (hm : ∀ list ∈ front, list ∈ others) : front.length ≤ others.card := by
  rw [← List.toFinset_card_of_nodup hn]
  apply Finset.card_le_card
  intro list hl
  exact hm list (List.mem_toFinset.1 hl)

theorem take_append_cons {α : Type} (front : List α) {n : Nat} (h : front.length < n) (a : α)
    (back : List α) :
    ∃ rest, (front ++ a :: back).take n = front ++ a :: rest := by
  obtain ⟨k, hk⟩ : ∃ k, n - front.length = k + 1 := ⟨n - front.length - 1, by omega⟩
  refine ⟨back.take k, ?_⟩
  rw [List.take_append, List.take_of_length_le (Nat.le_of_lt h), hk, List.take_succ_cons]

theorem keptBehind_get (patterns : List String) (hr : others.card < r.capacity) :
    KeptBehind others patterns (serve (.get patterns) r).2 := by
  obtain ⟨rest, hrest⟩ := take_append_cons [] (Nat.zero_lt_of_lt hr) patterns
    (r.lists.filter (· ≠ patterns))
  exact ⟨[], rest, hrest, List.nodup_nil, nofun⟩

/-- A request for another list keeps a list, if there is room for all the others. -/
theorem KeptBehind.step (h : KeptBehind others patterns r) (hr : others.card < r.capacity)
    {request : CacheRequest} (hclear : request ≠ .clear)
    (hinvalidate : request ≠ .invalidate patterns)
    (hget : ∀ list, gotten? request = some list → list ≠ patterns → list ∈ others) :
    KeptBehind others patterns (serve request r).2 := by
  obtain ⟨front, back, hlists, hn, hm⟩ := h
  have hwithout {list : List String} (hne : list ≠ patterns) :
      r.lists.filter (· ≠ list) =
        front.filter (· ≠ list) ++ patterns :: back.filter (· ≠ list) := by
    rw [hlists, List.filter_append, List.filter_cons_of_pos (by simpa using Ne.symm hne)]
  cases request with
  | get list =>
    by_cases hp : list = patterns
    · subst hp
      exact keptBehind_get list hr
    · have hfront : (list :: front.filter (· ≠ list)).Nodup :=
        List.nodup_cons.2 ⟨by simp, hn.filter _⟩
      have hothers : ∀ other ∈ list :: front.filter (· ≠ list), other ∈ others :=
        List.forall_mem_cons.2
          ⟨hget list rfl hp, fun other ho => hm other (List.mem_of_mem_filter ho)⟩
      have hroom := Nat.lt_of_le_of_lt (length_le_card hfront hothers) hr
      obtain ⟨rest, hrest⟩ := take_append_cons _ hroom patterns (back.filter (· ≠ list))
      refine ⟨list :: front.filter (· ≠ list), rest, ?_, hfront, hothers⟩
      rw [← hrest, List.cons_append, ← hwithout hp]
      rfl
  | invalidate list =>
    have hp : list ≠ patterns := fun hp => hinvalidate (hp ▸ rfl)
    exact ⟨front.filter (· ≠ list), back.filter (· ≠ list), hwithout hp, hn.filter _,
      fun other ho => hm other (List.mem_of_mem_filter ho)⟩
  | clear => exact absurd rfl hclear

theorem KeptBehind.run (h : KeptBehind others patterns r) (hr : others.card < r.capacity)
    {requests : List CacheRequest} (hclear : .clear ∉ requests)
    (hinvalidate : .invalidate patterns ∉ requests)
    (hget : ∀ list ∈ requests.filterMap gotten?, list ≠ patterns → list ∈ others) :
    KeptBehind others patterns (serveAll serve requests r).2 := by
  induction requests generalizing r with
  | nil => exact h
  | cons request requests ih =>
    rw [List.mem_cons, not_or] at hclear hinvalidate
    have hfirst := h.step hr (Ne.symm hclear.1) (Ne.symm hinvalidate.1) fun list hl =>
      hget list (List.mem_filterMap.2 ⟨request, List.mem_cons_self, hl⟩)
    have hroom : others.card < (serve request r).2.capacity := by rwa [capacity_serve]
    apply ih hfirst hroom hclear.2 hinvalidate.2
    intro list hl
    obtain ⟨later, hlater, hlist⟩ := List.mem_filterMap.1 hl
    exact hget list (List.mem_filterMap.2 ⟨later, List.mem_cons_of_mem _ hlater, hlist⟩)

theorem capacity_serveAll (requests : List CacheRequest) (r : Recency) :
    (serveAll serve requests r).2.capacity = r.capacity := by
  induction requests generalizing r with
  | nil => rfl
  | cons request requests ih => exact (ih _).trans (capacity_serve request r)

/-- A list that was gotten is kept until it is given up, as long as fewer other lists are gotten
after it than there is room for. -/
theorem mem_lists_of_get (before : List CacheRequest) {after : List CacheRequest}
    (hclear : .clear ∉ after) (hinvalidate : .invalidate patterns ∉ after)
    (hroom : ((after.filterMap gotten?).toFinset.erase patterns).card < r.capacity) :
    patterns ∈ (serveAll serve (before ++ .get patterns :: after) r).2.lists := by
  rw [← capacity_serveAll before r] at hroom
  have hkept := (keptBehind_get patterns hroom).run
    (by rwa [capacity_serve]) hclear hinvalidate
    fun list hl hp => Finset.mem_erase.2 ⟨hp, List.mem_toFinset.2 hl⟩
  obtain ⟨front, back, hlists, -⟩ := hkept
  rw [serveAll_append, serveAll_cons, hlists]
  exact List.mem_append_right _ List.mem_cons_self

end Recency

/-! ## The cache and the list -/

namespace RuleCache

variable {known : List (List String)} {patterns : List String} {cache : RuleCache} {r : Recency}

/-- The entry of an ignore list. -/
def compiled (patterns : List String) : String × List Rule :=
  (ruleSetKey patterns, compileRules patterns)

theorem lookup_compiled (h : NoCollision known) (hp : patterns ∈ known) {lists : List (List String)}
    (hl : ∀ list ∈ lists, list ∈ known) :
    (lists.map compiled).lookup (ruleSetKey patterns) =
      if patterns ∈ lists then some (compileRules patterns) else none := by
  induction lists with
  | nil => rfl
  | cons list lists ih =>
    obtain ⟨hlist, hlists⟩ := List.forall_mem_cons.1 hl
    rw [List.map_cons, compiled, List.lookup_cons]
    by_cases hk : ruleSetKey patterns = ruleSetKey list
    · obtain rfl := h.eq hp hlist hk
      simp
    · have hne : patterns ≠ list := fun he => hk (he ▸ rfl)
      rw [beq_false_of_ne hk, ih hlists]
      simp [hne]

theorem without_compiled (h : NoCollision known) (hp : patterns ∈ known)
    {lists : List (List String)} (hl : ∀ list ∈ lists, list ∈ known) :
    without (ruleSetKey patterns) (lists.map compiled) =
      (lists.filter (· ≠ patterns)).map compiled := by
  rw [without, List.filter_map]
  refine congrArg (List.map compiled) (List.filter_congr fun list hlist => ?_)
  have hk : ruleSetKey list = ruleSetKey patterns ↔ list = patterns :=
    ⟨h.eq (hl list hlist) hp, fun he => he ▸ rfl⟩
  simp [compiled, hk]

/-- A cache holds the compiled lists of a list of uses, the latest last, and counts alike. All of
them are known, and there is room for them. -/
structure Follows (known : List (List String)) (cache : RuleCache) (r : Recency) : Prop where
  capacity : cache.capacity = r.capacity
  entries : cache.entries = r.lists.reverse.map compiled
  hits : cache.hits = r.hits
  misses : cache.misses = r.misses
  known : ∀ list ∈ r.lists, list ∈ known
  fits : r.lists.length ≤ r.capacity

theorem follows_ofCapacity (known : List (List String)) (capacity : Int) :
    Follows known (ofCapacity capacity) { capacity := max 1 capacity.toNat } :=
  ⟨rfl, rfl, rfl, rfl, nofun, Nat.zero_le _⟩

theorem Follows.lookup (h : Follows known cache r) (hk : NoCollision known)
    (hp : patterns ∈ known) :
    cache.entries.lookup (ruleSetKey patterns) =
      if patterns ∈ r.lists then some (compileRules patterns) else none := by
  rw [h.entries, lookup_compiled hk hp fun list hl => h.known list (List.mem_reverse.1 hl)]
  simp only [List.mem_reverse]

theorem Follows.without (h : Follows known cache r) (hk : NoCollision known)
    (hp : patterns ∈ known) :
    without (ruleSetKey patterns) cache.entries =
      (r.lists.filter (· ≠ patterns)).reverse.map compiled := by
  rw [h.entries, without_compiled hk hp fun list hl => h.known list (List.mem_reverse.1 hl),
    List.filter_reverse]

theorem Follows.renew (h : Follows known cache r) (hk : NoCollision known)
    (hp : patterns ∈ known) :
    renew (ruleSetKey patterns) (compileRules patterns) cache.entries =
      (patterns :: r.lists.filter (· ≠ patterns)).reverse.map compiled := by
  rw [RuleCache.renew, h.without hk hp, List.reverse_cons, List.map_append]
  rfl

theorem trimTo_reverse (capacity : Nat) (lists : List (List String)) :
    trimTo capacity (lists.reverse.map compiled) = (lists.take capacity).reverse.map compiled := by
  rw [trimTo, ← List.map_drop, List.length_map, List.length_reverse, List.drop_reverse]
  rcases Nat.le_total lists.length capacity with hl | hl
  · rw [Nat.sub_eq_zero_of_le hl, Nat.sub_zero, List.take_of_length_le hl, List.take_length]
  · rw [Nat.sub_sub_self hl]

/-- With a request, the cache goes on as the list of uses does, and gives the same answer. -/
theorem Follows.step (h : Follows known cache r) (hk : NoCollision known)
    {request : CacheRequest}
    (hp : ∀ patterns, patterns? request = some patterns → patterns ∈ known) :
    (RuleCache.serve request cache).1 = (Recency.serve request r).1 ∧
      Follows known (RuleCache.serve request cache).2 (Recency.serve request r).2 := by
  cases request with
  | get patterns =>
    have hpatterns := hp patterns rfl
    have hknown : ∀ list ∈ (patterns :: r.lists.filter (· ≠ patterns)).take r.capacity,
        list ∈ known := by
      intro list hl
      rcases List.mem_cons.1 (List.mem_of_mem_take hl) with rfl | hl
      · exact hpatterns
      · exact h.known list (List.mem_of_mem_filter hl)
    have hfits := List.length_take_le r.capacity (patterns :: r.lists.filter (· ≠ patterns))
    rw [RuleCache.serve, RuleCache.get, h.lookup hk hpatterns, Recency.serve]
    by_cases hm : patterns ∈ r.lists
    · -- a hit drops nothing, and there was room for the list already
      have hroom : (patterns :: r.lists.filter (· ≠ patterns)).length ≤ r.capacity :=
        Nat.le_trans (List.length_filter_lt_length_iff_exists.2 ⟨patterns, hm, by simp⟩) h.fits
      rw [if_pos hm]
      refine ⟨rfl, h.capacity, ?_, ?_, ?_, hknown, hfits⟩
      · rw [List.take_of_length_le hroom]
        exact h.renew hk hpatterns
      · simp [hm, h.hits]
      · simp [hm, h.misses]
    · rw [if_neg hm]
      refine ⟨rfl, h.capacity, ?_, ?_, ?_, hknown, hfits⟩
      · dsimp only
        rw [h.renew hk hpatterns, h.capacity, trimTo_reverse]
      · simp [hm, h.hits]
      · simp [hm, h.misses]
  | invalidate patterns =>
    have hpatterns := hp patterns rfl
    rw [RuleCache.serve, RuleCache.invalidate, h.lookup hk hpatterns, Recency.serve]
    refine ⟨?_, h.capacity, h.without hk hpatterns, h.hits, h.misses, ?_, ?_⟩
    · by_cases hm : patterns ∈ r.lists <;> simp [hm]
    · exact fun list hl => h.known list (List.mem_of_mem_filter hl)
    · exact Nat.le_trans (List.length_filter_le _ _) h.fits
  | clear => exact ⟨rfl, h.capacity, rfl, rfl, rfl, nofun, Nat.zero_le _⟩

theorem Follows.run (h : Follows known cache r) (hk : NoCollision known)
    {requests : List CacheRequest}
    (hp : ∀ patterns ∈ requests.filterMap patterns?, patterns ∈ known) :
    (serveAll RuleCache.serve requests cache).1 = (serveAll Recency.serve requests r).1 ∧
      Follows known (serveAll RuleCache.serve requests cache).2
        (serveAll Recency.serve requests r).2 := by
  induction requests generalizing cache r with
  | nil => exact ⟨rfl, h⟩
  | cons request requests ih =>
    obtain ⟨hanswer, hnext⟩ := h.step hk fun patterns hpatterns =>
      hp patterns (List.mem_filterMap.2 ⟨request, List.mem_cons_self, hpatterns⟩)
    obtain ⟨hanswers, hlast⟩ := ih hnext fun patterns hpatterns => by
      obtain ⟨later, hlater, hlist⟩ := List.mem_filterMap.1 hpatterns
      exact hp patterns (List.mem_filterMap.2 ⟨later, List.mem_cons_of_mem _ hlater, hlist⟩)
    exact ⟨congrArg₂ List.cons hanswer hanswers, hlast⟩

/-- A cache answers as the list of uses does and has the same size and the same counts, which are
those of the gets since it was cleared. It holds a list that was gotten until that is invalidated or
everything is cleared, as long as fewer other lists are gotten after it than it has room for. -/
theorem serveAll_eq_recency (maxSize : Int) (requests : List CacheRequest)
    (h : NoCollision (requests.filterMap patterns?)) :
    let run := serveAll serve requests (ofCapacity maxSize)
    let uses := serveAll Recency.serve requests { capacity := max 1 maxSize.toNat }
    run.1 = uses.1 ∧ run.2.size = uses.2.lists.length ∧ run.2.capacity = max 1 maxSize.toNat ∧
      run.2.hits = uses.2.hits ∧ run.2.misses = uses.2.misses ∧
      run.2.hits + run.2.misses = ((sinceClear requests).filterMap gotten?).length ∧
      ∀ before patterns after, requests = before ++ .get patterns :: after →
        .clear ∉ after → .invalidate patterns ∉ after →
        ((after.filterMap gotten?).toFinset.erase patterns).card < max 1 maxSize.toNat →
        (run.2.invalidate patterns).1 = true ∧
          (run.2.get patterns).2.2.hits = run.2.hits + 1 := by
  intro run uses
  obtain ⟨hanswers, hfollows⟩ := (follows_ofCapacity _ maxSize).run h fun _ hp => hp
  have hcounts := Recency.hits_add_misses (max 1 maxSize.toNat) requests
  have hcapacity := Recency.capacity_serveAll requests { capacity := max 1 maxSize.toNat }
  refine ⟨hanswers, ?_, hfollows.capacity.trans hcapacity, hfollows.hits, hfollows.misses, ?_, ?_⟩
  · rw [size, hfollows.entries, List.length_map, List.length_reverse]
  · rw [hfollows.hits, hfollows.misses]
    exact hcounts
  · intro before patterns after hrequests hclear hinvalidate hroom
    have hmem : patterns ∈ requests.filterMap patterns? := by
      refine List.mem_filterMap.2 ⟨.get patterns, ?_, rfl⟩
      rw [hrequests]
      exact List.mem_append_right before List.mem_cons_self
    have hheld := Recency.mem_lists_of_get before
      (r := { capacity := max 1 maxSize.toNat }) hclear hinvalidate hroom
    rw [← hrequests] at hheld
    have hlookup := hfollows.lookup h hmem
    rw [if_pos hheld] at hlookup
    constructor
    · rw [invalidate, hlookup]
      rfl
    · rw [get, hlookup]

/-- Two lists with room for both: the one that was used again stays when a third one comes. -/
theorem serveAll_eq_recency_third_list :
    let requests : List CacheRequest := [.get ["a"], .get ["b", "!c"], .get ["a"], .get ["a\",\"b"]]
    NoCollision (requests.filterMap patterns?) ∧
      ((serveAll serve requests (ofCapacity 2)).2.invalidate ["a"]).1 = true ∧
      (serveAll serve requests (ofCapacity 2)).2.hits = 1 ∧
      (serveAll serve requests (ofCapacity 2)).2.size = 2 := by
  intro requests
  have hn : NoCollision (requests.filterMap patterns?) := by decide +kernel
  obtain ⟨-, hsize, -, hhits, -, -, hheld⟩ := serveAll_eq_recency 2 requests hn
  have hkept := hheld [.get ["a"], .get ["b", "!c"]] ["a"] [.get ["a\",\"b"]] rfl
    (by decide +kernel) (by decide +kernel) (by decide +kernel)
  exact ⟨hn, hkept.1, hhits, hsize⟩

end RuleCache

end FileSieve
