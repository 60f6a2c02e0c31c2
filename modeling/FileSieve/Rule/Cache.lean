import FileSieve.Rule.Key
import FileSieve.Rule.Basic

/-!
A bounded cache of compiled ignore lists. It is keyed by content, so a changed list has a new key,
and it forgets the list that has not been used for the longest time.
-/

namespace FileSieve

/-- Compiled lists by key, the one used last at the end, with counts of hits and misses. -/
structure RuleCache where
  capacity : Nat
  entries : List (String × List Rule) := []
  hits : Nat := 0
  misses : Nat := 0

namespace RuleCache

/-- An empty cache; it holds at least one list. -/
def ofCapacity (capacity : Int) : RuleCache :=
  { capacity := max 1 capacity.toNat }

def defaultCapacity : Int := 32

def without (key : String) (entries : List (String × List Rule)) : List (String × List Rule) :=
  entries.filter (·.1 ≠ key)

def renew (key : String) (rules : List Rule) (entries : List (String × List Rule)) :
    List (String × List Rule) :=
  without key entries ++ [(key, rules)]

/-- Drops the oldest entries that are too many. -/
def trimTo (capacity : Nat) (entries : List (String × List Rule)) : List (String × List Rule) :=
  entries.drop (entries.length - capacity)

/-- What is logged when a list has been compiled. -/
def compileLog (patterns : List String) : List Log.Record :=
  compileNotes patterns ++
    [⟨.debug, "Compiled " ++ toString (compileRules patterns).length ++ " ignore rules from " ++
      toString patterns.length ++ " items (key " ++
      String.ofList ((ruleSetKey patterns).toList.take 12) ++ ")"⟩]

/-- The rules of a list, which are compiled if the cache does not hold them. -/
def get (patterns : List String) (cache : RuleCache) : List Rule × List Log.Record × RuleCache :=
  let key := ruleSetKey patterns
  match cache.entries.lookup key with
  | some rules =>
    (rules, [], { cache with entries := renew key rules cache.entries, hits := cache.hits + 1 })
  | none =>
    let rules := compileRules patterns
    let entries := trimTo cache.capacity (renew key rules cache.entries)
    (rules, compileLog patterns, { cache with entries, misses := cache.misses + 1 })

/-- An empty cache compiles the rules that it is asked for. -/
theorem get_ofCapacity (capacity : Int) (patterns : List String) :
    (get patterns (ofCapacity capacity)).1 = compileRules patterns := rfl

/-- Forgets a list, and tells whether the cache held it. -/
def invalidate (patterns : List String) (cache : RuleCache) : Bool × RuleCache :=
  let key := ruleSetKey patterns
  ((cache.entries.lookup key).isSome, { cache with entries := without key cache.entries })

/-- Forgets everything, the counts included. -/
def clear (cache : RuleCache) : RuleCache :=
  { capacity := cache.capacity }

def size (cache : RuleCache) : Nat := cache.entries.length

end RuleCache

end FileSieve
