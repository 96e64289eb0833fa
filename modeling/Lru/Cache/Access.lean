import Lru.Cache.Update

/-! # Accessing a cache

Accesses answer from live entries only. Looking up announces a hit or a miss;
asking whether a key is present, touching and looking at the ends do not.
-/

namespace Lru.Cache

variable {K V : Type} [BEq K]

def contains (c : Cache K V) (now : Instant) (key : K) : Outcome K V Bool :=
  (c.resolve now key).map Option.isSome

/-- The value of a live entry; its recency stays. -/
def lookup (c : Cache K V) (now : Instant) (key : K) : Outcome K V (Except CacheError V) :=
  let found := c.resolve now key
  match found.result.bind found.cache.order.get? with
  | some entry => { found with
      result := .ok entry.value
      notices := found.notices ++ [.hit key entry.value] }
  | none => { found with
      result := .error .keyNotFound
      notices := found.notices ++ [.miss key] }

/-- Promotes the entry at `id` if accesses do that in this cache. -/
def promoteOnAccess (c : Cache K V) (now : Instant) (id : SlotId) : Cache K V :=
  match c.mode with
  | .onInsert => c
  | .onAccess => c.promote now id

/-- The value of a live entry before `update` changes it. -/
def lookupMut (c : Cache K V) (now : Instant) (key : K) (update : V → V) :
    Outcome K V (Except CacheError V) :=
  let found := c.resolve now key
  match found.result with
  | none => { found with
      result := .error .keyNotFound
      notices := found.notices ++ [.miss key] }
  | some id =>
    let c := found.cache.promoteOnAccess now id
    match c.order.get? id with
    | none => { found with result := .error .keyNotFound, cache := c }
    | some entry =>
      { result := .ok entry.value
        cache := { c with
          order := c.order.modify id fun entry => { entry with value := update entry.value } }
        notices := found.notices ++ [.hit key entry.value] }

/-- The value of a live entry, or else the value that `make` gives, which is then inserted. -/
def getOrInsert (c : Cache K V) (now : Instant) (key : K) (make : K → V) :
    Except Fault (Outcome K V V) :=
  let found := c.resolve now key
  let accessed := match found.result with
    | some id => found.cache.promoteOnAccess now id
    | none => found.cache
  match found.result.bind accessed.order.get? with
  | some entry => .ok
      { result := entry.value
        cache := accessed
        notices := found.notices ++ [.hit key entry.value] }
  | none => do
    let value := make key
    let stored ← accessed.insert now key value
    pure ((stored.map fun _ => value).after (found.notices ++ [.miss key, .made key]))

/-- Promotes a live entry and tells whether there was one. -/
def touch (c : Cache K V) (now : Instant) (key : K) : Outcome K V Bool :=
  let found := c.resolve now key
  match found.result with
  | some id => { found with result := true, cache := found.cache.promote now id }
  | none => { found with result := false }

/-- The least recent entry. -/
def front (c : Cache K V) : Except CacheError (K × V) :=
  match c.order.front? with
  | some entry => .ok (entry.key, entry.value)
  | none => .error (.emptyCache "front")

/-- The most recent entry. -/
def back (c : Cache K V) : Except CacheError (K × V) :=
  match c.order.back? with
  | some entry => .ok (entry.key, entry.value)
  | none => .error (.emptyCache "back")

end Lru.Cache
