import Lru.Cache.Basic

/-! # Changing a cache

Insertion, the ways to remove an entry, and resizing. An insertion that finds
its key keeps the stored key and replaces the value, whether or not the entry
is still live.
-/

namespace Lru

/-- Whether an insertion added an entry, and where the entry is. -/
structure Insertion where
  inserted : Bool
  handle : Handle
  deriving DecidableEq, Repr

namespace Cache

variable {K V : Type} [BEq K]

/-- Appends a new entry as the most recent one. -/
def append (c : Cache K V) (now : Instant) (key : K) (value : V) : Outcome K V Insertion :=
  let (id, order) := c.order.pushBack { key, value, stamp := now }
  let c := ({ c with
    order
    index := c.index.insert key id
    lastAccessed := some id } : Cache K V).bump
  { result := { inserted := true, handle := c.handle (some id) }, cache := c }

/-- Replaces the value of the entry at `id` and promotes it. -/
def replace (c : Cache K V) (now : Instant) (id : SlotId) (value : V) : Outcome K V Insertion :=
  let order := c.order.modify id fun entry => { entry with value }
  let c := { ({ c with order } : Cache K V).promote now id with lastAccessed := some id }
  { result := { inserted := false, handle := c.handle (some id) }, cache := c }

/-- Stores `value` under `key`, after evicting the front of a full cache if the key is new. A
cache without capacity stores nothing. -/
def insert (c : Cache K V) (now : Instant) (key : K) (value : V) :
    Except Fault (Outcome K V Insertion) :=
  match c.index.get? key with
  | some id => .ok (c.replace now id value)
  | none =>
    if c.capacity = 0 then
      .ok { result := { inserted := false, handle := c.handle none }, cache := c }
    else if c.isFull then
      let evicted := c.evictFront
      audited ((evicted.cache.append now key value).after evicted.notices)
    else
      audited (c.append now key value)

/-- Inserts the pairs in order and counts the keys that were new. -/
def insertAll (c : Cache K V) (now : Instant) :
    List (K × V) → Except Fault (Outcome K V Nat)
  | [] => .ok { result := 0, cache := c }
  | (key, value) :: rest => do
    let first ← c.insert now key value
    let others ← first.cache.insertAll now rest
    pure ((others.map (· + first.result.inserted.toNat)).after first.notices)

/-- Removes the entry of `key`, live or not. -/
def erase (c : Cache K V) (key : K) : Except Fault (Outcome K V Bool) :=
  match c.index.get? key with
  | none => .ok { result := false, cache := c }
  | some id =>
    let c := ({ c with index := c.index.erase key } : Cache K V).forget id
    let order := match c.order.remove? id with
      | some (_, order) => order
      | none => c.order
    audited { result := true, cache := ({ c with order } : Cache K V).bump }

/-- Removes the entry that a handle points to. -/
def eraseAt (c : Cache K V) (h : Handle) : Outcome K V (Except CacheError (K × V)) :=
  match c.validate h with
  | .error e => { result := .error e, cache := c }
  | .ok slot =>
    match slot.bind fun id => (c.order.remove? id).map (id, ·) with
    | none => { result := .error .pastTheEnd, cache := c }
    | some (id, entry, order) =>
      let c := ({ c with order, index := c.index.erase entry.key } : Cache K V).forget id
      { result := .ok (entry.key, entry.value), cache := c.bump }

/-- Removes the least recent entry. -/
def popFront (c : Cache K V) : Outcome K V (Option (K × V)) :=
  let evicted := c.evictFront
  match evicted.result with
  | none => { result := none, cache := c }
  | some entry => { evicted with
      result := some (entry.key, entry.value)
      cache := evicted.cache.bump }

/-- Removes every entry. -/
def clear (c : Cache K V) : Cache K V :=
  ({ c with index := {}, order := {}, lastAccessed := none } : Cache K V).bump

/-- Repacks the entries into the first slots in recency order. -/
def compact (c : Cache K V) : Outcome K V Unit :=
  let (moves, order) := c.order.compact
  let index := moves.foldl (fun index (entry, id) => index.modify entry.key fun _ => id) c.index
  { result := ()
    cache := { c with order, index, lastAccessed := none }
    notices := [.trace (.compacted order.slotCount)] }

/-- Changes the capacity after evicting from the front what no longer fits. -/
def setCapacity (c : Cache K V) (capacity : Nat) : Except Fault (Outcome K V Unit) :=
  let evicted := evictWhile (fun c => capacity < c.len) c.order.slotCount c
  let resized := { evicted.cache with capacity }
  if evicted.result = 0 then
    audited { result := (), cache := resized, notices := evicted.notices }
  else
    let packed := resized.compact
    audited { packed with
      cache := packed.cache.bump
      notices := evicted.notices ++ .trace (.shrank evicted.result capacity) :: packed.notices }

/-- An empty cache. -/
def empty (id : UInt64) (capacity : Nat) (policy : Policy) : Cache K V :=
  { id, capacity, policy }

/-- A cache bounded by its capacity alone that the pairs were inserted into. -/
def ofPairs (id : UInt64) (capacity : Nat) (pairs : List (K × V)) :
    Except Fault (Outcome K V Nat) :=
  (empty id capacity .capacity).insertAll 0 pairs

/-- A cache with room for all the pairs. -/
def ofList (id : UInt64) (pairs : List (K × V)) : Except Fault (Outcome K V Nat) :=
  ofPairs id (max pairs.length defaultCapacity) pairs

end Cache

end Lru
