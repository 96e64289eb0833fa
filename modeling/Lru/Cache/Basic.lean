import Lru.Failure
import Lru.Fault
import Lru.KeyMap
import Lru.Policy
import Lru.RecencyList

/-! # Caches

A cache keeps its entries in a recency list, finds them through an index from
keys to slots, and remembers the slot of the last access. Here are its parts,
what it announces while it works, and the steps all its operations are built
from: resolving a key, promoting an entry, evicting the front.
-/

namespace Lru

/-- A stored key and value with the reading of its last promotion. -/
structure Entry (K V : Type) where
  key : K
  value : V
  stamp : Instant
  deriving DecidableEq, Repr

/-- A position in one cache between two structural changes; without a slot it is past the end. -/
structure Handle where
  owner : UInt64
  slot : Option SlotId
  generation : UInt64
  deriving DecidableEq, Repr

def Handle.isEnd (h : Handle) : Bool :=
  h.slot.isNone

/-- What happens inside a cache and is told to whoever traces it. -/
inductive TraceEvent
  /-- The front went; `len` entries stay, and `capacity` was in force. -/
  | evicted (len capacity : Nat)
  /-- A key was found whose entry is no longer live. -/
  | foundDead
  | shrank (evicted capacity : Nat)
  | compacted (slots : Nat)
  | purged (purged remaining : Nat)
  | attachedStatistics
  | detachedStatistics
  | building (capacity : Nat) (ttl : Option Duration) (mode : RecencyMode) (statistics : Bool)
  deriving DecidableEq, Repr

/-- What an operation announces on its way. -/
inductive Notice (K V : Type)
  /-- An access found a live entry that holds `value`. -/
  | hit (key : K) (value : V)
  /-- An access found no live entry. -/
  | miss (key : K)
  /-- A value was made for `key`. -/
  | made (key : K)
  | trace (event : TraceEvent)
  deriving DecidableEq, Repr

/-- The complete state of a cache. -/
structure Cache (K V : Type) where
  index : KeyMap K SlotId := {}
  order : RecencyList (Entry K V) := {}
  lastAccessed : Option SlotId := none
  capacity : Nat
  policy : Policy := .capacity
  mode : RecencyMode := .onInsert
  id : UInt64
  generation : UInt64 := 0
  deriving Repr

/-- What an operation answers, the cache it leaves, and its announcements in order. -/
structure Outcome (K V α : Type) where
  result : α
  cache : Cache K V
  notices : List (Notice K V) := []

namespace Outcome

variable {K V α β : Type}

def map (f : α → β) (o : Outcome K V α) : Outcome K V β :=
  { o with result := f o.result }

/-- Puts earlier announcements in front. -/
def after (notices : List (Notice K V)) (o : Outcome K V α) : Outcome K V α :=
  { o with notices := notices ++ o.notices }

end Outcome

namespace Cache

variable {K V α : Type} [BEq K]

/-- The capacity of a cache for which none is asked. -/
def defaultCapacity : Nat := 128

/-- The number of indexed keys. -/
def len (c : Cache K V) : Nat :=
  c.index.size

def isEmpty (c : Cache K V) : Bool :=
  c.len == 0

def isFull (c : Cache K V) : Bool :=
  c.capacity ≤ c.len

def spaceLeft (c : Cache K V) : Nat :=
  c.capacity - c.len

/-- The stored entries from the least to the most recent one. -/
def entries (c : Cache K V) : List (Entry K V) :=
  c.order.toList

/-- The stored entries by slot number. -/
def storedEntries (c : Cache K V) : List (Entry K V) :=
  c.order.nodes.entries.map fun (_, node) => node.value

/-- A handle on a position in the current state. -/
def handle (c : Cache K V) (slot : Option SlotId) : Handle :=
  { owner := c.id, slot, generation := c.generation }

/-- The slot of a handle that this cache gave out since its last structural change. -/
def validate (c : Cache K V) (h : Handle) : Except CacheError (Option SlotId) :=
  if h.owner ≠ c.id then .error .foreignHandle
  else if h.generation ≠ c.generation then .error .staleHandle
  else .ok h.slot

/-- Outdates every handle given out so far. -/
def bump (c : Cache K V) : Cache K V :=
  { c with generation := c.generation + 1 }

/-- Forgets the last access if it went to `id`. -/
def forget (c : Cache K V) (id : SlotId) : Cache K V :=
  if c.lastAccessed = some id then { c with lastAccessed := none } else c

/-- Whether the slot `id` holds an entry for `key`. -/
def holdsAt (c : Cache K V) (key : K) (id : SlotId) : Bool :=
  (c.order.get? id).any fun entry => entry.key == key

/-- The slot of `key`: the last accessed slot if it holds that key, else what the index tells. -/
def slotOf (c : Cache K V) (key : K) : Option SlotId :=
  match c.lastAccessed.filter (c.holdsAt key) with
  | some id => some id
  | none => c.index.get? key

/-- Whether the slot `id` holds a live entry. -/
def isLiveAt (c : Cache K V) (now : Instant) (id : SlotId) : Bool :=
  (c.order.get? id).any fun entry => c.policy.isLive now entry.stamp

/-- Looks for the live entry of `key` and remembers its slot. -/
def resolve (c : Cache K V) (now : Instant) (key : K) : Outcome K V (Option SlotId) :=
  match c.slotOf key with
  | none => { result := none, cache := c }
  | some id =>
    match c.order.get? id with
    | none => { result := none, cache := c }
    | some entry =>
      if c.policy.isLive now entry.stamp then
        { result := some id, cache := { c with lastAccessed := some id } }
      else
        { result := none, cache := c.forget id, notices := [.trace .foundDead] }

/-- Stamps the entry at `id` and makes it the most recent one. -/
def promote (c : Cache K V) (now : Instant) (id : SlotId) : Cache K V :=
  let stamped := c.order.modify id fun entry => { entry with stamp := now }
  ({ c with order := stamped.moveToBack id } : Cache K V).bump

/-- Removes the least recent entry. -/
def evictFront (c : Cache K V) : Outcome K V (Option (Entry K V)) :=
  match c.order.popFront? with
  | none => { result := none, cache := c }
  | some (id, entry, order) =>
    { result := some entry
      cache := ({ c with order, index := c.index.erase entry.key } : Cache K V).forget id
      notices := [.trace (.evicted order.len c.capacity)] }

/-- Evicts as long as `due` asks for it, at most `fuel` times, and counts the evictions. -/
def evictWhile (due : Cache K V → Bool) : Nat → Cache K V → Outcome K V Nat
  | 0, c => { result := 0, cache := c }
  | fuel + 1, c =>
    if due c then
      let evicted := c.evictFront
      match evicted.result with
      | none => { result := 0, cache := c }
      | some _ => ((evictWhile due fuel evicted.cache).map (· + 1)).after evicted.notices
    else { result := 0, cache := c }

/-- Checks that index and recency list hold equally many entries. -/
def audited (o : Outcome K V α) : Except Fault (Outcome K V α) :=
  let indexed := o.cache.index.size
  let queued := o.cache.order.len
  if indexed = queued then .ok o else .error (.misaligned indexed queued)

end Cache

end Lru
