import Lru.Cache.Command

/-! # A reference without slots

The reference keeps its entries in one list from the least to the most recent
and knows no slots, links, index or last access. Entries are addressed by their
place in the list; a place behind the last is that of an entry which is gone.
-/

namespace Lru

/-- The announcements of removing `k` of `n` entries one after the other. -/
def Notice.evictions {K V : Type} (capacity n k : Nat) : List (Notice K V) :=
  (List.range k).map fun i => .trace (.evicted (n - 1 - i) capacity)

/-- Entries from the least to the most recent one, and what governs them. -/
structure Reference (K V : Type) where
  entries : List (Entry K V)
  capacity : Nat
  policy : Policy
  mode : RecencyMode

namespace Reference

/-- A request that the reference understands. -/
inductive Request (K V : Type)
  | insert (key : K) (value : V)
  | insertAll (pairs : List (K × V))
  | getOrInsert (key : K) (make : K → V)
  | lookup (key : K)
  | lookupMut (key : K) (update : V → V)
  | contains (key : K)
  | find (key : K)
  | touch (key : K)
  | erase (key : K)
  | eraseAt (address : Except CacheError (Option Nat))
  | popFront
  | clear
  | setCapacity (capacity : Nat)
  | purgeExpired
  | front
  | back
  | isExpired (key : K)
  | remainingTtl (key : K)
  | allExpired

/-- What the reference answers; places stand where a cache names slots. -/
inductive Reply (K V : Type)
  | done
  | flag (b : Bool)
  | count (n : Nat)
  | inserted (new : Bool) (address : Except CacheError (Option Nat))
  | found (place : Option Nat)
  | value (v : V)
  | valueOr (result : Except CacheError V)
  | entryOr (result : Except CacheError (K × V))
  | popped (result : Option (K × V))
  | flagOr (result : Except CacheError Bool)
  | spanOr (result : Except CacheError (Option Duration))

/-- A reply, the reference it leaves, and its announcements in order. -/
structure Outcome (K V α : Type) where
  result : α
  reference : Reference K V
  notices : List (Notice K V) := []

def Outcome.map {K V α β : Type} (f : α → β) (o : Outcome K V α) : Outcome K V β :=
  { o with result := f o.result }

variable {K V : Type} [BEq K]

/-- The stored entry whose key equals `key`, live or not. -/
def entryOf (r : Reference K V) (key : K) : Option (Entry K V) :=
  r.entries.find? fun entry => key == entry.key

/-- The entry of `key` if it is live. -/
def liveEntry (r : Reference K V) (now : Instant) (key : K) : Option (Entry K V) :=
  (r.entryOf key).filter fun entry => r.policy.isLive now entry.stamp

/-- The entries without that of `key`, in order. -/
def others (r : Reference K V) (key : K) : List (Entry K V) :=
  r.entries.eraseP fun entry => key == entry.key

/-- Moves the entry of `key` to the end, with a new stamp and perhaps a new value. -/
def promote (r : Reference K V) (now : Instant) (key : K) (entry : Entry K V) : Reference K V :=
  { r with entries := r.others key ++ [{ entry with stamp := now }] }

/-- Moves the entry of `key` to the end if accesses do that. -/
def promoteOnAccess (r : Reference K V) (now : Instant) (key : K) (entry : Entry K V) :
    Reference K V :=
  match r.mode with
  | .onInsert => r
  | .onAccess => r.promote now key entry

/-- Writes to the entry of `key` where it stands. -/
def write (r : Reference K V) (key : K) (update : V → V) : Reference K V :=
  { r with entries := r.entries.map fun entry =>
      if key == entry.key then { entry with value := update entry.value } else entry }

/-- The announcement of an access that meets an entry which is not live. -/
def deadNotices (r : Reference K V) (now : Instant) (key : K) : List (Notice K V) :=
  match r.entryOf key with
  | some entry => if r.policy.isLive now entry.stamp then [] else [.trace .foundDead]
  | none => []

/-- Replaces the value of a stored key and moves it to the end, or appends a new entry, in place of
the head if there is no room. -/
def insert (r : Reference K V) (now : Instant) (key : K) (value : V) :
    Outcome K V (Bool × Option Nat) :=
  match r.entryOf key with
  | some entry =>
    { result := (false, some (r.entries.length - 1))
      reference := r.promote now key { entry with value } }
  | none =>
    if r.capacity = 0 then { result := (false, none), reference := r }
    else if r.entries.length < r.capacity then
      { result := (true, some r.entries.length)
        reference := { r with entries := r.entries ++ [⟨key, value, now⟩] } }
    else
      { result := (true, some (r.entries.length - 1))
        reference := { r with entries := r.entries.tail ++ [⟨key, value, now⟩] }
        notices := [.trace (.evicted (r.entries.length - 1) r.capacity)] }

/-- Inserts the pairs in order and counts the keys that were new. -/
def insertAll (r : Reference K V) (now : Instant) : List (K × V) → Outcome K V Nat
  | [] => { result := 0, reference := r }
  | (key, value) :: rest =>
    let first := r.insert now key value
    let others := first.reference.insertAll now rest
    { result := others.result + first.result.1.toNat
      reference := others.reference
      notices := first.notices ++ others.notices }

def lookup (r : Reference K V) (now : Instant) (key : K) : Outcome K V (Except CacheError V) :=
  match r.liveEntry now key with
  | some entry =>
    { result := .ok entry.value, reference := r, notices := [.hit key entry.value] }
  | none =>
    { result := .error .keyNotFound, reference := r
      notices := r.deadNotices now key ++ [.miss key] }

def lookupMut (r : Reference K V) (now : Instant) (key : K) (update : V → V) :
    Outcome K V (Except CacheError V) :=
  match r.liveEntry now key with
  | some entry =>
    { result := .ok entry.value
      reference := (r.promoteOnAccess now key entry).write key update
      notices := [.hit key entry.value] }
  | none =>
    { result := .error .keyNotFound, reference := r
      notices := r.deadNotices now key ++ [.miss key] }

def getOrInsert (r : Reference K V) (now : Instant) (key : K) (make : K → V) :
    Outcome K V V :=
  match r.liveEntry now key with
  | some entry =>
    { result := entry.value, reference := r.promoteOnAccess now key entry
      notices := [.hit key entry.value] }
  | none =>
    let stored := r.insert now key (make key)
    { result := make key, reference := stored.reference
      notices := r.deadNotices now key ++ [.miss key, .made key] ++ stored.notices }

def contains (r : Reference K V) (now : Instant) (key : K) : Outcome K V Bool :=
  { result := (r.liveEntry now key).isSome, reference := r, notices := r.deadNotices now key }

/-- The place of the entry of `key` if it is live. -/
def find (r : Reference K V) (now : Instant) (key : K) : Outcome K V (Option Nat) :=
  { result := (r.liveEntry now key).bind fun _ => r.entries.findIdx? fun e => key == e.key
    reference := r
    notices := r.deadNotices now key }

def touch (r : Reference K V) (now : Instant) (key : K) : Outcome K V Bool :=
  match r.liveEntry now key with
  | some entry => { result := true, reference := r.promote now key entry }
  | none => { result := false, reference := r, notices := r.deadNotices now key }

def erase (r : Reference K V) (key : K) : Outcome K V Bool :=
  { result := (r.entryOf key).isSome, reference := { r with entries := r.others key } }

/-- Removes the entry at a place. -/
def eraseAt (r : Reference K V) (address : Except CacheError (Option Nat)) :
    Outcome K V (Except CacheError (K × V)) :=
  match address with
  | .error e => { result := .error e, reference := r }
  | .ok place =>
    match place.bind (r.entries[·]?) with
    | none => { result := .error .pastTheEnd, reference := r }
    | some entry =>
      { result := .ok (entry.key, entry.value)
        reference := { r with entries := r.entries.eraseIdx (place.getD 0) } }

def popFront (r : Reference K V) : Outcome K V (Option (K × V)) :=
  { result := r.entries.head?.map fun entry => (entry.key, entry.value)
    reference := { r with entries := r.entries.tail }
    notices := Notice.evictions r.capacity r.entries.length (min r.entries.length 1) }

/-- Drops heads until the entries fit. -/
def setCapacity (r : Reference K V) (capacity : Nat) : Outcome K V Unit :=
  let excess := r.entries.length - capacity
  { result := ()
    reference := { r with entries := r.entries.drop excess, capacity }
    notices := Notice.evictions r.capacity r.entries.length excess ++
      if excess = 0 then []
      else [.trace (.shrank excess capacity), .trace (.compacted capacity)] }

/-- Drops heads while they are expired. -/
def purgeExpired (r : Reference K V) (now : Instant) : Outcome K V Nat :=
  let dead (entry : Entry K V) := !r.policy.isLive now entry.stamp
  let kept := r.entries.dropWhile dead
  let purged := r.entries.length - kept.length
  { result := purged
    reference := { r with entries := kept }
    notices := Notice.evictions r.capacity r.entries.length purged ++
      if purged = 0 then [] else [.trace (.purged purged kept.length)] }

def isExpired (r : Reference K V) (now : Instant) (key : K) : Except CacheError Bool :=
  match r.entryOf key with
  | some entry => .ok (!r.policy.isLive now entry.stamp)
  | none => .error .keyNotFound

def remainingTtl (r : Reference K V) (now : Instant) (key : K) :
    Except CacheError (Option Duration) :=
  match r.entryOf key with
  | some entry => .ok (r.policy.remaining? now entry.stamp)
  | none => .error .keyNotFound

/-- Whether the last entry has expired, or there is none. -/
def allExpired (r : Reference K V) (now : Instant) : Bool :=
  r.entries.getLast?.all fun entry => !r.policy.isLive now entry.stamp

/-- The key and the value of an entry at an end. -/
def entryOr (requested : String) : Option (Entry K V) → Except CacheError (K × V)
  | some entry => .ok (entry.key, entry.value)
  | none => .error (.emptyCache requested)

/-- Carries out one request at the clock reading `now`. -/
def perform (r : Reference K V) (now : Instant) : Request K V → Outcome K V (Reply K V)
  | .insert key value => (r.insert now key value).map fun x => .inserted x.1 (.ok x.2)
  | .insertAll pairs => (r.insertAll now pairs).map .count
  | .getOrInsert key make => (r.getOrInsert now key make).map .value
  | .lookup key => (r.lookup now key).map .valueOr
  | .lookupMut key update => (r.lookupMut now key update).map .valueOr
  | .contains key => (r.contains now key).map .flag
  | .find key => (r.find now key).map .found
  | .touch key => (r.touch now key).map .flag
  | .erase key => (r.erase key).map .flag
  | .eraseAt address => (r.eraseAt address).map .entryOr
  | .popFront => r.popFront.map .popped
  | .clear => { result := .done, reference := { r with entries := [] } }
  | .setCapacity capacity => (r.setCapacity capacity).map fun _ => .done
  | .purgeExpired => (r.purgeExpired now).map .count
  | .front => { result := .entryOr (entryOr "front" r.entries.head?), reference := r }
  | .back => { result := .entryOr (entryOr "back" r.entries.getLast?), reference := r }
  | .isExpired key => { result := .flagOr (r.isExpired now key), reference := r }
  | .remainingTtl key => { result := .spanOr (r.remainingTtl now key), reference := r }
  | .allExpired => { result := .flag (r.allExpired now), reference := r }

end Reference

end Lru
