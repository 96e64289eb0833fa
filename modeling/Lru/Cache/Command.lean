import Lru.Cache.Access
import Lru.Cache.Audit
import Lru.Cache.Cursor
import Lru.Cache.Expiry
import Lru.Cache.Traversal

/-! # Requests to a cache

Every operation of a cache as a value, and runs of operations, each at its own
clock reading.
-/

namespace Lru

/-- A request to a cache. -/
inductive Cache.Command (K V : Type)
  | insert (key : K) (value : V)
  | insertAll (pairs : List (K × V))
  | getOrInsert (key : K) (make : K → V)
  | lookup (key : K)
  | lookupMut (key : K) (update : V → V)
  | contains (key : K)
  | touch (key : K)
  | erase (key : K)
  | eraseAt (h : Handle)
  | popFront
  | clear
  | setCapacity (capacity : Nat)
  | purgeExpired
  | front
  | back
  | isExpired (key : K)
  | remainingTtl (key : K)
  | allExpired
  | checkInvariants
  | cursor (start : Cursor.Start K) (moves : List Cursor.Move)
  | traverse (moves : List Traversal.Move)

/-- What a cache answers. -/
inductive Cache.Answer (K V : Type)
  | done
  | flag (b : Bool)
  | count (n : Nat)
  | inserted (result : Insertion)
  | value (v : V)
  | valueOr (result : Except CacheError V)
  | entryOr (result : Except CacheError (K × V))
  | popped (result : Option (K × V))
  | flagOr (result : Except CacheError Bool)
  | spanOr (result : Except CacheError (Option Duration))
  | audit (result : Except InvariantError Unit)
  | walked (result : Except CacheError (List (Cursor.Answer K V) × Cursor))
  | traversed (steps : List (Option (K × V)) × Traversal)

namespace Cache

variable {K V : Type} [BEq K]

/-- Takes the steps of a traversal one after the other. -/
def traverseAll (c : Cache K V) (t : Traversal) :
    List Traversal.Move → List (Option (K × V)) × Traversal
  | [] => ([], t)
  | move :: moves =>
    let (entry, t) := c.traverse t move
    let (entries, t) := c.traverseAll t moves
    (entry :: entries, t)

/-- An answer that leaves the cache as it is. -/
def keeping (c : Cache K V) (answer : Answer K V) : Outcome K V (Answer K V) :=
  { result := answer, cache := c }

/-- Opens a cursor and takes its steps. -/
def walk (c : Cache K V) (now : Instant) (start : Cursor.Start K) (moves : List Cursor.Move) :
    Outcome K V (Except CacheError (List (Cursor.Answer K V) × Cursor)) :=
  let opened := c.startCursor now start
  opened.map fun x => x.map fun x => opened.cache.walkCursor x moves

/-- Carries out one request at the clock reading `now`. -/
def perform (c : Cache K V) (now : Instant) :
    Command K V → Except Fault (Outcome K V (Answer K V))
  | .insert key value => (·.map .inserted) <$> c.insert now key value
  | .insertAll pairs => (·.map .count) <$> c.insertAll now pairs
  | .getOrInsert key make => (·.map .value) <$> c.getOrInsert now key make
  | .lookup key => .ok ((c.lookup now key).map .valueOr)
  | .lookupMut key update => .ok ((c.lookupMut now key update).map .valueOr)
  | .contains key => .ok ((c.contains now key).map .flag)
  | .touch key => .ok ((c.touch now key).map .flag)
  | .erase key => (·.map .flag) <$> c.erase key
  | .eraseAt h => .ok ((c.eraseAt h).map .entryOr)
  | .popFront => .ok (c.popFront.map .popped)
  | .clear => .ok { result := .done, cache := c.clear }
  | .setCapacity capacity => (·.map fun _ => .done) <$> c.setCapacity capacity
  | .purgeExpired => (·.map .count) <$> c.purgeExpired now
  | .front => .ok (c.keeping (.entryOr c.front))
  | .back => .ok (c.keeping (.entryOr c.back))
  | .isExpired key => .ok (c.keeping (.flagOr (c.isExpired now key)))
  | .remainingTtl key => .ok (c.keeping (.spanOr (c.remainingTtl now key)))
  | .allExpired => .ok (c.keeping (.flag (c.allExpired now)))
  | .checkInvariants => .ok (c.keeping (.audit c.checkInvariants))
  | .cursor start moves => .ok ((c.walk now start moves).map .walked)
  | .traverse moves => .ok (c.keeping (.traversed (c.traverseAll c.traversal moves)))

/-- Carries out requests one after the other, each at its reading, and collects the answers. -/
def run (c : Cache K V) :
    List (Instant × Command K V) → Except Fault (Outcome K V (List (Answer K V)))
  | [] => .ok { result := [], cache := c }
  | (now, command) :: rest => do
    let first ← c.perform now command
    let others ← first.cache.run rest
    pure ((others.map (first.result :: ·)).after first.notices)

end Cache

end Lru
