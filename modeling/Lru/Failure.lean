import Lru.Arena
import Lru.Text.Describe

/-! # Failures

Requests fail for causes of three kinds: against a cache in its current state,
against unusable settings, and against a broken state found by an audit.
-/

namespace Lru

/-- Why a cache could not answer. -/
inductive CacheError
  | keyNotFound
  | emptyCache (requested : String)
  | pastTheEnd
  | endNotOrdered
  | staleHandle
  | foreignHandle
  | notMonitoring
  | unmonitoredKey
  | noAccesses
  deriving DecidableEq, Repr

namespace CacheError

def message : CacheError → String
  | keyNotFound => "failed to find key"
  | emptyCache requested => "requested " ++ requested ++ " of empty cache"
  | pastTheEnd => "past-the-end iterator is invalid here"
  | endNotOrdered => "cannot convert past-the-end unordered iterator to ordered iterator"
  | staleHandle => "handle was invalidated by a later mutation"
  | foreignHandle => "handle belongs to a different cache"
  | notMonitoring => "statistics monitoring not enabled for this cache"
  | unmonitoredKey => "requested statistics for unmonitored key"
  | noAccesses => "rate is undefined without any recorded access"

end CacheError

/-- Why no cache can be built. -/
inductive ConfigError
  | missingTimeToLive
  | zeroTimeToLive
  | custom (text : String)
  deriving Repr

namespace ConfigError

def message : ConfigError → String
  | missingTimeToLive => "time-to-live cache requires a time-to-live"
  | zeroTimeToLive => "time-to-live must be greater than zero"
  | custom text => text

/-- Configuration errors are equal when they read the same. -/
instance : BEq ConfigError where
  beq a b := a.message == b.message

end ConfigError

/-- What an audit of a cache found. -/
inductive InvariantError
  | sizeMismatch (indexed queued : Nat)
  | overCapacity (len capacity : Nat)
  | misindexed (id : SlotId) (indexed : Option SlotId)
  | brokenBackLink (id : SlotId)
  | cycle
  | shortWalk (walked expected : Nat)
  | deadLastAccessed (id : SlotId)
  | custom (text : String)
  deriving Repr

namespace InvariantError

open Text

def message : InvariantError → String
  | sizeMismatch indexed queued =>
    s!"index holds {indexed} keys but recency queue holds {queued}"
  | overCapacity len capacity => s!"len {len} exceeds capacity {capacity}"
  | misindexed id indexed =>
    "queue node " ++ slot id ++ " is indexed as " ++ option (indexed.map slot)
  | brokenBackLink id => "queue node " ++ slot id ++ " has a broken back link"
  | cycle => "cycle detected in recency queue"
  | shortWalk walked expected => s!"walked {walked} queue nodes, expected {expected}"
  | deadLastAccessed id => "last accessed slot " ++ slot id ++ " is not live"
  | custom text => text

/-- Audit findings are equal when they read the same. -/
instance : BEq InvariantError where
  beq a b := a.message == b.message

end InvariantError

end Lru
