import Lru.Cache.Update
import Lru.Statistics

/-! # Settings

What can be chosen before a cache is built. Only a timed cache needs a time to
live, and then a positive one.
-/

namespace Lru

structure Settings where
  capacity : Nat := Cache.defaultCapacity
  ttl : Option Duration := none
  mode : RecencyMode := .onInsert
  statistics : Bool := false
  deriving DecidableEq, Repr

namespace Settings

/-- The policy of a cache with these settings, bounded by capacity alone or timed. -/
def policy (s : Settings) (timed : Bool) : Except ConfigError Policy :=
  if timed then
    match s.ttl with
    | none => .error .missingTimeToLive
    | some ttl => if ttl = 0 then .error .zeroTimeToLive else .ok (.timeToLive ttl)
  else .ok .capacity

/-- The event that announces that a cache is being built. -/
def announcement (s : Settings) : TraceEvent :=
  .building s.capacity s.ttl s.mode s.statistics

end Settings

end Lru
