import Lru.Time

/-! # Liveness of entries

A cache is bounded by its capacity alone, or also by the age of its entries:
an entry is live while its age is below the time to live.
-/

namespace Lru

/-- What ends the life of an entry besides its removal. -/
inductive Policy
  | capacity
  | timeToLive (ttl : Duration)
  deriving DecidableEq, Repr

namespace Policy

/-- Whether an entry stamped at `stamp` is live at the reading `now`. -/
def isLive : Policy → (now stamp : Instant) → Bool
  | capacity, _, _ => true
  | timeToLive ttl, now, stamp => Instant.since now stamp < ttl

/-- The time to live, where there is one. -/
def ttl? : Policy → Option Duration
  | capacity => none
  | timeToLive ttl => some ttl

/-- What is left of the time to live of an entry stamped at `stamp`. -/
def remaining? : Policy → (now stamp : Instant) → Option Duration
  | capacity, _, _ => none
  | timeToLive ttl, now, stamp => some (ttl - Instant.since now stamp)

end Policy

/-- When an entry becomes the most recent one besides its insertion. -/
inductive RecencyMode
  /-- Only inserting or touching an entry makes it the most recent one. -/
  | onInsert
  /-- Accesses that may change an entry make it the most recent one too. -/
  | onAccess
  deriving DecidableEq, Repr

end Lru
