import Lru.Cache.Basic

/-! # Expired entries

An entry whose age has reached the time to live stays stored until it is
removed. Purging removes expired entries from the front and stops at the first
live one.
-/

namespace Lru.Cache

variable {K V : Type} [BEq K]

/-- Whether the entry of a stored key has expired. -/
def isExpired (c : Cache K V) (now : Instant) (key : K) : Except CacheError Bool :=
  match c.slotOf key with
  | some id => .ok (!c.isLiveAt now id)
  | none => .error .keyNotFound

/-- The time for which the entry of a stored key stays live; none without a time to live. -/
def remainingTtl (c : Cache K V) (now : Instant) (key : K) :
    Except CacheError (Option Duration) :=
  match (c.slotOf key).bind c.order.get? with
  | some entry => .ok (c.policy.remaining? now entry.stamp)
  | none => .error .keyNotFound

/-- Whether the front holds an entry that is not live. -/
def frontIsDead (now : Instant) (c : Cache K V) : Bool :=
  c.order.head.any fun id => !c.isLiveAt now id

/-- Removes expired entries from the front and counts them. -/
def purgeExpired (c : Cache K V) (now : Instant) : Except Fault (Outcome K V Nat) :=
  let purged := evictWhile (frontIsDead now) c.order.slotCount c
  if purged.result = 0 then audited purged
  else audited { purged with
    cache := purged.cache.bump
    notices := purged.notices ++ [.trace (.purged purged.result purged.cache.len)] }

/-- Whether the most recent entry, and with it every entry, has expired. -/
def allExpired (c : Cache K V) (now : Instant) : Bool :=
  c.order.tail.all fun id => !c.isLiveAt now id

end Lru.Cache
