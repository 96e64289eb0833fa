import Lru.Fault

/-! # Time

Durations and instants count nanoseconds. A clock starts at zero and shows a
signed 64-bit number of seconds.
-/

namespace Lru

/-- A length of time in nanoseconds. -/
abbrev Duration := Nat

/-- A clock reading: the nanoseconds since the clock was started. -/
abbrev Instant := Nat

namespace Duration

def nanosPerSecond : Nat := 1000000000

/-- Whole seconds and the nanoseconds beyond them. -/
def ofParts (seconds nanos : Nat) : Duration :=
  seconds * nanosPerSecond + nanos

def seconds (d : Duration) : Nat :=
  d / nanosPerSecond

def subsecNanos (d : Duration) : Nat :=
  d % nanosPerSecond

end Duration

namespace Instant

/-- The first instant that no clock can show. -/
def limit : Instant := Duration.ofParts (UInt64.size / 2) 0

/-- An instant that a clock can show. -/
def checked (t : Instant) : Except Fault Instant :=
  if t < limit then .ok t else .error .instantOverflow

/-- The time since `earlier`, which is zero for an instant that lies ahead. -/
def since (now earlier : Instant) : Duration :=
  now - earlier

end Instant

end Lru
