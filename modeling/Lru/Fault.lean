/-! # Faults

A fault is a broken precondition of the machine: it ends the run in which it
arises, and no state is left behind. Ordinary failures of a request are
answers, not faults.
-/

namespace Lru

/-- A reason for which a run cannot go on. -/
inductive Fault
  /-- A counter would leave the range of 64-bit words. -/
  | counterOverflow
  /-- A clock would pass the last instant, or is read while it stands past it. -/
  | instantOverflow
  /-- The index and the recency list disagree on the number of entries. -/
  | misaligned (indexed queued : Nat)
  deriving DecidableEq, Repr

namespace Fault

/-- The text shown when a run ends. -/
def message : Fault → String
  | counterOverflow => "attempt to add with overflow"
  | instantOverflow => "overflow when adding duration to instant"
  | misaligned indexed queued =>
    s!"assertion `left == right` failed\n  left: {indexed}\n right: {queued}"

end Fault

/-- Numbers from here on do not fit in a 64-bit word. -/
def wordLimit : Nat := UInt64.size

end Lru
