import Lru.Failure
import Lru.Fault
import Lru.KeyMap

/-! # Statistics

Counters of accesses and hits, in total and for each monitored key. A recorded
access always counts in the totals, and for its key only while that key is
monitored.
-/

namespace Lru

/-- Hits and misses of one key. -/
structure KeyStatistics where
  hits : Nat := 0
  misses : Nat := 0
  deriving DecidableEq, Repr

/-- The sum of hits and misses, as long as it fits in a word. -/
def KeyStatistics.accesses (s : KeyStatistics) : Except Fault Nat :=
  if s.hits + s.misses < wordLimit then .ok (s.hits + s.misses) else .error .counterOverflow

/-- A share of the recorded accesses. -/
structure Rate where
  count : Nat
  total : Nat
  deriving DecidableEq, Repr

/-- The quotient, with both counters rounded first. -/
def Rate.toFloat (r : Rate) : Float :=
  r.count.toUInt64.toFloat / r.total.toUInt64.toFloat

/-- Totals and the counters of the monitored keys. -/
structure Statistics (K : Type) where
  accesses : Nat := 0
  hits : Nat := 0
  monitored : KeyMap K KeyStatistics := {}
  deriving Repr

namespace Statistics

variable {K : Type} [BEq K]

/-- Starts counting for `key`; a monitored key keeps its counters. -/
def monitor (s : Statistics K) (key : K) : Statistics K :=
  { s with monitored := s.monitored.insertIfNew key {} }

def ofKeys (keys : List K) : Statistics K :=
  keys.foldl monitor {}

def isMonitoring (s : Statistics K) (key : K) : Bool :=
  s.monitored.contains key

/-- Stops counting for `key`, forgets its counters, and tells whether there were any. -/
def unmonitor (s : Statistics K) (key : K) : Bool × Statistics K :=
  (s.isMonitoring key, { s with monitored := s.monitored.erase key })

def unmonitorAll (s : Statistics K) : Statistics K :=
  { s with monitored := {} }

/-- Sets every counter to zero; the monitored keys stay. -/
def reset (s : Statistics K) : Statistics K :=
  { monitored := s.monitored.mapValues fun _ => {} }

def recordHit (s : Statistics K) (key : K) : Statistics K where
  accesses := s.accesses + 1
  hits := s.hits + 1
  monitored := s.monitored.modify key fun k => { k with hits := k.hits + 1 }

def recordMiss (s : Statistics K) (key : K) : Statistics K where
  accesses := s.accesses + 1
  hits := s.hits
  monitored := s.monitored.modify key fun k => { k with misses := k.misses + 1 }

def misses (s : Statistics K) : Nat :=
  s.accesses - s.hits

def statsFor (s : Statistics K) (key : K) : Except CacheError KeyStatistics :=
  match s.monitored.get? key with
  | some stats => .ok stats
  | none => .error .unmonitoredKey

def hitsFor (s : Statistics K) (key : K) : Except CacheError Nat :=
  (s.statsFor key).map KeyStatistics.hits

def missesFor (s : Statistics K) (key : K) : Except CacheError Nat :=
  (s.statsFor key).map KeyStatistics.misses

/-- A share of the accesses, which has no meaning before the first one. -/
def rate (s : Statistics K) (count : Nat) : Except CacheError Rate :=
  if s.accesses = 0 then .error .noAccesses else .ok { count, total := s.accesses }

def hitRate (s : Statistics K) : Except CacheError Rate :=
  s.rate s.hits

def missRate (s : Statistics K) : Except CacheError Rate :=
  s.rate s.misses

end Statistics

/-- A change to what is counted. -/
inductive Statistics.Adjustment (K : Type)
  | monitor (key : K)
  | unmonitor (key : K)
  | unmonitorAll
  | reset
  deriving DecidableEq, Repr

/-- A change to what is counted, or an access to count. -/
inductive Statistics.Command (K : Type)
  | adjust (adjustment : Adjustment K)
  | recordHit (key : K)
  | recordMiss (key : K)
  deriving DecidableEq, Repr

namespace Statistics

variable {K : Type} [BEq K]

/-- Makes a change, and tells for the end of a key's monitoring whether the key was monitored. -/
def adjust (s : Statistics K) : Adjustment K → Option Bool × Statistics K
  | .monitor key => (none, s.monitor key)
  | .unmonitor key =>
    let (monitored, s) := s.unmonitor key
    (some monitored, s)
  | .unmonitorAll => (none, s.unmonitorAll)
  | .reset => (none, s.reset)

/-- Carries out one request. -/
def perform (s : Statistics K) : Command K → Statistics K
  | .adjust adjustment => (s.adjust adjustment).2
  | .recordHit key => s.recordHit key
  | .recordMiss key => s.recordMiss key

/-- Carries out requests one after the other. -/
def run (s : Statistics K) (commands : List (Command K)) : Statistics K :=
  commands.foldl perform s

end Statistics

end Lru
