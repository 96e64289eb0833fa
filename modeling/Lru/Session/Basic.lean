import Lru.Cache.Command
import Lru.Callbacks
import Lru.Settings

/-! # Sessions

A session holds caches side by side with the clocks they read and the
statistics objects they share. An access is recorded in the statistics of its
cache first; then the observers of the cache are called one by one, and each
may act on a statistics object of the session in turn.
-/

namespace Lru

/-- The number of a clock of a session. -/
abbrev ClockId := Nat

/-- The number of a statistics object of a session. -/
abbrev StatisticsId := Nat

/-- The number of a cache of a session. -/
abbrev CacheId := Nat

/-- What an observer does with a statistics object before it reads the totals. -/
inductive Reaction
  | watch
  | monitor
  | unmonitor
  | unmonitorAll
  | reset
  deriving DecidableEq, Repr

/-- The change that a reaction to an access of `key` makes, if any. -/
def Reaction.adjustment? {K : Type} (key : K) : Reaction → Option (Statistics.Adjustment K)
  | watch => none
  | monitor => some (.monitor key)
  | unmonitor => some (.unmonitor key)
  | unmonitorAll => some .unmonitorAll
  | reset => some .reset

/-- An observer signs its log entries with a tag and may watch a statistics object. -/
structure Observer (T : Type) where
  tag : T
  subject : Option (StatisticsId × Reaction)
  deriving DecidableEq, Repr

/-- What an observer writes: its call, whether it ended the monitoring of the key, and the totals
of accesses and hits that it read. -/
structure LogEntry (T K V : Type) where
  call : Call (Observer T) K V
  unmonitored : Option Bool := none
  totals : Option (Nat × Nat) := none

/-- A cache with what is attached to it. -/
structure Member (T K V : Type) where
  cache : Cache K V
  clock : Option ClockId := none
  statistics : Option StatisticsId := none
  callbacks : Callbacks (Observer T) := {}

/-- The clocks, statistics objects and caches created so far. -/
structure Session (T K V : Type) where
  clocks : Array Instant := #[]
  statistics : Array (Statistics K) := #[]
  members : Array (Member T K V) := #[]

/-- What a step of a session answers, the session it leaves, what the observers wrote, and what
was announced. -/
structure Report (T K V α : Type) where
  result : α
  session : Session T K V
  log : List (LogEntry T K V) := []
  notices : List (Notice K V) := []

namespace Report

variable {T K V α : Type}

/-- The traced events in order. -/
def trace (r : Report T K V α) : List TraceEvent :=
  r.notices.filterMap fun
    | .trace event => some event
    | _ => none

/-- The keys for which a value was made. -/
def madeKeys (r : Report T K V α) : List K :=
  r.notices.filterMap fun
    | .made key => some key
    | _ => none

end Report

namespace Session

variable {T K V : Type} [BEq K]

/-- What the clock of a cache shows; without a clock of the session, time stands still. -/
def reading (s : Session T K V) (m : Member T K V) : Instant :=
  (m.clock.bind (s.clocks[·]?)).getD 0

/-- The statistics object attached to a cache. -/
def statisticsOf (s : Session T K V) (m : Member T K V) : Except CacheError (Statistics K) :=
  match m.statistics.bind (s.statistics[·]?) with
  | some statistics => .ok statistics
  | none => .error .notMonitoring

/-- Changes what a statistics object counts. -/
def adjust (s : Session T K V) (id : StatisticsId) (adjustment : Statistics.Adjustment K) :
    Option Bool × Session T K V :=
  match s.statistics[id]? with
  | none => (none, s)
  | some statistics =>
    let (answer, statistics) := statistics.adjust adjustment
    (answer, { s with statistics := s.statistics.setIfInBounds id statistics })

def setMember (s : Session T K V) (id : CacheId) (m : Member T K V) : Session T K V :=
  { s with members := s.members.setIfInBounds id m }

/-- Carries out what an observer does when it is called for `key`. -/
def react (s : Session T K V) (id : StatisticsId) (key : K) (reaction : Reaction) :
    Option Bool × Session T K V :=
  match Reaction.adjustment? key reaction with
  | none => (none, s)
  | some adjustment => s.adjust id adjustment

/-- Calls one observer. -/
def call (s : Session T K V) (call : Call (Observer T) K V) : LogEntry T K V × Session T K V :=
  match call.observer.subject with
  | none => ({ call }, s)
  | some (id, reaction) =>
    let (unmonitored, s) := s.react id call.key reaction
    let totals := s.statistics[id]?.map fun statistics => (statistics.accesses, statistics.hits)
    ({ call, unmonitored, totals }, s)

/-- Calls observers one after the other. -/
def callAll (s : Session T K V) :
    List (Call (Observer T) K V) → List (LogEntry T K V) × Session T K V
  | [] => ([], s)
  | first :: others =>
    let (entry, s) := s.call first
    let (entries, s) := s.callAll others
    (entry :: entries, s)

/-- Records an access in the statistics attached to `m`. -/
def record (s : Session T K V) (m : Member T K V) (f : Statistics K → Statistics K) :
    Session T K V :=
  match m.statistics with
  | some id => { s with statistics := s.statistics.modify id f }
  | none => s

/-- Passes on one announcement of the cache `m`. -/
def notify (s : Session T K V) (m : Member T K V) :
    Notice K V → List (LogEntry T K V) × Session T K V
  | .hit key value => (s.record m (·.recordHit key)).callAll (m.callbacks.onHit key value)
  | .miss key => (s.record m (·.recordMiss key)).callAll (m.callbacks.onMiss key)
  | .made _ => ([], s)
  | .trace _ => ([], s)

/-- Passes on announcements in order. -/
def notifyAll (s : Session T K V) (m : Member T K V) :
    List (Notice K V) → List (LogEntry T K V) × Session T K V
  | [] => ([], s)
  | first :: others =>
    let (entries, s) := s.notify m first
    let (more, s) := s.notifyAll m others
    (entries ++ more, s)

end Session

end Lru
