import Lru.Cache.Reading
import Lru.Session.Basic

/-! # Requests to a session

Clocks are started and moved, statistics objects and caches are created,
statistics and observers are attached to caches, and requests are sent to
caches and statistics objects. A request that names nothing in the session
changes nothing.
-/

namespace Lru

/-- How a cache comes about. -/
inductive Origin (K V : Type)
  | empty (capacity : Nat) (policy : Policy)
  | pairs (capacity : Nat) (pairs : List (K × V))
  | collected (pairs : List (K × V))
  | built (settings : Settings) (timed : Bool)
  deriving DecidableEq, Repr

/-- A new cache with its origin and what it gets then, in this order. -/
structure Plan (K V : Type) where
  origin : Origin K V
  clock : Option ClockId := none
  mode : Option RecencyMode := none
  statistics : Option StatisticsId := none
  deriving DecidableEq, Repr

/-- A cache as its origin leaves it, and whether it gets statistics of its own. -/
structure Fresh (K V : Type) where
  cache : Cache K V
  ownStatistics : Bool := false
  notices : List (Notice K V) := []

/-- The cache with the given identity that comes from an origin. -/
def Origin.make {K V : Type} [BEq K] (id : UInt64) :
    Origin K V → Except Fault (Except ConfigError (Fresh K V))
  | .empty capacity policy => .ok (.ok { cache := .empty id capacity policy })
  | .pairs capacity content => do
    let filled ← Cache.ofPairs id capacity content
    pure (.ok { cache := filled.cache, notices := filled.notices })
  | .collected content => do
    let filled ← Cache.ofList id content
    pure (.ok { cache := filled.cache, notices := filled.notices })
  | .built settings timed => .ok ((settings.policy timed).map fun policy =>
      { cache := { Cache.empty id settings.capacity policy with mode := settings.mode }
        ownStatistics := settings.statistics
        notices := [.trace settings.announcement] })

/-- A request to a session. -/
inductive Session.Command (T K V : Type)
  | startClock
  | advanceClock (id : ClockId) (span : Duration)
  | setClock (id : ClockId) (reading : Instant)
  | createStatistics (keys : List K)
  | createCache (plan : Plan K V)
  | adjust (id : StatisticsId) (adjustment : Statistics.Adjustment K)
  | attach (id : CacheId) (statistics : StatisticsId)
  | detach (id : CacheId)
  | register (id : CacheId) (event : AccessEvent) (observer : Observer T)
  | clearCallbacks (id : CacheId)
  | cache (id : CacheId) (command : Cache.Command K V)

/-- What a session answers. -/
inductive Session.Answer (K V : Type)
  | done
  | clock (id : ClockId)
  | statistics (id : StatisticsId)
  | created (result : Except ConfigError CacheId)
  | adjusted (wasMonitored : Option Bool)
  | detached (id : Option StatisticsId)
  | registered (count : Nat)
  | cache (answer : Cache.Answer K V)

namespace Session

variable {T K V : Type} [BEq K]

/-- An answer that leaves the session as it is. -/
def keeping (s : Session T K V) (answer : Answer K V) : Report T K V (Answer K V) :=
  { result := answer, session := s }

/-- Sets a clock, also past the last instant: that clock cannot be read until it is set back. -/
def setClock (s : Session T K V) (id : ClockId) (reading : Instant) : Session T K V :=
  { s with clocks := s.clocks.setIfInBounds id reading }

/-- Moves a clock forward, which it has to be able to show. -/
def advanceClock (s : Session T K V) (id : ClockId) (span : Duration) :
    Except Fault (Session T K V) :=
  (Instant.checked (s.clocks[id]?.getD 0 + span)).map (s.setClock id)

/-- The reading at which a cache carries out a request. A clock past the last instant fails only
a request that reads it. -/
def readingFor (s : Session T K V) (m : Member T K V) (command : Cache.Command K V) :
    Except Fault Instant :=
  if m.cache.readsClock command then Instant.checked (s.reading m) else .ok (s.reading m)

def createStatistics (s : Session T K V) (keys : List K) : StatisticsId × Session T K V :=
  (s.statistics.size, { s with statistics := s.statistics.push (.ofKeys keys) })

/-- Creates a cache; a plan with unusable settings creates none. -/
def createCache (s : Session T K V) (plan : Plan K V) :
    Except Fault (Report T K V (Answer K V)) := do
  match ← plan.origin.make (UInt64.ofNat s.members.size) with
  | .error e => pure (s.keeping (.created (.error e)))
  | .ok fresh =>
    let (own, s) :=
      if fresh.ownStatistics then
        let (id, s) := s.createStatistics []
        ([id], s)
      else ([], s)
    let attached := own ++ plan.statistics.toList
    let m : Member T K V :=
      { cache := { fresh.cache with mode := plan.mode.getD fresh.cache.mode }
        clock := plan.clock
        statistics := attached.getLast? }
    pure
      { result := .created (.ok s.members.size)
        session := { s with members := s.members.push m }
        notices := fresh.notices ++ attached.map fun _ => .trace .attachedStatistics }

/-- Changes a cache of the session together with what is attached to it. -/
def onMember (s : Session T K V) (id : CacheId)
    (f : Member T K V → Report T K V (Answer K V)) : Report T K V (Answer K V) :=
  match s.members[id]? with
  | some m => f m
  | none => s.keeping .done

/-- Sends a request to a cache and passes its announcements on. -/
def onCache (s : Session T K V) (id : CacheId) (command : Cache.Command K V) :
    Except Fault (Report T K V (Answer K V)) :=
  match s.members[id]? with
  | none => .ok (s.keeping .done)
  | some m => do
    let outcome ← m.cache.perform (← s.readingFor m command) command
    let (log, s) := s.notifyAll m outcome.notices
    pure
      { result := .cache outcome.result
        session := s.setMember id { m with cache := outcome.cache }
        log
        notices := outcome.notices }

/-- Carries out one request. -/
def perform (s : Session T K V) : Command T K V → Except Fault (Report T K V (Answer K V))
  | .startClock =>
    .ok (keeping { s with clocks := s.clocks.push 0 } (.clock s.clocks.size))
  | .advanceClock id span => (s.advanceClock id span).map fun s => s.keeping .done
  | .setClock id reading => .ok ((s.setClock id reading).keeping .done)
  | .createStatistics keys =>
    let (id, s) := s.createStatistics keys
    .ok (s.keeping (.statistics id))
  | .createCache plan => s.createCache plan
  | .adjust id adjustment =>
    let (monitored, s) := s.adjust id adjustment
    .ok (s.keeping (.adjusted monitored))
  | .attach id statistics => .ok (s.onMember id fun m =>
      { (s.setMember id { m with statistics := some statistics }).keeping .done with
        notices := [.trace .attachedStatistics] })
  | .detach id => .ok (s.onMember id fun m =>
      { (s.setMember id { m with statistics := none }).keeping (.detached m.statistics) with
        notices := if m.statistics.isSome then [.trace .detachedStatistics] else [] })
  | .register id event observer => .ok (s.onMember id fun m =>
      let callbacks := m.callbacks.register event observer
      (s.setMember id { m with callbacks }).keeping (.registered callbacks.len))
  | .clearCallbacks id => .ok (s.onMember id fun m =>
      (s.setMember id { m with callbacks := {} }).keeping .done)
  | .cache id command => s.onCache id command

/-- Carries out requests one after the other and collects their reports. -/
def run (s : Session T K V) :
    List (Command T K V) → Except Fault (List (Report T K V (Answer K V)) × Session T K V)
  | [] => .ok ([], s)
  | command :: commands => do
    let report ← s.perform command
    let (reports, s) ← report.session.run commands
    pure (report :: reports, s)

end Session

end Lru
