import Lru.Session.Basic
import Lru.Text.Describe
import Lru.Text.Quoted
import Lru.Text.Duration

/-! # Descriptions of caches and their parts

One-line texts for people who debug. They show the parts of storage in full,
and of caches, cursors and observers only what tells them apart.
-/

namespace Lru

open Text

section Storage

variable {α : Type} (value : α → String)

/-- An optional slot number. -/
def slotOption (id : Option SlotId) : String :=
  option (id.map slot)

def Slot.describe : Slot α → String
  | occupied v => wrapped "Occupied" (value v)
  | vacant next => record "Vacant" [("next_free", option (next.map toString))]

def Arena.describe (a : Arena α) : String :=
  record "SlotArena"
    [("slots", list (a.slots.toList.map (Slot.describe value))),
      ("free_head", option (a.freeHead.map toString)),
      ("len", toString a.len)]

def Node.describe (n : Node α) : String :=
  record "Node"
    [("value", value n.value), ("prev", slotOption n.prev), ("next", slotOption n.next)]

def RecencyList.describe (l : RecencyList α) : String :=
  record "IntrusiveList"
    [("arena", l.nodes.describe (Node.describe value)),
      ("head", slotOption l.head),
      ("tail", slotOption l.tail)]

end Storage

def RecencyMode.describe : RecencyMode → String
  | onInsert => "OnInsert"
  | onAccess => "OnAccess"

/-- A policy; a timed one reads the clock of the system. -/
def Policy.describe : Policy → String
  | capacity => "Capacity"
  | timeToLive ttl =>
    record "TimeToLive" [("ttl", duration ttl), ("clock", "SystemClock")]

def Settings.describe (s : Settings) : String :=
  record "CacheBuilder"
    [("capacity", toString s.capacity),
      ("ttl", option (s.ttl.map duration)),
      ("mode", s.mode.describe),
      ("statistics", bool s.statistics)]

def KeyStatistics.describe (s : KeyStatistics) : String :=
  record "KeyStatistics" [("hits", toString s.hits), ("misses", toString s.misses)]

def Statistics.describe {K : Type} (s : Statistics K) : String :=
  record "Statistics"
    [("accesses", toString s.accesses),
      ("hits", toString s.hits),
      ("monitored_keys", toString s.monitored.size)]

def Callbacks.describe {α : Type} (c : Callbacks α) : String :=
  record "Callbacks"
    [("hit", toString c.hit.length),
      ("miss", toString c.miss.length),
      ("access", toString c.access.length)]

def Member.describe {T K V : Type} (m : Member T K V) : String :=
  openRecord "Engine"
    [("len", toString m.cache.len),
      ("capacity", toString m.cache.capacity),
      ("policy", m.cache.policy.describe),
      ("recency_mode", m.cache.mode.describe),
      ("monitoring", bool m.statistics.isSome)]

def Cursor.describe (x : Cursor) : String :=
  let name := match x.kind with
    | .ordered => "OrderedIter"
    | .unordered => "UnorderedIter"
  record name [("position", slotOption x.position)]

def Traversal.describe (t : Traversal) : String :=
  record "Iter" [("remaining", toString t.remaining)]

namespace CacheError

/-- The name of the cause. -/
def name : CacheError → String
  | keyNotFound => "KeyNotFound"
  | emptyCache _ => "EmptyCache"
  | pastTheEnd => "InvalidIterator"
  | endNotOrdered => "InvalidIteratorConversion"
  | staleHandle => "StaleHandle"
  | foreignHandle => "ForeignHandle"
  | notMonitoring => "NotMonitoring"
  | unmonitoredKey => "UnmonitoredKey"
  | noAccesses => "NoAccesses"

def describe : CacheError → String
  | emptyCache requested => record "EmptyCache" [("requested", quoted requested)]
  | e => e.name

end CacheError

def ConfigError.describe (e : ConfigError) : String :=
  wrapped "ConfigError" (quoted e.message)

def InvariantError.describe (e : InvariantError) : String :=
  wrapped "InvariantError" (quoted e.message)

namespace TraceEvent

/-- Whether an event is worth the attention of someone who debugs, beyond a full trace. -/
def isDebug : TraceEvent → Bool
  | evicted .. | foundDead | compacted .. => false
  | shrank .. | purged .. | attachedStatistics | detachedStatistics | building .. => true

def message : TraceEvent → String
  | evicted .. => "evicted least recently used entry"
  | foundDead => "entry found but no longer live"
  | shrank .. => "shrank cache capacity"
  | compacted .. => "compacted cache storage"
  | purged .. => "purged expired entries"
  | attachedStatistics => "attached statistics to cache"
  | detachedStatistics => "detached statistics from cache"
  | building .. => "building cache"

def fields : TraceEvent → List Field
  | evicted len capacity => [("len", toString len), ("capacity", toString capacity)]
  | shrank count capacity => [("evicted", toString count), ("capacity", toString capacity)]
  | compacted slots => [("slots", toString slots)]
  | purged count remaining => [("purged", toString count), ("remaining", toString remaining)]
  | building capacity ttl mode statistics =>
    [("capacity", toString capacity),
      ("ttl", option (ttl.map duration)),
      ("mode", mode.describe),
      ("statistics", bool statistics)]
  | foundDead | attachedStatistics | detachedStatistics => []

end TraceEvent

end Lru
