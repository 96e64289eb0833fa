import Lru.Arena
import Lru.Fault

/-! # Recency list

A doubly linked list whose nodes live in an arena, from the least recent value
at the head to the most recent one at the tail. A link that names no stored
node counts as an end of the list.
-/

namespace Lru

/-- A value with the slots of its neighbours. -/
structure Node (α : Type) where
  value : α
  prev : Option SlotId
  next : Option SlotId
  deriving DecidableEq, Repr

/-- Linked nodes between a head and a tail. -/
structure RecencyList (α : Type) where
  nodes : Arena (Node α) := {}
  head : Option SlotId := none
  tail : Option SlotId := none
  deriving DecidableEq, Repr

namespace RecencyList

variable {α : Type}

def len (l : RecencyList α) : Nat :=
  l.nodes.len

def isEmpty (l : RecencyList α) : Bool :=
  l.nodes.isEmpty

def slotCount (l : RecencyList α) : Nat :=
  l.nodes.slotCount

def contains (l : RecencyList α) (id : SlotId) : Bool :=
  l.nodes.contains id

def get? (l : RecencyList α) (id : SlotId) : Option α :=
  (l.nodes.get? id).map Node.value

def front? (l : RecencyList α) : Option α :=
  l.head.bind l.get?

def back? (l : RecencyList α) : Option α :=
  l.tail.bind l.get?

def nextId (l : RecencyList α) (id : SlotId) : Option SlotId :=
  (l.nodes.get? id).bind Node.next

def prevId (l : RecencyList α) (id : SlotId) : Option SlotId :=
  (l.nodes.get? id).bind Node.prev

/-- The stored node with the least slot number. -/
def firstInStorage (l : RecencyList α) : Option SlotId :=
  l.nodes.firstFrom 0

/-- The stored node with the least slot number above `id`. -/
def nextInStorage (l : RecencyList α) (id : SlotId) : Option SlotId :=
  l.nodes.firstFrom (id + 1)

/-- As `nextInStorage`, for a caller whose slot numbers are words. -/
def nextInStorageChecked (l : RecencyList α) (id : SlotId) : Except Fault (Option SlotId) :=
  if id + 1 < wordLimit then .ok (l.nextInStorage id) else .error .counterOverflow

/-- Changes the value of a stored node. -/
def modify (l : RecencyList α) (id : SlotId) (f : α → α) : RecencyList α :=
  { l with nodes := l.nodes.modify id fun node => { node with value := f node.value } }

/-- Lets `next` follow the node `id`, or lead the list when there is no such node. -/
def linkNext (l : RecencyList α) (id : Option SlotId) (next : Option SlotId) : RecencyList α :=
  match id.filter l.contains with
  | some id => { l with nodes := l.nodes.modify id fun node => { node with next } }
  | none => { l with head := next }

/-- Lets `prev` precede the node `id`, or end the list when there is no such node. -/
def linkPrev (l : RecencyList α) (id : Option SlotId) (prev : Option SlotId) : RecencyList α :=
  match id.filter l.contains with
  | some id => { l with nodes := l.nodes.modify id fun node => { node with prev } }
  | none => { l with tail := prev }

/-- Appends a value and tells its slot. -/
def pushBack (l : RecencyList α) (value : α) : SlotId × RecencyList α :=
  let (id, nodes) := l.nodes.insert { value, prev := l.tail, next := none }
  (id, { ({ l with nodes } : RecencyList α).linkNext l.tail (some id) with tail := some id })

/-- Joins the neighbours of a stored node, which keeps its slot but no link. -/
def detach (l : RecencyList α) (id : SlotId) : RecencyList α :=
  match l.nodes.get? id with
  | none => l
  | some node =>
    let l := (l.linkNext node.prev node.next).linkPrev node.next node.prev
    { l with nodes := l.nodes.modify id fun node => { node with prev := none, next := none } }

/-- Links a stored node behind the tail. -/
def attachBack (l : RecencyList α) (id : SlotId) : RecencyList α :=
  if l.contains id then
    let nodes := l.nodes.modify id fun node => { node with prev := l.tail, next := none }
    { ({ l with nodes } : RecencyList α).linkNext l.tail (some id) with tail := some id }
  else l

/-- Takes a stored node out of the list. -/
def remove? (l : RecencyList α) (id : SlotId) : Option (α × RecencyList α) :=
  let detached := l.detach id
  (detached.nodes.remove? id).map fun (node, nodes) => (node.value, { detached with nodes })

/-- Takes the head out of the list. -/
def popFront? (l : RecencyList α) : Option (SlotId × α × RecencyList α) :=
  l.head.bind fun id => (l.remove? id).map (id, ·)

/-- Makes a stored node the most recent one. -/
def moveToBack (l : RecencyList α) (id : SlotId) : RecencyList α :=
  if l.contains id && l.tail != some id then (l.detach id).attachBack id else l

/-- Moves at most `fuel` values from the head of `old` to the tail of `fresh`. -/
def repack : Nat → RecencyList α → RecencyList α → List (α × SlotId) × RecencyList α
  | 0, _, fresh => ([], fresh)
  | fuel + 1, old, fresh =>
    match old.popFront? with
    | none => ([], fresh)
    | some (_, value, old) =>
      let (id, fresh) := fresh.pushBack value
      let (moved, fresh) := repack fuel old fresh
      ((value, id) :: moved, fresh)

/-- Repacks the values into fresh slots in list order and reports each with its new slot. -/
def compact (l : RecencyList α) : List (α × SlotId) × RecencyList α :=
  repack l.slotCount l {}

/-- At most `fuel` nodes on the way from `id` along the next links. -/
def walk (l : RecencyList α) : Nat → Option SlotId → List (SlotId × α)
  | fuel + 1, some id =>
    match l.nodes.get? id with
    | some node => (id, node.value) :: l.walk fuel node.next
    | none => []
  | _, _ => []

/-- The values with their slots in list order. -/
def entries (l : RecencyList α) : List (SlotId × α) :=
  l.walk l.slotCount l.head

def toList (l : RecencyList α) : List α :=
  l.entries.map Prod.snd

/-- Whether the links from `id`, which follows `prev`, lead over `fuel` unseen nodes to the
tail and agree in both directions. -/
def wellLinkedFrom (l : RecencyList α) (seen : List SlotId) (prev : Option SlotId) :
    Nat → Option SlotId → Bool
  | fuel, none => fuel == 0 && l.tail == prev
  | 0, some _ => false
  | fuel + 1, some id =>
    !seen.contains id &&
      match l.nodes.get? id with
      | none => false
      | some node =>
        node.prev == prev && l.wellLinkedFrom (id :: seen) (some id) fuel node.next

/-- Whether the links lead from the head over as many nodes as are stored to the tail. -/
def wellLinked (l : RecencyList α) : Bool :=
  l.wellLinkedFrom [] none l.len l.head

end RecencyList

/-- A request to a recency list. -/
inductive RecencyList.Command (α : Type)
  | pushBack (value : α)
  | popFront
  | remove (id : SlotId)
  | moveToBack (id : SlotId)
  | set (id : SlotId) (value : α)
  | compact
  | clear
  deriving DecidableEq, Repr

/-- What a recency list answers. -/
inductive RecencyList.Answer (α : Type)
  | slot (id : SlotId)
  | front (found : Option (SlotId × α))
  | value (value? : Option α)
  | moved (present : Bool)
  | repacked (moves : List (α × SlotId))
  | done
  deriving DecidableEq, Repr

namespace RecencyList

variable {α : Type}

/-- Carries out one request. -/
def perform (l : RecencyList α) : Command α → Answer α × RecencyList α
  | .pushBack value =>
    let (id, l) := l.pushBack value
    (.slot id, l)
  | .popFront =>
    match l.popFront? with
    | some (id, value, l) => (.front (some (id, value)), l)
    | none => (.front none, l)
  | .remove id =>
    match l.remove? id with
    | some (value, l) => (.value (some value), l)
    | none => (.value none, l)
  | .moveToBack id => (.moved (l.contains id), l.moveToBack id)
  | .set id value => (.value (l.get? id), l.modify id fun _ => value)
  | .compact =>
    let (moves, l) := l.compact
    (.repacked moves, l)
  | .clear => (.done, {})

/-- Carries out requests one after the other. -/
def run (l : RecencyList α) (commands : List (Command α)) : RecencyList α :=
  commands.foldl (fun l command => (l.perform command).2) l

end RecencyList

end Lru
