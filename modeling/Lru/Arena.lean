/-! # Slot arena

Values live in numbered slots. A vacated slot names the slot vacated before it,
so the vacant slots form a stack threaded through the storage itself, and a new
value takes the slot vacated last.
-/

namespace Lru

/-- The number of a slot. -/
abbrev SlotId := Nat

/-- A slot holds a value or waits for one. -/
inductive Slot (α : Type)
  | occupied (value : α)
  | vacant (next : Option SlotId)
  deriving DecidableEq, Repr

namespace Slot

variable {α : Type}

def value? : Slot α → Option α
  | occupied value => some value
  | vacant _ => none

/-- Changes the value of an occupied slot. -/
def update (f : α → α) : Slot α → Slot α
  | occupied value => occupied (f value)
  | vacant next => vacant next

end Slot

/-- Numbered storage with a stack of vacated slots that starts at `freeHead`. -/
structure Arena (α : Type) where
  slots : Array (Slot α) := #[]
  freeHead : Option SlotId := none
  len : Nat := 0
  deriving DecidableEq, Repr

namespace Arena

variable {α : Type}

def get? (a : Arena α) (id : SlotId) : Option α :=
  a.slots[id]?.bind Slot.value?

def contains (a : Arena α) (id : SlotId) : Bool :=
  (a.get? id).isSome

def isEmpty (a : Arena α) : Bool :=
  a.len == 0

/-- The number of slots, occupied or vacant. -/
def slotCount (a : Arena α) : Nat :=
  a.slots.size

/-- The slot below `id` on the stack of vacated slots. -/
def nextFree (a : Arena α) (id : SlotId) : Option SlotId :=
  match a.slots[id]? with
  | some (.vacant next) => next
  | _ => a.freeHead

/-- Stores a value in the slot vacated last, or in a fresh one when no slot is vacant. -/
def insert (a : Arena α) (value : α) : SlotId × Arena α :=
  match a.freeHead with
  | some id =>
    (id, {
      slots := a.slots.setIfInBounds id (.occupied value)
      freeHead := a.nextFree id
      len := a.len + 1 })
  | none =>
    (a.slots.size, { a with slots := a.slots.push (.occupied value), len := a.len + 1 })

/-- Takes the value out of an occupied slot, which becomes the slot vacated last. -/
def remove? (a : Arena α) (id : SlotId) : Option (α × Arena α) :=
  (a.get? id).map fun value =>
    (value, {
      slots := a.slots.setIfInBounds id (.vacant a.freeHead)
      freeHead := some id
      len := a.len - 1 })

/-- Changes the value in an occupied slot and leaves everything else alone. -/
def modify (a : Arena α) (id : SlotId) (f : α → α) : Arena α :=
  { a with slots := a.slots.modify id (Slot.update f) }

/-- The least occupied slot that is not below `start`. -/
def firstFrom (a : Arena α) (start : SlotId) : Option SlotId :=
  (List.range' start (a.slots.size - start)).find? a.contains

/-- The stored values with their slots, by slot number. -/
def entries (a : Arena α) : List (SlotId × α) :=
  (List.range a.slots.size).filterMap fun id => (a.get? id).map (id, ·)

end Arena

/-- A request to an arena. -/
inductive Arena.Command (α : Type)
  | insert (value : α)
  | remove (id : SlotId)
  | set (id : SlotId) (value : α)
  | clear
  deriving DecidableEq, Repr

/-- What an arena answers: the slot taken, or the value found. -/
inductive Arena.Answer (α : Type)
  | slot (id : SlotId)
  | value (value? : Option α)
  | done
  deriving DecidableEq, Repr

namespace Arena

variable {α : Type}

/-- Carries out one request. -/
def perform (a : Arena α) : Command α → Answer α × Arena α
  | .insert value =>
    let (id, a) := a.insert value
    (.slot id, a)
  | .remove id =>
    match a.remove? id with
    | some (value, a) => (.value (some value), a)
    | none => (.value none, a)
  | .set id value => (.value (a.get? id), a.modify id fun _ => value)
  | .clear => (.done, {})

/-- Carries out requests one after the other. -/
def run (a : Arena α) (commands : List (Command α)) : Arena α :=
  commands.foldl (fun a command => (a.perform command).2) a

end Arena

end Lru
