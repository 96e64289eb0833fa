import Lru.RecencyList

/-! # Storage does not look at values

Changing every stored value by one function changes nothing else: slots, links
and the chain of vacant slots come out of each operation as they do without the
change. Where both sides write a value, what they write has to correspond.
-/

namespace Lru

variable {α β : Type}

/-- The slot with its value changed. -/
def Slot.map (f : α → β) : Slot α → Slot β
  | occupied value => occupied (f value)
  | vacant next => vacant next

namespace Arena

variable (f : α → β) (a : Arena α) (id : SlotId)

/-- The arena with every value changed. -/
def map : Arena β where
  slots := a.slots.map (Slot.map f)
  freeHead := a.freeHead
  len := a.len

@[simp] theorem slotCount_map : (a.map f).slotCount = a.slotCount :=
  Array.size_map

@[simp] theorem get?_map : (a.map f).get? id = (a.get? id).map f := by
  simp only [get?, map, Array.getElem?_map]
  cases a.slots[id]? with
  | none => rfl
  | some slot => cases slot <;> rfl

@[simp] theorem contains_map : (a.map f).contains id = a.contains id := by
  rw [contains, contains, get?_map, Option.isSome_map]

theorem nextFree_map : (a.map f).nextFree id = a.nextFree id := by
  simp only [nextFree, map, Array.getElem?_map]
  cases a.slots[id]? with
  | none => rfl
  | some slot => cases slot <;> rfl

theorem insert_map (value : α) :
    (a.map f).insert (f value) = ((a.insert value).1, (a.insert value).2.map f) := by
  have hhead : (a.map f).freeHead = a.freeHead := rfl
  simp only [insert, hhead, nextFree_map]
  cases a.freeHead with
  | none => simp [map, Slot.map]
  | some id => simp [map, Slot.map, Array.map_setIfInBounds]

theorem remove?_map :
    (a.map f).remove? id = (a.remove? id).map fun x => (f x.1, x.2.map f) := by
  simp only [remove?, get?_map, Option.map_map]
  refine congrArg (Option.map · (a.get? id)) ?_
  funext value
  simp [map, Slot.map, Array.map_setIfInBounds]

theorem modify_map (g : α → α) (g' : β → β) (h : ∀ x, g' (f x) = f (g x)) :
    (a.map f).modify id g' = (a.modify id g).map f := by
  have hslots : (a.slots.map (Slot.map f)).modify id (Slot.update g') =
      (a.slots.modify id (Slot.update g)).map (Slot.map f) := by
    refine Array.ext_getElem? fun i => ?_
    simp only [Array.getElem?_modify, Array.getElem?_map]
    split
    · cases a.slots[i]? with
      | none => rfl
      | some slot => cases slot <;> simp [Slot.map, Slot.update, h]
    · rfl
  simp only [modify, map, hslots]

theorem firstFrom_map (start : SlotId) : (a.map f).firstFrom start = a.firstFrom start := by
  have hcontains : (a.map f).contains = a.contains := funext (contains_map f a)
  have hsize : (a.map f).slots.size = a.slots.size := Array.size_map
  rw [firstFrom, firstFrom, hcontains, hsize]

end Arena

/-- The node with its value changed. -/
def Node.map (f : α → β) (node : Node α) : Node β where
  value := f node.value
  prev := node.prev
  next := node.next

namespace RecencyList

variable (f : α → β) (l : RecencyList α) (id : SlotId)

/-- The list with every value changed. -/
def map : RecencyList β where
  nodes := l.nodes.map (Node.map f)
  head := l.head
  tail := l.tail

@[simp] theorem map_empty : ({} : RecencyList α).map f = {} := by
  simp [map, Arena.map]

@[simp] theorem head_map : (l.map f).head = l.head := rfl

@[simp] theorem tail_map : (l.map f).tail = l.tail := rfl

@[simp] theorem len_map : (l.map f).len = l.len := rfl

@[simp] theorem node_map : (l.map f).nodes.get? id = (l.nodes.get? id).map (Node.map f) :=
  l.nodes.get?_map _ id

@[simp] theorem slotCount_map : (l.map f).slotCount = l.slotCount :=
  l.nodes.slotCount_map _

@[simp] theorem contains_map : (l.map f).contains id = l.contains id :=
  l.nodes.contains_map _ id

@[simp] theorem get?_map : (l.map f).get? id = (l.get? id).map f := by
  rw [get?, get?, node_map, Option.map_map, Option.map_map]
  rfl

@[simp] theorem nextId_map : (l.map f).nextId id = l.nextId id := by
  rw [nextId, nextId, node_map, Option.bind_map]
  rfl

@[simp] theorem prevId_map : (l.map f).prevId id = l.prevId id := by
  rw [prevId, prevId, node_map, Option.bind_map]
  rfl

@[simp] theorem firstInStorage_map : (l.map f).firstInStorage = l.firstInStorage :=
  l.nodes.firstFrom_map _ 0

@[simp] theorem nextInStorage_map : (l.map f).nextInStorage id = l.nextInStorage id :=
  l.nodes.firstFrom_map _ (id + 1)

theorem bind_get?_map (slot : Option SlotId) :
    slot.bind (l.map f).get? = (slot.bind l.get?).map f := by
  cases slot with
  | none => rfl
  | some id => exact l.get?_map f id

@[simp] theorem front?_map : (l.map f).front? = l.front?.map f :=
  l.bind_get?_map f l.head

@[simp] theorem back?_map : (l.map f).back? = l.back?.map f :=
  l.bind_get?_map f l.tail

theorem modify_map (g : α → α) (g' : β → β) (h : ∀ x, g' (f x) = f (g x)) :
    (l.map f).modify id g' = (l.modify id g).map f := by
  have hnodes := l.nodes.modify_map (Node.map f) id (fun node => { node with
    value := g node.value }) (fun node => { node with value := g' node.value })
    fun node => by simp only [Node.map, h]
  exact congrArg (fun nodes => { (l.map f) with nodes }) hnodes

theorem linkNext_map (slot next : Option SlotId) :
    (l.map f).linkNext slot next = (l.linkNext slot next).map f := by
  have hcontains : (l.map f).contains = l.contains := funext (contains_map f l)
  rw [linkNext, linkNext, hcontains]
  cases slot.filter l.contains with
  | none => rfl
  | some id =>
    have hnodes := l.nodes.modify_map (Node.map f) id (fun node => { node with next })
      (fun node => { node with next }) fun _ => rfl
    exact congrArg (fun nodes => { (l.map f) with nodes }) hnodes

theorem linkPrev_map (slot prev : Option SlotId) :
    (l.map f).linkPrev slot prev = (l.linkPrev slot prev).map f := by
  have hcontains : (l.map f).contains = l.contains := funext (contains_map f l)
  rw [linkPrev, linkPrev, hcontains]
  cases slot.filter l.contains with
  | none => rfl
  | some id =>
    have hnodes := l.nodes.modify_map (Node.map f) id (fun node => { node with prev })
      (fun node => { node with prev }) fun _ => rfl
    exact congrArg (fun nodes => { (l.map f) with nodes }) hnodes

theorem pushBack_map (value : α) :
    (l.map f).pushBack (f value) = ((l.pushBack value).1, (l.pushBack value).2.map f) := by
  have hinsert := l.nodes.insert_map (Node.map f) { value, prev := l.tail, next := none }
  have hlink (slot : SlotId) (nodes : Arena (Node α)) :=
    linkNext_map f { l with nodes } l.tail (some slot)
  simp only [Node.map, map] at hinsert hlink
  simp only [pushBack, map, hinsert, hlink]

theorem detach_map : (l.map f).detach id = (l.detach id).map f := by
  cases hn : l.nodes.get? id with
  | none => simp only [detach, node_map, hn, Option.map_none]
  | some node =>
    have hnodes (nodes : Arena (Node α)) := nodes.modify_map (Node.map f) id
      (fun node => { node with prev := none, next := none })
      (fun node => { node with prev := none, next := none }) fun _ => rfl
    simp only [detach, node_map, hn, Option.map_some, Node.map, linkNext_map, linkPrev_map]
    simp only [map, hnodes]

theorem attachBack_map : (l.map f).attachBack id = (l.attachBack id).map f := by
  have hnodes := l.nodes.modify_map (Node.map f) id
    (fun node => { node with prev := l.tail, next := none })
    (fun node => { node with prev := l.tail, next := none }) fun _ => rfl
  have hlink (nodes : Arena (Node α)) := linkNext_map f { l with nodes } l.tail (some id)
  simp only [map] at hlink
  rw [attachBack, attachBack, contains_map]
  split
  · simp only [map, hnodes, hlink]
  · rfl

theorem remove?_map :
    (l.map f).remove? id = (l.remove? id).map fun x => (f x.1, x.2.map f) := by
  have hremove := (l.detach id).nodes.remove?_map (Node.map f) id
  rw [remove?, detach_map]
  simp only [map, hremove, remove?, Option.map_map]
  rfl

theorem popFront?_map :
    (l.map f).popFront? = l.popFront?.map fun x => (x.1, f x.2.1, x.2.2.map f) := by
  rw [popFront?, popFront?, head_map]
  cases l.head with
  | none => rfl
  | some id =>
    simp only [Option.bind_some, remove?_map, Option.map_map]
    rfl

theorem moveToBack_map : (l.map f).moveToBack id = (l.moveToBack id).map f := by
  rw [moveToBack, moveToBack, contains_map, tail_map, detach_map, attachBack_map]
  split <;> rfl

theorem repack_map (fuel : Nat) (fresh : RecencyList α) :
    repack fuel (l.map f) (fresh.map f) =
      ((repack fuel l fresh).1.map fun x => (f x.1, x.2), (repack fuel l fresh).2.map f) := by
  induction fuel generalizing l fresh with
  | zero => rfl
  | succ fuel ih =>
    cases hp : l.popFront? with
    | none => simp only [repack, popFront?_map, hp, Option.map_none, List.map_nil]
    | some x =>
      obtain ⟨id, value, old⟩ := x
      simp only [repack, popFront?_map, hp, Option.map_some, pushBack_map, ih, List.map_cons]

theorem compact_map :
    (l.map f).compact = (l.compact.1.map fun x => (f x.1, x.2), l.compact.2.map f) := by
  rw [compact, slotCount_map, ← map_empty f, repack_map]
  rfl

end RecencyList

end Lru
