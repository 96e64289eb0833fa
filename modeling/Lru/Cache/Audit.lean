import Lru.Cache.Basic

/-! # Auditing a cache

The audit compares the index with the recency list, node by node along the
next links, and gives up after as many nodes as there are keys. It ends in
every state, whatever the links are.
-/

namespace Lru.Cache

variable {K V : Type} [BEq K]

/-- Checks one node that follows `prev` against the index and its back link. -/
def checkNode (c : Cache K V) (prev : Option SlotId) (id : SlotId)
    (node : Node (Entry K V)) : Except InvariantError Unit :=
  let indexed := c.index.get? node.value.key
  if indexed ≠ some id then .error (.misindexed id indexed)
  else if node.prev ≠ prev then .error (.brokenBackLink id)
  else .ok ()

/-- Checks the nodes from `id` on, of which there are at most `budget`, and counts them. -/
def checkNodes (c : Cache K V) (prev : Option SlotId) :
    (budget : Nat) → (id : Option SlotId) → Except InvariantError Nat
  | _, none => .ok 0
  | budget, some id =>
    match c.order.nodes.get? id with
    | none => .ok 0
    | some node => do
      c.checkNode prev id node
      match budget with
      | 0 => .error .cycle
      | budget + 1 => (· + 1) <$> c.checkNodes (some id) budget node.next

/-- Checks that index, recency list, capacity and last access agree. -/
def checkInvariants (c : Cache K V) : Except InvariantError Unit := do
  if c.index.size ≠ c.order.len then
    throw (.sizeMismatch c.index.size c.order.len)
  if c.capacity < c.len then
    throw (.overCapacity c.len c.capacity)
  let walked ← c.checkNodes none c.index.size c.order.head
  if walked ≠ c.index.size then
    throw (.shortWalk walked c.index.size)
  match c.lastAccessed with
  | none => pure ()
  | some id => if c.order.contains id then pure () else throw (.deadLastAccessed id)

end Lru.Cache
