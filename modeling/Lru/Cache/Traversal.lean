import Lru.Cache.Basic

/-! # Double-ended traversal

A traversal takes entries from both ends of the recency order until as many
have been taken as were indexed when it began.
-/

namespace Lru

/-- The two ends of what is left, and how much is left. -/
structure Traversal where
  front : Option SlotId
  back : Option SlotId
  remaining : Nat
  deriving DecidableEq, Repr

/-- A step of a traversal. -/
inductive Traversal.Move
  | next
  | nextBack
  deriving DecidableEq, Repr

namespace Cache

variable {K V : Type}

def traversal (c : Cache K V) : Traversal :=
  { front := c.order.head, back := c.order.tail, remaining := c.len }

/-- The entry at `id` while something is left. -/
def entryLeft (c : Cache K V) (t : Traversal) (id : Option SlotId) :
    Option (SlotId × Entry K V) :=
  if t.remaining = 0 then none else id.bind fun id => (c.order.get? id).map (id, ·)

/-- Takes the least recent of the entries left. -/
def next (c : Cache K V) (t : Traversal) : Option (K × V) × Traversal :=
  match c.entryLeft t t.front with
  | none => (none, t)
  | some (id, entry) =>
    (some (entry.key, entry.value),
      { t with front := c.order.nextId id, remaining := t.remaining - 1 })

/-- Takes the most recent of the entries left. -/
def nextBack (c : Cache K V) (t : Traversal) : Option (K × V) × Traversal :=
  match c.entryLeft t t.back with
  | none => (none, t)
  | some (id, entry) =>
    (some (entry.key, entry.value),
      { t with back := c.order.prevId id, remaining := t.remaining - 1 })

/-- Takes one step. -/
def traverse (c : Cache K V) (t : Traversal) : Traversal.Move → Option (K × V) × Traversal
  | .next => c.next t
  | .nextBack => c.nextBack t

/-- At most `fuel` entries taken from the end that `move` names, and what is left then. -/
def takeFrom (c : Cache K V) (move : Traversal.Move) :
    Nat → Traversal → List (K × V) × Traversal
  | 0, t => ([], t)
  | fuel + 1, t =>
    match c.traverse t move with
    | (none, t) => ([], t)
    | (some entry, t) =>
      let (entries, t) := c.takeFrom move fuel t
      (entry :: entries, t)

/-- The entries left, taken from the end that `move` names. -/
def takeRest (c : Cache K V) (move : Traversal.Move) (t : Traversal) :
    List (K × V) × Traversal :=
  c.takeFrom move t.remaining t

/-- Keys and values from the least to the most recent entry. -/
def pairs (c : Cache K V) : List (K × V) :=
  (c.takeRest .next c.traversal).1

/-- Keys and values from the most to the least recent entry. -/
def pairsRev (c : Cache K V) : List (K × V) :=
  (c.takeRest .nextBack c.traversal).1

def keys (c : Cache K V) : List K :=
  c.pairs.map Prod.fst

def keysRev (c : Cache K V) : List K :=
  c.pairsRev.map Prod.fst

def values (c : Cache K V) : List V :=
  c.pairs.map Prod.snd

def valuesRev (c : Cache K V) : List V :=
  c.pairsRev.map Prod.snd

end Cache

end Lru
