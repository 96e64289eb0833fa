/-! # Callbacks

Observers are registered for hits, for misses or for all accesses. An access
calls the observers of its own kind first and then those of all accesses, each
group in the order of registration.
-/

namespace Lru

/-- What an observer is registered for. -/
inductive AccessEvent
  | hit
  | miss
  | access
  deriving DecidableEq, Repr

/-- What an observer learns besides the key: the value found, nothing, or whether it was a hit. -/
inductive AccessDetail (V : Type)
  | found (value : V)
  | absent
  | outcome (hit : Bool)
  deriving DecidableEq, Repr

/-- One observer called for one access. -/
structure Call (α K V : Type) where
  observer : α
  event : AccessEvent
  key : K
  detail : AccessDetail V
  deriving DecidableEq, Repr

/-- Observers of each kind in the order of registration. -/
structure Callbacks (α : Type) where
  hit : List α := []
  miss : List α := []
  access : List α := []
  deriving DecidableEq, Repr

namespace Callbacks

variable {α K V : Type}

def register (c : Callbacks α) (event : AccessEvent) (observer : α) : Callbacks α :=
  match event with
  | .hit => { c with hit := c.hit ++ [observer] }
  | .miss => { c with miss := c.miss ++ [observer] }
  | .access => { c with access := c.access ++ [observer] }

/-- Drops the observers of one kind. -/
def clear (c : Callbacks α) (event : AccessEvent) : Callbacks α :=
  match event with
  | .hit => { c with hit := [] }
  | .miss => { c with miss := [] }
  | .access => { c with access := [] }

def len (c : Callbacks α) : Nat :=
  c.hit.length + c.miss.length + c.access.length

def isEmpty (c : Callbacks α) : Bool :=
  c.len == 0

/-- The calls that a hit on `key` with the stored `value` makes. -/
def onHit (c : Callbacks α) (key : K) (value : V) : List (Call α K V) :=
  c.hit.map (fun observer => ⟨observer, .hit, key, .found value⟩) ++
    c.access.map fun observer => ⟨observer, .access, key, .outcome true⟩

/-- The calls that a miss on `key` makes. -/
def onMiss (c : Callbacks α) (key : K) : List (Call α K V) :=
  c.miss.map (fun observer => ⟨observer, .miss, key, .absent⟩) ++
    c.access.map fun observer => ⟨observer, .access, key, .outcome false⟩

end Callbacks

end Lru
