/-! # Finite maps over a key equality

A map is a list of entries that is searched with the equality of the keys.
Nothing is asked of that equality: a key that equals nothing, itself included,
adds an entry on every insertion and is never found again.
-/

namespace Lru

/-- Entries, each under a key that was absent when it was added. -/
structure KeyMap (K V : Type) where
  entries : List (K × V) := []
  deriving Repr

namespace KeyMap

variable {K V : Type} [BEq K]

def size (m : KeyMap K V) : Nat :=
  m.entries.length

def isEmpty (m : KeyMap K V) : Bool :=
  m.entries.isEmpty

/-- The value under the first key that equals `key`. -/
def get? (m : KeyMap K V) (key : K) : Option V :=
  (m.entries.find? fun entry => key == entry.1).map Prod.snd

def contains (m : KeyMap K V) (key : K) : Bool :=
  (m.get? key).isSome

/-- Changes the value of the first entry whose key equals `key`. -/
def modifyFirst (key : K) (f : V → V) : List (K × V) → List (K × V)
  | [] => []
  | (k, v) :: rest => if key == k then (k, f v) :: rest else (k, v) :: modifyFirst key f rest

/-- Changes the value under `key` and leaves a map without that key alone. -/
def modify (m : KeyMap K V) (key : K) (f : V → V) : KeyMap K V :=
  { entries := modifyFirst key f m.entries }

/-- Puts `value` under `key`; a key already present stays as it is written. -/
def insert (m : KeyMap K V) (key : K) (value : V) : KeyMap K V :=
  if m.contains key then m.modify key fun _ => value
  else { entries := m.entries ++ [(key, value)] }

/-- Puts `value` under `key` unless the key is present. -/
def insertIfNew (m : KeyMap K V) (key : K) (value : V) : KeyMap K V :=
  if m.contains key then m else { entries := m.entries ++ [(key, value)] }

def erase (m : KeyMap K V) (key : K) : KeyMap K V :=
  { entries := m.entries.eraseP fun entry => key == entry.1 }

/-- Changes every value. -/
def mapValues (m : KeyMap K V) (f : V → V) : KeyMap K V :=
  { entries := m.entries.map fun entry => (entry.1, f entry.2) }

end KeyMap

end Lru
