import Lru.Cache.Basic

/-! # Cursors

A cursor is a position in a cache or past its end. An ordered cursor moves in
recency order both ways, an unordered one by slot number and only forward.
Each kind turns into the other, save that past the end there is no order to
join.
-/

namespace Lru

inductive CursorKind
  | ordered
  | unordered
  deriving DecidableEq, Repr

/-- A position in the cache `owner`. -/
structure Cursor where
  owner : UInt64
  kind : CursorKind
  position : Option SlotId
  deriving Repr

namespace Cursor

def isEnd (x : Cursor) : Bool :=
  x.position.isNone

/-- Cursors of either kind are equal past the end, or in one slot of one cache. -/
instance : BEq Cursor where
  beq x y :=
    match x.position, y.position with
    | none, none => true
    | some p, some q => p == q && x.owner == y.owner
    | _, _ => false

def toUnordered (x : Cursor) : Cursor :=
  { x with kind := .unordered }

def toOrdered (x : Cursor) : Except CacheError Cursor :=
  match x.position with
  | some _ => .ok { x with kind := .ordered }
  | none => .error .endNotOrdered

end Cursor

namespace Cache

variable {K V : Type} [BEq K]

def cursor (c : Cache K V) (kind : CursorKind) (position : Option SlotId) : Cursor :=
  { owner := c.id, kind, position }

def orderedBegin (c : Cache K V) : Cursor :=
  c.cursor .ordered c.order.head

def orderedEnd (c : Cache K V) : Cursor :=
  c.cursor .ordered none

def unorderedBegin (c : Cache K V) : Cursor :=
  c.cursor .unordered c.order.firstInStorage

def unorderedEnd (c : Cache K V) : Cursor :=
  c.cursor .unordered none

/-- An unordered cursor on the live entry of `key`, or past the end. -/
def find (c : Cache K V) (now : Instant) (key : K) : Outcome K V Cursor :=
  (c.resolve now key).map (c.cursor .unordered)

/-- A cursor where a valid handle points to. -/
def cursorAt (c : Cache K V) (kind : CursorKind) (h : Handle) : Except CacheError Cursor :=
  (c.validate h).map (c.cursor kind)

/-- The entry under a cursor. -/
def entryAt (c : Cache K V) (x : Cursor) : Except CacheError (K × V) :=
  match x.position.bind c.order.get? with
  | some entry => .ok (entry.key, entry.value)
  | none => .error .pastTheEnd

/-- A cursor one entry further; past the end it stays. -/
def advance (c : Cache K V) (x : Cursor) : Cursor :=
  { x with
    position := match x.kind with
      | .ordered => x.position.bind c.order.nextId
      | .unordered => x.position.bind c.order.nextInStorage }

/-- The position before a cursor in recency order; before the end is the most recent entry. -/
def retreat? (c : Cache K V) (x : Cursor) : Option Cursor :=
  let target := match x.position with
    | some id => c.order.prevId id
    | none => c.order.tail
  target.map fun id => { x with position := some id }

/-- The entry under a cursor, and the cursor behind it. -/
def next? (c : Cache K V) (x : Cursor) : Option ((K × V) × Cursor) :=
  match c.entryAt x with
  | .ok entry => some (entry, c.advance x)
  | .error _ => none

/-- At most `fuel` entries from a cursor on. -/
def drain (c : Cache K V) : Nat → Cursor → List (K × V)
  | 0, _ => []
  | fuel + 1, x =>
    match c.next? x with
    | some (entry, x) => entry :: c.drain fuel x
    | none => []

/-- The entries from a cursor on. -/
def rest (c : Cache K V) (x : Cursor) : List (K × V) :=
  c.drain c.order.slotCount x

end Cache

/-- Where a cursor starts. -/
inductive Cursor.Start (K : Type)
  | orderedBegin
  | orderedEnd
  | unorderedBegin
  | unorderedEnd
  | find (key : K)
  | handle (kind : CursorKind) (h : Handle)
  deriving DecidableEq, Repr

/-- A step with a cursor. -/
inductive Cursor.Move
  | isEnd
  | entry
  | advance
  | retreat
  | next
  | rest
  | toUnordered
  | toOrdered
  | handle
  deriving DecidableEq, Repr

/-- What a step with a cursor answers. -/
inductive Cursor.Answer (K V : Type)
  | done
  | flag (b : Bool)
  | entry (result : Except CacheError (K × V))
  | next (found : Option (K × V))
  | rest (entries : List (K × V))
  | converted (result : Except CacheError Unit)
  | handle (h : Handle)

namespace Cache

variable {K V : Type} [BEq K]

/-- Opens a cursor; only finding a key can change the cache. -/
def startCursor (c : Cache K V) (now : Instant) :
    Cursor.Start K → Outcome K V (Except CacheError Cursor)
  | .orderedBegin => { result := .ok c.orderedBegin, cache := c }
  | .orderedEnd => { result := .ok c.orderedEnd, cache := c }
  | .unorderedBegin => { result := .ok c.unorderedBegin, cache := c }
  | .unorderedEnd => { result := .ok c.unorderedEnd, cache := c }
  | .find key => (c.find now key).map .ok
  | .handle kind h => { result := c.cursorAt kind h, cache := c }

/-- Takes one step with a cursor. -/
def moveCursor (c : Cache K V) (x : Cursor) : Cursor.Move → Cursor.Answer K V × Cursor
  | .isEnd => (.flag x.isEnd, x)
  | .entry => (.entry (c.entryAt x), x)
  | .advance => (.done, c.advance x)
  | .retreat =>
    match c.retreat? x with
    | some y => (.flag true, y)
    | none => (.flag false, x)
  | .next =>
    match c.next? x with
    | some (entry, y) => (.next (some entry), y)
    | none => (.next none, x)
  | .rest => (.rest (c.rest x), x)
  | .toUnordered => (.flag true, x.toUnordered)
  | .toOrdered =>
    match x.toOrdered with
    | .ok y => (.converted (.ok ()), y)
    | .error e => (.converted (.error e), x)
  | .handle => (.handle (c.handle x.position), x)

/-- Takes steps one after the other. -/
def walkCursor (c : Cache K V) (x : Cursor) : List Cursor.Move → List (Cursor.Answer K V) × Cursor
  | [] => ([], x)
  | move :: moves =>
    let (answer, y) := c.moveCursor x move
    let (answers, z) := c.walkCursor y moves
    (answer :: answers, z)

end Cache

end Lru
