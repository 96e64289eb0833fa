import Lru.Cache.Reading
import Mathlib.Logic.Equiv.Basic

/-! # Caches under other identities

A cache compares identities and generations and adds one to its own generation;
it does nothing else with them. So under other identities, and with generations
that are ahead by any number, it does the same, up to the owner and the
generation of the handles it takes and mints.
-/

namespace Lru

/-- Another identity for each identity, and the number by which generations there are ahead. -/
structure Renaming where
  identity : Equiv.Perm UInt64
  offset : UInt64 → UInt64

variable {K V α β : Type} (ρ : Renaming)

/-- What carries this identity stays as it is. -/
structure Renaming.Fixes (id : UInt64) : Prop where
  identity : ρ.identity id = id
  offset : ρ.offset id = 0

def Handle.renamed (h : Handle) : Handle :=
  { h with owner := ρ.identity h.owner, generation := h.generation + ρ.offset h.owner }

def Cursor.renamed (x : Cursor) : Cursor :=
  { x with owner := ρ.identity x.owner }

def Cursor.Start.renamed : Cursor.Start K → Cursor.Start K
  | .handle kind h => .handle kind (h.renamed ρ)
  | start => start

def Cursor.Answer.renamed : Cursor.Answer K V → Cursor.Answer K V
  | .handle h => .handle (h.renamed ρ)
  | answer => answer

def Insertion.renamed (r : Insertion) : Insertion :=
  { r with handle := r.handle.renamed ρ }

/-- The same entries in the same slots under another identity and at another generation. -/
def Cache.renamed (c : Cache K V) : Cache K V :=
  { c with id := ρ.identity c.id, generation := c.generation + ρ.offset c.id }

def Outcome.renamed (o : Outcome K V α) : Outcome K V α :=
  { o with cache := o.cache.renamed ρ }

namespace Cache

def Command.renamed : Command K V → Command K V
  | .eraseAt h => .eraseAt (h.renamed ρ)
  | .cursor start moves => .cursor (start.renamed ρ) moves
  | command => command

/-- The end of a walk: the answers on the way and the cursor. -/
def renamedWalk (walked : List (Cursor.Answer K V) × Cursor) : List (Cursor.Answer K V) × Cursor :=
  (walked.1.map (Cursor.Answer.renamed ρ), walked.2.renamed ρ)

def Answer.renamed : Answer K V → Answer K V
  | .inserted result => .inserted (result.renamed ρ)
  | .walked result => .walked (result.map (renamedWalk ρ))
  | answer => answer

variable (c : Cache K V) (now : Instant) (id : SlotId) (key : K) (value : V)

/-- A cache whose identity is kept is kept altogether. -/
theorem renamed_of_fixes {c : Cache K V} (h : ρ.Fixes c.id) : c.renamed ρ = c := by
  simp [renamed, h.identity, h.offset]

section Steps

theorem validate_renamed (h : Handle) : (c.renamed ρ).validate (h.renamed ρ) = c.validate h := by
  by_cases howner : h.owner = c.id
  · simp [validate, Handle.renamed, renamed, howner]
  · simp [validate, Handle.renamed, renamed, howner]

theorem bump_renamed : (c.renamed ρ).bump = c.bump.renamed ρ := by
  have hnext : c.generation + ρ.offset c.id + 1 = c.generation + 1 + ρ.offset c.id := by
    rw [UInt64.add_assoc, UInt64.add_comm (ρ.offset c.id), UInt64.add_assoc]
  simp only [bump, renamed, hnext]

theorem forget_renamed : (c.renamed ρ).forget id = (c.forget id).renamed ρ := by
  have hmemo : (c.renamed ρ).lastAccessed = c.lastAccessed := rfl
  unfold forget
  rw [hmemo]
  split <;> rfl

theorem promote_renamed : (c.renamed ρ).promote now id = (c.promote now id).renamed ρ :=
  let stamped := c.order.modify id fun entry => { entry with stamp := now }
  bump_renamed ρ { c with order := stamped.moveToBack id }

theorem promoteOnAccess_renamed :
    (c.renamed ρ).promoteOnAccess now id = (c.promoteOnAccess now id).renamed ρ := by
  have hmode : (c.renamed ρ).mode = c.mode := rfl
  simp only [promoteOnAccess, hmode]
  cases c.mode with
  | onInsert => rfl
  | onAccess => exact c.promote_renamed ρ now id

variable [BEq K]

theorem resolve_renamed : (c.renamed ρ).resolve now key = (c.resolve now key).renamed ρ := by
  have hslot : (c.renamed ρ).slotOf key = c.slotOf key := rfl
  have horder : (c.renamed ρ).order = c.order := rfl
  have hpolicy : (c.renamed ρ).policy = c.policy := rfl
  simp only [resolve, hslot, horder, hpolicy, forget_renamed]
  cases c.slotOf key with
  | none => rfl
  | some id =>
    dsimp only
    cases c.order.get? id with
    | none => rfl
    | some entry =>
      dsimp only
      split <;> rfl

theorem evictFront_renamed : (c.renamed ρ).evictFront = c.evictFront.renamed ρ := by
  have horder : (c.renamed ρ).order = c.order := rfl
  simp only [evictFront, horder]
  cases c.order.popFront? with
  | none => rfl
  | some x =>
    obtain ⟨id, entry, order⟩ := x
    have hforget := forget_renamed ρ { c with order, index := c.index.erase entry.key } id
    exact congrArg (fun d : Cache K V => ({ result := _, cache := d, notices := _ } :
      Outcome K V (Option (Entry K V)))) hforget

theorem evictWhile_renamed (due : Cache K V → Bool) (hdue : ∀ c, due (renamed ρ c) = due c)
    (fuel : Nat) : evictWhile due fuel (c.renamed ρ) = (evictWhile due fuel c).renamed ρ := by
  induction fuel generalizing c with
  | zero => rfl
  | succ fuel ih =>
    have hresult : (c.evictFront.renamed ρ).result = c.evictFront.result := rfl
    have hrest : evictWhile due fuel (c.evictFront.renamed ρ).cache = _ := ih c.evictFront.cache
    simp only [evictWhile, hdue, evictFront_renamed, hresult, hrest]
    split
    · cases c.evictFront.result <;> rfl
    · rfl

omit [BEq K] in
theorem audited_map_renamed (f : α → β) (o : Outcome K V α) :
    audited ((o.map f).renamed ρ) = (audited o).map fun o => (o.map f).renamed ρ := by
  have hsize : ((o.map f).renamed ρ).cache.index.size = o.cache.index.size := rfl
  have hlen : ((o.map f).renamed ρ).cache.order.len = o.cache.order.len := rfl
  simp only [audited, hsize, hlen]
  split <;> rfl

omit [BEq K] in
theorem audited_renamed (o : Outcome K V α) :
    audited (o.renamed ρ) = (audited o).map (Outcome.renamed ρ) :=
  audited_map_renamed ρ (fun x => x) o

end Steps

section Updates

/-- The outcome of an insertion. -/
def renamedInsertion (o : Outcome K V Insertion) : Outcome K V Insertion :=
  (o.map (Insertion.renamed ρ)).renamed ρ

theorem replace_renamed :
    (c.renamed ρ).replace now id value = renamedInsertion ρ (c.replace now id value) := by
  have hpromote := promote_renamed ρ
    { c with order := c.order.modify id fun entry => { entry with value } } now id
  exact congrArg (fun d : Cache K V => ({
    result := ⟨false, handle { d with lastAccessed := some id } (some id)⟩
    cache := { d with lastAccessed := some id } } : Outcome K V Insertion)) hpromote

variable [BEq K]

theorem append_renamed :
    (c.renamed ρ).append now key value = renamedInsertion ρ (c.append now key value) := by
  have horder : (c.renamed ρ).order = c.order := rfl
  simp only [append, horder]
  obtain ⟨id, order⟩ := c.order.pushBack { key, value, stamp := now }
  have hbump := bump_renamed ρ
    { c with order, index := c.index.insert key id, lastAccessed := some id }
  exact congrArg (fun d : Cache K V => ({ result := ⟨true, d.handle (some id)⟩, cache := d } :
    Outcome K V Insertion)) hbump

theorem insert_renamed : (c.renamed ρ).insert now key value =
    (c.insert now key value).map (renamedInsertion ρ) := by
  have hindex : (c.renamed ρ).index = c.index := rfl
  have hcapacity : (c.renamed ρ).capacity = c.capacity := rfl
  have hfull : (c.renamed ρ).isFull = c.isFull := rfl
  cases hg : c.index.get? key with
  | some id =>
    simp only [insert, hindex, hg, replace_renamed]
    rfl
  | none =>
    have happend : (c.evictFront.renamed ρ).cache.append now key value = _ :=
      c.evictFront.cache.append_renamed ρ now key value
    simp only [insert, hindex, hg, hcapacity, hfull, evictFront_renamed, happend, append_renamed]
    by_cases hc : c.capacity = 0
    · rw [if_pos hc, if_pos hc]
      rfl
    rw [if_neg hc, if_neg hc]
    split
    · exact audited_map_renamed ρ (Insertion.renamed ρ)
        ((c.evictFront.cache.append now key value).after c.evictFront.notices)
    · exact audited_map_renamed ρ (Insertion.renamed ρ) _

theorem insertAll_renamed (pairs : List (K × V)) : (c.renamed ρ).insertAll now pairs =
    (c.insertAll now pairs).map (Outcome.renamed ρ) := by
  induction pairs generalizing c with
  | nil => rfl
  | cons pair rest ih =>
    obtain ⟨key, value⟩ := pair
    simp only [insertAll, insert_renamed]
    cases c.insert now key value with
    | error e => rfl
    | ok first =>
      have hrest : (renamedInsertion ρ first).cache.insertAll now rest = _ := ih first.cache
      simp only [Except.map, bind, Except.bind, hrest]
      cases first.cache.insertAll now rest <;> rfl

theorem erase_renamed :
    (c.renamed ρ).erase key = (c.erase key).map (Outcome.renamed ρ) := by
  have hindex : (c.renamed ρ).index = c.index := rfl
  cases hg : c.index.get? key with
  | none =>
    simp only [erase, hindex, hg]
    rfl
  | some id =>
    have hforget : ({ c.renamed ρ with index := c.index.erase key } : Cache K V).forget id = _ :=
      forget_renamed ρ { c with index := c.index.erase key } id
    simp only [erase, hindex, hg, hforget]
    generalize ({ c with index := c.index.erase key } : Cache K V).forget id = d
    have horder : (d.renamed ρ).order = d.order := rfl
    have hbump (order : RecencyList (Entry K V)) :
        ({ d.renamed ρ with order } : Cache K V).bump = _ := bump_renamed ρ { d with order }
    rw [horder, hbump]
    exact audited_renamed ρ { result := true, cache := _ }

theorem eraseAt_renamed (h : Handle) :
    (c.renamed ρ).eraseAt (h.renamed ρ) = (c.eraseAt h).renamed ρ := by
  have horder : (c.renamed ρ).order = c.order := rfl
  simp only [eraseAt, validate_renamed, horder]
  cases c.validate h with
  | error e => rfl
  | ok slot =>
    dsimp only
    cases slot.bind fun id => (c.order.remove? id).map (id, ·) with
    | none => rfl
    | some x =>
      obtain ⟨id, entry, order⟩ := x
      have hforget := forget_renamed ρ { c with order, index := c.index.erase entry.key } id
      have hbump := bump_renamed ρ
        (({ c with order, index := c.index.erase entry.key } : Cache K V).forget id)
      rw [← hforget] at hbump
      exact congrArg (fun d : Cache K V => ({ result := _, cache := d } :
        Outcome K V (Except CacheError (K × V)))) hbump

theorem popFront_renamed : (c.renamed ρ).popFront = c.popFront.renamed ρ := by
  have hbump : (c.evictFront.renamed ρ).cache.bump = _ := bump_renamed ρ c.evictFront.cache
  have hresult : (c.evictFront.renamed ρ).result = c.evictFront.result := rfl
  simp only [popFront, evictFront_renamed, hbump, hresult]
  cases c.evictFront.result <;> rfl

omit [BEq K] in
theorem clear_renamed : (c.renamed ρ).clear = c.clear.renamed ρ :=
  bump_renamed ρ { c with index := {}, order := {}, lastAccessed := none }

theorem setCapacity_renamed (capacity : Nat) : (c.renamed ρ).setCapacity capacity =
    (c.setCapacity capacity).map (Outcome.renamed ρ) := by
  have horder : (c.renamed ρ).order = c.order := rfl
  have hevict := c.evictWhile_renamed ρ (fun c => capacity < c.len) (fun _ => rfl)
    c.order.slotCount
  simp only [setCapacity, horder, hevict]
  generalize evictWhile (fun c => capacity < c.len) c.order.slotCount c = evicted
  have hbump := bump_renamed ρ ({ evicted.cache with capacity } : Cache K V).compact.cache
  have hresult : (evicted.renamed ρ).result = evicted.result := rfl
  rw [hresult]
  split
  · exact audited_renamed ρ { evicted with
      result := (), cache := { evicted.cache with capacity } }
  · have hpacked := audited_renamed ρ {
      ({ evicted.cache with capacity } : Cache K V).compact with
      cache := ({ evicted.cache with capacity } : Cache K V).compact.cache.bump
      notices := evicted.notices ++ .trace (.shrank evicted.result capacity) ::
        ({ evicted.cache with capacity } : Cache K V).compact.notices }
    rw [← hpacked]
    exact congrArg (fun d : Cache K V => audited ({ result := (), cache := d, notices := _ } :
      Outcome K V Unit)) hbump

theorem purgeExpired_renamed : (c.renamed ρ).purgeExpired now =
    (c.purgeExpired now).map (Outcome.renamed ρ) := by
  have horder : (c.renamed ρ).order = c.order := rfl
  have hevict := c.evictWhile_renamed ρ (frontIsDead now) (fun _ => rfl) c.order.slotCount
  simp only [purgeExpired, horder, hevict]
  generalize evictWhile (frontIsDead now) c.order.slotCount c = purged
  have hbump : (purged.renamed ρ).cache.bump = _ := bump_renamed ρ purged.cache
  have hresult : (purged.renamed ρ).result = purged.result := rfl
  rw [hresult, hbump]
  split
  · exact audited_renamed ρ purged
  · exact audited_renamed ρ { purged with
      cache := purged.cache.bump
      notices := purged.notices ++ [.trace (.purged purged.result purged.cache.len)] }

end Updates

section Accesses

variable [BEq K]

theorem lookup_renamed : (c.renamed ρ).lookup now key = (c.lookup now key).renamed ρ := by
  simp only [lookup, resolve_renamed]
  generalize c.resolve now key = found
  have hentry : (found.renamed ρ).result.bind (found.renamed ρ).cache.order.get? =
      found.result.bind found.cache.order.get? := rfl
  rw [hentry]
  cases found.result.bind found.cache.order.get? <;> rfl

theorem lookupMut_renamed (update : V → V) :
    (c.renamed ρ).lookupMut now key update = (c.lookupMut now key update).renamed ρ := by
  simp only [lookupMut, resolve_renamed]
  generalize c.resolve now key = found
  have hresult : (found.renamed ρ).result = found.result := rfl
  rw [hresult]
  cases found.result with
  | none => rfl
  | some id =>
    have hpromoted : (found.renamed ρ).cache.promoteOnAccess now id = _ :=
      found.cache.promoteOnAccess_renamed ρ now id
    simp only [hpromoted]
    generalize found.cache.promoteOnAccess now id = d
    have horder : (d.renamed ρ).order = d.order := rfl
    rw [horder]
    cases d.order.get? id <;> rfl

theorem getOrInsert_renamed (make : K → V) : (c.renamed ρ).getOrInsert now key make =
    (c.getOrInsert now key make).map (Outcome.renamed ρ) := by
  simp only [getOrInsert, resolve_renamed]
  generalize c.resolve now key = found
  have hresult : (found.renamed ρ).result = found.result := rfl
  have hinsert (d : Cache K V) := d.insert_renamed ρ now key (make key)
  rw [hresult]
  cases found.result with
  | none =>
    have hstored : (found.renamed ρ).cache.insert now key (make key) = _ := hinsert found.cache
    simp only [Option.bind_none, hstored]
    cases found.cache.insert now key (make key) <;> rfl
  | some id =>
    have hpromoted : (found.renamed ρ).cache.promoteOnAccess now id = _ :=
      found.cache.promoteOnAccess_renamed ρ now id
    simp only [Option.bind_some, hpromoted, hinsert]
    generalize found.cache.promoteOnAccess now id = d
    have horder : (d.renamed ρ).order = d.order := rfl
    rw [horder]
    cases d.order.get? id with
    | none => cases d.insert now key (make key) <;> rfl
    | some entry => rfl

theorem touch_renamed : (c.renamed ρ).touch now key = (c.touch now key).renamed ρ := by
  simp only [touch, resolve_renamed]
  generalize c.resolve now key = found
  have hresult : (found.renamed ρ).result = found.result := rfl
  rw [hresult]
  cases found.result with
  | none => rfl
  | some id =>
    have hpromoted : (found.renamed ρ).cache.promote now id = _ :=
      found.cache.promote_renamed ρ now id
    simp only [hpromoted]
    rfl

end Accesses

section Reads

variable (x : Cursor)

theorem next?_renamed : (c.renamed ρ).next? (x.renamed ρ) =
    (c.next? x).map fun found => (found.1, found.2.renamed ρ) := by
  have hentry : (c.renamed ρ).entryAt (x.renamed ρ) = c.entryAt x := rfl
  simp only [next?, hentry]
  cases c.entryAt x <;> rfl

theorem drain_renamed (fuel : Nat) : (c.renamed ρ).drain fuel (x.renamed ρ) = c.drain fuel x := by
  induction fuel generalizing x with
  | zero => rfl
  | succ fuel ih =>
    simp only [drain, next?_renamed]
    cases c.next? x with
    | none => rfl
    | some found => simp only [Option.map_some, ih]

theorem moveCursor_renamed (move : Cursor.Move) :
    (c.renamed ρ).moveCursor (x.renamed ρ) move =
      ((c.moveCursor x move).1.renamed ρ, (c.moveCursor x move).2.renamed ρ) := by
  cases move with
  | retreat =>
    have hretreat : (c.renamed ρ).retreat? (x.renamed ρ) =
        (c.retreat? x).map (Cursor.renamed ρ) := by
      simp only [retreat?, Option.map_map]
      rfl
    simp only [moveCursor, hretreat]
    cases c.retreat? x <;> rfl
  | next =>
    simp only [moveCursor, next?_renamed]
    cases c.next? x <;> rfl
  | rest =>
    have hrest : (c.renamed ρ).rest (x.renamed ρ) = c.rest x := c.drain_renamed ρ x _
    simp only [moveCursor, hrest]
    rfl
  | toOrdered =>
    have hordered : (x.renamed ρ).toOrdered = x.toOrdered.map (Cursor.renamed ρ) := by
      obtain ⟨owner, kind, position⟩ := x
      cases position <;> rfl
    simp only [moveCursor, hordered]
    cases x.toOrdered <;> rfl
  | _ => rfl

theorem walkCursor_renamed (moves : List Cursor.Move) :
    (c.renamed ρ).walkCursor (x.renamed ρ) moves = renamedWalk ρ (c.walkCursor x moves) := by
  induction moves generalizing x with
  | nil => rfl
  | cons move moves ih =>
    simp only [walkCursor, moveCursor_renamed, ih]
    rfl

theorem traverseAll_renamed (t : Traversal) (moves : List Traversal.Move) :
    (c.renamed ρ).traverseAll t moves = c.traverseAll t moves := by
  have hmove (t : Traversal) (move : Traversal.Move) :
      (c.renamed ρ).traverse t move = c.traverse t move := by
    cases move <;> rfl
  induction moves generalizing t with
  | nil => rfl
  | cons move moves ih => simp only [traverseAll, hmove, ih]

variable [BEq K]

theorem checkNodes_renamed (prev : Option SlotId) (budget : Nat) (slot : Option SlotId) :
    (c.renamed ρ).checkNodes prev budget slot = c.checkNodes prev budget slot := by
  induction budget generalizing prev slot with
  | zero =>
    cases slot with
    | none => rfl
    | some id =>
      simp only [checkNodes]
      rfl
  | succ budget ih =>
    cases slot with
    | none => rfl
    | some id =>
      simp only [checkNodes, ih]
      rfl

theorem checkInvariants_renamed : (c.renamed ρ).checkInvariants = c.checkInvariants := by
  simp only [checkInvariants, checkNodes_renamed]
  rfl

theorem walk_renamed (start : Cursor.Start K) (moves : List Cursor.Move) :
    (c.renamed ρ).walk now (start.renamed ρ) moves =
      ((c.walk now start moves).map fun result => result.map (renamedWalk ρ)).renamed ρ := by
  have hstart : (c.renamed ρ).startCursor now (start.renamed ρ) =
      ((c.startCursor now start).map fun result => result.map (Cursor.renamed ρ)).renamed ρ := by
    cases start with
    | find key =>
      simp only [Cursor.Start.renamed, startCursor, find, resolve_renamed]
      rfl
    | handle kind h =>
      simp only [Cursor.Start.renamed, startCursor, cursorAt, validate_renamed]
      cases c.validate h <;> rfl
    | _ => rfl
  simp only [walk, hstart]
  generalize c.startCursor now start = opened
  obtain ⟨result, d, notices⟩ := opened
  cases result with
  | error e => rfl
  | ok x =>
    have hwalk := d.walkCursor_renamed ρ x moves
    exact congrArg (fun walked => ({ result := .ok walked, cache := d.renamed ρ, notices } :
      Outcome K V (Except CacheError (List (Cursor.Answer K V) × Cursor)))) hwalk

end Reads

section Requests

/-- The outcome of a request. -/
def renamedOutcome (o : Outcome K V (Answer K V)) : Outcome K V (Answer K V) :=
  (o.map (Answer.renamed ρ)).renamed ρ

/-- A result `f` that holds no handle. -/
theorem ok_renamed {o p : Outcome K V α} (h : p = o.renamed ρ) {f : α → Answer K V}
    (hf : ∀ a, (f a).renamed ρ = f a) :
    (.ok (p.map f) : Except Fault _) = (Except.ok (o.map f)).map (renamedOutcome ρ) := by
  subst h
  exact congrArg (fun answer => Except.ok ({ result := answer, cache := _, notices := _ } :
    Outcome K V (Answer K V))) (hf o.result).symm

theorem map_renamed {x y : Except Fault (Outcome K V α)} (h : y = x.map (Outcome.renamed ρ))
    {f : α → Answer K V} (hf : ∀ a, (f a).renamed ρ = f a) :
    (·.map f) <$> y = ((·.map f) <$> x).map (renamedOutcome ρ) := by
  subst h
  cases x with
  | error e => rfl
  | ok o => exact ok_renamed ρ rfl hf

variable [BEq K]

/-- Under other identities a cache does the same, with the handles named otherwise. -/
theorem perform_renamed (command : Command K V) :
    (c.renamed ρ).perform now (command.renamed ρ) =
      (c.perform now command).map (renamedOutcome ρ) := by
  cases command with
  | insert key value =>
    simp only [Command.renamed, perform, insert_renamed]
    cases c.insert now key value <;> rfl
  | insertAll pairs => exact map_renamed ρ (c.insertAll_renamed ρ now pairs) fun _ => rfl
  | getOrInsert key make => exact map_renamed ρ (c.getOrInsert_renamed ρ now key make) fun _ => rfl
  | lookup key => exact ok_renamed ρ (c.lookup_renamed ρ now key) fun _ => rfl
  | lookupMut key update => exact ok_renamed ρ (c.lookupMut_renamed ρ now key update) fun _ => rfl
  | contains key =>
    simp only [Command.renamed, perform, contains, resolve_renamed]
    rfl
  | touch key => exact ok_renamed ρ (c.touch_renamed ρ now key) fun _ => rfl
  | erase key => exact map_renamed ρ (c.erase_renamed ρ key) fun _ => rfl
  | eraseAt h => exact ok_renamed ρ (c.eraseAt_renamed ρ h) fun _ => rfl
  | popFront => exact ok_renamed ρ (c.popFront_renamed ρ) fun _ => rfl
  | clear =>
    simp only [Command.renamed, perform, clear_renamed]
    rfl
  | setCapacity capacity => exact map_renamed ρ (c.setCapacity_renamed ρ capacity) fun _ => rfl
  | purgeExpired => exact map_renamed ρ (c.purgeExpired_renamed ρ now) fun _ => rfl
  | checkInvariants =>
    simp only [Command.renamed, perform, checkInvariants_renamed]
    rfl
  | cursor start moves =>
    simp only [Command.renamed, perform, walk_renamed]
    rfl
  | traverse moves =>
    simp only [Command.renamed, perform, traverseAll_renamed]
    rfl
  | _ => rfl

theorem readsClock_renamed (command : Command K V) :
    (c.renamed ρ).readsClock (command.renamed ρ) = c.readsClock command := by
  cases command with
  | cursor start moves => cases start <;> rfl
  | _ => rfl

end Requests

end Cache

end Lru
