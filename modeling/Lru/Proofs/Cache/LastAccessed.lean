import Lru.Cache.Command
import Lru.Proofs.Cache.Generations

/-! # The last accessed slot does not show

Trying the last accessed slot before the index is a short cut. Whatever stands
there, an occupied slot, a vacant one or none at all, a request gets the same
answer, makes the same announcements and leaves the same cache up to that slot.
Only the audit looks at it.
-/

namespace Lru

variable {K V α β : Type}

namespace Cache

/-- An answer without what the audit says. -/
def Answer.unaudited : Answer K V → Answer K V
  | .audit _ => .audit (.ok ())
  | answer => answer

end Cache

/-- The outcome with another last accessed slot. -/
def Outcome.remembering (o : Outcome K V α) (memo : Option SlotId) : Outcome K V α :=
  { o with cache := o.cache.remembering memo }

/-- The outcomes differ at most in the last accessed slot. -/
def Outcome.Alike (o o' : Outcome K V α) : Prop :=
  ∃ memo, o = o'.remembering memo

/-- Both fail in the same way, or their outcomes differ at most in the last accessed slot. -/
def Outcome.AlikeOr (x y : Except Fault (Outcome K V α)) : Prop :=
  ∃ memo, x = y.map (·.remembering memo)

namespace Outcome

variable {o o' : Outcome K V α} {x y : Except Fault (Outcome K V α)}

theorem Alike.refl (o : Outcome K V α) : o.Alike o :=
  ⟨o.cache.lastAccessed, rfl⟩

theorem Alike.map (h : o.Alike o') (f : α → β) : (o.map f).Alike (o'.map f) := by
  obtain ⟨memo, rfl⟩ := h
  exact ⟨memo, rfl⟩

theorem Alike.ok (h : o.Alike o') : AlikeOr (.ok o) (.ok o') := by
  obtain ⟨memo, rfl⟩ := h
  exact ⟨memo, rfl⟩

theorem AlikeOr.map (h : AlikeOr x y) (f : α → β) :
    AlikeOr ((·.map f) <$> x) ((·.map f) <$> y) := by
  obtain ⟨memo, rfl⟩ := h
  refine ⟨memo, ?_⟩
  cases y <;> rfl

/-- What a request shows: all but the last accessed slot and what the audit says of it. -/
def shown (o : Outcome K V (Cache.Answer K V)) : Outcome K V (Cache.Answer K V) :=
  { o with result := o.result.unaudited, cache := o.cache.remembering none }

theorem AlikeOr.shown {x y : Except Fault (Outcome K V (Cache.Answer K V))} (h : AlikeOr x y) :
    x.map shown = y.map shown := by
  obtain ⟨memo, rfl⟩ := h
  cases y <;> rfl

theorem Alike.shown {o o' : Outcome K V (Cache.Answer K V)} (h : o.Alike o') :
    (Except.ok o : Except Fault _).map Outcome.shown = (Except.ok o').map Outcome.shown :=
  AlikeOr.shown h.ok

end Outcome

namespace Cache

open Outcome

variable [BEq K] (c : Cache K V) (memo : Option SlotId) (now : Instant)

section Steps

omit [BEq K] in
theorem forget_remembering (id : SlotId) :
    ∃ memo', (c.remembering memo).forget id = (c.forget id).remembering memo' := by
  rw [forget_eq, forget_eq]
  exact ⟨memo.filter (· != id), rfl⟩

theorem evictFront_remembering : (c.remembering memo).evictFront.Alike c.evictFront := by
  cases h : c.order.popFront? with
  | none =>
    refine ⟨memo, ?_⟩
    simp only [evictFront, remembering, h]
    rfl
  | some x =>
    obtain ⟨id, entry, order⟩ := x
    obtain ⟨memo', h'⟩ := forget_remembering
      ({ c with order, index := c.index.erase entry.key } : Cache K V) memo id
    refine ⟨memo', ?_⟩
    simp only [remembering] at h'
    simp only [evictFront, remembering, h, h']
    rfl

theorem evictWhile_remembering (due : Cache K V → Bool)
    (hdue : ∀ c memo, due (remembering c memo) = due c) (fuel : Nat) :
    (evictWhile due fuel (c.remembering memo)).Alike (evictWhile due fuel c) := by
  induction fuel generalizing c memo with
  | zero => exact ⟨memo, rfl⟩
  | succ fuel ih =>
    obtain ⟨memo', h⟩ := evictFront_remembering c memo
    obtain ⟨memo'', h'⟩ := ih c.evictFront.cache memo'
    simp only [evictWhile, hdue, h]
    split
    · simp only [Outcome.remembering]
      split
      · exact ⟨memo, rfl⟩
      · rw [h']
        exact ⟨memo'', rfl⟩
    · exact ⟨memo, rfl⟩

omit [BEq K] in
theorem audited_alike {o o' : Outcome K V α} (h : o.Alike o') :
    AlikeOr (audited o) (audited o') := by
  obtain ⟨memo, rfl⟩ := h
  refine ⟨memo, ?_⟩
  by_cases h : o'.cache.index.size = o'.cache.order.len
  · rw [audited, audited, if_pos h]
    exact if_pos h
  · rw [audited, audited, if_neg h]
    exact if_neg h

end Steps

section Updates

theorem insert_remembering (key : K) (value : V) :
    AlikeOr ((c.remembering memo).insert now key value) (c.insert now key value) := by
  have hfull : (c.remembering memo).isFull = c.isFull := rfl
  cases hg : c.index.get? key with
  | some id =>
    simp only [insert, index_remembering, hg]
    exact Alike.ok ⟨some id, rfl⟩
  | none =>
    simp only [insert, index_remembering, capacity_remembering, hfull, hg]
    by_cases hc : c.capacity = 0
    · rw [if_pos hc, if_pos hc]
      exact Alike.ok ⟨memo, rfl⟩
    rw [if_neg hc, if_neg hc]
    cases hf : c.isFull with
    | true =>
      obtain ⟨memo', h⟩ := evictFront_remembering c memo
      simp only [h, if_true]
      exact audited_alike (.refl _)
    | false => exact audited_alike (.refl _)

theorem insertAll_remembering (pairs : List (K × V)) :
    AlikeOr ((c.remembering memo).insertAll now pairs) (c.insertAll now pairs) := by
  induction pairs generalizing c memo with
  | nil => exact ⟨memo, rfl⟩
  | cons pair rest ih =>
    obtain ⟨key, value⟩ := pair
    obtain ⟨memo', h⟩ := insert_remembering c memo now key value
    cases hfirst : c.insert now key value with
    | error e =>
      refine ⟨memo', ?_⟩
      simp only [insertAll, h, hfirst]
      rfl
    | ok first =>
      obtain ⟨memo'', h'⟩ := ih first.cache memo'
      refine ⟨memo'', ?_⟩
      simp only [insertAll, h, hfirst, Except.map, bind, Except.bind, Outcome.remembering, h']
      cases first.cache.insertAll now rest <;> rfl

theorem erase_remembering (key : K) :
    AlikeOr ((c.remembering memo).erase key) (c.erase key) := by
  cases hg : c.index.get? key with
  | none =>
    refine ⟨memo, ?_⟩
    simp only [erase, remembering, hg]
    rfl
  | some id =>
    simp only [erase, remembering, hg, forget_eq]
    exact audited_alike ⟨_, rfl⟩

theorem eraseAt_remembering (g : Handle) :
    ((c.remembering memo).eraseAt g).Alike (c.eraseAt g) := by
  have hv : (c.remembering memo).validate g = c.validate g := rfl
  cases h : c.validate g with
  | error e =>
    rw [eraseAt_of_error h, eraseAt_of_error (hv.trans h)]
    exact ⟨memo, rfl⟩
  | ok slot =>
    simp only [eraseAt, hv, h]
    cases hr : slot.bind fun id => (c.order.remove? id).map (id, ·) with
    | none =>
      refine ⟨memo, ?_⟩
      simp only [remembering, hr]
      rfl
    | some x =>
      obtain ⟨id, entry, order⟩ := x
      simp only [remembering, hr, forget_eq]
      exact ⟨memo.filter (· != id), rfl⟩

theorem popFront_remembering : (c.remembering memo).popFront.Alike c.popFront := by
  obtain ⟨memo', h⟩ := evictFront_remembering c memo
  simp only [popFront, h, Outcome.remembering]
  split
  · exact ⟨memo, rfl⟩
  · exact ⟨memo', rfl⟩

theorem setCapacity_remembering (capacity : Nat) :
    AlikeOr ((c.remembering memo).setCapacity capacity) (c.setCapacity capacity) := by
  obtain ⟨memo', h⟩ := evictWhile_remembering c memo (fun c => capacity < c.len)
    (fun _ _ => rfl) c.order.slotCount
  simp only [setCapacity, order_remembering, h, Outcome.remembering]
  split
  · exact audited_alike ⟨memo', rfl⟩
  · exact audited_alike ⟨none, rfl⟩

theorem purgeExpired_remembering :
    AlikeOr ((c.remembering memo).purgeExpired now) (c.purgeExpired now) := by
  obtain ⟨memo', h⟩ := evictWhile_remembering c memo (frontIsDead now)
    (fun _ _ => rfl) c.order.slotCount
  have hresult : ((evictWhile (frontIsDead now) c.order.slotCount c).remembering memo').result =
      (evictWhile (frontIsDead now) c.order.slotCount c).result := rfl
  simp only [purgeExpired, order_remembering, h, hresult]
  split
  · exact audited_alike ⟨memo', rfl⟩
  · exact audited_alike ⟨memo', rfl⟩

end Updates

section Accesses

variable {c} {items : List (SlotId × Entry K V)} {free : List SlotId}

variable [PartialEquivBEq K]

theorem Holds.slotOf_remembering (h : c.Holds items free) (memo : Option SlotId) (key : K) :
    (c.remembering memo).slotOf key = c.slotOf key :=
  ((h.remembering memo).slotOf_eq key).trans (h.slotOf_eq key).symm

/-- Looking for a live entry finds the same one, whatever was accessed last. -/
theorem Holds.resolve_remembering (h : c.Holds items free) (memo : Option SlotId) (now : Instant)
    (key : K) : ((c.remembering memo).resolve now key).Alike (c.resolve now key) := by
  have hpolicy : (c.remembering memo).policy = c.policy := rfl
  simp only [resolve, h.slotOf_remembering, order_remembering, hpolicy]
  cases c.slotOf key with
  | none => exact ⟨memo, rfl⟩
  | some id =>
    cases hg : c.order.get? id with
    | none =>
      simp only [hg]
      exact ⟨memo, rfl⟩
    | some entry =>
      simp only [hg]
      cases hl : c.policy.isLive now entry.stamp with
      | true => exact .refl _
      | false =>
        obtain ⟨memo', h'⟩ := forget_remembering c memo id
        simp only [h']
        exact ⟨memo', rfl⟩

theorem Holds.lookup_remembering (h : c.Holds items free) (memo : Option SlotId) (now : Instant)
    (key : K) : ((c.remembering memo).lookup now key).Alike (c.lookup now key) := by
  obtain ⟨memo', h'⟩ := h.resolve_remembering memo now key
  simp only [Cache.lookup, h', Outcome.remembering, order_remembering]
  cases (c.resolve now key).result.bind (c.resolve now key).cache.order.get? with
  | none => exact ⟨memo', rfl⟩
  | some entry => exact ⟨memo', rfl⟩

omit [BEq K] [PartialEquivBEq K] in
theorem promoteOnAccess_remembering (c : Cache K V) (memo : Option SlotId) (now : Instant)
    (id : SlotId) :
    (c.remembering memo).promoteOnAccess now id =
      (c.promoteOnAccess now id).remembering memo := by
  cases hm : c.mode with
  | onInsert => simp only [promoteOnAccess, mode_remembering, hm]
  | onAccess =>
    simp only [promoteOnAccess, mode_remembering, hm]
    rfl

theorem Holds.lookupMut_remembering (h : c.Holds items free) (memo : Option SlotId)
    (now : Instant) (key : K) (update : V → V) :
    ((c.remembering memo).lookupMut now key update).Alike (c.lookupMut now key update) := by
  obtain ⟨memo', h'⟩ := h.resolve_remembering memo now key
  simp only [Cache.lookupMut, h', Outcome.remembering]
  cases (c.resolve now key).result with
  | none => exact ⟨memo', rfl⟩
  | some id =>
    simp only [promoteOnAccess_remembering, order_remembering]
    cases ((c.resolve now key).cache.promoteOnAccess now id).order.get? id with
    | none => exact ⟨memo', rfl⟩
    | some entry => exact ⟨memo', rfl⟩

theorem Holds.getOrInsert_remembering (h : c.Holds items free) (memo : Option SlotId)
    (now : Instant) (key : K) (make : K → V) :
    AlikeOr ((c.remembering memo).getOrInsert now key make) (c.getOrInsert now key make) := by
  obtain ⟨memo', h'⟩ := h.resolve_remembering memo now key
  simp only [Cache.getOrInsert, h', Outcome.remembering]
  cases hr : (c.resolve now key).result with
  | none =>
    obtain ⟨memo'', hi⟩ :=
      insert_remembering (c.resolve now key).cache memo' now key (make key)
    refine ⟨memo'', ?_⟩
    simp only [Option.bind_none, hi]
    cases (c.resolve now key).cache.insert now key (make key) <;> rfl
  | some id =>
    simp only [promoteOnAccess_remembering, Option.bind_some, order_remembering]
    cases ((c.resolve now key).cache.promoteOnAccess now id).order.get? id with
    | none =>
      obtain ⟨memo'', hi⟩ := insert_remembering
        ((c.resolve now key).cache.promoteOnAccess now id) memo' now key (make key)
      refine ⟨memo'', ?_⟩
      simp only [hi]
      cases ((c.resolve now key).cache.promoteOnAccess now id).insert now key (make key) <;> rfl
    | some entry => exact ⟨memo', rfl⟩

theorem Holds.touch_remembering (h : c.Holds items free) (memo : Option SlotId) (now : Instant)
    (key : K) : ((c.remembering memo).touch now key).Alike (c.touch now key) := by
  obtain ⟨memo', h'⟩ := h.resolve_remembering memo now key
  simp only [Cache.touch, h', Outcome.remembering]
  cases (c.resolve now key).result with
  | none => exact ⟨memo', rfl⟩
  | some id => exact ⟨memo', rfl⟩

end Accesses

section Reads

omit [BEq K] in
theorem drain_remembering (fuel : Nat) (x : Cursor) :
    (c.remembering memo).drain fuel x = c.drain fuel x := by
  induction fuel generalizing x with
  | zero => rfl
  | succ fuel ih =>
    have hnext : (c.remembering memo).next? x = c.next? x := rfl
    simp only [drain, hnext, ih]

omit [BEq K] in
theorem moveCursor_remembering (x : Cursor) (move : Cursor.Move) :
    (c.remembering memo).moveCursor x move = c.moveCursor x move := by
  cases move with
  | rest =>
    simp only [moveCursor, rest, drain_remembering]
    rfl
  | _ => rfl

omit [BEq K] in
theorem walkCursor_remembering (x : Cursor) (moves : List Cursor.Move) :
    (c.remembering memo).walkCursor x moves = c.walkCursor x moves := by
  induction moves generalizing x with
  | nil => rfl
  | cons move moves ih => simp only [walkCursor, moveCursor_remembering, ih]

omit [BEq K] in
theorem traverseAll_remembering (t : Traversal) (moves : List Traversal.Move) :
    (c.remembering memo).traverseAll t moves = c.traverseAll t moves := by
  induction moves generalizing t with
  | nil => rfl
  | cons move moves ih =>
    have hmove : (c.remembering memo).traverse t move = c.traverse t move := by cases move <;> rfl
    simp only [traverseAll, hmove, ih]

variable {c} {items : List (SlotId × Entry K V)} {free : List SlotId}

theorem Holds.isExpired_remembering [PartialEquivBEq K] (h : c.Holds items free)
    (memo : Option SlotId) (now : Instant) (key : K) :
    (c.remembering memo).isExpired now key = c.isExpired now key := by
  simp only [isExpired, h.slotOf_remembering]
  rfl

theorem Holds.remainingTtl_remembering [PartialEquivBEq K] (h : c.Holds items free)
    (memo : Option SlotId) (now : Instant) (key : K) :
    (c.remembering memo).remainingTtl now key = c.remainingTtl now key := by
  simp only [remainingTtl, h.slotOf_remembering]
  rfl

theorem Holds.walk_remembering [PartialEquivBEq K] (h : c.Holds items free)
    (memo : Option SlotId) (now : Instant) (start : Cursor.Start K) (moves : List Cursor.Move) :
    ((c.remembering memo).walk now start moves).Alike (c.walk now start moves) := by
  have hstart : ((c.remembering memo).startCursor now start).Alike (c.startCursor now start) := by
    cases start with
    | find key =>
      obtain ⟨memo', h'⟩ := h.resolve_remembering memo now key
      simp only [Cache.startCursor, Cache.find, h']
      exact ⟨memo', rfl⟩
    | _ => exact ⟨memo, rfl⟩
  obtain ⟨memo', h'⟩ := hstart
  refine ⟨memo', ?_⟩
  simp only [walk, h', Outcome.remembering, Outcome.map, walkCursor_remembering]

end Reads

section Requests

theorem Holds.readsClock_remembering [PartialEquivBEq K] {c : Cache K V}
    {items : List (SlotId × Entry K V)} {free : List SlotId} (h : c.Holds items free)
    (memo : Option SlotId) (command : Command K V) :
    (c.remembering memo).readsClock command = c.readsClock command := by
  have hentry (key : K) : (c.remembering memo).hasEntry key = c.hasEntry key := by
    rw [hasEntry, hasEntry, h.slotOf_remembering, order_remembering]
  have hstores (key : K) : (c.remembering memo).storesOnInsert key = c.storesOnInsert key := rfl
  have hjudges : (c.remembering memo).judgesOrStamps command = c.judgesOrStamps command := by
    cases command with
    | cursor start moves => cases start <;> simp only [judgesOrStamps, hentry]
    | _ => simp only [judgesOrStamps, hentry, hstores, order_remembering]
  rw [readsClock, readsClock, hjudges]
  rfl

/-- Overwriting the last accessed slot before a request does not show in its outcome. -/
theorem Coherent.perform_remembering [PartialEquivBEq K] {c : Cache K V} (h : c.Coherent)
    (memo : Option SlotId) (now : Instant) (command : Command K V) :
    ((c.remembering memo).perform now command).map shown = (c.perform now command).map shown := by
  obtain ⟨items, free, h⟩ := h
  cases command with
  | insert key value => exact ((insert_remembering c memo now key value).map _).shown
  | insertAll pairs => exact ((insertAll_remembering c memo now pairs).map _).shown
  | getOrInsert key make => exact ((h.getOrInsert_remembering memo now key make).map _).shown
  | lookup key => exact ((h.lookup_remembering memo now key).map _).shown
  | lookupMut key update => exact ((h.lookupMut_remembering memo now key update).map _).shown
  | contains key => exact (((h.resolve_remembering memo now key).map _).map _).shown
  | touch key => exact ((h.touch_remembering memo now key).map _).shown
  | erase key => exact ((erase_remembering c memo key).map _).shown
  | eraseAt g => exact ((eraseAt_remembering c memo g).map _).shown
  | popFront => exact ((popFront_remembering c memo).map _).shown
  | clear => rfl
  | setCapacity capacity => exact ((setCapacity_remembering c memo capacity).map _).shown
  | purgeExpired => exact ((purgeExpired_remembering c memo now).map _).shown
  | isExpired key =>
    simp only [Cache.perform, h.isExpired_remembering]
    rfl
  | remainingTtl key =>
    simp only [Cache.perform, h.remainingTtl_remembering]
    rfl
  | cursor start moves => exact ((h.walk_remembering memo now start moves).map _).shown
  | traverse moves =>
    simp only [Cache.perform, traverseAll_remembering]
    rfl
  | _ => rfl

end Requests

end Cache

end Lru
