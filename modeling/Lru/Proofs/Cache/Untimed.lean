import Lru.Proofs.Mapping
import Lru.Proofs.Reference.View

/-! # A cache without its clock

Take the stamps and the time to live away from a cache. While all its entries
are live, what is left answers every request that does not ask about time as
the cache does, makes the same announcements, and stays what is left of it.
-/

namespace Lru

variable {K V α β : Type}

/-- The entry without its stamp. -/
def Entry.unstamped (e : Entry K V) : Entry K V :=
  { e with stamp := 0 }

/-- The cache without its stamps and its time to live. -/
def Cache.untimed (c : Cache K V) : Cache K V :=
  { c with order := c.order.map Entry.unstamped, policy := .capacity }

def Outcome.untimed (o : Outcome K V α) : Outcome K V α :=
  { o with cache := o.cache.untimed }

/-- Whether a request asks about the age of entries. A cache without a time to live has no answer
to it. -/
def Cache.Command.timed : Cache.Command K V → Bool
  | .isExpired _ | .remainingTtl _ | .allExpired | .purgeExpired => true
  | _ => false

namespace Cache

/-- Every stored entry is live. -/
def AllLive (c : Cache K V) (now : Instant) : Prop :=
  ∀ id entry, c.order.get? id = some entry → c.policy.isLive now entry.stamp = true

variable (c : Cache K V) (now : Instant) (id : SlotId) (key : K) (value : V)

section Steps

@[simp] theorem order_untimed : c.untimed.order = c.order.map Entry.unstamped := rfl

@[simp] theorem lastAccessed_untimed : c.untimed.lastAccessed = c.lastAccessed := rfl

@[simp] theorem index_untimed : c.untimed.index = c.index := rfl

theorem validate_untimed (h : Handle) : c.untimed.validate h = c.validate h := rfl

theorem forget_untimed : c.untimed.forget id = (c.forget id).untimed := by
  unfold forget
  rw [lastAccessed_untimed]
  split <;> rfl

theorem promote_untimed : c.untimed.promote 0 id = (c.promote now id).untimed := by
  have hstamped := c.order.modify_map Entry.unstamped id (fun e => { e with stamp := now })
    (fun e => { e with stamp := 0 }) fun _ => rfl
  simp only [promote, order_untimed, hstamped, RecencyList.moveToBack_map]
  rfl

theorem write_untimed (f : V → V) :
    ({ c.untimed with order := c.untimed.order.modify id fun e => { e with value := f e.value } } :
      Cache K V) =
    ({ c with order := c.order.modify id fun e => { e with value := f e.value } } :
      Cache K V).untimed := by
  have hwritten := c.order.modify_map Entry.unstamped id
    (fun e => { e with value := f e.value }) (fun e => { e with value := f e.value })
    fun _ => rfl
  simp only [untimed, hwritten]

theorem promoteOnAccess_untimed :
    c.untimed.promoteOnAccess 0 id = (c.promoteOnAccess now id).untimed := by
  have hmode : c.untimed.mode = c.mode := rfl
  simp only [promoteOnAccess, hmode]
  cases c.mode with
  | onInsert => rfl
  | onAccess => exact c.promote_untimed now id

variable [BEq K]

theorem slotOf_untimed : c.untimed.slotOf key = c.slotOf key := by
  have hholds : c.untimed.holdsAt key = c.holdsAt key := by
    funext id
    rw [holdsAt, order_untimed, RecencyList.get?_map, Option.any_map]
    rfl
  rw [slotOf, hholds]
  rfl

variable {c now} in
/-- Finding a key comes to the same where the entry found is live anyway. -/
theorem AllLive.resolve_untimed (h : c.AllLive now) (key : K) :
    c.untimed.resolve 0 key = (c.resolve now key).untimed := by
  simp only [resolve, slotOf_untimed]
  cases c.slotOf key with
  | none => rfl
  | some id =>
    cases hg : c.order.get? id with
    | none =>
      simp only [order_untimed, RecencyList.get?_map, hg, Option.map_none]
      rfl
    | some entry =>
      have hlive : c.untimed.policy.isLive 0 entry.unstamped.stamp = true := rfl
      simp only [order_untimed, RecencyList.get?_map, hg, Option.map_some, hlive, h id entry hg,
        if_true]
      rfl

theorem evictFront_untimed : c.untimed.evictFront.result =
      c.evictFront.result.map Entry.unstamped ∧
    c.untimed.evictFront.cache = c.evictFront.cache.untimed ∧
    c.untimed.evictFront.notices = c.evictFront.notices := by
  simp only [evictFront, order_untimed, RecencyList.popFront?_map]
  cases c.order.popFront? with
  | none => exact ⟨rfl, rfl, rfl⟩
  | some x =>
    obtain ⟨id, entry, order⟩ := x
    refine ⟨rfl, ?_, rfl⟩
    exact forget_untimed { c with order, index := c.index.erase entry.key } id

theorem evictWhile_untimed (due : Cache K V → Bool) (hdue : ∀ c, due (untimed c) = due c)
    (fuel : Nat) : evictWhile due fuel c.untimed = (evictWhile due fuel c).untimed := by
  induction fuel generalizing c with
  | zero => rfl
  | succ fuel ih =>
    obtain ⟨hresult, hcache, hnotices⟩ := c.evictFront_untimed
    simp only [evictWhile, hdue, hresult, hcache, hnotices, ih]
    split
    · cases c.evictFront.result with
      | none => rfl
      | some entry => rfl
    · rfl

omit [BEq K] in
theorem audited_untimed (o : Outcome K V α) :
    audited o.untimed = (audited o).map Outcome.untimed := by
  have hsize : o.untimed.cache.index.size = o.cache.index.size := rfl
  have hlen : o.untimed.cache.order.len = o.cache.order.len := rfl
  simp only [audited, hsize, hlen]
  split <;> rfl

end Steps

section Updates

variable [BEq K]

theorem append_untimed : c.untimed.append 0 key value = (c.append now key value).untimed := by
  have hpush : (c.order.map Entry.unstamped).pushBack { key, value, stamp := 0 } = _ :=
    c.order.pushBack_map Entry.unstamped { key, value, stamp := now }
  simp only [append, order_untimed, hpush]
  rfl

omit [BEq K] in
theorem replace_untimed : c.untimed.replace 0 id value = (c.replace now id value).untimed := by
  have hwrite := c.write_untimed id fun _ => value
  have hpromote := promote_untimed
    { c with order := c.order.modify id fun entry => { entry with value } } now id
  simp only [replace, hwrite, hpromote]
  rfl

theorem insert_untimed :
    c.untimed.insert 0 key value = (c.insert now key value).map Outcome.untimed := by
  have hcapacity : c.untimed.capacity = c.capacity := rfl
  have hfull : c.untimed.isFull = c.isFull := rfl
  cases hg : c.index.get? key with
  | some id =>
    simp only [insert, index_untimed, hg, c.replace_untimed now]
    rfl
  | none =>
    obtain ⟨-, hcache, hnotices⟩ := c.evictFront_untimed
    simp only [insert, index_untimed, hg, hcapacity, hfull, hcache, hnotices,
      append_untimed _ now]
    by_cases hc : c.capacity = 0
    · rw [if_pos hc, if_pos hc]
      rfl
    rw [if_neg hc, if_neg hc]
    split
    · exact audited_untimed
        ((c.evictFront.cache.append now key value).after c.evictFront.notices)
    · exact audited_untimed _

theorem insertAll_untimed (pairs : List (K × V)) :
    c.untimed.insertAll 0 pairs = (c.insertAll now pairs).map Outcome.untimed := by
  induction pairs generalizing c with
  | nil => rfl
  | cons pair rest ih =>
    obtain ⟨key, value⟩ := pair
    simp only [insertAll, c.insert_untimed now]
    cases c.insert now key value with
    | error e => rfl
    | ok first =>
      have hrest : first.untimed.cache.insertAll 0 rest = _ := ih first.cache
      simp only [Except.map, bind, Except.bind, hrest]
      cases first.cache.insertAll now rest <;> rfl

theorem erase_untimed : c.untimed.erase key = (c.erase key).map Outcome.untimed := by
  cases hg : c.index.get? key with
  | none =>
    simp only [erase, index_untimed, hg]
    rfl
  | some id =>
    have hforget : ({ c.untimed with index := c.index.erase key } : Cache K V).forget id =
        (({ c with index := c.index.erase key } : Cache K V).forget id).untimed :=
      forget_untimed { c with index := c.index.erase key } id
    simp only [erase, index_untimed, hg, hforget]
    simp only [order_untimed, RecencyList.remove?_map]
    generalize ({ c with index := c.index.erase key } : Cache K V).forget id = d
    cases d.order.remove? id with
    | none => exact audited_untimed { result := true, cache := d.bump }
    | some x =>
      exact audited_untimed { result := true, cache := ({ d with order := x.2 } : Cache K V).bump }

theorem eraseAt_untimed (h : Handle) : c.untimed.eraseAt h = (c.eraseAt h).untimed := by
  simp only [eraseAt, validate_untimed]
  cases c.validate h with
  | error e => rfl
  | ok slot =>
    cases slot with
    | none => rfl
    | some id =>
      simp only [order_untimed, RecencyList.remove?_map, Option.bind_some, Option.map_map]
      cases c.order.remove? id with
      | none => rfl
      | some x =>
        obtain ⟨entry, order⟩ := x
        have hforget := forget_untimed
          { c with order, index := c.index.erase entry.key } id
        exact congrArg (fun d : Cache K V => ({ result := _, cache := d.bump } :
          Outcome K V (Except CacheError (K × V)))) hforget

theorem popFront_untimed : c.untimed.popFront = c.popFront.untimed := by
  obtain ⟨hresult, hcache, hnotices⟩ := c.evictFront_untimed
  simp only [popFront, hresult, hcache, hnotices]
  cases c.evictFront.result <;> rfl

omit [BEq K] in
theorem clear_untimed : c.untimed.clear = c.clear.untimed := by
  simp only [clear, untimed, bump, RecencyList.map_empty]

theorem compact_untimed : c.untimed.compact = c.compact.untimed := by
  simp only [compact, order_untimed, RecencyList.compact_map, List.foldl_map,
    RecencyList.slotCount_map]
  rfl

theorem setCapacity_untimed (capacity : Nat) :
    c.untimed.setCapacity capacity = (c.setCapacity capacity).map Outcome.untimed := by
  have hevict := c.evictWhile_untimed (fun c => capacity < c.len) (fun _ => rfl)
    c.order.slotCount
  simp only [setCapacity, order_untimed, RecencyList.slotCount_map, hevict]
  generalize evictWhile (fun c => capacity < c.len) c.order.slotCount c = evicted
  have hpacked : ({ evicted.untimed.cache with capacity } : Cache K V).compact = _ :=
    compact_untimed { evicted.cache with capacity }
  have hresult : evicted.untimed.result = evicted.result := rfl
  rw [hresult]
  split
  · exact audited_untimed { evicted with
      result := (), cache := { evicted.cache with capacity } }
  · rw [hpacked]
    generalize ({ evicted.cache with capacity } : Cache K V).compact = packed
    exact audited_untimed { packed with
      cache := packed.cache.bump
      notices := evicted.notices ++ .trace (.shrank evicted.result capacity) :: packed.notices }

end Updates

section Accesses

variable [BEq K] {c now}

theorem AllLive.contains_untimed (h : c.AllLive now) (key : K) :
    c.untimed.contains 0 key = (c.contains now key).untimed := by
  rw [contains, h.resolve_untimed]
  rfl

theorem AllLive.lookup_untimed (h : c.AllLive now) (key : K) :
    c.untimed.lookup 0 key = (c.lookup now key).untimed := by
  simp only [lookup, h.resolve_untimed]
  generalize c.resolve now key = found
  have hentry : found.untimed.result.bind found.untimed.cache.order.get? =
      (found.result.bind found.cache.order.get?).map Entry.unstamped :=
    found.cache.order.bind_get?_map Entry.unstamped found.result
  rw [hentry]
  cases found.result.bind found.cache.order.get? with
  | none => rfl
  | some entry => rfl

theorem AllLive.lookupMut_untimed (h : c.AllLive now) (key : K) (update : V → V) :
    c.untimed.lookupMut 0 key update = (c.lookupMut now key update).untimed := by
  simp only [lookupMut, h.resolve_untimed]
  generalize c.resolve now key = found
  have hresult : found.untimed.result = found.result := rfl
  rw [hresult]
  cases found.result with
  | none => rfl
  | some id =>
    have hpromoted : found.untimed.cache.promoteOnAccess 0 id = _ :=
      found.cache.promoteOnAccess_untimed now id
    simp only [hpromoted]
    generalize found.cache.promoteOnAccess now id = d
    simp only [d.write_untimed id update]
    simp only [order_untimed, RecencyList.get?_map]
    cases d.order.get? id with
    | none => rfl
    | some entry => rfl

theorem AllLive.getOrInsert_untimed (h : c.AllLive now) (key : K) (make : K → V) :
    c.untimed.getOrInsert 0 key make = (c.getOrInsert now key make).map Outcome.untimed := by
  simp only [getOrInsert, h.resolve_untimed]
  generalize c.resolve now key = found
  have hresult : found.untimed.result = found.result := rfl
  have hinsert (d : Cache K V) := d.insert_untimed now key (make key)
  rw [hresult]
  cases found.result with
  | none =>
    have hstored : found.untimed.cache.insert 0 key (make key) = _ := hinsert found.cache
    simp only [Option.bind_none, hstored]
    cases found.cache.insert now key (make key) <;> rfl
  | some id =>
    have hpromoted : found.untimed.cache.promoteOnAccess 0 id = _ :=
      found.cache.promoteOnAccess_untimed now id
    simp only [Option.bind_some, hpromoted, hinsert]
    generalize found.cache.promoteOnAccess now id = d
    simp only [order_untimed, RecencyList.get?_map]
    cases d.order.get? id with
    | none => cases d.insert now key (make key) <;> rfl
    | some entry => rfl

theorem AllLive.touch_untimed (h : c.AllLive now) (key : K) :
    c.untimed.touch 0 key = (c.touch now key).untimed := by
  simp only [touch, h.resolve_untimed]
  generalize c.resolve now key = found
  have hresult : found.untimed.result = found.result := rfl
  rw [hresult]
  cases found.result with
  | none => rfl
  | some id =>
    have hpromoted : found.untimed.cache.promote 0 id = _ := found.cache.promote_untimed now id
    simp only [hpromoted]
    rfl

variable (c)

omit [BEq K] in
theorem front_untimed : c.untimed.front = c.front := by
  rw [front, front, order_untimed, RecencyList.front?_map]
  cases c.order.front? <;> rfl

omit [BEq K] in
theorem back_untimed : c.untimed.back = c.back := by
  rw [back, back, order_untimed, RecencyList.back?_map]
  cases c.order.back? <;> rfl

end Accesses

section Reads

theorem entryAt_untimed (x : Cursor) : c.untimed.entryAt x = c.entryAt x := by
  have hentry := c.order.bind_get?_map Entry.unstamped x.position
  rw [entryAt, entryAt, order_untimed, hentry]
  cases x.position.bind c.order.get? <;> rfl

theorem advance_untimed (x : Cursor) : c.untimed.advance x = c.advance x := by
  have hnext : (c.order.map Entry.unstamped).nextId = c.order.nextId :=
    funext (c.order.nextId_map _)
  have hstorage : (c.order.map Entry.unstamped).nextInStorage = c.order.nextInStorage :=
    funext (c.order.nextInStorage_map _)
  simp only [advance, order_untimed, hnext, hstorage]

theorem retreat?_untimed (x : Cursor) : c.untimed.retreat? x = c.retreat? x := by
  simp only [retreat?, order_untimed, RecencyList.prevId_map, RecencyList.tail_map]

theorem next?_untimed (x : Cursor) : c.untimed.next? x = c.next? x := by
  rw [next?, next?, entryAt_untimed, advance_untimed]

theorem drain_untimed (fuel : Nat) (x : Cursor) : c.untimed.drain fuel x = c.drain fuel x := by
  induction fuel generalizing x with
  | zero => rfl
  | succ fuel ih => simp only [drain, next?_untimed, ih]

theorem moveCursor_untimed (x : Cursor) (move : Cursor.Move) :
    c.untimed.moveCursor x move = c.moveCursor x move := by
  cases move with
  | rest => simp only [moveCursor, rest, drain_untimed, order_untimed, RecencyList.slotCount_map]
  | entry => simp only [moveCursor, entryAt_untimed]
  | advance => simp only [moveCursor, advance_untimed]
  | retreat => simp only [moveCursor, retreat?_untimed]
  | next => simp only [moveCursor, next?_untimed]
  | _ => rfl

theorem walkCursor_untimed (x : Cursor) (moves : List Cursor.Move) :
    c.untimed.walkCursor x moves = c.walkCursor x moves := by
  induction moves generalizing x with
  | nil => rfl
  | cons move moves ih => simp only [walkCursor, moveCursor_untimed, ih]

theorem entryLeft_untimed (t : Traversal) (slot : Option SlotId) :
    c.untimed.entryLeft t slot = (c.entryLeft t slot).map fun x => (x.1, x.2.unstamped) := by
  rw [entryLeft, entryLeft]
  split
  · rfl
  · cases slot with
    | none => rfl
    | some id =>
      simp only [Option.bind_some, order_untimed, RecencyList.get?_map, Option.map_map]
      rfl

theorem traverse_untimed (t : Traversal) (move : Traversal.Move) :
    c.untimed.traverse t move = c.traverse t move := by
  cases move with
  | next =>
    simp only [traverse, next, entryLeft_untimed, order_untimed, RecencyList.nextId_map]
    cases c.entryLeft t t.front <;> rfl
  | nextBack =>
    simp only [traverse, nextBack, entryLeft_untimed, order_untimed, RecencyList.prevId_map]
    cases c.entryLeft t t.back <;> rfl

theorem traverseAll_untimed (t : Traversal) (moves : List Traversal.Move) :
    c.untimed.traverseAll t moves = c.traverseAll t moves := by
  induction moves generalizing t with
  | nil => rfl
  | cons move moves ih => simp only [traverseAll, traverse_untimed, ih]

variable [BEq K]

theorem checkNodes_untimed (prev : Option SlotId) (budget : Nat) (slot : Option SlotId) :
    c.untimed.checkNodes prev budget slot = c.checkNodes prev budget slot := by
  have hnode (prev : Option SlotId) (id : SlotId) (node : Node (Entry K V)) :
    c.untimed.checkNode prev id (node.map Entry.unstamped) = c.checkNode prev id node := rfl
  induction budget generalizing prev slot with
  | zero =>
    cases slot with
    | none => rfl
    | some id =>
      simp only [checkNodes, order_untimed, RecencyList.node_map]
      cases c.order.nodes.get? id with
      | none => rfl
      | some node => simp only [Option.map_some, hnode]
  | succ budget ih =>
    cases slot with
    | none => rfl
    | some id =>
      simp only [checkNodes, order_untimed, RecencyList.node_map, ih]
      cases c.order.nodes.get? id with
      | none => rfl
      | some node =>
        simp only [Option.map_some, hnode]
        rfl

theorem checkInvariants_untimed : c.untimed.checkInvariants = c.checkInvariants := by
  have hlen : c.untimed.len = c.len := rfl
  have hcapacity : c.untimed.capacity = c.capacity := rfl
  simp only [checkInvariants, index_untimed, order_untimed, RecencyList.len_map,
    RecencyList.head_map, lastAccessed_untimed, RecencyList.contains_map, checkNodes_untimed,
    hlen, hcapacity]

variable {c now}

theorem AllLive.walk_untimed (h : c.AllLive now) (start : Cursor.Start K)
    (moves : List Cursor.Move) : c.untimed.walk 0 start moves = (c.walk now start moves).untimed := by
  have hstart : c.untimed.startCursor 0 start = (c.startCursor now start).untimed := by
    cases start with
    | unorderedBegin =>
      simp only [startCursor, unorderedBegin, order_untimed, RecencyList.firstInStorage_map]
      rfl
    | find key =>
      simp only [startCursor, find, h.resolve_untimed]
      rfl
    | _ => rfl
  simp only [walk, hstart, Outcome.untimed, Outcome.map, walkCursor_untimed]

end Reads

section Requests

section Results

variable {o p : Outcome K V α} {x y : Except Fault (Outcome K V α)}

theorem ok_untimed (h : p = o.untimed) (f : α → β) :
    (.ok (p.map f) : Except Fault _) = (Except.ok (o.map f)).map Outcome.untimed := by
  subst h
  rfl

theorem map_untimed (h : y = x.map Outcome.untimed) (f : α → β) :
    (·.map f) <$> y = ((·.map f) <$> x).map Outcome.untimed := by
  subst h
  cases x <;> rfl

end Results

variable [BEq K] {c now}

/-- While all its entries are live, a cache answers requests that do not ask about time as it does
without its stamps. -/
theorem AllLive.perform_untimed (h : c.AllLive now) {command : Command K V}
    (hc : command.timed = false) :
    c.untimed.perform 0 command = (c.perform now command).map Outcome.untimed := by
  cases command with
  | insert key value => exact map_untimed (c.insert_untimed now key value) _
  | insertAll pairs => exact map_untimed (c.insertAll_untimed now pairs) _
  | getOrInsert key make => exact map_untimed (h.getOrInsert_untimed key make) _
  | lookup key => exact ok_untimed (h.lookup_untimed key) _
  | lookupMut key update => exact ok_untimed (h.lookupMut_untimed key update) _
  | contains key => exact ok_untimed (h.contains_untimed key) _
  | touch key => exact ok_untimed (h.touch_untimed key) _
  | erase key => exact map_untimed (c.erase_untimed key) _
  | eraseAt g => exact ok_untimed (c.eraseAt_untimed g) _
  | popFront => exact ok_untimed c.popFront_untimed _
  | clear =>
    simp only [perform, clear_untimed]
    rfl
  | setCapacity capacity => exact map_untimed (c.setCapacity_untimed capacity) _
  | front =>
    simp only [perform, front_untimed]
    rfl
  | back =>
    simp only [perform, back_untimed]
    rfl
  | checkInvariants =>
    simp only [perform, checkInvariants_untimed]
    rfl
  | cursor start moves => exact ok_untimed (h.walk_untimed start moves) _
  | traverse moves =>
    simp only [perform, traverseAll_untimed]
    rfl
  | purgeExpired | isExpired key | remainingTtl key | allExpired => cases hc

/-- What a cache in which nothing has expired answers when it is asked about time: a purge takes
nothing, everything has expired only where nothing is stored, and no stored key has. -/
def AnswersLive (c : Cache K V) : Command K V → Answer K V → Prop
  | .purgeExpired, answer => answer = .count 0
  | .allExpired, answer => answer = .flag c.isEmpty
  | .isExpired key, answer =>
    answer = .flagOr (if c.index.contains key then .ok false else .error .keyNotFound)
  | _, _ => True

variable [EquivBEq K] {items p s : List (SlotId × Entry K V)} {free : List SlotId}
  {entry : Entry K V}

omit [EquivBEq K] in
theorem AllLive.isLive_of_mem (h : c.AllLive now) (hh : c.Holds items free)
    {x : SlotId × Entry K V} (hm : x ∈ items) : c.policy.isLive now x.2.stamp = true :=
  h x.1 x.2 (hh.order.get?_of_mem hm)

omit [EquivBEq K] in
theorem AllLive.expired_eq_nil (h : c.AllLive now) (hh : c.Holds items free) :
    c.expired now items = [] := by
  cases items with
  | nil => rfl
  | cons x s =>
    have hlive := h.isLive_of_mem hh List.mem_cons_self
    rw [expired, List.takeWhile_cons_of_neg]
    simp [dead, hlive]

omit [EquivBEq K] in
theorem AllLive.allExpired_eq (h : c.AllLive now) (hh : c.Holds items free) :
    c.allExpired now = c.isEmpty := by
  rw [allExpired, hh.order.tail, isEmpty, hh.len_eq]
  rcases List.eq_nil_or_concat items with rfl | ⟨p, ⟨id, entry⟩, rfl⟩
  · rfl
  · rw [List.concat_eq_append] at hh ⊢
    have hlive := h.isLive_of_mem (x := (id, entry)) hh (by simp)
    simp [isLiveAt, hh.get?_order, hlive]

theorem AllLive.isExpired_eq (h : c.AllLive now) (hh : c.Holds items free) (key : K) :
    c.isExpired now key = if c.index.contains key then .ok false else .error .keyNotFound := by
  rcases absent_or key items with ha | ⟨p, id, entry, s, rfl, hk⟩
  · simp [isExpired, KeyMap.contains, hh.slotOf_of_absent ha, hh.get?_index_of_absent ha]
  · have hlive := h.isLive_of_mem (x := (id, entry)) hh (by simp)
    simp [isExpired, KeyMap.contains, hh.slotOf_of_mem hk, hh.get?_index hk, isLiveAt,
      hh.get?_order, hlive]

/-- While all its entries are live, a cache stays as it is when it is asked about time. -/
theorem AllLive.perform_timed (h : c.AllLive now) (hc : c.Coherent) {command : Command K V}
    (ht : command.timed = true) :
    ∃ answer, c.perform now command = .ok (c.keeping answer) ∧ c.AnswersLive command answer := by
  obtain ⟨items, free, hh⟩ := hc
  cases command with
  | purgeExpired =>
    refine ⟨_, ?_, rfl⟩
    simp only [perform, hh.purgeExpired_of_live (h.expired_eq_nil hh)]
    rfl
  | allExpired => exact ⟨_, rfl, congrArg Answer.flag (h.allExpired_eq hh)⟩
  | isExpired key => exact ⟨_, rfl, congrArg Answer.flagOr (h.isExpired_eq hh key)⟩
  | remainingTtl key => exact ⟨_, rfl, trivial⟩
  | _ => cases ht

end Requests

end Cache

end Lru
