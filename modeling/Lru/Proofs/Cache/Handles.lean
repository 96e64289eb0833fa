import Lru.Proofs.Cache.Generations

/-! # Handles and where they stand

A cache mints a handle for an insertion and for each position at which a cursor
is asked for one. Such a handle carries the identity and the generation that
the cache has then, and it stands past the end or on an entry: that of the key
which was inserted or found, if the request gave one.
-/

namespace Lru

/-- The handle in an answer of a cursor. -/
def Cursor.Answer.handle? {K V : Type} : Cursor.Answer K V → Option Handle
  | .handle h => some h
  | _ => none

/-- The step leaves the cursor where it is. -/
def Cursor.Move.stays : Cursor.Move → Bool
  | .advance | .retreat | .next => false
  | _ => true

namespace Cache

variable {K V : Type}

/-- The handles that an answer mints. -/
def Answer.handles : Answer K V → List Handle
  | .inserted r => [r.handle]
  | .walked (.ok (answers, _)) => answers.filterMap Cursor.Answer.handle?
  | _ => []

/-- The position is past the end or on an entry. -/
def Stands (c : Cache K V) (slot : Option SlotId) : Prop :=
  ∀ id, slot = some id → c.order.contains id = true

/-- The position is on the entry of `key`. -/
def StandsOn [BEq K] (c : Cache K V) (key : K) (slot : Option SlotId) : Prop :=
  ∃ id k, slot = some id ∧ c.keyAt id = some k ∧ (key == k) = true

variable {c : Cache K V} {items p s : List (SlotId × Entry K V)} {free : List SlotId}
  {id : SlotId} {entry : Entry K V} {key : K} {slot : Option SlotId} {g : Handle} {x : Cursor}

theorem stands_none (c : Cache K V) : c.Stands none :=
  fun _ h => nomatch h

theorem isSome_keyAt (c : Cache K V) (id : SlotId) :
    (c.keyAt id).isSome = c.order.contains id := by
  simp [keyAt, RecencyList.get?, RecencyList.contains, Arena.contains]

section Walk

variable [BEq K]

theorem StandsOn.stands (h : c.StandsOn key slot) : c.Stands slot := by
  obtain ⟨id, k, rfl, hk, -⟩ := h
  rintro _ ⟨⟩
  rw [← isSome_keyAt, hk, Option.isSome_some]

theorem stands_of_ite {b : Bool} (h : if b then c.StandsOn key slot else slot = none) :
    c.Stands slot := by
  split at h
  · exact h.stands
  · exact h ▸ stands_none c

theorem Holds.standsOn (h : c.Holds (p ++ (id, entry) :: s) free) (hk : key == entry.key) :
    c.StandsOn key (some id) :=
  ⟨id, entry.key, rfl, by rw [keyAt, h.get?_order]; rfl, hk⟩

theorem Holds.stands_of_mem (h : c.Holds items free)
    (hm : ∀ id, slot = some id → id ∈ items.map Prod.fst) : c.Stands slot :=
  fun id hid => h.order.contains_iff.mpr (hm id hid)

theorem Holds.node_of_get? (h : c.Holds items free) {id : SlotId} {node : Node (Entry K V)}
    (hn : c.order.nodes.get? id = some node) :
    ∃ p value s, items = p ++ (id, value) :: s ∧
      node = ⟨value, RecencyList.lastId p, RecencyList.firstId s⟩ := by
  have hid := h.order.contains_iff.mp (Arena.contains_iff.mpr ⟨node, hn⟩)
  obtain ⟨p, value, s, he, hn'⟩ := h.order.exists_node hid
  exact ⟨p, value, s, he, Option.some.inj (hn.symm.trans hn')⟩

theorem Holds.stands_nextId (h : c.Holds items free) (id : SlotId) :
    c.Stands (c.order.nextId id) := by
  apply h.stands_of_mem
  intro j hj
  obtain ⟨node, hn, hnext⟩ := Option.bind_eq_some_iff.mp hj
  obtain ⟨p, value, s, rfl, rfl⟩ := h.node_of_get? hn
  simp [RecencyList.mem_of_firstId hnext]

theorem Holds.stands_prevId (h : c.Holds items free) (id : SlotId) :
    c.Stands (c.order.prevId id) := by
  apply h.stands_of_mem
  intro j hj
  obtain ⟨node, hn, hprev⟩ := Option.bind_eq_some_iff.mp hj
  obtain ⟨p, value, s, rfl, rfl⟩ := h.node_of_get? hn
  simp [RecencyList.mem_of_lastId hprev]

omit [BEq K] in
theorem stands_firstFrom (c : Cache K V) (start : SlotId) :
    c.Stands (c.order.nodes.firstFrom start) :=
  fun _ hid => List.find?_some hid

theorem Holds.stands_advance (h : c.Holds items free) (x : Cursor) :
    c.Stands (c.advance x).position := by
  obtain ⟨owner, kind, position⟩ := x
  cases position with
  | none => cases kind <;> exact stands_none c
  | some id =>
    cases kind with
    | ordered => exact h.stands_nextId id
    | unordered => exact stands_firstFrom c (id + 1)

theorem Holds.stands_moveCursor (h : c.Holds items free) (hx : c.Stands x.position)
    (move : Cursor.Move) : c.Stands (c.moveCursor x move).2.position := by
  cases move with
  | advance => exact h.stands_advance x
  | retreat =>
    cases hr : c.retreat? x with
    | none => simpa [moveCursor, hr] using hx
    | some y =>
      have hy : c.Stands y.position := by
        obtain ⟨j, hj, rfl⟩ := Option.map_eq_some_iff.mp hr
        cases hp : x.position with
        | none =>
          apply h.stands_of_mem
          intro i hi
          apply RecencyList.mem_of_lastId
          rw [← h.order.tail, ← hi, ← hj, hp]
        | some i =>
          rw [hp] at hj
          exact hj ▸ h.stands_prevId i
      simpa [moveCursor, hr] using hy
  | next =>
    cases hn : c.next? x with
    | none => simpa [moveCursor, hn] using hx
    | some r =>
      obtain ⟨entry, y⟩ := r
      have hy : y = c.advance x := by
        rw [next?] at hn
        split at hn
        · exact (Prod.mk.inj (Option.some.inj hn)).2.symm
        · cases hn
      simpa [moveCursor, hn, hy] using h.stands_advance x
  | toOrdered =>
    cases hp : x.position with
    | none => simpa [moveCursor, Cursor.toOrdered, hp] using stands_none c
    | some i => simpa [moveCursor, Cursor.toOrdered, hp] using hx
  | _ => exact hx

omit [BEq K] in
theorem handle?_moveCursor (move : Cursor.Move) (hg : (c.moveCursor x move).1.handle? = some g) :
    g = c.handle x.position := by
  cases move with
  | handle => exact (Option.some.inj hg).symm
  | retreat => cases hr : c.retreat? x <;> simp [moveCursor, hr, Cursor.Answer.handle?] at hg
  | next => cases hn : c.next? x <;> simp [moveCursor, hn, Cursor.Answer.handle?] at hg
  | toOrdered => cases ho : x.toOrdered <;> simp [moveCursor, ho, Cursor.Answer.handle?] at hg
  | _ => simp [moveCursor, Cursor.Answer.handle?] at hg

omit [BEq K] in
theorem handles_walkCursor_cons {move : Cursor.Move} {moves : List Cursor.Move}
    (hg : g ∈ (c.walkCursor x (move :: moves)).1.filterMap Cursor.Answer.handle?) :
    (c.moveCursor x move).1.handle? = some g ∨
      g ∈ (c.walkCursor (c.moveCursor x move).2 moves).1.filterMap Cursor.Answer.handle? := by
  obtain ⟨answer, ha, hg⟩ := List.mem_filterMap.mp hg
  rcases List.mem_cons.mp ha with rfl | ha
  · exact .inl hg
  · exact .inr (List.mem_filterMap.mpr ⟨answer, ha, hg⟩)

omit [BEq K] in
theorem handle_of_walkCursor (moves : List Cursor.Move)
    (hg : g ∈ (c.walkCursor x moves).1.filterMap Cursor.Answer.handle?) : g = c.handle g.slot := by
  induction moves generalizing x with
  | nil => simp [walkCursor] at hg
  | cons move moves ih =>
    rcases handles_walkCursor_cons hg with hg | hg
    · rw [handle?_moveCursor move hg]
      rfl
    · exact ih hg

omit [BEq K] in
theorem position_moveCursor {move : Cursor.Move} (hs : move.stays = true) :
    (c.moveCursor x move).2.position = x.position := by
  cases move with
  | advance => cases hs
  | retreat => cases hs
  | next => cases hs
  | toOrdered => cases hp : x.position <;> simp [moveCursor, Cursor.toOrdered, hp]
  | _ => rfl

omit [BEq K] in
theorem slot_of_walkCursor (moves : List Cursor.Move) (hs : ∀ move ∈ moves, move.stays = true)
    (hg : g ∈ (c.walkCursor x moves).1.filterMap Cursor.Answer.handle?) :
    g.slot = x.position := by
  induction moves generalizing x with
  | nil => simp [walkCursor] at hg
  | cons move moves ih =>
    obtain ⟨hmove, hmoves⟩ := List.forall_mem_cons.mp hs
    rcases handles_walkCursor_cons hg with hg | hg
    · rw [handle?_moveCursor move hg]
      rfl
    · exact (ih hmoves hg).trans (position_moveCursor hmove)

theorem Holds.stands_walkCursor (h : c.Holds items free) (hx : c.Stands x.position)
    (moves : List Cursor.Move)
    (hg : g ∈ (c.walkCursor x moves).1.filterMap Cursor.Answer.handle?) : c.Stands g.slot := by
  induction moves generalizing x with
  | nil => simp [walkCursor] at hg
  | cons move moves ih =>
    rcases handles_walkCursor_cons hg with hg | hg
    · rw [handle?_moveCursor move hg]
      exact hx
    · exact ih (h.stands_moveCursor hx move) hg

end Walk

section Validate

/-- A cache takes the handles that it mints now, and no other. -/
theorem validate_eq_ok_iff :
    c.validate g = .ok slot ↔ g = c.handle slot := by
  obtain ⟨owner, position, generation⟩ := g
  simp only [validate, handle, Handle.mk.injEq]
  split_ifs with ho hg
  · simp [ho]
  · simp [hg]
  · simp_all

variable [BEq K]

/-- The handle is refused wherever it is used. -/
structure Refuses (c : Cache K V) (g : Handle) (e : CacheError) : Prop where
  cursorAt : ∀ kind, c.cursorAt kind g = .error e
  eraseAt : c.eraseAt g = { result := .error e, cache := c }

/-- The handle stands where it stood in `minted`: past the end, or on the entry of the same stored
key, which it can erase. -/
structure Honours (c minted : Cache K V) (g : Handle) : Prop where
  cursorAt : ∀ kind, c.cursorAt kind g = .ok (c.cursor kind g.slot)
  keyAt : ∀ id, g.slot = some id → c.keyAt id = minted.keyAt id
  eraseAt : (c.eraseAt g).result = c.entryAt (c.cursor .unordered g.slot)

theorem refuses_of_validate {e : CacheError} (hv : c.validate g = .error e) : c.Refuses g e where
  cursorAt kind := by rw [cursorAt, hv]; rfl
  eraseAt := eraseAt_of_error hv

theorem refuses_foreign (ho : g.owner ≠ c.id) : c.Refuses g .foreignHandle :=
  refuses_of_validate (if_pos ho)

theorem refuses_stale (ho : g.owner = c.id) (hg : g.generation ≠ c.generation) :
    c.Refuses g .staleHandle :=
  refuses_of_validate ((if_neg (not_not.mpr ho)).trans (if_pos hg))

theorem Holds.honours (h : c.Holds items free) {minted : Cache K V} (hg : g = c.handle g.slot)
    (hk : c.keyAt = minted.keyAt) : c.Honours minted g where
  cursorAt kind := by rw [cursorAt, validate_eq_ok_iff.mpr hg]; rfl
  keyAt id _ := by rw [hk]
  eraseAt := by
    have hv := validate_eq_ok_iff.mpr hg
    cases hs : g.slot with
    | none =>
      rw [hs] at hv
      rw [eraseAt_of_none hv]
      rfl
    | some id =>
      rw [hs] at hv
      by_cases hid : id ∈ items.map Prod.fst
      · obtain ⟨⟨_, entry⟩, hm, rfl⟩ := List.mem_map.mp hid
        obtain ⟨p, s, rfl⟩ := List.append_of_mem hm
        rw [Cache.eraseAt_of_mem h.order hv]
        simp [entryAt, Cache.cursor, h.get?_order]
      · rw [Cache.eraseAt_of_vacant h.order hv hid]
        simp [entryAt, Cache.cursor, h.order.get?_eq_none_iff.mpr hid]

end Validate

section Mint

variable [BEq K] {now : Instant} {command : Command K V} {o : Outcome K V (Answer K V)}

theorem handle_of_insert {value : V} {o : Outcome K V Insertion}
    (ho : c.insert now key value = .ok o) :
    o.result.handle = o.cache.handle o.result.handle.slot := by
  simp only [insert] at ho
  split at ho
  · cases ho
    rfl
  split_ifs at ho
  · cases ho
    rfl
  · rw [eq_of_audited ho]
    rfl
  · rw [eq_of_audited ho]
    rfl

theorem handles_walk {start : Cursor.Start K} {moves : List Cursor.Move}
    (hg : g ∈ (Answer.walked (c.walk now start moves).result).handles) :
    ∃ x, (c.startCursor now start).result = .ok x ∧
      g ∈ ((c.startCursor now start).cache.walkCursor x moves).1.filterMap
        Cursor.Answer.handle? := by
  cases hx : (c.startCursor now start).result with
  | error e => simp [walk, hx, Outcome.map, Except.map, Answer.handles] at hg
  | ok x => exact ⟨x, rfl, by simpa [walk, hx, Outcome.map, Except.map, Answer.handles] using hg⟩

/-- Only insertions and walks mint handles. -/
theorem handles_perform (ho : c.perform now command = .ok o) (hg : g ∈ o.result.handles) :
    (∃ key value o', command = .insert key value ∧ c.insert now key value = .ok o' ∧
      g = o'.result.handle ∧ o.cache = o'.cache) ∨
    ∃ start moves x, command = .cursor start moves ∧
      (c.startCursor now start).result = .ok x ∧ o.cache = (c.startCursor now start).cache ∧
      g ∈ (o.cache.walkCursor x moves).1.filterMap Cursor.Answer.handle? := by
  cases command with
  | insert key value =>
    obtain ⟨o', ho', rfl⟩ := exists_of_map_eq_ok ho
    exact .inl ⟨key, value, o', rfl, ho', List.mem_singleton.mp hg, rfl⟩
  | cursor start moves =>
    cases ho
    obtain ⟨x, hx, hg⟩ := handles_walk hg
    exact .inr ⟨start, moves, x, rfl, hx, rfl, hg⟩
  | insertAll pairs => obtain ⟨o', ho', rfl⟩ := exists_of_map_eq_ok ho; cases hg
  | getOrInsert key make => obtain ⟨o', ho', rfl⟩ := exists_of_map_eq_ok ho; cases hg
  | erase key => obtain ⟨o', ho', rfl⟩ := exists_of_map_eq_ok ho; cases hg
  | setCapacity capacity => obtain ⟨o', ho', rfl⟩ := exists_of_map_eq_ok ho; cases hg
  | purgeExpired => obtain ⟨o', ho', rfl⟩ := exists_of_map_eq_ok ho; cases hg
  | _ => cases ho; cases hg

theorem handle_of_perform (ho : c.perform now command = .ok o) (hg : g ∈ o.result.handles) :
    g = o.cache.handle g.slot := by
  rcases handles_perform ho hg with ⟨key, value, o', -, ho', rfl, hcache⟩ |
    ⟨start, moves, x, -, -, -, hg⟩
  · rw [hcache]
    exact handle_of_insert ho'
  · exact handle_of_walkCursor moves hg

/-- What a handle is minted for, told by the cache `c` before the request and the cache `d` after it:
by an insertion for the entry that it stores, and by a cursor that has found a key and not moved for
the live entry of the key. Where there is none, the handle stands past the end. -/
structure MintedFor (c d : Cache K V) (now : Instant) (command : Command K V) (g : Handle) :
    Prop where
  insert : ∀ key value, command = .insert key value →
    if c.storesOnInsert key then d.StandsOn key g.slot else g.slot = none
  find : ∀ key moves, command = .cursor (.find key) moves →
    (∀ move ∈ moves, move.stays = true) →
    if (c.contains now key).result then d.StandsOn key g.slot else g.slot = none

variable [EquivBEq K]

theorem Holds.standsOn_append (h : c.Holds items free) (ha : Absent key items)
    (hl : items.length < c.capacity) (now : Instant) (value : V) :
    (c.append now key value).cache.StandsOn key (c.append now key value).result.handle.slot := by
  rw [h.append_result]
  exact (h.append ha hl now value).standsOn BEq.rfl

theorem Holds.standsOn_insert (h : c.Holds items free) {value : V} {o : Outcome K V Insertion}
    (ho : c.insert now key value = .ok o) :
    if c.storesOnInsert key then o.cache.StandsOn key o.result.handle.slot
    else o.result.handle.slot = none := by
  cases h.storing now key value with
  | refused absent empty inserted =>
    have hstores : c.storesOnInsert key = false := by
      simp [storesOnInsert, KeyMap.contains, h.get?_index_of_absent absent, empty]
    obtain rfl := Except.ok.inj (inserted.symm.trans ho)
    rw [hstores]
    rfl
  | replaced p id entry s split same inserted =>
    subst split
    have hstores : c.storesOnInsert key = true := by
      simp [storesOnInsert, KeyMap.contains, h.get?_index same]
    obtain rfl := Except.ok.inj (inserted.symm.trans ho)
    rw [if_pos hstores]
    exact (h.replace now value).standsOn same
  | appended absent room inserted =>
    have hstores : c.storesOnInsert key = true := by
      simp [storesOnInsert, Nat.ne_of_gt (Nat.zero_lt_of_lt room)]
    obtain rfl := Except.ok.inj (inserted.symm.trans ho)
    rw [if_pos hstores]
    exact h.standsOn_append absent room now value
  | displaced i e s split absent full inserted =>
    subst split
    have hstores : c.storesOnInsert key = true := by simp [storesOnInsert, full]
    have room : s.length < (c.drop i e.key).capacity := by simp [drop_eq, full]
    obtain rfl := Except.ok.inj (inserted.symm.trans ho)
    rw [if_pos hstores]
    exact (h.drop (p := []) BEq.rfl).standsOn_append (List.forall_mem_cons.mp absent).2
      room now value

theorem Holds.standsOn_find (h : c.Holds items free) (now : Instant) (key : K) :
    if (c.contains now key).result then
      (c.find now key).cache.StandsOn key (c.find now key).result.position
    else (c.find now key).result.position = none := by
  cases h.resolution now key with
  | miss memo resolved remembers dead =>
    rw [contains, find, resolved]
    rfl
  | hit p id entry s split same resolved live silent =>
    subst split
    rw [contains, find, resolved]
    exact (h.remembering (some id)).standsOn same

theorem Holds.stands_startCursor (h : c.Holds items free) {start : Cursor.Start K}
    (hs : ∀ kind g, start = .handle kind g → c.Stands g.slot)
    (hx : (c.startCursor now start).result = .ok x) :
    (c.startCursor now start).cache.Stands x.position := by
  cases start with
  | orderedBegin =>
    cases hx
    exact h.stands_of_mem fun i hi => RecencyList.mem_of_firstId (h.order.head ▸ hi)
  | unorderedBegin =>
    cases hx
    exact stands_firstFrom c 0
  | find key =>
    cases hx
    exact stands_of_ite (h.standsOn_find now key)
  | handle kind g =>
    obtain ⟨slot, hv, rfl⟩ := exists_of_map_eq_ok hx
    obtain rfl : g.slot = slot := by rw [validate_eq_ok_iff.mp hv]; rfl
    exact hs kind g rfl
  | _ =>
    cases hx
    exact stands_none c

theorem Holds.startCursor (h : c.Holds items free) (now : Instant) (start : Cursor.Start K) :
    (c.startCursor now start).cache.Holds items free := by
  cases start with
  | find key =>
    cases h.resolution now key with
    | miss memo resolved remembers dead =>
      simp only [Cache.startCursor, find, resolved]
      exact h.remembering memo
    | hit p id entry s split same resolved live silent =>
      simp only [Cache.startCursor, find, resolved]
      exact h.remembering (some id)
  | _ => exact h

theorem Holds.stands_insert (h : c.Holds items free) {value : V} {o : Outcome K V Insertion}
    (ho : c.insert now key value = .ok o) : o.cache.Stands o.result.handle.slot :=
  stands_of_ite (h.standsOn_insert ho)

/-- A handle that a request mints is one of the cache that the request leaves, and it stands past
the end or on an entry, unless it comes from a handle that does not. -/
theorem Coherent.perform_handles (h : c.Coherent) (ho : c.perform now command = .ok o)
    (hg : g ∈ o.result.handles) :
    g = o.cache.handle g.slot ∧
      ((∀ kind g' moves, command = .cursor (.handle kind g') moves → c.Stands g'.slot) →
        o.cache.Stands g.slot) := by
  refine ⟨handle_of_perform ho hg, ?_⟩
  intro hgen
  obtain ⟨items, free, h⟩ := h
  rcases handles_perform ho hg with ⟨key, value, o', -, ho', rfl, hcache⟩ |
    ⟨start, moves, x, rfl, hx, hcache, hg⟩
  · rw [hcache]
    exact h.stands_insert ho'
  · rw [hcache] at hg ⊢
    refine (h.startCursor now start).stands_walkCursor ?_ moves hg
    refine h.stands_startCursor ?_ hx
    rintro kind g' rfl
    exact hgen kind g' moves rfl

/-- The handle of an insertion stands on the inserted key, and those of a find that has not moved
stand on the found one. -/
theorem Coherent.perform_mintedFor (h : c.Coherent) (ho : c.perform now command = .ok o)
    (hg : g ∈ o.result.handles) : c.MintedFor o.cache now command g := by
  obtain ⟨items, free, h⟩ := h
  rcases handles_perform ho hg with ⟨key, value, o', rfl, ho', rfl, hcache⟩ |
    ⟨start, moves, x, rfl, hx, hcache, hg⟩
  · rw [hcache]
    refine ⟨?_, nofun⟩
    rintro _ _ ⟨⟩
    exact h.standsOn_insert ho'
  · rw [hcache] at hg ⊢
    refine ⟨nofun, ?_⟩
    rintro key _ ⟨⟩ hstay
    obtain rfl := Except.ok.inj hx
    rw [slot_of_walkCursor moves hstay hg]
    exact h.standsOn_find now key

end Mint

end Cache

end Lru
