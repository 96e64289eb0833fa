import Lru.Proofs.Cache.Cursors
import Lru.Proofs.History.Handles

/-! # Removal

An entry can be removed by its key, by a handle on it, and from the front when
it stands there. The cache that is left is the same each time. A removal that
finds nothing to remove, or that refuses its handle, leaves the cache as it was.
-/

namespace Lru.Cache

variable {K V : Type} [BEq K]

/-- Without the entry `e`, which stands in the slot `id` between `p` and `s`, the cache `c`
is `d`. -/
structure Without (c : Cache K V) (p : List (SlotId × Entry K V)) (id : SlotId) (e : Entry K V)
    (s : List (SlotId × Entry K V)) (d : Cache K V) : Prop where
  order : d.order.entries = p ++ s
  slots : ∀ j, d.order.get? j = if j = id then none else c.order.get? j
  slotCount : d.order.slotCount = c.order.slotCount
  /-- The slot is the first one to be taken again. -/
  free : ∃ free, c.order.nodes.Vacates free ∧ d.order.nodes.Vacates (id :: free)
  index : ∀ key, d.index.get? key = if key == e.key then none else c.index.get? key
  lastAccessed : d.lastAccessed = c.lastAccessed.filter (· != id)
  capacity : d.capacity = c.capacity
  policy : d.policy = c.policy
  mode : d.mode = c.mode
  owner : d.id = c.id
  generation : d.generation = c.generation + 1

/-- All ways to remove the entry `e`, in front of which stands `p` and behind it `s`, leave `d`.
Only taking it from the front is told. -/
structure Removes (c : Cache K V) (p : List (SlotId × Entry K V)) (e : Entry K V)
    (s : List (SlotId × Entry K V)) (d : Cache K V) : Prop where
  erase : ∀ key, (key == e.key) = true → c.erase key = .ok { result := true, cache := d }
  /-- The handle may come from a cursor of either kind. -/
  eraseAt : ∀ x g, c.entryAt x = .ok e.pair → (c.moveCursor x .handle).1 = .handle g →
    c.eraseAt g = { result := .ok (e.key, e.value), cache := d }
  popFront : p = [] → c.popFront =
    { result := some (e.key, e.value), cache := d
      notices := [.trace (.evicted s.length c.capacity)] }

/-- What removals that fail answer; they leave the cache as it is. -/
structure Refusals (c : Cache K V) : Prop where
  erase : ∀ key, (∀ e ∈ c.entries, (key == e.key) = false) →
    c.erase key = .ok { result := false, cache := c }
  popFront : c.entries = [] → c.popFront = { result := none, cache := c }
  foreign : ∀ g, g.owner ≠ c.id → (c.eraseAt g).result = .error .foreignHandle
  stale : ∀ g, g.owner = c.id → g.generation ≠ c.generation →
    (c.eraseAt g).result = .error .staleHandle
  unchanged : ∀ g e, (c.eraseAt g).result = .error e →
    c.eraseAt g = { result := .error e, cache := c }

variable {c : Cache K V} {p s items : List (SlotId × Entry K V)} {id : SlotId} {e : Entry K V}
  {free : List SlotId} {key : K} {x : Cursor} {g : Handle}

section Ways

variable [EquivBEq K]

theorem drop_congr (c : Cache K V) (id : SlotId) (hk : key == e.key) :
    c.drop id key = c.drop id e.key := by
  have herase : c.index.erase key = c.index.erase e.key := by
    simp only [KeyMap.erase, BEq.congr_left hk]
  rw [drop_eq, drop_eq, herase]

theorem Holds.without (h : c.Holds (p ++ (id, e) :: s) free) :
    c.Without p id e s (c.drop id e.key).bump := by
  have hd : (c.drop id e.key).bump.Holds (p ++ s) (id :: free) :=
    (h.drop BEq.rfl).congr rfl rfl rfl
  constructor
  case order => exact hd.order.entries_eq
  case slots =>
    intro j
    split_ifs with hj
    · subst hj
      exact hd.order.get?_eq_none_iff.mpr (RecencyList.not_mem_append_of_nodup h.order.nodup)
    · ext v
      rw [hd.order.get?_eq_some_iff, h.order.get?_eq_some_iff]
      simp [hj]
  case slotCount =>
    have hbefore := h.order.length_add
    have hafter := hd.order.length_add
    simp only [List.length_append, List.length_cons] at hbefore hafter
    omega
  case free => exact ⟨free, h.order.vacates, hd.order.vacates⟩
  case index =>
    intro key
    rw [drop_eq]
    exact KeyMap.get?_erase h.distinct
  all_goals rw [drop_eq]; rfl

theorem Holds.position_of_entryAt (h : c.Holds (p ++ (id, e) :: s) free)
    (hx : c.entryAt x = .ok e.pair) : x.position = some id := by
  cases hg : x.position.bind c.order.get? with
  | none => simp [entryAt, hg] at hx
  | some stored =>
    obtain ⟨j, hj, hstored⟩ := Option.bind_eq_some_iff.mp hg
    have hkey : stored.key = e.key := by
      simp only [entryAt, hg, Except.ok.injEq, Entry.pair, Prod.mk.injEq] at hx
      exact hx.1
    have hindex : c.index.get? e.key = some j :=
      (h.index_iff e.key j).mpr ⟨stored, hstored, by simp [hkey]⟩
    rw [hj, ← hindex, h.get?_index BEq.rfl]

theorem Holds.removes (h : c.Holds (p ++ (id, e) :: s) free) :
    c.Removes p e s (c.drop id e.key).bump where
  erase key hk := by rw [h.erase_of_mem hk, c.drop_congr id hk]
  eraseAt x g hx hg := by
    obtain rfl : c.handle x.position = g := Cursor.Answer.handle.inj hg
    have hv : c.validate (c.handle x.position) = .ok (some id) := by
      rw [validate_eq_ok_iff, h.position_of_entryAt hx]
    exact eraseAt_of_mem h.order hv
  popFront hp := by
    subst hp
    exact popFront_cons h.order

end Ways

section Failures

theorem eraseAt_unchanged {error : CacheError} (he : (c.eraseAt g).result = .error error) :
    c.eraseAt g = { result := .error error, cache := c } := by
  cases hv : c.validate g with
  | error refusal =>
    rw [eraseAt_of_error hv] at he ⊢
    cases he
    rfl
  | ok slot =>
    cases hr : slot.bind fun id => (c.order.remove? id).map (id, ·) with
    | none =>
      simp only [eraseAt, hv, hr] at he ⊢
      cases he
      rfl
    | some removed => simp [eraseAt, hv, hr] at he

theorem Holds.refusals (h : c.Holds items free) : c.Refusals where
  erase key habsent := by
    rw [h.entries_eq, List.forall_mem_map] at habsent
    exact h.erase_of_absent (absent_iff.mpr habsent)
  popFront hempty := by
    rw [h.entries_eq, List.map_eq_nil_iff] at hempty
    subst hempty
    exact popFront_nil h.order
  foreign g ho := by rw [(refuses_foreign ho).eraseAt]
  stale g ho hg := by rw [(refuses_stale ho hg).eraseAt]
  unchanged _ _ he := eraseAt_unchanged he

/-- An accepted handle that stands past the end or on an entry erases one unless it stands past
the end. -/
theorem Holds.eraseAt_pastTheEnd_iff (h : c.Holds items free) (hg : g = c.handle g.slot)
    (stands : c.Stands g.slot) : (c.eraseAt g).result = .error .pastTheEnd ↔ g.slot = none := by
  have hv := validate_eq_ok_iff.mpr hg
  cases hs : g.slot with
  | none =>
    rw [hs] at hv
    rw [eraseAt_of_none hv]
    simp
  | some id =>
    rw [hs] at hv
    obtain ⟨p, e, s, rfl, -⟩ := h.order.exists_node (h.order.contains_iff.mp (stands id hs))
    rw [eraseAt_of_mem h.order hv]
    simp

end Failures

/-- In every reachable state an entry is removed alike by its key, by a handle on it, and from the
front. Handles of other caches and of other generations are refused, an accepted one that was given
out fails only past the end, and every failure leaves the cache as it was. -/
theorem run_removals [EquivBEq K] (id : UInt64) (capacity : Nat) (policy : Policy)
    (mode : RecencyMode) (steps : List (Instant × Command K V)) :
    ∃ o, (start id capacity policy mode : Cache K V).run steps = .ok o ∧
      (∀ p i e s, o.cache.order.entries = p ++ (i, e) :: s →
        ∃ d, o.cache.Without p i e s d ∧ o.cache.Removes p e s d) ∧
      o.cache.Refusals ∧
      ∀ g, g.owner = o.cache.id → g.generation = o.cache.generation →
        GivenOut ((start id capacity policy mode).history steps) g →
        ((o.cache.eraseAt g).result = .error .pastTheEnd ↔ g.slot = none) := by
  have hstart : (start id capacity policy mode : Cache K V).Coherent := coherent_start ..
  obtain ⟨o, ho, ⟨items, free, h⟩, -, hdated⟩ := hstart.run_dates steps
  refine ⟨o, ho, ?_, h.refusals, ?_⟩
  · intro p i e s hsplit
    rw [h.order.entries_eq] at hsplit
    subst hsplit
    exact ⟨_, h.without, h.removes⟩
  · rintro ⟨owner, slot, generation⟩ rfl rfl hgiven
    exact h.eraseAt_pastTheEnd_iff rfl (hdated _ hgiven rfl)

/-- The entry in the middle goes by its key and by a handle, and a handle on the end erases
nothing. -/
theorem run_removals_middle : EquivBEq Nat ∧ ∃ o d,
    (start 0 3 (.timeToLive 5) .onInsert : Cache Nat Nat).run [(0, .insert 1 10),
      (0, .insert 2 20), (9, .insert 3 30), (9, .cursor .orderedEnd [.handle])] = .ok o ∧
    o.cache.Without [(0, ⟨1, 10, 0⟩)] 1 ⟨2, 20, 0⟩ [(2, ⟨3, 30, 9⟩)] d ∧
    o.cache.erase 2 = .ok { result := true, cache := d } ∧
    o.cache.eraseAt ⟨0, some 1, 3⟩ = { result := .ok (2, 20), cache := d } ∧
    o.cache.eraseAt ⟨0, none, 3⟩ = { result := .error .pastTheEnd, cache := o.cache } := by
  obtain ⟨o, ho, hremoves, hrefusals, hgiven⟩ := run_removals (K := Nat) (V := Nat) 0 3
    (.timeToLive 5) .onInsert [(0, .insert 1 10), (0, .insert 2 20), (9, .insert 3 30),
      (9, .cursor .orderedEnd [.handle])]
  have hview : ((start 0 3 (.timeToLive 5) .onInsert : Cache Nat Nat).run [(0, .insert 1 10),
      (0, .insert 2 20), (9, .insert 3 30), (9, .cursor .orderedEnd [.handle])]).map
      (fun o => (o.cache.order.entries, o.cache.id, o.cache.generation,
        o.cache.order.get? 1)) =
      .ok ([(0, ⟨1, 10, 0⟩), (1, ⟨2, 20, 0⟩), (2, ⟨3, 30, 9⟩)], 0, 3, some ⟨2, 20, 0⟩) := by rfl
  rw [ho] at hview
  obtain ⟨hentries, hid, hgeneration, hget⟩ : o.cache.order.entries = _ ∧ o.cache.id = 0 ∧
      o.cache.generation = 3 ∧ o.cache.order.get? 1 = some ⟨2, 20, 0⟩ := by
    simpa [Except.map] using hview
  obtain ⟨d, hwithout, hways⟩ := hremoves [(0, ⟨1, 10, 0⟩)] 1 ⟨2, 20, 0⟩ [(2, ⟨3, 30, 9⟩)] hentries
  have hminted : GivenOut ((start 0 3 (.timeToLive 5) .onInsert : Cache Nat Nat).history
      [(0, .insert 1 10), (0, .insert 2 20), (9, .insert 3 30),
        (9, .cursor .orderedEnd [.handle])]) ⟨0, none, 3⟩ := by
    refine ⟨by decide, (coherent_start ..).honest (by simp), by decide⟩
  refine ⟨inferInstance, o, d, ho, hwithout, hways.erase 2 rfl, ?_, ?_⟩
  · apply hways.eraseAt (o.cache.cursor .ordered (some 1))
    · simp [entryAt, cursor, hget, Entry.pair]
    · simp [moveCursor, handle, cursor, hid, hgeneration]
  · apply hrefusals.unchanged
    exact (hgiven _ hid.symm hgeneration.symm hminted).mpr rfl

end Lru.Cache
