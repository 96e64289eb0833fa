import Lru.Cache.Command
import Lru.Proofs.Cache.Steps

/-! # Operations on a cache that holds entries

Each operation on a cache with known content, told in steps: which case applies
follows from the place of its key and from the reading, and the checks at the
end of an operation never fail.
-/

namespace Lru.Cache

variable {K V : Type} [BEq K] {c : Cache K V} {items p s : List (SlotId × Entry K V)}
  {free : List SlotId} {id : SlotId} {entry : Entry K V} {key : K} {now : Instant}

theorem Holds.insert_of_capacity_eq_zero (h : c.Holds items free) (ha : Absent key items)
    (hc : c.capacity = 0) (now : Instant) (value : V) :
    c.insert now key value =
      .ok { result := { inserted := false, handle := c.handle none }, cache := c } := by
  simp [insert, h.get?_index_of_absent ha, hc]

theorem insertAll_cons {value : V} {rest : List (K × V)} {first : Outcome K V Insertion}
    {others : Outcome K V Nat} (hfirst : c.insert now key value = .ok first)
    (hothers : first.cache.insertAll now rest = .ok others) :
    c.insertAll now ((key, value) :: rest) =
      .ok ((others.map (· + first.result.inserted.toNat)).after first.notices) := by
  simp only [insertAll, hfirst, bind, Except.bind, hothers]
  rfl

theorem Holds.erase_of_absent (h : c.Holds items free) (ha : Absent key items) :
    c.erase key = .ok { result := false, cache := c } := by
  simp [erase, h.get?_index_of_absent ha]

theorem popFront_nil (h : c.order.Holds [] free) :
    c.popFront = { result := none, cache := c } := by
  simp [popFront, evictFront_nil h]

theorem popFront_cons (h : c.order.Holds ((id, entry) :: s) free) :
    c.popFront = { result := some (entry.key, entry.value), cache := (c.drop id entry.key).bump
                   notices := [.trace (.evicted s.length c.capacity)] } := by
  simp [popFront, evictFront_cons h]

theorem eraseAt_of_error {handle : Handle} {e : CacheError} (hv : c.validate handle = .error e) :
    c.eraseAt handle = { result := .error e, cache := c } := by
  simp [eraseAt, hv]

theorem eraseAt_of_none {handle : Handle} (hv : c.validate handle = .ok none) :
    c.eraseAt handle = { result := .error .pastTheEnd, cache := c } := by
  simp [eraseAt, hv]

theorem eraseAt_of_vacant {handle : Handle} (h : c.order.Holds items free)
    (hv : c.validate handle = .ok (some id)) (hid : id ∉ items.map Prod.fst) :
    c.eraseAt handle = { result := .error .pastTheEnd, cache := c } := by
  have hg := h.get?_eq_none_iff.mpr hid
  simp [eraseAt, hv, RecencyList.remove?_eq_none hg]

theorem eraseAt_of_mem {handle : Handle} (h : c.order.Holds (p ++ (id, entry) :: s) free)
    (hv : c.validate handle = .ok (some id)) :
    c.eraseAt handle =
      { result := .ok (entry.key, entry.value), cache := (c.drop id entry.key).bump } := by
  have hg : c.order.get? id = some entry := h.get?_of_mem (by simp)
  simp [eraseAt, hv, RecencyList.remove?_eq_some hg]
  rfl

variable [EquivBEq K]

theorem Holds.insert_of_mem (h : c.Holds (p ++ (id, entry) :: s) free) (hk : key == entry.key)
    (now : Instant) (value : V) : c.insert now key value = .ok (c.replace now id value) := by
  simp [insert, h.get?_index hk]

theorem Holds.insert_of_room (h : c.Holds items free) (ha : Absent key items)
    (hl : items.length < c.capacity) (now : Instant) (value : V) :
    c.insert now key value = .ok (c.append now key value) := by
  have hn : c.capacity ≠ 0 := by omega
  have hf : c.isFull = false := by simp [isFull, h.len_eq, hl]
  simp [insert, h.get?_index_of_absent ha, hn, hf, (h.append ha hl now value).audited]

/-- What a full cache is after the front went and a new entry came. -/
theorem Holds.drop_append (h : c.Holds ((id, entry) :: s) free)
    (ha : Absent key ((id, entry) :: s)) (now : Instant) (value : V) :
    ((c.drop id entry.key).append now key value).cache.Holds
      (s ++ [(id, ⟨key, value, now⟩)]) free := by
  have hd := h.drop (p := []) (BEq.rfl (a := entry.key))
  have ha' : Absent key s := (List.forall_mem_cons.mp ha).2
  have hl : s.length < (c.drop id entry.key).capacity := by
    have := h.le_capacity
    simpa [drop_eq, Nat.succ_le_iff] using this
  exact hd.append ha' hl now value

theorem Holds.insert_of_full (h : c.Holds ((id, entry) :: s) free)
    (ha : Absent key ((id, entry) :: s)) (hc : c.capacity = s.length + 1) (now : Instant)
    (value : V) :
    c.insert now key value =
      .ok (((c.drop id entry.key).append now key value).after
        [.trace (.evicted s.length c.capacity)]) := by
  have hn : c.capacity ≠ 0 := by omega
  have hf : c.isFull = true := by simp [isFull, h.len_eq, hc]
  have hafter : (((c.drop id entry.key).append now key value).after
      [.trace (.evicted s.length c.capacity)]).cache.Holds
        (s ++ [(id, ⟨key, value, now⟩)]) free := h.drop_append ha now value
  simp [insert, h.get?_index_of_absent ha, hn, hf, evictFront_cons h.order, hafter.audited]

/-- The four ways in which an insertion ends. -/
inductive Storing (c : Cache K V) (items : List (SlotId × Entry K V)) (now : Instant) (key : K)
    (value : V) : Prop
  | refused (absent : Absent key items) (empty : c.capacity = 0)
      (inserted : c.insert now key value = .ok ⟨⟨false, c.handle none⟩, c, []⟩)
  | replaced (p : List (SlotId × Entry K V)) (id : SlotId) (entry : Entry K V)
      (s : List (SlotId × Entry K V)) (split : items = p ++ (id, entry) :: s)
      (same : key == entry.key) (inserted : c.insert now key value = .ok (c.replace now id value))
  | appended (absent : Absent key items) (room : items.length < c.capacity)
      (inserted : c.insert now key value = .ok (c.append now key value))
  | displaced (id : SlotId) (entry : Entry K V) (s : List (SlotId × Entry K V))
      (split : items = (id, entry) :: s) (absent : Absent key ((id, entry) :: s))
      (full : c.capacity = s.length + 1)
      (inserted : c.insert now key value =
        .ok (((c.drop id entry.key).append now key value).after
          [.trace (.evicted s.length c.capacity)]))

theorem Holds.storing (h : c.Holds items free) (now : Instant) (key : K) (value : V) :
    c.Storing items now key value := by
  rcases absent_or key items with ha | ⟨p, id, entry, s, rfl, hk⟩
  · by_cases hc : c.capacity = 0
    · exact .refused ha hc (h.insert_of_capacity_eq_zero ha hc now value)
    rcases Nat.lt_or_eq_of_le h.le_capacity with hl | hl
    · exact .appended ha hl (h.insert_of_room ha hl now value)
    · obtain ⟨⟨id, entry⟩, s, rfl⟩ : ∃ x s, items = x :: s :=
        List.exists_cons_of_length_pos (by omega)
      exact .displaced id entry s rfl ha hl.symm (h.insert_of_full ha hl.symm now value)
  · exact .replaced p id entry s rfl hk (h.insert_of_mem hk now value)

theorem Holds.erase_of_mem (h : c.Holds (p ++ (id, entry) :: s) free) (hk : key == entry.key) :
    c.erase key = .ok { result := true, cache := (c.drop id key).bump } := by
  have hr : c.order.remove? id = some (entry, c.order.without id) :=
    RecencyList.remove?_eq_some h.get?_order
  have hd : (c.drop id key).bump.Holds (p ++ s) (id :: free) :=
    (h.drop hk).congr rfl rfl rfl
  rw [drop_eq] at hd
  simp only [erase, h.get?_index hk, forget_eq, Cache.remembering, hr, drop_eq]
  exact hd.audited (o := ⟨true, _, []⟩)

section Shrink

/-- The number of entries that do not fit into `capacity`. -/
def excess (items : List (SlotId × Entry K V)) (capacity : Nat) : Nat :=
  items.length - capacity

/-- What is left when the entries that do not fit are dropped. -/
theorem Holds.dropAll_excess (h : c.Holds items free) (capacity : Nat) :
    ∃ free', (c.dropAll (items.take (excess items capacity))).Holds
      (items.drop (excess items capacity)) free' :=
  ⟨_, Holds.dropAll (by rwa [List.take_append_drop])⟩

theorem Holds.evicting_capacity (h : c.Holds items free) (capacity : Nat) :
    evicting (fun c => decide (capacity < c.len)) c items = excess items capacity := by
  refine evicting_eq (Nat.sub_le _ _) fun i hi => ?_
  have hd : (c.dropAll (items.take i)).Holds (items.drop i) _ :=
    Holds.dropAll (by rwa [List.take_append_drop])
  simp only [hd.len_eq, List.length_drop, excess] at hi ⊢
  exact decide_eq_decide.mpr (by omega)

theorem Holds.evictWhile_capacity (h : c.Holds items free) (capacity : Nat) :
    evictWhile (fun c => capacity < c.len) c.order.slotCount c =
      { result := excess items capacity, cache := c.dropAll (items.take (excess items capacity))
        notices := Notice.evictions c.capacity items.length (excess items capacity) } := by
  rw [evictWhile_slotCount h.order, h.evicting_capacity]

theorem Holds.setCapacity_of_fits (h : c.Holds items free) {capacity : Nat}
    (hc : items.length ≤ capacity) :
    c.setCapacity capacity = .ok { result := (), cache := { c with capacity } } := by
  have he : excess items capacity = 0 := Nat.sub_eq_zero_of_le hc
  have hr : ({ c with capacity } : Cache K V).Holds items free :=
    ⟨h.order, h.index, h.distinct, hc⟩
  simp only [setCapacity, h.evictWhile_capacity, he, List.take_zero, Cache.dropAll, if_true]
  exact hr.audited (o := ⟨(), _, []⟩)

/-- The cache that keeps only as many of the most recent entries as fit into `capacity`, before
they are repacked. -/
def shrunk (c : Cache K V) (items : List (SlotId × Entry K V)) (capacity : Nat) : Cache K V :=
  { c.dropAll (items.take (excess items capacity)) with capacity }

theorem Holds.shrunk (h : c.Holds items free) (capacity : Nat) :
    ∃ free', (c.shrunk items capacity).Holds (items.drop (excess items capacity)) free' := by
  obtain ⟨free', hd⟩ := h.dropAll_excess capacity
  refine ⟨free', hd.order, hd.index, hd.distinct, ?_⟩
  simp only [List.length_drop, excess, Cache.shrunk]
  omega

theorem Holds.setCapacity_of_exceeds (h : c.Holds items free) {capacity : Nat}
    (hc : capacity < items.length) :
    c.setCapacity capacity = .ok
      { result := (), cache := (c.shrunk items capacity).compact.cache.bump
        notices := Notice.evictions c.capacity items.length (excess items capacity) ++
          [.trace (.shrank (excess items capacity) capacity), .trace (.compacted capacity)] } := by
  have he : excess items capacity ≠ 0 := by simp only [excess]; omega
  obtain ⟨free', hs⟩ := h.shrunk capacity
  have hp := hs.compact
  have hcount : (c.shrunk items capacity).compact.cache.order.slotCount = capacity := by
    rw [hp.order.slotCount_eq]
    simp only [RecencyList.length_packed, List.length_map, List.length_drop, excess]
    omega
  have hn : (c.shrunk items capacity).compact.notices = [.trace (.compacted capacity)] :=
    congrArg (fun n => [Notice.trace (TraceEvent.compacted n)]) hcount
  have hb : (c.shrunk items capacity).compact.cache.bump.Holds _ [] := hp.congr rfl rfl rfl
  simp only [setCapacity, h.evictWhile_capacity, he, if_false]
  refine (hb.audited (o := ⟨(), _, _⟩)).trans ?_
  rw [← hn]
  rfl

end Shrink

section Purge

/-- Whether an entry has expired. -/
def dead (c : Cache K V) (now : Instant) (x : SlotId × Entry K V) : Bool :=
  !c.policy.isLive now x.2.stamp

theorem any_getElem?_takeWhile {α : Type} (f : α → Bool) (l : List α) :
    ∀ i ≤ (l.takeWhile f).length, l[i]?.any f = decide (i < (l.takeWhile f).length) := by
  induction l with
  | nil => simp
  | cons x l ih =>
    intro i hi
    cases hx : f x with
    | false =>
      obtain rfl : i = 0 := by simpa [List.takeWhile_cons, hx] using hi
      simp [hx]
    | true =>
      cases i with
      | zero => simp [hx]
      | succ i => simpa [List.takeWhile_cons, hx] using ih i (by
          simpa [List.takeWhile_cons, hx] using hi)

omit [EquivBEq K] in
theorem Holds.frontIsDead_eq (h : c.Holds items free) (now : Instant) :
    frontIsDead now c = items.head?.any (c.dead now) := by
  cases items with
  | nil => simp [frontIsDead, h.order.head]
  | cons x s =>
    obtain ⟨id, entry⟩ := x
    simp [frontIsDead, h.order.head, isLiveAt, h.get?_order (p := []), dead]

/-- The entries that purging removes. -/
def expired (c : Cache K V) (now : Instant) (items : List (SlotId × Entry K V)) :
    List (SlotId × Entry K V) :=
  items.takeWhile (c.dead now)

theorem Holds.evictWhile_dead (h : c.Holds items free) (now : Instant) :
    evictWhile (frontIsDead now) c.order.slotCount c =
      { result := (c.expired now items).length, cache := c.dropAll (c.expired now items)
        notices := Notice.evictions c.capacity items.length (c.expired now items).length } := by
  have htake : items.take (c.expired now items).length = c.expired now items :=
    (List.prefix_iff_eq_take.mp (List.takeWhile_prefix _)).symm
  have hk : evicting (frontIsDead now) c items = (c.expired now items).length := by
    refine evicting_eq (List.takeWhile_sublist _).length_le fun i hi => ?_
    have hd : (c.dropAll (items.take i)).Holds (items.drop i) _ :=
      Holds.dropAll (by rwa [List.take_append_drop])
    have hp : (c.dropAll (items.take i)).dead now = c.dead now := by
      funext x
      simp [dead, dropAll_eq]
    rw [hd.frontIsDead_eq, List.head?_drop, hp]
    exact any_getElem?_takeWhile _ _ i hi
  rw [evictWhile_slotCount h.order, hk, htake]

theorem Holds.purgeExpired_of_live (h : c.Holds items free) (hn : c.expired now items = []) :
    c.purgeExpired now = .ok { result := 0, cache := c } := by
  simp only [purgeExpired, h.evictWhile_dead, hn, List.length_nil, if_true, Cache.dropAll]
  exact h.audited (o := ⟨0, c, []⟩)

/-- What is left when the expired entries at the front are dropped. -/
theorem Holds.dropAll_expired (h : c.Holds items free) (now : Instant) :
    ∃ free', (c.dropAll (c.expired now items)).Holds (items.dropWhile (c.dead now)) free' :=
  ⟨_, Holds.dropAll (by rwa [expired, List.takeWhile_append_dropWhile])⟩

theorem Holds.purgeExpired_of_dead (h : c.Holds items free) (hn : c.expired now items ≠ []) :
    c.purgeExpired now = .ok
      { result := (c.expired now items).length
        cache := (c.dropAll (c.expired now items)).bump
        notices :=
          Notice.evictions c.capacity items.length (c.expired now items).length ++
            [.trace (.purged (c.expired now items).length
              (items.dropWhile (c.dead now)).length)] } := by
  have hk : (c.expired now items).length ≠ 0 := mt List.length_eq_zero_iff.mp hn
  obtain ⟨free', hd⟩ := h.dropAll_expired now
  have hb : (c.dropAll (c.expired now items)).bump.Holds _ free' := hd.congr rfl rfl rfl
  simp only [purgeExpired, h.evictWhile_dead, hk, if_false, hd.len_eq]
  exact hb.audited (o := ⟨_, _, _⟩)

end Purge

end Lru.Cache
