import Lru.Proofs.Cache.Cursors
import Lru.Proofs.History.Loading

/-! # Resizing

A cache that is resized keeps the most recent entries that fit. If it need not
evict, only its capacity changes; otherwise the entries that are left are packed
into the first slots, and index, last accessed slot and generation follow.
-/

namespace Lru

namespace RecencyList

variable {α : Type} {values : List α} {id : SlotId} {value : α}

theorem mem_packed : (id, value) ∈ packed 0 values ↔ values[id]? = some value := by
  rw [packed, List.mem_map, ← List.mem_zipIdx_iff_getElem? (x := (value, id))]
  constructor
  · rintro ⟨⟨v, i⟩, hm, he⟩
    obtain ⟨rfl, rfl⟩ := Prod.mk.inj he
    exact hm
  · intro hm
    exact ⟨(value, id), hm, rfl⟩

theorem packed_sorted (values : List α) : (packed 0 values).Pairwise fun x y => x.1 < y.1 := by
  have h : ((packed 0 values).map Prod.fst).Pairwise (· < ·) := by
    rw [map_fst_packed]
    exact List.pairwise_lt_range'
  exact List.pairwise_map.mp h

end RecencyList

namespace Reference

variable {K V : Type}

theorem newest_newest (m n : Nat) (entries : List (Entry K V)) :
    newest m (newest n entries) = newest (min m n) entries := by
  rw [newest, newest, newest, List.drop_drop, List.length_drop]
  congr 1
  omega

end Reference

namespace Cache

open Reference

variable {K V : Type} [BEq K]

/-- The entries stand in the first `n` slots in recency order, where the index finds them. -/
structure Packed (c : Cache K V) (n : Nat) : Prop where
  slots : c.order.entries.map Prod.fst = List.range n
  slotCount : c.order.slotCount = n
  /-- Both kinds of cursors take the same way. -/
  visits : c.visits .unordered = c.visits .ordered
  rest : c.rest c.unorderedBegin = c.rest c.orderedBegin
  index : ∀ key id, c.index.get? key = some id ↔
    ∃ e, c.entries[id]? = some e ∧ (key == e.key) = true
  size : c.index.size = n
  lastAccessed : c.lastAccessed = none

/-- What the cache `c` becomes when its capacity is changed to `n`. -/
structure Resized (c : Cache K V) (n : Nat) (d : Cache K V) : Prop where
  capacity : d.capacity = n
  entries : d.entries = newest n c.entries
  /-- Nothing is evicted, and all handles stay valid. -/
  fits : c.len ≤ n → d = { c with capacity := n } ∧ ∀ g, g = c.handle g.slot → d.Honours c g
  packed : n < c.len → d.Packed n
  exceeds : n < c.len → d.generation = c.generation + 1 ∧ d.id = c.id ∧ d.policy = c.policy ∧
    d.mode = c.mode

variable {c d : Cache K V} {items : List (SlotId × Entry K V)} {free : List SlotId}
  {values : List (Entry K V)} {n : Nat}

section Packed

theorem Holds.visits_of_sorted (h : c.Holds items free)
    (sorted : items.Pairwise fun x y => x.1 < y.1) : c.visits .unordered = c.visits .ordered := by
  have hperm : c.order.stored.Perm items := h.order.stored_perm
  rw [visits, visits, h.order.entries_eq]
  refine hperm.eq_of_pairwise ?_ c.order.stored_sorted sorted
  intro x y _ _ hxy hyx
  exact absurd hyx (Nat.lt_asymm hxy)

variable [EquivBEq K]

theorem Holds.packed (h : c.Holds (RecencyList.packed 0 values) [])
    (forgotten : c.lastAccessed = none) : c.Packed values.length := by
  have hvisits := h.visits_of_sorted (RecencyList.packed_sorted values)
  have hentries : c.entries = values := by rw [h.entries_eq, RecencyList.map_snd_packed]
  constructor
  case slots => rw [h.order.entries_eq, RecencyList.map_fst_packed, List.range_eq_range']
  case slotCount => rw [h.order.slotCount_eq, RecencyList.length_packed]
  case visits => exact hvisits
  case rest =>
    rw [h.begin_nth.1, h.begin_nth.2, h.rest_nth, h.rest_nth, yields, yields, hvisits]
  case index =>
    intro key id
    rw [h.index_iff, hentries]
    simp only [h.order.get?_eq_some_iff, RecencyList.mem_packed]
  case size => rw [h.size_eq, RecencyList.length_packed]
  case lastAccessed => exact forgotten

end Packed

section Resize

omit [BEq K] in
theorem newest_eq_drop (items : List (SlotId × Entry K V)) (n : Nat) :
    newest n (items.map Prod.snd) = (items.drop (excess items n)).map Prod.snd := by
  rw [newest, List.length_map, List.map_drop, excess]

variable [EquivBEq K]

theorem Holds.resized (h : c.Holds items free) (n : Nat) :
    ∃ p, c.setCapacity n = .ok p ∧ p.cache.Coherent ∧ c.Resized n p.cache := by
  have hlen := h.len_eq
  rcases Nat.lt_or_ge n items.length with hexceeds | hfits
  · have hp : (c.shrunk items n).compact.cache.bump.Holds
        (RecencyList.packed 0 ((items.drop (excess items n)).map Prod.snd)) [] := by
      obtain ⟨free', hs⟩ := h.shrunk n
      exact hs.compact.congr rfl rfl rfl
    have hpacked : (c.shrunk items n).compact.cache.bump.Packed n := by
      have hkept : ((items.drop (excess items n)).map Prod.snd).length = n := by
        rw [List.length_map, List.length_drop, excess]
        omega
      simpa only [hkept] using hp.packed rfl
    refine ⟨_, h.setCapacity_of_exceeds hexceeds, ⟨_, _, hp⟩, ?_⟩
    constructor
    case capacity => rfl
    case entries =>
      rw [hp.entries_eq, RecencyList.map_snd_packed, h.entries_eq, newest_eq_drop]
    case fits => intro hle; omega
    case packed => exact fun _ => hpacked
    case exceeds =>
      intro _
      simp [bump, Cache.compact, Cache.shrunk, dropAll_eq]
  · have hd : ({ c with capacity := n } : Cache K V).Holds items free :=
      ⟨h.order, h.index, h.distinct, hfits⟩
    refine ⟨_, h.setCapacity_of_fits hfits, ⟨_, _, hd⟩, ?_⟩
    constructor
    case capacity => rfl
    case entries =>
      rw [newest_of_fits]
      · rfl
      · rwa [h.entries_eq, List.length_map]
    case fits => exact fun _ => ⟨rfl, fun g hg => hd.honours hg rfl⟩
    case packed => intro hlt; omega
    case exceeds => intro hlt; omega

/-- Evicting ends because it is not asked for any more, whatever the fuel. -/
theorem Holds.evictWhile_ends (h : c.Holds items free) (n : Nat) {fuel : Nat} (hf : c.len ≤ fuel) :
    (evictWhile (fun c => n < c.len) fuel c).result = c.len - n ∧
      (evictWhile (fun c => n < c.len) fuel c).cache.len ≤ n := by
  have hlen := h.len_eq
  obtain ⟨free', hd⟩ := h.dropAll_excess n
  rw [evictWhile_eq h.order (hlen ▸ hf), h.evicting_capacity]
  constructor
  · rw [hlen]
    rfl
  · rw [hd.len_eq, List.length_drop, excess]
    omega

/-- Of two changes of the capacity the first counts only as far as it goes below the second. -/
theorem Coherent.resized_twice (h : c.Coherent) (a b : Nat) :
    ∃ p q, c.setCapacity a = .ok p ∧ p.cache.setCapacity b = .ok q ∧
      q.cache.entries = newest (min a b) c.entries := by
  obtain ⟨items, free, h⟩ := h
  obtain ⟨p, hp, ⟨items', free', h'⟩, hfirst⟩ := h.resized a
  obtain ⟨q, hq, -, hsecond⟩ := h'.resized b
  refine ⟨p, q, hp, hq, ?_⟩
  rw [hsecond.entries, hfirst.entries, newest_newest, Nat.min_comm]

end Resize

/-- In every reachable state a change of the capacity goes through and keeps the most recent
entries that fit, packed into the first slots if others had to go. The loop that evicts them ends
by itself. -/
theorem run_resizes [EquivBEq K] (id : UInt64) (capacity : Nat) (policy : Policy)
    (mode : RecencyMode) (steps : List (Instant × Command K V)) :
    ∃ o, (start id capacity policy mode : Cache K V).run steps = .ok o ∧
      (∀ n, ∃ p, o.cache.setCapacity n = .ok p ∧ o.cache.Resized n p.cache ∧
        ∀ fuel, o.cache.len ≤ fuel →
          (evictWhile (fun c => n < c.len) fuel o.cache).result = o.cache.len - n ∧
          (evictWhile (fun c => n < c.len) fuel o.cache).cache.len ≤ n) ∧
      ∀ a b, ∃ p q p' q', o.cache.setCapacity a = .ok p ∧ p.cache.setCapacity b = .ok q ∧
        o.cache.setCapacity (min a b) = .ok p' ∧ p'.cache.setCapacity b = .ok q' ∧
        q.cache.entries = q'.cache.entries := by
  have hstart : (start id capacity policy mode : Cache K V).Coherent := coherent_start ..
  obtain ⟨o, ho, hc, -⟩ := hstart.run steps
  refine ⟨o, ho, ?_, ?_⟩
  · intro n
    obtain ⟨items, free, h⟩ := hc
    obtain ⟨p, hp, -, hresized⟩ := h.resized n
    exact ⟨p, hp, hresized, fun fuel hf => h.evictWhile_ends n hf⟩
  · intro a b
    obtain ⟨p, q, hp, hq, hentries⟩ := hc.resized_twice a b
    obtain ⟨p', q', hp', hq', hentries'⟩ := hc.resized_twice (min a b) b
    refine ⟨p, q, p', q', hp, hq, hp', hq', ?_⟩
    rw [hentries, hentries', Nat.min_eq_left (Nat.min_le_right a b)]

/-- The least recent entry stands in the last slot, and the others move to the first ones. -/
theorem run_resizes_packed : EquivBEq Nat ∧ ∃ o p,
    (start 0 3 .capacity .onInsert : Cache Nat Nat).run [(0, .insert 1 10), (0, .insert 2 20),
      (0, .insert 3 30), (0, .touch 2), (0, .touch 1)] = .ok o ∧
    o.cache.setCapacity 2 = .ok p ∧ o.cache.Resized 2 p.cache ∧
    p.cache.entries = [⟨2, 20, 0⟩, ⟨1, 10, 0⟩] ∧ p.cache.Packed 2 := by
  obtain ⟨o, ho, hresizes, -⟩ := run_resizes (K := Nat) (V := Nat) 0 3 .capacity .onInsert
    [(0, .insert 1 10), (0, .insert 2 20), (0, .insert 3 30), (0, .touch 2), (0, .touch 1)]
  obtain ⟨p, hp, hresized, -⟩ := hresizes 2
  have hview : ((start 0 3 .capacity .onInsert : Cache Nat Nat).run [(0, .insert 1 10),
      (0, .insert 2 20), (0, .insert 3 30), (0, .touch 2), (0, .touch 1)]).map
      (fun o => (o.cache.entries, o.cache.len)) =
      .ok ([⟨3, 30, 0⟩, ⟨2, 20, 0⟩, ⟨1, 10, 0⟩], 3) := by rfl
  rw [ho] at hview
  obtain ⟨hentries, hlen⟩ := Prod.mk.inj (Except.ok.inj hview)
  refine ⟨inferInstance, o, p, ho, hp, hresized, ?_, hresized.packed ?_⟩
  · rw [hresized.entries, hentries]
    rfl
  · rw [hlen]
    decide

end Cache

end Lru
