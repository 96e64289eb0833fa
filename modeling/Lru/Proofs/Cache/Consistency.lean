import Lru.Proofs.Reference.Refinement

/-! # Every reachable cache is consistent

Index, recency list, free chain and last accessed slot agree in every state
that a run of requests reaches, and every such run comes to its end: no check
on the way fails.
-/

namespace Lru.Cache

variable {K V : Type} [BEq K] {c : Cache K V} {items p s : List (SlotId × Entry K V)}
  {free : List SlotId}

/-- The parts of a cache agree. -/
structure Consistent (c : Cache K V) : Prop where
  /-- No two indexed keys are equal. -/
  distinct : c.index.entries.Pairwise fun a b => (a.1 == b.1) = false
  /-- The index names every occupied slot once and no other slot. -/
  slots_nodup : (c.index.entries.map Prod.snd).Nodup
  slots : ∀ id, id ∈ c.index.entries.map Prod.snd ↔ c.order.contains id = true
  /-- A key leads to the slot whose entry holds an equal key. -/
  index : ∀ key id, c.index.get? key = some id ↔
    ∃ entry, c.order.get? id = some entry ∧ (key == entry.key) = true
  /-- The links pass the occupied slots from end to end, in both directions. -/
  order : ∃ ids : List SlotId, Chain c.order.nextLink c.order.head ids ∧
    Chain c.order.prevLink c.order.tail ids.reverse ∧ ids.Nodup ∧
    ∀ id, id ∈ ids ↔ c.order.contains id = true
  /-- The free chain passes the vacant slots. -/
  free : ∃ ids : List SlotId, Chain c.order.nodes.vacantLink c.order.nodes.freeHead ids ∧
    ids.Nodup ∧ ∀ id, id ∈ ids ↔ id < c.order.slotCount ∧ c.order.contains id = false
  len_le : c.len ≤ c.capacity
  remembers : ∀ id, c.lastAccessed = some id → c.order.contains id = true

theorem Holds.index_iff [PartialEquivBEq K] (h : c.Holds items free) (key : K) (id : SlotId) :
    c.index.get? key = some id ↔
      ∃ entry, c.order.get? id = some entry ∧ (key == entry.key) = true := by
  constructor
  · intro hg
    rcases absent_or key items with ha | ⟨p, i, entry, s, rfl, hk⟩
    · rw [h.get?_index_of_absent ha] at hg
      cases hg
    · rw [h.get?_index hk] at hg
      cases hg
      exact ⟨entry, h.get?_order, hk⟩
  · rintro ⟨entry, hg, hk⟩
    obtain ⟨p, s, rfl⟩ := List.append_of_mem (h.order.get?_eq_some_iff.mp hg)
    exact h.get?_index hk

theorem Holds.slots_perm (h : c.Holds items free) :
    (c.index.entries.map Prod.snd).Perm (items.map Prod.fst) := by
  have hp := h.index.map Prod.snd
  rwa [keyed, List.map_map] at hp

theorem Holds.consistent [PartialEquivBEq K] (h : c.Holds items free) (hr : c.Remembers) :
    c.Consistent where
  distinct := h.distinct
  slots_nodup := h.slots_perm.nodup_iff.mpr h.order.nodup
  slots id := by rw [h.slots_perm.mem_iff, h.order.contains_iff]
  index := h.index_iff
  order := by
    obtain ⟨ids, hnext, hprev, hnodup, -, hids⟩ := h.order.chained
    exact ⟨ids, hnext, hprev, hnodup, hids⟩
  free := by
    refine ⟨free, h.order.vacates.chain, h.order.vacates.nodup, ?_⟩
    intro id
    rw [h.order.vacates.mem_iff, RecencyList.contains_eq_false_iff]
    rfl
  len_le := h.len_eq ▸ h.le_capacity
  remembers := hr

section Audit

variable [EquivBEq K]

theorem Holds.checkNodes (h : c.Holds items free) (s p : List (SlotId × Entry K V)) (budget : Nat)
    (he : items = p ++ s) (hb : s.length ≤ budget) :
    c.checkNodes (RecencyList.lastId p) budget (RecencyList.firstId s) = .ok s.length := by
  induction s generalizing p budget with
  | nil => cases budget <;> rfl
  | cons x s ih =>
    obtain ⟨id, entry⟩ := x
    cases budget with
    | zero => simp at hb
    | succ budget =>
      have hn := h.order.node p id entry s he
      rw [he] at h
      have hc : c.checkNode (RecencyList.lastId p) id
          ⟨entry, RecencyList.lastId p, RecencyList.firstId s⟩ = .ok () := by
        simp [checkNode, h.get?_index (BEq.rfl (a := entry.key))]
      have hs := ih (p ++ [(id, entry)]) budget (by simpa using he) (by simpa using hb)
      rw [RecencyList.lastId_append_cons, RecencyList.lastId_singleton] at hs
      simp only [RecencyList.firstId_cons, Cache.checkNodes, hn, hc, hs]
      rfl

/-- The audit finds nothing wrong. -/
theorem Holds.checkInvariants (h : c.Holds items free) (hr : c.Remembers) :
    c.checkInvariants = .ok () := by
  have hwalk : c.checkNodes none c.order.len c.order.head = .ok c.order.len := by
    rw [h.order.len_eq, h.order.head]
    exact h.checkNodes items [] _ rfl (Nat.le_refl _)
  have hsize : c.index.size = c.order.len := h.size_eq.trans h.order.len_eq.symm
  have hlen : ¬ c.capacity < c.len := by
    rw [h.len_eq]
    exact Nat.not_lt.mpr h.le_capacity
  cases hm : c.lastAccessed with
  | none =>
    simp only [Cache.checkInvariants, hsize, hlen, hwalk, hm]
    simp [bind, Except.bind, pure, Except.pure]
  | some id =>
    simp only [Cache.checkInvariants, hsize, hlen, hwalk, hm, hr id hm]
    simp [bind, Except.bind, pure, Except.pure]

end Audit

/-- Every run from a new cache ends, and ends in a consistent cache that passes its audit. -/
theorem run_consistent [EquivBEq K] (id : UInt64) (capacity : Nat) (policy : Policy)
    (mode : RecencyMode) (steps : List (Instant × Command K V)) :
    ∃ outcome, (start id capacity policy mode : Cache K V).run steps = .ok outcome ∧
      outcome.cache.Consistent ∧ outcome.cache.checkInvariants = .ok () := by
  have hc : (start id capacity policy mode : Cache K V).Coherent := ⟨_, _, holds_start ..⟩
  obtain ⟨outcome, hrun, ⟨items, free, h⟩, hr⟩ := hc.run steps
  have hm : outcome.cache.Remembers := hr fun i hi => nomatch hi
  exact ⟨outcome, hrun, h.consistent hm, h.checkInvariants hm⟩

/-- Also with a clock that goes back, where a slot is vacated and taken again. -/
theorem run_consistent_backwards : EquivBEq Nat ∧
    ∃ outcome, (start 0 1 (.timeToLive 5) .onAccess : Cache Nat Nat).run
        [(9, .insert 1 10), (3, .insert 2 20), (20, .purgeExpired), (4, .insert 3 30)] =
          .ok outcome ∧
      outcome.cache.Consistent ∧ outcome.cache.checkInvariants = .ok () :=
  ⟨inferInstance, run_consistent 0 1 (.timeToLive 5) .onAccess _⟩

end Lru.Cache
