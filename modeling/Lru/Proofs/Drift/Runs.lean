import Lru.Proofs.Drift.Requests
import Lru.Proofs.History.Basic
import Lru.Proofs.Key

/-! # How far a run lets index and recency list drift apart

Whatever the keys are, a run that does not fail leaves a recency list that is
linked as it should be. Its index has as many keys too many as entries with
stray keys have left the list since the cache was new or cleared, and that
number decides which request fails next.
-/

namespace Lru

/-- How many entries with stray keys have left the recency list since the cache was new or
cleared. -/
def Deed.strayed {K V : Type} [BEq K] (past : List (Deed K V)) : Nat :=
  past.foldl (fun g d => d.before.drift g d.now d.command) 0

namespace Cache

variable {K V : Type} [BEq K] {c d : Cache K V} {items : List (SlotId × Entry K V)}
  {free : List SlotId} {g : Nat} {steps : List (Instant × Command K V)}

/-- The parts of a cache agree, save for `g` keys in the index. -/
structure Adrift (c : Cache K V) (g : Nat) : Prop where
  /-- The links pass the occupied slots from end to end, in both directions. -/
  order : ∃ ids : List SlotId, Chain c.order.nextLink c.order.head ids ∧
    Chain c.order.prevLink c.order.tail ids.reverse ∧ ids.Nodup ∧ ids.length = c.order.len ∧
    ∀ id, id ∈ ids ↔ c.order.contains id = true
  fits : c.order.len ≤ c.capacity
  /-- A stored key that equals itself leads to its own slot. -/
  index : ∀ id entry, c.order.get? id = some entry → (entry.key == entry.key) = true →
    c.index.get? entry.key = some id
  size : c.index.size = c.order.len + g

/-- Evicting while `due` asks for it comes to an end: more rounds than there are entries change
nothing, and at last `due` does not ask any more or there is no entry left. -/
def Settles (c : Cache K V) (due : Cache K V → Bool) : Prop :=
  ∀ fuel, c.order.len ≤ fuel → evictWhile due fuel c = evictWhile due c.order.slotCount c ∧
    (due (evictWhile due fuel c).cache = false ∨ (evictWhile due fuel c).cache.order.len = 0)

/-- What becomes of a request to a cache with drift `g`. -/
structure Judged (c : Cache K V) (g : Nat) (now : Instant) (command : Command K V) : Prop where
  fails_iff : (∃ e, c.perform now command = .error e) ↔
    c.checked command = true ∧ c.drift g now command ≠ 0
  /-- The fault tells how many entries were left, and the drift. -/
  fault : ∀ e, c.perform now command = .error e → ∃ queued,
    e = .misaligned (queued + c.drift g now command) queued ∧
      c.order.len + (c.arriving command).length = queued + (c.departing now command).length
  tells : ∀ o, c.perform now command = .ok o → c.tells command o.result
  /-- Keys come and go with the entries that are added and taken. -/
  keys : ∀ o, c.perform now command = .ok o → (c.storedKeys ++ c.arriving command).Perm
    (o.cache.storedKeys ++ (c.departing now command).map Entry.key)

variable [PartialEquivBEq K]

theorem Drifts.settles (h : c.Drifts items free g) (due : Cache K V → Bool) : c.Settles due := by
  intro fuel hf
  rw [h.order.len_eq] at hf
  rw [evictWhile_slotCount h.order, evictWhile_eq h.order hf]
  refine ⟨rfl, ?_⟩
  rcases Nat.lt_or_eq_of_le (evicting_le due c items) with hl | he
  · exact .inl (not_due_of_evicting hl)
  · have hlen := (h.evicted (evicting due c items)).order.len_eq
    rw [he, List.drop_length] at hlen
    rw [he]
    exact .inr hlen

theorem Drifts.adrift (h : c.Drifts items free g) : c.Adrift g where
  order := h.order.chained
  fits := by
    rw [h.order.len_eq]
    exact h.le_capacity
  index id entry hg hk := by
    obtain ⟨p, s, rfl⟩ := List.append_of_mem (h.order.get?_eq_some_iff.mp hg)
    exact h.get?_index hk
  size := by rw [h.size, h.order.len_eq]

theorem Drifts.judged (h : c.Drifts items free g) (now : Instant) {command : Command K V}
    (single : ∀ pairs, command ≠ .insertAll pairs) : c.Judged g now command := by
  cases h.perform_ends now single with
  | fails queued asked drifted count ends =>
    constructor
    case fails_iff => exact ⟨fun _ => ⟨asked, drifted⟩, fun _ => ⟨_, ends⟩⟩
    case fault =>
      intro e he
      cases ends.symm.trans he
      rw [h.storedKeys_eq, length_keysOf, ← h.order.len_eq, List.length_map] at count
      exact ⟨queued, rfl, count⟩
    case tells =>
      intro o ho
      cases ends.symm.trans ho
    case keys =>
      intro o ho
      cases ends.symm.trans ho
  | leaves o passed shifts answers ends =>
    constructor
    case fails_iff =>
      constructor
      · rintro ⟨e, he⟩
        cases ends.symm.trans he
      · rintro ⟨asked, drifted⟩
        rcases passed with unasked | aligned
        · rw [unasked] at asked
          cases asked
        · exact absurd aligned drifted
    case fault =>
      intro e he
      cases ends.symm.trans he
    case tells =>
      intro o' ho
      obtain rfl := Except.ok.inj (ends.symm.trans ho)
      exact answers
    case keys =>
      intro o' ho
      obtain rfl := Except.ok.inj (ends.symm.trans ho)
      exact shifts.keys

/-- A run without failures keeps the account of stray keys. -/
theorem Drifts.journal (h : c.Drifts items free g)
    (single : ∀ step ∈ steps, ∀ pairs, step.2 ≠ .insertAll pairs)
    {o : Outcome K V (List (Answer K V))} (ho : c.run steps = .ok o) :
    ∃ items free, o.cache.Drifts items free
      ((c.journal steps).foldl (fun g d => d.before.drift g d.now d.command) g) := by
  induction steps generalizing c items free g o with
  | nil =>
    cases ho
    exact ⟨items, free, h⟩
  | cons step rest ih =>
    obtain ⟨now, command⟩ := step
    obtain ⟨first, hfirst, hrest⟩ := exists_of_bind_eq_ok ho
    obtain ⟨others, hothers, ho⟩ := exists_of_bind_eq_ok hrest
    cases ho
    cases h.perform_ends now (single _ List.mem_cons_self) with
    | fails queued asked drifted count ends => cases ends.symm.trans hfirst
    | leaves o passed shifts answers ends =>
      obtain rfl := Except.ok.inj (ends.symm.trans hfirst)
      obtain ⟨items', free', hd⟩ := shifts.drifts
      simp only [Cache.journal, ends, List.foldl_cons]
      exact ih (o := others) hd (fun step hs => single step (List.mem_cons_of_mem _ hs)) hothers

/-- After every run without failures the recency list is linked as it should be, and the index has
as many keys too many as entries with stray keys are gone. Eviction comes to an end, and a request
that checks fails if and only if such keys are left over when it has taken its entries. A bulk
insertion ends as its insertions do. -/
theorem run_drifts (id : UInt64) (capacity : Nat) (policy : Policy) (mode : RecencyMode)
    (steps : List (Instant × Command K V)) {o : Outcome K V (List (Answer K V))}
    (ho : (start id capacity policy mode : Cache K V).run steps = .ok o) :
    o.cache.Adrift (Deed.strayed ((start id capacity policy mode : Cache K V).history steps)) ∧
      (∀ due, o.cache.Settles due) ∧
      (∀ now command, (∀ pairs, command ≠ .insertAll pairs) → o.cache.Judged
        (Deed.strayed ((start id capacity policy mode : Cache K V).history steps)) now command) ∧
      ∀ more, o.cache.trail (singly more) = o.cache.trail more := by
  have hstart := (holds_start (K := K) (V := V) id capacity policy mode).drifts
  obtain ⟨o', ho', hcache, -⟩ := run_singly ho
  obtain ⟨items, free, h⟩ := hstart.journal (single_of_mem_singly steps) ho'
  rw [hcache] at h
  exact ⟨h.adrift, h.settles, fun now command single => h.judged now single, o.cache.trail_singly⟩

/-- The front went with a key that equals nothing, and so the next erasure fails. -/
theorem run_drifts_popped : PartialEquivBEq Key ∧ ∃ o,
    (start 0 2 .capacity .onInsert : Cache Key Nat).run [(0, .insert (.unequal 1) 10),
      (0, .insert (.int 2) 20), (0, .popFront)] = .ok o ∧ o.cache.Adrift 1 ∧
    o.cache.Judged 1 0 (.erase (.int 2)) ∧ o.cache.checked (.erase (.int 2)) = true := by
  obtain ⟨o, ho, hchecked⟩ : ∃ o, (start 0 2 .capacity .onInsert : Cache Key Nat).run
      [(0, .insert (.unequal 1) 10), (0, .insert (.int 2) 20), (0, .popFront)] = .ok o ∧
      o.cache.checked (.erase (.int 2)) = true := ⟨_, rfl, rfl⟩
  obtain ⟨hadrift, -, hjudged, -⟩ := run_drifts 0 2 .capacity .onInsert _ ho
  exact ⟨inferInstance, o, ho, hadrift, hjudged 0 _ (by rintro pairs ⟨⟩), hchecked⟩

end Cache

end Lru
