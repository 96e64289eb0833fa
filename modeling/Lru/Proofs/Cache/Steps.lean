import Lru.Cache.Update
import Lru.Proofs.Cache.Drift
import Lru.Proofs.Reference.Basic

/-! # The steps of cache operations

What resolving, promoting, writing, dropping, appending and compacting do to
the content of a cache. The operations are sequences of these steps. Dropping an
entry with a stray key adds to the drift of a cache, and all other steps keep it.
-/

namespace Lru.Cache

variable {K V : Type} [BEq K] {c d : Cache K V} {items p s xs : List (SlotId × Entry K V)}
  {free : List SlotId} {id : SlotId} {entry : Entry K V} {key : K} {now : Instant} {g : Nat}

theorem holds_empty (id : UInt64) (capacity : Nat) (policy : Policy) :
    (empty id capacity policy : Cache K V).Holds [] [] :=
  ⟨RecencyList.holds_empty, .nil, .nil, Nat.zero_le _⟩

theorem Holds.remembers_iff (h : c.Holds items free) :
    c.Remembers ↔ ∀ id, c.lastAccessed = some id → id ∈ items.map Prod.fst := by
  simp only [Remembers, h.order.contains_iff]

section Resolve

variable [PartialEquivBEq K]

theorem Holds.slotOf_of_absent (h : c.Holds items free) (ha : Absent key items) :
    c.slotOf key = none := by
  rw [h.slotOf_eq, h.get?_index_of_absent ha]

theorem Holds.slotOf_of_mem (h : c.Holds (p ++ (id, entry) :: s) free) (hk : key == entry.key) :
    c.slotOf key = some id := by
  rw [h.slotOf_eq, h.get?_index hk]

theorem Holds.resolve_of_absent (h : c.Holds items free) (ha : Absent key items) (now : Instant) :
    c.resolve now key = { result := none, cache := c } := by
  simp [resolve, h.slotOf_of_absent ha]

theorem Holds.resolve_of_live (h : c.Holds (p ++ (id, entry) :: s) free) (hk : key == entry.key)
    (hl : c.policy.isLive now entry.stamp = true) :
    c.resolve now key = { result := some id, cache := c.remembering (some id) } := by
  simp [resolve, Cache.remembering, h.slotOf_of_mem hk, h.get?_order, hl]

theorem Holds.resolve_of_dead (h : c.Holds (p ++ (id, entry) :: s) free) (hk : key == entry.key)
    (hl : c.policy.isLive now entry.stamp = false) :
    c.resolve now key =
      { result := none, cache := c.forget id, notices := [.trace .foundDead] } := by
  simp [resolve, h.slotOf_of_mem hk, h.get?_order, hl]

end Resolve

section Promote

/-- Reordering entries and changing what is not their key keeps the index right. -/
theorem Holds.reorder {order : RecencyList (Entry K V)} (h : c.Holds items free)
    (ho : order.Holds s free) (hk : (keyed s).Perm (keyed items)) :
    ({ c with order } : Cache K V).Holds s free where
  order := ho
  index := h.index.trans hk.symm
  distinct := h.distinct
  le_capacity := by
    have := hk.length_eq
    simp only [length_keyed] at this
    exact this ▸ h.le_capacity

theorem Drifts.reorder {order : RecencyList (Entry K V)} (h : c.Drifts items free g)
    (ho : order.Holds s free) (hk : (keyed s).Perm (keyed items)) :
    ({ c with order } : Cache K V).Drifts s free g := by
  have hlen := hk.length_eq
  rw [length_keyed, length_keyed] at hlen
  exact ⟨ho, h.index.trans (hk.filter _).symm, h.distinct, hlen ▸ h.size, hlen ▸ h.le_capacity⟩

omit [BEq K] in
theorem keyed_to_back {moved : Entry K V} (same : moved.key = entry.key) :
    (keyed (p ++ s ++ [(id, moved)])).Perm (keyed (p ++ (id, entry) :: s)) := by
  simp only [keyed_append, keyed_cons, keyed_nil, List.append_assoc, same]
  exact List.Perm.append_left _ (List.perm_append_singleton _ _)

theorem Holds.write (h : c.Holds (p ++ (id, entry) :: s) free) (f : V → V) :
    ({ c with order := c.order.modify id fun e => { e with value := f e.value } } :
      Cache K V).Holds (p ++ (id, { entry with value := f entry.value }) :: s) free :=
  h.reorder (h.order.modify _) (by simp)

theorem Holds.promote (h : c.Holds (p ++ (id, entry) :: s) free) (now : Instant) :
    (c.promote now id).Holds (p ++ s ++ [(id, { entry with stamp := now })]) free := by
  have hm := (h.order.modify fun e => { e with stamp := now }).moveToBack
  exact (h.reorder hm (keyed_to_back rfl)).congr rfl rfl rfl

theorem Drifts.write (h : c.Drifts (p ++ (id, entry) :: s) free g) (f : V → V) :
    ({ c with order := c.order.modify id fun e => { e with value := f e.value } } :
      Cache K V).Drifts (p ++ (id, { entry with value := f entry.value }) :: s) free g :=
  h.reorder (h.order.modify _) (by simp)

theorem Drifts.promote (h : c.Drifts (p ++ (id, entry) :: s) free g) (now : Instant) :
    (c.promote now id).Drifts (p ++ s ++ [(id, { entry with stamp := now })]) free g := by
  have hm := (h.order.modify fun e => { e with stamp := now }).moveToBack
  exact (h.reorder hm (keyed_to_back rfl)).congr rfl rfl rfl

theorem Holds.replace (h : c.Holds (p ++ (id, entry) :: s) free) (now : Instant) (value : V) :
    (c.replace now id value).cache.Holds
      (p ++ s ++ [(id, { entry with value, stamp := now })]) free :=
  ((h.write fun _ => value).promote now).congr rfl rfl rfl

theorem Drifts.replace (h : c.Drifts (p ++ (id, entry) :: s) free g) (now : Instant) (value : V) :
    (c.replace now id value).cache.Drifts
      (p ++ s ++ [(id, { entry with value, stamp := now })]) free g :=
  ((h.write fun _ => value).promote now).congr rfl rfl rfl

end Promote

section Drop

/-- The cache without the entry at `id`, whose key is `key`. -/
def drop (c : Cache K V) (id : SlotId) (key : K) : Cache K V :=
  ({ c with order := c.order.without id, index := c.index.erase key } : Cache K V).forget id

theorem drop_eq (c : Cache K V) (id : SlotId) (key : K) :
    c.drop id key = { c with
      order := c.order.without id
      index := c.index.erase key
      lastAccessed := c.lastAccessed.filter (· != id) } :=
  forget_eq _ _

theorem Holds.drop [PartialEquivBEq K] (h : c.Holds (p ++ (id, entry) :: s) free)
    (hk : key == entry.key) : (c.drop id key).Holds (p ++ s) (id :: free) := by
  rw [drop_eq]
  refine ⟨h.order.without, KeyMap.erase_perm h.distinct h.perm_middle hk, ?_, ?_⟩
  · exact h.distinct.sublist List.eraseP_sublist
  · have := h.le_capacity
    simp only [List.length_append, List.length_cons] at this ⊢
    omega

theorem Drifts.drop [PartialEquivBEq K] (h : c.Drifts (p ++ (id, entry) :: s) free g) :
    (c.drop id entry.key).Drifts (p ++ s) (id :: free) (g + strays [entry]) := by
  have hlen : (p ++ (id, entry) :: s).length = (p ++ s).length + 1 := by simp; omega
  have hsize := h.size
  have hcap := h.le_capacity
  rw [hlen] at hsize hcap
  rw [drop_eq]
  cases hk : entry.key == entry.key with
  | true =>
    have herase := KeyMap.size_erase (h.get?_index hk)
    refine ⟨h.order.without, ?_, h.distinct.erase _, ?_, Nat.le_of_succ_le hcap⟩
    · rw [KeyMap.proper_erase]
      exact KeyMap.erase_perm h.distinct.proper (h.perm_middle hk) hk
    · rw [strays_of_self hk]
      dsimp only
      omega
  | false =>
    have herase : c.index.erase entry.key = c.index :=
      KeyMap.erase_of_absent (KeyMap.absent_of_not_self hk _)
    refine ⟨h.order.without, ?_, h.distinct.erase _, ?_, Nat.le_of_succ_le hcap⟩
    · rw [herase]
      refine h.index.trans ?_
      simp [KeyMap.proper, hk]
    · rw [strays_of_not_self hk, herase]
      dsimp only
      omega

/-- The cache without several entries, dropped one after the other. -/
def dropAll (c : Cache K V) : List (SlotId × Entry K V) → Cache K V
  | [] => c
  | x :: xs => (c.drop x.1 x.2.key).dropAll xs

theorem Drifts.dropAll [PartialEquivBEq K] (h : c.Drifts (xs ++ items) free g) :
    (c.dropAll xs).Drifts items ((xs.map Prod.fst).reverse ++ free)
      (g + strays (xs.map Prod.snd)) := by
  induction xs generalizing c free g with
  | nil => exact h
  | cons x xs ih =>
    have hd : (c.drop x.1 x.2.key).Drifts (xs ++ items) (x.1 :: free) (g + strays [x.2]) :=
      h.drop (p := [])
    have hrest := ih hd
    rw [Nat.add_assoc, ← strays_cons] at hrest
    simpa [Cache.dropAll] using hrest

theorem Holds.dropAll [EquivBEq K] (h : c.Holds (xs ++ items) free) :
    (c.dropAll xs).Holds items ((xs.map Prod.fst).reverse ++ free) := by
  have hd := h.drifts.dropAll
  rw [strays_eq_zero] at hd
  exact hd.holds

theorem dropAll_eq (c : Cache K V) (xs : List (SlotId × Entry K V)) :
    c.dropAll xs = { c with
      order := xs.foldl (fun order x => order.without x.1) c.order
      index := xs.foldl (fun index x => index.erase x.2.key) c.index
      lastAccessed := c.lastAccessed.filter fun id => xs.all fun x => id != x.1 } := by
  induction xs generalizing c with
  | nil => rcases c with ⟨_, _, _ | _, _, _, _, _, _⟩ <;> simp [dropAll, Option.filter]
  | cons x xs ih => simp [dropAll, ih, drop_eq, Option.filter_filter]

end Drop

section Evict

theorem evictFront_nil (h : c.order.Holds [] free) :
    c.evictFront = { result := none, cache := c } := by
  simp [evictFront, h.popFront?_nil]

theorem evictFront_cons (h : c.order.Holds ((id, entry) :: s) free) :
    c.evictFront = { result := some entry, cache := c.drop id entry.key
                     notices := [.trace (.evicted s.length c.capacity)] } := by
  have hlen := (h.without (p := [])).len_eq
  simp only [evictFront, h.popFront?_cons, hlen]
  rfl

omit [BEq K] in
theorem evictions_succ (capacity n k : Nat) :
    (Notice.evictions capacity (n + 1) (k + 1) : List (Notice K V)) =
      .trace (.evicted n capacity) :: Notice.evictions capacity n k := by
  simp [Notice.evictions, List.range_succ_eq_map, Function.comp_def]
  omega

/-- How many of the entries go while `due` asks for it. -/
def evicting (due : Cache K V → Bool) : Cache K V → List (SlotId × Entry K V) → Nat
  | _, [] => 0
  | c, x :: s => if due c then evicting due (c.drop x.1 x.2.key) s + 1 else 0

variable {due : Cache K V → Bool}

theorem evicting_le (due : Cache K V → Bool) (c : Cache K V)
    (items : List (SlotId × Entry K V)) : evicting due c items ≤ items.length := by
  induction items generalizing c with
  | nil => exact Nat.le_refl 0
  | cons x s ih =>
    rw [evicting]
    split
    · exact Nat.succ_le_succ (ih _)
    · exact Nat.zero_le _

/-- Eviction goes on until it is not asked for any more, or no entry is left. -/
theorem not_due_of_evicting (h : evicting due c items < items.length) :
    due (c.dropAll (items.take (evicting due c items))) = false := by
  induction items generalizing c with
  | nil => exact absurd h (Nat.not_lt_zero _)
  | cons x s ih =>
    rw [evicting] at h ⊢
    split at h
    · next hdue =>
      rw [if_pos hdue]
      exact ih (Nat.lt_of_succ_lt_succ h)
    · next hdue =>
      rw [if_neg hdue]
      simpa [Cache.dropAll] using hdue

/-- Eviction stops after `k` entries if the test asks for exactly these. -/
theorem evicting_eq {k : Nat} (hk : k ≤ items.length)
    (hdue : ∀ i ≤ k, due (c.dropAll (items.take i)) = decide (i < k)) :
    evicting due c items = k := by
  induction items generalizing c k with
  | nil => exact (Nat.le_zero.mp hk).symm
  | cons x s ih =>
    have hfirst : due c = decide (0 < k) := hdue 0 (Nat.zero_le k)
    cases k with
    | zero => simp [evicting, hfirst]
    | succ k =>
      have hrest := ih (c := c.drop x.1 x.2.key) (Nat.le_of_succ_le_succ hk) fun i hi => by
        simpa [Cache.dropAll] using hdue (i + 1) (Nat.succ_le_succ hi)
      simp [evicting, hfirst, hrest]

theorem order_drop (h : c.order.Holds ((id, entry) :: s) free) :
    (c.drop id entry.key).order.Holds s (id :: free) := by
  rw [drop_eq]
  exact h.without (p := [])

theorem evictWhile_eq {fuel : Nat} (h : c.order.Holds items free) (hf : items.length ≤ fuel) :
    evictWhile due fuel c =
      { result := evicting due c items
        cache := c.dropAll (items.take (evicting due c items))
        notices := Notice.evictions c.capacity items.length (evicting due c items) } := by
  induction fuel generalizing c items free with
  | zero =>
    obtain rfl := List.length_eq_zero_iff.mp (Nat.le_zero.mp hf)
    rfl
  | succ fuel ih =>
    cases hdue : due c with
    | false =>
      have hnone : evicting due c items = 0 := by cases items <;> simp [evicting, hdue]
      simp [evictWhile, hdue, hnone, Cache.dropAll, Notice.evictions]
    | true =>
      cases items with
      | nil => simp [evictWhile, hdue, evictFront_nil h, evicting, Cache.dropAll, Notice.evictions]
      | cons x s =>
        obtain ⟨id, entry⟩ := x
        have hnext := ih (order_drop h) (by simpa using hf)
        have hcap : (c.drop id entry.key).capacity = c.capacity := by rw [drop_eq]
        simp [evictWhile, hdue, evictFront_cons h, hnext, evicting, Cache.dropAll, Outcome.map,
          Outcome.after, evictions_succ, hcap]

theorem evictWhile_slotCount (h : c.order.Holds items free) (due : Cache K V → Bool) :
    evictWhile due c.order.slotCount c =
      { result := evicting due c items
        cache := c.dropAll (items.take (evicting due c items))
        notices := Notice.evictions c.capacity items.length (evicting due c items) } := by
  refine evictWhile_eq h ?_
  rw [← h.length_add]
  exact Nat.le_add_right _ _

end Evict

section Append

/-- The slot that the next new entry takes. -/
def nextSlot (c : Cache K V) (free : List SlotId) : SlotId :=
  free.headD c.order.slotCount

theorem append_index (h : c.order.Holds items free) (ha : KeyMap.Absent key c.index.entries)
    (now : Instant) (value : V) : (c.append now key value).cache.index.entries =
      c.index.entries ++ [(key, c.nextSlot free)] := by
  have hid := h.pushBack_fst ⟨key, value, now⟩
  rw [nextSlot, ← hid, ← KeyMap.insert_of_absent ha]
  rfl

section PartialEquiv

variable [PartialEquivBEq K]

theorem Holds.append (h : c.Holds items free) (ha : Absent key items)
    (hl : items.length < c.capacity) (now : Instant) (value : V) :
    (c.append now key value).cache.Holds
      (items ++ [(c.nextSlot free, ⟨key, value, now⟩)]) free.tail := by
  have hindex := append_index h.order (h.absent_index ha) now value
  refine ⟨h.order.pushBack _, ?_, ?_, ?_⟩
  · rw [hindex, keyed_append]
    exact h.index.append_right _
  · rw [hindex]
    exact h.distinct.concat (h.absent_index ha) _
  · rw [List.length_append]
    exact hl

theorem Drifts.append (h : c.Drifts items free g) (ha : Absent key items)
    (hl : items.length < c.capacity) (now : Instant) (value : V) :
    (c.append now key value).cache.Drifts
      (items ++ [(c.nextSlot free, ⟨key, value, now⟩)]) free.tail g := by
  have habsent : KeyMap.Absent key c.index.entries :=
    KeyMap.get?_eq_none_iff.mp (h.get?_index_of_absent ha)
  have hindex := append_index h.order habsent now value
  refine ⟨h.order.pushBack _, ?_, ?_, ?_, ?_⟩
  · rw [hindex, keyed_append, KeyMap.proper_append, KeyMap.proper_append]
    exact h.index.append_right _
  · rw [hindex]
    exact h.distinct.concat habsent _
  · have hsize := h.size
    rw [KeyMap.size] at hsize
    rw [KeyMap.size, hindex, List.length_append, List.length_append, hsize]
    exact Nat.add_right_comm ..
  · rw [List.length_append]
    exact hl

end PartialEquiv

theorem Holds.append_result (h : c.Holds items free) (now : Instant) (key : K) (value : V) :
    (c.append now key value).result =
      ⟨true, (c.append now key value).cache.handle (some (c.nextSlot free))⟩ := by
  rw [nextSlot, ← h.order.pushBack_fst ⟨key, value, now⟩]
  rfl

theorem append_remembers (c : Cache K V) (now : Instant) (key : K) (value : V) :
    (c.append now key value).cache.lastAccessed =
      (c.append now key value).result.handle.slot := rfl

end Append

section Compact

variable [PartialEquivBEq K]

/-- Repointing the keys of all entries leaves the stray ones as they are. -/
theorem compact_proper (items : List (SlotId × Entry K V)) (start : Nat)
    (index : KeyMap K SlotId) (before : List (K × SlotId)) (hd : KeyMap.Distinct index.entries)
    (hp : (KeyMap.proper index.entries).Perm (KeyMap.proper (before ++ keyed items))) :
    let repointed := ((items.map Prod.snd).zipIdx start).foldl
      (fun index (x : Entry K V × SlotId) => index.modify x.1.key fun _ => x.2) index
    KeyMap.Distinct repointed.entries ∧ repointed.size = index.size ∧
      (KeyMap.proper repointed.entries).Perm (KeyMap.proper
        (before ++ keyed (RecencyList.packed start (items.map Prod.snd)))) := by
  induction items generalizing start index before with
  | nil => exact ⟨hd, rfl, hp⟩
  | cons x s ih =>
    obtain ⟨id, entry⟩ := x
    have hnext := ih (start + 1) (index.modify entry.key fun _ => start)
      (before ++ [(entry.key, start)]) (hd.modify _) ?_
    · rw [KeyMap.size_modify] at hnext
      simpa using hnext
    · cases hk : entry.key == entry.key with
      | true =>
        rw [KeyMap.proper_modify]
        have hmid : (KeyMap.proper index.entries).Perm
            ((entry.key, id) :: KeyMap.proper (before ++ keyed s)) := by
          refine hp.trans ?_
          simp [KeyMap.proper, hk]
        refine (KeyMap.modify_perm hd.proper hmid hk fun _ => start).trans ?_
        simpa [KeyMap.proper, hk] using List.perm_middle.symm
      | false =>
        rw [KeyMap.modify_of_absent (KeyMap.absent_of_not_self hk _) fun _ => start]
        refine hp.trans ?_
        simp [KeyMap.proper, hk]

theorem Drifts.compact (h : c.Drifts items free g) :
    c.compact.cache.Drifts (RecencyList.packed 0 (items.map Prod.snd)) [] g := by
  obtain ⟨hmoves, horder⟩ := h.order.compact
  have hi := compact_proper items 0 c.index [] h.distinct h.index
  rw [← hmoves] at hi
  obtain ⟨hdistinct, hsize, hindex⟩ := hi
  refine ⟨horder, hindex, hdistinct, ?_, ?_⟩
  · rw [RecencyList.length_packed, List.length_map, ← h.size]
    exact hsize
  · rw [RecencyList.length_packed, List.length_map]
    exact h.le_capacity

theorem Holds.compact [ReflBEq K] (h : c.Holds items free) :
    c.compact.cache.Holds (RecencyList.packed 0 (items.map Prod.snd)) [] :=
  h.drifts.compact.holds

end Compact

end Lru.Cache
