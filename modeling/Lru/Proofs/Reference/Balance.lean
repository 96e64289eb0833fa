import Lru.Proofs.History.Effects

/-! # The balance of a request

What a request adds to the entries it must evict, remove or leave. Evictions
come one after the other from the front, and each announces how many entries it
leaves and the capacity at which the request began.
-/

namespace Lru

namespace Notice

variable {K V : Type}

/-- Whether an announcement is that of an eviction. -/
def isEviction : Notice K V → Bool
  | .trace (.evicted _ _) => true
  | _ => false

/-- The number of evictions that are announced. -/
def countEvictions (notices : List (Notice K V)) : Nat :=
  notices.countP isEviction

theorem filter_evictions (capacity n k : Nat) :
    (evictions capacity n k : List (Notice K V)).filter isEviction = evictions capacity n k := by
  refine List.filter_eq_self.mpr fun notice hn => ?_
  obtain ⟨i, -, rfl⟩ := List.mem_map.mp hn
  rfl

theorem countEvictions_of_filter {notices : List (Notice K V)} {capacity n k : Nat}
    (h : notices.filter isEviction = evictions capacity n k) : countEvictions notices = k := by
  rw [countEvictions, List.countP_eq_length_filter, h, evictions, List.length_map,
    List.length_range]

end Notice

namespace Reference

variable {K V : Type} {r before after : Reference K V} {entry : Entry K V} {key : K}
  {now : Instant} {notices : List (Notice K V)} {added removed : Nat}

section Flow

/-- A request added and removed so many entries, beside the evictions that it announced. -/
structure Flow (before after : Reference K V) (notices : List (Notice K V)) (added removed : Nat) :
    Prop where
  balance : before.entries.length + added =
    after.entries.length + Notice.countEvictions notices + removed
  evictions : notices.filter Notice.isEviction =
    Notice.evictions before.capacity before.entries.length (Notice.countEvictions notices)
  bound : Notice.countEvictions notices ≤ before.entries.length

theorem Flow.of_evictions {k : Nat} (hk : k ≤ before.entries.length)
    (hn : notices.filter Notice.isEviction =
      Notice.evictions before.capacity before.entries.length k)
    (hb : before.entries.length + added = after.entries.length + k + removed) :
    Flow before after notices added removed := by
  have hcount := Notice.countEvictions_of_filter hn
  exact ⟨hcount ▸ hb, hcount ▸ hn, hcount ▸ hk⟩

theorem Flow.of_silent (hn : notices.filter Notice.isEviction = [])
    (hb : before.entries.length + added = after.entries.length + removed) :
    Flow before after notices added removed :=
  .of_evictions (Nat.zero_le _) hn hb

/-- Announcements that are no evictions do not matter. -/
theorem Flow.of_filter {notices' : List (Notice K V)} (h : Flow before after notices added removed)
    (hn : notices'.filter Notice.isEviction = notices.filter Notice.isEviction) :
    Flow before after notices' added removed :=
  .of_evictions h.bound (hn.trans h.evictions) h.balance

end Flow

section Requests

theorem eraseAt_flow (r : Reference K V) (address : Except CacheError (Option Nat)) :
    Flow r (r.eraseAt address).reference (r.eraseAt address).notices 0
      (r.eraseAt address).result.toBool.toNat := by
  unfold eraseAt
  cases address with
  | error e => exact .of_silent rfl rfl
  | ok place =>
    cases place with
    | none => exact .of_silent rfl rfl
    | some i =>
      cases hi : r.entries[i]? with
      | none =>
        simp only [Option.bind_some, hi]
        exact .of_silent rfl rfl
      | some entry =>
        simp only [Option.bind_some, hi]
        refine .of_silent rfl ?_
        have hlt : i < r.entries.length := (List.getElem?_eq_some_iff.mp hi).1
        have hlen := List.length_eraseIdx_add_one hlt
        exact hlen.symm

theorem popFront_flow (r : Reference K V) :
    Flow r r.popFront.reference r.popFront.notices 0 0 := by
  refine .of_evictions (Nat.min_le_left _ 1) (Notice.filter_evictions ..) ?_
  simp only [popFront, List.length_tail]
  omega

theorem filter_setCapacity (r : Reference K V) (capacity : Nat) :
    (r.setCapacity capacity).notices.filter Notice.isEviction =
      Notice.evictions r.capacity r.entries.length (r.entries.length - capacity) := by
  simp only [setCapacity, List.filter_append, Notice.filter_evictions]
  split <;> exact List.append_nil _

theorem filter_purgeExpired (r : Reference K V) (now : Instant) :
    (r.purgeExpired now).notices.filter Notice.isEviction =
      Notice.evictions r.capacity r.entries.length (r.purgeExpired now).result := by
  simp only [purgeExpired, List.filter_append, Notice.filter_evictions]
  split <;> exact List.append_nil _

theorem setCapacity_flow (r : Reference K V) (capacity : Nat) :
    Flow r (r.setCapacity capacity).reference (r.setCapacity capacity).notices 0 0 := by
  refine .of_evictions (Nat.sub_le r.entries.length capacity) (r.filter_setCapacity capacity) ?_
  simp only [setCapacity, List.length_drop]
  omega

theorem purgeExpired_flow (r : Reference K V) (now : Instant) :
    Flow r (r.purgeExpired now).reference (r.purgeExpired now).notices 0 0 := by
  have hkept := (List.dropWhile_sublist (l := r.entries)
    fun entry => !r.policy.isLive now entry.stamp).length_le
  refine .of_evictions (Nat.sub_le r.entries.length _) (r.filter_purgeExpired now) ?_
  simp only [purgeExpired]
  omega

/-- A smaller capacity sums its evictions up, and tells how many entries stay. -/
theorem setCapacity_trace (r : Reference K V) (capacity : Nat) :
    (r.setCapacity capacity).notices =
      Notice.evictions r.capacity r.entries.length
        (Notice.countEvictions (r.setCapacity capacity).notices) ++
      if Notice.countEvictions (r.setCapacity capacity).notices = 0 then []
      else [.trace (.shrank (Notice.countEvictions (r.setCapacity capacity).notices) capacity),
        .trace (.compacted (r.setCapacity capacity).reference.entries.length)] := by
  rw [Notice.countEvictions_of_filter (r.filter_setCapacity capacity), setCapacity]
  split
  · rfl
  · have hstay : (r.entries.drop (r.entries.length - capacity)).length = capacity := by
      rw [List.length_drop]
      omega
    rw [hstay]

/-- A purge counts its evictions, and tells how many entries stay. -/
theorem purgeExpired_trace (r : Reference K V) (now : Instant) :
    (r.purgeExpired now).result = Notice.countEvictions (r.purgeExpired now).notices ∧
    (r.purgeExpired now).notices =
      Notice.evictions r.capacity r.entries.length
        (Notice.countEvictions (r.purgeExpired now).notices) ++
      if Notice.countEvictions (r.purgeExpired now).notices = 0 then []
      else [.trace (.purged (Notice.countEvictions (r.purgeExpired now).notices)
        (r.purgeExpired now).reference.entries.length)] := by
  rw [Notice.countEvictions_of_filter (r.filter_purgeExpired now)]
  exact ⟨rfl, rfl⟩

variable [BEq K]

theorem filter_deadNotices (r : Reference K V) (now : Instant) (key : K) :
    (r.deadNotices now key).filter Notice.isEviction = [] := by
  unfold deadNotices
  split
  · split <;> rfl
  · rfl

theorem deadNotices_flow (r : Reference K V) (now : Instant) (key : K) :
    Flow r r (r.deadNotices now key) 0 0 :=
  .of_silent (r.filter_deadNotices now key) rfl

theorem lookup_flow (r : Reference K V) (now : Instant) (key : K) :
    Flow r (r.lookup now key).reference (r.lookup now key).notices 0 0 := by
  unfold lookup
  cases r.liveEntry now key with
  | some entry => exact .of_silent rfl rfl
  | none =>
    refine .of_silent ?_ rfl
    rw [List.filter_append, filter_deadNotices]
    rfl

theorem length_write (r : Reference K V) (key : K) (update : V → V) :
    (r.write key update).entries.length = r.entries.length :=
  List.length_map _

variable [PartialEquivBEq K]

theorem Distinct.length_promote (h : Distinct r.entries) (he : r.entryOf key = some entry)
    (now : Instant) : (r.promote now key entry).entries.length = r.entries.length := by
  cases h.located key with
  | absent missing entryOf others =>
    rw [entryOf] at he
    cases he
  | stored p s found split same missing entryOf others => simp [promote, others, split]

theorem Distinct.length_promoteOnAccess (h : Distinct r.entries)
    (he : r.entryOf key = some entry) (now : Instant) :
    (r.promoteOnAccess now key entry).entries.length = r.entries.length := by
  unfold promoteOnAccess
  split
  · rfl
  · exact h.length_promote he now

theorem Distinct.lookupMut_flow (h : Distinct r.entries) (now : Instant) (key : K)
    (update : V → V) :
    Flow r (r.lookupMut now key update).reference (r.lookupMut now key update).notices 0 0 := by
  unfold lookupMut
  cases hl : r.liveEntry now key with
  | some entry =>
    refine .of_silent rfl ?_
    simp only [length_write, h.length_promoteOnAccess (entryOf_of_liveEntry hl)]
  | none =>
    refine .of_silent ?_ rfl
    rw [List.filter_append, filter_deadNotices]
    rfl

theorem Distinct.touch_flow (h : Distinct r.entries) (now : Instant) (key : K) :
    Flow r (r.touch now key).reference (r.touch now key).notices 0 0 := by
  unfold touch
  cases hl : r.liveEntry now key with
  | some entry =>
    refine .of_silent rfl ?_
    simp only [h.length_promote (entryOf_of_liveEntry hl)]
  | none => exact r.deadNotices_flow now key

theorem Distinct.erase_flow (h : Distinct r.entries) (key : K) :
    Flow r (r.erase key).reference (r.erase key).notices 0 (r.erase key).result.toNat := by
  unfold erase
  refine .of_silent rfl ?_
  cases h.located key with
  | absent missing entryOf others => simp [others, entryOf]
  | stored p s entry split same missing entryOf others => simp [others, entryOf, split]; omega

end Requests

section Insertions

variable [BEq K] [EquivBEq K]

theorem stores_concat (entries : List (Entry K V)) (key : K) (value : V) (now : Instant) :
    stores key (entries ++ [⟨key, value, now⟩]) = true := by
  simp [stores]

/-- An insertion adds an entry if its key is stored afterwards and was not before. -/
theorem Proper.insert_flow (h : r.Proper) (now : Instant) (key : K) (value : V) :
    (r.insert now key value).result.1 = (!stores key r.entries &&
      stores key (r.insert now key value).reference.entries) ∧
    Flow r (r.insert now key value).reference (r.insert now key value).notices
      (r.insert now key value).result.1.toNat 0 := by
  cases h.inserting now key value with
  | refused missing empty inserted =>
    rw [inserted]
    exact ⟨(Bool.not_and_self _).symm, .of_silent rfl rfl⟩
  | replaced p s entry split same missing held inserted =>
    rw [inserted]
    have hstores : stores key r.entries = true := by simp [split, stores, same]
    exact ⟨by simp [hstores], .of_silent rfl (by simp [split])⟩
  | appended missing room inserted =>
    rw [inserted]
    have hstores : stores key r.entries = false := stores_eq_false_iff.mpr missing
    exact ⟨by simp [hstores, stores_concat], .of_silent rfl (by simp)⟩
  | displaced head s split missing full inserted =>
    rw [inserted]
    have hstores : stores key r.entries = false := stores_eq_false_iff.mpr (split ▸ missing)
    refine ⟨by simp [hstores, stores_concat], ?_⟩
    have hone : 1 ≤ r.entries.length := by simp [split]
    refine .of_evictions hone ?_ ?_
    · simp [split, Notice.evictions, Notice.isEviction]
    · simp [split]

theorem Proper.getOrInsert_flow (h : r.Proper) (now : Instant) (key : K) (make : K → V) :
    Flow r (r.getOrInsert now key make).reference (r.getOrInsert now key make).notices
      (!stores key r.entries && stores key (r.getOrInsert now key make).reference.entries).toNat
      0 := by
  unfold getOrInsert
  cases hl : r.liveEntry now key with
  | some entry =>
    have he := entryOf_of_liveEntry hl
    refine .of_silent rfl ?_
    simp only [h.distinct.stores_promoteOnAccess he, Bool.not_and_self,
      h.distinct.length_promoteOnAccess he]
    rfl
  | none =>
    obtain ⟨hnew, hflow⟩ := h.insert_flow now key (make key)
    rw [hnew] at hflow
    refine hflow.of_filter ?_
    rw [List.filter_append, List.filter_append, filter_deadNotices]
    rfl

end Insertions

end Reference

end Lru
