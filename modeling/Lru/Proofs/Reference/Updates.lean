import Lru.Proofs.Reference.View

/-! # Changes refine the reference

Insertion and the ways to remove entries leave what the reference leaves. An
operation that ends with a check passes it, so each of them has an outcome.
-/

namespace Lru.Cache

variable {K V α β : Type} [BEq K] {c : Cache K V} {items p s : List (SlotId × Entry K V)}
  {free : List SlotId} {id : SlotId} {entry : Entry K V} {key : K} {now : Instant}

section Steps

theorem Holds.reference_promote [PartialEquivBEq K] (h : c.Holds (p ++ (id, entry) :: s) free)
    (hk : key == entry.key) (now : Instant) :
    (c.promote now id).reference = c.reference.promote now key entry := by
  rw [(h.promote now).reference_eq, Reference.promote, h.others_of_mem hk, List.map_append]
  rfl

theorem Holds.reference_replace [PartialEquivBEq K] (h : c.Holds (p ++ (id, entry) :: s) free)
    (hk : key == entry.key) (now : Instant) (value : V) :
    (c.replace now id value).cache.reference =
      c.reference.promote now key { entry with value } := by
  rw [(h.replace now value).reference_eq, Reference.promote, h.others_of_mem hk, List.map_append]
  rfl

theorem Holds.reference_append [PartialEquivBEq K] (h : c.Holds items free)
    (ha : Absent key items) (hl : items.length < c.capacity) (now : Instant) (value : V) :
    (c.append now key value).cache.reference =
      { c.reference with entries := items.map Prod.snd ++ [⟨key, value, now⟩] } := by
  rw [(h.append ha hl now value).reference_eq, List.map_append]
  rfl

theorem Holds.reference_drop [PartialEquivBEq K] (h : c.Holds (p ++ (id, entry) :: s) free)
    (hk : key == entry.key) :
    (c.drop id key).reference = { c.reference with entries := (p ++ s).map Prod.snd } := by
  rw [(h.drop hk).reference_eq, drop_eq]
  rfl

theorem Holds.reference_dropAll [EquivBEq K] {xs : List (SlotId × Entry K V)}
    (h : c.Holds (xs ++ items) free) :
    (c.dropAll xs).reference = { c.reference with entries := items.map Prod.snd } := by
  rw [h.dropAll.reference_eq, dropAll_eq]
  rfl

theorem Holds.remembers_append [PartialEquivBEq K] (h : c.Holds items free)
    (ha : Absent key items) (hl : items.length < c.capacity) (now : Instant) (value : V) :
    (c.append now key value).cache.Remembers := by
  rw [(h.append ha hl now value).remembers_iff]
  intro i hi
  rw [append_remembers, h.append_result] at hi
  obtain rfl : c.nextSlot free = i := Option.some.inj hi
  simp

theorem Holds.remembers_replace (h : c.Holds (p ++ (id, entry) :: s) free) (now : Instant)
    (value : V) : (c.replace now id value).cache.Remembers := by
  rw [(h.replace now value).remembers_iff]
  intro i hi
  obtain rfl : id = i := Option.some.inj hi
  simp

theorem Holds.remembers_drop [PartialEquivBEq K] (h : c.Holds (p ++ (id, entry) :: s) free)
    (hk : key == entry.key) (hr : c.Remembers) : (c.drop id key).Remembers := by
  rw [(h.drop hk).remembers_iff]
  intro i hi
  rw [drop_eq] at hi
  obtain ⟨hm, hne⟩ := Option.filter_eq_some_iff.mp hi
  have hi := h.remembers_iff.mp hr i hm
  simpa [show i ≠ id by simpa using hne] using hi

theorem Holds.remembers_dropAll [EquivBEq K] {xs : List (SlotId × Entry K V)}
    (h : c.Holds (xs ++ items) free) (hr : c.Remembers) : (c.dropAll xs).Remembers := by
  induction xs generalizing c free with
  | nil => exact hr
  | cons x xs ih =>
    have hd : (c.drop x.1 x.2.key).Holds (xs ++ items) (x.1 :: free) := h.drop (p := []) BEq.rfl
    exact ih hd (h.remembers_drop (p := []) BEq.rfl hr)

end Steps

section Insert

/-- An insertion tells whether the key was new, and its handle points to the place of the entry. -/
def InsertedAt (d : Cache K V) (a : Insertion) (b : Bool × Option Nat) : Prop :=
  a.inserted = b.1 ∧ d.address a.handle = .ok b.2

theorem Holds.append_simulates [PartialEquivBEq K] (h : c.Holds items free)
    (ha : Absent key items) (hl : items.length < c.capacity) (now : Instant) (value : V) :
    Simulates c (c.append now key value)
      ⟨(true, some items.length),
        { c.reference with entries := items.map Prod.snd ++ [⟨key, value, now⟩] }, []⟩
      InsertedAt := by
  have hd := h.append ha hl now value
  refine ⟨⟨_, _, hd⟩, fun _ => h.remembers_append ha hl now value,
    h.reference_append ha hl now value, rfl, ?_⟩
  rw [InsertedAt, h.append_result, address_handle, hd.place_of_mem]
  exact ⟨rfl, rfl⟩

variable [EquivBEq K]

theorem Holds.insert_simulates (h : c.Holds items free) (now : Instant) (key : K) (value : V) :
    ∃ o, c.insert now key value = .ok o ∧
      Simulates c o (c.reference.insert now key value) InsertedAt := by
  have hcap : c.reference.capacity = c.capacity := rfl
  have hentries : c.reference.entries = items.map Prod.snd := h.entries_eq
  cases h.storing now key value with
  | refused absent empty inserted =>
    have hq : c.reference.insert now key value = ⟨(false, none), c.reference, []⟩ := by
      simp [Reference.insert, h.entryOf_of_absent absent, hcap, empty]
    refine ⟨_, inserted, ?_⟩
    rw [hq]
    exact Coherent.unchanged ⟨_, _, h⟩ ⟨rfl, address_handle c none⟩
  | replaced p id entry s split same inserted =>
    subst split
    have hd := h.replace now value
    have hq : c.reference.insert now key value = ⟨(false, some (p ++ s).length),
        c.reference.promote now key { entry with value }, []⟩ := by
      simp [Reference.insert, h.entryOf_of_mem same, hentries]
    refine ⟨_, inserted, ?_⟩
    rw [hq]
    refine ⟨⟨_, _, hd⟩, fun _ => h.remembers_replace now value,
      h.reference_replace same now value, rfl, rfl, ?_⟩
    exact (address_handle _ _).trans (congrArg _ hd.place_of_mem)
  | appended absent room inserted =>
    have hn : c.capacity ≠ 0 := by omega
    have hq : c.reference.insert now key value = ⟨(true, some items.length),
        { c.reference with entries := items.map Prod.snd ++ [⟨key, value, now⟩] }, []⟩ := by
      simp [Reference.insert, h.entryOf_of_absent absent, hcap, hn, hentries, room]
    refine ⟨_, inserted, ?_⟩
    rw [hq]
    exact h.append_simulates absent room now value
  | displaced i e s split absent full inserted =>
    subst split
    have hdrop := h.drop (p := []) (BEq.rfl (a := e.key))
    have absent' : Absent key s := (List.forall_mem_cons.mp absent).2
    have room' : s.length < (c.drop i e.key).capacity := by simp [drop_eq, full]
    have hs := hdrop.append_simulates absent' room' now value
    have hq : c.reference.insert now key value = ⟨(true, some s.length),
        { c.reference with entries := s.map Prod.snd ++ [⟨key, value, now⟩] },
        [.trace (.evicted s.length c.capacity)]⟩ := by
      simp [Reference.insert, h.entryOf_of_absent absent, hcap, hentries, full]
    refine ⟨_, inserted, ?_⟩
    rw [hq]
    refine ⟨hs.coherent, fun hr => hs.remembers (h.remembers_drop (p := []) BEq.rfl hr), ?_, rfl,
      hs.result⟩
    refine hs.reference.trans ?_
    rw [h.reference_drop (p := []) BEq.rfl]
    rfl

theorem Coherent.insertAll_simulates (h : c.Coherent) (now : Instant) (pairs : List (K × V)) :
    ∃ o, c.insertAll now pairs = .ok o ∧
      Simulates c o (c.reference.insertAll now pairs) fun _ a b => a = b := by
  induction pairs generalizing c with
  | nil => exact ⟨_, rfl, h.unchanged rfl⟩
  | cons pair rest ih =>
    obtain ⟨key, value⟩ := pair
    obtain ⟨items, free, hh⟩ := h
    obtain ⟨first, hfirst, hs⟩ := hh.insert_simulates now key value
    obtain ⟨others, hothers, ht⟩ := ih hs.coherent
    rw [hs.reference] at ht
    refine ⟨_, insertAll_cons hfirst hothers, ht.coherent, fun hr =>
      ht.remembers (hs.remembers hr), ht.reference, ?_, ?_⟩
    · exact congrArg₂ (· ++ ·) hs.notices ht.notices
    · exact congrArg₂ (fun a b => a + b.toNat) ht.result hs.result.1

end Insert

section Remove

/-- Dropping an entry simulates leaving it out. -/
theorem Holds.drop_simulates [PartialEquivBEq K] (h : c.Holds (p ++ (id, entry) :: s) free)
    (hk : key == entry.key) {agree : Cache K V → α → β → Prop} {a : α} {b : β}
    (hab : agree (c.drop id key).bump a b) {notices : List (Notice K V)} :
    Simulates c { result := a, cache := (c.drop id key).bump, notices }
      ⟨b, { c.reference with entries := (p ++ s).map Prod.snd }, notices⟩ agree :=
  ⟨⟨_, _, (h.drop hk).congr rfl rfl rfl⟩, h.remembers_drop hk, h.reference_drop hk, rfl, hab⟩

variable [EquivBEq K]

theorem Holds.erase_simulates (h : c.Holds items free) (key : K) :
    ∃ o, c.erase key = .ok o ∧ Simulates c o (c.reference.erase key) fun _ a b => a = b := by
  rcases absent_or key items with ha | ⟨p, id, entry, s, rfl, hk⟩
  · have hq : c.reference.erase key = ⟨false, c.reference, []⟩ := by
      rw [Reference.erase, h.entryOf_of_absent ha, h.others_of_absent ha, ← h.entries_eq]
      rfl
    refine ⟨_, h.erase_of_absent ha, ?_⟩
    rw [hq]
    exact Coherent.unchanged ⟨_, _, h⟩ rfl
  · have hq : c.reference.erase key =
        ⟨true, { c.reference with entries := (p ++ s).map Prod.snd }, []⟩ := by
      simp only [Reference.erase, h.entryOf_of_mem hk, h.others_of_mem hk]
      rfl
    refine ⟨_, h.erase_of_mem hk, ?_⟩
    rw [hq]
    exact h.drop_simulates hk rfl

theorem Holds.eraseAt_simulates (h : c.Holds items free) (handle : Handle) :
    Simulates c (c.eraseAt handle) (c.reference.eraseAt (c.address handle)) fun _ a b => a = b := by
  have hentries : c.reference.entries = items.map Prod.snd := h.entries_eq
  cases hv : c.validate handle with
  | error e =>
    rw [eraseAt_of_error hv, address, hv]
    exact Coherent.unchanged ⟨_, _, h⟩ rfl
  | ok slot =>
    cases slot with
    | none =>
      rw [eraseAt_of_none hv, address, hv]
      exact Coherent.unchanged ⟨_, _, h⟩ rfl
    | some id =>
      by_cases hid : id ∈ items.map Prod.fst
      · obtain ⟨⟨_, entry⟩, hm, rfl⟩ := List.mem_map.mp hid
        obtain ⟨p, s, rfl⟩ := List.append_of_mem hm
        have ha : c.address handle = .ok (some p.length) := by
          rw [address, hv]
          exact congrArg _ h.place_of_mem
        have hq : c.reference.eraseAt (c.address handle) = ⟨.ok (entry.key, entry.value),
            { c.reference with entries := (p ++ s).map Prod.snd }, []⟩ := by
          simp [ha, Reference.eraseAt, hentries, List.eraseIdx_append_of_length_le]
        rw [Cache.eraseAt_of_mem h.order hv, hq]
        exact h.drop_simulates BEq.rfl rfl
      · have ha : c.address handle = .ok (some items.length) := by
          rw [address, hv]
          exact congrArg _ (h.place_of_not_mem hid)
        have hq : c.reference.eraseAt (c.address handle) =
            ⟨.error .pastTheEnd, c.reference, []⟩ := by
          simp [ha, Reference.eraseAt, hentries]
        rw [Cache.eraseAt_of_vacant h.order hv hid, hq]
        exact Coherent.unchanged ⟨_, _, h⟩ rfl

theorem Holds.popFront_simulates (h : c.Holds items free) :
    Simulates c c.popFront c.reference.popFront fun _ a b => a = b := by
  cases items with
  | nil =>
    have hq : c.reference.popFront = ⟨none, c.reference, []⟩ := by
      simp [Reference.popFront, Notice.evictions, h.reference_eq]
    rw [Cache.popFront_nil h.order, hq]
    exact Coherent.unchanged ⟨_, _, h⟩ rfl
  | cons x s =>
    obtain ⟨id, entry⟩ := x
    have hq : c.reference.popFront = ⟨some (entry.key, entry.value),
        { c.reference with entries := s.map Prod.snd },
        [.trace (.evicted s.length c.capacity)]⟩ := by
      simp [Reference.popFront, Notice.evictions, h.reference_eq]
    rw [Cache.popFront_cons h.order, hq]
    exact h.drop_simulates (p := []) BEq.rfl rfl

omit [EquivBEq K] in
theorem holds_clear (c : Cache K V) : c.clear.Holds [] [] :=
  (holds_empty c.id c.capacity c.policy).congr rfl rfl rfl

end Remove

section Bounds

variable [EquivBEq K]

theorem Holds.setCapacity_simulates (h : c.Holds items free) (capacity : Nat) :
    ∃ o, c.setCapacity capacity = .ok o ∧
      Simulates c o (c.reference.setCapacity capacity) fun _ a b => a = b := by
  have hentries : c.reference.entries = items.map Prod.snd := h.entries_eq
  rcases Nat.lt_or_ge capacity items.length with hc | hc
  · have he : items.length - capacity ≠ 0 := by omega
    have hq : c.reference.setCapacity capacity = ⟨(),
        { c.reference with entries := (items.drop (excess items capacity)).map Prod.snd, capacity },
        Notice.evictions c.capacity items.length (excess items capacity) ++
          [.trace (.shrank (excess items capacity) capacity), .trace (.compacted capacity)]⟩ := by
      simp only [Reference.setCapacity, hentries, List.length_map, he, if_false, excess,
        List.map_drop]
      rfl
    obtain ⟨free', hs⟩ := h.shrunk capacity
    have hb : (c.shrunk items capacity).compact.cache.bump.Holds _ [] :=
      hs.compact.congr rfl rfl rfl
    refine ⟨_, h.setCapacity_of_exceeds hc, ?_⟩
    rw [hq]
    refine ⟨⟨_, _, hb⟩, ?_, ?_, rfl, rfl⟩
    · rintro - i ⟨⟩
    · refine hb.reference_eq.trans ?_
      rw [RecencyList.map_snd_packed]
      simp only [bump, Cache.compact, Cache.shrunk, dropAll_eq]
      rfl
  · have hq : c.reference.setCapacity capacity = ⟨(), { c.reference with capacity }, []⟩ := by
      simp [Reference.setCapacity, hentries, Nat.sub_eq_zero_of_le hc, Notice.evictions]
    refine ⟨_, h.setCapacity_of_fits hc, ?_⟩
    rw [hq]
    exact ⟨⟨_, _, ⟨h.order, h.index, h.distinct, hc⟩⟩, fun hr => hr, rfl, rfl, rfl⟩

theorem Holds.purgeExpired_simulates (h : c.Holds items free) (now : Instant) :
    ∃ o, c.purgeExpired now = .ok o ∧
      Simulates c o (c.reference.purgeExpired now) fun _ a b => a = b := by
  have hentries : c.reference.entries = items.map Prod.snd := h.entries_eq
  have hkept : c.reference.entries.dropWhile (fun e => !c.reference.policy.isLive now e.stamp) =
      (items.dropWhile (c.dead now)).map Prod.snd := by
    rw [hentries, List.dropWhile_map]
    rfl
  have hcount : items.length - (items.dropWhile (c.dead now)).length =
      (c.expired now items).length := by
    have := congrArg List.length (List.takeWhile_append_dropWhile (p := c.dead now) (l := items))
    rw [List.length_append] at this
    rw [expired]
    omega
  by_cases hn : c.expired now items = []
  · have hd : items.dropWhile (c.dead now) = items := by
      have := List.takeWhile_append_dropWhile (p := c.dead now) (l := items)
      rwa [show items.takeWhile (c.dead now) = [] from hn, List.nil_append] at this
    have hq : c.reference.purgeExpired now = ⟨0, c.reference, []⟩ := by
      simp only [Reference.purgeExpired, hkept, hd]
      simp [Notice.evictions, h.reference_eq]
    refine ⟨_, h.purgeExpired_of_live hn, ?_⟩
    rw [hq]
    exact Coherent.unchanged ⟨_, _, h⟩ rfl
  · have hk : (c.expired now items).length ≠ 0 := mt List.length_eq_zero_iff.mp hn
    have hsplit : c.Holds (c.expired now items ++ items.dropWhile (c.dead now)) free := by
      rwa [expired, List.takeWhile_append_dropWhile]
    have hq : c.reference.purgeExpired now = ⟨(c.expired now items).length,
        { c.reference with entries := (items.dropWhile (c.dead now)).map Prod.snd },
        Notice.evictions c.capacity items.length (c.expired now items).length ++
            [.trace (.purged (c.expired now items).length
              (items.dropWhile (c.dead now)).length)]⟩ := by
      simp only [Reference.purgeExpired, hkept]
      simp only [hentries, List.length_map, hcount, hk, if_false]
      rfl
    refine ⟨_, h.purgeExpired_of_dead hn, ?_⟩
    rw [hq]
    exact ⟨⟨_, _, hsplit.dropAll.congr rfl rfl rfl⟩, hsplit.remembers_dropAll,
      hsplit.reference_dropAll, rfl, rfl⟩

end Bounds

end Lru.Cache
