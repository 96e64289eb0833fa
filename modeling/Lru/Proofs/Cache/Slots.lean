import Lru.Proofs.Cache.Generations

/-! # Slots of entries

An operation leaves the entries in their slots, removes some of them, or stores
one entry, in the slot vacated last or in a fresh one. In a full cache that is
the slot of the entry that makes room. Only clearing and resizing that evicts
start the storage anew, with the entries that are left in the first slots.
-/

namespace Lru.Cache

variable {K V α : Type} [BEq K] {c d : Cache K V} {items items' : List (SlotId × Entry K V)}
  {free free' : List SlotId} {key : K} {now : Instant}

/-- Whether a request packs the storage anew: resizing does when it evicts. -/
def repacks (c : Cache K V) : Command K V → Bool
  | .setCapacity capacity => capacity < c.len
  | _ => false

/-- Whether a request starts the storage anew. -/
def renews (c : Cache K V) : Command K V → Bool
  | .clear => true
  | command => c.repacks command

omit [BEq K] in
theorem renews_of_repacks {command : Command K V} (h : c.repacks command = true) :
    c.renews command = true := by
  cases command with
  | setCapacity capacity => exact h
  | _ => cases h

omit [BEq K] in
theorem eq_clear_of_renews {command : Command K V} (h : c.renews command = true)
    (hr : c.repacks command = false) : command = .clear := by
  cases command with
  | clear => rfl
  | _ => exact absurd h (Bool.eq_false_iff.mp hr)

/-- How an operation moves entries between slots. A cache with this many slots held `items` beside
the vacant slots `free`, the one vacated last at the front, and then holds `items'` beside `free'`;
`renewed` tells whether the storage starts anew. -/
inductive Relocates (capacity slots : Nat) (items : List (SlotId × Entry K V))
    (free : List SlotId) :
    (renewed : Bool) → (items' : List (SlotId × Entry K V)) → (free' : List SlotId) → Prop
  | kept {items' : List (SlotId × Entry K V)} (same : (keyed items').Perm (keyed items)) :
      Relocates capacity slots items free false items' free
  | removed (p gone s : List (SlotId × Entry K V)) (split : items = p ++ gone ++ s) :
      Relocates capacity slots items free false (p ++ s) ((gone.map Prod.fst).reverse ++ free)
  | appended (entry : Entry K V) (absent : Absent entry.key items)
      (room : items.length < capacity) :
      Relocates capacity slots items free false (items ++ [(free.headD slots, entry)]) free.tail
  | displaced (id : SlotId) (victim entry : Entry K V) (kept : List (SlotId × Entry K V))
      (split : items = (id, victim) :: kept) (absent : Absent entry.key items) :
      Relocates capacity slots items free false (kept ++ [(id, entry)]) free
  | renewed (gone kept : List (SlotId × Entry K V)) (split : items = gone ++ kept) :
      Relocates capacity slots items free true (RecencyList.packed 0 (kept.map Prod.snd)) []

/-- From `c`, which holds `items`, to `d` the entries move between slots in one of these ways. -/
def Moves (c : Cache K V) (items : List (SlotId × Entry K V)) (free : List SlotId)
    (renewed : Bool) (d : Cache K V) : Prop :=
  ∃ items' free', d.Holds items' free' ∧
    Relocates c.capacity c.order.slotCount items free renewed items' free'

section Ways

theorem Holds.moves_of_index (h : c.Holds items free) (h' : d.Holds items' free)
    (hi : d.index = c.index) : c.Moves items free false d :=
  ⟨items', free, h', .kept (h'.index.symm.trans (hi ▸ h.index))⟩

theorem Holds.moves_refl (h : c.Holds items free) : c.Moves items free false c :=
  h.moves_of_index h rfl

theorem Holds.moves_remembering (h : c.Holds items free) (memo : Option SlotId) :
    c.Moves items free false (c.remembering memo) :=
  h.moves_of_index (h.remembering memo) rfl

omit [BEq K] in
theorem promoteOnAccess_index (c : Cache K V) (now : Instant) (id : SlotId) :
    (c.promoteOnAccess now id).index = c.index := by
  unfold promoteOnAccess
  split <;> rfl

theorem Holds.moves_drop [PartialEquivBEq K] {p s : List (SlotId × Entry K V)} {id : SlotId}
    {entry : Entry K V} (h : c.Holds (p ++ (id, entry) :: s) free) (hk : key == entry.key) :
    c.Moves (p ++ (id, entry) :: s) free false (c.drop id key).bump :=
  ⟨p ++ s, id :: free, (h.drop hk).congr rfl rfl rfl, .removed p [(id, entry)] s (by simp)⟩

end Ways

section Requests

variable [EquivBEq K]

theorem Holds.insert_moves (h : c.Holds items free) {value : V} {o : Outcome K V Insertion}
    (ho : c.insert now key value = .ok o) : c.Moves items free false o.cache := by
  cases h.storing now key value with
  | refused absent empty inserted =>
    obtain rfl := Except.ok.inj (ho.symm.trans inserted)
    exact h.moves_refl
  | replaced p id entry s split same inserted =>
    subst split
    obtain rfl := Except.ok.inj (ho.symm.trans inserted)
    exact h.moves_of_index (h.replace now value) rfl
  | appended absent room inserted =>
    obtain rfl := Except.ok.inj (ho.symm.trans inserted)
    exact ⟨_, _, h.append absent room now value, .appended ⟨key, value, now⟩ absent room⟩
  | displaced id victim kept split absent full inserted =>
    subst split
    obtain rfl := Except.ok.inj (ho.symm.trans inserted)
    exact ⟨_, _, h.drop_append absent now value,
      .displaced id victim ⟨key, value, now⟩ kept rfl absent⟩

theorem Holds.resolve_moves (h : c.Holds items free) (now : Instant) (key : K) :
    c.Moves items free false (c.resolve now key).cache := by
  cases h.resolution now key with
  | miss memo resolved remembers dead =>
    rw [resolved]
    exact h.moves_remembering memo
  | hit p id entry s split same resolved live silent =>
    rw [resolved]
    exact h.moves_remembering (some id)

theorem Holds.lookup_moves (h : c.Holds items free) (now : Instant) (key : K) :
    c.Moves items free false (c.lookup now key).cache := by
  have hm := h.resolve_moves now key
  rw [Cache.lookup]
  split <;> exact hm

theorem Holds.touch_moves (h : c.Holds items free) (now : Instant) (key : K) :
    c.Moves items free false (c.touch now key).cache := by
  cases h.resolution now key with
  | miss memo resolved remembers dead =>
    rw [Cache.touch, resolved]
    exact h.moves_remembering memo
  | hit p id entry s split same resolved live silent =>
    subst split
    rw [Cache.touch, resolved]
    exact h.moves_of_index ((h.remembering (some id)).promote now) rfl

theorem Holds.lookupMut_moves (h : c.Holds items free) (now : Instant) (key : K)
    (update : V → V) : c.Moves items free false (c.lookupMut now key update).cache := by
  cases h.resolution now key with
  | miss memo resolved remembers dead =>
    rw [Cache.lookupMut, resolved]
    exact h.moves_remembering memo
  | hit p id entry s split same resolved live silent =>
    subst split
    obtain ⟨p', entry', s', hd, -, -⟩ := (h.remembering (some id)).promoteOnAccess now
    simp only [Cache.lookupMut, resolved, hd.get?_order]
    exact h.moves_of_index (hd.write update) (promoteOnAccess_index _ now id)

theorem Holds.getOrInsert_moves (h : c.Holds items free) {make : K → V} {o : Outcome K V V}
    (ho : c.getOrInsert now key make = .ok o) : c.Moves items free false o.cache := by
  cases h.resolution now key with
  | miss memo resolved remembers dead =>
    simp only [Cache.getOrInsert, resolved, Option.bind_none] at ho
    obtain ⟨stored, hstored, ho⟩ := exists_of_bind_eq_ok ho
    obtain rfl := Except.ok.inj ho
    exact (h.remembering memo).insert_moves hstored
  | hit p id entry s split same resolved live silent =>
    subst split
    obtain ⟨p', entry', s', hd, -, -⟩ := (h.remembering (some id)).promoteOnAccess now
    simp only [Cache.getOrInsert, resolved, Option.bind_some, hd.get?_order] at ho
    obtain rfl := Except.ok.inj ho
    exact h.moves_of_index hd (promoteOnAccess_index _ now id)

theorem Holds.erase_moves (h : c.Holds items free) {o : Outcome K V Bool}
    (ho : c.erase key = .ok o) : c.Moves items free false o.cache := by
  rcases absent_or key items with ha | ⟨p, id, entry, s, rfl, hk⟩
  · obtain rfl := Except.ok.inj (ho.symm.trans (h.erase_of_absent ha))
    exact h.moves_refl
  · obtain rfl := Except.ok.inj (ho.symm.trans (h.erase_of_mem hk))
    exact h.moves_drop hk

theorem Holds.eraseAt_moves (h : c.Holds items free) (g : Handle) :
    c.Moves items free false (c.eraseAt g).cache := by
  cases hv : c.validate g with
  | error e =>
    rw [eraseAt_of_error hv]
    exact h.moves_refl
  | ok slot =>
    cases slot with
    | none =>
      rw [eraseAt_of_none hv]
      exact h.moves_refl
    | some id =>
      by_cases hid : id ∈ items.map Prod.fst
      · obtain ⟨⟨_, entry⟩, hm, rfl⟩ := List.mem_map.mp hid
        obtain ⟨p, s, rfl⟩ := List.append_of_mem hm
        rw [eraseAt_of_mem h.order hv]
        exact h.moves_drop BEq.rfl
      · rw [eraseAt_of_vacant h.order hv hid]
        exact h.moves_refl

theorem Holds.popFront_moves (h : c.Holds items free) :
    c.Moves items free false c.popFront.cache := by
  cases items with
  | nil =>
    rw [popFront_nil h.order]
    exact h.moves_refl
  | cons x s =>
    obtain ⟨id, entry⟩ := x
    rw [popFront_cons h.order]
    exact h.moves_drop (p := []) BEq.rfl

theorem Holds.setCapacity_moves (h : c.Holds items free) {capacity : Nat} {o : Outcome K V Unit}
    (ho : c.setCapacity capacity = .ok o) :
    c.Moves items free (decide (capacity < c.len)) o.cache := by
  rw [h.len_eq]
  rcases Nat.lt_or_ge capacity items.length with hc | hc
  · obtain rfl := Except.ok.inj (ho.symm.trans (h.setCapacity_of_exceeds hc))
    obtain ⟨free', hs⟩ := h.shrunk capacity
    rw [decide_eq_true hc]
    exact ⟨_, [], hs.compact.congr rfl rfl rfl, .renewed _ _ (List.take_append_drop ..).symm⟩
  · obtain rfl := Except.ok.inj (ho.symm.trans (h.setCapacity_of_fits hc))
    rw [decide_eq_false (Nat.not_lt.mpr hc)]
    exact h.moves_of_index ⟨h.order, h.index, h.distinct, hc⟩ rfl

theorem Holds.purgeExpired_moves (h : c.Holds items free) {o : Outcome K V Nat}
    (ho : c.purgeExpired now = .ok o) : c.Moves items free false o.cache := by
  by_cases hn : c.expired now items = []
  · obtain rfl := Except.ok.inj (ho.symm.trans (h.purgeExpired_of_live hn))
    exact h.moves_refl
  · obtain rfl := Except.ok.inj (ho.symm.trans (h.purgeExpired_of_dead hn))
    have hsplit : items = c.expired now items ++ items.dropWhile (c.dead now) :=
      List.takeWhile_append_dropWhile.symm
    have hd : (c.dropAll (c.expired now items)).Holds (items.dropWhile (c.dead now)) _ :=
      Holds.dropAll (hsplit ▸ h)
    exact ⟨_, _, hd.congr rfl rfl rfl, .removed [] _ _ hsplit⟩

/-- How one request moves the entries. -/
theorem Holds.perform_moves (h : c.Holds items free) {command : Command K V}
    (single : ∀ pairs, command ≠ .insertAll pairs) {o : Outcome K V (Answer K V)}
    (ho : c.perform now command = .ok o) :
    c.Moves items free (c.renews command) o.cache := by
  cases command with
  | insert key value =>
    obtain ⟨o', ho', rfl⟩ := exists_of_map_eq_ok ho
    exact h.insert_moves ho'
  | insertAll pairs => exact absurd rfl (single pairs)
  | getOrInsert key make =>
    obtain ⟨o', ho', rfl⟩ := exists_of_map_eq_ok ho
    exact h.getOrInsert_moves ho'
  | lookup key => cases ho; exact h.lookup_moves now key
  | lookupMut key update => cases ho; exact h.lookupMut_moves now key update
  | contains key => cases ho; exact h.resolve_moves now key
  | touch key => cases ho; exact h.touch_moves now key
  | erase key =>
    obtain ⟨o', ho', rfl⟩ := exists_of_map_eq_ok ho
    exact h.erase_moves ho'
  | eraseAt g => cases ho; exact h.eraseAt_moves g
  | popFront => cases ho; exact h.popFront_moves
  | clear => cases ho; exact ⟨[], [], holds_clear c, .renewed items [] (List.append_nil _).symm⟩
  | setCapacity capacity =>
    obtain ⟨o', ho', rfl⟩ := exists_of_map_eq_ok ho
    exact h.setCapacity_moves ho'
  | purgeExpired =>
    obtain ⟨o', ho', rfl⟩ := exists_of_map_eq_ok ho
    exact h.purgeExpired_moves ho'
  | cursor start moves =>
    cases ho
    cases start with
    | find key => exact h.resolve_moves now key
    | _ => exact h.moves_refl
  | _ => cases ho; exact h.moves_refl

end Requests

section Places

/-- The stored keys with their slots, from the least to the most recent one. -/
def places (c : Cache K V) : List (K × SlotId) :=
  keyed c.order.entries

/-- The slots in `before` of the keys that are not in `after`. -/
def slotsOnlyIn (before after : List (K × SlotId)) : List SlotId :=
  (before.filter fun x => !after.any fun y => x.1 == y.1).map Prod.snd

variable {before after more : List (K × SlotId)}

theorem slotsOnlyIn_append (before more after : List (K × SlotId)) :
    slotsOnlyIn (before ++ more) after = slotsOnlyIn before after ++ slotsOnlyIn more after := by
  simp [slotsOnlyIn]

theorem slotsOnlyIn_of_absent (h : ∀ x ∈ before, KeyMap.Absent x.1 after) :
    slotsOnlyIn before after = before.map Prod.snd := by
  rw [slotsOnlyIn, List.filter_eq_self.mpr]
  intro x hx
  rw [Bool.not_eq_true', List.any_eq_false]
  exact fun y hy => by simp [h x hx y hy]

theorem slotsOnlyIn_singleton {id : SlotId} (h : KeyMap.Absent key after) :
    slotsOnlyIn [(key, id)] after = [id] :=
  slotsOnlyIn_of_absent fun x hx => by rwa [List.mem_singleton.mp hx]

theorem slotsOnlyIn_of_subset [ReflBEq K] (h : ∀ x ∈ before, x ∈ after) :
    slotsOnlyIn before after = [] := by
  rw [slotsOnlyIn, List.filter_eq_nil_iff.mpr, List.map_nil]
  intro x hx
  rw [Bool.not_eq_true', Bool.not_eq_false, List.any_eq_true]
  exact ⟨x, h x hx, BEq.rfl⟩

theorem mem_slotsOnlyIn {x : K × SlotId} (h : x ∈ before) (ha : KeyMap.Absent x.1 after) :
    x.2 ∈ slotsOnlyIn before after := by
  refine List.mem_map_of_mem (List.mem_filter.mpr ⟨h, ?_⟩)
  rw [Bool.not_eq_true', List.any_eq_false]
  exact fun y hy => by simp [ha y hy]

theorem absent_of_distinct [PartialEquivBEq K] {gone : List (K × SlotId)}
    (h : KeyMap.Distinct (before ++ gone ++ after)) {x : K × SlotId} (hx : x ∈ gone) :
    KeyMap.Absent x.1 (before ++ after) := by
  obtain ⟨hbefore, -, hafter⟩ := List.pairwise_append.mp h
  obtain ⟨-, -, hgone⟩ := List.pairwise_append.mp hbefore
  intro y hy
  rcases List.mem_append.mp hy with hy | hy
  · exact BEq.symm_false (hgone y hy x hx)
  · exact hafter x (List.mem_append_right _ hx) y hy

theorem Holds.places_eq (h : c.Holds items free) : c.places = keyed items := by
  rw [places, h.order.entries_eq]

theorem Holds.distinct_keyed [PartialEquivBEq K] (h : c.Holds items free) :
    KeyMap.Distinct (keyed items) :=
  h.distinct.perm h.index

theorem absent_of_displaced [PartialEquivBEq K] {id : SlotId} {victim entry : Entry K V}
    {kept : List (SlotId × Entry K V)} (h : KeyMap.Distinct (keyed ((id, victim) :: kept)))
    (absent : Absent entry.key ((id, victim) :: kept)) :
    KeyMap.Absent victim.key (keyed kept ++ [(entry.key, id)]) := by
  refine List.forall_mem_append.mpr ⟨(List.pairwise_cons.mp h).1, fun y hy => ?_⟩
  rw [List.mem_singleton.mp hy]
  exact BEq.symm_false (absent (victim.key, id) List.mem_cons_self)

theorem not_absent_of_mem [ReflBEq K] {x : K × SlotId} (h : x ∈ after) :
    ¬ KeyMap.Absent x.1 after := fun ha => by simpa using ha x h

variable [EquivBEq K] {capacity slots : Nat} {x : K × SlotId}

/-- The vacated slots come on top of those that were vacant, and a new key takes the one on top, or
a fresh one. -/
theorem Relocates.exchange (h : Relocates capacity slots items free false items' free')
    (hd : KeyMap.Distinct (keyed items)) :
    let vacant := (slotsOnlyIn (keyed items) (keyed items')).reverse ++ free
    let taken := slotsOnlyIn (keyed items') (keyed items)
    taken = [] ∧ free' = vacant ∨ taken = [vacant.headD slots] ∧ free' = vacant.tail := by
  cases h with
  | kept same =>
    rw [slotsOnlyIn_of_subset fun x hx => same.mem_iff.mp hx,
      slotsOnlyIn_of_subset fun x hx => same.mem_iff.mpr hx]
    exact .inl ⟨rfl, rfl⟩
  | removed p gone s split =>
    subst split
    rw [keyed_append, keyed_append] at hd ⊢
    have hgone : slotsOnlyIn (keyed gone) (keyed p ++ keyed s) = gone.map Prod.fst := by
      rw [slotsOnlyIn_of_absent fun x hx => absent_of_distinct hd hx, keyed, List.map_map]
      rfl
    rw [keyed_append, slotsOnlyIn_append, slotsOnlyIn_append, hgone,
      slotsOnlyIn_of_subset fun x hx => List.mem_append_left _ hx,
      slotsOnlyIn_of_subset fun x hx => List.mem_append_right _ hx, List.append_nil]
    refine .inl ⟨slotsOnlyIn_of_subset fun x hx => ?_, rfl⟩
    exact (List.mem_append.mp hx).elim (fun h => by simp [h]) (fun h => by simp [h])
  | appended entry absent room =>
    rw [keyed_append, slotsOnlyIn_append,
      slotsOnlyIn_of_subset fun x hx => List.mem_append_left _ hx,
      slotsOnlyIn_of_subset fun x hx => hx, keyed_cons, keyed_nil, slotsOnlyIn_singleton absent]
    exact .inr ⟨rfl, rfl⟩
  | displaced id victim entry kept split absent =>
    subst split
    have hv : slotsOnlyIn (keyed ((id, victim) :: kept)) (keyed kept ++ [(entry.key, id)]) =
        [id] := by
      rw [keyed_cons, ← List.singleton_append, slotsOnlyIn_append,
        slotsOnlyIn_singleton (absent_of_displaced hd absent),
        slotsOnlyIn_of_subset fun x hx => List.mem_append_left _ hx]
      rfl
    have hnew : slotsOnlyIn (keyed kept ++ [(entry.key, id)]) (keyed ((id, victim) :: kept)) =
        [id] := by
      rw [slotsOnlyIn_append, slotsOnlyIn_singleton absent,
        slotsOnlyIn_of_subset fun x hx => by simp [hx]]
      rfl
    rw [keyed_append, keyed_cons _ [], keyed_nil, hv, hnew]
    exact .inr ⟨rfl, rfl⟩

/-- A new key in a full cache takes the slot of the entry that was the least recent one. -/
theorem Relocates.of_full (h : Relocates capacity slots items free false items' free')
    (full : capacity ≤ items.length) (hx : x ∈ keyed items')
    (new : KeyMap.Absent x.1 (keyed items)) : items.head?.map Prod.fst = some x.2 := by
  cases h with
  | kept same => exact absurd new (not_absent_of_mem (same.mem_iff.mp hx))
  | removed p gone s split =>
    refine absurd new (not_absent_of_mem ?_)
    rw [keyed_append] at hx
    subst split
    exact (List.mem_append.mp hx).elim (fun h => by simp [h]) (fun h => by simp [h])
  | appended entry absent room => exact absurd full (Nat.not_le_of_lt room)
  | displaced id victim entry kept split absent =>
    subst split
    rw [keyed_append] at hx
    rcases List.mem_append.mp hx with hx | hx
    · exact absurd new (not_absent_of_mem (List.mem_cons_of_mem _ hx))
    · obtain rfl := List.mem_singleton.mp hx
      rfl

/-- A key that is stored before and after stays in its slot. -/
theorem Relocates.keeps (h : Relocates capacity slots items free false items' free')
    (hd : KeyMap.Distinct (keyed items)) (hx : x ∈ keyed items)
    (stays : ¬ KeyMap.Absent x.1 (keyed items')) : x ∈ keyed items' := by
  cases h with
  | kept same => exact same.mem_iff.mpr hx
  | removed p gone s split =>
    subst split
    rw [keyed_append, keyed_append] at hd hx
    rw [keyed_append] at stays ⊢
    rcases List.mem_append.mp hx with hx | hx
    · rcases List.mem_append.mp hx with hx | hx
      · exact List.mem_append_left _ hx
      · exact absurd (absent_of_distinct hd hx) stays
    · exact List.mem_append_right _ hx
  | appended entry absent room =>
    rw [keyed_append]
    exact List.mem_append_left _ hx
  | displaced id victim entry kept split absent =>
    subst split
    rw [keyed_append] at stays ⊢
    rcases List.mem_cons.mp hx with rfl | hx
    · exact absurd (absent_of_displaced hd absent) stays
    · exact List.mem_append_left _ hx

omit [EquivBEq K] in
/-- Storage grows when more entries are stored than there are slots. -/
theorem Relocates.slotCount {slots' : Nat}
    (h : Relocates capacity slots items free false items' free')
    (before : items.length + free.length = slots) (after : items'.length + free'.length = slots') :
    slots' = max slots items'.length := by
  cases h with
  | kept same =>
    have hlen := same.length_eq
    rw [length_keyed, length_keyed] at hlen
    omega
  | removed p gone s split =>
    subst split
    simp only [List.length_append, List.length_reverse, List.length_map] at before after ⊢
    omega
  | appended entry absent room =>
    simp only [List.length_append, List.length_tail, List.length_singleton] at after ⊢
    omega
  | displaced id victim entry kept split absent =>
    subst split
    simp only [List.length_append, List.length_cons, List.length_nil] at before after ⊢
    omega

omit [EquivBEq K] in
/-- When the storage starts anew, the entries that are left are the most recent ones, in slots of
their own from the first one on. -/
theorem Relocates.of_renewed (h : Relocates capacity slots items free true items' free') :
    items'.map Prod.snd <:+ items.map Prod.snd ∧
      (keyed items').map Prod.snd = List.range items'.length ∧ free' = [] := by
  cases h with
  | renewed gone kept split =>
    subst split
    refine ⟨?_, ?_, rfl⟩
    · rw [RecencyList.map_snd_packed, List.map_append]
      exact List.suffix_append _ _
    · rw [map_snd_keyed, RecencyList.map_fst_packed, RecencyList.length_packed,
        List.range_eq_range']

theorem Relocates.not_absent_of_renewed
    (h : Relocates capacity slots items free true items' free') (hx : x ∈ keyed items') :
    ¬ KeyMap.Absent x.1 (keyed items) := by
  obtain ⟨y, hy, rfl⟩ := List.mem_map.mp hx
  obtain ⟨z, hz, hzy⟩ := List.mem_map.mp (h.of_renewed.1.subset (List.mem_map_of_mem hy))
  have hmem : (y.2.key, z.1) ∈ keyed items := hzy ▸ List.mem_map_of_mem hz
  exact not_absent_of_mem (x := (y.2.key, z.1)) hmem

end Places

end Lru.Cache
