import Lru.Cache.Reading
import Lru.Proofs.Cache.Consistency
import Lru.Proofs.Drift.Requests

/-! # Generations

A structural change stores, moves or removes an entry and outdates the handles
given out before. A request advances the generation once for each structural
change it makes; if it makes none, every slot keeps its key. This needs no key
to equal itself, as long as no check fails.
-/

namespace Lru.Cache

variable {K V α : Type} [BEq K] {c d e : Cache K V} {items p s : List (SlotId × Entry K V)}
  {free : List SlotId} {id : SlotId} {entry : Entry K V} {key : K} {now : Instant} {g m n : Nat}

/-- The key that is stored in a slot. -/
def keyAt (c : Cache K V) (id : SlotId) : Option K :=
  (c.order.get? id).map Entry.key

section Count

/-- How many of the pairs are stored or replace a value when they are inserted in order. -/
def stored (c : Cache K V) (now : Instant) : List (K × V) → Nat
  | [] => 0
  | (key, value) :: rest => (c.storesOnInsert key).toNat +
    match c.insert now key value with
    | .ok o => o.cache.stored now rest
    | .error _ => 0

/-- How many structural changes a request makes that gets this answer: entries stored or replaced,
entries erased or taken from the front, clearing, shrinking and purging that evict, and entries
touched or, where accesses promote, found by an access that may change them. -/
def mutations (c : Cache K V) (now : Instant) (command : Command K V) (answer : Answer K V) :
    Nat :=
  match command, answer with
  | .insert key _, _ => (c.storesOnInsert key).toNat
  | .insertAll pairs, _ => c.stored now pairs
  | .getOrInsert key _, _ =>
    if (c.contains now key).result then (c.mode == .onAccess).toNat
    else (c.storesOnInsert key).toNat
  | .lookupMut _ _, .valueOr (.ok _) => (c.mode == .onAccess).toNat
  | .touch _, .flag true => 1
  | .erase _, .flag true => 1
  | .eraseAt _, .entryOr (.ok _) => 1
  | .popFront, .popped (some _) => 1
  | .clear, _ => 1
  | .setCapacity capacity, _ => (decide (capacity < c.len)).toNat
  | .purgeExpired, .count (_ + 1) => 1
  | _, _ => 0

end Count

section Ages

/-- From `c` to `d` the generation advances `n` times, and if `n` is zero, slots keep their keys. -/
structure Ages (c d : Cache K V) (n : Nat) : Prop where
  id : d.id = c.id
  generation : d.generation = c.generation + UInt64.ofNat n
  keyAt : n = 0 → d.keyAt = c.keyAt

omit [BEq K]

theorem Ages.refl (c : Cache K V) : Ages c c 0 :=
  ⟨rfl, by simp, fun _ => rfl⟩

theorem Ages.trans (h : Ages c d m) (h' : Ages d e n) : Ages c e (m + n) where
  id := h'.id.trans h.id
  generation := by rw [h'.generation, h.generation, UInt64.ofNat_add, UInt64.add_assoc]
  keyAt hz := (h'.keyAt (by omega)).trans (h.keyAt (by omega))

theorem ages_remembering (c : Cache K V) (memo : Option SlotId) :
    Ages c (c.remembering memo) 0 :=
  ⟨rfl, by simp [remembering], fun _ => rfl⟩

theorem ages_one (hid : d.id = c.id) (hg : d.generation = c.generation + 1) : Ages c d 1 :=
  ⟨hid, hg, fun h => nomatch h⟩

theorem ages_promote (c : Cache K V) (now : Instant) (id : SlotId) :
    Ages c (c.promote now id) 1 :=
  ages_one rfl rfl

theorem ages_promoteOnAccess (c : Cache K V) (now : Instant) (id : SlotId) :
    Ages c (c.promoteOnAccess now id) (c.mode == .onAccess).toNat := by
  cases hm : c.mode with
  | onInsert => rw [promoteOnAccess, hm]; exact .refl c
  | onAccess => rw [promoteOnAccess, hm]; exact ages_promote c now id

theorem ages_write (c : Cache K V) (id : SlotId) (f : V → V) :
    Ages c { c with order := c.order.modify id fun e => { e with value := f e.value } } 0 := by
  refine ⟨rfl, by simp, ?_⟩
  intro _
  ext1 j
  simp only [Cache.keyAt, RecencyList.get?_modify]
  split <;> simp [Function.comp_def]

end Ages

theorem ages_drop_bump (c : Cache K V) (id : SlotId) (key : K) :
    Ages c (c.drop id key).bump 1 := by
  rw [drop_eq]
  exact ages_one rfl rfl

section Results

omit [BEq K] in
theorem exists_of_map_eq_ok {ε α β : Type} {f : α → β} {x : Except ε α} {b : β}
    (h : f <$> x = .ok b) : ∃ a, x = .ok a ∧ f a = b := by
  cases x with
  | error e => cases h
  | ok a => exact ⟨a, rfl, Except.ok.inj h⟩

omit [BEq K] in
theorem exists_of_bind_eq_ok {ε α β : Type} {f : α → Except ε β} {x : Except ε α} {b : β}
    (h : x >>= f = .ok b) : ∃ a, x = .ok a ∧ f a = .ok b := by
  cases x with
  | error e => cases h
  | ok a => exact ⟨a, rfl, h⟩

end Results

section Steps

omit [BEq K] in
theorem eq_of_audited {o o' : Outcome K V α} (h : audited o = .ok o') : o' = o := by
  simp only [audited] at h
  split at h <;> cases h
  rfl

theorem evictFront_generation (c : Cache K V) :
    c.evictFront.cache.id = c.id ∧ c.evictFront.cache.generation = c.generation := by
  unfold evictFront
  split
  · exact ⟨rfl, rfl⟩
  · rw [forget_eq]
    exact ⟨rfl, rfl⟩

theorem insert_ages {value : V} {o : Outcome K V Insertion}
    (ho : c.insert now key value = .ok o) : Ages c o.cache (c.storesOnInsert key).toNat := by
  cases hg : c.index.get? key with
  | some id =>
    have hstores : c.storesOnInsert key = true := by simp [storesOnInsert, KeyMap.contains, hg]
    simp only [insert, hg] at ho
    cases ho
    rw [hstores]
    exact ages_one rfl rfl
  | none =>
    have hstores : c.storesOnInsert key = (c.capacity != 0) := by
      simp [storesOnInsert, KeyMap.contains, hg]
    simp only [insert, hg] at ho
    by_cases hc : c.capacity = 0
    · rw [if_pos hc] at ho
      cases ho
      simpa [hstores, hc] using Ages.refl c
    rw [if_neg hc] at ho
    have hone : (c.storesOnInsert key).toNat = 1 := by simp [hstores, hc]
    rw [hone]
    split at ho
    · obtain ⟨hid, hgeneration⟩ := c.evictFront_generation
      rw [eq_of_audited ho]
      exact ages_one hid (congrArg (· + 1) hgeneration)
    · rw [eq_of_audited ho]
      exact ages_one rfl rfl

theorem insertAll_ages {pairs : List (K × V)} {o : Outcome K V Nat}
    (ho : c.insertAll now pairs = .ok o) : Ages c o.cache (c.stored now pairs) := by
  induction pairs generalizing c o with
  | nil =>
    cases ho
    exact .refl c
  | cons pair rest ih =>
    obtain ⟨key, value⟩ := pair
    obtain ⟨first, hfirst, ho⟩ := exists_of_bind_eq_ok ho
    obtain ⟨others, hothers, ho⟩ := exists_of_bind_eq_ok ho
    cases ho
    rw [stored, hfirst]
    have hrest := ih hothers
    exact (insert_ages hfirst).trans hrest

theorem erase_ages {o : Outcome K V Bool} (ho : c.erase key = .ok o) :
    Ages c o.cache (c.mutations now (.erase key) (.flag o.result)) := by
  cases hg : c.index.get? key with
  | none =>
    simp only [erase, hg] at ho
    cases ho
    exact .refl c
  | some id =>
    simp only [erase, hg, forget_eq] at ho
    rw [eq_of_audited ho]
    exact ages_one rfl rfl

theorem popFront_ages (c : Cache K V) :
    Ages c c.popFront.cache (c.mutations now .popFront (.popped c.popFront.result)) := by
  obtain ⟨hid, hgeneration⟩ := c.evictFront_generation
  simp only [popFront]
  split
  · exact .refl c
  · exact ages_one hid (congrArg (· + 1) hgeneration)

theorem Drifts.eraseAt_ages (h : c.Drifts items free g) (handle : Handle) :
    Ages c (c.eraseAt handle).cache
      (c.mutations now (.eraseAt handle) (.entryOr (c.eraseAt handle).result)) := by
  cases hv : c.validate handle with
  | error e =>
    rw [eraseAt_of_error hv]
    exact .refl c
  | ok slot =>
    cases slot with
    | none =>
      rw [eraseAt_of_none hv]
      exact .refl c
    | some id =>
      by_cases hid : id ∈ items.map Prod.fst
      · obtain ⟨⟨_, entry⟩, hm, rfl⟩ := List.mem_map.mp hid
        obtain ⟨p, s, rfl⟩ := List.append_of_mem hm
        rw [Cache.eraseAt_of_mem h.order hv]
        exact ages_drop_bump c _ _
      · rw [Cache.eraseAt_of_vacant h.order hv hid]
        exact .refl c

theorem due_of_evicting {due : Cache K V → Bool} (h : evicting due c items ≠ 0) :
    due c = true := by
  cases items with
  | nil => exact absurd rfl h
  | cons x s =>
    by_contra hdue
    exact h (if_neg hdue)

theorem Drifts.evicting_eq_zero_iff (h : c.Drifts items free 0) (capacity : Nat) :
    evicting (fun c => decide (capacity < c.len)) c items = 0 ↔ ¬ capacity < c.len := by
  constructor
  · intro hk hlt
    have hpos : 0 < items.length := by
      rw [len, h.size] at hlt
      omega
    have hstop : evicting (fun c => decide (capacity < c.len)) c items < items.length :=
      hk.symm ▸ hpos
    have hdue := not_due_of_evicting hstop
    rw [hk] at hdue
    exact of_decide_eq_false hdue hlt
  · intro hfits
    by_contra hk
    exact hfits (of_decide_eq_true (due_of_evicting hk))

theorem Drifts.setCapacity_ages [PartialEquivBEq K] (h : c.Drifts items free g) {capacity : Nat}
    {o : Outcome K V Unit} (ho : c.setCapacity capacity = .ok o) :
    Ages c o.cache (decide (capacity < c.len)).toNat := by
  -- the check has passed, and so no stray key is left over
  obtain rfl : g = 0 := by
    cases h.setCapacity_ends 0 capacity with
    | fails queued asked drifted count ends => cases ends.symm.trans ho
    | leaves o' passed shifts answers ends =>
      rcases passed with unasked | aligned
      · cases unasked
      · exact (Nat.add_eq_zero_iff.mp aligned).1
  simp only [setCapacity, evictWhile_slotCount h.order] at ho
  split at ho
  · next hk =>
    rw [eq_of_audited ho, decide_eq_false ((h.evicting_eq_zero_iff capacity).mp hk)]
    simp only [hk, List.take_zero, Cache.dropAll]
    exact ⟨rfl, by simp, fun _ => rfl⟩
  · next hk =>
    have hlt : capacity < c.len := not_not.mp (mt (h.evicting_eq_zero_iff capacity).mpr hk)
    rw [eq_of_audited ho, decide_eq_true hlt]
    simp only [Cache.compact, dropAll_eq]
    exact ages_one rfl rfl

theorem Drifts.purgeExpired_ages (h : c.Drifts items free g) {o : Outcome K V Nat}
    (ho : c.purgeExpired now = .ok o) :
    Ages c o.cache (c.mutations now .purgeExpired (.count o.result)) := by
  simp only [purgeExpired, evictWhile_slotCount h.order] at ho
  split at ho
  · next hk =>
    rw [eq_of_audited ho, hk]
    exact .refl c
  · next hk =>
    obtain ⟨k, hk⟩ := Nat.exists_eq_succ_of_ne_zero hk
    rw [eq_of_audited ho, hk]
    simp only [dropAll_eq]
    exact ages_one rfl rfl

end Steps

section Accesses

variable [PartialEquivBEq K]

/-- Looking for a live entry changes at most the last accessed slot. -/
theorem Drifts.resolve_ages (h : c.Drifts items free g) (now : Instant) (key : K) :
    Ages c (c.resolve now key).cache 0 := by
  obtain ⟨memo, hcache, -⟩ := h.resolve now key
  rw [hcache]
  exact ages_remembering c memo

theorem Drifts.lookup_ages (h : c.Drifts items free g) (now : Instant) (key : K) :
    Ages c (c.lookup now key).cache 0 := by
  have ha := h.resolve_ages now key
  rw [Cache.lookup]
  split <;> exact ha

theorem Drifts.touch_ages (h : c.Drifts items free g) (now : Instant) (key : K) :
    Ages c (c.touch now key).cache
      (c.mutations now (.touch key) (.flag (c.touch now key).result)) := by
  have ha := h.resolve_ages now key
  rw [Cache.touch]
  split
  · exact ha.trans (ages_promote _ now _)
  · exact ha

/-- An access that found an entry finds it again after the promotion. -/
theorem Drifts.exists_accessed (h : c.Drifts items free g) {now : Instant} {key : K} {id : SlotId}
    (hr : (c.resolve now key).result = some id) :
    (∃ entry, ((c.resolve now key).cache.promoteOnAccess now id).order.get? id = some entry) ∧
      Ages c ((c.resolve now key).cache.promoteOnAccess now id) (c.mode == .onAccess).toNat := by
  obtain ⟨memo, hcache, hfound⟩ := h.resolve now key
  obtain ⟨p, entry, s, rfl, -⟩ := hfound id hr
  have ha := (ages_remembering c memo).trans (ages_promoteOnAccess _ now id)
  rw [Nat.zero_add] at ha
  rw [hcache]
  exact ⟨Option.isSome_iff_exists.mp ((h.remembering memo).get?_promoteOnAccess now), ha⟩

theorem Drifts.lookupMut_ages (h : c.Drifts items free g) (now : Instant) (key : K)
    (update : V → V) :
    Ages c (c.lookupMut now key update).cache (c.mutations now (.lookupMut key update)
      (.valueOr (c.lookupMut now key update).result)) := by
  cases hr : (c.resolve now key).result with
  | none =>
    simp only [Cache.lookupMut, hr]
    exact h.resolve_ages now key
  | some id =>
    obtain ⟨⟨entry, hget⟩, ha⟩ := h.exists_accessed hr
    simp only [Cache.lookupMut, hr, hget]
    exact ha.trans (ages_write _ id update)

theorem Drifts.getOrInsert_ages (h : c.Drifts items free g) {make : K → V} {answer : Answer K V}
    {o : Outcome K V V} (ho : c.getOrInsert now key make = .ok o) :
    Ages c o.cache (c.mutations now (.getOrInsert key make) answer) := by
  cases hr : (c.resolve now key).result with
  | none =>
    obtain ⟨memo, hcache, -⟩ := h.resolve now key
    simp only [Cache.getOrInsert, hr, Option.bind_none, hcache] at ho
    obtain ⟨stored, hstored, ho⟩ := exists_of_bind_eq_ok ho
    cases ho
    have ha := (ages_remembering c memo).trans (insert_ages hstored)
    rw [Nat.zero_add] at ha
    simp only [mutations, Cache.contains, Outcome.map, hr]
    exact ha
  | some id =>
    obtain ⟨⟨entry, hget⟩, ha⟩ := h.exists_accessed hr
    simp only [Cache.getOrInsert, hr, Option.bind_some, hget] at ho
    cases ho
    simpa [mutations, Cache.contains, hr, Outcome.map] using ha

end Accesses

section Requests

/-- The recency list holds entries, and the index drifts from it by some number of keys. -/
def Drifting (c : Cache K V) : Prop :=
  ∃ items free g, c.Drifts items free g

theorem Coherent.drifting (h : c.Coherent) : c.Drifting := by
  obtain ⟨items, free, h⟩ := h
  exact ⟨items, free, 0, h.drifts⟩

theorem Ends.drifts {x : Except Fault (Outcome K V α)} {checked : Bool} {added removed : List K}
    {answers : α → Prop} (h : c.Ends x checked added removed g answers) {o : Outcome K V α}
    (ho : x = .ok o) : o.cache.Drifting := by
  cases h with
  | fails queued asked drifted count ends => cases ends.symm.trans ho
  | leaves o' passed shifts answers ends =>
    obtain rfl := Except.ok.inj (ends.symm.trans ho)
    obtain ⟨items, free, hd⟩ := shifts.drifts
    exact ⟨items, free, g, hd⟩

variable [PartialEquivBEq K]

/-- A request advances the generation once for each structural change that it makes. -/
theorem Drifting.perform_ages (h : c.Drifting) {command : Command K V}
    {o : Outcome K V (Answer K V)} (ho : c.perform now command = .ok o) :
    Ages c o.cache (c.mutations now command o.result) := by
  obtain ⟨items, free, g, h⟩ := h
  cases command with
  | insert key value =>
    obtain ⟨o', ho', rfl⟩ := exists_of_map_eq_ok ho
    exact insert_ages ho'
  | insertAll pairs =>
    obtain ⟨o', ho', rfl⟩ := exists_of_map_eq_ok ho
    exact insertAll_ages ho'
  | getOrInsert key make =>
    obtain ⟨o', ho', rfl⟩ := exists_of_map_eq_ok ho
    exact h.getOrInsert_ages ho'
  | lookup key => cases ho; exact h.lookup_ages now key
  | lookupMut key update => cases ho; exact h.lookupMut_ages now key update
  | contains key => cases ho; exact h.resolve_ages now key
  | touch key => cases ho; exact h.touch_ages now key
  | erase key =>
    obtain ⟨o', ho', rfl⟩ := exists_of_map_eq_ok ho
    exact erase_ages ho'
  | eraseAt handle => cases ho; exact h.eraseAt_ages handle
  | popFront => cases ho; exact popFront_ages c
  | clear => cases ho; exact ages_one rfl rfl
  | setCapacity capacity =>
    obtain ⟨o', ho', rfl⟩ := exists_of_map_eq_ok ho
    exact h.setCapacity_ages ho'
  | purgeExpired =>
    obtain ⟨o', ho', rfl⟩ := exists_of_map_eq_ok ho
    exact h.purgeExpired_ages ho'
  | cursor start moves =>
    cases ho
    cases start with
    | find key => exact h.resolve_ages now key
    | _ => exact .refl c
  | _ => cases ho; exact .refl c

theorem Drifting.insertAll (h : c.Drifting) {pairs : List (K × V)} {o : Outcome K V Nat}
    (ho : c.insertAll now pairs = .ok o) : o.cache.Drifting := by
  induction pairs generalizing c o with
  | nil =>
    cases ho
    exact h
  | cons pair rest ih =>
    obtain ⟨key, value⟩ := pair
    obtain ⟨items, free, g, hd⟩ := h
    obtain ⟨first, hfirst, ho⟩ := exists_of_bind_eq_ok ho
    obtain ⟨others, hothers, ho⟩ := exists_of_bind_eq_ok ho
    cases ho
    exact ih (o := others) ((hd.insert_ends now key value).drifts hfirst) hothers

theorem Drifting.perform (h : c.Drifting) {command : Command K V} {o : Outcome K V (Answer K V)}
    (ho : c.perform now command = .ok o) : o.cache.Drifting := by
  by_cases single : ∀ pairs, command ≠ .insertAll pairs
  · obtain ⟨items, free, g, hd⟩ := h
    exact (hd.perform_ends now single).drifts ho
  · obtain ⟨pairs, rfl⟩ := not_forall_not.mp single
    obtain ⟨o', ho', rfl⟩ := exists_of_map_eq_ok ho
    exact h.insertAll ho'

end Requests

end Lru.Cache
