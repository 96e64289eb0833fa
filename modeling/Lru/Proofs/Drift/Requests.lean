import Lru.Proofs.Cache.Operations
import Lru.Proofs.Reference.Entries

/-! # Requests to a drifting cache

The entries that a request takes from the recency list are known when it is
asked. Their stray keys add to the drift, and the check at the end of the
request, where it has one, fails if a drift is left then.
-/

namespace Lru.Cache

variable {K V α β : Type}

section Keys

/-- The stored keys from the least to the most recent one. -/
def storedKeys (c : Cache K V) : List K :=
  c.entries.map Entry.key

/-- The keys of entries in slots. -/
def keysOf (items : List (SlotId × Entry K V)) : List K :=
  (items.map Prod.snd).map Entry.key

@[simp] theorem keysOf_nil : keysOf ([] : List (SlotId × Entry K V)) = [] := rfl

@[simp] theorem keysOf_cons (x : SlotId × Entry K V) (s : List (SlotId × Entry K V)) :
    keysOf (x :: s) = x.2.key :: keysOf s := rfl

@[simp] theorem keysOf_append (p s : List (SlotId × Entry K V)) :
    keysOf (p ++ s) = keysOf p ++ keysOf s := by
  simp [keysOf]

@[simp] theorem length_keysOf (items : List (SlotId × Entry K V)) :
    (keysOf items).length = items.length := by
  simp [keysOf]

theorem perm_to_back (key : K) (before after : List K) :
    (before ++ key :: after).Perm (before ++ (after ++ [key])) :=
  (List.perm_append_singleton key after).symm.append_left before

end Keys

variable [BEq K] {c d e : Cache K V} {items rest p s : List (SlotId × Entry K V)}
  {free vacant : List SlotId} {id : SlotId} {entry : Entry K V} {key : K} {g n : Nat}
  {now : Instant} {added removed : List K}

/-- Whether an insertion of `key` adds an entry. -/
def adds (c : Cache K V) (key : K) : Bool :=
  !Reference.stores key c.entries && c.capacity != 0

/-- The keys of the entries that a request adds. -/
def arriving (c : Cache K V) : Command K V → List K
  | .insert key _ | .getOrInsert key _ => if c.adds key then [key] else []
  | _ => []

/-- The entries that a request takes from the recency list. -/
def departing (c : Cache K V) (now : Instant) : Command K V → List (Entry K V)
  | .insert key _ | .getOrInsert key _ =>
    if c.adds key && c.isFull then c.entries.take 1 else []
  | .erase key => ((c.index.get? key).bind c.order.get?).toList
  | .eraseAt h =>
    match c.validate h with
    | .ok (some id) => (c.order.get? id).toList
    | _ => []
  | .popFront => c.entries.take 1
  | .clear => c.entries
  | .setCapacity capacity =>
    c.entries.take (evictWhile (fun c => capacity < c.len) c.order.slotCount c).result
  | .purgeExpired => c.entries.take (evictWhile (frontIsDead now) c.order.slotCount c).result
  | _ => []

/-- Whether a request comes to the check at its end. -/
def checked (c : Cache K V) : Command K V → Bool
  | .insert key _ | .getOrInsert key _ => c.adds key
  | .erase key => Reference.stores key c.entries
  | .setCapacity _ | .purgeExpired => true
  | _ => false

/-- The drift when a request has taken its entries from a cache with drift `g`. -/
def drift (c : Cache K V) (g : Nat) (now : Instant) : Command K V → Nat
  | .clear => 0
  | command => g + strays (c.departing now command)

/-- What answers tell: whether an insertion added an entry, and whether one was erased. -/
def tells (c : Cache K V) : Command K V → Answer K V → Prop
  | .insert key value, .inserted result => result.inserted = c.checked (.insert key value)
  | .erase key, .flag found => found = c.checked (.erase key)
  | _, _ => True

section Shifts

/-- From `c` to `d` the keys `added` have come and `removed` have gone, and `d` drifts by `g`. -/
structure Shifts (c d : Cache K V) (added removed : List K) (g : Nat) : Prop where
  drifts : ∃ items free, d.Drifts items free g
  keys : (c.storedKeys ++ added).Perm (d.storedKeys ++ removed)

/-- The two ways in which an operation ends: its check finds the drift `g`, or it leaves a cache
that drifts by `g`. -/
inductive Ends (c : Cache K V) (x : Except Fault (Outcome K V α)) (checked : Bool)
    (added removed : List K) (g : Nat) (answers : α → Prop) : Prop
  | fails (queued : Nat) (asked : checked = true) (drifted : g ≠ 0)
      (count : c.storedKeys.length + added.length = queued + removed.length)
      (ends : x = .error (.misaligned (queued + g) queued))
  | leaves (o : Outcome K V α) (passed : checked = false ∨ g = 0)
      (shifts : c.Shifts o.cache added removed g) (answers : answers o.result) (ends : x = .ok o)

theorem Drifts.storedKeys_eq (h : c.Drifts items free g) :
    c.storedKeys = keysOf items := by
  rw [storedKeys, h.entries_eq, keysOf]

theorem Drifts.shifts (h : c.Drifts items free g) (h' : d.Drifts rest vacant n)
    (hk : (keysOf items ++ added).Perm (keysOf rest ++ removed)) :
    c.Shifts d added removed n := by
  rw [← h.storedKeys_eq, ← h'.storedKeys_eq] at hk
  exact ⟨⟨rest, vacant, h'⟩, hk⟩

theorem Drifts.shifts_remembering (h : c.Drifts items free g) (memo : Option SlotId) :
    c.Shifts (c.remembering memo) [] [] g :=
  h.shifts (h.remembering memo) (.refl _)

theorem Shifts.trans (h : c.Shifts d [] [] n) (h' : d.Shifts e added removed g) :
    c.Shifts e added removed g := by
  obtain ⟨-, hk⟩ := h
  rw [List.append_nil, List.append_nil] at hk
  exact ⟨h'.drifts, (hk.append_right added).trans h'.keys⟩

theorem Shifts.ends {o : Outcome K V α} {answers : α → Prop}
    (h : c.Shifts o.cache added removed g) (ha : answers o.result) :
    c.Ends (.ok o) false added removed g answers :=
  .leaves o (.inl rfl) h ha rfl

theorem Drifts.ends_audited {o : Outcome K V α} {answers : α → Prop}
    (h : o.cache.Drifts items free g) (hs : c.Shifts o.cache added removed g)
    (ha : answers o.result) : c.Ends (Cache.audited o) true added removed g answers := by
  rw [h.audited]
  by_cases hg : g = 0
  · exact .leaves o (.inr hg) hs ha (if_pos hg)
  · have hcount := hs.keys.length_eq
    rw [List.length_append, List.length_append, h.storedKeys_eq, length_keysOf] at hcount
    exact .fails items.length rfl hg hcount (if_neg hg)

theorem Shifts.trans_ends {x : Except Fault (Outcome K V α)} {checked : Bool} {answers : α → Prop}
    (h : c.Shifts d [] [] n) (h' : d.Ends x checked added removed g answers) :
    c.Ends x checked added removed g answers := by
  cases h' with
  | fails queued asked drifted count ends =>
    have hlen : c.storedKeys.length = d.storedKeys.length := by simpa using h.keys.length_eq
    exact .fails queued asked drifted (hlen ▸ count) ends
  | leaves o passed shifts answers ends => exact .leaves o passed (h.trans shifts) answers ends

/-- What is answered in the end and announced on the way does not matter. -/
theorem Ends.map {x : Except Fault (Outcome K V α)} {checked : Bool} {answers : α → Prop}
    {answers' : β → Prop} (h : c.Ends x checked added removed g answers)
    {f : Outcome K V α → Outcome K V β} (hf : ∀ o, (f o).cache = o.cache)
    (ha : ∀ o, answers o.result → answers' (f o).result) :
    c.Ends (f <$> x) checked added removed g answers' := by
  cases h with
  | fails queued asked drifted count ends =>
    rw [ends]
    exact .fails queued asked drifted count rfl
  | leaves o passed shifts answers ends =>
    rw [ends]
    exact .leaves (f o) passed (hf o ▸ shifts) (ha o answers) rfl

end Shifts

theorem Drifts.stores_iff (h : c.Drifts items free g) :
    Reference.stores key c.entries = false ↔ Absent key items := by
  rw [h.entries_eq, absent_iff]
  simp [Reference.stores]

variable [PartialEquivBEq K]

section Access

theorem Drifts.resolve (h : c.Drifts items free g) (now : Instant) (key : K) :
    ∃ memo, (c.resolve now key).cache = c.remembering memo ∧
      ∀ id, (c.resolve now key).result = some id →
        ∃ p entry s, items = p ++ (id, entry) :: s ∧ (key == entry.key) = true := by
  rcases absent_or key items with ha | ⟨p, id, entry, s, rfl, hk⟩
  · have hslot : c.slotOf key = none := by rw [h.slotOf_eq, h.get?_index_of_absent ha]
    refine ⟨c.lastAccessed, ?_, ?_⟩ <;> simp [Cache.resolve, hslot, Cache.remembering]
  · have hslot : c.slotOf key = some id := by rw [h.slotOf_eq, h.get?_index hk]
    cases hl : c.policy.isLive now entry.stamp with
    | true =>
      refine ⟨some id, ?_, ?_⟩
      · simp [Cache.resolve, hslot, h.get?_order, hl, Cache.remembering]
      · intro id' hid
        obtain rfl : id = id' := by simpa [Cache.resolve, hslot, h.get?_order, hl] using hid
        exact ⟨p, entry, s, rfl, hk⟩
    | false =>
      refine ⟨c.lastAccessed.filter (· != id), ?_, ?_⟩
      · simp [Cache.resolve, hslot, h.get?_order, hl, forget_eq]
      · simp [Cache.resolve, hslot, h.get?_order, hl]

theorem Drifts.shifts_resolve (h : c.Drifts items free g) (now : Instant) (key : K) :
    c.Shifts (c.resolve now key).cache [] [] g := by
  obtain ⟨memo, hcache, -⟩ := h.resolve now key
  rw [hcache]
  exact h.shifts_remembering memo

omit [PartialEquivBEq K] in
theorem Drifts.shifts_promote (h : c.Drifts (p ++ (id, entry) :: s) free g) (now : Instant) :
    c.Shifts (c.promote now id) [] [] g := by
  refine h.shifts (h.promote now) ?_
  simpa using perm_to_back entry.key _ _

omit [PartialEquivBEq K] in
theorem Drifts.shifts_promoteOnAccess (h : c.Drifts (p ++ (id, entry) :: s) free g)
    (now : Instant) : c.Shifts (c.promoteOnAccess now id) [] [] g := by
  rw [promoteOnAccess]
  split
  · exact h.shifts h (.refl _)
  · exact h.shifts_promote now

omit [PartialEquivBEq K] in
theorem Drifts.shifts_write (h : c.Drifts items free g) (hg : c.order.get? id = some entry)
    (f : V → V) : c.Shifts
      { c with order := c.order.modify id fun e => { e with value := f e.value } } [] [] g := by
  obtain ⟨p, s, rfl⟩ := List.append_of_mem (h.order.get?_eq_some_iff.mp hg)
  refine h.shifts (h.write f) ?_
  simp

theorem Drifts.shifts_lookup (h : c.Drifts items free g) (now : Instant) (key : K) :
    c.Shifts (c.lookup now key).cache [] [] g := by
  have hcache : (c.lookup now key).cache = (c.resolve now key).cache := by
    simp only [Cache.lookup]
    split <;> rfl
  rw [hcache]
  exact h.shifts_resolve now key

theorem Drifts.shifts_touch (h : c.Drifts items free g) (now : Instant) (key : K) :
    c.Shifts (c.touch now key).cache [] [] g := by
  obtain ⟨memo, hcache, hfound⟩ := h.resolve now key
  simp only [Cache.touch]
  split
  · next id hid =>
    obtain ⟨p, entry, s, rfl, -⟩ := hfound id hid
    rw [hcache]
    exact (h.shifts_remembering memo).trans ((h.remembering memo).shifts_promote now)
  · exact h.shifts_resolve now key

theorem Drifts.shifts_lookupMut (h : c.Drifts items free g) (now : Instant) (key : K)
    (update : V → V) : c.Shifts (c.lookupMut now key update).cache [] [] g := by
  obtain ⟨memo, hcache, hfound⟩ := h.resolve now key
  simp only [Cache.lookupMut]
  split
  · exact h.shifts_resolve now key
  · next id hid =>
    obtain ⟨p, entry, s, rfl, -⟩ := hfound id hid
    rw [hcache]
    have hp := (h.shifts_remembering memo).trans
      ((h.remembering memo).shifts_promoteOnAccess now)
    split
    · exact hp
    · next hg =>
      obtain ⟨items, free, hd⟩ := hp.drifts
      exact hp.trans (hd.shifts_write hg update)

theorem Drifts.shifts_walk (h : c.Drifts items free g) (now : Instant) (start : Cursor.Start K)
    (moves : List Cursor.Move) : c.Shifts (c.walk now start moves).cache [] [] g := by
  cases start with
  | find key => exact h.shifts_resolve now key
  | _ => exact h.shifts h (.refl _)

end Access

section Insert

omit [PartialEquivBEq K] in
theorem Drifts.adds_of_mem (h : c.Drifts (p ++ (id, entry) :: s) free g)
    (hk : key == entry.key) : c.adds key = false := by
  have hs : Reference.stores key c.entries = true := by
    rw [h.entries_eq]
    simp [Reference.stores, hk]
  rw [adds, hs]
  rfl

omit [PartialEquivBEq K] in
theorem Drifts.adds_of_absent (h : c.Drifts items free g) (ha : Absent key items) :
    c.adds key = (c.capacity != 0) := by
  rw [adds, h.stores_iff.mpr ha]
  rfl

theorem Drifts.append_ends (h : c.Drifts items free g) (ha : Absent key items)
    (hl : items.length < c.capacity) (now : Instant) (value : V) :
    c.Ends (Cache.audited (c.append now key value)) true [key] [] g fun result =>
      result.inserted = true := by
  have happend := h.append ha hl now value
  exact happend.ends_audited (h.shifts happend (by simp)) rfl

theorem Drifts.displace_ends (h : c.Drifts items free g) (ha : Absent key items)
    (hc : c.capacity ≠ 0) (now : Instant) (value : V) :
    c.Ends (Cache.audited ((c.evictFront.cache.append now key value).after c.evictFront.notices))
      true [key] ((c.entries.take 1).map Entry.key) (g + strays (c.entries.take 1)) fun result =>
        result.inserted = true := by
  rw [h.entries_eq]
  cases items with
  | nil =>
    rw [evictFront_nil h.order]
    exact h.append_ends ha (Nat.pos_of_ne_zero hc) now value
  | cons x s =>
    obtain ⟨id, entry⟩ := x
    have hdrop : (c.drop id entry.key).Drifts s (id :: free) (g + strays [entry]) :=
      h.drop (p := [])
    have hroom : s.length < (c.drop id entry.key).capacity := by
      have := h.le_capacity
      simpa [drop_eq, Nat.succ_le_iff] using this
    have happend := hdrop.append (List.forall_mem_cons.mp ha).2 hroom now value
    rw [evictFront_cons h.order]
    refine happend.ends_audited (o := ((c.drop id entry.key).append now key value).after
      [.trace (.evicted s.length c.capacity)]) (h.shifts happend ?_) rfl
    simpa using perm_to_back entry.key [] (keysOf s ++ [key])

/-- An insertion adds an entry unless the key is stored or there is no capacity, and then evicts the
front if the index is full. -/
theorem Drifts.insert_ends (h : c.Drifts items free g) (now : Instant) (key : K) (value : V) :
    c.Ends (c.insert now key value) (c.adds key) (c.arriving (.insert key value))
      ((c.departing now (.insert key value)).map Entry.key)
      (c.drift g now (.insert key value)) fun result => result.inserted = c.adds key := by
  simp only [arriving, drift, departing]
  rcases absent_or key items with ha | ⟨p, id, entry, s, rfl, hk⟩
  · have hindex := h.get?_index_of_absent ha
    by_cases hc : c.capacity = 0
    · have hadds : c.adds key = false := by simp [h.adds_of_absent ha, hc]
      simp only [hadds, Cache.insert, hindex, hc, if_true]
      exact (h.shifts h (.refl _)).ends rfl
    have hadds : c.adds key = true := by simp [h.adds_of_absent ha, hc]
    cases hfull : c.isFull with
    | false =>
      have hroom : items.length < c.capacity := by
        have hsize := h.size
        have hlen : ¬ c.capacity ≤ c.index.size := of_decide_eq_false hfull
        omega
      simp only [hadds, Cache.insert, hindex, hc, hfull, if_false]
      exact h.append_ends ha hroom now value
    | true =>
      simp only [hadds, Cache.insert, hindex, hc, hfull, if_false, if_true, Bool.and_self]
      exact h.displace_ends ha hc now value
  · simp only [h.adds_of_mem hk, Cache.insert, h.get?_index hk]
    refine (h.shifts (h.replace now value) ?_).ends rfl
    simpa using perm_to_back entry.key _ _

omit [PartialEquivBEq K] in
theorem Drifts.get?_promoteOnAccess (h : c.Drifts (p ++ (id, entry) :: s) free g)
    (now : Instant) : ((c.promoteOnAccess now id).order.get? id).isSome = true := by
  rw [promoteOnAccess]
  split
  · rw [h.get?_order]
    rfl
  · rw [(h.promote now).get?_order]
    rfl

theorem Drifts.getOrInsert_ends (h : c.Drifts items free g) (now : Instant) (key : K)
    (make : K → V) : c.Ends (c.getOrInsert now key make) (c.adds key)
      (c.arriving (.getOrInsert key make)) ((c.departing now (.getOrInsert key make)).map Entry.key)
      (c.drift g now (.getOrInsert key make)) fun _ => True := by
  obtain ⟨memo, hcache, hfound⟩ := h.resolve now key
  cases hr : (c.resolve now key).result with
  | none =>
    have hinsert := (h.shifts_remembering memo).trans_ends
      ((h.remembering memo).insert_ends now key (make key))
    simp only [Cache.getOrInsert, hr, Option.bind_none, hcache, bind_pure_comp]
    exact hinsert.map (fun _ => rfl) fun _ _ => trivial
  | some id =>
    obtain ⟨p, entry, s, rfl, hk⟩ := hfound id hr
    have hm := h.remembering memo
    have hp := (h.shifts_remembering memo).trans (hm.shifts_promoteOnAccess now)
    obtain ⟨found, hget⟩ := Option.isSome_iff_exists.mp (hm.get?_promoteOnAccess now)
    simp only [Cache.getOrInsert, hr, hcache, Option.bind_some, hget, arriving, drift, departing,
      h.adds_of_mem hk]
    exact hp.ends trivial

end Insert

section Remove

theorem Drifts.shifts_drop (h : c.Drifts (p ++ (id, entry) :: s) free g) :
    c.Shifts (c.drop id entry.key).bump [] [entry.key] (g + strays [entry]) := by
  have hd : (c.drop id entry.key).bump.Drifts (p ++ s) (id :: free) (g + strays [entry]) :=
    h.drop.congr rfl rfl rfl
  refine h.shifts hd ?_
  simpa using perm_to_back entry.key _ _

/-- An erased key was found, and so it is not stray. -/
theorem Drifts.erase_ends (h : c.Drifts items free g) (now : Instant) (key : K) :
    c.Ends (c.erase key) (c.checked (.erase key)) [] ((c.departing now (.erase key)).map Entry.key)
      (c.drift g now (.erase key)) fun found => found = c.checked (.erase key) := by
  simp only [checked, drift, departing]
  rcases absent_or key items with ha | ⟨p, id, entry, s, rfl, hk⟩
  · simp only [h.stores_iff.mpr ha, Cache.erase, h.get?_index_of_absent ha]
    exact (h.shifts h (.refl _)).ends rfl
  · have hshifts := h.shifts_drop
    obtain ⟨items', free', hd⟩ := hshifts.drifts
    have hs : Reference.stores key c.entries = true := by
      rw [h.entries_eq]
      simp [Reference.stores, hk]
    have hr : c.order.remove? id = some (entry, c.order.without id) :=
      RecencyList.remove?_eq_some h.get?_order
    have hi : c.index.erase key = c.index.erase entry.key := by
      simp only [KeyMap.erase, BEq.congr_left hk]
    have herase : c.erase key =
        Cache.audited { result := true, cache := (c.drop id entry.key).bump } := by
      simp only [Cache.erase, h.get?_index hk, forget_eq, Cache.remembering, hr, hi, drop_eq]
    rw [herase, hs, h.get?_index hk, Option.bind_some, h.get?_order]
    exact hd.ends_audited (o := ⟨true, _, []⟩) hshifts rfl

theorem Drifts.shifts_popFront (h : c.Drifts items free g) (now : Instant) :
    c.Shifts c.popFront.cache [] ((c.departing now .popFront).map Entry.key)
      (c.drift g now .popFront) := by
  simp only [drift, departing, h.entries_eq]
  cases items with
  | nil =>
    rw [popFront_nil h.order]
    exact h.shifts h (.refl _)
  | cons x s =>
    obtain ⟨id, entry⟩ := x
    rw [popFront_cons h.order]
    exact h.shifts_drop (p := [])

theorem Drifts.shifts_eraseAt (h : c.Drifts items free g) (now : Instant) (handle : Handle) :
    c.Shifts (c.eraseAt handle).cache [] ((c.departing now (.eraseAt handle)).map Entry.key)
      (c.drift g now (.eraseAt handle)) := by
  simp only [drift, departing]
  cases hv : c.validate handle with
  | error e =>
    rw [eraseAt_of_error hv]
    exact h.shifts h (.refl _)
  | ok slot =>
    cases slot with
    | none =>
      rw [eraseAt_of_none hv]
      exact h.shifts h (.refl _)
    | some id =>
      by_cases hid : id ∈ items.map Prod.fst
      · obtain ⟨⟨_, entry⟩, hm, rfl⟩ := List.mem_map.mp hid
        obtain ⟨p, s, rfl⟩ := List.append_of_mem hm
        simp only [eraseAt_of_mem h.order hv, h.get?_order]
        exact h.shifts_drop
      · simp only [eraseAt_of_vacant h.order hv hid, h.order.get?_eq_none_iff.mpr hid]
        exact h.shifts h (.refl _)

omit [PartialEquivBEq K] in
theorem Drifts.shifts_clear (h : c.Drifts items free g) :
    c.Shifts c.clear [] (c.entries.map Entry.key) 0 := by
  have hd : c.clear.Drifts [] [] 0 :=
    ⟨RecencyList.holds_empty, .nil, .nil, rfl, Nat.zero_le _⟩
  refine h.shifts hd ?_
  rw [h.entries_eq, List.append_nil]
  exact .refl _

end Remove

section Shrink

theorem Drifts.evicted (h : c.Drifts items free g) (k : Nat) :
    (c.dropAll (items.take k)).Drifts (items.drop k)
      (((items.take k).map Prod.fst).reverse ++ free) (g + strays (c.entries.take k)) := by
  rw [h.entries_eq, ← List.map_take]
  rw [← List.take_append_drop k items] at h
  exact h.dropAll

omit [PartialEquivBEq K] in
theorem Drifts.evicted_keys (h : c.Drifts items free g) (k : Nat) :
    (keysOf items ++ []).Perm (keysOf (items.drop k) ++ (c.entries.take k).map Entry.key) := by
  rw [List.append_nil, h.entries_eq, ← List.map_take]
  conv_lhs => rw [← List.take_append_drop k items, keysOf_append]
  exact List.perm_append_comm

/-- What an index with stray keys is too large for, an empty recency list fits into. -/
theorem Drifts.fits_of_evicting (h : c.Drifts items free g) (capacity : Nat) :
    (items.drop (evicting (fun c => decide (capacity < c.len)) c items)).length ≤ capacity := by
  rcases Nat.lt_or_eq_of_le (evicting_le (fun c => decide (capacity < c.len)) c items) with hl | he
  · have hdue := of_decide_eq_false (not_due_of_evicting hl)
    have hsize := (h.evicted (evicting (fun c => decide (capacity < c.len)) c items)).size
    rw [len, hsize] at hdue
    omega
  · rw [he, List.drop_length]
    exact Nat.zero_le capacity

theorem Drifts.setCapacity_ends (h : c.Drifts items free g) (now : Instant) (capacity : Nat) :
    c.Ends (c.setCapacity capacity) true []
      ((c.departing now (.setCapacity capacity)).map Entry.key)
      (c.drift g now (.setCapacity capacity)) fun _ => True := by
  have hd := h.evicted (evicting (fun c => decide (capacity < c.len)) c items)
  have hkeys := h.evicted_keys (evicting (fun c => decide (capacity < c.len)) c items)
  have hfits := h.fits_of_evicting capacity
  simp only [Cache.setCapacity, drift, departing, evictWhile_slotCount h.order]
  generalize evicting (fun c => decide (capacity < c.len)) c items = k at hd hkeys hfits ⊢
  have hresized : ({ c.dropAll (items.take k) with capacity } : Cache K V).Drifts (items.drop k)
      (((items.take k).map Prod.fst).reverse ++ free) (g + strays (c.entries.take k)) :=
    ⟨hd.order, hd.index, hd.distinct, hd.size, hfits⟩
  split
  · exact hresized.ends_audited (h.shifts hresized hkeys) trivial
  · have hpacked :
        ({ c.dropAll (items.take k) with capacity } : Cache K V).compact.cache.bump.Drifts
          (RecencyList.packed 0 ((items.drop k).map Prod.snd)) [] (g + strays (c.entries.take k)) :=
      hresized.compact.congr rfl rfl rfl
    refine hpacked.ends_audited (h.shifts hpacked ?_) trivial
    rwa [keysOf, keysOf, RecencyList.map_snd_packed]

theorem Drifts.purgeExpired_ends (h : c.Drifts items free g) (now : Instant) :
    c.Ends (c.purgeExpired now) true [] ((c.departing now .purgeExpired).map Entry.key)
      (c.drift g now .purgeExpired) fun _ => True := by
  have hd := h.evicted (evicting (frontIsDead now) c items)
  have hkeys := h.evicted_keys (evicting (frontIsDead now) c items)
  simp only [Cache.purgeExpired, drift, departing, evictWhile_slotCount h.order]
  split
  · exact hd.ends_audited (h.shifts hd hkeys) trivial
  · have hbumped := hd.congr (d := Cache.bump _) rfl rfl rfl
    exact hbumped.ends_audited (h.shifts hbumped hkeys) trivial

end Shrink

/-- Every request that is not made of others shifts the keys or fails at its check. -/
theorem Drifts.perform_ends (h : c.Drifts items free g) (now : Instant) {command : Command K V}
    (single : ∀ pairs, command ≠ .insertAll pairs) :
    c.Ends (c.perform now command) (c.checked command) (c.arriving command)
      ((c.departing now command).map Entry.key) (c.drift g now command) (c.tells command) := by
  cases command with
  | insert key value => exact (h.insert_ends now key value).map (fun _ => rfl) fun _ ha => ha
  | insertAll pairs => exact absurd rfl (single pairs)
  | getOrInsert key make =>
    exact (h.getOrInsert_ends now key make).map (fun _ => rfl) fun _ _ => trivial
  | erase key => exact (h.erase_ends now key).map (fun _ => rfl) fun _ ha => ha
  | setCapacity capacity =>
    exact (h.setCapacity_ends now capacity).map (fun _ => rfl) fun _ _ => trivial
  | purgeExpired => exact (h.purgeExpired_ends now).map (fun _ => rfl) fun _ _ => trivial
  | eraseAt handle => exact Shifts.ends (h.shifts_eraseAt now handle) trivial
  | popFront => exact Shifts.ends (h.shifts_popFront now) trivial
  | clear => exact Shifts.ends h.shifts_clear trivial
  | lookup key => exact Shifts.ends (h.shifts_lookup now key) trivial
  | lookupMut key update => exact Shifts.ends (h.shifts_lookupMut now key update) trivial
  | contains key => exact Shifts.ends (h.shifts_resolve now key) trivial
  | touch key => exact Shifts.ends (h.shifts_touch now key) trivial
  | cursor start moves => exact Shifts.ends (h.shifts_walk now start moves) trivial
  | _ => exact Shifts.ends (h.shifts h (.refl _)) trivial

end Lru.Cache
