import Lru.Proofs.Reference.Updates

/-! # Accesses refine the reference

An access meets a live entry of its key or misses. In the first case the index,
the recency list and the reference name the same entry; in the second the
reference finds none and only the last accessed slot may be forgotten.
-/

namespace Lru.Cache

variable {K V α : Type} [BEq K] {c : Cache K V} {items p s : List (SlotId × Entry K V)}
  {free : List SlotId} {id : SlotId} {entry : Entry K V} {key : K} {now : Instant}

/-- The two ways in which looking for a live entry ends. -/
inductive Resolution (c : Cache K V) (items : List (SlotId × Entry K V)) (now : Instant)
    (key : K) : Prop
  | miss (memo : Option SlotId)
      (resolved : c.resolve now key = { result := none, cache := c.remembering memo,
                                        notices := c.reference.deadNotices now key })
      (remembers : c.Remembers → (c.remembering memo).Remembers)
      (dead : c.reference.liveEntry now key = none)
  | hit (p : List (SlotId × Entry K V)) (id : SlotId) (entry : Entry K V)
      (s : List (SlotId × Entry K V)) (split : items = p ++ (id, entry) :: s)
      (same : key == entry.key)
      (resolved : c.resolve now key =
        { result := some id, cache := c.remembering (some id) })
      (live : c.reference.liveEntry now key = some entry)
      (silent : c.reference.deadNotices now key = [])

theorem Holds.resolution [PartialEquivBEq K] (h : c.Holds items free) (now : Instant) (key : K) :
    c.Resolution items now key := by
  have hpol : c.reference.policy = c.policy := rfl
  rcases absent_or key items with ha | ⟨p, id, entry, s, rfl, hk⟩
  · have hent := h.entryOf_of_absent ha
    refine .miss c.lastAccessed ?_ (fun hr => hr) (by simp [Reference.liveEntry, hent])
    rw [h.resolve_of_absent ha, Reference.deadNotices, hent]
    rfl
  · have hent := h.entryOf_of_mem hk
    cases hl : c.policy.isLive now entry.stamp with
    | false =>
      refine .miss (c.lastAccessed.filter (· != id)) ?_ ?_
        (by simp [Reference.liveEntry, hent, hpol, hl, Option.filter])
      · rw [h.resolve_of_dead hk hl, forget_eq, Reference.deadNotices, hent]
        simp [hpol, hl]
      · intro hr
        have hf : (c.forget id).Remembers := hr.forget
        rwa [forget_eq] at hf
    | true =>
      exact .hit p id entry s rfl hk (h.resolve_of_live hk hl)
        (by simp [Reference.liveEntry, hent, hpol, hl, Option.filter])
        (by simp [Reference.deadNotices, hent, hpol, hl])

theorem Holds.remembers_of_mem (h : c.Holds items free) (hid : id ∈ items.map Prod.fst)
    (hm : c.lastAccessed = some id) : c.Remembers := by
  rw [h.remembers_iff]
  intro i hi
  rw [hm] at hi
  obtain rfl : id = i := Option.some.inj hi
  exact hid

/-- Promoting on access moves the entry or not; its slot, key and value stay. -/
theorem Holds.promoteOnAccess (h : c.Holds (p ++ (id, entry) :: s) free) (now : Instant) :
    ∃ p' entry' s', (c.promoteOnAccess now id).Holds (p' ++ (id, entry') :: s') free ∧
      entry'.key = entry.key ∧ entry'.value = entry.value := by
  cases hm : c.mode with
  | onInsert =>
    rw [Cache.promoteOnAccess, hm]
    exact ⟨p, entry, s, h, rfl, rfl⟩
  | onAccess =>
    rw [Cache.promoteOnAccess, hm]
    exact ⟨p ++ s, { entry with stamp := now }, [], h.promote now, rfl, rfl⟩

omit [BEq K] in
theorem promoteOnAccess_lastAccessed (c : Cache K V) (now : Instant) (id : SlotId) :
    (c.promoteOnAccess now id).lastAccessed = c.lastAccessed := by
  cases hm : c.mode <;> simp [Cache.promoteOnAccess, hm, promote, bump]

variable [EquivBEq K]

theorem Holds.contains_simulates (h : c.Holds items free) (now : Instant) (key : K) :
    Simulates c (c.contains now key) (c.reference.contains now key) fun _ a b => a = b := by
  cases h.resolution now key with
  | miss memo resolved remembers dead =>
    rw [Cache.contains, resolved, Reference.contains, dead]
    exact ⟨⟨_, _, h.remembering memo⟩, remembers, rfl, rfl, rfl⟩
  | hit p id entry s split same resolved live silent =>
    subst split
    rw [Cache.contains, resolved, Reference.contains, live, silent]
    have hd := h.remembering (some id)
    exact ⟨⟨_, _, hd⟩, fun _ => hd.remembers_of_mem (by simp) rfl, rfl, rfl, rfl⟩

theorem Holds.find_simulates (h : c.Holds items free) (now : Instant) (key : K) :
    Simulates c (c.find now key) (c.reference.find now key) fun d x place =>
      ∃ slot, x = d.cursor .unordered slot ∧ d.place slot = place := by
  cases h.resolution now key with
  | miss memo resolved remembers dead =>
    rw [Cache.find, resolved, Reference.find, dead]
    exact ⟨⟨_, _, h.remembering memo⟩, remembers, rfl, rfl, none, rfl, rfl⟩
  | hit p id entry s split same resolved live silent =>
    subst split
    rw [Cache.find, resolved, Reference.find, live, silent, h.findIdx?_of_mem same]
    have hd := h.remembering (some id)
    exact ⟨⟨_, _, hd⟩, fun _ => hd.remembers_of_mem (by simp) rfl, rfl, rfl, some id, rfl,
      hd.place_of_mem⟩

theorem Holds.lookup_simulates (h : c.Holds items free) (now : Instant) (key : K) :
    Simulates c (c.lookup now key) (c.reference.lookup now key) fun _ a b => a = b := by
  cases h.resolution now key with
  | miss memo resolved remembers dead =>
    rw [Cache.lookup, resolved, Reference.lookup, dead]
    exact ⟨⟨_, _, h.remembering memo⟩, remembers, rfl, rfl, rfl⟩
  | hit p id entry s split same resolved live silent =>
    subst split
    have hd := h.remembering (some id)
    have hl : c.lookup now key = { result := .ok entry.value
                                   cache := c.remembering (some id)
                                   notices := [.hit key entry.value] } := by
      simp [Cache.lookup, resolved, h.get?_order]
    rw [hl, Reference.lookup, live]
    exact ⟨⟨_, _, hd⟩, fun _ => hd.remembers_of_mem (by simp) rfl, rfl, rfl, rfl⟩

theorem Holds.touch_simulates (h : c.Holds items free) (now : Instant) (key : K) :
    Simulates c (c.touch now key) (c.reference.touch now key) fun _ a b => a = b := by
  cases h.resolution now key with
  | miss memo resolved remembers dead =>
    rw [Cache.touch, resolved, Reference.touch, dead]
    exact ⟨⟨_, _, h.remembering memo⟩, remembers, rfl, rfl, rfl⟩
  | hit p id entry s split same resolved live silent =>
    subst split
    rw [Cache.touch, resolved, Reference.touch, live]
    have hd := (h.remembering (some id)).promote now
    exact ⟨⟨_, _, hd⟩, fun _ => hd.remembers_of_mem (by simp) rfl,
      (h.remembering (some id)).reference_promote same now, rfl, rfl⟩

theorem Holds.reference_promoteOnAccess (h : c.Holds (p ++ (id, entry) :: s) free)
    (hk : key == entry.key) (now : Instant) :
    (c.promoteOnAccess now id).reference = c.reference.promoteOnAccess now key entry := by
  have hmode : c.reference.mode = c.mode := rfl
  cases hm : c.mode with
  | onInsert => simp [Cache.promoteOnAccess, Reference.promoteOnAccess, hmode, hm]
  | onAccess =>
    simp [Cache.promoteOnAccess, Reference.promoteOnAccess, hmode, hm, h.reference_promote hk now]

theorem Holds.reference_write (h : c.Holds (p ++ (id, entry) :: s) free) (hk : key == entry.key)
    (update : V → V) :
    ({ c with order := c.order.modify id fun e => { e with value := update e.value } } :
      Cache K V).reference = c.reference.write key update := by
  have ha := absent_iff.mp (h.absent_middle hk)
  have hsame : ∀ q : List (SlotId × Entry K V), (∀ x ∈ q, (key == x.2.key) = false) →
      (q.map Prod.snd).map (fun e => if key == e.key then { e with value := update e.value } else e) =
        q.map Prod.snd := by
    intro q hq
    rw [List.map_map]
    exact List.map_congr_left fun x hx => by simp [hq x hx]
  rw [(h.write update).reference_eq, Reference.write, h.reference_eq]
  simp only [List.map_append, List.map_cons, hk, if_true]
  rw [hsame p fun x hx => ha x (List.mem_append_left _ hx),
    hsame s fun x hx => ha x (List.mem_append_right _ hx)]

theorem Holds.lookupMut_simulates (h : c.Holds items free) (now : Instant) (key : K)
    (update : V → V) :
    Simulates c (c.lookupMut now key update) (c.reference.lookupMut now key update)
      fun _ a b => a = b := by
  cases h.resolution now key with
  | miss memo resolved remembers dead =>
    rw [Cache.lookupMut, resolved, Reference.lookupMut, dead]
    exact ⟨⟨_, _, h.remembering memo⟩, remembers, rfl, rfl, rfl⟩
  | hit p id entry s split same resolved live silent =>
    subst split
    obtain ⟨p', entry', s', hd, hkey, hvalue⟩ := (h.remembering (some id)).promoteOnAccess now
    have same' : key == entry'.key := hkey ▸ same
    have hl : c.lookupMut now key update =
        { result := .ok entry.value
          cache := { (c.remembering (some id)).promoteOnAccess now id with
            order := ((c.remembering (some id)).promoteOnAccess now
              id).order.modify id fun e => { e with value := update e.value } }
          notices := [.hit key entry.value] } := by
      simp [Cache.lookupMut, resolved, hd.get?_order, hvalue]
    rw [hl, Reference.lookupMut, live]
    have hw := hd.write update
    have hm := promoteOnAccess_lastAccessed (c.remembering (some id)) now id
    refine ⟨⟨_, _, hw⟩, fun _ => hw.remembers_of_mem (by simp) hm, ?_, rfl, rfl⟩
    · rw [hd.reference_write same']
      exact congrArg (fun r => Reference.write r key update)
        ((h.remembering (some id)).reference_promoteOnAccess same now)

theorem Holds.getOrInsert_simulates (h : c.Holds items free) (now : Instant) (key : K)
    (make : K → V) :
    ∃ o, c.getOrInsert now key make = .ok o ∧
      Simulates c o (c.reference.getOrInsert now key make) fun _ a b => a = b := by
  cases h.resolution now key with
  | miss memo resolved remembers dead =>
    obtain ⟨o, ho, hs⟩ := (h.remembering memo).insert_simulates now key (make key)
    refine ⟨(o.map fun _ => make key).after (c.reference.deadNotices now key ++
      [.miss key, .made key]), ?_, ?_⟩
    · simp only [Cache.getOrInsert, resolved, Option.bind_none, ho]
      rfl
    · rw [Reference.getOrInsert, dead]
      exact ⟨hs.coherent, fun hr => hs.remembers (remembers hr), hs.reference,
        congrArg _ hs.notices, rfl⟩
  | hit p id entry s split same resolved live silent =>
    subst split
    obtain ⟨p', entry', s', hd, -, hvalue⟩ := (h.remembering (some id)).promoteOnAccess now
    refine ⟨{ result := entry.value
              cache := (c.remembering (some id)).promoteOnAccess now id
              notices := [.hit key entry.value] }, ?_, ?_⟩
    · simp [Cache.getOrInsert, resolved, hd.get?_order, hvalue]
    · rw [Reference.getOrInsert, live]
      have hm := promoteOnAccess_lastAccessed (c.remembering (some id)) now id
      exact ⟨⟨_, _, hd⟩, fun _ => hd.remembers_of_mem (by simp) hm,
        (h.remembering (some id)).reference_promoteOnAccess same now, rfl, rfl⟩

end Lru.Cache
