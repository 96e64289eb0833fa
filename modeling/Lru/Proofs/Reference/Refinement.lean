import Lru.Proofs.Reference.Accesses

/-! # Caches refine the reference

A request that the reference understands gets the same answer from a cache and
from the reference in it, up to slots and places; the other requests change
nothing. So a cache and its reference stay in step over every run.
-/

namespace Lru.Cache

variable {K V α : Type} [BEq K] {c : Cache K V} {items p s : List (SlotId × Entry K V)}
  {free : List SlotId} {id : SlotId} {entry : Entry K V} {key : K} {now : Instant}

section Reads

theorem Holds.front_eq (h : c.Holds items free) :
    c.front = Reference.entryOr "front" c.reference.entries.head? := by
  rw [h.reference_eq]
  cases items with
  | nil => simp [front, RecencyList.front?, h.order.head, Reference.entryOr]
  | cons x s =>
    obtain ⟨id, entry⟩ := x
    simp [front, RecencyList.front?, h.order.head, h.get?_order (p := []), Reference.entryOr]

theorem Holds.back_eq (h : c.Holds items free) :
    c.back = Reference.entryOr "back" c.reference.entries.getLast? := by
  rw [h.reference_eq]
  rcases List.eq_nil_or_concat items with rfl | ⟨p, ⟨id, entry⟩, rfl⟩
  · simp [back, RecencyList.back?, h.order.tail, Reference.entryOr]
  · rw [List.concat_eq_append] at h ⊢
    simp [back, RecencyList.back?, h.order.tail, h.get?_order, Reference.entryOr]

theorem Holds.allExpired_eq (h : c.Holds items free) (now : Instant) :
    c.allExpired now = c.reference.allExpired now := by
  rw [Reference.allExpired, h.reference_eq]
  rcases List.eq_nil_or_concat items with rfl | ⟨p, ⟨id, entry⟩, rfl⟩
  · simp [allExpired, h.order.tail]
  · rw [List.concat_eq_append] at h ⊢
    simp [allExpired, h.order.tail, isLiveAt, h.get?_order]

variable [PartialEquivBEq K]

theorem Holds.isExpired_eq (h : c.Holds items free) (now : Instant) (key : K) :
    c.isExpired now key = c.reference.isExpired now key := by
  rcases absent_or key items with ha | ⟨p, id, entry, s, rfl, hk⟩
  · rw [isExpired, h.slotOf_of_absent ha, Reference.isExpired, h.entryOf_of_absent ha]
  · rw [isExpired, h.slotOf_of_mem hk, Reference.isExpired, h.entryOf_of_mem hk]
    simp [isLiveAt, h.get?_order, reference]

theorem Holds.remainingTtl_eq (h : c.Holds items free) (now : Instant) (key : K) :
    c.remainingTtl now key = c.reference.remainingTtl now key := by
  rcases absent_or key items with ha | ⟨p, id, entry, s, rfl, hk⟩
  · rw [remainingTtl, h.slotOf_of_absent ha, Reference.remainingTtl, h.entryOf_of_absent ha]
    rfl
  · rw [remainingTtl, h.slotOf_of_mem hk, Reference.remainingTtl, h.entryOf_of_mem hk]
    simp [h.get?_order, reference]

end Reads

section Requests

/-- A request in the words of the reference, where handles become places. -/
def request? (c : Cache K V) : Command K V → Option (Reference.Request K V)
  | .insert key value => some (.insert key value)
  | .insertAll pairs => some (.insertAll pairs)
  | .getOrInsert key make => some (.getOrInsert key make)
  | .lookup key => some (.lookup key)
  | .lookupMut key update => some (.lookupMut key update)
  | .contains key => some (.contains key)
  | .touch key => some (.touch key)
  | .erase key => some (.erase key)
  | .eraseAt h => some (.eraseAt (c.address h))
  | .popFront => some .popFront
  | .clear => some .clear
  | .setCapacity capacity => some (.setCapacity capacity)
  | .purgeExpired => some .purgeExpired
  | .front => some .front
  | .back => some .back
  | .isExpired key => some (.isExpired key)
  | .remainingTtl key => some (.remainingTtl key)
  | .allExpired => some .allExpired
  | .cursor (.find key) _ => some (.find key)
  | .cursor _ _ | .traverse _ | .checkInvariants => none

/-- An answer in the words of the reference. -/
def reply? (d : Cache K V) : Answer K V → Option (Reference.Reply K V)
  | .done => some .done
  | .flag b => some (.flag b)
  | .count n => some (.count n)
  | .inserted r => some (.inserted r.inserted (d.address r.handle))
  | .value v => some (.value v)
  | .valueOr result => some (.valueOr result)
  | .entryOr result => some (.entryOr result)
  | .popped result => some (.popped result)
  | .flagOr result => some (.flagOr result)
  | .spanOr result => some (.spanOr result)
  | .audit _ | .walked _ | .traversed _ => none

/-- The answer of a request that leaves the cache `d` is what the reference replies. The steps of
a cursor that looks for a key start at the place where the reference finds it. -/
def Answers (command : Command K V) (d : Cache K V) (answer : Answer K V)
    (reply : Reference.Reply K V) : Prop :=
  match command with
  | .cursor _ moves => ∃ slot, reply = .found (d.place slot) ∧
      answer = .walked (.ok (d.walkCursor (d.cursor .unordered slot) moves))
  | _ => d.reply? answer = some reply

/-- A request that the reference does not understand leaves the cache alone. -/
theorem perform_of_request?_eq_none {command : Command K V} (hr : c.request? command = none)
    (now : Instant) : ∃ answer, c.perform now command = .ok (c.keeping answer) := by
  cases command with
  | cursor start moves =>
    cases start with
    | find key => cases hr
    | _ => exact ⟨_, rfl⟩
  | checkInvariants => exact ⟨_, rfl⟩
  | traverse moves => exact ⟨_, rfl⟩
  | _ => cases hr

variable [EquivBEq K]

/-- A cache that holds entries carries out every request that the reference understands, and does
what the reference does. -/
theorem Coherent.perform_simulates (h : c.Coherent) (now : Instant) {command : Command K V}
    {request : Reference.Request K V} (hr : c.request? command = some request) :
    ∃ o, c.perform now command = .ok o ∧
      Simulates c o (c.reference.perform now request) (Answers command) := by
  have hc := h
  obtain ⟨items, free, h⟩ := h
  cases command with
  | insert key value =>
    cases hr
    refine exists_simulates_map (f := Answer.inserted)
      (g := fun b => Reference.Reply.inserted b.1 (.ok b.2)) (h.insert_simulates now key value)
      fun d a b hab => ?_
    simp only [Answers, reply?, hab.1, hab.2]
  | insertAll pairs =>
    cases hr
    exact exists_simulates_map (hc.insertAll_simulates now pairs) fun d a b hab => hab ▸ rfl
  | getOrInsert key make =>
    cases hr
    exact exists_simulates_map (h.getOrInsert_simulates now key make) fun d a b hab => hab ▸ rfl
  | lookup key =>
    cases hr
    exact ⟨_, rfl, (h.lookup_simulates now key).map fun d a b hab => hab ▸ rfl⟩
  | lookupMut key update =>
    cases hr
    exact ⟨_, rfl, (h.lookupMut_simulates now key update).map fun d a b hab => hab ▸ rfl⟩
  | contains key =>
    cases hr
    exact ⟨_, rfl, (h.contains_simulates now key).map fun d a b hab => hab ▸ rfl⟩
  | touch key =>
    cases hr
    exact ⟨_, rfl, (h.touch_simulates now key).map fun d a b hab => hab ▸ rfl⟩
  | erase key =>
    cases hr
    exact exists_simulates_map (h.erase_simulates key) fun d a b hab => hab ▸ rfl
  | eraseAt handle =>
    cases hr
    exact ⟨_, rfl, (h.eraseAt_simulates handle).map fun d a b hab => hab ▸ rfl⟩
  | popFront =>
    cases hr
    exact ⟨_, rfl, h.popFront_simulates.map fun d a b hab => hab ▸ rfl⟩
  | clear =>
    cases hr
    have hs := holds_clear c
    exact ⟨_, rfl, ⟨⟨_, _, hs⟩, fun _ i hi => (nomatch hi), hs.reference_eq, rfl, rfl⟩⟩
  | setCapacity capacity =>
    cases hr
    exact exists_simulates_map (f := fun _ => Answer.done) (g := fun _ => Reference.Reply.done)
      (h.setCapacity_simulates capacity) fun _ _ _ _ => rfl
  | purgeExpired =>
    cases hr
    exact exists_simulates_map (h.purgeExpired_simulates now) fun d a b hab => hab ▸ rfl
  | front =>
    cases hr
    exact ⟨_, rfl, hc.unchanged (by rw [h.front_eq]; rfl)⟩
  | back =>
    cases hr
    exact ⟨_, rfl, hc.unchanged (by rw [h.back_eq]; rfl)⟩
  | isExpired key =>
    cases hr
    exact ⟨_, rfl, hc.unchanged (by rw [h.isExpired_eq]; rfl)⟩
  | remainingTtl key =>
    cases hr
    exact ⟨_, rfl, hc.unchanged (by rw [h.remainingTtl_eq]; rfl)⟩
  | allExpired =>
    cases hr
    exact ⟨_, rfl, hc.unchanged (by rw [h.allExpired_eq]; rfl)⟩
  | cursor start moves =>
    cases start with
    | find key =>
      cases hr
      have hs := h.find_simulates now key
      obtain ⟨slot, hslot, hplace⟩ := hs.result
      refine ⟨_, rfl, hs.coherent, hs.remembers, hs.reference, hs.notices, slot,
        congrArg Reference.Reply.found hplace.symm, ?_⟩
      exact congrArg (fun x => Answer.walked (.ok ((c.find now key).cache.walkCursor x moves))) hslot
    | _ => cases hr
  | _ => cases hr

/-- Every request has an outcome, and the entries stay well kept. -/
theorem Coherent.perform (h : c.Coherent) (now : Instant) (command : Command K V) :
    ∃ o, c.perform now command = .ok o ∧ o.cache.Coherent ∧
      (c.Remembers → o.cache.Remembers) := by
  cases hr : c.request? command with
  | none =>
    obtain ⟨answer, ha⟩ := perform_of_request?_eq_none hr now
    exact ⟨_, ha, h, fun hr => hr⟩
  | some request =>
    obtain ⟨o, ho, hs⟩ := h.perform_simulates now hr
    exact ⟨o, ho, hs.coherent, hs.remembers⟩

end Requests

section Runs

/-- The cache `c` and the reference `r` stay in step: every request has an outcome, which leaves
what the reference leaves, with the same announcements and an agreeing answer. -/
def Follows (c : Cache K V) (r : Reference K V) : List (Instant × Command K V) → Prop
  | [] => True
  | (now, command) :: rest => ∃ o, c.perform now command = .ok o ∧
    match c.request? command with
    | none => o.cache.reference = r ∧ o.notices = [] ∧ o.cache.Follows r rest
    | some request =>
      o.cache.reference = (r.perform now request).reference ∧
      o.notices = (r.perform now request).notices ∧
      Answers command o.cache o.result (r.perform now request).result ∧
      o.cache.Follows (r.perform now request).reference rest

theorem run_cons {command : Command K V} {rest : List (Instant × Command K V)}
    {first : Outcome K V (Answer K V)} {others : Outcome K V (List (Answer K V))}
    (hfirst : c.perform now command = .ok first) (hothers : first.cache.run rest = .ok others) :
    c.run ((now, command) :: rest) =
      .ok ((others.map (first.result :: ·)).after first.notices) := by
  simp only [Cache.run, hfirst, bind, Except.bind, hothers]
  rfl

/-- A new cache. -/
def start (id : UInt64) (capacity : Nat) (policy : Policy) (mode : RecencyMode) : Cache K V :=
  { (empty id capacity policy) with mode }

theorem holds_start (id : UInt64) (capacity : Nat) (policy : Policy) (mode : RecencyMode) :
    (start id capacity policy mode : Cache K V).Holds [] [] :=
  (holds_empty id capacity policy).congr rfl rfl rfl

variable [EquivBEq K]

theorem Coherent.run (h : c.Coherent) (steps : List (Instant × Command K V)) :
    ∃ o, c.run steps = .ok o ∧ o.cache.Coherent ∧ (c.Remembers → o.cache.Remembers) := by
  induction steps generalizing c with
  | nil => exact ⟨_, rfl, h, fun hr => hr⟩
  | cons step rest ih =>
    obtain ⟨now, command⟩ := step
    obtain ⟨first, hfirst, hc, hr⟩ := h.perform now command
    obtain ⟨others, hothers, hc', hr'⟩ := ih hc
    refine ⟨_, run_cons hfirst hothers, hc', fun hm => hr' (hr hm)⟩

theorem Coherent.follows (h : c.Coherent) (steps : List (Instant × Command K V)) :
    c.Follows c.reference steps := by
  induction steps generalizing c with
  | nil => exact trivial
  | cons step rest ih =>
    obtain ⟨now, command⟩ := step
    cases hr : c.request? command with
    | none =>
      obtain ⟨answer, ha⟩ := perform_of_request?_eq_none hr now
      refine ⟨_, ha, ?_⟩
      rw [hr]
      exact ⟨rfl, rfl, ih h⟩
    | some request =>
      obtain ⟨o, ho, hs⟩ := h.perform_simulates now hr
      refine ⟨o, ho, ?_⟩
      rw [hr]
      exact ⟨hs.reference, hs.notices, hs.result, hs.reference ▸ ih hs.coherent⟩

/-- A new cache stays in step with an empty reference over every run, at whatever readings. -/
theorem start_follows (id : UInt64) (capacity : Nat) (policy : Policy) (mode : RecencyMode)
    (steps : List (Instant × Command K V)) :
    (start id capacity policy mode : Cache K V).Follows
      { entries := [], capacity, policy, mode } steps := by
  have h : (start id capacity policy mode : Cache K V).Coherent := ⟨_, _, holds_start ..⟩
  have hr : (start id capacity policy mode : Cache K V).reference =
      { entries := [], capacity, policy, mode } := (holds_start ..).reference_eq
  rw [← hr]
  exact h.follows steps

/-- The second insertion takes the place of the first entry, which is then not found. -/
theorem start_follows_eviction : EquivBEq Nat ∧
    (start 0 1 .capacity .onInsert : Cache Nat Nat).Follows
      { entries := [], capacity := 1, policy := .capacity, mode := .onInsert }
      [(0, .insert 1 10), (0, .insert 2 20), (0, .lookup 1)] :=
  ⟨inferInstance, start_follows 0 1 .capacity .onInsert _⟩

end Runs

end Lru.Cache
