import Lru.Proofs.Cache.Operations

/-! # The reference in a cache

Without its slots a cache is a reference: the entries in recency order and what
governs them. What the reference finds for a key is told by the place of the
key in the content of the cache.
-/

namespace Lru.Cache

variable {K V α β : Type} [BEq K]

/-- What a cache is without its slots. -/
def reference (c : Cache K V) : Reference K V :=
  { entries := c.entries, capacity := c.capacity, policy := c.policy, mode := c.mode }

/-- The place of a slot in recency order, behind the last for one that is vacant. -/
def place (c : Cache K V) (slot : Option SlotId) : Option Nat :=
  slot.map fun id => c.order.entries.findIdx fun x => x.1 == id

/-- The place that a handle points to, unless the cache refuses the handle. -/
def address (c : Cache K V) (h : Handle) : Except CacheError (Option Nat) :=
  (c.validate h).map c.place

/-- Index and recency list hold the same entries. -/
def Coherent (c : Cache K V) : Prop :=
  ∃ items free, c.Holds items free

/-- An operation on `c` leaves what the reference leaves, with the same announcements, and the
results agree. -/
structure Simulates (c : Cache K V) (o : Outcome K V α) (q : Reference.Outcome K V β)
    (agree : Cache K V → α → β → Prop) : Prop where
  coherent : o.cache.Coherent
  remembers : c.Remembers → o.cache.Remembers
  reference : o.cache.reference = q.reference
  notices : o.notices = q.notices
  result : agree o.cache o.result q.result

theorem Simulates.map {α' β' : Type} {c : Cache K V} {o : Outcome K V α}
    {q : Reference.Outcome K V β} {agree : Cache K V → α → β → Prop}
    {agree' : Cache K V → α' → β' → Prop} (h : Simulates c o q agree) {f : α → α'} {g : β → β'}
    (hfg : ∀ d a b, agree d a b → agree' d (f a) (g b)) :
    Simulates c (o.map f) (q.map g) agree' :=
  ⟨h.coherent, h.remembers, h.reference, h.notices, hfg _ _ _ h.result⟩

theorem exists_simulates_map {α' β' : Type} {c : Cache K V} {x : Except Fault (Outcome K V α)}
    {q : Reference.Outcome K V β} {agree : Cache K V → α → β → Prop}
    {agree' : Cache K V → α' → β' → Prop} {f : α → α'} {g : β → β'}
    (h : ∃ o, x = .ok o ∧ Simulates c o q agree)
    (hfg : ∀ d a b, agree d a b → agree' d (f a) (g b)) :
    ∃ o, (·.map f) <$> x = .ok o ∧ Simulates c o (q.map g) agree' := by
  obtain ⟨o, rfl, hs⟩ := h
  exact ⟨o.map f, rfl, hs.map hfg⟩

variable {c : Cache K V} {items p s : List (SlotId × Entry K V)} {free : List SlotId}
  {id : SlotId} {entry : Entry K V} {key : K} {now : Instant}

theorem Holds.reference_eq (h : c.Holds items free) :
    c.reference = ⟨items.map Prod.snd, c.capacity, c.policy, c.mode⟩ := by
  rw [reference, h.entries_eq]

omit [BEq K] in
theorem validate_handle (c : Cache K V) (slot : Option SlotId) :
    c.validate (c.handle slot) = .ok slot := by
  simp [validate, handle]

omit [BEq K] in
theorem address_handle (c : Cache K V) (slot : Option SlotId) :
    c.address (c.handle slot) = .ok (c.place slot) := by
  rw [address, validate_handle]
  rfl

theorem Holds.place_of_mem (h : c.Holds (p ++ (id, entry) :: s) free) :
    c.place (some id) = some p.length := by
  have hid := (RecencyList.not_mem_of_nodup h.order.nodup).1
  have hp : ∀ x ∈ p, (x.1 == id) = false := by
    intro x hx
    refine beq_eq_false_iff_ne.mpr ?_
    rintro rfl
    exact hid (List.mem_map_of_mem hx)
  have hidx : p.findIdx (fun x => x.1 == id) = p.length :=
    List.findIdx_eq_length_of_false hp
  simp [place, h.order.entries_eq, List.findIdx_append, hidx, List.findIdx_cons]

theorem Holds.place_of_not_mem (h : c.Holds items free) (hid : id ∉ items.map Prod.fst) :
    c.place (some id) = some items.length := by
  have hp : ∀ x ∈ items, (x.1 == id) = false := by
    intro x hx
    refine beq_eq_false_iff_ne.mpr ?_
    rintro rfl
    exact hid (List.mem_map_of_mem hx)
  simp [place, h.order.entries_eq, List.findIdx_eq_length_of_false hp]

/-- Doing nothing simulates doing nothing. -/
theorem Coherent.unchanged (h : c.Coherent) {agree : Cache K V → α → β → Prop} {a : α} {b : β}
    (hab : agree c a b) :
    Simulates c { result := a, cache := c } { result := b, reference := c.reference } agree :=
  ⟨h, fun hr => hr, rfl, rfl, hab⟩

section Find

theorem Holds.entryOf_of_absent (h : c.Holds items free) (ha : Absent key items) :
    c.reference.entryOf key = none := by
  have ha' := absent_iff.mp ha
  simp only [Reference.entryOf, h.reference_eq, List.find?_eq_none, List.mem_map]
  rintro e ⟨x, hx, rfl⟩
  simp [ha' x hx]

theorem Holds.others_of_absent (h : c.Holds items free) (ha : Absent key items) :
    c.reference.others key = items.map Prod.snd := by
  have ha' := absent_iff.mp ha
  rw [Reference.others, h.reference_eq, List.eraseP_of_forall_not]
  intro e he
  obtain ⟨x, hx, rfl⟩ := List.mem_map.mp he
  simp [ha' x hx]

variable [PartialEquivBEq K]

theorem Holds.find?_before (h : c.Holds (p ++ (id, entry) :: s) free) (hk : key == entry.key) :
    ∀ e ∈ p.map Prod.snd, (key == e.key) = false := by
  have ha := absent_iff.mp (h.absent_middle hk)
  rintro e he
  obtain ⟨x, hx, rfl⟩ := List.mem_map.mp he
  exact ha x (List.mem_append_left _ hx)

theorem Holds.entryOf_of_mem (h : c.Holds (p ++ (id, entry) :: s) free) (hk : key == entry.key) :
    c.reference.entryOf key = some entry := by
  have hp : (p.map Prod.snd).find? (fun e => key == e.key) = none :=
    List.find?_eq_none.mpr fun e he => by simp [h.find?_before hk e he]
  rw [Reference.entryOf, h.reference_eq]
  simp [List.find?_append, hp, hk]

theorem Holds.others_of_mem (h : c.Holds (p ++ (id, entry) :: s) free) (hk : key == entry.key) :
    c.reference.others key = (p ++ s).map Prod.snd := by
  rw [Reference.others, h.reference_eq, List.map_append, List.map_append, List.eraseP_append_right]
  · simp [hk]
  · intro e he
    simp [h.find?_before hk e he]

theorem Holds.findIdx?_of_mem (h : c.Holds (p ++ (id, entry) :: s) free)
    (hk : key == entry.key) :
    c.reference.entries.findIdx? (fun e => key == e.key) = some p.length := by
  have hp : (p.map Prod.snd).findIdx? (fun e => key == e.key) = none :=
    List.findIdx?_eq_none_iff.mpr (h.find?_before hk)
  rw [h.reference_eq]
  simp [List.findIdx?_append, List.findIdx?_cons, hp, hk]

end Find

end Lru.Cache
