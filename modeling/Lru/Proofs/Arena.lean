import Lru.Arena
import Mathlib.Data.List.Nodup

/-! # The free chain of an arena

The vacant slots are threaded on one chain that starts at the free head and
passes each of them once. Insertion takes the first slot of the chain, or a
fresh one where the chain is empty, and removal puts a slot in front.
-/

namespace Lru

/-- Following `step` from `start` passes `ids` in this order and ends behind the last. -/
def Chain (step : SlotId → Option (Option SlotId)) : Option SlotId → List SlotId → Prop
  | start, [] => start = none
  | start, id :: ids => start = some id ∧ ∃ next, step id = some next ∧ Chain step next ids

theorem Chain.congr {step step' : SlotId → Option (Option SlotId)} {start : Option SlotId}
    {ids : List SlotId} (h : Chain step start ids) (same : ∀ id ∈ ids, step' id = step id) :
    Chain step' start ids := by
  induction ids generalizing start with
  | nil => exact h
  | cons id ids ih =>
    obtain ⟨rfl, next, hn, hc⟩ := h
    refine ⟨rfl, next, ?_, ih hc fun i hi => same i (List.mem_cons_of_mem _ hi)⟩
    rw [same id List.mem_cons_self, hn]

/-- The link of a vacant slot to the slot vacated before it. -/
def Slot.link? {α : Type} : Slot α → Option (Option SlotId)
  | occupied _ => none
  | vacant next => some next

namespace Arena

variable {α : Type} {a : Arena α} {id : SlotId} {value : α} {free : List SlotId}

def vacantLink (a : Arena α) (id : SlotId) : Option (Option SlotId) :=
  a.slots[id]?.bind Slot.link?

/-- The chain of vacant slots passes exactly `free`, and the other slots are counted. -/
structure Vacates (a : Arena α) (free : List SlotId) : Prop where
  chain : Chain a.vacantLink a.freeHead free
  nodup : free.Nodup
  mem_iff : ∀ id, id ∈ free ↔ id < a.slotCount ∧ a.get? id = none
  len_add : a.len + free.length = a.slotCount

theorem vacates_empty : Vacates ({} : Arena α) [] where
  chain := rfl
  nodup := List.nodup_nil
  mem_iff id := by simp [slotCount]
  len_add := rfl

theorem lt_slotCount_of_get? (h : a.get? id = some value) : id < a.slotCount := by
  by_contra hn
  simp [get?, Array.getElem?_eq_none (Nat.le_of_not_lt hn)] at h

theorem contains_iff : a.contains id = true ↔ ∃ value, a.get? id = some value := by
  simp [contains, Option.isSome_iff_exists]

theorem contains_eq_false_iff : a.contains id = false ↔ a.get? id = none := by
  simp [contains]

section Modify

variable (a) (f : α → α)

@[simp] theorem modify_slotCount : (a.modify id f).slotCount = a.slotCount := by
  simp [modify, slotCount]

theorem get?_modify (j : SlotId) :
    (a.modify id f).get? j = if id = j then (a.get? j).map f else a.get? j := by
  simp only [modify, get?, Array.getElem?_modify]
  split
  · cases a.slots[j]? with
    | none => rfl
    | some slot => cases slot <;> rfl
  · rfl

theorem contains_modify (j : SlotId) : (a.modify id f).contains j = a.contains j := by
  rw [contains, contains, get?_modify]
  split <;> simp

theorem vacantLink_modify (j : SlotId) : (a.modify id f).vacantLink j = a.vacantLink j := by
  simp only [modify, vacantLink, Array.getElem?_modify]
  split
  · cases a.slots[j]? with
    | none => rfl
    | some slot => cases slot <;> rfl
  · rfl

theorem modify_of_vacant (hv : a.get? id = none) : a.modify id f = a := by
  have hslots : a.slots.modify id (Slot.update f) = a.slots := by
    apply Array.ext_getElem?
    intro j
    rw [Array.getElem?_modify]
    split
    · next he =>
      subst he
      rw [get?] at hv
      cases hs : a.slots[id]? with
      | none => rfl
      | some slot =>
        cases slot with
        | occupied value =>
          rw [hs] at hv
          cases hv
        | vacant next => rfl
    · rfl
  rw [modify, hslots]

end Modify

theorem Vacates.modify (h : a.Vacates free) (f : α → α) : (a.modify id f).Vacates free where
  chain := h.chain.congr fun j _ => vacantLink_modify a f j
  nodup := h.nodup
  mem_iff j := by
    rw [h.mem_iff, modify_slotCount, get?_modify]
    split <;> simp
  len_add := by rw [modify_slotCount]; exact h.len_add

/-- A new value goes to the first vacant slot, or behind all slots. -/
theorem Vacates.insert_fst (h : a.Vacates free) (value : α) :
    (a.insert value).1 = free.headD a.slotCount := by
  cases free with
  | nil => simp [insert, show a.freeHead = none from h.chain, slotCount]
  | cons id rest => simp [insert, h.chain.1]

theorem Vacates.get?_headD (h : a.Vacates free) : a.get? (free.headD a.slotCount) = none := by
  cases free with
  | nil => simp [get?, slotCount]
  | cons id rest => exact ((h.mem_iff id).mp List.mem_cons_self).2

theorem Vacates.get?_insert (h : a.Vacates free) (value : α) (j : SlotId) :
    (a.insert value).2.get? j = if (a.insert value).1 = j then some value else a.get? j := by
  cases free with
  | nil =>
    simp only [insert, show a.freeHead = none from h.chain, get?, Array.getElem?_push]
    grind [Slot.value?]
  | cons id rest =>
    have hlt : id < a.slots.size := ((h.mem_iff id).mp List.mem_cons_self).1
    simp only [insert, h.chain.1, get?, Array.getElem?_setIfInBounds]
    grind [Slot.value?]

theorem Vacates.slotCount_insert (h : a.Vacates free) (value : α) :
    (a.insert value).2.slotCount = max a.slotCount (free.headD a.slotCount + 1) := by
  cases free with
  | nil => simp [insert, show a.freeHead = none from h.chain, slotCount]
  | cons id rest =>
    have hlt : id < a.slots.size := ((h.mem_iff id).mp List.mem_cons_self).1
    simp only [insert, h.chain.1, slotCount, Array.size_setIfInBounds, List.headD_cons]
    exact (Nat.max_eq_left hlt).symm

/-- Without vacant slots the value gets a new slot, and there are still none. -/
theorem Vacates.insert_nil (h : a.Vacates []) (value : α) : (a.insert value).2.Vacates [] := by
  have hh : a.freeHead = none := h.chain
  have hget := h.get?_insert value
  have hcount := h.slotCount_insert value
  rw [h.insert_fst] at hget
  simp only [List.headD_nil] at hget hcount
  rw [Nat.max_eq_right (Nat.le_succ _)] at hcount
  constructor
  · simp [Arena.insert, hh, Chain]
  · exact List.nodup_nil
  · intro j
    have hj := h.mem_iff j
    simp only [List.not_mem_nil, false_iff, not_and] at hj ⊢
    rw [hcount, hget]
    intro hlt
    rcases Nat.lt_or_eq_of_le (Nat.le_of_lt_succ hlt) with hlt | rfl
    · simpa [(Nat.ne_of_lt hlt).symm] using hj hlt
    · simp
  · rw [hcount]
    have hlen := h.len_add
    simp [Arena.insert, hh] at hlen ⊢
    omega

/-- The value takes the first slot of the chain, which goes on from the second. -/
theorem Vacates.insert_cons (h : a.Vacates (id :: free)) (value : α) :
    (a.insert value).2.Vacates free := by
  obtain ⟨hh, next, hnext, hchain⟩ := h.chain
  have hid := List.nodup_cons.mp h.nodup
  have hlt : id < a.slotCount := ((h.mem_iff id).mp List.mem_cons_self).1
  have hget := h.get?_insert value
  have hcount := h.slotCount_insert value
  rw [h.insert_fst] at hget
  simp only [List.headD_cons] at hget hcount
  rw [Nat.max_eq_left hlt] at hcount
  constructor
  · have hfree : a.nextFree id = next := by
      obtain ⟨slot, hs, hl⟩ := Option.bind_eq_some_iff.mp hnext
      cases slot with
      | occupied v => cases hl
      | vacant n => simpa [nextFree, hs, Slot.link?] using hl
    have hhead : (a.insert value).2.freeHead = next := by simp [Arena.insert, hh, hfree]
    rw [hhead]
    apply hchain.congr
    intro j hj
    have hne : id ≠ j := fun he => hid.1 (he ▸ hj)
    simp [Arena.insert, hh, vacantLink, Array.getElem?_setIfInBounds_ne hne]
  · exact hid.2
  · intro j
    have hj := h.mem_iff j
    rw [hcount, hget]
    by_cases he : id = j
    · subst he
      simp [hid.1]
    · simpa [he, Ne.symm he] using hj
  · rw [hcount]
    have hlen := h.len_add
    simp [Arena.insert, hh] at hlen ⊢
    omega

theorem Vacates.insert (h : a.Vacates free) (value : α) :
    (a.insert value).2.Vacates free.tail := by
  cases free with
  | nil => exact h.insert_nil value
  | cons id rest => exact h.insert_cons value

theorem remove?_eq_none (h : a.get? id = none) : a.remove? id = none := by
  simp [remove?, h]

/-- What is left when the slot `id` is vacated. -/
def vacate (a : Arena α) (id : SlotId) : Arena α where
  slots := a.slots.setIfInBounds id (.vacant a.freeHead)
  freeHead := some id
  len := a.len - 1

theorem remove?_eq_some (h : a.get? id = some value) : a.remove? id = some (value, a.vacate id) := by
  simp [remove?, h, vacate]

@[simp] theorem vacate_slotCount : (a.vacate id).slotCount = a.slotCount := by
  simp [vacate, slotCount]

theorem get?_vacate (j : SlotId) : (a.vacate id).get? j = if id = j then none else a.get? j := by
  simp only [vacate, get?, Array.getElem?_setIfInBounds]
  grind [Slot.value?]

theorem Vacates.not_mem (h : a.Vacates free) (hv : a.get? id = some value) : id ∉ free := by
  intro hm
  simp [((h.mem_iff id).mp hm).2] at hv

/-- The occupied and the vacant slots are all slots. -/
theorem Vacates.length_add (h : a.Vacates free) {ids : List SlotId} (hnodup : ids.Nodup)
    (hids : ∀ id, id ∈ ids ↔ a.contains id = true) : ids.length + free.length = a.slotCount := by
  have hdisjoint : ids.Disjoint free := by
    intro id hid hfree
    obtain ⟨value, hv⟩ := contains_iff.mp ((hids id).mp hid)
    exact h.not_mem hv hfree
  have hp : (ids ++ free).Perm (List.range a.slotCount) := by
    apply (List.perm_ext_iff_of_nodup (hnodup.append h.nodup hdisjoint) List.nodup_range).mpr
    intro id
    rw [List.mem_append, hids, h.mem_iff, List.mem_range]
    constructor
    · rintro (hc | ⟨hlt, -⟩)
      · obtain ⟨value, hv⟩ := contains_iff.mp hc
        exact lt_slotCount_of_get? hv
      · exact hlt
    · intro hlt
      cases hc : a.contains id with
      | true => exact .inl rfl
      | false => exact .inr ⟨hlt, contains_eq_false_iff.mp hc⟩
  simpa using hp.length_eq

/-- An occupied slot is counted: with the vacant ones it makes no more slots than there are. -/
theorem Vacates.len_pos (h : a.Vacates free) (hv : a.get? id = some value) : 0 < a.len := by
  have hnd : (id :: free).Nodup := List.nodup_cons.mpr ⟨h.not_mem hv, h.nodup⟩
  have hsub : id :: free ⊆ List.range a.slotCount := by
    intro j hj
    rw [List.mem_range]
    rcases List.mem_cons.mp hj with rfl | hj
    · exact lt_slotCount_of_get? hv
    · exact ((h.mem_iff j).mp hj).1
  have hle := hnd.length_le_of_subset hsub
  rw [List.length_cons, List.length_range, ← h.len_add] at hle
  omega

theorem Vacates.vacate (h : a.Vacates free) (hv : a.get? id = some value) :
    (a.vacate id).Vacates (id :: free) := by
  have hlt := lt_slotCount_of_get? hv
  have hid := h.not_mem hv
  constructor
  · refine ⟨rfl, a.freeHead, ?_, ?_⟩
    · simp [vacantLink, Arena.vacate, show id < a.slots.size from hlt, Slot.link?]
    · apply h.chain.congr
      intro j hj
      have hne : id ≠ j := fun he => hid (he ▸ hj)
      simp [vacantLink, Arena.vacate, Array.getElem?_setIfInBounds_ne hne]
  · exact List.nodup_cons.mpr ⟨hid, h.nodup⟩
  · intro j
    rw [List.mem_cons, h.mem_iff, vacate_slotCount, get?_vacate]
    by_cases he : id = j
    · subst he
      simp [hlt]
    · simp [he, Ne.symm he]
  · have hpos := h.len_pos hv
    have hlen := h.len_add
    simp [Arena.vacate, slotCount] at hlen ⊢
    omega

end Arena

end Lru
