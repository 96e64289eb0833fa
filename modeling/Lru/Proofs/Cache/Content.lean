import Lru.Cache.Basic
import Lru.Proofs.KeyMap
import Lru.Proofs.RecencyList

/-! # The content of a cache

A cache holds entries in slots when its recency list does, its index names the
slot of each of them under its key, and they fit. The last accessed slot has no
part in this: whatever it names, the slot of a key is the one the index tells.
-/

namespace Lru.Cache

variable {K V : Type}

/-- The keys of entries with the slots of the entries. -/
def keyed (items : List (SlotId × Entry K V)) : List (K × SlotId) :=
  items.map fun x => (x.2.key, x.1)

@[simp] theorem keyed_nil : keyed ([] : List (SlotId × Entry K V)) = [] := rfl

@[simp] theorem keyed_cons (x : SlotId × Entry K V) (s : List (SlotId × Entry K V)) :
    keyed (x :: s) = (x.2.key, x.1) :: keyed s := rfl

@[simp] theorem keyed_append (p s : List (SlotId × Entry K V)) :
    keyed (p ++ s) = keyed p ++ keyed s :=
  List.map_append

theorem map_snd_keyed (items : List (SlotId × Entry K V)) :
    (keyed items).map Prod.snd = items.map Prod.fst :=
  List.map_map

@[simp] theorem length_keyed (items : List (SlotId × Entry K V)) :
    (keyed items).length = items.length :=
  List.length_map _

variable {c d : Cache K V} {items p s : List (SlotId × Entry K V)} {free : List SlotId}
  {id : SlotId} {entry : Entry K V} {key : K}

/-- The last accessed slot is none or occupied. -/
def Remembers (c : Cache K V) : Prop :=
  ∀ id, c.lastAccessed = some id → c.order.contains id = true

/-- The cache with another last accessed slot. -/
def remembering (c : Cache K V) (memo : Option SlotId) : Cache K V :=
  { c with lastAccessed := memo }

section Remembering

variable (c : Cache K V) (memo : Option SlotId)

@[simp] theorem index_remembering : (c.remembering memo).index = c.index := rfl

@[simp] theorem order_remembering : (c.remembering memo).order = c.order := rfl

@[simp] theorem capacity_remembering : (c.remembering memo).capacity = c.capacity := rfl

@[simp] theorem mode_remembering : (c.remembering memo).mode = c.mode := rfl

end Remembering

theorem forget_eq (c : Cache K V) (id : SlotId) :
    c.forget id = c.remembering (c.lastAccessed.filter (· != id)) := by
  unfold forget remembering
  cases h : c.lastAccessed with
  | none => cases c; simp_all
  | some i =>
    by_cases he : i = id
    · simp [he, Option.filter]
    · cases c; simp_all [Option.filter]

theorem Remembers.forget (h : c.Remembers) : (c.forget id).Remembers := by
  intro i hi
  rw [forget_eq] at hi ⊢
  exact h i (Option.filter_eq_some_iff.mp hi).1

variable [BEq K]

/-- The cache holds `items` from the least to the most recent, and `free` is its chain of vacant
slots. -/
structure Holds (c : Cache K V) (items : List (SlotId × Entry K V)) (free : List SlotId) :
    Prop where
  order : c.order.Holds items free
  index : c.index.entries.Perm (keyed items)
  distinct : KeyMap.Distinct c.index.entries
  le_capacity : items.length ≤ c.capacity

/-- No stored key equals `key`. -/
abbrev Absent (key : K) (items : List (SlotId × Entry K V)) : Prop :=
  KeyMap.Absent key (keyed items)

theorem absent_iff : Absent key items ↔ ∀ x ∈ items, (key == x.2.key) = false := by
  simp only [Absent, KeyMap.Absent, keyed, List.forall_mem_map]

theorem Holds.congr (h : c.Holds items free) (ho : d.order = c.order) (hi : d.index = c.index)
    (hc : d.capacity = c.capacity) : d.Holds items free := by
  obtain ⟨h₁, h₂, h₃, h₄⟩ := h
  exact ⟨ho ▸ h₁, hi ▸ h₂, hi ▸ h₃, hc ▸ h₄⟩

theorem Holds.remembering (h : c.Holds items free) (memo : Option SlotId) :
    (c.remembering memo).Holds items free :=
  h.congr rfl rfl rfl

theorem Holds.size_eq (h : c.Holds items free) : c.index.size = items.length := by
  rw [KeyMap.size, h.index.length_eq, length_keyed]

theorem Holds.len_eq (h : c.Holds items free) : c.len = items.length :=
  h.size_eq

theorem Holds.entries_eq (h : c.Holds items free) : c.entries = items.map Prod.snd :=
  h.order.toList_eq

theorem Holds.audited {α : Type} {o : Outcome K V α} (h : o.cache.Holds items free) :
    audited o = .ok o := by
  rw [Cache.audited, if_pos (h.size_eq.trans h.order.len_eq.symm)]

/-- A key is stored in one place or not at all. -/
theorem absent_or (key : K) (items : List (SlotId × Entry K V)) :
    Absent key items ∨ ∃ p id entry s, items = p ++ (id, entry) :: s ∧ key == entry.key := by
  by_cases ha : Absent key items
  · exact .inl ha
  · rw [absent_iff] at ha
    push Not at ha
    obtain ⟨⟨id, entry⟩, hm, hk⟩ := ha
    obtain ⟨p, s, rfl⟩ := List.append_of_mem hm
    exact .inr ⟨p, id, entry, s, rfl, by simpa using hk⟩

theorem Holds.perm_middle (h : c.Holds (p ++ (id, entry) :: s) free) :
    c.index.entries.Perm ((entry.key, id) :: keyed (p ++ s)) := by
  refine h.index.trans ?_
  simp

theorem Holds.absent_index (h : c.Holds items free) (ha : Absent key items) :
    KeyMap.Absent key c.index.entries :=
  fun x hx => ha x (h.index.mem_iff.mp hx)

theorem Holds.get?_index_of_absent (h : c.Holds items free) (ha : Absent key items) :
    c.index.get? key = none :=
  KeyMap.get?_eq_none_iff.mpr (h.absent_index ha)

theorem Holds.get?_order (h : c.Holds (p ++ (id, entry) :: s) free) :
    c.order.get? id = some entry :=
  h.order.get?_of_mem (by simp)

section PartialEquiv

variable [PartialEquivBEq K]

theorem Holds.absent_middle (h : c.Holds (p ++ (id, entry) :: s) free)
    (hk : key == entry.key) : Absent key (p ++ s) :=
  (h.distinct.perm h.perm_middle).absent hk

theorem Holds.get?_index (h : c.Holds (p ++ (id, entry) :: s) free) (hk : key == entry.key) :
    c.index.get? key = some id :=
  KeyMap.get?_of_perm h.distinct h.perm_middle hk

/-- Trying the last accessed slot first finds nothing else than the index. -/
theorem slotOf_eq_index (h : ∀ id entry, c.order.get? id = some entry → key == entry.key →
    c.index.get? key = some id) : c.slotOf key = c.index.get? key := by
  unfold slotOf
  split
  · next id hid =>
    have hat := (Option.filter_eq_some_iff.mp hid).2
    obtain ⟨entry, hg, hk⟩ : ∃ entry, c.order.get? id = some entry ∧ entry.key == key := by
      simpa [holdsAt, Option.any_eq_true] using hat
    exact (h id entry hg (BEq.symm hk)).symm
  · rfl

theorem Holds.slotOf_eq (h : c.Holds items free) (key : K) : c.slotOf key = c.index.get? key := by
  refine slotOf_eq_index fun id entry hg hk => ?_
  obtain ⟨p, s, rfl⟩ := List.append_of_mem (h.order.get?_eq_some_iff.mp hg)
  exact h.get?_index hk

end PartialEquiv

end Lru.Cache
