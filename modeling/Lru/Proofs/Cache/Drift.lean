import Lru.Proofs.Cache.Content

/-! # Keys that equal nothing

A key that does not even equal itself is indexed when its entry is stored, and
never found again: when the entry leaves the recency list, the key stays in the
index. So index and recency list drift apart by the number of these stray keys,
while the keys that equal themselves are indexed as ever.
-/

namespace Lru.Cache

variable {K V : Type} [BEq K] {c d : Cache K V} {items p s xs : List (SlotId × Entry K V)}
  {free : List SlotId} {id : SlotId} {entry : Entry K V} {key : K} {g : Nat}

/-- The number of entries whose keys do not equal themselves. -/
def strays (entries : List (Entry K V)) : Nat :=
  entries.countP fun e => !(e.key == e.key)

theorem strays_cons (entry : Entry K V) (entries : List (Entry K V)) :
    strays (entry :: entries) = strays [entry] + strays entries := by
  rw [← List.singleton_append, strays, List.countP_append]
  rfl

theorem strays_of_self (h : entry.key == entry.key) : strays [entry] = 0 := by
  simp [strays, h]

theorem strays_of_not_self (h : (entry.key == entry.key) = false) : strays [entry] = 1 := by
  simp [strays, h]

/-- The cache holds `items`, and its index has `g` keys besides whose entries are gone. -/
structure Drifts (c : Cache K V) (items : List (SlotId × Entry K V)) (free : List SlotId)
    (g : Nat) : Prop where
  order : c.order.Holds items free
  /-- The keys that equal themselves are indexed at their slots. -/
  index : (KeyMap.proper c.index.entries).Perm (KeyMap.proper (keyed items))
  distinct : KeyMap.Distinct c.index.entries
  size : c.index.size = items.length + g
  le_capacity : items.length ≤ c.capacity

theorem Drifts.congr (h : c.Drifts items free g) (ho : d.order = c.order) (hi : d.index = c.index)
    (hc : d.capacity = c.capacity) : d.Drifts items free g := by
  obtain ⟨h₁, h₂, h₃, h₄, h₅⟩ := h
  exact ⟨ho ▸ h₁, hi ▸ h₂, hi ▸ h₃, hi ▸ h₄, hc ▸ h₅⟩

theorem Drifts.remembering (h : c.Drifts items free g) (memo : Option SlotId) :
    (c.remembering memo).Drifts items free g :=
  h.congr rfl rfl rfl

theorem Drifts.entries_eq (h : c.Drifts items free g) : c.entries = items.map Prod.snd :=
  h.order.toList_eq

theorem Drifts.get?_order (h : c.Drifts (p ++ (id, entry) :: s) free g) :
    c.order.get? id = some entry :=
  h.order.get?_of_mem (by simp)

/-- The check at the end of an operation passes if no stray key is left over. -/
theorem Drifts.audited {α : Type} {o : Outcome K V α} (h : o.cache.Drifts items free g) :
    audited o = if g = 0 then .ok o else .error (.misaligned (items.length + g) items.length) := by
  rw [Cache.audited, h.size, h.order.len_eq]
  exact if_congr Nat.add_eq_left rfl rfl

theorem Holds.drifts (h : c.Holds items free) : c.Drifts items free 0 :=
  ⟨h.order, h.index.filter _, h.distinct, h.size_eq, h.le_capacity⟩

section Refl

variable [ReflBEq K]

/-- Where every key equals itself, no key is left over. -/
theorem strays_eq_zero (entries : List (Entry K V)) : strays entries = 0 :=
  List.countP_eq_zero.mpr fun e _ => by simp

theorem Drifts.holds (h : c.Drifts items free 0) : c.Holds items free := by
  have hindex := h.index
  rw [KeyMap.proper_eq, KeyMap.proper_eq] at hindex
  exact ⟨h.order, hindex, h.distinct, h.le_capacity⟩

end Refl

theorem Drifts.perm_middle (h : c.Drifts (p ++ (id, entry) :: s) free g)
    (hk : entry.key == entry.key) : (KeyMap.proper c.index.entries).Perm
      ((entry.key, id) :: KeyMap.proper (keyed (p ++ s))) := by
  refine h.index.trans ?_
  simp [KeyMap.proper, hk]

variable [PartialEquivBEq K]

theorem Drifts.get?_index (h : c.Drifts (p ++ (id, entry) :: s) free g) (hk : key == entry.key) :
    c.index.get? key = some id := by
  rw [← KeyMap.get?_proper]
  exact KeyMap.get?_of_perm h.distinct.proper (h.perm_middle (KeyMap.self_of_beq hk)) hk

theorem Drifts.get?_index_of_absent (h : c.Drifts items free g) (ha : Absent key items) :
    c.index.get? key = none := by
  rw [← KeyMap.get?_proper, KeyMap.get?_eq_none_iff]
  intro x hx
  exact ha x (List.mem_filter.mp (h.index.mem_iff.mp hx)).1

theorem Drifts.slotOf_eq (h : c.Drifts items free g) (key : K) :
    c.slotOf key = c.index.get? key := by
  refine slotOf_eq_index fun id entry hg hk => ?_
  obtain ⟨p, s, rfl⟩ := List.append_of_mem (h.order.get?_eq_some_iff.mp hg)
  exact h.get?_index hk

end Lru.Cache
