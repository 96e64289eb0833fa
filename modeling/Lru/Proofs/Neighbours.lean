import Lru.Proofs.RecencyList

/-! # Neighbours

What comes next to a value: in list order its links lead there, and in storage
order the scan over the slots behind it does. Both orders pass the same values
in the same slots.
-/

namespace Lru

namespace Arena

variable {α : Type} {a : Arena α} {id : SlotId} {value : α}

theorem mem_entries : (id, value) ∈ a.entries ↔ a.get? id = some value := by
  simp only [entries, List.mem_filterMap, List.mem_range, Option.map_eq_some_iff, Prod.mk.injEq]
  constructor
  · rintro ⟨j, -, v, hv, rfl, rfl⟩
    exact hv
  · intro hv
    exact ⟨id, lt_slotCount_of_get? hv, value, hv, rfl, rfl⟩

/-- The entries stand in the order of their slots, of which no two are the same. -/
theorem entries_sorted (a : Arena α) : a.entries.Pairwise fun x y => x.1 < y.1 := by
  refine List.pairwise_lt_range.filterMap _ ?_
  intro i j hij x hx y hy
  obtain ⟨v, -, rfl⟩ := Option.map_eq_some_iff.mp hx
  obtain ⟨w, -, rfl⟩ := Option.map_eq_some_iff.mp hy
  exact hij

theorem contains_iff_mem_entries : a.contains id = true ↔ id ∈ a.entries.map Prod.fst := by
  rw [contains_iff]
  constructor
  · rintro ⟨value, hv⟩
    exact List.mem_map_of_mem (mem_entries.mpr hv)
  · intro hid
    obtain ⟨⟨_, value⟩, hm, rfl⟩ := List.mem_map.mp hid
    exact ⟨value, mem_entries.mp hm⟩

/-- The scan from `start` finds the first of the entries that stand there or behind. -/
theorem firstFrom_eq {p s : List (SlotId × α)} {start : SlotId} (split : a.entries = p ++ s)
    (before : ∀ x ∈ p, x.1 < start) (behind : ∀ x ∈ s, start ≤ x.1) :
    a.firstFrom start = RecencyList.firstId s := by
  have hmem : ∀ j, start ≤ j → a.contains j = true → j ∈ s.map Prod.fst := by
    intro j hj hc
    rw [contains_iff_mem_entries, split, List.map_append, List.mem_append] at hc
    rcases hc with hp | hs
    · obtain ⟨x, hx, rfl⟩ := List.mem_map.mp hp
      exact absurd (before x hx) (Nat.not_lt.mpr hj)
    · exact hs
  cases s with
  | nil =>
    rw [firstFrom, RecencyList.firstId_nil, List.find?_range'_eq_none]
    intro j hj _
    rw [Bool.not_eq_true', Bool.eq_false_iff]
    intro hc
    exact absurd (hmem j hj hc) List.not_mem_nil
  | cons x s =>
    have hx : x.1 ∈ a.entries.map Prod.fst := by simp [split]
    rw [← contains_iff_mem_entries] at hx
    obtain ⟨value, hv⟩ := contains_iff.mp hx
    have hlt : x.1 < a.slots.size := lt_slotCount_of_get? hv
    have hle : start ≤ x.1 := behind x List.mem_cons_self
    rw [firstFrom, RecencyList.firstId_cons, List.find?_range'_eq_some]
    refine ⟨hx, ?_, ?_⟩
    · rw [List.mem_range'_1, Nat.add_sub_of_le (Nat.le_trans hle (Nat.le_of_lt hlt))]
      exact ⟨hle, hlt⟩
    · -- A slot in front of the first entry would hold an entry that stands in front of it.
      intro j hj hjx
      rw [Bool.not_eq_true', Bool.eq_false_iff]
      intro hc
      have hsorted : (x :: s).Pairwise fun x y => x.1 < y.1 := by
        have h := a.entries_sorted
        rw [split, List.pairwise_append] at h
        exact h.2.1
      obtain ⟨y, hy, rfl⟩ := List.mem_map.mp (hmem j hj hc)
      rcases List.mem_cons.mp hy with rfl | hy
      · exact Nat.lt_irrefl _ hjx
      · exact Nat.lt_asymm hjx ((List.pairwise_cons.mp hsorted).1 y hy)

end Arena

namespace RecencyList

variable {α : Type} {l : RecencyList α} {items p s : List (SlotId × α)} {free : List SlotId}
  {id : SlotId} {value : α}

theorem Linked.nextId_eq (h : l.Linked (p ++ (id, value) :: s)) : l.nextId id = firstId s := by
  simp [nextId, h.node p id value s rfl]

theorem Linked.prevId_eq (h : l.Linked (p ++ (id, value) :: s)) : l.prevId id = lastId p := by
  simp [prevId, h.node p id value s rfl]

/-- The values with their slots in storage order. -/
def stored (l : RecencyList α) : List (SlotId × α) :=
  l.nodes.entries.map fun x => (x.1, x.2.value)

theorem stored_sorted (l : RecencyList α) : l.stored.Pairwise fun x y => x.1 < y.1 :=
  l.nodes.entries_sorted.map _ fun _ _ h => h

theorem mem_stored : (id, value) ∈ l.stored ↔ l.get? id = some value := by
  simp only [stored, List.mem_map, get?, Option.map_eq_some_iff]
  constructor
  · rintro ⟨⟨j, node⟩, hm, hx⟩
    obtain ⟨rfl, rfl⟩ := Prod.mk.inj hx
    exact ⟨node, Arena.mem_entries.mp hm, rfl⟩
  · rintro ⟨node, hn, rfl⟩
    exact ⟨(id, node), Arena.mem_entries.mpr hn, rfl⟩

theorem firstId_map {β : Type} (f : α → β) (items : List (SlotId × α)) :
    firstId (items.map fun x => (x.1, f x.2)) = firstId items := by
  cases items <;> rfl

theorem firstInStorage_eq (l : RecencyList α) : l.firstInStorage = firstId l.stored := by
  rw [firstInStorage, stored, firstId_map]
  exact Arena.firstFrom_eq (p := []) rfl (by simp) fun x _ => Nat.zero_le _

theorem nextInStorage_eq (split : l.stored = p ++ (id, value) :: s) :
    l.nextInStorage id = firstId s := by
  obtain ⟨q, r, hnodes, rfl, hr⟩ := List.map_eq_append_iff.mp split
  obtain ⟨x, t, rfl, hx, rfl⟩ := List.map_eq_cons_iff.mp hr
  obtain ⟨rfl, -⟩ := Prod.mk.inj hx
  have hs := l.nodes.entries_sorted
  rw [hnodes, List.pairwise_append, List.pairwise_cons] at hs
  obtain ⟨-, ⟨hbehind, -⟩, hbefore⟩ := hs
  rw [nextInStorage, firstId_map]
  refine Arena.firstFrom_eq (p := q ++ [x]) (by rw [hnodes]; simp) ?_ ?_
  · intro y hy
    rcases List.mem_append.mp hy with hy | hy
    · exact Nat.lt_succ_of_lt (hbefore y hy x List.mem_cons_self)
    · rw [List.mem_singleton.mp hy]
      exact Nat.lt_succ_self _
  · intro y hy
    exact hbehind y hy

/-- Storage order is another order of the same values. -/
theorem Holds.stored_perm (h : l.Holds items free) : l.stored.Perm items := by
  have hstored : l.stored.Nodup := l.stored_sorted.imp fun hlt he => by simp [he] at hlt
  have hitems : items.Nodup := h.nodup.of_map
  rw [List.perm_ext_iff_of_nodup hstored hitems]
  rintro ⟨id, value⟩
  rw [mem_stored, h.get?_eq_some_iff]

end RecencyList

end Lru
