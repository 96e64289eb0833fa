import Lru.RecencyList
import Lru.Proofs.Arena

/-! # Lists threaded through an arena

A recency list holds a sequence of values with their slots: the links between
its ends join neighbours in both directions and pass every occupied slot. Each
operation acts on the sequence as its name says, whatever the place of the
value in it.
-/

namespace Lru.RecencyList

variable {α : Type} {l : RecencyList α} {items p s : List (SlotId × α)} {free : List SlotId}
  {id : SlotId} {value : α}

/-- The slot of the first value. -/
def firstId (items : List (SlotId × α)) : Option SlotId :=
  items.head?.map Prod.fst

/-- The slot of the last value. -/
def lastId (items : List (SlotId × α)) : Option SlotId :=
  items.getLast?.map Prod.fst

@[simp] theorem firstId_nil : firstId ([] : List (SlotId × α)) = none := rfl

@[simp] theorem firstId_cons (x : SlotId × α) : firstId (x :: s) = some x.1 := rfl

@[simp] theorem lastId_nil : lastId ([] : List (SlotId × α)) = none := rfl

@[simp] theorem lastId_append_cons (x : SlotId × α) :
    lastId (p ++ x :: s) = lastId (x :: s) := by
  rw [lastId, lastId, List.getLast?_append_cons]

@[simp] theorem lastId_cons_cons (x y : SlotId × α) :
    lastId (x :: y :: s) = lastId (y :: s) := by
  rw [lastId, lastId, List.getLast?_cons_cons]

@[simp] theorem lastId_singleton (x : SlotId × α) : lastId [x] = some x.1 := rfl

theorem mem_of_firstId (h : firstId items = some id) : id ∈ items.map Prod.fst := by
  obtain ⟨x, hx, rfl⟩ := Option.map_eq_some_iff.mp h
  exact List.mem_map_of_mem (List.mem_of_head? hx)

theorem mem_of_lastId (h : lastId items = some id) : id ∈ items.map Prod.fst := by
  obtain ⟨x, hx, rfl⟩ := Option.map_eq_some_iff.mp h
  exact List.mem_map_of_mem (List.mem_of_getLast? hx)

theorem not_mem_of_nodup (h : ((p ++ (id, value) :: s).map Prod.fst).Nodup) :
    id ∉ p.map Prod.fst ∧ id ∉ s.map Prod.fst := by
  rw [List.map_append, List.map_cons, List.nodup_middle, List.nodup_cons] at h
  exact ⟨fun hm => h.1 (List.mem_append_left _ hm), fun hm => h.1 (List.mem_append_right _ hm)⟩

theorem not_mem_append_of_nodup (h : ((p ++ (id, value) :: s).map Prod.fst).Nodup) :
    id ∉ (p ++ s).map Prod.fst := by
  obtain ⟨hp, hs⟩ := not_mem_of_nodup h
  rw [List.map_append, List.mem_append]
  rintro (hm | hm)
  · exact hp hm
  · exact hs hm

/-- An element of a concatenation stands in its first or in its second part. -/
theorem append_eq_append_cons {β : Type} {p s q t : List β} {x : β} (h : p ++ s = q ++ x :: t) :
    (∃ r, p = q ++ x :: r ∧ t = r ++ s) ∨ (∃ r, s = r ++ x :: t ∧ q = p ++ r) := by
  rcases List.append_eq_append_iff.mp h with ⟨r, rfl, rfl⟩ | ⟨r, rfl, hr⟩
  · exact .inr ⟨r, rfl, rfl⟩
  · cases r with
    | nil => exact .inr ⟨[], by simpa using hr.symm, by simp⟩
    | cons y r =>
      obtain ⟨rfl, rfl⟩ := List.cons.inj hr
      exact .inl ⟨r, rfl, rfl⟩

/-- The links join the slots of `items` in this order between the head and the tail. -/
structure Linked (l : RecencyList α) (items : List (SlotId × α)) : Prop where
  head : l.head = firstId items
  tail : l.tail = lastId items
  nodup : (items.map Prod.fst).Nodup
  node : ∀ p id value s, items = p ++ (id, value) :: s →
    l.nodes.get? id = some ⟨value, lastId p, firstId s⟩

/-- The list holds `items` in this order and nothing else; `free` is its chain of vacant slots. -/
structure Holds (l : RecencyList α) (items : List (SlotId × α)) (free : List SlotId) : Prop
    extends Linked l items where
  mem_of_contains : ∀ id, l.contains id = true → id ∈ items.map Prod.fst
  vacates : l.nodes.Vacates free

theorem Linked.exists_node (h : l.Linked items) (hm : id ∈ items.map Prod.fst) :
    ∃ p value s, items = p ++ (id, value) :: s ∧
      l.nodes.get? id = some ⟨value, lastId p, firstId s⟩ := by
  obtain ⟨⟨_, value⟩, hx, rfl⟩ := List.mem_map.mp hm
  obtain ⟨p, s, rfl⟩ := List.append_of_mem hx
  exact ⟨p, value, s, rfl, h.node p _ value s rfl⟩

theorem Linked.contains (h : l.Linked items) (hm : id ∈ items.map Prod.fst) :
    l.contains id = true := by
  obtain ⟨p, value, s, -, hn⟩ := h.exists_node hm
  exact Arena.contains_iff.mpr ⟨_, hn⟩

theorem Linked.get?_of_mem (h : l.Linked items) (hm : (id, value) ∈ items) :
    l.get? id = some value := by
  obtain ⟨p, s, rfl⟩ := List.append_of_mem hm
  simp [get?, h.node p id value s rfl]

theorem Holds.contains_iff (h : l.Holds items free) :
    l.contains id = true ↔ id ∈ items.map Prod.fst :=
  ⟨h.mem_of_contains id, h.toLinked.contains⟩

theorem Holds.get?_eq_some_iff (h : l.Holds items free) :
    l.get? id = some value ↔ (id, value) ∈ items := by
  constructor
  · intro hg
    have hc : l.contains id = true := by
      obtain ⟨node, hn, -⟩ := Option.map_eq_some_iff.mp hg
      exact Arena.contains_iff.mpr ⟨node, hn⟩
    obtain ⟨⟨_, v⟩, hm, rfl⟩ := List.mem_map.mp (h.mem_of_contains id hc)
    rw [h.get?_of_mem hm] at hg
    cases hg
    exact hm
  · exact h.get?_of_mem

theorem Holds.get?_eq_none_iff (h : l.Holds items free) :
    l.get? id = none ↔ id ∉ items.map Prod.fst := by
  rw [← h.contains_iff, contains, Arena.contains, get?]
  cases l.nodes.get? id <;> simp

theorem holds_empty : Holds ({} : RecencyList α) [] [] where
  head := rfl
  tail := rfl
  nodup := List.nodup_nil
  node p id value s h := by simp at h
  mem_of_contains id h := by simp [contains, Arena.contains, Arena.get?] at h
  vacates := Arena.vacates_empty

theorem Holds.length_add (h : l.Holds items free) :
    items.length + free.length = l.slotCount := by
  have hids : ∀ id, id ∈ items.map Prod.fst ↔ l.nodes.contains id = true :=
    fun id => h.contains_iff.symm
  have hlen := h.vacates.length_add h.nodup hids
  rwa [List.length_map] at hlen

theorem Holds.len_eq (h : l.Holds items free) : l.len = items.length := by
  have h₁ := h.length_add
  have h₂ := h.vacates.len_add
  simp only [slotCount, len] at *
  omega

section Walk

theorem Linked.walk_eq (h : l.Linked items) : ∀ (s p : List (SlotId × α)) (fuel : Nat),
    items = p ++ s → s.length ≤ fuel → l.walk fuel (firstId s) = s
  | [], p, fuel, _, _ => by cases fuel <;> rfl
  | (id, value) :: s, p, 0, _, hf => absurd hf (by simp)
  | (id, value) :: s, p, fuel + 1, he, hf => by
    have hn := h.node p id value s he
    have ih := h.walk_eq s (p ++ [(id, value)]) fuel (by simpa using he) (by simpa using hf)
    simp [walk, hn, ih]

/-- The walk along the next links finds the sequence. -/
theorem Holds.entries_eq (h : l.Holds items free) : l.entries = items := by
  have hlen := h.length_add
  rw [entries, h.head]
  exact h.walk_eq items [] _ rfl (by omega)

theorem Holds.toList_eq (h : l.Holds items free) : l.toList = items.map Prod.snd := by
  rw [toList, h.entries_eq]

/-- The next link of a stored node, in the form of a step. -/
def nextLink (l : RecencyList α) (id : SlotId) : Option (Option SlotId) :=
  (l.nodes.get? id).map Node.next

/-- The previous link of a stored node, in the form of a step. -/
def prevLink (l : RecencyList α) (id : SlotId) : Option (Option SlotId) :=
  (l.nodes.get? id).map Node.prev

theorem Linked.chain_next (h : l.Linked items) : ∀ s p : List (SlotId × α),
    items = p ++ s → Chain l.nextLink (firstId s) (s.map Prod.fst)
  | [], _, _ => rfl
  | (id, value) :: s, p, he => by
    refine ⟨rfl, firstId s, by simp [nextLink, h.node p id value s he], ?_⟩
    exact h.chain_next s (p ++ [(id, value)]) (by simpa using he)

theorem Linked.chain_prev (h : l.Linked items) : ∀ p s : List (SlotId × α),
    items = p.reverse ++ s → Chain l.prevLink (lastId p.reverse) (p.map Prod.fst)
  | [], _, _ => rfl
  | (id, value) :: p, s, he => by
    rw [List.reverse_cons] at he
    have hn := h.node p.reverse id value s (by simpa using he)
    refine ⟨by simp, lastId p.reverse, by simp [prevLink, hn], ?_⟩
    exact h.chain_prev p ((id, value) :: s) (by simpa using he)

/-- The links pass the occupied slots from end to end, in both directions. -/
theorem Holds.chained (h : l.Holds items free) : ∃ ids : List SlotId,
    Chain l.nextLink l.head ids ∧ Chain l.prevLink l.tail ids.reverse ∧ ids.Nodup ∧
      ids.length = l.len ∧ ∀ id, id ∈ ids ↔ l.contains id = true := by
  refine ⟨items.map Prod.fst, ?_, ?_, h.nodup, ?_, fun id => h.contains_iff.symm⟩
  · rw [h.head]
    exact h.chain_next items [] rfl
  · have hc := h.chain_prev items.reverse [] (by simp)
    rwa [List.reverse_reverse, ← h.tail, List.map_reverse] at hc
  · rw [List.length_map, h.len_eq]

end Walk

section Links

variable (l)

theorem contains_eq_false_iff : l.contains id = false ↔ l.nodes.get? id = none :=
  Arena.contains_eq_false_iff

theorem get?_linkNext (o n : Option SlotId) (j : SlotId) :
    (l.linkNext o n).nodes.get? j = if o = some j then
      (l.nodes.get? j).map fun node => { node with next := n } else l.nodes.get? j := by
  cases o with
  | none => simp [linkNext]
  | some i =>
    cases hc : l.contains i with
    | true => simp [linkNext, Option.filter, hc, Arena.get?_modify]
    | false =>
      have hn := (l.contains_eq_false_iff).mp hc
      by_cases he : i = j
      · subst he; simp [linkNext, Option.filter, hc, hn]
      · simp [linkNext, Option.filter, hc, he]

theorem get?_linkPrev (o n : Option SlotId) (j : SlotId) :
    (l.linkPrev o n).nodes.get? j = if o = some j then
      (l.nodes.get? j).map fun node => { node with prev := n } else l.nodes.get? j := by
  cases o with
  | none => simp [linkPrev]
  | some i =>
    cases hc : l.contains i with
    | true => simp [linkPrev, Option.filter, hc, Arena.get?_modify]
    | false =>
      have hn := (l.contains_eq_false_iff).mp hc
      by_cases he : i = j
      · subst he; simp [linkPrev, Option.filter, hc, hn]
      · simp [linkPrev, Option.filter, hc, he]

theorem contains_linkNext (o n : Option SlotId) (j : SlotId) :
    (l.linkNext o n).contains j = l.contains j := by
  simp only [contains, Arena.contains, get?_linkNext]
  split <;> simp

theorem linkNext_head (o n : Option SlotId) :
    (l.linkNext o n).head = if o.any l.contains then l.head else n := by
  cases o with
  | none => rfl
  | some i => cases hc : l.contains i <;> simp [linkNext, Option.filter, hc]

theorem linkNext_tail (o n : Option SlotId) : (l.linkNext o n).tail = l.tail := by
  unfold linkNext; split <;> rfl

theorem linkPrev_head (o n : Option SlotId) : (l.linkPrev o n).head = l.head := by
  unfold linkPrev; split <;> rfl

theorem linkPrev_tail (o n : Option SlotId) :
    (l.linkPrev o n).tail = if o.any l.contains then l.tail else n := by
  cases o with
  | none => rfl
  | some i => cases hc : l.contains i <;> simp [linkPrev, Option.filter, hc]

variable {l}

theorem vacates_linkNext (h : l.nodes.Vacates free) (o n : Option SlotId) :
    (l.linkNext o n).nodes.Vacates free := by
  unfold linkNext; split
  · exact h.modify _
  · exact h

theorem vacates_linkPrev (h : l.nodes.Vacates free) (o n : Option SlotId) :
    (l.linkPrev o n).nodes.Vacates free := by
  unfold linkPrev; split
  · exact h.modify _
  · exact h

end Links

section Detach

variable {prev next : Option SlotId}

theorem get?_detach (h : l.nodes.get? id = some ⟨value, prev, next⟩) (j : SlotId) :
    (l.detach id).nodes.get? j = (l.nodes.get? j).map fun node =>
      if id = j then { node with prev := none, next := none }
      else { node with
        prev := if next = some j then prev else node.prev
        next := if prev = some j then next else node.next } := by
  simp only [detach, h, Arena.get?_modify, get?_linkPrev, get?_linkNext]
  cases l.nodes.get? j with
  | none => simp
  | some node => split_ifs <;> simp

theorem get?_detach_self (h : l.nodes.get? id = some ⟨value, prev, next⟩) :
    (l.detach id).nodes.get? id = some ⟨value, none, none⟩ := by
  rw [get?_detach h, h]
  simp

theorem detach_head (h : l.nodes.get? id = some ⟨value, prev, next⟩) :
    (l.detach id).head = if prev.any l.contains then l.head else next := by
  simp only [detach, h, linkPrev_head, linkNext_head]

theorem detach_tail (h : l.nodes.get? id = some ⟨value, prev, next⟩) :
    (l.detach id).tail = if next.any l.contains then l.tail else prev := by
  simp only [detach, h, linkPrev_tail, linkNext_tail]
  congr 3
  funext j
  exact l.contains_linkNext _ _ _

theorem contains_detach (j : SlotId) : (l.detach id).contains j = l.contains j := by
  cases h : l.nodes.get? id with
  | none => simp [detach, h]
  | some node => simp [contains, Arena.contains, get?_detach h]

theorem vacates_detach (h : l.nodes.Vacates free) : (l.detach id).nodes.Vacates free := by
  unfold detach
  split
  · exact h
  · exact (vacates_linkPrev (vacates_linkNext h _ _) _ _).modify _

theorem Linked.any_lastId (h : l.Linked (p ++ s)) : (lastId p).any l.contains = !p.isEmpty := by
  cases hl : lastId p with
  | none => simpa [lastId] using hl
  | some i =>
    have hm := mem_of_lastId hl
    have hp : p ≠ [] := by
      rintro rfl
      simp at hm
    simp [h.contains (List.map_append ▸ List.mem_append_left _ hm), hp]

theorem Linked.any_firstId (h : l.Linked (p ++ s)) : (firstId s).any l.contains = !s.isEmpty := by
  cases s with
  | nil => rfl
  | cons x s =>
    have hx : l.contains x.1 = true := h.contains (by simp)
    simp [hx]

variable {q r t : List (SlotId × α)} {j : SlotId} {u : α}

/-- Before a detached node only the next link of its direct neighbour changes. -/
theorem Linked.get?_detach_before (h : l.Linked (q ++ (j, u) :: (r ++ (id, value) :: s))) :
    (l.detach id).nodes.get? j = some ⟨u, lastId q, firstId (r ++ s)⟩ := by
  have hn := h.node (q ++ (j, u) :: r) id value s (by simp)
  have hj := not_mem_of_nodup h.nodup
  rw [get?_detach hn, h.node q j u _ rfl]
  have hne : id ≠ j := by
    rintro rfl
    simp at hj
  have hs : firstId s ≠ some j := by
    intro hf
    exact hj.2 (by simp [mem_of_firstId hf])
  cases r with
  | nil => simp [hne, hs]
  | cons y r =>
    have hr : lastId (y :: r) ≠ some j := by
      intro hl
      rw [List.map_append, List.mem_append] at hj
      exact hj.2 (.inl (mem_of_lastId hl))
    simp [hne, hs, hr]

/-- Behind a detached node only the previous link of its direct neighbour changes. -/
theorem Linked.get?_detach_behind (h : l.Linked ((p ++ (id, value) :: r) ++ (j, u) :: t)) :
    (l.detach id).nodes.get? j = some ⟨u, lastId (p ++ r), firstId t⟩ := by
  have hn := h.node p id value (r ++ (j, u) :: t) (by simp)
  have hj := not_mem_of_nodup h.nodup
  rw [get?_detach hn, h.node _ j u t rfl]
  have hne : id ≠ j := by
    rintro rfl
    simp at hj
  have hp : lastId p ≠ some j := by
    intro hl
    exact hj.1 (by simp [mem_of_lastId hl])
  cases r with
  | nil => simp [hne, hp]
  | cons y r =>
    have hy : y.1 ≠ j := by
      rintro rfl
      simp at hj
    simp [hne, hp, hy]

/-- Detaching joins what stands before and behind. -/
theorem Linked.detach (h : l.Linked (p ++ (id, value) :: s)) :
    (l.detach id).Linked (p ++ s) := by
  have hn := h.node p id value s rfl
  have hs : l.Linked ((p ++ [(id, value)]) ++ s) := by simpa using h
  constructor
  · rw [detach_head hn, h.any_lastId, h.head]
    cases p <;> simp [firstId]
  · rw [detach_tail hn, hs.any_firstId, h.tail]
    cases s <;> simp [lastId]
  · have hsub : (p ++ s).Sublist (p ++ (id, value) :: s) :=
      (List.Sublist.refl p).append (List.sublist_cons_self _ s)
    exact h.nodup.sublist (hsub.map _)
  · intro q j u t he
    rcases append_eq_append_cons he with ⟨r, rfl, rfl⟩ | ⟨r, rfl, rfl⟩
    · have hq : l.Linked (q ++ (j, u) :: (r ++ (id, value) :: s)) := by simpa using h
      exact hq.get?_detach_before
    · have hq : l.Linked ((p ++ (id, value) :: r) ++ (j, u) :: t) := by simpa using h
      exact hq.get?_detach_behind

end Detach

section LinkBack

variable {nodes : Arena (Node α)}

/-- The list over `nodes` in which the node `id` follows the tail. -/
def linkBack (l : RecencyList α) (nodes : Arena (Node α)) (id : SlotId) : RecencyList α :=
  { ({ l with nodes } : RecencyList α).linkNext l.tail (some id) with tail := some id }

theorem Linked.any_tail (h : l.Linked items)
    (hold : ∀ j ∈ items.map Prod.fst, nodes.get? j = l.nodes.get? j) :
    l.tail.any ({ l with nodes } : RecencyList α).contains = !items.isEmpty := by
  cases ht : l.tail with
  | none => simpa [h.tail, lastId] using ht
  | some t =>
    have hm := mem_of_lastId (h.tail.symm.trans ht)
    have hne : items ≠ [] := by
      rintro rfl
      simp at hm
    obtain ⟨p, v, s, -, hn⟩ := h.exists_node hm
    simp [RecencyList.contains, Arena.contains, hold t hm, hn, hne]

theorem Linked.linkBack (h : l.Linked items) (hid : id ∉ items.map Prod.fst)
    (hnew : nodes.get? id = some ⟨value, l.tail, none⟩)
    (hold : ∀ j ∈ items.map Prod.fst, nodes.get? j = l.nodes.get? j) :
    (l.linkBack nodes id).Linked (items ++ [(id, value)]) := by
  constructor
  · rw [RecencyList.linkBack, linkNext_head, h.any_tail hold]
    cases items with
    | nil => rfl
    | cons x s => simp [h.head]
  · simp [RecencyList.linkBack]
  · simpa [List.nodup_append] using ⟨h.nodup, fun j v hj he => hid (by
      simpa using ⟨v, he ▸ hj⟩)⟩
  · intro q j u t he
    rw [RecencyList.linkBack, get?_linkNext]
    rcases append_eq_append_cons he with ⟨r, rfl, rfl⟩ | ⟨r, hr, rfl⟩
    · have hj := not_mem_of_nodup h.nodup
      rw [hold j (by simp), h.node q j u r rfl, h.tail]
      cases r with
      | nil => simp
      | cons y r =>
        have hl : lastId (y :: r) ≠ some j := fun hl => hj.2 (mem_of_lastId hl)
        simp [hl]
    · obtain ⟨rfl, ⟨rfl, rfl⟩, rfl⟩ : r = [] ∧ (id = j ∧ value = u) ∧ t = [] := by
        cases r with
        | nil => simpa [eq_comm] using hr
        | cons y r => simp at hr
      have ht : lastId items ≠ some id := fun ht => hid (mem_of_lastId ht)
      simp [ht, hnew, h.tail]

theorem Linked.holds_linkBack (h : l.Linked items) (hid : id ∉ items.map Prod.fst)
    (hnew : nodes.get? id = some ⟨value, l.tail, none⟩)
    (hold : ∀ j ∈ items.map Prod.fst, nodes.get? j = l.nodes.get? j)
    (hmem : ∀ j, nodes.contains j = true → j = id ∨ j ∈ items.map Prod.fst)
    (hv : nodes.Vacates free) :
    (l.linkBack nodes id).Holds (items ++ [(id, value)]) free where
  toLinked := h.linkBack hid hnew hold
  mem_of_contains j hj := by
    have hc : ({ l with nodes } : RecencyList α).contains j = true := by
      rwa [← contains_linkNext _ l.tail (some id)]
    rcases hmem j hc with rfl | hm
    · simp
    · rw [List.map_append]
      exact List.mem_append_left _ hm
  vacates := vacates_linkNext hv _ _

end LinkBack

section Operations

/-- A new value goes to the slot vacated last, or behind all slots. -/
theorem Holds.pushBack_fst (h : l.Holds items free) (value : α) :
    (l.pushBack value).1 = free.headD l.slotCount :=
  h.vacates.insert_fst _

theorem Holds.headD_not_mem (h : l.Holds items free) :
    free.headD l.slotCount ∉ items.map Prod.fst := by
  rw [← h.contains_iff, contains, Arena.contains, Bool.not_eq_true, Option.isSome_eq_false_iff,
    Option.isNone_iff_eq_none]
  exact h.vacates.get?_headD

theorem pushBack_snd (value : α) :
    (l.pushBack value).2 = l.linkBack (l.nodes.insert ⟨value, l.tail, none⟩).2
      (l.nodes.insert ⟨value, l.tail, none⟩).1 := rfl

theorem Holds.pushBack (h : l.Holds items free) (value : α) :
    (l.pushBack value).2.Holds (items ++ [(free.headD l.slotCount, value)]) free.tail := by
  have hid := h.headD_not_mem
  have hget := h.vacates.get?_insert ⟨value, l.tail, none⟩
  rw [pushBack_snd]
  rw [h.vacates.insert_fst] at hget ⊢
  refine h.toLinked.holds_linkBack hid (by rw [hget]; exact if_pos rfl) ?_ ?_
    (h.vacates.insert _)
  · intro j hj
    have hne : free.headD l.nodes.slotCount ≠ j := fun he => hid (he ▸ hj)
    rw [hget, if_neg hne]
  · intro j hj
    rw [Arena.contains, hget] at hj
    by_cases he : free.headD l.nodes.slotCount = j
    · exact .inl he.symm
    · rw [if_neg he] at hj
      exact .inr (h.mem_of_contains j hj)

/-- The list without the node `id`. -/
def without (l : RecencyList α) (id : SlotId) : RecencyList α :=
  { l.detach id with nodes := (l.detach id).nodes.vacate id }

theorem remove?_eq_none (h : l.get? id = none) : l.remove? id = none := by
  have hn : l.nodes.get? id = none := by simpa [get?] using h
  simp [remove?, detach, hn, Arena.remove?_eq_none]

theorem remove?_eq_some (h : l.get? id = some value) :
    l.remove? id = some (value, l.without id) := by
  obtain ⟨⟨v, prev, next⟩, hn, rfl⟩ := Option.map_eq_some_iff.mp h
  simp [remove?, Arena.remove?_eq_some (get?_detach_self hn), without]

theorem Holds.without (h : l.Holds (p ++ (id, value) :: s) free) :
    (l.without id).Holds (p ++ s) (id :: free) := by
  have hd := h.toLinked.detach
  have hid := not_mem_append_of_nodup h.nodup
  have hn := get?_detach_self (h.node p id value s rfl)
  refine ⟨⟨hd.head, hd.tail, hd.nodup, ?_⟩, ?_, (vacates_detach h.vacates).vacate hn⟩
  · intro q j u t he
    have hne : id ≠ j := by
      rintro rfl
      exact hid (by simp [he])
    rw [RecencyList.without, Arena.get?_vacate, if_neg hne]
    exact hd.node q j u t he
  · intro j hj
    simp only [RecencyList.without, contains, Arena.contains, Arena.get?_vacate] at hj
    by_cases he : id = j
    · simp [he] at hj
    · rw [if_neg he] at hj
      have hc : l.contains j = true := by rwa [← contains_detach]
      have hm := h.mem_of_contains j hc
      simpa [Ne.symm he] using hm

theorem Holds.popFront?_nil (h : l.Holds [] free) : l.popFront? = none := by
  simp [popFront?, h.head]

theorem Holds.popFront?_cons (h : l.Holds ((id, value) :: s) free) :
    l.popFront? = some (id, value, l.without id) := by
  simp [popFront?, h.head, remove?_eq_some (h.get?_of_mem List.mem_cons_self)]

theorem Linked.eq_nil_of_tail (h : l.Linked (p ++ (id, value) :: s)) (ht : l.tail = some id) :
    s = [] := by
  cases s with
  | nil => rfl
  | cons y s =>
    have hl : lastId (y :: s) = some id := by simpa [h.tail] using ht
    exact absurd (mem_of_lastId hl) (not_mem_of_nodup h.nodup).2

/-- Moving a node behind the tail keeps its slot, also if it is the tail already. -/
theorem Holds.moveToBack (h : l.Holds (p ++ (id, value) :: s) free) :
    (l.moveToBack id).Holds (p ++ s ++ [(id, value)]) free := by
  have hc : l.contains id = true := h.contains (by simp)
  by_cases ht : l.tail = some id
  · obtain rfl := h.eq_nil_of_tail ht
    simpa [RecencyList.moveToBack, ht] using h
  · have hd := h.toLinked.detach
    have hid := not_mem_append_of_nodup h.nodup
    have hn := get?_detach_self (h.node p id value s rfl)
    have hback : (l.moveToBack id) = (l.detach id).linkBack ((l.detach id).nodes.modify id
        fun node => { node with prev := (l.detach id).tail, next := none }) id := by
      have ht' : (l.tail != some id) = true := by simpa using ht
      simp [RecencyList.moveToBack, hc, ht', attachBack, contains_detach, RecencyList.linkBack]
    rw [hback]
    refine hd.holds_linkBack hid (by simp [Arena.get?_modify, hn]) ?_ ?_
      ((vacates_detach h.vacates).modify _)
    · intro j hj
      have hne : id ≠ j := fun he => hid (he ▸ hj)
      rw [Arena.get?_modify, if_neg hne]
    · intro j hj
      have hj' : l.contains j = true := by
        rwa [Arena.contains_modify, ← contains, contains_detach] at hj
      have hm := h.mem_of_contains j hj'
      simpa [or_left_comm] using hm

theorem get?_modify (f : α → α) (j : SlotId) :
    (l.modify id f).get? j = if id = j then (l.get? j).map f else l.get? j := by
  simp only [get?, RecencyList.modify, Arena.get?_modify]
  split <;> simp [Function.comp_def]

/-- Changing a value leaves the links alone. -/
theorem Holds.modify (h : l.Holds (p ++ (id, value) :: s) free) (f : α → α) :
    (l.modify id f).Holds (p ++ (id, f value) :: s) free := by
  have hget (j : SlotId) : (l.modify id f).nodes.get? j = if id = j then
      (l.nodes.get? j).map fun node => { node with value := f node.value }
      else l.nodes.get? j := Arena.get?_modify _ _ j
  have hid := not_mem_of_nodup h.nodup
  refine ⟨⟨?_, ?_, by simpa using h.nodup, ?_⟩, ?_, h.vacates.modify _⟩
  · rw [RecencyList.modify, h.head]
    cases p <;> simp
  · rw [RecencyList.modify, h.tail]
    cases s <;> simp
  · intro q j u t he
    rw [hget]
    rcases append_eq_append_cons he with ⟨r, rfl, rfl⟩ | ⟨r, hr, rfl⟩
    · have hne : id ≠ j := by
        rintro rfl
        simp at hid
      rw [if_neg hne, h.node q j u (r ++ (id, value) :: s) (by simp)]
      cases r <;> simp
    · cases r with
      | nil =>
        obtain ⟨⟨rfl, rfl⟩, rfl⟩ : (id = j ∧ f value = u) ∧ s = t := by simpa using hr
        simp [h.node p id value s rfl]
      | cons y r =>
        obtain ⟨rfl, rfl⟩ : (id, f value) = y ∧ s = r ++ (j, u) :: t := by simpa using hr
        have hne : id ≠ j := by
          rintro rfl
          simp at hid
        rw [if_neg hne, h.node (p ++ (id, value) :: r) j u t (by simp)]
        cases r <;> simp
  · intro j hj
    have hc : l.contains j = true := by
      rwa [contains, RecencyList.modify, Arena.contains_modify] at hj
    simpa using h.mem_of_contains j hc

end Operations

section Compact

/-- Values in slots of their own from `start` on. -/
def packed (start : Nat) (values : List α) : List (SlotId × α) :=
  (values.zipIdx start).map Prod.swap

@[simp] theorem packed_nil (start : Nat) : packed start ([] : List α) = [] := rfl

@[simp] theorem packed_cons (start : Nat) (values : List α) :
    packed start (value :: values) = (start, value) :: packed (start + 1) values := rfl

@[simp] theorem length_packed (start : Nat) (values : List α) :
    (packed start values).length = values.length := by
  simp [packed]

@[simp] theorem map_snd_packed (start : Nat) (values : List α) :
    (packed start values).map Prod.snd = values := by
  induction values generalizing start with
  | nil => rfl
  | cons v values ih => simp [ih]

theorem map_fst_packed (start : Nat) (values : List α) :
    (packed start values).map Prod.fst = List.range' start values.length := by
  rw [packed, List.map_map]
  exact List.zipIdx_map_snd start values

theorem Holds.slotCount_eq (h : l.Holds items []) : l.slotCount = items.length := by
  simpa using h.length_add.symm

/-- The values that are left go behind `fresh` in order, each into the next slot. -/
theorem Holds.repack (h : l.Holds items free) {fresh : RecencyList α}
    {moved : List (SlotId × α)} (hm : fresh.Holds moved []) {fuel : Nat}
    (hf : items.length ≤ fuel) :
    (repack fuel l fresh).1 = (items.map Prod.snd).zipIdx moved.length ∧
      (repack fuel l fresh).2.Holds (moved ++ packed moved.length (items.map Prod.snd)) [] := by
  induction items generalizing l free fresh moved fuel with
  | nil =>
    have hp := h.popFront?_nil
    cases fuel <;> simpa [RecencyList.repack, hp] using hm
  | cons x s ih =>
    obtain ⟨id, value⟩ := x
    cases fuel with
    | zero => simp at hf
    | succ fuel =>
      have hp := h.popFront?_cons
      have hfst := hm.pushBack_fst value
      have hnext := hm.pushBack value
      rw [List.headD_nil, hm.slotCount_eq] at hfst hnext
      obtain ⟨h₁, h₂⟩ := ih (h.without (p := [])) hnext (by simpa using hf)
      simp only [RecencyList.repack, hp]
      rw [List.length_append] at h₁ h₂
      constructor
      · simpa [hfst] using h₁
      · simpa using h₂

/-- Compaction keeps the sequence and moves it to the first slots. -/
theorem Holds.compact (h : l.Holds items free) :
    l.compact.1 = (items.map Prod.snd).zipIdx ∧
      l.compact.2.Holds (packed 0 (items.map Prod.snd)) [] := by
  have hlen := h.length_add
  have hf : items.length ≤ l.slotCount := by omega
  exact h.repack holds_empty hf

end Compact

end Lru.RecencyList
