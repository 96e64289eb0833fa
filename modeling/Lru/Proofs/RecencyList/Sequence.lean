import Lru.Proofs.Neighbours
import Mathlib.Data.List.Induction

/-! # A recency list is a sequence

Whatever slots the requests name, the links of a recency list stay in order: they
join neighbours both ways and pass every stored value once. Read along them the
list is a sequence of values in slots of their own, and every request does to
this sequence what its name says.
-/

namespace Lru.RecencyList

variable {α : Type}

section Definitions

/-- What a request makes of a sequence of values with their slots, and how it is answered. -/
inductive Step : List (SlotId × α) → Command α → Answer α → List (SlotId × α) → Prop
  /-- The slot is one that is not in use. -/
  | pushBack {items id} (value) : id ∉ items.map Prod.fst →
      Step items (.pushBack value) (.slot id) (items ++ [(id, value)])
  | popFront {id value s} :
      Step ((id, value) :: s) .popFront (.front (some (id, value))) s
  | popFront_nil : Step [] .popFront (.front none) []
  | remove {p id value s} :
      Step (p ++ (id, value) :: s) (.remove id) (.value (some value)) (p ++ s)
  | remove_absent {items id} : id ∉ items.map Prod.fst →
      Step items (.remove id) (.value none) items
  | moveToBack {p id value s} :
      Step (p ++ (id, value) :: s) (.moveToBack id) (.moved true) (p ++ s ++ [(id, value)])
  | moveToBack_absent {items id} : id ∉ items.map Prod.fst →
      Step items (.moveToBack id) (.moved false) items
  | set {p id value s} (new) :
      Step (p ++ (id, value) :: s) (.set id new) (.value (some value)) (p ++ (id, new) :: s)
  | set_absent {items id} (new) : id ∉ items.map Prod.fst →
      Step items (.set id new) (.value none) items
  /-- Each value is reported with its place, which is its new slot. -/
  | compact {items} : Step items .compact (.repacked (items.map Prod.snd).zipIdx)
      ((items.map Prod.snd).zipIdx.map Prod.swap)
  | clear {items} : Step items .clear .done []

/-- The links between the ends pass every stored value, the same way back and forth. -/
structure Formed (l : RecencyList α) : Prop where
  wellLinked : l.wellLinked = true
  ends : l.head = none ↔ l.tail = none
  inverse : ∀ i j, l.nextId i = some j ↔ l.prevId j = some i
  /-- The links from the head pass the entries and end there, and so do those from the tail. -/
  forward : Chain l.nextLink l.head (l.entries.map Prod.fst)
  backward : Chain l.prevLink l.tail (l.entries.map Prod.fst).reverse
  nodup : (l.entries.map Prod.fst).Nodup
  occupied : ∀ id, id ∈ l.entries.map Prod.fst ↔ l.contains id = true

/-- What is asked about the list is answered from the sequence. -/
structure Reads (l : RecencyList α) (items : List (SlotId × α)) : Prop where
  toList : l.toList = items.map Prod.snd
  len : l.len = items.length
  get? : ∀ id value, l.get? id = some value ↔ (id, value) ∈ items
  head : l.head = items.head?.map Prod.fst
  front? : l.front? = items.head?.map Prod.snd
  tail : l.tail = items.getLast?.map Prod.fst
  back? : l.back? = items.getLast?.map Prod.snd
  neighbours : ∀ p id value s, items = p ++ (id, value) :: s →
    l.prevId id = lastId p ∧ l.nextId id = firstId s
  strangers : ∀ id, id ∉ items.map Prod.fst →
    l.get? id = none ∧ l.prevId id = none ∧ l.nextId id = none

/-- A request for a slot that holds no value leaves everything as it is, and packing leaves no
vacant slot. -/
structure Keeps (l : RecencyList α) : Prop where
  remove : ∀ id, l.contains id = false → l.perform (.remove id) = (.value none, l)
  moveToBack : ∀ id, l.contains id = false → l.perform (.moveToBack id) = (.moved false, l)
  set : ∀ id value, l.contains id = false → l.perform (.set id value) = (.value none, l)
  compact : l.compact.2.slotCount = l.len

end Definitions

variable {l : RecencyList α} {items p s : List (SlotId × α)} {free : List SlotId} {id : SlotId}
  {value : α}

section Links

theorem Linked.wellLinkedFrom (h : l.Linked items) : ∀ (s p : List (SlotId × α))
    (seen : List SlotId), items = p ++ s → (∀ id ∈ seen, id ∈ p.map Prod.fst) →
      l.wellLinkedFrom seen (lastId p) s.length (firstId s) = true
  | [], p, seen, he, _ => by
    rw [List.append_nil] at he
    simp [RecencyList.wellLinkedFrom, h.tail, he]
  | (id, value) :: s, p, seen, he, hseen => by
    have hn := h.node p id value s he
    have hid : id ∉ seen := by
      -- The nodes seen so far stand in front, in other slots.
      intro hm
      have hnodup := h.nodup
      rw [he] at hnodup
      exact (not_mem_of_nodup hnodup).1 (hseen id hm)
    have hrest := h.wellLinkedFrom s (p ++ [(id, value)]) (id :: seen) (by simpa using he) (by
      intro j hj
      rw [List.map_append, List.mem_append]
      rcases List.mem_cons.mp hj with rfl | hj
      · exact .inr List.mem_cons_self
      · exact .inl (hseen j hj))
    rw [lastId_append_cons, lastId_singleton] at hrest
    simp [RecencyList.wellLinkedFrom, hid, hn, hrest]

theorem Holds.wellLinked (h : l.Holds items free) : l.wellLinked = true := by
  have hwalk := h.wellLinkedFrom items [] [] rfl fun id hid => absurd hid List.not_mem_nil
  rwa [RecencyList.wellLinked, h.len_eq, h.head]

theorem Holds.node_of_absent (h : l.Holds items free) (ha : id ∉ items.map Prod.fst) :
    l.nodes.get? id = none := by
  rw [← contains_eq_false_iff, Bool.eq_false_iff, ne_eq, h.contains_iff]
  exact ha

/-- A next link joins two values of which one directly follows the other. -/
theorem Holds.nextId_eq_some_iff (h : l.Holds items free) {i j : SlotId} :
    l.nextId i = some j ↔ ∃ p v w s, items = p ++ (i, v) :: (j, w) :: s := by
  constructor
  · intro hnext
    by_cases hm : i ∈ items.map Prod.fst
    · obtain ⟨p, v, s, rfl, -⟩ := h.exists_node hm
      rw [h.toLinked.nextId_eq] at hnext
      cases s with
      | nil => cases hnext
      | cons x s =>
        obtain rfl := Option.some.inj hnext
        exact ⟨p, v, x.2, s, rfl⟩
    · rw [nextId, h.node_of_absent hm] at hnext
      cases hnext
  · rintro ⟨p, v, w, s, rfl⟩
    exact h.toLinked.nextId_eq

theorem Holds.prevId_eq_some_iff (h : l.Holds items free) {i j : SlotId} :
    l.prevId j = some i ↔ ∃ p v w s, items = p ++ (i, v) :: (j, w) :: s := by
  constructor
  · intro hprev
    by_cases hm : j ∈ items.map Prod.fst
    · obtain ⟨p, w, s, rfl, -⟩ := h.exists_node hm
      rw [h.toLinked.prevId_eq] at hprev
      cases p using List.reverseRecOn with
      | nil => cases hprev
      | append_singleton p x =>
        rw [lastId_append_cons, lastId_singleton] at hprev
        obtain rfl := Option.some.inj hprev
        exact ⟨p, x.2, w, s, List.append_assoc ..⟩
    · rw [prevId, h.node_of_absent hm] at hprev
      cases hprev
  · rintro ⟨p, v, w, s, rfl⟩
    have hsplit : p ++ (i, v) :: (j, w) :: s = (p ++ [(i, v)]) ++ (j, w) :: s := by simp
    rw [hsplit] at h
    rw [h.toLinked.prevId_eq, lastId_append_cons, lastId_singleton]

theorem Holds.ends_iff (h : l.Holds items free) : l.head = none ↔ l.tail = none := by
  rw [h.head, h.tail, firstId, lastId, Option.map_eq_none_iff, Option.map_eq_none_iff,
    List.head?_eq_none_iff, List.getLast?_eq_none_iff]

theorem Holds.formed (h : l.Holds items free) : l.Formed where
  wellLinked := h.wellLinked
  ends := h.ends_iff
  inverse i j := by rw [h.nextId_eq_some_iff, h.prevId_eq_some_iff]
  forward := by
    rw [h.entries_eq, h.head]
    exact h.chain_next items [] rfl
  backward := by
    have hc := h.chain_prev items.reverse [] (by simp)
    rwa [List.reverse_reverse, ← h.tail, List.map_reverse, ← h.entries_eq] at hc
  nodup := by
    rw [h.entries_eq]
    exact h.nodup
  occupied id := by rw [h.entries_eq, h.contains_iff]

end Links

section Reading

theorem Holds.front?_eq (h : l.Holds items free) : l.front? = items.head?.map Prod.snd := by
  rw [front?, h.head]
  cases items with
  | nil => rfl
  | cons x s => exact h.get?_of_mem List.mem_cons_self

theorem Holds.back?_eq (h : l.Holds items free) : l.back? = items.getLast?.map Prod.snd := by
  rw [back?, h.tail]
  cases items using List.reverseRecOn with
  | nil => rfl
  | append_singleton p x =>
    rw [lastId_append_cons, lastId_singleton, List.getLast?_append_cons]
    exact h.get?_of_mem List.mem_concat_self

theorem Holds.reads (h : l.Holds items free) : l.Reads items where
  toList := h.toList_eq
  len := h.len_eq
  get? _ _ := h.get?_eq_some_iff
  head := h.head
  front? := h.front?_eq
  tail := h.tail
  back? := h.back?_eq
  neighbours p id value s he := by
    subst he
    exact ⟨h.toLinked.prevId_eq, h.toLinked.nextId_eq⟩
  strangers id ha := by
    rw [get?, prevId, nextId, h.node_of_absent ha]
    exact ⟨rfl, rfl, rfl⟩

end Reading

section Requests

theorem modify_of_absent (ha : l.contains id = false) (f : α → α) : l.modify id f = l := by
  rw [modify, Arena.modify_of_vacant _ _ (contains_eq_false_iff l |>.mp ha)]

theorem get?_of_not_contains (ha : l.contains id = false) : l.get? id = none := by
  rw [get?, (contains_eq_false_iff l).mp ha]
  rfl

theorem Holds.keeps (h : l.Holds items free) : l.Keeps where
  remove id ha := by rw [RecencyList.perform, remove?_eq_none (get?_of_not_contains ha)]
  moveToBack id ha := by
    rw [RecencyList.perform, RecencyList.moveToBack, ha]
    rfl
  set id value ha := by rw [RecencyList.perform, get?_of_not_contains ha, modify_of_absent ha]
  compact := by
    rw [h.compact.2.slotCount_eq, length_packed, List.length_map, h.len_eq]

/-- A slot holds none of the values, or its value splits the sequence. -/
theorem absent_or (id : SlotId) (items : List (SlotId × α)) :
    id ∉ items.map Prod.fst ∨ ∃ p value s, items = p ++ (id, value) :: s := by
  by_cases hm : id ∈ items.map Prod.fst
  · obtain ⟨⟨_, value⟩, hx, rfl⟩ := List.mem_map.mp hm
    obtain ⟨p, s, rfl⟩ := List.append_of_mem hx
    exact .inr ⟨p, value, s, rfl⟩
  · exact .inl hm

theorem Holds.not_contains (h : l.Holds items free) (ha : id ∉ items.map Prod.fst) :
    l.contains id = false :=
  (contains_eq_false_iff l).mpr (h.node_of_absent ha)

theorem Holds.get?_middle (h : l.Holds (p ++ (id, value) :: s) free) : l.get? id = some value :=
  h.get?_of_mem (List.mem_append_right p List.mem_cons_self)

theorem Holds.popFront (h : l.Holds items free) : ∃ items' free',
    (l.perform .popFront).2.Holds items' free' ∧
      Step items .popFront (l.perform .popFront).1 items' := by
  cases items with
  | nil =>
    rw [RecencyList.perform, h.popFront?_nil]
    exact ⟨[], free, h, .popFront_nil⟩
  | cons x s =>
    rw [RecencyList.perform, h.popFront?_cons]
    exact ⟨s, _, h.without (p := []), .popFront⟩

/-- Each request makes of the list what it makes of the sequence. -/
theorem Holds.perform (h : l.Holds items free) (c : Command α) :
    ∃ items' free', (l.perform c).2.Holds items' free' ∧ Step items c (l.perform c).1 items' := by
  cases c with
  | pushBack value =>
    refine ⟨_, _, h.pushBack value, ?_⟩
    have hstep := Step.pushBack value h.headD_not_mem
    rwa [← h.pushBack_fst value] at hstep ⊢
  | popFront => exact h.popFront
  | remove id =>
    rcases absent_or id items with ha | ⟨p, value, s, rfl⟩
    · rw [h.keeps.remove id (h.not_contains ha)]
      exact ⟨items, free, h, .remove_absent ha⟩
    · rw [RecencyList.perform, remove?_eq_some h.get?_middle]
      exact ⟨p ++ s, _, h.without, .remove⟩
  | moveToBack id =>
    rcases absent_or id items with ha | ⟨p, value, s, rfl⟩
    · rw [h.keeps.moveToBack id (h.not_contains ha)]
      exact ⟨items, free, h, .moveToBack_absent ha⟩
    · rw [RecencyList.perform, h.contains (by simp)]
      exact ⟨_, free, h.moveToBack, .moveToBack⟩
  | set id new =>
    rcases absent_or id items with ha | ⟨p, value, s, rfl⟩
    · rw [h.keeps.set id new (h.not_contains ha)]
      exact ⟨items, free, h, .set_absent new ha⟩
    · rw [RecencyList.perform, h.get?_middle]
      exact ⟨_, free, h.modify fun _ => new, .set new⟩
  | compact =>
    obtain ⟨hmoves, h'⟩ := h.compact
    have hanswer : (l.perform .compact).1 = .repacked l.compact.1 := rfl
    refine ⟨_, _, h', ?_⟩
    rw [hanswer, hmoves]
    exact .compact
  | clear => exact ⟨[], [], holds_empty, .clear⟩

end Requests

theorem run_concat (l : RecencyList α) (history : List (Command α)) (c : Command α) :
    l.run (history ++ [c]) = ((l.run history).perform c).2 :=
  List.foldl_concat ..

theorem exists_holds_run (history : List (Command α)) :
    ∃ items free, (run {} history).Holds items free := by
  induction history using List.reverseRecOn with
  | nil => exact ⟨[], [], holds_empty⟩
  | append_singleton history c ih =>
    obtain ⟨items, free, h⟩ := ih
    obtain ⟨items', free', h', -⟩ := h.perform c
    rw [run_concat]
    exact ⟨items', free', h'⟩

/-- After every run from the empty list the links are in order, and every further request does to
the sequence of its entries what its name says. -/
theorem run_sequence (history : List (Command α)) :
    (run {} history).Formed ∧ (run {} history).Reads (run {} history).entries ∧
    (run {} history).Keeps ∧
    ∀ c, Step (run {} history).entries c ((run {} history).perform c).1
      ((run {} history).perform c).2.entries := by
  obtain ⟨items, free, h⟩ := exists_holds_run history
  refine ⟨h.formed, ?_, h.keeps, ?_⟩
  · rw [h.entries_eq]
    exact h.reads
  · intro c
    obtain ⟨items', free', h', hstep⟩ := h.perform c
    rw [h.entries_eq, h'.entries_eq]
    exact hstep

-- The head goes behind the tail and keeps its slot.
example : (({} : RecencyList Nat).run [.pushBack 10, .pushBack 20, .moveToBack 0]).entries =
    [(1, 20), (0, 10)] := by
  decide

end Lru.RecencyList
