import Lru.Proofs.Cache.Handles
import Lru.Proofs.Neighbours

/-! # Cursors as places

The cursors of a kind visit all entries in one order: the ordered ones from the
least to the most recent, the unordered ones by slot number. A cursor that
stands past the end or on an entry is a place in this order, and each of its
moves is told by that place.
-/

namespace Lru

/-- The key and the value of an entry. -/
def Entry.pair {K V : Type} (e : Entry K V) : K × V :=
  (e.key, e.value)

namespace Cache

variable {K V : Type}

/-- The stored keys and values from the least to the most recent one. -/
def contents (c : Cache K V) : List (K × V) :=
  c.entries.map Entry.pair

/-- The entries with their slots in the order in which the cursors of a kind visit them. -/
def visits (c : Cache K V) : CursorKind → List (SlotId × Entry K V)
  | .ordered => c.order.entries
  | .unordered => c.order.stored

/-- What the cursors of a kind yield, in order. -/
def yields (c : Cache K V) (kind : CursorKind) : List (K × V) :=
  (c.visits kind).map fun y => y.2.pair

/-- The cursor of a kind at a place in its order; behind the last place it is past the end. -/
def nth (c : Cache K V) (kind : CursorKind) (i : Nat) : Cursor :=
  c.cursor kind ((c.visits kind)[i]?.map Prod.fst)

/-- The cursor belongs to the cache, and it is past the end or on an entry. -/
def Hosts (c : Cache K V) (x : Cursor) : Prop :=
  x.owner = c.id ∧ c.Stands x.position

section Lists

variable {α : Type} {l : List (SlotId × α)} {x : SlotId × α} {i : Nat}

theorem split_of_getElem? (h : l[i]? = some x) : l = l.take i ++ x :: l.drop (i + 1) := by
  obtain ⟨hi, rfl⟩ := List.getElem?_eq_some_iff.mp h
  rw [← List.drop_eq_getElem_cons hi, List.take_append_drop]

theorem firstId_drop (l : List (SlotId × α)) (i : Nat) :
    RecencyList.firstId (l.drop i) = l[i]?.map Prod.fst := by
  rw [RecencyList.firstId, List.head?_drop]

theorem lastId_take (h : i < l.length) :
    RecencyList.lastId (l.take (i + 1)) = l[i]?.map Prod.fst := by
  rw [RecencyList.lastId, List.getLast?_take, if_neg (Nat.succ_ne_zero i), Nat.add_sub_cancel,
    List.getElem?_eq_getElem h]
  rfl

end Lists

variable [BEq K] {c : Cache K V} {items p s : List (SlotId × Entry K V)} {free : List SlotId}
  {kind : CursorKind} {x : Cursor} {i : Nat}

section Visits

theorem Holds.visits_perm (h : c.Holds items free) (kind : CursorKind) :
    (c.visits kind).Perm items := by
  cases kind with
  | ordered => rw [visits, h.order.entries_eq]
  | unordered => exact h.order.stored_perm

theorem Holds.contents_eq (h : c.Holds items free) :
    c.contents = items.map fun y => y.2.pair := by
  rw [contents, h.entries_eq, List.map_map]
  rfl

theorem Holds.length_visits (h : c.Holds items free) (kind : CursorKind) :
    (c.visits kind).length = c.len := by
  rw [(h.visits_perm kind).length_eq, h.len_eq]

theorem Holds.length_yields (h : c.Holds items free) (kind : CursorKind) :
    (c.yields kind).length = c.len := by
  rw [yields, List.length_map, h.length_visits]

theorem Holds.get?_of_visits (h : c.Holds items free) {y : SlotId × Entry K V}
    (hy : (c.visits kind)[i]? = some y) : c.order.get? y.1 = some y.2 := by
  have hm : y ∈ c.visits kind := List.mem_of_getElem? hy
  exact h.order.get?_of_mem ((h.visits_perm kind).mem_iff.mp hm)

/-- A cursor of the cache that is past the end or on an entry is one of the places. -/
theorem Holds.exists_nth (h : c.Holds items free) (hx : c.Hosts x) :
    ∃ i ≤ c.len, x = c.nth x.kind i := by
  obtain ⟨owner, kind, position⟩ := x
  obtain ⟨rfl, hstands⟩ := hx
  cases position with
  | none =>
    refine ⟨c.len, Nat.le_refl _, ?_⟩
    rw [nth, List.getElem?_eq_none (Nat.le_of_eq (h.length_visits kind))]
    rfl
  | some id =>
    have hid : id ∈ (c.visits kind).map Prod.fst := by
      rw [((h.visits_perm kind).map Prod.fst).mem_iff]
      exact h.order.contains_iff.mp (hstands id rfl)
    obtain ⟨y, hy, rfl⟩ := List.mem_map.mp hid
    obtain ⟨i, hi, rfl⟩ := List.mem_iff_getElem.mp hy
    refine ⟨i, Nat.le_of_lt (h.length_visits kind ▸ hi), ?_⟩
    rw [nth, List.getElem?_eq_getElem hi]
    rfl

theorem Holds.hosts_nth (h : c.Holds items free) (kind : CursorKind) (i : Nat) :
    c.Hosts (c.nth kind i) := by
  refine ⟨rfl, h.stands_of_mem ?_⟩
  intro id hid
  obtain ⟨y, hy, rfl⟩ := Option.map_eq_some_iff.mp hid
  exact List.mem_map_of_mem ((h.visits_perm kind).mem_iff.mp (List.mem_of_getElem? hy))

theorem Holds.nth_inj (h : c.Holds items free) {j : Nat} (hi : i ≤ c.len) (hj : j ≤ c.len)
    (he : c.nth kind i = c.nth kind j) : i = j := by
  have hnodup : ((c.visits kind).map Prod.fst).Nodup :=
    ((h.visits_perm kind).map Prod.fst).nodup_iff.mpr h.order.nodup
  have hlen : ((c.visits kind).map Prod.fst).length = c.len := by
    rw [List.length_map, h.length_visits]
  have hat : ((c.visits kind).map Prod.fst)[i]? = ((c.visits kind).map Prod.fst)[j]? := by
    rw [List.getElem?_map, List.getElem?_map]
    exact congrArg Cursor.position he
  rcases Nat.lt_or_eq_of_le hi with hi | rfl
  · exact (List.getElem?_inj (hlen ▸ hi) hnodup).mp hat
  · rcases Nat.lt_or_eq_of_le hj with hj | rfl
    · exact ((List.getElem?_inj (hlen ▸ hj) hnodup).mp hat.symm).symm
    · rfl

theorem Holds.isEnd_nth (h : c.Holds items free) (kind : CursorKind) (hi : i ≤ c.len) :
    (c.nth kind i).isEnd = true ↔ i = c.len := by
  rw [← h.length_visits kind] at hi ⊢
  simp only [nth, cursor, Cursor.isEnd, Option.isNone_map, Option.isNone_iff_eq_none,
    List.getElem?_eq_none_iff]
  omega

end Visits

section Moves

theorem Holds.entryAt_nth (h : c.Holds items free) (kind : CursorKind) (i : Nat) :
    c.entryAt (c.nth kind i) = (c.yields kind)[i]?.elim (.error .pastTheEnd) .ok := by
  rw [yields, List.getElem?_map]
  cases hy : (c.visits kind)[i]? with
  | none => simp [entryAt, nth, cursor, hy]
  | some y =>
    have hg := h.get?_of_visits hy
    simp [entryAt, nth, cursor, hy, hg, Entry.pair]

theorem Holds.advance_nth (h : c.Holds items free) (kind : CursorKind) (i : Nat) :
    c.advance (c.nth kind i) = c.nth kind (i + 1) := by
  cases hy : (c.visits kind)[i]? with
  | none =>
    have hnext : (c.visits kind)[i + 1]? = none := by
      rw [List.getElem?_eq_none_iff] at hy ⊢
      exact Nat.le_succ_of_le hy
    cases kind <;> simp [advance, nth, cursor, hy, hnext]
  | some y =>
    have hsplit := split_of_getElem? hy
    have hnext := firstId_drop (c.visits kind) (i + 1)
    cases kind with
    | ordered =>
      have hlinked := h.order.toLinked
      rw [← h.order.entries_eq, show c.order.entries = _ from hsplit] at hlinked
      simp [advance, nth, cursor, hy, hlinked.nextId_eq, hnext]
    | unordered =>
      have hstored : c.order.nextInStorage y.1 = _ := RecencyList.nextInStorage_eq hsplit
      simp [advance, nth, cursor, hy, hstored, hnext]

theorem Holds.nth_min (h : c.Holds items free) (kind : CursorKind) (i : Nat) :
    c.nth kind (min i c.len) = c.nth kind i := by
  rcases Nat.le_total i c.len with hi | hi
  · rw [Nat.min_eq_left hi]
  · have hlen := h.length_visits kind
    rw [Nat.min_eq_right hi, nth, nth, List.getElem?_eq_none (by omega),
      List.getElem?_eq_none (by omega)]

theorem Holds.next?_nth (h : c.Holds items free) (kind : CursorKind) (i : Nat) :
    c.next? (c.nth kind i) = (c.yields kind)[i]?.map (·, c.nth kind (i + 1)) := by
  rw [next?, h.entryAt_nth, h.advance_nth]
  cases (c.yields kind)[i]? <;> rfl

theorem Holds.retreat?_nth_zero (h : c.Holds items free) :
    c.retreat? (c.nth .ordered 0) = none := by
  have hentries := h.order.entries_eq
  cases items with
  | nil => simp [retreat?, nth, cursor, visits, hentries, h.order.tail]
  | cons y s =>
    have hprev := h.order.toLinked.prevId_eq (p := [])
    simp [retreat?, nth, cursor, visits, hentries, hprev]

/-- One place back, also from behind the last entry. -/
theorem Holds.retreat?_nth_succ (h : c.Holds items free) (hi : i < c.len) :
    c.retreat? (c.nth .ordered (i + 1)) = some (c.nth .ordered i) := by
  rw [← h.length_visits .ordered] at hi
  have hlast := lastId_take hi
  have hlinked := h.order.toLinked
  rw [← h.order.entries_eq] at hlinked
  obtain ⟨z, hz⟩ : ∃ z, (c.visits .ordered)[i]? = some z := ⟨_, List.getElem?_eq_getElem hi⟩
  rw [hz] at hlast
  cases hy : (c.visits .ordered)[i + 1]? with
  | none =>
    have htail : c.order.tail = some z.1 := by
      rw [List.getElem?_eq_none_iff] at hy
      rw [List.take_of_length_le hy] at hlast
      rw [hlinked.tail]
      exact hlast
    simp [retreat?, nth, cursor, hy, hz, htail]
  | some y =>
    have hprev : c.order.prevId y.1 = some z.1 := by
      rw [show c.order.entries = _ from split_of_getElem? hy] at hlinked
      rw [hlinked.prevId_eq]
      exact hlast
    simp [retreat?, nth, cursor, hy, hz, hprev]

theorem Holds.drain_nth (h : c.Holds items free) (kind : CursorKind) (i fuel : Nat) :
    c.drain fuel (c.nth kind i) = ((c.yields kind).drop i).take fuel := by
  induction fuel generalizing i with
  | zero => simp [drain]
  | succ fuel ih =>
    rw [drain, h.next?_nth]
    cases hy : (c.yields kind)[i]? with
    | none =>
      have hdrop : (c.yields kind).drop i = [] :=
        List.drop_of_length_le (List.getElem?_eq_none_iff.mp hy)
      simp [hdrop]
    | some y =>
      obtain ⟨hi, rfl⟩ := List.getElem?_eq_some_iff.mp hy
      rw [List.drop_eq_getElem_cons hi, List.take_succ_cons, ← ih (i + 1)]
      rfl

/-- No drain takes more steps than there are entries. -/
theorem Holds.drain_of_le (h : c.Holds items free) (kind : CursorKind) (i : Nat) {fuel : Nat}
    (hf : c.len ≤ fuel) : c.drain fuel (c.nth kind i) = (c.yields kind).drop i := by
  rw [h.drain_nth, List.take_of_length_le]
  rw [List.length_drop, h.length_yields]
  omega

theorem Holds.rest_nth (h : c.Holds items free) (kind : CursorKind) (i : Nat) :
    c.rest (c.nth kind i) = (c.yields kind).drop i := by
  apply h.drain_of_le
  rw [h.len_eq, ← h.order.length_add]
  exact Nat.le_add_right _ _

end Moves

section Starts

theorem Holds.begin_nth (h : c.Holds items free) :
    c.orderedBegin = c.nth .ordered 0 ∧ c.unorderedBegin = c.nth .unordered 0 := by
  constructor
  · rw [orderedBegin, h.order.head, ← h.order.entries_eq, ← List.drop_zero (l := c.order.entries),
      firstId_drop]
    rfl
  · rw [unorderedBegin, c.order.firstInStorage_eq, ← List.drop_zero (l := c.order.stored),
      firstId_drop]
    rfl

theorem Holds.end_nth (h : c.Holds items free) (kind : CursorKind) :
    c.cursor kind none = c.nth kind c.len := by
  rw [nth, List.getElem?_eq_none (Nat.le_of_eq (h.length_visits kind))]
  rfl

theorem Holds.hosts_startCursor [EquivBEq K] (h : c.Holds items free) {now : Instant}
    {start : Cursor.Start K} (hs : ∀ kind g, start = .handle kind g → c.Stands g.slot)
    (hx : (c.startCursor now start).result = .ok x) : (c.startCursor now start).cache.Hosts x := by
  refine ⟨?_, h.stands_startCursor hs hx⟩
  cases start with
  | find key =>
    have hid : (c.resolve now key).cache.id = c.id := (h.drifts.resolve_ages now key).id
    cases hx
    exact hid.symm
  | handle kind g =>
    obtain ⟨slot, -, rfl⟩ := exists_of_map_eq_ok hx
    rfl
  | _ =>
    cases hx
    rfl

omit [BEq K] in
theorem owner_moveCursor (c : Cache K V) (x : Cursor) (move : Cursor.Move) :
    (c.moveCursor x move).2.owner = x.owner := by
  cases move with
  | retreat =>
    cases hr : c.retreat? x with
    | none => simp [moveCursor, hr]
    | some y =>
      obtain ⟨j, -, rfl⟩ := Option.map_eq_some_iff.mp hr
      simp [moveCursor, hr]
  | next =>
    cases he : c.entryAt x <;> simp [moveCursor, next?, he, advance]
  | toOrdered => cases hp : x.position <;> simp [moveCursor, Cursor.toOrdered, hp]
  | _ => rfl

theorem Holds.hosts_walkCursor (h : c.Holds items free) (hx : c.Hosts x)
    (moves : List Cursor.Move) : c.Hosts (c.walkCursor x moves).2 := by
  induction moves generalizing x with
  | nil => exact hx
  | cons move moves ih =>
    have hmove : c.Hosts (c.moveCursor x move).2 :=
      ⟨(c.owner_moveCursor x move).trans hx.1, h.stands_moveCursor hx.2 move⟩
    exact ih hmove

end Starts

end Cache

end Lru
