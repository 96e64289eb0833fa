import Lru.Proofs.Cache.Cursors
import Lru.Proofs.History.Handles

/-! # Walks with cursors

In every reachable state a cursor is a place in the order of its kind, however
it was opened and whatever steps it took: the entries are numbered from `0` on,
and the number behind the last one is the end. The steps are arithmetic on
these numbers.
-/

namespace Lru.Cache

variable {K V : Type}

/-- The cursors of a cache behave as the numbers from `0` to the number of entries, which is the
end. -/
structure Walks (c : Cache K V) : Prop where
  /-- Ordered cursors visit the entries in recency order. -/
  ordered : c.yields .ordered = c.contents
  /-- Unordered cursors visit them by increasing slot number. -/
  unordered : c.yields .unordered = c.storedEntries.map Entry.pair
  increasing : (c.visits .unordered).Pairwise fun x y => x.1 < y.1
  perm : (c.visits .unordered).Perm (c.visits .ordered)
  length : ∀ kind, (c.visits kind).length = c.len
  begins : c.orderedBegin = c.nth .ordered 0 ∧ c.unorderedBegin = c.nth .unordered 0
  ends : c.orderedEnd = c.nth .ordered c.len ∧ c.unorderedEnd = c.nth .unordered c.len
  distinct : ∀ kind, ∀ i ≤ c.len, ∀ j ≤ c.len, c.nth kind i = c.nth kind j → i = j
  isEnd : ∀ kind, ∀ i ≤ c.len, (c.nth kind i).isEnd = true ↔ i = c.len
  entry : ∀ kind, ∀ i ≤ c.len,
    c.entryAt (c.nth kind i) = (c.yields kind)[i]?.elim (.error .pastTheEnd) .ok
  pastTheEnd : ∀ kind, ∀ i ≤ c.len, c.entryAt (c.nth kind i) = .error .pastTheEnd ↔ i = c.len
  advance : ∀ kind, ∀ i ≤ c.len, c.advance (c.nth kind i) = c.nth kind (min (i + 1) c.len)
  next : ∀ kind, ∀ i ≤ c.len, c.moveCursor (c.nth kind i) .next =
    (.next (c.yields kind)[i]?, c.nth kind (min (i + 1) c.len))
  retreat : ∀ i ≤ c.len, c.moveCursor (c.nth .ordered i) .retreat =
    (.flag (decide (0 < i)), c.nth .ordered (i - 1))
  retreat_advance : ∀ i < c.len,
    c.moveCursor (c.advance (c.nth .ordered i)) .retreat = (.flag true, c.nth .ordered i)
  advance_retreat : ∀ i ≤ c.len, 0 < i →
    c.advance (c.moveCursor (c.nth .ordered i) .retreat).2 = c.nth .ordered i
  /-- A cursor that changes its kind stays in its slot. -/
  toUnordered : ∀ kind, ∀ i ≤ c.len, ∃ j ≤ c.len,
    (c.nth kind i).toUnordered = c.nth .unordered j ∧
      (c.nth .unordered j).position = (c.nth kind i).position
  toOrdered : ∀ kind, ∀ i < c.len, ∃ j < c.len,
    (c.nth kind i).toOrdered = .ok (c.nth .ordered j) ∧
      (c.nth .ordered j).position = (c.nth kind i).position
  endNotOrdered : ∀ kind, (c.nth kind c.len).toOrdered = .error .endNotOrdered
  drain : ∀ kind, ∀ i ≤ c.len, ∀ fuel, c.len ≤ fuel →
    c.drain fuel (c.nth kind i) = (c.yields kind).drop i
  rest : ∀ kind, ∀ i ≤ c.len, c.rest (c.nth kind i) = (c.yields kind).drop i

/-- A walk from `c`, which leaves `d`, has come to a place, and goes on from there. -/
structure Walked [BEq K] (c : Cache K V) (now : Instant) (start : Cursor.Start K)
    (moves : List Cursor.Move) (answers : List (Cursor.Answer K V)) (x : Cursor) (d : Cache K V) :
    Prop where
  cache : (c.walk now start moves).cache = d
  result : (c.walk now start moves).result = .ok (answers, x)
  further : ∀ move, (c.walk now start (moves ++ [move])).result =
    .ok (answers ++ [(d.moveCursor x move).1], (d.moveCursor x move).2)
  walks : d.Walks
  entries : d.entries = c.entries
  place : ∃ i ≤ d.len, x = d.nth x.kind i

variable [BEq K] {c : Cache K V} {items p s : List (SlotId × Entry K V)} {free : List SlotId}
  {kind : CursorKind} {x : Cursor} {i : Nat}

section Laws

theorem Holds.pastTheEnd_nth (h : c.Holds items free) (kind : CursorKind) (hi : i ≤ c.len) :
    c.entryAt (c.nth kind i) = .error .pastTheEnd ↔ i = c.len := by
  have hlen := h.length_yields kind
  rw [h.entryAt_nth]
  cases hy : (c.yields kind)[i]? with
  | none =>
    rw [List.getElem?_eq_none_iff, hlen] at hy
    simp only [Option.elim_none, true_iff]
    exact Nat.le_antisymm hi hy
  | some y =>
    have hlt := (List.getElem?_eq_some_iff.mp hy).1
    simp only [Option.elim_some, reduceCtorEq, false_iff]
    omega

theorem Holds.moveCursor_next (h : c.Holds items free) (kind : CursorKind) (hi : i ≤ c.len) :
    c.moveCursor (c.nth kind i) .next =
      (.next (c.yields kind)[i]?, c.nth kind (min (i + 1) c.len)) := by
  have hlen := h.length_yields kind
  simp only [moveCursor, h.next?_nth, h.nth_min]
  cases hy : (c.yields kind)[i]? with
  | none =>
    -- Past the end the cursor stays, and so does the number.
    rw [List.getElem?_eq_none_iff, hlen] at hy
    obtain rfl := Nat.le_antisymm hi hy
    rw [← h.nth_min kind (c.len + 1), Nat.min_eq_right (Nat.le_succ _)]
    rfl
  | some y => rfl

theorem Holds.moveCursor_retreat (h : c.Holds items free) (hi : i ≤ c.len) :
    c.moveCursor (c.nth .ordered i) .retreat =
      (.flag (decide (0 < i)), c.nth .ordered (i - 1)) := by
  cases i with
  | zero => simp [moveCursor, h.retreat?_nth_zero]
  | succ i => simp [moveCursor, h.retreat?_nth_succ hi]

theorem Holds.exists_nth_of_kind (h : c.Holds items free) (kind kind' : CursorKind)
    (hi : i ≤ c.len) : ∃ j ≤ c.len, c.cursor kind' (c.nth kind i).position = c.nth kind' j ∧
      (c.nth kind' j).position = (c.nth kind i).position ∧ (j = c.len ↔ i = c.len) := by
  have hosts : c.Hosts (c.cursor kind' (c.nth kind i).position) :=
    ⟨rfl, (h.hosts_nth kind i).2⟩
  obtain ⟨j, hj, (he : c.cursor kind' (c.nth kind i).position = c.nth kind' j)⟩ :=
    h.exists_nth hosts
  have hposition : (c.nth kind' j).position = (c.nth kind i).position := by
    rw [← he]
    rfl
  refine ⟨j, hj, he, hposition, ?_⟩
  rw [← h.isEnd_nth kind hi, ← h.isEnd_nth kind' hj, Cursor.isEnd, Cursor.isEnd, hposition]

theorem Holds.toOrdered_nth (h : c.Holds items free) (kind : CursorKind) (hi : i < c.len) :
    ∃ j < c.len, (c.nth kind i).toOrdered = .ok (c.nth .ordered j) ∧
      (c.nth .ordered j).position = (c.nth kind i).position := by
  obtain ⟨j, hj, he, hposition, hiff⟩ := h.exists_nth_of_kind kind .ordered (Nat.le_of_lt hi)
  have hend : (c.nth kind i).isEnd ≠ true := by
    rw [Ne, h.isEnd_nth kind (Nat.le_of_lt hi)]
    exact Nat.ne_of_lt hi
  refine ⟨j, by omega, ?_, hposition⟩
  rw [← he]
  cases hp : (c.nth kind i).position with
  | none => simp [Cursor.isEnd, hp] at hend
  | some id =>
    rw [Cursor.toOrdered, hp]
    rfl

theorem Holds.walks (h : c.Holds items free) : c.Walks where
  ordered := by simp [yields, visits, contents, entries, RecencyList.toList]
  unordered := by simp [yields, visits, storedEntries, RecencyList.stored]
  increasing := c.order.stored_sorted
  perm := (h.visits_perm .unordered).trans (h.visits_perm .ordered).symm
  length := h.length_visits
  begins := h.begin_nth
  ends := ⟨h.end_nth .ordered, h.end_nth .unordered⟩
  distinct _ _ hi _ hj he := h.nth_inj hi hj he
  isEnd kind _ hi := h.isEnd_nth kind hi
  entry kind i _ := h.entryAt_nth kind i
  pastTheEnd kind _ hi := h.pastTheEnd_nth kind hi
  advance kind i _ := by rw [h.advance_nth, h.nth_min]
  next kind _ hi := h.moveCursor_next kind hi
  retreat _ hi := h.moveCursor_retreat hi
  retreat_advance i hi := by simp [h.advance_nth, h.moveCursor_retreat (Nat.succ_le_of_lt hi)]
  advance_retreat i hi hpos := by
    rw [h.moveCursor_retreat hi, h.advance_nth, Nat.sub_add_cancel hpos]
  toUnordered kind i hi := by
    obtain ⟨j, hj, he, hposition, -⟩ := h.exists_nth_of_kind kind .unordered hi
    exact ⟨j, hj, he, hposition⟩
  toOrdered kind _ hi := h.toOrdered_nth kind hi
  endNotOrdered kind := by
    rw [← h.end_nth kind]
    rfl
  drain kind i _ _ hf := h.drain_of_le kind i hf
  rest kind i _ := h.rest_nth kind i

end Laws

section Runs

variable {now : Instant} {start : Cursor.Start K} {key : K}

theorem exists_startCursor
    (accepted : ∀ kind g, start = .handle kind g → c.validate g = .ok g.slot) :
    ∃ x, (c.startCursor now start).result = .ok x := by
  cases start with
  | handle kind g =>
    rw [startCursor, cursorAt, accepted kind g rfl]
    exact ⟨_, rfl⟩
  | _ => exact ⟨_, rfl⟩

omit [BEq K] in
theorem walkCursor_concat (c : Cache K V) (x : Cursor) (moves : List Cursor.Move)
    (move : Cursor.Move) : c.walkCursor x (moves ++ [move]) =
      ((c.walkCursor x moves).1 ++ [(c.moveCursor (c.walkCursor x moves).2 move).1],
        (c.moveCursor (c.walkCursor x moves).2 move).2) := by
  induction moves generalizing x with
  | nil => rfl
  | cons first moves ih => simp [walkCursor, ih]

variable [EquivBEq K]

theorem Holds.walked (h : c.Holds items free) (moves : List Cursor.Move)
    (accepted : ∀ kind g, start = .handle kind g → c.validate g = .ok g.slot ∧ c.Stands g.slot) :
    ∃ answers x d, c.Walked now start moves answers x d := by
  obtain ⟨x, hx⟩ : ∃ x, (c.startCursor now start).result = .ok x :=
    exists_startCursor fun kind g hs => (accepted kind g hs).1
  have hd := h.startCursor now start
  have hosts := h.hosts_startCursor (fun kind g hs => (accepted kind g hs).2) hx
  have hresult : ∀ moves, (c.walk now start moves).result =
      .ok ((c.startCursor now start).cache.walkCursor x moves) := by
    intro moves
    rw [walk, Outcome.map, hx]
    rfl
  refine ⟨((c.startCursor now start).cache.walkCursor x moves).1,
    ((c.startCursor now start).cache.walkCursor x moves).2, (c.startCursor now start).cache, ?_⟩
  constructor
  case cache => rfl
  case result => exact hresult moves
  case further =>
    intro move
    rw [hresult, walkCursor_concat]
  case walks => exact hd.walks
  case entries => rw [hd.entries_eq, h.entries_eq]
  case place => exact hd.exists_nth (hd.hosts_walkCursor hosts moves)

/-- The cursor that finds a live key stands where the entries from the key on begin. -/
theorem Holds.walk_find {id : SlotId} {entry : Entry K V}
    (h : c.Holds (p ++ (id, entry) :: s) free) (hk : key == entry.key)
    (hl : c.policy.isLive now entry.stamp = true) :
    ∃ x, (c.walk now (.find key) [.toOrdered, .rest]).result =
      .ok ([.converted (.ok ()), .rest ((entry :: s.map Prod.snd).map Entry.pair)], x) := by
  have hd := h.remembering (some id)
  have hnth : (c.remembering (some id)).nth .ordered p.length =
      (c.remembering (some id)).cursor .ordered (some id) := by
    rw [nth, visits, hd.order.entries_eq]
    simp
  have hrest : (c.remembering (some id)).rest ((c.remembering (some id)).cursor .ordered (some id))
      = (entry :: s.map Prod.snd).map Entry.pair := by
    rw [← hnth, hd.rest_nth, yields, visits, hd.order.entries_eq, List.map_append,
      List.drop_left' (List.length_map _)]
    simp
  refine ⟨(c.remembering (some id)).cursor .ordered (some id), ?_⟩
  rw [← hrest, walk, Cache.startCursor, find, h.resolve_of_live hk hl]
  rfl

end Runs

/-- In every reachable state the cursors behave as places, and every walk ends at a place: one that
starts at an end, at a key, or at a handle that was given out and is accepted. From a live key on
the ordered cursor yields the entries that stand there and behind. -/
theorem run_walks [EquivBEq K] (id : UInt64) (capacity : Nat) (policy : Policy)
    (mode : RecencyMode) (steps : List (Instant × Command K V)) :
    ∃ o, (start id capacity policy mode : Cache K V).run steps = .ok o ∧ o.cache.Walks ∧
      (∀ now begin moves,
        (∀ kind g, begin = .handle kind g → o.cache.validate g = .ok g.slot ∧
          GivenOut ((start id capacity policy mode).history steps) g) →
        ∃ answers x d, o.cache.Walked now begin moves answers x d) ∧
      ∀ now key p e s, o.cache.entries = p ++ e :: s → (key == e.key) = true →
        o.cache.policy.isLive now e.stamp = true →
        ∃ x, (o.cache.walk now (.find key) [.toOrdered, .rest]).result =
          .ok ([.converted (.ok ()), .rest ((e :: s).map Entry.pair)], x) := by
  have hstart : (start id capacity policy mode : Cache K V).Coherent := coherent_start ..
  obtain ⟨o, ho, ⟨items, free, h⟩, -, hdated⟩ := hstart.run_dates steps
  refine ⟨o, ho, h.walks, ?_, ?_⟩
  · intro now begin moves accepted
    apply h.walked moves
    intro kind g hg
    obtain ⟨hv, given⟩ := accepted kind g hg
    have hgen : g.generation = o.cache.generation :=
      congrArg Handle.generation (validate_eq_ok_iff.mp hv)
    exact ⟨hv, hdated g given hgen⟩
  · intro now key p e s hentries hk hl
    rw [h.entries_eq] at hentries
    obtain ⟨q, r, rfl, -, hr⟩ := List.map_eq_append_iff.mp hentries
    obtain ⟨⟨i, e⟩, t, rfl, rfl, rfl⟩ := List.map_eq_cons_iff.mp hr
    exact h.walk_find hk hl

/-- A handle from before a lookup is opened again, and its cursor passes a slot that an erasure
left vacant. -/
theorem run_walks_reopened : EquivBEq Nat ∧ ∃ o,
    (start 0 4 .capacity .onInsert : Cache Nat Nat).run [(0, .insert 1 10), (0, .insert 2 20),
      (0, .insert 3 30), (0, .erase 2), (0, .cursor (.find 1) [.handle]), (0, .lookup 3)] = .ok o ∧
    o.cache.Walks ∧ o.cache.entries = [⟨1, 10, 0⟩, ⟨3, 30, 0⟩] ∧
    (∃ answers x d, o.cache.Walked 0 (.handle .unordered ⟨0, some 0, 4⟩) [.advance, .toOrdered]
      answers x d) ∧
    ∃ x, (o.cache.walk 0 (.find 1) [.toOrdered, .rest]).result =
      .ok ([.converted (.ok ()), .rest [(1, 10), (3, 30)]], x) := by
  obtain ⟨o, ho, hwalks, hwalk, hfind⟩ := run_walks (K := Nat) (V := Nat) 0 4 .capacity .onInsert
    [(0, .insert 1 10), (0, .insert 2 20), (0, .insert 3 30), (0, .erase 2),
      (0, .cursor (.find 1) [.handle]), (0, .lookup 3)]
  have hview : ((start 0 4 .capacity .onInsert : Cache Nat Nat).run [(0, .insert 1 10),
      (0, .insert 2 20), (0, .insert 3 30), (0, .erase 2), (0, .cursor (.find 1) [.handle]),
      (0, .lookup 3)]).map (fun o => (o.cache.id, o.cache.generation, o.cache.policy,
        o.cache.entries)) = .ok (0, 4, .capacity, [⟨1, 10, 0⟩, ⟨3, 30, 0⟩]) := by rfl
  rw [ho] at hview
  obtain ⟨hid, hgeneration, hpolicy, hentries⟩ : o.cache.id = 0 ∧ o.cache.generation = 4 ∧
      o.cache.policy = .capacity ∧ o.cache.entries = [⟨1, 10, 0⟩, ⟨3, 30, 0⟩] := by
    simpa [Except.map] using hview
  have hvalid : o.cache.validate ⟨0, some 0, 4⟩ = .ok (some 0) := by
    rw [validate_eq_ok_iff, handle, hid, hgeneration]
  have hgiven : GivenOut ((start 0 4 .capacity .onInsert : Cache Nat Nat).history
      [(0, .insert 1 10), (0, .insert 2 20), (0, .insert 3 30), (0, .erase 2),
        (0, .cursor (.find 1) [.handle]), (0, .lookup 3)]) ⟨0, some 0, 4⟩ := by
    refine ⟨by decide, (coherent_start ..).honest (by simp), by decide⟩
  refine ⟨inferInstance, o, ho, hwalks, hentries, hwalk 0 _ _ ?_, ?_⟩
  · rintro kind g ⟨⟩
    exact ⟨hvalid, hgiven⟩
  · exact hfind 0 1 [] ⟨1, 10, 0⟩ [⟨3, 30, 0⟩] hentries rfl (by rw [hpolicy]; rfl)

end Lru.Cache
