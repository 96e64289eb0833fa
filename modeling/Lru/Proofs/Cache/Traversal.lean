import Lru.Cache.Command
import Lru.Proofs.Cache.Cursors

/-! # Double-ended traversal

A traversal splits the entries into what the front has passed, what is left, and
what the back has passed. Each step moves one entry out of the middle, so
however the steps are mixed, each entry is taken once, and from the end that
reaches it first.
-/

namespace Lru

namespace Traversal

variable {α : Type}

/-- What the steps of one kind took, in order. -/
def taken (move : Move) (moves : List Move) (steps : List (Option α)) : List α :=
  (moves.zip steps).filterMap fun x => if x.1 = move then x.2 else none

/-- A list in the order in which steps of one kind take it. -/
def Move.order : Move → List α → List α
  | .next, l => l
  | .nextBack, l => l.reverse

@[simp] theorem Move.length_order (move : Move) (l : List α) :
    (move.order l).length = l.length := by
  cases move with
  | next => rfl
  | nextBack => exact List.length_reverse

theorem Move.order_map {β : Type} (move : Move) (f : α → β) (l : List α) :
    (move.order l).map f = move.order (l.map f) := by
  cases move with
  | next => rfl
  | nextBack => exact List.map_reverse

theorem taken_cons (move first : Move) (moves : List Move) (step : Option α)
    (steps : List (Option α)) : taken move (first :: moves) (step :: steps) =
      (if first = move then step.toList else []) ++ taken move moves steps := by
  simp only [taken, List.zip_cons_cons, List.filterMap_cons]
  split_ifs <;> cases step <;> rfl

end Traversal

namespace Cache

open Traversal

variable {K V : Type}

/-- A traversal has passed `p` from the front and `s` from the back, and `m` is left. -/
structure Spans (t : Traversal) (p m s : List (SlotId × Entry K V)) : Prop where
  front : t.front = RecencyList.firstId (m ++ s)
  back : t.back = RecencyList.lastId (p ++ m)
  remaining : t.remaining = m.length

/-- What a traversal has answered to `moves`, and what is left of it. -/
structure Traversed (c : Cache K V) (moves : List Traversal.Move) (steps : List (Option (K × V)))
    (t : Traversal) : Prop where
  answers : steps.length = moves.length
  /-- The front takes the least recent entries in order. -/
  fronts : taken .next moves steps <+: c.contents
  /-- The back takes the most recent entries in reverse order. -/
  backs : taken .nextBack moves steps <+: c.contents.reverse
  remaining : t.remaining + (taken .next moves steps).length +
    (taken .nextBack moves steps).length = c.contents.length
  /-- A step takes nothing once all entries have been taken, and only then. -/
  ends : ∀ move, (c.traverse t move).1 = none ↔
    (taken .next moves steps).length + (taken .nextBack moves steps).length = c.contents.length
  fused : ∀ move, (c.traverse t move).1 = none →
    ∀ more, c.traverseAll t more = (List.replicate more.length none, t)
  /-- What is left is the part between, from either end. -/
  middle : taken .next moves steps ++ (c.takeRest .next t).1 ++
    (taken .nextBack moves steps).reverse = c.contents
  middle_reversed : (c.takeRest .nextBack t).1 = (c.takeRest .next t).1.reverse
  exhausted : ∀ move, (c.takeRest move t).2.remaining = 0

section Steps

variable {c : Cache K V} {p m s : List (SlotId × Entry K V)} {t u : Traversal}
  {y : SlotId × Entry K V} {move : Traversal.Move} {moves : List Traversal.Move}

theorem Spans.traverse_nil (h : Spans t p [] s) (c : Cache K V) (move : Traversal.Move) :
    c.traverse t move = (none, t) := by
  have hzero : t.remaining = 0 := h.remaining
  cases move <;> simp [traverse, next, nextBack, entryLeft, hzero]

theorem traverseAll_cons {step : Option (K × V)} {steps : List (Option (K × V))} {v : Traversal}
    (hstep : c.traverse t move = (step, u)) (hsteps : c.traverseAll u moves = (steps, v)) :
    c.traverseAll t (move :: moves) = (step :: steps, v) := by
  simp [traverseAll, hstep, hsteps]

theorem Spans.traverseAll_nil (h : Spans t p [] s) (c : Cache K V) (moves : List Traversal.Move) :
    c.traverseAll t moves = (List.replicate moves.length none, t) := by
  induction moves with
  | nil => rfl
  | cons move moves ih => exact traverseAll_cons (h.traverse_nil c move) ih

variable [BEq K] {items : List (SlotId × Entry K V)} {free : List SlotId}

theorem Holds.spans_traversal (h : c.Holds items free) : Spans c.traversal [] items [] where
  front := by
    rw [List.append_nil]
    exact h.order.head
  back := h.order.tail
  remaining := h.len_eq

theorem Spans.next_cons (hs : Spans t p (y :: m) s) (h : c.Holds (p ++ y :: m ++ s) free) :
    ∃ u, c.traverse t .next = (some y.2.pair, u) ∧ Spans u (p ++ [y]) m s := by
  have hsplit : p ++ y :: m ++ s = p ++ (y.1, y.2) :: (m ++ s) := by simp
  have hfront : t.front = some y.1 := hs.front
  have hget : c.order.get? y.1 = some y.2 := h.order.get?_of_mem (by simp)
  have hleft : t.remaining = m.length + 1 := hs.remaining
  rw [hsplit] at h
  refine ⟨⟨c.order.nextId y.1, t.back, t.remaining - 1⟩, ?_, ?_, ?_, ?_⟩
  · simp [traverse, next, entryLeft, hfront, hget, hleft, Entry.pair]
  · exact h.order.toLinked.nextId_eq
  · rw [hs.back]
    simp
  · rw [hleft]
    rfl

theorem Spans.nextBack_concat (hs : Spans t p (m ++ [y]) s)
    (h : c.Holds (p ++ (m ++ [y]) ++ s) free) :
    ∃ u, c.traverse t .nextBack = (some y.2.pair, u) ∧ Spans u p m (y :: s) := by
  have hsplit : p ++ (m ++ [y]) ++ s = (p ++ m) ++ (y.1, y.2) :: s := by simp
  have hback : t.back = some y.1 := by
    rw [hs.back, ← List.append_assoc, RecencyList.lastId_append_cons, RecencyList.lastId_singleton]
  have hget : c.order.get? y.1 = some y.2 := h.order.get?_of_mem (by simp)
  have hleft : t.remaining = m.length + 1 := by
    rw [hs.remaining, List.length_append, List.length_singleton]
  rw [hsplit] at h
  refine ⟨⟨t.front, c.order.prevId y.1, t.remaining - 1⟩, ?_, ?_, ?_, ?_⟩
  · simp [traverse, nextBack, entryLeft, hback, hget, hleft, Entry.pair]
  · rw [hs.front]
    simp
  · exact h.order.toLinked.prevId_eq
  · rw [hleft]
    rfl

theorem Spans.traverse (hs : Spans t p m s) (h : c.Holds (p ++ m ++ s) free) (left : m ≠ [])
    (move : Traversal.Move) : ∃ y p' m' s' u, c.traverse t move = (some y.2.pair, u) ∧
      Spans u p' m' s' ∧ p' ++ m' ++ s' = p ++ m ++ s ∧ move.order m = y :: move.order m' := by
  cases move with
  | next =>
    obtain ⟨y, m, rfl⟩ := List.exists_cons_of_ne_nil left
    obtain ⟨u, hu, hspans⟩ := hs.next_cons h
    exact ⟨y, _, m, s, u, hu, hspans, by simp, rfl⟩
  | nextBack =>
    rcases m.eq_nil_or_concat' with rfl | ⟨m, y, rfl⟩
    · exact absurd rfl left
    obtain ⟨u, hu, hspans⟩ := hs.nextBack_concat h
    exact ⟨y, p, m, _, u, hu, hspans, by simp, by simp [Move.order]⟩

end Steps

section Runs

variable {c : Cache K V} {p m s items : List (SlotId × Entry K V)} {free : List SlotId}
  {t : Traversal} [BEq K]

/-- The steps take a part from each end of what is left, and leave the part between. -/
theorem Spans.traverseAll (hs : Spans t p m s) (h : c.Holds (p ++ m ++ s) free)
    (moves : List Traversal.Move) : ∃ steps u q n r, c.traverseAll t moves = (steps, u) ∧
      steps.length = moves.length ∧ m = q ++ n ++ r ∧ Spans u (p ++ q) n (r ++ s) ∧
      taken .next moves steps = q.map (fun y => y.2.pair) ∧
      taken .nextBack moves steps = (r.map fun y => y.2.pair).reverse := by
  induction moves generalizing t p m s with
  | nil =>
    exact ⟨[], t, [], m, [], rfl, rfl, by simp, by simpa using hs, rfl, rfl⟩
  | cons move moves ih =>
    by_cases left : m = []
    · subst left
      obtain ⟨steps, u, q, n, r, hu, hlength, hm, hfinal, hfronts, hbacks⟩ := ih hs h
      refine ⟨_, u, q, n, r, traverseAll_cons (hs.traverse_nil c move) hu, by simp [hlength], hm,
        hfinal, ?_, ?_⟩
      · simp [taken_cons, hfronts]
      · simp [taken_cons, hbacks]
    cases move with
    | next =>
      obtain ⟨y, m, rfl⟩ := List.exists_cons_of_ne_nil left
      obtain ⟨v, hv, hspans⟩ := hs.next_cons h
      obtain ⟨steps, u, q, n, r, hu, hlength, rfl, hfinal, hfronts, hbacks⟩ :=
        ih hspans (by simpa using h)
      refine ⟨_, u, y :: q, n, r, traverseAll_cons hv hu, by simp [hlength], by simp, ?_, ?_, ?_⟩
      · simpa using hfinal
      · simp [taken_cons, hfronts]
      · simp [taken_cons, hbacks]
    | nextBack =>
      rcases m.eq_nil_or_concat' with rfl | ⟨m, y, rfl⟩
      · exact absurd rfl left
      obtain ⟨v, hv, hspans⟩ := hs.nextBack_concat h
      obtain ⟨steps, u, q, n, r, hu, hlength, rfl, hfinal, hfronts, hbacks⟩ :=
        ih hspans (by simpa using h)
      refine ⟨_, u, q, n, r ++ [y], traverseAll_cons hv hu, by simp [hlength], by simp, ?_, ?_, ?_⟩
      · simpa using hfinal
      · simp [taken_cons, hfronts]
      · simp [taken_cons, hbacks]

theorem Spans.takeFrom (hs : Spans t p m s) (h : c.Holds (p ++ m ++ s) free)
    (move : Traversal.Move) {fuel : Nat} (hf : m.length ≤ fuel) :
    (c.takeFrom move fuel t).1 = move.order (m.map fun y => y.2.pair) ∧
      (c.takeFrom move fuel t).2.remaining = 0 := by
  induction fuel generalizing t p m s with
  | zero =>
    obtain rfl := List.length_eq_zero_iff.mp (Nat.le_zero.mp hf)
    exact ⟨by cases move <;> rfl, hs.remaining⟩
  | succ fuel ih =>
    by_cases left : m = []
    · subst left
      rw [Cache.takeFrom, hs.traverse_nil]
      exact ⟨by cases move <;> rfl, hs.remaining⟩
    obtain ⟨y, p', m', s', u, hu, hspans, hsame, horder⟩ := hs.traverse h left move
    have hlength : m.length = m'.length + 1 := by
      simpa using congrArg List.length horder
    obtain ⟨hrest, hremaining⟩ := ih hspans (hsame ▸ h) (by omega)
    rw [Cache.takeFrom, hu]
    refine ⟨?_, hremaining⟩
    rw [← Move.order_map, horder, List.map_cons, Move.order_map, ← hrest]

theorem Holds.traversed (h : c.Holds items free) (moves : List Traversal.Move) :
    Traversed c moves (c.traverseAll c.traversal moves).1 (c.traverseAll c.traversal moves).2 := by
  obtain ⟨steps, u, q, n, r, hu, hlength, rfl, hspans, hfronts, hbacks⟩ :=
    h.spans_traversal.traverseAll (by simpa using h) moves
  rw [List.nil_append, List.append_nil] at hspans
  rw [hu]
  have hends : ∀ move, (c.traverse u move).1 = none ↔ n = [] := by
    intro move
    constructor
    · intro hnone
      by_contra left
      obtain ⟨y, p', m', s', v, hv, -⟩ := hspans.traverse h left move
      rw [hv] at hnone
      cases hnone
    · rintro rfl
      rw [hspans.traverse_nil]
  have hrest := fun move => hspans.takeFrom h move (Nat.le_of_eq hspans.remaining.symm)
  have hcontents := h.contents_eq
  rw [List.map_append, List.map_append] at hcontents
  constructor
  case answers => exact hlength
  case fronts =>
    rw [hfronts, hcontents, List.append_assoc]
    exact List.prefix_append _ _
  case backs =>
    rw [hbacks, hcontents, List.reverse_append]
    exact List.prefix_append _ _
  case remaining =>
    rw [hfronts, hbacks, hcontents, hspans.remaining]
    simp only [List.length_append, List.length_map, List.length_reverse]
    omega
  case ends =>
    intro move
    rw [hends, hfronts, hbacks, hcontents, ← List.length_eq_zero_iff]
    simp only [List.length_append, List.length_map, List.length_reverse]
    omega
  case fused =>
    intro move hnone more
    obtain rfl := (hends move).mp hnone
    exact hspans.traverseAll_nil c more
  case middle =>
    rw [takeRest, (hrest .next).1, hfronts, hbacks, hcontents, List.reverse_reverse]
    rfl
  case middle_reversed =>
    rw [takeRest, takeRest, (hrest .next).1, (hrest .nextBack).1]
    rfl
  case exhausted => exact fun move => (hrest move).2

theorem Holds.pairs_eq (h : c.Holds items free) :
    c.pairs = c.contents ∧ c.pairsRev = c.contents.reverse := by
  have hall := h.traversed []
  have hpairs : c.pairs = c.contents := by
    simpa [taken, pairs, Cache.traverseAll] using hall.middle
  refine ⟨hpairs, ?_⟩
  rw [← hpairs]
  exact hall.middle_reversed

end Runs

/-- In every reachable state, however the steps from both ends are mixed, the front takes the least
recent entries in order, the back the most recent ones in reverse order, and each entry is taken
once. Taken from one end, the entries come all in order. -/
theorem run_traverses [BEq K] [EquivBEq K] (id : UInt64) (capacity : Nat) (policy : Policy)
    (mode : RecencyMode) (steps : List (Instant × Command K V)) :
    ∃ o, (start id capacity policy mode : Cache K V).run steps = .ok o ∧
      (∀ moves, Traversed o.cache moves (o.cache.traverseAll o.cache.traversal moves).1
        (o.cache.traverseAll o.cache.traversal moves).2) ∧
      o.cache.pairs = o.cache.contents ∧ o.cache.pairsRev = o.cache.contents.reverse ∧
      o.cache.keys = o.cache.entries.map Entry.key ∧
      o.cache.keysRev = (o.cache.entries.map Entry.key).reverse ∧
      o.cache.values = o.cache.entries.map Entry.value ∧
      o.cache.valuesRev = (o.cache.entries.map Entry.value).reverse := by
  have hstart : (start id capacity policy mode : Cache K V).Coherent := ⟨_, _, holds_start ..⟩
  obtain ⟨o, ho, ⟨items, free, h⟩, -⟩ := hstart.run steps
  obtain ⟨hpairs, hrev⟩ := h.pairs_eq
  have hkeys : o.cache.contents.map Prod.fst = o.cache.entries.map Entry.key := List.map_map
  have hvalues : o.cache.contents.map Prod.snd = o.cache.entries.map Entry.value := List.map_map
  refine ⟨o, ho, h.traversed, hpairs, hrev, ?_, ?_, ?_, ?_⟩
  · rw [keys, hpairs, hkeys]
  · rw [keysRev, hrev, List.map_reverse, hkeys]
  · rw [values, hpairs, hvalues]
  · rw [valuesRev, hrev, List.map_reverse, hvalues]

/-- The ends meet in the middle, and then there is nothing more from either end. -/
theorem run_traverses_meeting : EquivBEq Nat ∧ ∃ o steps t,
    (start 0 4 .capacity .onInsert : Cache Nat Nat).run [(0, .insert 1 10), (0, .insert 2 20),
      (0, .insert 3 30)] = .ok o ∧
    o.cache.traverseAll o.cache.traversal [.nextBack, .next, .next, .nextBack] = (steps, t) ∧
    steps = [some (3, 30), some (1, 10), some (2, 20), none] ∧
    Traversed o.cache [.nextBack, .next, .next, .nextBack] steps t := by
  obtain ⟨o, ho, htraversed, -⟩ := run_traverses (K := Nat) (V := Nat) 0 4 .capacity .onInsert
    [(0, .insert 1 10), (0, .insert 2 20), (0, .insert 3 30)]
  have hview : ((start 0 4 .capacity .onInsert : Cache Nat Nat).run [(0, .insert 1 10),
      (0, .insert 2 20), (0, .insert 3 30)]).map (fun o => (o.cache.traverseAll o.cache.traversal
        [.nextBack, .next, .next, .nextBack]).1) =
      .ok [some (3, 30), some (1, 10), some (2, 20), none] := by rfl
  rw [ho] at hview
  exact ⟨inferInstance, o, _, _, ho, rfl, Except.ok.inj hview, htraversed _⟩

end Cache

end Lru
