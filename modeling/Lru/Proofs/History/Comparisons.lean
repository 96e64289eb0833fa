import Lru.Proofs.Cache.Consistency
import Lru.Proofs.Cache.Cursors
import Lru.Proofs.History.Handles

/-! # Comparing and converting cursors

Cursors are compared by slots and by the identities of their caches. In a
reachable state this compares entries: a cursor stands past the end or on an
entry, and no two entries have equal keys. The kinds of the cursors play no
part, so a cursor is equal to what it is converted to.
-/

namespace Lru

namespace Cursor

variable {x y : Cursor}

theorem beq_iff : (x == y) = true ↔ x.position = none ∧ y.position = none ∨
    ∃ id, x.position = some id ∧ y.position = some id ∧ x.owner = y.owner := by
  obtain ⟨owner, kind, position⟩ := x
  obtain ⟨owner', kind', position'⟩ := y
  cases position with
  | none => cases position' <;> simp [BEq.beq]
  | some p =>
    cases position' with
    | none => simp [BEq.beq]
    | some q => simpa [BEq.beq] using fun _ => eq_comm

instance : EquivBEq Cursor where
  rfl {x} := by
    rw [beq_iff]
    cases x.position <;> simp
  symm {x y} h := by
    rw [beq_iff] at h ⊢
    rcases h with ⟨hx, hy⟩ | ⟨id, hx, hy, ho⟩
    · exact .inl ⟨hy, hx⟩
    · exact .inr ⟨id, hy, hx, ho.symm⟩
  trans {x y z} h h' := by
    rw [beq_iff] at h h' ⊢
    rcases h with ⟨hx, hy⟩ | ⟨id, hx, hy, ho⟩
    · rcases h' with ⟨-, hz⟩ | ⟨id, hy', -, -⟩
      · exact .inl ⟨hx, hz⟩
      · cases hy.symm.trans hy'
    · rcases h' with ⟨hy', -⟩ | ⟨id', hy', hz, ho'⟩
      · cases hy.symm.trans hy'
      · obtain rfl := Option.some.inj (hy.symm.trans hy')
        exact .inr ⟨id, hx, hz, ho.trans ho'⟩

theorem toOrdered_eq_ok (h : x.isEnd = false) :
    x.toOrdered = .ok { x with kind := .ordered } := by
  obtain ⟨owner, kind, position⟩ := x
  cases position with
  | none => cases h
  | some id => rfl

theorem toOrdered_eq_error (h : x.isEnd = true) : x.toOrdered = .error .endNotOrdered := by
  obtain ⟨owner, kind, position⟩ := x
  cases position with
  | none => rfl
  | some id => cases h

end Cursor

namespace Cache

variable {K V : Type}

/-- The cursor `y` is equal to `x`, on the same entry, and has the same handle. -/
structure SamePlace (c : Cache K V) (x y : Cursor) : Prop where
  beq : (y == x) = true
  entry : c.entryAt y = c.entryAt x
  handle : c.handle y.position = c.handle x.position

/-- The conversions of a cursor. Only at the end it has no ordered counterpart. -/
structure Converts (c : Cache K V) (x : Cursor) : Prop where
  toUnordered : x.toUnordered.kind = .unordered ∧ c.SamePlace x x.toUnordered
  refused : ∀ e, x.toOrdered = .error e ↔ e = .endNotOrdered ∧ x.isEnd = true
  toOrdered : x.isEnd = false → ∃ y, x.toOrdered = .ok y ∧ y.kind = .ordered ∧ c.SamePlace x y
  backFromOrdered : ∀ y, x.toOrdered = .ok y → c.SamePlace x y.toUnordered
  backFromUnordered : x.isEnd = false →
    ∃ y, x.toUnordered.toOrdered = .ok y ∧ y.kind = .ordered ∧ c.SamePlace x y

variable [BEq K]

/-- A run from a new cache leads to `c`, and `history` is what it carried out. -/
def Reached (c : Cache K V) (history : List (Deed K V)) : Prop :=
  ∃ id capacity policy mode steps o, (start id capacity policy mode).run steps = .ok o ∧
    o.cache = c ∧ (start id capacity policy mode).history steps = history

/-- The cursors that a cache has in one state, at whatever readings they were opened and whatever
the last accessed slot was then. -/
inductive Lends (c : Cache K V) (history : List (Deed K V)) : Cursor → Prop
  | ofStart (memo : Option SlotId) (now : Instant) (start : Cursor.Start K) {x : Cursor}
      (fresh : ∀ kind g, start ≠ .handle kind g)
      (opened : ((c.remembering memo).startCursor now start).result = .ok x) : c.Lends history x
  /-- At a handle from before. -/
  | ofGiven {kind : CursorKind} {g : Handle} {x : Cursor} (given : GivenOut history g)
      (opened : c.cursorAt kind g = .ok x) : c.Lends history x
  /-- At the handle of another cursor. -/
  | ofHandle {kind : CursorKind} {x y : Cursor} (lent : c.Lends history y)
      (opened : c.cursorAt kind (c.handle y.position) = .ok x) : c.Lends history x
  | moved {x : Cursor} (lent : c.Lends history x) (move : Cursor.Move) :
      c.Lends history (c.moveCursor x move).2

variable {c d : Cache K V} {items : List (SlotId × Entry K V)} {free : List SlotId}
  {past : List (Deed K V)} {x y : Cursor} {g : Handle} {kind : CursorKind}

section Conversion

omit [BEq K] in
theorem samePlace_kind (c : Cache K V) (x : Cursor) (kind : CursorKind) :
    c.SamePlace x { x with kind } where
  beq := by
    rw [Cursor.beq_iff]
    cases x.position <;> simp
  entry := rfl
  handle := rfl

omit [BEq K] in
theorem converts (c : Cache K V) (x : Cursor) : c.Converts x where
  toUnordered := ⟨rfl, c.samePlace_kind x .unordered⟩
  refused e := by
    cases h : x.isEnd with
    | false => simp [Cursor.toOrdered_eq_ok h]
    | true => simp [Cursor.toOrdered_eq_error h, eq_comm]
  toOrdered h := ⟨_, Cursor.toOrdered_eq_ok h, rfl, c.samePlace_kind x .ordered⟩
  backFromOrdered y hy := by
    cases h : x.isEnd with
    | true => rw [Cursor.toOrdered_eq_error h] at hy; cases hy
    | false =>
      rw [Cursor.toOrdered_eq_ok h] at hy
      cases hy
      exact c.samePlace_kind x .unordered
  backFromUnordered h := ⟨_, Cursor.toOrdered_eq_ok h, rfl, c.samePlace_kind x .ordered⟩

end Conversion

section Lending

omit [BEq K] in
theorem hosts_of_cursorAt (hs : c.Stands g.slot) (hx : c.cursorAt kind g = .ok x) : c.Hosts x := by
  obtain ⟨slot, hv, rfl⟩ := exists_of_map_eq_ok hx
  obtain rfl : g.slot = slot := by rw [validate_eq_ok_iff.mp hv]; rfl
  exact ⟨rfl, hs⟩

theorem Holds.hosts_congr (h : c.Holds items free) (h' : d.Holds items free) (hid : d.id = c.id)
    (hx : d.Hosts x) : c.Hosts x :=
  ⟨hx.1.trans hid, h.stands_of_mem fun id hp => h'.order.contains_iff.mp (hx.2 id hp)⟩

variable [EquivBEq K]

theorem Holds.startCursor_id (h : c.Holds items free) (now : Instant) (start : Cursor.Start K) :
    (c.startCursor now start).cache.id = c.id := by
  cases start with
  | find key => exact (h.drifts.resolve_ages now key).id
  | _ => rfl

theorem Reached.holds (h : c.Reached past) : (∃ items free, c.Holds items free) ∧
    ∀ g, GivenOut past g → g.generation = c.generation → c.Stands g.slot := by
  obtain ⟨id, capacity, policy, mode, steps, o, ho, rfl, rfl⟩ := h
  obtain ⟨o', ho', hc, -, hdated⟩ := (coherent_start id capacity policy mode).run_dates steps
  obtain rfl := Except.ok.inj (ho.symm.trans ho')
  exact ⟨hc, hdated⟩

/-- A cursor belongs to its cache, and it is past the end or on an entry. -/
theorem Lends.hosts (h : c.Lends past x) (hc : c.Reached past) : c.Hosts x := by
  obtain ⟨⟨items, free, hitems⟩, hdated⟩ := hc.holds
  induction h with
  | ofStart memo now start fresh opened =>
    have hmemo := hitems.remembering memo
    have hosts := hmemo.hosts_startCursor (fun kind g hs => absurd hs (fresh kind g)) opened
    exact hitems.hosts_congr (hmemo.startCursor now start) (hmemo.startCursor_id now start) hosts
  | @ofGiven kind g x given opened =>
    obtain ⟨slot, hv, -⟩ := exists_of_map_eq_ok opened
    have hgen : g.generation = c.generation :=
      congrArg Handle.generation (validate_eq_ok_iff.mp hv)
    exact hosts_of_cursorAt (hdated g given hgen) opened
  | ofHandle lent opened ih => exact hosts_of_cursorAt ih.2 opened
  | moved lent move ih => exact hitems.hosts_walkCursor ih [move]

end Lending

section Equality

theorem Holds.exists_entry (h : c.Holds items free) {id : SlotId} (hx : c.Hosts x)
    (hid : x.position = some id) : ∃ entry, c.order.get? id = some entry ∧
      c.entryAt x = .ok entry.pair := by
  obtain ⟨⟨_, entry⟩, hm, rfl⟩ := List.mem_map.mp (h.order.contains_iff.mp (hx.2 id hid))
  have hg := h.order.get?_of_mem hm
  refine ⟨entry, hg, ?_⟩
  rw [entryAt, hid, Option.bind_some, hg]
  rfl

omit [BEq K] in
theorem exists_of_entryAt {r : K × V} (hx : c.entryAt x = .ok r) :
    ∃ id e, x.position = some id ∧ c.order.get? id = some e ∧ e.pair = r := by
  rw [entryAt] at hx
  split at hx
  · next e he =>
    obtain ⟨id, hp, hg⟩ := Option.bind_eq_some_iff.mp he
    exact ⟨id, e, hp, hg, Except.ok.inj hx⟩
  · cases hx

variable [EquivBEq K]

theorem Holds.slot_inj (h : c.Holds items free) {p q : SlotId} {e f : Entry K V}
    (hp : c.order.get? p = some e) (hq : c.order.get? q = some f) (hk : (e.key == f.key) = true) :
    p = q := by
  have hindex := (h.index_iff e.key p).mpr ⟨e, hp, BEq.rfl⟩
  rw [(h.index_iff e.key q).mpr ⟨f, hq, hk⟩] at hindex
  exact (Option.some.inj hindex).symm

/-- Cursors of one cache are equal past the end, and on entries with equal keys. -/
theorem Holds.beq_iff (h : c.Holds items free) (hx : c.Hosts x) (hy : c.Hosts y) :
    (x == y) = true ↔ x.isEnd = true ∧ y.isEnd = true ∨
      ∃ r r', c.entryAt x = .ok r ∧ c.entryAt y = .ok r' ∧ (r.1 == r'.1) = true := by
  rw [Cursor.beq_iff, Cursor.isEnd, Cursor.isEnd, Option.isNone_iff_eq_none,
    Option.isNone_iff_eq_none]
  refine or_congr_right ?_
  constructor
  · rintro ⟨id, hp, hq, -⟩
    obtain ⟨e, he, hxe⟩ := h.exists_entry hx hp
    obtain ⟨f, hf, hyf⟩ := h.exists_entry hy hq
    obtain rfl := Option.some.inj (he.symm.trans hf)
    exact ⟨e.pair, e.pair, hxe, hyf, BEq.rfl⟩
  · rintro ⟨r, r', hr, hr', hk⟩
    obtain ⟨p, e, hp, he, rfl⟩ := exists_of_entryAt hr
    obtain ⟨q, f, hq, hf, rfl⟩ := exists_of_entryAt hr'
    obtain rfl := h.slot_inj he hf hk
    exact ⟨p, hp, hq, hx.1.trans hy.1.symm⟩

omit [BEq K] [EquivBEq K] in
theorem beq_iff_of_ne (hne : d.id ≠ c.id) (hx : c.Hosts x) (hy : d.Hosts y) :
    (x == y) = true ↔ x.isEnd = true ∧ y.isEnd = true := by
  rw [Cursor.beq_iff, Cursor.isEnd, Cursor.isEnd, Option.isNone_iff_eq_none,
    Option.isNone_iff_eq_none]
  refine or_iff_left ?_
  rintro ⟨id, -, -, ho⟩
  exact hne ((hx.1.symm.trans ho).trans hy.1).symm

end Equality

/-- Equality of cursors is an equivalence that sees neither their kinds nor how they got to where
they are: in reachable states it compares the keys of the entries, or the caches, which are told
apart by their identities. A conversion leads to an equal cursor on the same entry. -/
theorem reached_cursors_compare [EquivBEq K] :
    (∀ x : Cursor, (x == x) = true) ∧ (∀ x y : Cursor, (x == y) = (y == x)) ∧
    (∀ x y z : Cursor, (x == y) = true → (y == z) = true → (x == z) = true) ∧
    ∀ (c : Cache K V) past, c.Reached past → ∀ x, c.Lends past x → c.Converts x ∧
      (∀ y, c.Lends past y → ((x == y) = true ↔ x.isEnd = true ∧ y.isEnd = true ∨
        ∃ r r', c.entryAt x = .ok r ∧ c.entryAt y = .ok r' ∧ (r.1 == r'.1) = true)) ∧
      ∀ (d : Cache K V) past', d.Reached past' → d.id ≠ c.id → ∀ y, d.Lends past' y →
        ((x == y) = true ↔ x.isEnd = true ∧ y.isEnd = true) := by
  refine ⟨fun x => BEq.rfl, fun x y => BEq.comm, fun x y z => BEq.trans, ?_⟩
  intro c past hc x hx
  obtain ⟨⟨items, free, h⟩, -⟩ := hc.holds
  have hosts := hx.hosts hc
  refine ⟨c.converts x, ?_, ?_⟩
  · intro y hy
    exact h.beq_iff hosts (hy.hosts hc)
  · intro d past' hd hne y hy
    exact beq_iff_of_ne hne hosts (hy.hosts hd)

/-- Found by its key and reached from the end, an entry has equal cursors of different kinds. The
entry in the same slot and under the same key of another cache has none that equals them. -/
theorem reached_cursors_compare_found : EquivBEq Nat ∧
    ∃ (c d : Cache Nat Nat) (past past' : List (Deed Nat Nat)) (x y z : Cursor),
      c.Reached past ∧ d.Reached past' ∧ d.id ≠ c.id ∧
      c.Lends past x ∧ c.Lends past y ∧ d.Lends past' z ∧
      x.kind = .unordered ∧ y.kind = .ordered ∧ (x == y) = true ∧ (x == z) = false := by
  obtain ⟨-, -, -, h⟩ := @reached_cursors_compare Nat Nat _ _
  have hboth : ∀ id, ∃ (c : Cache Nat Nat) (past : List (Deed Nat Nat)) (x y : Cursor),
      c.Reached past ∧ c.id = id ∧ c.Lends past x ∧ c.Lends past y ∧ x.kind = .unordered ∧
      y.kind = .ordered ∧ c.entryAt x = .ok (2, 20) ∧ c.entryAt y = .ok (2, 20) := by
    intro id
    exact ⟨_, _, _, _, ⟨id, 2, .capacity, .onInsert, [(0, .insert 1 10), (0, .insert 2 20)], _,
      rfl, rfl, rfl⟩, rfl,
      .ofStart none 0 (.find 2) nofun rfl,
      .moved (.ofStart none 0 .orderedEnd nofun rfl) .retreat,
      rfl, rfl, rfl, rfl⟩
  obtain ⟨c, past, x, y, hc, hcid, hx, hy, hkx, hky, hex, hey⟩ := hboth 0
  obtain ⟨d, past', z, -, hd, hdid, hz, -⟩ := hboth 1
  have hne : d.id ≠ c.id := by
    rw [hcid, hdid]
    decide
  obtain ⟨-, hsame, hother⟩ := h c past hc x hx
  refine ⟨inferInstance, c, d, past, past', x, y, z, hc, hd, hne, hx, hy, hz, hkx, hky, ?_, ?_⟩
  · exact (hsame y hy).mpr (.inr ⟨_, _, hex, hey, rfl⟩)
  · rw [Bool.eq_false_iff, Ne, hother d past' hd hne z hz]
    rintro ⟨hend, -⟩
    rw [entryAt, Option.isNone_iff_eq_none.mp hend] at hex
    cases hex

end Cache

end Lru
