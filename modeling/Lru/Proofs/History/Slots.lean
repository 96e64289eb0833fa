import Lru.Proofs.Cache.Slots
import Lru.Proofs.History.Effects

/-! # Slots and history

From the operations of a run one reads which slots were vacated and not taken
again. They are the vacant ones, and a new key takes the one vacated last, or
the next fresh one when there is none. The other keys stay in their slots, so
there are as many slots as entries were ever stored at once since the storage
last started anew.
-/

namespace Lru

open Reference

section Definitions

variable {K V : Type} [BEq K]

/-- Whether an operation packs the entries that it leaves into the first slots. -/
def Deed.repacks (d : Deed K V) : Bool :=
  d.before.repacks d.command

/-- Whether an operation starts the storage anew. -/
def Deed.renews (d : Deed K V) : Bool :=
  d.before.renews d.command

/-- The slots of the keys that an operation removes, in the order in which they go. -/
def Deed.vacated (d : Deed K V) : List SlotId :=
  Cache.slotsOnlyIn d.before.places d.after.places

/-- The slots of the keys that an operation adds. -/
def Deed.taken (d : Deed K V) : List SlotId :=
  Cache.slotsOnlyIn d.after.places d.before.places

namespace Cache

/-- The slots that were vacated and not taken since, the one vacated last at the front. -/
def waiting (history : List (Deed K V)) : List SlotId :=
  history.foldl (fun slots d =>
    if d.renews then [] else (d.vacated.reverse ++ slots).diff d.taken) []

/-- The largest value of `f` since `c` or since the storage last started anew. -/
def peak (f : Cache K V → Nat) (c : Cache K V) (history : List (Deed K V)) : Nat :=
  history.foldl (fun n d => if d.renews then f d.after else max n (f d.after)) (f c)

/-- After these operations on `c` the vacant slots of `e` are those that wait, and there are as many
slots as entries were stored at once, so no more than the largest capacity. -/
structure LaidOut (c : Cache K V) (past : List (Deed K V)) (e : Cache K V) : Prop where
  vacant : ∀ slot, slot ∈ waiting past ↔
    slot < e.order.slotCount ∧ e.order.contains slot = false
  slotCount : e.order.slotCount = peak len c past
  bounded : e.order.slotCount ≤ peak capacity c past

end Cache

/-- In which slots an operation leaves the keys, where `past` are the operations before it. -/
structure Deed.Placed (past : List (Deed K V)) (d : Deed K V) : Prop where
  /-- A new key takes the slot vacated last, or else the next fresh one. -/
  fresh : ∀ x ∈ d.after.places, stores x.1 d.before.entries = false →
    x.2 = (d.vacated.reverse ++ Cache.waiting past).headD d.before.order.slotCount
  /-- In a full cache that is the slot of the least recent entry, which makes room. -/
  full : ∀ x ∈ d.after.places, stores x.1 d.before.entries = false →
    d.before.isFull = true → d.before.order.head = some x.2
  /-- A key that stays keeps its slot. -/
  keeps : d.repacks = false → ∀ x ∈ d.before.places,
    stores x.1 d.after.entries = true → x ∈ d.after.places
  /-- Packing numbers the entries that stay in recency order. -/
  packed : d.repacks = true → d.after.places.map Prod.snd = List.range d.after.len ∧
    d.after.entries <:+ d.before.entries

end Definitions

namespace Cache

variable {K V : Type} [BEq K] {c : Cache K V} {past : List (Deed K V)} {d : Deed K V}
  {items : List (SlotId × Entry K V)} {free : List SlotId} {key : K}

theorem waiting_concat (past : List (Deed K V)) (d : Deed K V) : waiting (past ++ [d]) =
    if d.renews then [] else (d.vacated.reverse ++ waiting past).diff d.taken := by
  rw [waiting, List.foldl_append]
  rfl

omit [BEq K] in
theorem peak_concat (f : Cache K V → Nat) (c : Cache K V) (past : List (Deed K V)) (d : Deed K V) :
    peak f c (past ++ [d]) = if d.renews then f d.after else max (peak f c past) (f d.after) := by
  rw [peak, List.foldl_append]
  rfl

theorem Holds.absent_iff_stores (h : c.Holds items free) :
    KeyMap.Absent key (keyed items) ↔ stores key c.entries = false := by
  rw [stores_eq_false_iff, h.entries_eq]
  simp only [Missing, KeyMap.Absent, keyed, List.forall_mem_map]

theorem Holds.stores_of_mem_places [ReflBEq K] {x : K × SlotId} (h : c.Holds items free)
    (hx : x ∈ c.places) : stores x.1 c.entries = true := by
  rw [h.places_eq] at hx
  rw [← Bool.not_eq_false, ← h.absent_iff_stores]
  exact not_absent_of_mem hx

end Cache

namespace Deed

open Cache

variable {K V : Type} [BEq K] [EquivBEq K] {past : List (Deed K V)} {d : Deed K V}
  {items items' : List (SlotId × Entry K V)} {free free' : List SlotId} {x : K × SlotId}

theorem Sound.moves (hd : d.Sound) (h : d.before.Holds items free) :
    d.before.Moves items free d.renews d.after :=
  h.perform_moves hd.single hd.performed

theorem renews_of_new (hmoves : Relocates d.before.capacity d.before.order.slotCount items free
    d.renews items' free') (hx : x ∈ keyed items') (hnew : KeyMap.Absent x.1 (keyed items)) :
    d.renews = false := by
  cases hr : d.renews with
  | false => rfl
  | true =>
    rw [hr] at hmoves
    exact absurd hnew (hmoves.not_absent_of_renewed hx)

theorem waiting_eq (h : d.before.Holds items (waiting past)) (h' : d.after.Holds items' free')
    (hr : d.renews = false) (hmoves : Relocates d.before.capacity d.before.order.slotCount items
      (waiting past) false items' free') : waiting (past ++ [d]) = free' := by
  have hexchange := hmoves.exchange h.distinct_keyed
  rw [← h.places_eq, ← h'.places_eq] at hexchange
  rw [waiting_concat, hr, vacated, taken]
  generalize (slotsOnlyIn d.before.places d.after.places).reverse ++ waiting past = vacant
    at hexchange ⊢
  rcases hexchange with ⟨htaken, hfree⟩ | ⟨htaken, hfree⟩
  · rw [htaken, hfree]
    exact List.diff_nil vacant
  · rw [htaken, hfree]
    cases vacant with
    | nil => rfl
    | cons slot rest => simp

/-- A key that is stored before and after an operation stays in its slot, unless it is packed into
another one. -/
theorem Sound.keeps_places (hd : d.Sound) (hr : d.repacks = false) (hx : x ∈ d.before.places)
    (hstays : stores x.1 d.after.entries = true) : x ∈ d.after.places := by
  obtain ⟨items, free, hitems⟩ := hd.coherent
  obtain ⟨items', free', hafter, hmoves⟩ := hd.moves hitems
  rw [hitems.places_eq] at hx
  rw [hafter.places_eq]
  cases hrenews : d.renews with
  | false =>
    rw [hrenews] at hmoves
    refine hmoves.keeps hitems.distinct_keyed hx fun ha => ?_
    rw [hafter.absent_iff_stores, hstays] at ha
    cases ha
  | true =>
    -- Only clearing starts anew without packing, and then no key stays.
    have hcleared : d.after.entries = [] := by
      obtain ⟨c, now, command, o⟩ := d
      obtain rfl : command = .clear := eq_clear_of_renews hrenews hr
      have hp : c.perform now .clear = .ok o := hd.performed
      cases hp
      exact (holds_clear c).entries_eq
    rw [hcleared] at hstays
    cases hstays

end Deed

namespace Cache

variable {K V : Type} [BEq K] {c e : Cache K V} {past : List (Deed K V)} {d : Deed K V}

/-- After these operations on `c` the cache `e` holds entries beside the slots that wait, and there
are as many slots as entries were stored at once. -/
def Fills (c : Cache K V) (past : List (Deed K V)) (e : Cache K V) : Prop :=
  ∃ items, e.Holds items (waiting past) ∧ e.order.slotCount = peak len c past ∧
    e.order.slotCount ≤ peak capacity c past

theorem fills_start (id : UInt64) (capacity : Nat) (policy : Policy) (mode : RecencyMode) :
    Fills (start id capacity policy mode : Cache K V) [] (start id capacity policy mode) :=
  ⟨[], holds_start .., rfl, Nat.zero_le _⟩

theorem Fills.laidOut (h : Fills c past e) : LaidOut c past e := by
  obtain ⟨items, hitems, hcount, hbound⟩ := h
  refine ⟨fun slot => ?_, hcount, hbound⟩
  rw [hitems.order.vacates.mem_iff, RecencyList.contains_eq_false_iff]
  rfl

variable [EquivBEq K]

theorem Fills.step (h : Fills c past d.before) (hd : d.Sound) : Fills c (past ++ [d]) d.after := by
  obtain ⟨items, hitems, hcount, hbound⟩ := h
  obtain ⟨items', free', hafter, hmoves⟩ := hd.moves hitems
  have hle : d.after.len ≤ d.after.capacity := hafter.len_eq ▸ hafter.le_capacity
  cases hr : d.renews with
  | true =>
    rw [hr] at hmoves
    obtain ⟨-, -, rfl⟩ := hmoves.of_renewed
    have hlen : d.after.order.slotCount = d.after.len :=
      hafter.order.slotCount_eq.trans hafter.len_eq.symm
    refine ⟨items', ?_, ?_, ?_⟩
    · rwa [waiting_concat, hr]
    · rwa [peak_concat, hr]
    · rwa [peak_concat, hr, hlen]
  | false =>
    rw [hr] at hmoves
    have hslots := hmoves.slotCount hitems.order.length_add hafter.order.length_add
    rw [← hafter.len_eq] at hslots
    refine ⟨items', Deed.waiting_eq hitems hafter hr hmoves ▸ hafter, ?_, ?_⟩
    · rw [peak_concat, hr, hslots, hcount]
      rfl
    · have hmax : max d.before.order.slotCount d.after.len ≤
          max (peak capacity c past) d.after.capacity := by omega
      rwa [peak_concat, hr, hslots]

theorem Fills.placed (h : Fills c past d.before) (hd : d.Sound) : d.Placed past := by
  obtain ⟨items, hitems, -⟩ := h
  obtain ⟨items', free', hafter, hmoves⟩ := hd.moves hitems
  have hplaces := hafter.places_eq
  constructor
  case fresh =>
    intro x hx hnew
    rw [← hitems.absent_iff_stores] at hnew
    rw [hplaces] at hx
    rw [Deed.renews_of_new hmoves hx hnew] at hmoves
    have htaken := mem_slotsOnlyIn hx hnew
    rw [Deed.vacated, hitems.places_eq, hplaces]
    rcases hmoves.exchange hitems.distinct_keyed with ⟨hnone, -⟩ | ⟨hone, -⟩
    · rw [hnone] at htaken
      cases htaken
    · rw [hone] at htaken
      exact List.mem_singleton.mp htaken
  case full =>
    intro x hx hnew hfull
    rw [← hitems.absent_iff_stores] at hnew
    rw [hplaces] at hx
    rw [Deed.renews_of_new hmoves hx hnew] at hmoves
    have hle : d.before.capacity ≤ items.length := by
      simpa [isFull, hitems.len_eq] using hfull
    rw [hitems.order.head]
    exact hmoves.of_full hle hx hnew
  case keeps => exact fun hr x hx hstays => hd.keeps_places hr hx hstays
  case packed =>
    intro hr
    rw [Deed.renews, renews_of_repacks hr] at hmoves
    obtain ⟨hsuffix, hslots, -⟩ := hmoves.of_renewed
    rw [hplaces, hslots, hafter.len_eq, hafter.entries_eq, hitems.entries_eq]
    exact ⟨rfl, hsuffix⟩

/-- A key stays in its slot as long as it is neither removed nor packed into another one. -/
theorem Coherent.run_keeps_places (h : c.Coherent) (more : List (Instant × Command K V)) :
    ∃ p, c.run more = .ok p ∧ ∀ x ∈ c.places,
      (∀ d ∈ c.history more, d.removes x.1 = false ∧ d.repacks = false) → x ∈ p.cache.places := by
  obtain ⟨p, hp, hI, -⟩ := h.history_induction more
    (I := fun past e => ∀ x ∈ c.places,
      (∀ d ∈ past, d.removes x.1 = false ∧ d.repacks = false) → x ∈ e.places)
    (fun x hx _ => hx) (by
      intro past d hd _ hI x hx hall
      obtain ⟨hpast, hlast⟩ := List.forall_mem_append.mp hall
      obtain ⟨hremoves, hr⟩ := hlast d List.mem_cons_self
      have hbefore : x ∈ d.before.places := hI x hx hpast
      obtain ⟨items, free, hitems⟩ := hd.coherent
      rw [hd.removes_eq, hitems.stores_of_mem_places hbefore, Bool.true_and,
        Bool.not_eq_false'] at hremoves
      exact hd.keeps_places hr hbefore hremoves)
  exact ⟨p, hp, hI⟩

/-- In every run a new key takes the slot vacated last, or the next fresh one, and in a full cache
that of the key that makes room for it. A key stays in its slot until it is removed or resizing
packs the entries that are left into the first slots, and there are as many slots as entries were
stored at once since the storage last started anew. -/
theorem run_placed (id : UInt64) (capacity : Nat) (policy : Policy) (mode : RecencyMode)
    (steps : List (Instant × Command K V)) :
    ∃ o, (start id capacity policy mode : Cache K V).run steps = .ok o ∧
      LaidOut (start id capacity policy mode)
        ((start id capacity policy mode).history steps) o.cache ∧
      (∀ past d future, (start id capacity policy mode).history steps = past ++ d :: future →
        LaidOut (start id capacity policy mode) past d.before ∧ d.Placed past) ∧
      ∀ more, ∃ p, o.cache.run more = .ok p ∧ ∀ x ∈ o.cache.places,
        (∀ d ∈ o.cache.history more, d.removes x.1 = false ∧ d.repacks = false) →
          x ∈ p.cache.places := by
  have hc : (start id capacity policy mode : Cache K V).Coherent := coherent_start ..
  obtain ⟨o, ho, hfills, hdeeds⟩ := hc.history_induction steps
    (I := fun past e => Fills (start id capacity policy mode) past e) (fills_start ..)
    fun past d hd _ hI => hI.step hd
  refine ⟨o, ho, hfills.laidOut, fun past d future hsplit => ?_, fun more => ?_⟩
  · obtain ⟨hd, -, hI⟩ := hdeeds past d future hsplit
    exact ⟨hI.laidOut, hI.placed hd⟩
  · exact (hc.of_run ho).run_keeps_places more

/-- Of two vacated slots the new key takes the one vacated last, and what follows leaves the other
key in its slot. -/
theorem run_placed_last : EquivBEq Nat ∧ ∃ o p, ∃ past : List (Deed Nat Nat), ∃ d : Deed Nat Nat,
    (start 0 3 .capacity .onInsert : Cache Nat Nat).run [(0, .insert 1 10), (0, .insert 2 20),
      (0, .insert 3 30), (0, .erase 2), (0, .erase 1), (0, .insert 4 40)] = .ok o ∧
    Deed.Placed past d ∧ waiting past = [0, 1] ∧ d.after.places = [(3, 2), (4, 0)] ∧
    o.cache.run [(0, .touch 3), (0, .insert 5 50)] = .ok p ∧
    (∀ d ∈ o.cache.history [(0, .touch 3), (0, .insert 5 50)],
      d.removes 3 = false ∧ d.repacks = false) ∧
    (3, 2) ∈ p.cache.places := by
  obtain ⟨o, ho, -, hdeeds, hmore⟩ := run_placed 0 3 .capacity .onInsert
    [(0, .insert 1 10), (0, .insert 2 20), (0, .insert 3 30), (0, .erase 2), (0, .erase 1),
      (0, .insert (4 : Nat) (40 : Nat))]
  obtain ⟨-, hplaced⟩ := hdeeds _ _ [] (List.dropLast_append_getLast (by decide)).symm
  obtain ⟨p, hp, hkeeps⟩ := hmore [(0, .touch 3), (0, .insert 5 50)]
  have hview : ((start 0 3 .capacity .onInsert : Cache Nat Nat).run [(0, .insert 1 10),
      (0, .insert 2 20), (0, .insert 3 30), (0, .erase 2), (0, .erase 1), (0, .insert 4 40)]).map
      (fun o => (o.cache.places, (o.cache.history [(0, .touch 3), (0, .insert 5 50)]).all
        fun d => !d.removes 3 && !d.repacks)) = .ok ([(3, 2), (4, 0)], true) := by rfl
  rw [ho] at hview
  obtain ⟨hplaces, hall⟩ := Prod.mk.inj (Except.ok.inj hview)
  have hquiet : ∀ d ∈ o.cache.history [(0, .touch 3), (0, .insert 5 50)],
      d.removes 3 = false ∧ d.repacks = false := by
    intro d hd
    simpa using List.all_eq_true.mp hall d hd
  exact ⟨inferInstance, o, p, _, _, ho, hplaced, by rfl, by rfl, hp, hquiet,
    hkeeps (3, 2) (by simp [hplaces]) hquiet⟩

end Cache

end Lru
