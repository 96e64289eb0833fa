import Lru.Proofs.History.Basic
import Lru.Proofs.Reference.Effects

/-! # What an operation does to the entries

From its answer and its announcements one reads which key an operation promotes
and which keys it removes. The entries bear this out: the promoted one is the
last and newly stamped, the removed ones are gone, and nothing else changes
place or stamp. An operation that makes room removes entries from the front.
-/

namespace Lru

namespace Deed

variable {K V : Type} [BEq K]

section Definitions

/-- Whether an operation announces that it met a live entry. -/
def hit (d : Deed K V) : Bool :=
  d.outcome.notices.any Notice.isHit

/-- The key that an operation makes the most recent one and stamps: a key stored or given a new
value, a key touched, or, where accesses promote, a key found by an access that may change it. -/
def promoted? (d : Deed K V) : Option K :=
  match d.command, d.outcome.result with
  | .insert key _, .inserted result => if result.handle.isEnd then none else some key
  | .touch key, .flag true => some key
  | .lookupMut key _, .valueOr (.ok _) => if d.before.mode = .onAccess then some key else none
  | .getOrInsert key _, _ =>
    if d.hit then
      if d.before.mode = .onAccess then some key else none
    else
      if d.before.capacity = 0 then none else some key
  | _, _ => none

def promotes (d : Deed K V) (key : K) : Bool :=
  d.promoted?.any (key == ·)

/-- The entries whose keys are stored before an operation and not after it. -/
def lost (d : Deed K V) : List (Entry K V) :=
  Reference.lost d.before.entries d.after.entries

/-- The keys that an operation removes: a key erased, by itself or with a handle, the key taken
from the front, every key when the cache is cleared, and the keys that an insertion, a new
capacity or a purge evicts. -/
def removedKeys (d : Deed K V) : List K :=
  match d.command, d.outcome.result with
  | .erase key, .flag true => [key]
  | .eraseAt _, .entryOr (.ok (key, _)) => [key]
  | .popFront, .popped (some (key, _)) => [key]
  | .clear, _ => d.before.entries.map Entry.key
  | .insert _ _, _ | .getOrInsert _ _, _ | .setCapacity _, _ | .purgeExpired, _ =>
    d.lost.map Entry.key
  | _, _ => []

def removes (d : Deed K V) (key : K) : Bool :=
  d.removedKeys.any (key == ·)

end Definitions

end Deed

namespace Cache

/-- Whether a request reads and never writes, moves or removes an entry. -/
def Command.reads {K V : Type} : Command K V → Bool
  | .lookup _ | .contains _ | .cursor _ _ | .traverse _ => true
  | .front | .back | .isExpired _ | .remainingTtl _ | .allExpired | .checkInvariants => true
  | _ => false

/-- Whether a request stores, stamps and changes no entry. -/
def Command.keepsOrRemoves {K V : Type} : Command K V → Bool
  | .insert _ _ | .insertAll _ | .getOrInsert _ _ | .lookupMut _ _ | .touch _ => false
  | _ => true

/-- Whether a request makes room at the front. -/
def Command.evicts {K V : Type} : Command K V → Bool
  | .insert _ _ | .getOrInsert _ _ | .popFront | .setCapacity _ | .purgeExpired => true
  | _ => false

/-- Whether a request keeps the order of the entries, where `mode` tells what accesses do. -/
def Command.keepsOrder {K V : Type} (mode : RecencyMode) : Command K V → Bool
  | .lookupMut _ _ => mode == .onInsert
  | command => command.reads

variable {K V α β : Type} [BEq K] {c : Cache K V} {now : Instant}

/-- What a request leaves in the reference of a cache. -/
def leaves (c : Cache K V) (now : Instant) (command : Command K V) : Reference K V :=
  match c.request? command with
  | some request => (c.reference.perform now request).reference
  | none => c.reference

theorem Coherent.perform_reference [EquivBEq K] (h : c.Coherent) {command : Command K V}
    {o : Outcome K V (Answer K V)} (ho : c.perform now command = .ok o) :
    o.cache.reference = c.leaves now command := by
  rw [leaves]
  cases hr : c.request? command with
  | some request =>
    obtain ⟨o', ho', hs⟩ := h.perform_simulates now hr
    obtain rfl : o = o' := Except.ok.inj (ho.symm.trans ho')
    exact hs.reference
  | none =>
    obtain ⟨answer, ha⟩ := perform_of_request?_eq_none hr now
    obtain rfl : o = c.keeping answer := Except.ok.inj (ho.symm.trans ha)
    rfl

theorem Coherent.perform_rules [EquivBEq K] (h : c.Coherent) {command : Command K V}
    {o : Outcome K V (Answer K V)} (ho : c.perform now command = .ok o) :
    o.cache.reference.rules = c.reference.rules := by
  rw [h.perform_reference ho, leaves]
  split
  · exact Reference.perform_rules _ now _
  · rfl

theorem Simulates.entries {o : Outcome K V α} {q : Reference.Outcome K V β}
    {agree : Cache K V → α → β → Prop} (h : Simulates c o q agree) :
    o.cache.entries = q.reference.entries :=
  congrArg Reference.entries h.reference

theorem simulates_of_ok {x : Except Fault (Outcome K V α)} {o : Outcome K V α}
    {q : Reference.Outcome K V β} {agree : Cache K V → α → β → Prop}
    (h : ∃ o, x = .ok o ∧ Simulates c o q agree) (ho : x = .ok o) : Simulates c o q agree := by
  obtain ⟨o', ho', hs⟩ := h
  obtain rfl : o' = o := Except.ok.inj (ho'.symm.trans ho)
  exact hs

omit [BEq K] in
theorem isEnd_of_address {h : Handle} {place : Option Nat} (hp : c.address h = .ok place) :
    h.isEnd = place.isNone := by
  unfold address validate at hp
  split at hp
  · cases hp
  · split at hp
    · cases hp
    · obtain rfl := Except.ok.inj hp
      simp [Handle.isEnd, Cache.place]

theorem lookup_reference (r : Reference K V) (now : Instant) (key : K) :
    (r.lookup now key).reference = r := by
  unfold Reference.lookup
  split <;> rfl

theorem Coherent.perform_reads [EquivBEq K] (h : c.Coherent) {command : Command K V}
    {o : Outcome K V (Answer K V)} (ho : c.perform now command = .ok o)
    (hr : command.reads = true) : o.cache.reference = c.reference := by
  rw [h.perform_reference ho]
  cases command with
  | lookup key => exact lookup_reference c.reference now key
  | cursor start moves => cases start <;> rfl
  | contains key => rfl
  | front => rfl
  | back => rfl
  | isExpired key => rfl
  | remainingTtl key => rfl
  | allExpired => rfl
  | checkInvariants => rfl
  | traverse moves => rfl
  | _ => cases hr

theorem Coherent.entries_of_reads [EquivBEq K] (h : c.Coherent) {command : Command K V}
    {o : Outcome K V (Answer K V)} (ho : c.perform now command = .ok o)
    (hr : command.reads = true) : o.cache.entries = c.entries :=
  congrArg Reference.entries (h.perform_reads ho hr)

theorem Coherent.perform_sublist [EquivBEq K] (h : c.Coherent) {command : Command K V}
    {o : Outcome K V (Answer K V)} (ho : c.perform now command = .ok o)
    (hk : command.keepsOrRemoves = true) : o.cache.entries.Sublist c.entries := by
  have he : o.cache.entries = (c.leaves now command).entries :=
    congrArg Reference.entries (h.perform_reference ho)
  cases command with
  | erase key => exact he ▸ List.eraseP_sublist
  | eraseAt g => exact he ▸ Reference.eraseAt_sublist c.reference (c.address g)
  | popFront => exact he ▸ List.tail_sublist _
  | clear => exact he ▸ List.nil_sublist _
  | setCapacity capacity => exact he ▸ List.drop_sublist _ _
  | purgeExpired => exact he ▸ List.dropWhile_sublist _
  | insert key value => cases hk
  | insertAll pairs => cases hk
  | getOrInsert key make => cases hk
  | lookupMut key update => cases hk
  | touch key => cases hk
  | _ => exact h.entries_of_reads ho rfl ▸ List.Sublist.refl _

theorem Coherent.proper [PartialEquivBEq K] (h : c.Coherent) : c.reference.Proper := by
  obtain ⟨items, free, h⟩ := h
  have he : c.reference.entries = items.map Prod.snd := h.entries_eq
  have hd : KeyMap.Distinct (keyed items) := h.distinct.perm h.index
  refine ⟨?_, ?_⟩
  · rw [he]
    exact List.pairwise_map.mpr (List.pairwise_map.mp hd)
  · rw [he, List.length_map]
    exact h.le_capacity

end Cache

namespace Deed

variable {K V : Type} [BEq K] [EquivBEq K] {d : Deed K V}

open Cache Reference

theorem Sound.rules (h : d.Sound) : d.after.reference.rules = d.before.reference.rules :=
  h.coherent.perform_rules h.performed

/-- The promoted key is that of the last entry, which is newly stamped, and the other entries keep
their order and their stamps. -/
theorem Sound.effect (h : d.Sound) :
    Effect d.now d.before.entries d.promoted? d.after.entries := by
  obtain ⟨c, now, command, o⟩ := d
  obtain ⟨hc, performed, single⟩ := h
  have coherent : c.Coherent := hc
  have proper : c.reference.Proper := coherent.proper
  obtain ⟨items, free, h⟩ := hc
  change c.perform now command = .ok o at performed
  change Effect now c.entries _ o.cache.entries
  cases command with
  | insert key value =>
    obtain ⟨o, ho, rfl⟩ := exists_of_map_eq_ok performed
    have hs := simulates_of_ok (h.insert_simulates now key value) ho
    have hend : o.result.handle.isEnd = decide (c.capacity = 0) :=
      (isEnd_of_address hs.result.2).trans (proper.insert_isNone now key value)
    have he := proper.insert_effect now key value
    rw [← hs.entries] at he
    simp only [promoted?, Outcome.map, hend, decide_eq_true_eq]
    exact he
  | insertAll pairs => exact absurd rfl (single pairs)
  | getOrInsert key make =>
    obtain ⟨o, ho, rfl⟩ := exists_of_map_eq_ok performed
    have hs := simulates_of_ok (h.getOrInsert_simulates now key make) ho
    have he := proper.getOrInsert_effect now key make
    rw [← hs.entries, ← hs.notices] at he
    exact he
  | lookupMut key update =>
    cases performed
    have hs := h.lookupMut_simulates now key update
    have he := proper.lookupMut_effect now key update
    rw [← hs.entries, ← hs.result] at he
    cases hr : (c.lookupMut now key update).result with
    | error e =>
      rw [hr] at he
      simp only [promoted?, Outcome.map, hr]
      exact he
    | ok value =>
      rw [hr] at he
      simp only [promoted?, Outcome.map, hr]
      exact he
  | touch key =>
    cases performed
    have hs := h.touch_simulates now key
    have he := proper.touch_effect now key
    rw [← hs.entries, ← hs.result] at he
    cases hr : (c.touch now key).result with
    | false =>
      rw [hr] at he
      simp only [promoted?, Outcome.map, hr]
      exact he
    | true =>
      rw [hr] at he
      simp only [promoted?, Outcome.map, hr]
      exact he
  | _ => exact .of_sublist (coherent.perform_sublist performed rfl)

theorem removes_of_lost (h : d.removedKeys = d.lost.map Entry.key) (key : K) :
    d.removes key = (stores key d.before.entries && !stores key d.after.entries) := by
  rw [removes, h, List.any_map]
  exact any_lost key d.before.entries d.after.entries

omit [EquivBEq K] in
theorem removes_of_stores (h : d.removedKeys = []) {key : K}
    (hs : stores key d.after.entries = stores key d.before.entries) :
    d.removes key = (stores key d.before.entries && !stores key d.after.entries) := by
  rw [removes, h, hs, Bool.and_not_self]
  rfl

/-- An operation removes the keys that are stored before it and not after it. -/
theorem Sound.removes_eq (h : d.Sound) (key : K) :
    d.removes key = (stores key d.before.entries && !stores key d.after.entries) := by
  obtain ⟨c, now, command, o⟩ := d
  obtain ⟨hc, performed, single⟩ := h
  have coherent : c.Coherent := hc
  have distinct : Distinct c.reference.entries := coherent.proper.distinct
  obtain ⟨items, free, h⟩ := hc
  change c.perform now command = .ok o at performed
  cases command with
  | insert k value => exact removes_of_lost rfl key
  | insertAll pairs => exact absurd rfl (single pairs)
  | getOrInsert k make => exact removes_of_lost rfl key
  | lookupMut k update =>
    cases performed
    have hs := h.lookupMut_simulates now k update
    refine removes_of_stores rfl (Eq.trans (congrArg (stores key) hs.entries) ?_)
    unfold Reference.lookupMut
    cases hl : c.reference.liveEntry now k with
    | none => rfl
    | some entry =>
      simp only [stores_write]
      exact distinct.stores_promoteOnAccess (entryOf_of_liveEntry hl) now
  | touch k =>
    cases performed
    have hs := h.touch_simulates now k
    refine removes_of_stores rfl (Eq.trans (congrArg (stores key) hs.entries) ?_)
    unfold Reference.touch
    cases hl : c.reference.liveEntry now k with
    | none => rfl
    | some entry => exact distinct.stores_promote (entryOf_of_liveEntry hl) now
  | erase k =>
    obtain ⟨o, ho, rfl⟩ := exists_of_map_eq_ok performed
    have hs := simulates_of_ok (h.erase_simulates k) ho
    have hr := distinct.erase_removes key k
    rw [← hs.entries, ← hs.result] at hr
    refine Eq.trans ?_ hr
    cases ho : o.result <;> simp [removes, removedKeys, Outcome.map, ho]
  | eraseAt g =>
    cases performed
    have hs := h.eraseAt_simulates g
    have hr := distinct.eraseAt_removes key (c.address g)
    rw [← hs.entries, ← hs.result] at hr
    refine Eq.trans ?_ hr
    cases ho : (c.eraseAt g).result <;> simp [removes, removedKeys, Outcome.map, ho]
  | popFront =>
    cases performed
    have hs := h.popFront_simulates
    have hr := distinct.popFront_removes key
    rw [← hs.entries, ← hs.result] at hr
    refine Eq.trans ?_ hr
    cases ho : c.popFront.result <;> simp [removes, removedKeys, Outcome.map, ho]
  | clear =>
    cases performed
    have he : c.clear.entries = [] := (holds_clear c).entries_eq
    change _ = (stores key c.entries && !stores key c.clear.entries)
    rw [he, removes, removedKeys, List.any_map]
    exact (Bool.and_true _).symm
  | setCapacity capacity => exact removes_of_lost rfl key
  | purgeExpired => exact removes_of_lost rfl key
  | _ =>
    exact removes_of_stores rfl (congrArg (stores key) (coherent.entries_of_reads performed rfl))

/-- An operation that makes room removes entries from the front. -/
theorem Sound.lost_prefix (h : d.Sound) (he : d.command.evicts = true) :
    d.lost <+: d.before.entries := by
  obtain ⟨c, now, command, o⟩ := d
  obtain ⟨hc, performed, -⟩ := h
  have proper : c.reference.Proper := hc.proper
  have hl : o.cache.entries = (c.leaves now command).entries :=
    congrArg Reference.entries (hc.perform_reference performed)
  change Reference.lost c.entries o.cache.entries <+: c.entries
  rw [hl]
  cases command with
  | insert key value => exact proper.insert_lost now key value
  | getOrInsert key make => exact proper.getOrInsert_lost now key make
  | popFront => exact proper.distinct.lost_suffix (List.tail_suffix _)
  | setCapacity capacity => exact proper.distinct.lost_suffix (List.drop_suffix _ _)
  | purgeExpired => exact proper.distinct.lost_suffix (List.dropWhile_suffix _)
  | _ => cases he

omit [BEq K] [EquivBEq K] in
theorem promoted?_of_reads (h : d.command.reads = true) : d.promoted? = none := by
  obtain ⟨c, now, command, o⟩ := d
  cases command with
  | insert key value => cases h
  | getOrInsert key make => cases h
  | lookupMut key update => cases h
  | touch key => cases h
  | _ => rfl

/-- Reading promotes no key and leaves the keys in their order, and so does writing where accesses
do not promote. -/
theorem Sound.keepsOrder (h : d.Sound) (hk : d.command.keepsOrder d.before.mode = true) :
    d.promoted? = none ∧ d.after.entries.map Entry.key = d.before.entries.map Entry.key := by
  obtain ⟨c, now, command, o⟩ := d
  obtain ⟨hc, performed, -⟩ := h
  have coherent : c.Coherent := hc
  obtain ⟨items, free, h⟩ := hc
  change c.perform now command = .ok o at performed
  change _ ∧ o.cache.entries.map Entry.key = c.entries.map Entry.key
  cases command with
  | lookupMut key update =>
    have hm : c.mode = .onInsert := by simpa [Command.keepsOrder] using hk
    cases performed
    refine ⟨?_, ?_⟩
    · cases hr : (c.lookupMut now key update).result <;> simp [promoted?, Outcome.map, hr, hm]
    · refine (congrArg (·.map Entry.key) (h.lookupMut_simulates now key update).entries).trans ?_
      unfold Reference.lookupMut
      split
      · simp only [← map_fst_dated, dated_write]
        rw [Reference.promoteOnAccess, show c.reference.mode = .onInsert from hm]
        rfl
      · rfl
  | _ => exact ⟨promoted?_of_reads hk, congrArg _ (coherent.entries_of_reads performed hk)⟩

end Deed

end Lru
