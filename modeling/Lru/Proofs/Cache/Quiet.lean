import Lru.Proofs.Cache.LastAccessed
import Lru.Proofs.History.Effects

/-! # Quiet requests

Reading, and failing to change anything, leave a cache as it is but for the last
accessed slot, which may be set or forgotten on the way.
-/

namespace Lru

/-- Writing what a stored node holds already changes nothing. -/
theorem RecencyList.modify_eq_self {α : Type} {l : RecencyList α} {id : SlotId} {f : α → α}
    {value : α} (h : l.get? id = some value) (hf : f value = value) : l.modify id f = l := by
  have hslots : l.nodes.slots.modify id (Slot.update fun node => { node with
      value := f node.value }) = l.nodes.slots := by
    refine Array.ext_getElem? fun j => ?_
    rw [Array.getElem?_modify]
    split
    · next he =>
      subst he
      simp only [get?, Arena.get?] at h
      cases hs : l.nodes.slots[id]? with
      | none => rfl
      | some slot =>
        cases slot with
        | vacant next => rfl
        | occupied node =>
          obtain rfl : node.value = value := by simpa [hs, Slot.value?] using h
          simp [Slot.update, hf]
    · rfl
  simp only [modify, Arena.modify, hslots]

namespace Cache

variable {K V α : Type} [BEq K] {c : Cache K V} {items : List (SlotId × Entry K V)}
  {free : List SlotId} {now : Instant} {key : K}

/-- Whether a request that gets this answer is quiet: it reads, or it fails to change anything. -/
def Quiet (c : Cache K V) (now : Instant) : Command K V → Answer K V → Prop
  -- An access that may change an entry misses, or meets one that it neither moves nor changes.
  | .lookupMut _ _, .valueOr (.error _) => True
  | .lookupMut _ update, .valueOr (.ok value) => c.mode = .onInsert ∧ update value = value
  | .getOrInsert key _, _ => c.mode = .onInsert ∧ (c.contains now key).result = true
  -- There is nothing to touch, to remove, to store or to make room for.
  | .touch _, answer | .erase _, answer => answer = .flag false
  | .eraseAt _, .entryOr (.error _) => True
  | .popFront, _ => c.isEmpty = true
  | .insert key _, _ => c.capacity = 0 ∧ c.index.contains key = false
  | .purgeExpired, answer => answer = .count 0
  | .setCapacity capacity, _ => capacity = c.capacity
  | command, _ => command.reads = true

section Steps

omit [BEq K] in
theorem forget_remembering_none (c : Cache K V) (id : SlotId) :
    (c.forget id).remembering none = c.remembering none := by
  rw [forget_eq]
  rfl

theorem resolve_remembering_none (c : Cache K V) (now : Instant) (key : K) :
    (c.resolve now key).cache.remembering none = c.remembering none := by
  unfold resolve
  split
  · rfl
  · split
    · rfl
    · split
      · rfl
      · exact c.forget_remembering_none _

theorem lookup_remembering_none (c : Cache K V) (now : Instant) (key : K) :
    (c.lookup now key).cache.remembering none = c.remembering none := by
  simp only [lookup]
  split
  · exact c.resolve_remembering_none now key
  · exact c.resolve_remembering_none now key

theorem walk_remembering_none (c : Cache K V) (now : Instant) (start : Cursor.Start K)
    (moves : List Cursor.Move) :
    (c.walk now start moves).cache.remembering none = c.remembering none := by
  cases start with
  | find key => exact c.resolve_remembering_none now key
  | _ => rfl

theorem perform_remembering_none {command : Command K V} {o : Outcome K V (Answer K V)}
    (hr : command.reads = true) (ho : c.perform now command = .ok o) :
    o.cache.remembering none = c.remembering none := by
  cases command with
  | lookup key =>
    cases ho
    exact c.lookup_remembering_none now key
  | contains key =>
    cases ho
    exact c.resolve_remembering_none now key
  | cursor start moves =>
    cases ho
    exact c.walk_remembering_none now start moves
  | front | back | isExpired key | remainingTtl key | allExpired | checkInvariants
  | traverse moves =>
    cases ho
    rfl
  | _ => cases hr

end Steps

section Accesses

variable [EquivBEq K]

omit [BEq K] [EquivBEq K] in
theorem promoteOnAccess_onInsert (hmode : c.mode = .onInsert) (now : Instant) (id : SlotId) :
    c.promoteOnAccess now id = c := by
  rw [promoteOnAccess, hmode]

theorem Holds.lookupMut_quiet (h : c.Holds items free) {update : V → V}
    (hq : c.Quiet now (.lookupMut key update) (.valueOr (c.lookupMut now key update).result)) :
    (c.lookupMut now key update).cache.remembering none = c.remembering none := by
  cases h.resolution now key with
  | miss memo resolved remembers dead =>
    simp only [lookupMut, resolved]
    rfl
  | hit p id entry s split same resolved live silent =>
    subst split
    obtain ⟨p', entry', s', hd, -, hvalue⟩ := (h.remembering (some id)).promoteOnAccess now
    have hresult : (c.lookupMut now key update).result = .ok entry.value := by
      simp [lookupMut, resolved, hd.get?_order, hvalue]
    rw [hresult] at hq
    obtain ⟨hmode, hupdate⟩ := hq
    have hkept := promoteOnAccess_onInsert (c := c.remembering (some id)) hmode now id
    have hwritten : c.order.modify id (fun e => { e with value := update e.value }) = c.order :=
      RecencyList.modify_eq_self h.get?_order (by rw [hupdate])
    simp only [lookupMut, resolved, hkept, order_remembering, h.get?_order, hwritten]
    rfl

theorem Holds.getOrInsert_quiet (h : c.Holds items free) {make : K → V} {o : Outcome K V V}
    (hmode : c.mode = .onInsert) (hhit : (c.contains now key).result = true)
    (ho : c.getOrInsert now key make = .ok o) :
    o.cache.remembering none = c.remembering none := by
  cases h.resolution now key with
  | miss memo resolved remembers dead =>
    rw [contains, resolved] at hhit
    cases hhit
  | hit p id entry s split same resolved live silent =>
    subst split
    have hkept := promoteOnAccess_onInsert (c := c.remembering (some id)) hmode now id
    simp only [getOrInsert, resolved, hkept, Option.bind_some, order_remembering,
      h.get?_order] at ho
    cases ho
    rfl

theorem Holds.touch_quiet (h : c.Holds items free) (hq : (c.touch now key).result = false) :
    (c.touch now key).cache.remembering none = c.remembering none := by
  cases h.resolution now key with
  | miss memo resolved remembers dead =>
    simp only [touch, resolved]
    rfl
  | hit p id entry s split same resolved live silent =>
    simp only [touch, resolved] at hq
    cases hq

end Accesses

section Updates

theorem Holds.eraseAt_quiet (h : c.Holds items free) {g : Handle}
    (hq : c.Quiet now (.eraseAt g) (.entryOr (c.eraseAt g).result)) :
    (c.eraseAt g).cache = c := by
  cases hv : c.validate g with
  | error e => rw [eraseAt_of_error hv]
  | ok slot =>
    cases slot with
    | none => rw [eraseAt_of_none hv]
    | some id =>
      by_cases hid : id ∈ items.map Prod.fst
      · obtain ⟨⟨id, entry⟩, hm, rfl⟩ := List.mem_map.mp hid
        obtain ⟨p, s, rfl⟩ := List.append_of_mem hm
        rw [Cache.eraseAt_of_mem h.order hv] at hq
        cases hq
      · rw [Cache.eraseAt_of_vacant h.order hv hid]

variable [EquivBEq K]

theorem Holds.erase_quiet (h : c.Holds items free) {o : Outcome K V Bool}
    (ho : c.erase key = .ok o) (hq : o.result = false) : o.cache = c := by
  rcases absent_or key items with ha | ⟨p, id, entry, s, rfl, hk⟩
  · rw [h.erase_of_absent ha] at ho
    cases ho
    rfl
  · rw [h.erase_of_mem hk] at ho
    cases ho
    cases hq

omit [EquivBEq K] in
theorem Holds.popFront_quiet (h : c.Holds items free) (hq : c.isEmpty = true) :
    c.popFront.cache = c := by
  obtain rfl : items = [] := by simpa [isEmpty, h.len_eq] using hq
  rw [Cache.popFront_nil h.order]

theorem Holds.setCapacity_quiet (h : c.Holds items free) {o : Outcome K V Unit}
    (ho : c.setCapacity c.capacity = .ok o) : o.cache = c := by
  rw [h.setCapacity_of_fits h.le_capacity] at ho
  cases ho
  rfl

theorem Holds.purgeExpired_quiet (h : c.Holds items free) {o : Outcome K V Nat}
    (ho : c.purgeExpired now = .ok o) (hq : o.result = 0) : o.cache = c := by
  by_cases he : c.expired now items = []
  · rw [h.purgeExpired_of_live he] at ho
    cases ho
    rfl
  · rw [h.purgeExpired_of_dead he] at ho
    cases ho
    exact absurd (List.length_eq_zero_iff.mp hq) he

end Updates

/-- A quiet request leaves the cache as it is, up to the last accessed slot. -/
theorem Coherent.quiet [EquivBEq K] (h : c.Coherent) {command : Command K V}
    {o : Outcome K V (Answer K V)} (ho : c.perform now command = .ok o)
    (hq : c.Quiet now command o.result) : o.cache.remembering none = c.remembering none := by
  obtain ⟨items, free, h⟩ := h
  cases command with
  | insert key value =>
    obtain ⟨o', ho', rfl⟩ := exists_of_map_eq_ok ho
    obtain ⟨hcapacity, habsent⟩ := hq
    have hg : c.index.get? key = none := by simpa [KeyMap.contains] using habsent
    simp only [insert, hg, hcapacity, if_true] at ho'
    cases ho'
    rfl
  | insertAll pairs => cases hq
  | getOrInsert key make =>
    obtain ⟨o', ho', rfl⟩ := exists_of_map_eq_ok ho
    exact h.getOrInsert_quiet hq.1 hq.2 ho'
  | lookupMut key update =>
    cases ho
    exact h.lookupMut_quiet hq
  | touch key =>
    cases ho
    exact h.touch_quiet (Answer.flag.inj hq)
  | erase key =>
    obtain ⟨o', ho', rfl⟩ := exists_of_map_eq_ok ho
    exact congrArg (remembering · none) (h.erase_quiet ho' (Answer.flag.inj hq))
  | eraseAt g =>
    cases ho
    exact congrArg (remembering · none) (h.eraseAt_quiet hq)
  | popFront =>
    cases ho
    exact congrArg (remembering · none) (h.popFront_quiet hq)
  | clear => cases hq
  | setCapacity capacity =>
    obtain ⟨o', ho', rfl⟩ := exists_of_map_eq_ok ho
    obtain rfl : capacity = c.capacity := hq
    exact congrArg (remembering · none) (h.setCapacity_quiet ho')
  | purgeExpired =>
    obtain ⟨o', ho', rfl⟩ := exists_of_map_eq_ok ho
    exact congrArg (remembering · none) (h.purgeExpired_quiet ho' (Answer.count.inj hq))
  | _ => exact perform_remembering_none rfl ho

end Cache

end Lru
