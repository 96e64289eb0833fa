import Lru.Cache.Command

/-! # Requests and the clock

A cache with a time to live reads its clock to judge the age of an entry and to
stamp one. A request that comes to neither does not read the clock, and its
outcome is the same at all readings.
-/

namespace Lru

theorem RecencyList.popFront?_eq_none {α : Type} {l : RecencyList α} (h : l.front? = none) :
    l.popFront? = none := by
  simp only [front?, popFront?, Option.bind_eq_none_iff] at h ⊢
  intro id head
  have vacant : l.nodes.get? id = none := by simpa [get?] using h id head
  simp [remove?, detach, Arena.remove?, vacant]

namespace Cache

variable {K V : Type} [BEq K]

/-- Whether there is an entry of `key`, whose age an access has to judge. -/
def hasEntry (c : Cache K V) (key : K) : Bool :=
  ((c.slotOf key).bind c.order.get?).isSome

/-- Whether an insertion of `key` stamps an entry. -/
def storesOnInsert (c : Cache K V) (key : K) : Bool :=
  c.index.contains key || c.capacity != 0

/-- Whether a request judges the age of an entry or stamps one. -/
def judgesOrStamps (c : Cache K V) : Command K V → Bool
  | .insert key _ => c.storesOnInsert key
  | .insertAll pairs => pairs.any fun (key, _) => c.storesOnInsert key
  | .getOrInsert key _ => c.hasEntry key || c.storesOnInsert key
  | .lookup key | .lookupMut key _ | .contains key | .touch key => c.hasEntry key
  | .isExpired key | .remainingTtl key => c.hasEntry key
  | .cursor (.find key) _ => c.hasEntry key
  | .purgeExpired => c.order.front?.isSome
  | .allExpired => c.order.back?.isSome
  | .erase _ | .eraseAt _ | .popFront | .clear | .setCapacity _ => false
  | .front | .back | .checkInvariants | .cursor _ _ | .traverse _ => false

/-- Whether a request reads the clock. Without a time to live a cache has no use for it. -/
def readsClock (c : Cache K V) (command : Command K V) : Bool :=
  c.policy.ttl?.isSome && c.judgesOrStamps command

variable {c : Cache K V} {key : K}

theorem resolve_of_not_hasEntry (absent : c.hasEntry key = false) (now : Instant) :
    c.resolve now key = { result := none, cache := c } := by
  unfold resolve
  cases slot : c.slotOf key with
  | none => rfl
  | some id =>
    have vacant : c.order.get? id = none := by simpa [hasEntry, slot] using absent
    simp [vacant]

theorem insert_of_not_storesOnInsert (unstored : c.storesOnInsert key = false) (now : Instant)
    (value : V) :
    c.insert now key value =
      .ok { result := { inserted := false, handle := c.handle none }, cache := c } := by
  simp only [storesOnInsert, KeyMap.contains, Bool.or_eq_false_iff, Option.isSome_eq_false_iff,
    Option.isNone_iff_eq_none, bne_eq_false_iff_eq] at unstored
  simp [insert, unstored]

theorem insertAll_of_not_storesOnInsert {pairs : List (K × V)}
    (unstored : ∀ p ∈ pairs, c.storesOnInsert p.1 = false) (now : Instant) :
    c.insertAll now pairs = .ok { result := 0, cache := c } := by
  induction pairs with
  | nil => rfl
  | cons p rest ih =>
    have first := insert_of_not_storesOnInsert (unstored p (by simp)) now p.2
    have others := ih fun q hq => unstored q (by simp [hq])
    simp [insertAll, first, others, bind, Except.bind, pure, Except.pure, Outcome.map,
      Outcome.after]

theorem evictWhile_of_front?_eq_none (due : Cache K V → Bool) (fuel : Nat)
    (h : c.order.front? = none) : evictWhile due fuel c = { result := 0, cache := c } := by
  cases fuel with
  | zero => rfl
  | succ n => simp [evictWhile, evictFront, RecencyList.popFront?_eq_none h]

/-- A request that neither judges nor stamps an entry has one outcome at all readings. -/
theorem perform_of_not_judgesOrStamps {command : Command K V}
    (unread : c.judgesOrStamps command = false) (now other : Instant) :
    c.perform now command = c.perform other command := by
  cases command with
  | insert key value => simp [perform, insert_of_not_storesOnInsert unread]
  | insertAll pairs =>
    have unstored : ∀ p ∈ pairs, c.storesOnInsert p.1 = false := by
      simpa [judgesOrStamps] using unread
    simp [perform, insertAll_of_not_storesOnInsert unstored]
  | getOrInsert key make =>
    obtain ⟨absent, unstored⟩ := Bool.or_eq_false_iff.1 unread
    simp [perform, getOrInsert, resolve_of_not_hasEntry absent,
      insert_of_not_storesOnInsert unstored]
  | lookup key => simp [perform, lookup, resolve_of_not_hasEntry unread]
  | lookupMut key update => simp [perform, lookupMut, resolve_of_not_hasEntry unread]
  | contains key => simp [perform, contains, resolve_of_not_hasEntry unread]
  | touch key => simp [perform, touch, resolve_of_not_hasEntry unread]
  | purgeExpired =>
    have bare : c.order.front? = none := by simpa [judgesOrStamps] using unread
    simp [perform, purgeExpired, evictWhile_of_front?_eq_none _ _ bare]
  | allExpired =>
    have bare : ∀ id, c.order.tail = some id → c.order.get? id = none := by
      simpa [judgesOrStamps, RecencyList.back?] using unread
    cases tail : c.order.tail with
    | none => simp [perform, allExpired, tail]
    | some id => simp [perform, allExpired, tail, isLiveAt, bare id tail]
  | isExpired key =>
    cases slot : c.slotOf key with
    | none => simp [perform, isExpired, slot]
    | some id =>
      have vacant : c.order.get? id = none := by
        simpa [judgesOrStamps, hasEntry, slot] using unread
      simp [perform, isExpired, slot, isLiveAt, vacant]
  | remainingTtl key =>
    have vacant : (c.slotOf key).bind c.order.get? = none := by
      simpa [judgesOrStamps, hasEntry] using unread
    simp [perform, remainingTtl, vacant]
  | cursor start moves =>
    cases start with
    | find key => simp [perform, walk, startCursor, find, resolve_of_not_hasEntry unread]
    | _ => rfl
  | _ => rfl

end Cache

end Lru
