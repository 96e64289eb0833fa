import Lru.Proofs.History.Effects

/-! # What requests announce

A request that gives values out announces one hit, with the value of the live
entry that it met, or one miss. Whatever else requests announce are traced
events, and the making of a value, which follows the miss that asked for it.
-/

namespace Lru

/-- Whether an announcement is that of an access: a hit or a miss. -/
def Notice.isAccess {K V : Type} : Notice K V → Bool
  | .hit _ _ | .miss _ => true
  | .made _ | .trace _ => false

/-- The key of a request that gives a value out, and so counts as a hit or a miss. -/
def Cache.Command.counted? {K V : Type} : Cache.Command K V → Option K
  | .lookup key | .lookupMut key _ | .getOrInsert key _ => some key
  | _ => none

variable {K V : Type}

theorem Notice.filter_isAccess {notices : List (Notice K V)} (h : notices.all isTrace = true) :
    notices.filter isAccess = [] := by
  refine List.filter_eq_nil_iff.mpr fun n hn => ?_
  have ht := List.all_eq_true.mp h n hn
  cases n <;> simp_all [isAccess, isTrace]

namespace Reference

theorem isTrace_evictions (capacity n k : Nat) :
    (Notice.evictions capacity n k : List (Notice K V)).all Notice.isTrace = true := by
  simp [Notice.evictions, Notice.isTrace]

theorem isTrace_setCapacity (r : Reference K V) (capacity : Nat) :
    (r.setCapacity capacity).notices.all Notice.isTrace = true := by
  simp only [setCapacity, List.all_append, isTrace_evictions]
  split <;> rfl

theorem isTrace_purgeExpired (r : Reference K V) (now : Instant) :
    (r.purgeExpired now).notices.all Notice.isTrace = true := by
  simp only [purgeExpired, List.all_append, isTrace_evictions]
  split <;> rfl

theorem isTrace_eraseAt (r : Reference K V) (address : Except CacheError (Option Nat)) :
    (r.eraseAt address).notices.all Notice.isTrace = true := by
  unfold eraseAt
  split
  · rfl
  · split <;> rfl

variable [BEq K]

theorem isTrace_insertAll (r : Reference K V) (now : Instant) (pairs : List (K × V)) :
    (r.insertAll now pairs).notices.all Notice.isTrace = true := by
  induction pairs generalizing r with
  | nil => rfl
  | cons pair rest ih =>
    simp only [insertAll, List.all_append, r.isTrace_insert, ih, Bool.and_self]

theorem isTrace_touch (r : Reference K V) (now : Instant) (key : K) :
    (r.touch now key).notices.all Notice.isTrace = true := by
  unfold touch
  split
  · rfl
  · exact r.isTrace_deadNotices now key

end Reference

namespace Cache

variable [BEq K] {c : Cache K V} {now : Instant}

/-- The announcement of a request that gives a value out. -/
def access? (c : Cache K V) (now : Instant) (command : Command K V) : Option (Notice K V) :=
  command.counted?.map fun key =>
    match c.reference.liveEntry now key with
    | some entry => .hit key entry.value
    | none => .miss key

/-- The announcements of a request, where the cache holds what its reference has. -/
inductive Announced (c : Cache K V) (now : Instant) (command : Command K V) :
    List (Notice K V) → Prop
  | silent {notices : List (Notice K V)} (accessed : command.counted? = none)
      (traced : notices.all Notice.isTrace = true) : Announced c now command notices
  | hit (key : K) (entry : Entry K V) (accessed : command.counted? = some key)
      (live : c.reference.liveEntry now key = some entry) :
      Announced c now command [.hit key entry.value]
  | missed (key : K) (looking : List (Notice K V)) (accessed : command.counted? = some key)
      (dead : c.reference.liveEntry now key = none)
      (traced : looking.all Notice.isTrace = true)
      (only : ∀ make, command ≠ .getOrInsert key make) :
      Announced c now command (looking ++ [.miss key])
  | made (key : K) (make : K → V) (looking storing : List (Notice K V))
      (accessed : command = .getOrInsert key make)
      (dead : c.reference.liveEntry now key = none)
      (traced : looking.all Notice.isTrace = true) (stored : storing.all Notice.isTrace = true) :
      Announced c now command (looking ++ .miss key :: .made key :: storing)

/-- Every access announces itself once, and nothing else announces one. -/
theorem Announced.filter_isAccess {command : Command K V} {notices : List (Notice K V)}
    (h : c.Announced now command notices) :
    notices.filter Notice.isAccess = (c.access? now command).toList := by
  cases h with
  | silent accessed traced => simp [access?, accessed, Notice.filter_isAccess traced]
  | hit key entry accessed live => simp [access?, accessed, live, Notice.isAccess]
  | missed key looking accessed dead traced only =>
    simp [access?, accessed, dead, Notice.filter_isAccess traced, Notice.isAccess]
  | made key make looking storing accessed dead traced stored =>
    have hmiss : (Notice.miss key :: Notice.made key :: storing).filter Notice.isAccess =
        [.miss key] := by
      rw [List.filter_cons_of_pos rfl, List.filter_cons_of_neg Bool.false_ne_true,
        Notice.filter_isAccess stored]
    simp [access?, accessed, Command.counted?, dead, Notice.filter_isAccess traced, hmiss]

variable [EquivBEq K]

theorem Coherent.announced (h : c.Coherent) {command : Command K V}
    {o : Outcome K V (Answer K V)} (ho : c.perform now command = .ok o) :
    c.Announced now command o.notices := by
  cases hr : c.request? command with
  | none =>
    obtain ⟨answer, ha⟩ := perform_of_request?_eq_none hr now
    obtain rfl : o = c.keeping answer := Except.ok.inj (ho.symm.trans ha)
    refine .silent ?_ rfl
    cases command with
    | cursor start moves => rfl
    | checkInvariants => rfl
    | traverse moves => rfl
    | _ => cases hr
  | some request =>
    obtain ⟨o', ho', hs⟩ := h.perform_simulates now hr
    obtain rfl : o = o' := Except.ok.inj (ho.symm.trans ho')
    rw [hs.notices]
    cases command with
    | insert key value =>
      cases hr
      exact .silent rfl (c.reference.isTrace_insert now key value)
    | insertAll pairs =>
      cases hr
      exact .silent rfl (c.reference.isTrace_insertAll now pairs)
    | getOrInsert key make =>
      cases hr
      simp only [Reference.perform, Reference.Outcome.map, Reference.getOrInsert]
      cases hl : c.reference.liveEntry now key with
      | some entry => exact .hit key entry rfl hl
      | none =>
        simp only [List.append_assoc, List.cons_append, List.nil_append]
        exact .made key make _ _ rfl hl (c.reference.isTrace_deadNotices now key)
          (c.reference.isTrace_insert now key (make key))
    | lookup key =>
      cases hr
      simp only [Reference.perform, Reference.Outcome.map, Reference.lookup]
      cases hl : c.reference.liveEntry now key with
      | some entry => exact .hit key entry rfl hl
      | none =>
        refine .missed key _ rfl hl (c.reference.isTrace_deadNotices now key) ?_
        rintro make ⟨⟩
    | lookupMut key update =>
      cases hr
      simp only [Reference.perform, Reference.Outcome.map, Reference.lookupMut]
      cases hl : c.reference.liveEntry now key with
      | some entry => exact .hit key entry rfl hl
      | none =>
        refine .missed key _ rfl hl (c.reference.isTrace_deadNotices now key) ?_
        rintro make ⟨⟩
    | contains key =>
      cases hr
      exact .silent rfl (c.reference.isTrace_deadNotices now key)
    | touch key =>
      cases hr
      exact .silent rfl (c.reference.isTrace_touch now key)
    | eraseAt g =>
      cases hr
      exact .silent rfl (c.reference.isTrace_eraseAt (c.address g))
    | popFront =>
      cases hr
      exact .silent rfl (Reference.isTrace_evictions ..)
    | setCapacity capacity =>
      cases hr
      exact .silent rfl (c.reference.isTrace_setCapacity capacity)
    | purgeExpired =>
      cases hr
      exact .silent rfl (c.reference.isTrace_purgeExpired now)
    | cursor start moves =>
      cases start with
      | find key =>
        cases hr
        exact .silent rfl (c.reference.isTrace_deadNotices now key)
      | _ => cases hr
    | checkInvariants => cases hr
    | traverse moves => cases hr
    | _ =>
      cases hr
      exact .silent rfl rfl

end Cache

end Lru
