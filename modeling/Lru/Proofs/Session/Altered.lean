import Lru.Proofs.Session.Members

/-! # Sessions with altered members

Only a request that is sent to a cache looks into one. All others do the same in
a session with altered members, as long as what is attached to the members
stays attached. Then an altered cache also sets off the same calls.
-/

namespace Lru

variable {T K V : Type}

/-- The session whose members have been altered one by one. -/
def Session.altered (s : Session T K V) (f : CacheId → Member T K V → Member T K V) :
    Session T K V :=
  s.withMembers (s.members.mapIdx f)

/-- Alters what a cache has answered. -/
def Session.Answer.altered (g : Cache.Answer K V → Cache.Answer K V) :
    Session.Answer K V → Session.Answer K V
  | .cache answer => .cache (g answer)
  | answer => answer

def Report.altered (r : Report T K V (Session.Answer K V))
    (f : CacheId → Member T K V → Member T K V) (g : Cache.Answer K V → Cache.Answer K V) :
    Report T K V (Session.Answer K V) :=
  { r with result := r.result.altered g, session := r.session.altered f }

namespace Session

/-- Altering a member leaves what is attached to it, now or later. -/
structure LeavesAttached (f : CacheId → Member T K V → Member T K V) : Prop where
  withStatistics : ∀ id m statistics, f id { m with statistics } = { f id m with statistics }
  withCallbacks : ∀ id m callbacks, f id { m with callbacks } = { f id m with callbacks }

theorem Answer.altered_id (answer : Answer K V) : answer.altered (fun a => a) = answer := by
  cases answer <;> rfl

variable (s : Session T K V) (f : CacheId → Member T K V → Member T K V)
  (g : Cache.Answer K V → Cache.Answer K V) (id : CacheId) (m : Member T K V)

section Frame

theorem size_altered : (s.altered f).members.size = s.members.size := by
  simp [altered, withMembers]

theorem getElem?_altered : (s.altered f).members[id]? = (s.members[id]?).map (f id) := by
  simp [altered, withMembers]

theorem setMember_altered :
    (s.altered f).setMember id (f id m) = (s.setMember id m).altered f := by
  simp [altered, withMembers, setMember, Array.mapIdx_setIfInBounds]

theorem onMember_altered {r r' : Member T K V → Report T K V (Answer K V)}
    (hr : ∀ m, r' (f id m) = (r m).altered f g) :
    (s.altered f).onMember id r' = (s.onMember id r).altered f g := by
  simp only [onMember, getElem?_altered]
  cases s.members[id]? with
  | none => rfl
  | some m => exact hr m

variable {f} (hf : LeavesAttached f)

include hf

theorem LeavesAttached.statistics : (f id m).statistics = m.statistics :=
  (congrArg Member.statistics (hf.withStatistics id m m.statistics)).trans rfl

theorem LeavesAttached.callbacks : (f id m).callbacks = m.callbacks :=
  (congrArg Member.callbacks (hf.withCallbacks id m m.callbacks)).trans rfl

theorem LeavesAttached.setStatistics (statistics : Option StatisticsId) :
    (s.altered f).setMember id { f id m with statistics } =
      (s.setMember id { m with statistics }).altered f := by
  rw [← hf.withStatistics, setMember_altered]

theorem LeavesAttached.setCallbacks (callbacks : Callbacks (Observer T)) :
    (s.altered f).setMember id { f id m with callbacks } =
      (s.setMember id { m with callbacks }).altered f := by
  rw [← hf.withCallbacks, setMember_altered]

variable [BEq K]

theorem LeavesAttached.notifyAll (notices : List (Notice K V)) :
    (s.altered f).notifyAll (f id m) notices =
      ((s.notifyAll m notices).1, (s.notifyAll m notices).2.altered f) := by
  rw [notifyAll_alike (hf.statistics id m) (hf.callbacks id m)]
  rw [altered, notifyAll_withMembers, altered, notifyAll_members]

theorem LeavesAttached.reportOf {o o' : Outcome K V (Cache.Answer K V)}
    (hresult : o'.result = g o.result) (hnotices : o'.notices = o.notices)
    (hcache : ({ f id m with cache := o'.cache } : Member T K V) =
      f id { m with cache := o.cache }) :
    (s.altered f).reportOf id (f id m) o' = (s.reportOf id m o).altered f g := by
  simp only [Session.reportOf, Report.altered, Answer.altered, hresult, hnotices, hf.notifyAll,
    hcache, setMember_altered]

end Frame

section Requests

variable [BEq K] {command : Command T K V}

/-- A new cache is one of an altered session if altering leaves it as it is. -/
theorem createCache_altered {plan : Plan K V} (hnew : ∀ fresh,
      plan.origin.make (UInt64.ofNat s.members.size) = .ok (.ok fresh) →
      f s.members.size (s.newcomer plan fresh) = s.newcomer plan fresh) :
    (s.altered f).createCache plan = (s.createCache plan).map (·.altered f g) := by
  have hsize := s.size_altered f
  cases hmade : plan.origin.make (UInt64.ofNat s.members.size) with
  | error e =>
    simp only [createCache, hsize, hmade]
    rfl
  | ok made =>
    cases made with
    | error e =>
      simp only [createCache, hsize, hmade]
      rfl
    | ok fresh =>
      have hpush : (s.members.push (s.newcomer plan fresh)).mapIdx f =
          (s.members.mapIdx f).push (s.newcomer plan fresh) := by
        rw [Array.mapIdx_push, hnew fresh hmade]
      rw [createCache_of_fresh hmade, createCache_of_fresh (hsize.symm ▸ hmade), hsize]
      exact congrArg (fun members => Except.ok ({
        result := .created (.ok s.members.size)
        session := { s with
          statistics :=
            if fresh.ownStatistics then s.statistics.push (.ofKeys []) else s.statistics
          members }
        notices := fresh.notices ++
          (s.attached plan fresh).map fun _ => .trace .attachedStatistics } :
        Report T K V (Answer K V))) hpush.symm

variable {f}

/-- A request that neither creates a cache nor is sent to one. -/
theorem LeavesAttached.perform (hf : LeavesAttached f)
    (hcreate : ∀ plan, command ≠ .createCache plan)
    (hcache : ∀ id request, command ≠ .cache id request) :
    (s.altered f).perform command = (s.perform command).map (·.altered f g) := by
  cases command with
  | startClock | setClock id reading | createStatistics keys => rfl
  | advanceClock id span =>
    have hclocks : (s.altered f).clocks = s.clocks := rfl
    simp only [Session.perform, advanceClock, hclocks]
    cases Instant.checked (s.clocks[id]?.getD 0 + span) <;> rfl
  | createCache plan => exact absurd rfl (hcreate plan)
  | adjust id adjustment =>
    have ha : (s.altered f).adjust id adjustment =
        ((s.adjust id adjustment).1, (s.adjust id adjustment).2.altered f) := by
      rw [altered, adjust_withMembers, altered, adjust_members]
    simp only [Session.perform, ha]
    rfl
  | attach id statistics =>
    refine congrArg Except.ok (s.onMember_altered f g id fun m => ?_)
    exact congrArg (fun s : Session T K V => ({ s.keeping .done with
      notices := [.trace .attachedStatistics] } : Report T K V (Answer K V)))
      (hf.setStatistics s id m (some statistics))
  | detach id =>
    refine congrArg Except.ok (s.onMember_altered f g id fun m => ?_)
    rw [hf.statistics]
    exact congrArg (fun s : Session T K V => ({ s.keeping (.detached m.statistics) with
      notices := if m.statistics.isSome then [.trace .detachedStatistics] else [] } :
        Report T K V (Answer K V))) (hf.setStatistics s id m none)
  | register id event observer =>
    refine congrArg Except.ok (s.onMember_altered f g id fun m => ?_)
    rw [hf.callbacks]
    exact congrArg (fun s : Session T K V =>
      s.keeping (.registered (m.callbacks.register event observer).len))
      (hf.setCallbacks s id m (m.callbacks.register event observer))
  | clearCallbacks id =>
    refine congrArg Except.ok (s.onMember_altered f g id fun m => ?_)
    exact congrArg (fun s : Session T K V => s.keeping .done) (hf.setCallbacks s id m {})
  | cache id request => exact absurd rfl (hcache id request)

end Requests

end Session

end Lru
