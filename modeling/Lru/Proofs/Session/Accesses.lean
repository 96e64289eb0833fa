import Lru.Proofs.Reference.Announcements
import Lru.Proofs.Session.Quiet

/-! # Accesses in a session

Of all that a cache announces, only hits and misses have an effect outside: one
is recorded in the statistics attached to the cache, and then the observers are
called. A request that gives a value out sets this off once, and no other
request does.
-/

namespace Lru.Session

variable {T K V : Type} [BEq K] {s : Session T K V} {m : Member T K V} {id : CacheId}
  {request : Cache.Command K V} {o : Outcome K V (Cache.Answer K V)}

/-- The session once an announcement of `m` has been recorded. -/
def recorded (s : Session T K V) (m : Member T K V) : Notice K V → Session T K V
  | .hit key _ => s.record m (·.recordHit key)
  | .miss key => s.record m (·.recordMiss key)
  | .made _ | .trace _ => s

/-- What the observers write about a request to `m`, and the session that they leave: the access is
recorded before the first of them is called. -/
def observed (s : Session T K V) (m : Member T K V) (request : Cache.Command K V) :
    List (LogEntry T K V) × Session T K V :=
  match m.cache.access? (s.reading m) request with
  | some notice => (s.recorded m notice).callAll (calls m notice)
  | none => ([], s)

theorem notify_eq (s : Session T K V) (m : Member T K V) (notice : Notice K V) :
    s.notify m notice = (s.recorded m notice).callAll (calls m notice) := by
  cases notice <;> rfl

theorem notifyAll_cons (s : Session T K V) (m : Member T K V) (first : Notice K V)
    (others : List (Notice K V)) :
    s.notifyAll m (first :: others) =
      ((s.notify m first).1 ++ ((s.notify m first).2.notifyAll m others).1,
        ((s.notify m first).2.notifyAll m others).2) := rfl

theorem notifyAll_filter (s : Session T K V) (m : Member T K V) (notices : List (Notice K V)) :
    s.notifyAll m notices = s.notifyAll m (notices.filter Notice.isAccess) := by
  induction notices generalizing s with
  | nil => rfl
  | cons first others ih =>
    cases first with
    | hit | miss => rw [List.filter_cons_of_pos rfl, notifyAll_cons, notifyAll_cons, ih]
    | made | trace =>
      rw [List.filter_cons_of_neg Bool.false_ne_true, notifyAll_cons, ih]
      rfl

theorem notifyAll_toList (s : Session T K V) (m : Member T K V) (notice? : Option (Notice K V)) :
    s.notifyAll m notice?.toList =
      match notice? with
      | some notice => (s.recorded m notice).callAll (calls m notice)
      | none => ([], s) := by
  cases notice? with
  | none => rfl
  | some notice =>
    rw [Option.toList_some, notifyAll, notify_eq]
    simp only [notifyAll, List.append_nil]

theorem observed_eq_notifyAll (s : Session T K V) (m : Member T K V)
    (request : Cache.Command K V) :
    s.observed m request = s.notifyAll m (m.cache.access? (s.reading m) request).toList :=
  (s.notifyAll_toList m _).symm

theorem getElem?_observed (hm : s.members[id]? = some m) (m' : Member T K V)
    (request : Cache.Command K V) :
    ((s.observed m request).2.setMember id m').members[id]? = some m' := by
  have hm' : (s.observed m request).2.members[id]? = some m := by
    rwa [observed_eq_notifyAll, notifyAll_members]
  exact (getElem?_setMember hm' m' id).trans (if_pos rfl)

theorem createCache_log {plan : Plan K V} {report : Report T K V (Answer K V)}
    (hr : s.createCache plan = .ok report) : report.log = [] := by
  obtain ⟨made, hmade, hr'⟩ := Cache.exists_of_bind_eq_ok hr
  cases made with
  | error e =>
    cases hr'
    rfl
  | ok fresh =>
    rw [createCache_of_fresh hmade] at hr
    cases hr
    rfl

omit [BEq K] in
theorem onMember_log {f : Member T K V → Report T K V (Answer K V)} (hf : ∀ m, (f m).log = []) :
    (s.onMember id f).log = [] := by
  unfold onMember
  cases s.members[id]? with
  | none => rfl
  | some m => exact hf m

theorem perform_log {command : Command T K V} {report : Report T K V (Answer K V)}
    (hr : s.perform command = .ok report) (hc : ∀ i request, command ≠ .cache i request) :
    report.log = [] := by
  cases command with
  | startClock | setClock _ _ | createStatistics _ | adjust _ _ =>
    cases hr
    rfl
  | advanceClock clock span =>
    obtain ⟨s', hs', rfl⟩ := Cache.exists_of_map_eq_ok hr
    rfl
  | createCache plan => exact createCache_log hr
  | attach i _ | detach i | register i _ _ | clearCallbacks i =>
    cases hr
    refine onMember_log fun m => ?_
    rfl
  | cache i request => exact absurd rfl (hc i request)

variable [EquivBEq K]

theorem notifyAll_of_perform (hc : m.cache.Coherent)
    (ho : m.cache.perform (s.reading m) request = .ok o) :
    s.notifyAll m o.notices = s.observed m request := by
  rw [notifyAll_filter, (hc.announced ho).filter_isAccess, observed_eq_notifyAll]

/-- A request to a cache reaches a member, has the access observed and changes the cache, or it
reaches none and changes nothing. -/
theorem Sound.onCache_cases (hs : s.Sound) {report : Report T K V (Answer K V)}
    (hr : s.onCache id request = .ok report) :
    (s.members[id]? = none ∧ report = s.keeping .done) ∨
    ∃ m o, s.members[id]? = some m ∧ m.cache.perform (s.reading m) request = .ok o ∧
      report = {
        result := .cache o.result
        session := (s.observed m request).2.setMember id { m with cache := o.cache }
        log := (s.observed m request).1
        notices := o.notices } := by
  cases hm : s.members[id]? with
  | none =>
    rw [Session.onCache, hm] at hr
    exact .inl ⟨rfl, (Except.ok.inj hr).symm⟩
  | some m =>
    rw [onCache_of_member hm] at hr
    obtain ⟨now, hnow, hr⟩ := Cache.exists_of_bind_eq_ok hr
    obtain rfl := readingFor_eq hnow
    obtain ⟨o, ho, rfl⟩ := Cache.exists_of_map_eq_ok hr
    refine .inr ⟨m, o, rfl, ho, ?_⟩
    rw [reportOf, notifyAll_of_perform (hs id m hm).1 ho]

theorem Sound.report_of_member (hs : s.Sound) {report : Report T K V (Answer K V)}
    (hm : s.members[id]? = some m) (hr : s.onCache id request = .ok report) :
    ∃ o, m.cache.perform (s.reading m) request = .ok o ∧
      report = {
        result := .cache o.result
        session := (s.observed m request).2.setMember id { m with cache := o.cache }
        log := (s.observed m request).1
        notices := o.notices } := by
  rcases hs.onCache_cases hr with ⟨hm', -⟩ | ⟨m', o, hm', ho, hreport⟩
  · cases hm.symm.trans hm'
  · cases hm.symm.trans hm'
    exact ⟨o, ho, hreport⟩

end Lru.Session
