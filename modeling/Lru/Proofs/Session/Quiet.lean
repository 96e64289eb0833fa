import Mathlib.Data.List.Forall2
import Lru.Proofs.Cache.Quiet
import Lru.Proofs.Session.LastAccessed

/-! # Quiet requests do not show

Requests that read or fail can be put anywhere into a run. They set last
accessed slots and count in statistics, and observers may act on what is
counted, but neither the answers nor the announcements nor the entries of the
other requests depend on that.
-/

namespace Lru

variable {T K V : Type}

/-- A log entry without what its observer found in a statistics object. -/
def LogEntry.uncounted (e : LogEntry T K V) : LogEntry T K V :=
  { call := e.call }

/-- An answer without what a statistics object says. -/
def Session.Answer.uncounted : Session.Answer K V → Session.Answer K V
  | .adjusted _ => .adjusted none
  | answer => answer

/-- The session with nothing counted or monitored in its statistics objects. -/
def Session.uncounted (s : Session T K V) : Session T K V :=
  { s with statistics := .replicate s.statistics.size {} }

def Report.uncounted (r : Report T K V (Session.Answer K V)) : Report T K V (Session.Answer K V) :=
  { r with
    result := r.result.uncounted
    session := r.session.uncounted
    log := r.log.map LogEntry.uncounted }

/-- The session without last accessed slots and without what is counted. -/
def Session.bare (s : Session T K V) : Session T K V :=
  s.uncounted.shown

/-- A report without last accessed slots and without what is counted; what an audit says stays. -/
def Report.bare (r : Report T K V (Session.Answer K V)) : Report T K V (Session.Answer K V) :=
  { r.uncounted with session := r.session.bare }

namespace Session

variable {s : Session T K V} {m : Member T K V} {id : CacheId}

section Uncounted

theorem setMember_uncounted (s : Session T K V) (id : CacheId) (m : Member T K V) :
    (s.setMember id m).uncounted = s.uncounted.setMember id m := rfl

theorem uncounted_uncounted (s : Session T K V) : s.uncounted.uncounted = s.uncounted := by
  simp only [uncounted, Array.size_replicate]

theorem keeping_uncounted (s : Session T K V) (answer : Answer K V) :
    (s.uncounted.keeping answer).uncounted = (s.keeping answer).uncounted := by
  simp only [keeping, Report.uncounted, uncounted_uncounted]

variable [BEq K]

theorem adjust_uncounted (s : Session T K V) (id : StatisticsId)
    (adjustment : Statistics.Adjustment K) : (s.adjust id adjustment).2.uncounted = s.uncounted := by
  unfold adjust
  cases hs : s.statistics[id]? with
  | none => rfl
  | some statistics => simp only [uncounted, Array.size_setIfInBounds]

theorem call_uncounted (s : Session T K V) (call : Call (Observer T) K V) :
    (s.call call).1.uncounted = { call } ∧ (s.call call).2.uncounted = s.uncounted := by
  unfold Session.call
  cases call.observer.subject with
  | none => exact ⟨rfl, rfl⟩
  | some subject =>
    obtain ⟨id, reaction⟩ := subject
    simp only [react]
    cases reaction.adjustment? call.key with
    | none => exact ⟨rfl, rfl⟩
    | some adjustment => exact ⟨rfl, s.adjust_uncounted id adjustment⟩

theorem callAll_uncounted (s : Session T K V) (calls : List (Call (Observer T) K V)) :
    (s.callAll calls).1.map LogEntry.uncounted = calls.map (fun call => { call }) ∧
      (s.callAll calls).2.uncounted = s.uncounted := by
  induction calls generalizing s with
  | nil => exact ⟨rfl, rfl⟩
  | cons first others ih =>
    obtain ⟨hentry, hsession⟩ := s.call_uncounted first
    obtain ⟨hentries, hlast⟩ := ih (s.call first).2
    simp only [callAll, List.map_cons, hentry, hentries, hlast, hsession, and_self]

omit [BEq K] in
theorem record_uncounted (s : Session T K V) (m : Member T K V)
    (f : Statistics K → Statistics K) : (s.record m f).uncounted = s.uncounted := by
  unfold record
  cases m.statistics with
  | none => rfl
  | some id => simp only [uncounted, Array.size_modify]

/-- The calls that an announcement of a cache sets off. -/
def calls (m : Member T K V) : Notice K V → List (Call (Observer T) K V)
  | .hit key value => m.callbacks.onHit key value
  | .miss key => m.callbacks.onMiss key
  | .made _ | .trace _ => []

theorem notify_uncounted (s : Session T K V) (m : Member T K V) (notice : Notice K V) :
    (s.notify m notice).1.map LogEntry.uncounted = (calls m notice).map (fun call => { call }) ∧
      (s.notify m notice).2.uncounted = s.uncounted := by
  cases notice with
  | hit key value =>
    obtain ⟨hlog, hsession⟩ :=
      (s.record m (·.recordHit key)).callAll_uncounted (m.callbacks.onHit key value)
    exact ⟨hlog, hsession.trans (s.record_uncounted m _)⟩
  | miss key =>
    obtain ⟨hlog, hsession⟩ :=
      (s.record m (·.recordMiss key)).callAll_uncounted (m.callbacks.onMiss key)
    exact ⟨hlog, hsession.trans (s.record_uncounted m _)⟩
  | made key => exact ⟨rfl, rfl⟩
  | trace event => exact ⟨rfl, rfl⟩

/-- Passing announcements on makes calls that do not depend on what is counted, and changes nothing
else. -/
theorem notifyAll_uncounted (s : Session T K V) (m : Member T K V) (notices : List (Notice K V)) :
    (s.notifyAll m notices).1.map LogEntry.uncounted =
        (notices.flatMap (calls m)).map (fun call => { call }) ∧
      (s.notifyAll m notices).2.uncounted = s.uncounted := by
  induction notices generalizing s with
  | nil => exact ⟨rfl, rfl⟩
  | cons first others ih =>
    obtain ⟨hlog, hsession⟩ := s.notify_uncounted m first
    obtain ⟨hlogs, hlast⟩ := ih (s.notify m first).2
    simp only [notifyAll, List.map_append, hlog, hlogs, List.flatMap_cons, hlast, hsession,
      and_self]

end Uncounted

section Requests

variable [BEq K]

theorem reportOf_uncounted (s : Session T K V) (id : CacheId) (m : Member T K V)
    (o : Outcome K V (Cache.Answer K V)) :
    (s.uncounted.reportOf id m o).uncounted = (s.reportOf id m o).uncounted := by
  obtain ⟨hlog, hsession⟩ := s.notifyAll_uncounted m o.notices
  obtain ⟨hlog', hsession'⟩ := s.uncounted.notifyAll_uncounted m o.notices
  simp only [Report.uncounted, reportOf, setMember_uncounted, hlog, hsession, hlog', hsession',
    uncounted_uncounted]

omit [BEq K] in
theorem onMember_uncounted (s : Session T K V) (id : CacheId)
    {f f' : Member T K V → Report T K V (Answer K V)}
    (hf : ∀ m, (f' m).uncounted = (f m).uncounted) :
    (s.uncounted.onMember id f').uncounted = (s.onMember id f).uncounted := by
  have hmembers : s.uncounted.members = s.members := rfl
  simp only [onMember, hmembers]
  cases s.members[id]? with
  | none => exact s.keeping_uncounted .done
  | some m => exact hf m

omit [BEq K] in
theorem keeping_setMember_uncounted (s : Session T K V) (id : CacheId) (m : Member T K V)
    (answer : Answer K V) (notices : List (Notice K V)) :
    ({ (s.uncounted.setMember id m).keeping answer with notices } :
      Report T K V (Answer K V)).uncounted =
    ({ (s.setMember id m).keeping answer with notices } : Report T K V (Answer K V)).uncounted := by
  simp only [keeping, Report.uncounted, setMember_uncounted, uncounted_uncounted]

theorem createCache_uncounted (s : Session T K V) (plan : Plan K V) :
    (s.uncounted.createCache plan).map Report.uncounted =
      (s.createCache plan).map Report.uncounted := by
  cases hmade : plan.origin.make (UInt64.ofNat s.members.size) with
  | error e =>
    have hmade' : plan.origin.make (UInt64.ofNat s.uncounted.members.size) = .error e := hmade
    simp only [createCache, hmade, hmade']
    rfl
  | ok made =>
    have hmade' : plan.origin.make (UInt64.ofNat s.uncounted.members.size) = .ok made := hmade
    cases made with
    | error e =>
      simp only [createCache, hmade, hmade']
      exact congrArg Except.ok (s.keeping_uncounted _)
    | ok fresh =>
      have hattached : s.uncounted.attached plan fresh = s.attached plan fresh := by
        simp only [attached, uncounted, Array.size_replicate]
      have hnew : s.uncounted.newcomer plan fresh = s.newcomer plan fresh := by
        simp only [newcomer, hattached]
      have hsize : (if fresh.ownStatistics then s.uncounted.statistics.push (.ofKeys [])
            else s.uncounted.statistics).size =
          (if fresh.ownStatistics then s.statistics.push (.ofKeys []) else s.statistics).size := by
        split <;> simp [uncounted]
      rw [createCache_of_fresh hmade, createCache_of_fresh hmade', hattached, hnew]
      exact congrArg (fun n => Except.ok ({
        result := .created (.ok s.members.size)
        session := { s with
          statistics := .replicate n {}
          members := s.members.push (s.newcomer plan fresh) }
        notices := fresh.notices ++
          (s.attached plan fresh).map fun _ => .trace .attachedStatistics } :
        Report T K V (Answer K V))) hsize

theorem perform_uncounted (s : Session T K V) (command : Command T K V) :
    (s.uncounted.perform command).map Report.uncounted =
      (s.perform command).map Report.uncounted := by
  cases command with
  | startClock =>
    exact congrArg Except.ok (keeping_uncounted { s with clocks := s.clocks.push 0 } _)
  | advanceClock id span =>
    have hclocks : s.uncounted.clocks = s.clocks := rfl
    simp only [perform, advanceClock, hclocks]
    cases Instant.checked (s.clocks[id]?.getD 0 + span) with
    | error e => rfl
    | ok now => exact congrArg Except.ok (keeping_uncounted (s.setClock id now) _)
  | setClock id reading => exact congrArg Except.ok (keeping_uncounted (s.setClock id reading) _)
  | createStatistics keys =>
    simp only [perform, createStatistics, Except.map, keeping, Report.uncounted, uncounted,
      Array.size_replicate, Array.size_push]
  | createCache plan => exact s.createCache_uncounted plan
  | adjust id adjustment =>
    have hsession : (s.uncounted.adjust id adjustment).2.uncounted =
        (s.adjust id adjustment).2.uncounted := by
      rw [adjust_uncounted, adjust_uncounted, uncounted_uncounted]
    exact congrArg (fun session => Except.ok
      ({ result := .adjusted none, session } : Report T K V (Answer K V))) hsession
  | attach id statistics =>
    exact congrArg Except.ok (s.onMember_uncounted id fun m =>
      s.keeping_setMember_uncounted id { m with statistics := some statistics } _ _)
  | detach id =>
    exact congrArg Except.ok (s.onMember_uncounted id fun m =>
      s.keeping_setMember_uncounted id { m with statistics := none } _ _)
  | register id event observer =>
    exact congrArg Except.ok (s.onMember_uncounted id fun m =>
      s.keeping_setMember_uncounted id
        { m with callbacks := m.callbacks.register event observer } _ [])
  | clearCallbacks id =>
    exact congrArg Except.ok (s.onMember_uncounted id fun m =>
      s.keeping_setMember_uncounted id { m with callbacks := {} } _ [])
  | cache id request =>
    cases hm : s.members[id]? with
    | none =>
      have hm' : s.uncounted.members[id]? = none := hm
      simp only [perform, onCache, hm, hm']
      exact congrArg Except.ok (s.keeping_uncounted _)
    | some m =>
      have hm' : s.uncounted.members[id]? = some m := hm
      have hreading : s.uncounted.readingFor m request = s.readingFor m request := rfl
      rw [perform, perform, onCache_of_member hm, onCache_of_member hm', hreading]
      cases s.readingFor m request with
      | error e => rfl
      | ok now =>
        simp only [Except.bind]
        cases m.cache.perform now request with
        | error e => rfl
        | ok o => exact congrArg Except.ok (s.reportOf_uncounted id m o)

end Requests

section Invariants

/-- All caches of the session have a property. -/
def AllCaches (P : Cache K V → Prop) (s : Session T K V) : Prop :=
  ∀ (i : CacheId) (m : Member T K V), s.members[i]? = some m → P m.cache

variable {P : Cache K V → Prop} {s' : Session T K V}

theorem AllCaches.of_members (h : s.AllCaches P) (he : s'.members = s.members) : s'.AllCaches P :=
  fun i m hm => h i m (he ▸ hm)

theorem AllCaches.setMember (h : s.AllCaches P) (hm : s.members[id]? = some m)
    {m' : Member T K V} (hP : P m'.cache) : (s.setMember id m').AllCaches P := by
  intro i m₁ hm₁
  rw [getElem?_setMember hm] at hm₁
  split at hm₁
  · cases hm₁
    exact hP
  · exact h i m₁ hm₁

variable [BEq K]

theorem AllCaches.perform (h : s.AllCaches P)
    (made : ∀ (origin : Origin K V) number fresh mode, origin.make number = .ok (.ok fresh) →
      P { fresh.cache with mode })
    (kept : ∀ c now request o, P c → c.perform now request = .ok o → P o.cache)
    {command : Command T K V} {report : Report T K V (Answer K V)}
    (hr : s.perform command = .ok report) : report.session.AllCaches P := by
  rcases perform_cases hr with he | ⟨plan, fresh, -, hf, he⟩ | ⟨id, m, m', hm, hcache, he⟩ |
    ⟨id, request, m, o, rfl, hm, ho, he⟩
  · exact h.of_members he
  · intro i m hm
    rw [he, Array.getElem?_push] at hm
    split at hm
    · cases hm
      exact made plan.origin _ fresh _ hf
    · exact h i m hm
  · exact (h.setMember hm (hcache ▸ h id m hm)).of_members he
  · exact (h.setMember hm (kept _ _ _ _ (h id m hm) ho)).of_members he

variable [EquivBEq K]

theorem make_remembers {origin : Origin K V} {number : UInt64} {fresh : Fresh K V}
    (hf : origin.make number = .ok (.ok fresh)) : fresh.cache.Remembers := by
  have hnone {c : Cache K V} (h : c.lastAccessed = none) : c.Remembers := by
    intro id hid
    rw [h] at hid
    cases hid
  rcases make_cases hf with ⟨capacity, policy, mode, he⟩ | ⟨capacity, pairs, o, ho, he⟩
  · exact hnone (he ▸ rfl)
  · have hc : (Cache.empty number capacity .capacity : Cache K V).Coherent :=
      ⟨_, _, Cache.holds_empty ..⟩
    obtain ⟨o', ho', hs⟩ := hc.insertAll_simulates 0 pairs
    cases ho'.symm.trans ho
    exact he ▸ hs.remembers (hnone rfl)

/-- The caches hold entries, and the last accessed slots are none or occupied. -/
structure Tidy (s : Session T K V) : Prop where
  sound : s.Sound
  caches : s.AllCaches fun c => c.Coherent ∧ c.Remembers

omit [EquivBEq K] in
theorem tidy_empty : ({} : Session T K V).Tidy where
  sound := sound_empty
  caches := fun _ _ hm => by simp at hm

theorem Tidy.perform (h : s.Tidy) {command : Command T K V} {report : Report T K V (Answer K V)}
    (hr : s.perform command = .ok report) : report.session.Tidy where
  sound := (h.sound.perform hr).1
  caches := by
    refine h.caches.perform ?_ ?_ hr
    · intro origin number fresh mode hf
      obtain ⟨⟨items, free, hh⟩, -⟩ := make_sound hf
      exact ⟨⟨items, free, hh.congr rfl rfl rfl⟩, make_remembers hf⟩
    · rintro c now request o ⟨hc, hm⟩ ho
      obtain ⟨o', ho', hc', hm'⟩ := hc.perform now request
      obtain rfl := Except.ok.inj (ho'.symm.trans ho)
      exact ⟨hc', hm' hm⟩

end Invariants

section Audits

variable [BEq K] [EquivBEq K]

theorem unaudited_of_perform {c : Cache K V} {now : Instant} {request : Cache.Command K V}
    {o : Outcome K V (Cache.Answer K V)} (hc : c.Coherent) (hm : c.Remembers)
    (ho : c.perform now request = .ok o) : o.result.unaudited = o.result := by
  cases request with
  | checkInvariants =>
    cases ho
    obtain ⟨items, free, h⟩ := hc
    simp only [Cache.keeping, h.checkInvariants hm]
    rfl
  | insert key value | insertAll pairs | getOrInsert key make | erase key | setCapacity capacity
  | purgeExpired =>
    obtain ⟨o', -, rfl⟩ := Cache.exists_of_map_eq_ok ho
    rfl
  | _ =>
    cases ho
    rfl

theorem Tidy.unaudited (h : s.Tidy) {command : Command T K V}
    {report : Report T K V (Answer K V)} (hr : s.perform command = .ok report) :
    report.result.unaudited = report.result := by
  cases command with
  | cache id request =>
    rcases onCache_cases hr with rfl | ⟨m, o, hm, ho, rfl⟩
    · rfl
    · obtain ⟨hc, hmemo⟩ := h.caches id m hm
      exact congrArg Answer.cache (unaudited_of_perform hc hmemo ho)
  | advanceClock id span =>
    obtain ⟨s', -, rfl⟩ := Cache.exists_of_map_eq_ok hr
    rfl
  | createCache plan =>
    obtain ⟨made, hm, hmade⟩ := Cache.exists_of_bind_eq_ok hr
    cases made with
    | error e =>
      cases hmade
      rfl
    | ok fresh =>
      have hr : s.createCache plan = .ok report := hr
      rw [createCache_of_fresh hm] at hr
      cases hr
      rfl
  | attach id statistics | detach id | register id event observer | clearCallbacks id =>
    cases hr
    unfold onMember
    split <;> rfl
  | _ =>
    cases hr
    rfl

end Audits

section Steps

variable [BEq K] [EquivBEq K] {d : Session T K V} {command : Command T K V}
  {report : Report T K V (Answer K V)}

omit [BEq K] [EquivBEq K] in
theorem bare_of_unaudited {r : Report T K V (Answer K V)} (h : r.result.unaudited = r.result) :
    r.uncounted.shown = r.bare := by
  have hresult : r.result.uncounted.unaudited = r.result.uncounted := by
    cases hr : r.result with
    | cache answer =>
      rw [hr] at h
      exact h
    | _ => rfl
  exact congrArg (fun result => { r.bare with result }) hresult

omit [BEq K] [EquivBEq K] in
theorem shown_uncounted (r : Report T K V (Answer K V)) :
    r.shown.uncounted = r.uncounted.shown := by
  have hresult : r.result.unaudited.uncounted = r.result.uncounted.unaudited := by
    cases r.result <;> rfl
  exact congrArg (fun result => { r.bare with result }) hresult

/-- What a request does, up to what is counted and what audits say, depends on the bare session
only. -/
theorem Sound.perform_of_bare (hs : s.Sound) (command : Command T K V) :
    (s.perform command).map (fun r => r.uncounted.shown) =
      (s.bare.perform command).map (fun r => r.uncounted.shown) := by
  have hmap {α β γ : Type} (f : α → β) (g : β → γ) (x : Except Fault α) :
      (x.map f).map g = x.map fun a => g (f a) := by cases x <;> rfl
  have hcounted := congrArg (Except.map Report.shown) (s.perform_uncounted command)
  have hsound : s.uncounted.Sound := hs.of_members rfl
  have hshown := congrArg (Except.map Report.uncounted) (hsound.perform_shown command)
  simp only [hmap, shown_uncounted] at hcounted hshown
  exact hcounted.symm.trans hshown.symm

/-- Tidy sessions that differ in last accessed slots and counts only do the same. -/
theorem Tidy.perform_bare (hs : s.Tidy) (hd : d.Tidy) (h : d.bare = s.bare)
    (command : Command T K V) :
    (d.perform command).map Report.bare = (s.perform command).map Report.bare := by
  have hsame : (d.perform command).map (fun r => r.uncounted.shown) =
      (s.perform command).map (fun r => r.uncounted.shown) := by
    rw [hs.sound.perform_of_bare, hd.sound.perform_of_bare, h]
  rcases map_eq_map_cases hsame with ⟨e, hd₁, hs₁⟩ | ⟨r', r, hd₁, hs₁, hr⟩
  · rw [hd₁, hs₁]
  · rw [hd₁, hs₁]
    rw [bare_of_unaudited (hd.unaudited hd₁), bare_of_unaudited (hs.unaudited hs₁)] at hr
    exact congrArg Except.ok hr

/-- Whether a request to a cache is quiet, as its report tells. -/
def QuietAt (s : Session T K V) (id : CacheId) (request : Cache.Command K V)
    (report : Report T K V (Answer K V)) : Prop :=
  ∃ m answer, s.members[id]? = some m ∧ report.result = .cache answer ∧
    m.cache.Quiet (s.reading m) request answer

theorem Tidy.quiet_bare (hs : s.Tidy) {request : Cache.Command K V}
    (hr : s.perform (.cache id request) = .ok report) (hq : s.QuietAt id request report) :
    report.session.bare = s.bare := by
  obtain ⟨m, answer, hm, hanswer, hquiet⟩ := hq
  rcases onCache_cases hr with rfl | ⟨m', o, hm', ho, rfl⟩
  · cases hanswer
  · obtain rfl : m = m' := Option.some.inj (hm.symm.trans hm')
    obtain rfl : o.result = answer := Answer.cache.inj hanswer
    have hcache := (hs.caches id m hm).1.quiet ho hquiet
    have hmember : ({ m with cache := o.cache } : Member T K V).shown = m.shown :=
      congrArg (fun cache => { m with cache }) hcache
    have hself : s.bare.setMember id m.shown = s.bare := by
      refine setMember_self ?_
      rw [bare, getElem?_shown]
      exact congrArg (Option.map Member.shown) hm
    rw [bare, reportOf, setMember_uncounted, (s.notifyAll_uncounted m o.notices).2,
      setMember_shown, hmember]
    exact hself

end Steps

section Runs

/-- A request of a run, or one that is put in. -/
inductive Part (T K V : Type)
  | own (command : Command T K V)
  | extra (id : CacheId) (request : Cache.Command K V)

def Part.command : Part T K V → Command T K V
  | own command => command
  | extra id request => .cache id request

def Part.isOwn : Part T K V → Bool
  | own _ => true
  | extra _ _ => false

/-- The requests of a run without those that are put in. -/
def ownCommands (parts : List (Part T K V)) : List (Command T K V) :=
  (parts.filter Part.isOwn).map Part.command

/-- The reports of a run without those of the requests that are put in. -/
def ownReports (parts : List (Part T K V)) (reports : List (Report T K V (Answer K V))) :
    List (Report T K V (Answer K V)) :=
  ((parts.zip reports).filter fun x => x.1.isOwn).map Prod.snd

variable [BEq K] [EquivBEq K] {d : Session T K V}

/-- Every request that is put in comes to its end and is quiet where it stands. -/
def QuietOver (s : Session T K V) : List (Part T K V) → Prop
  | [] => True
  | .own command :: parts =>
    ∀ report, s.perform command = .ok report → report.session.QuietOver parts
  | .extra id request :: parts => ∃ report, s.perform (.cache id request) = .ok report ∧
    s.QuietAt id request report ∧ report.session.QuietOver parts

/-- What is left of a run without what is counted. -/
def bareRun (r : List (Report T K V (Answer K V)) × Session T K V) :
    List (Report T K V (Answer K V)) × Session T K V :=
  (r.1.map Report.bare, r.2.bare)

/-- Tidy sessions that differ in last accessed slots and counts only go on to do the same, whatever
quiet requests one of them gets besides. -/
theorem Tidy.run_bare (hs : s.Tidy) (hd : d.Tidy) (h : d.bare = s.bare)
    (parts : List (Part T K V)) (hq : d.QuietOver parts) :
    (d.run (parts.map Part.command)).map (fun r => bareRun (ownReports parts r.1, r.2)) =
      (s.run (ownCommands parts)).map bareRun := by
  -- The bare sessions agree before every part: an own request moves both sides on alike, and one
  -- that is put in leaves its side where it was.
  induction parts generalizing s d with
  | nil => exact congrArg (fun x => Except.ok ([], x)) h
  | cons part parts ih =>
    cases part with
    | own command =>
      have hown : ownCommands (.own command :: parts) = command :: ownCommands parts := rfl
      rw [List.map_cons, Part.command, hown]
      simp only [run]
      rcases map_eq_map_cases (hs.perform_bare hd h command) with
        ⟨e, hd₁, hs₁⟩ | ⟨r', r, hd₁, hs₁, hr⟩
      · rw [hd₁, hs₁]
        rfl
      have hsession : r'.session.bare = r.session.bare := congrArg Report.session hr
      have hrest := ih (hs.perform hs₁) (hd.perform hd₁) hsession (hq r' hd₁)
      simp only [hd₁, hs₁, bind, Except.bind]
      rcases map_eq_map_cases hrest with ⟨e, hd₂, hs₂⟩ | ⟨x, y, hd₂, hs₂, hxy⟩
      · rw [hd₂, hs₂]
        rfl
      · have hlist : (ownReports parts x.1).map Report.bare = y.1.map Report.bare :=
          congrArg Prod.fst hxy
        have hlast : x.2.bare = y.2.bare := congrArg Prod.snd hxy
        have hreports : ownReports (.own command :: parts) (r' :: x.1) =
            r' :: ownReports parts x.1 := rfl
        simp only [hd₂, hs₂, Except.map, pure, Except.pure, bareRun, hreports, List.map_cons, hr,
          hlist, hlast]
    | extra id request =>
      obtain ⟨report, hr, hquiet, hrest⟩ := hq
      have hown : ownCommands (.extra id request :: parts) = ownCommands parts := rfl
      rw [List.map_cons, Part.command, hown]
      have hnext := ih hs (hd.perform hr) ((hd.quiet_bare hr hquiet).trans h) hrest
      rw [← hnext]
      simp only [run, hr, bind, Except.bind]
      cases report.session.run (parts.map Part.command) <;> rfl

/-- Whether the sessions answer alike, cache by cache, when a handle is checked. -/
def SameHandles (s s' : Session T K V) : Prop :=
  ∀ (i : CacheId) (g : Handle), (s.members[i]?).map (fun m => m.cache.validate g) =
    (s'.members[i]?).map fun m => m.cache.validate g

omit [BEq K] [EquivBEq K] in
theorem sameHandles_of_bare {s s' : Session T K V} (h : s.bare = s'.bare) : s.SameHandles s' := by
  intro i g
  have hshown : (s.members[i]?).map Member.shown = (s'.members[i]?).map Member.shown := by
    have hmembers := congrArg (fun s : Session T K V => s.members[i]?) h
    simp only [bare, getElem?_shown] at hmembers
    exact hmembers
  have hvalid := congrArg (Option.map fun m : Member T K V => m.cache.validate g) hshown
  rw [Option.map_map, Option.map_map] at hvalid
  exact hvalid

omit [BEq K] [EquivBEq K] in
theorem forall₂_sameHandles_of_bare {reports reports' : List (Report T K V (Answer K V))}
    (h : reports.map Report.bare = reports'.map Report.bare) :
    List.Forall₂ (fun r r' => r.session.SameHandles r'.session) reports reports' := by
  rw [← List.forall₂_eq_eq_eq, List.forall₂_map_left_iff, List.forall₂_map_right_iff] at h
  exact h.imp fun r r' hr => sameHandles_of_bare (congrArg Report.session hr)

/-- Reading and failing are pure. Put requests that read or fail anywhere into a run. The other
requests get the same answers, what statistics objects say apart, and make the same announcements,
traced events among them, to the same observers. After every step the caches are the same in
entries, values, stamps, slots, capacity and generation, and all handles are as valid as before:
only last accessed slots and what is counted can differ. Statistics objects are asked without a
request and then change nothing at all. -/
theorem quiet_not_shown (parts : List (Part T K V)) (quiet : ({} : Session T K V).QuietOver parts) :
    (({} : Session T K V).run (parts.map Part.command)).map
        (fun r => bareRun (ownReports parts r.1, r.2)) =
      (({} : Session T K V).run (ownCommands parts)).map bareRun ∧
    ∀ (reports reports' : List (Report T K V (Answer K V))) (s s' : Session T K V),
      ({} : Session T K V).run (parts.map Part.command) = .ok (reports, s) →
      ({} : Session T K V).run (ownCommands parts) = .ok (reports', s') →
      List.Forall₂ (fun r r' => r.session.SameHandles r'.session) (ownReports parts reports)
        reports' ∧ s.SameHandles s' := by
  have hrun := tidy_empty.run_bare tidy_empty rfl parts quiet
  refine ⟨hrun, fun reports reports' s s' hr hr' => ?_⟩
  rw [hr, hr'] at hrun
  have hsame := Except.ok.inj hrun
  exact ⟨forall₂_sameHandles_of_bare (congrArg Prod.fst hsame),
    sameHandles_of_bare (congrArg Prod.snd hsame)⟩

/-- The entry expires between two lookups that are put in: the first remembers its slot, the second
forgets it. The removal of an absent key fails besides. -/
theorem quiet_not_shown_expired : EquivBEq Nat ∧ ∃ parts : List (Part Unit Nat Nat),
    parts = [.own .startClock,
      .own (.createCache { origin := .empty 1 (.timeToLive 5), clock := some 0 }),
      .own (.cache 0 (.insert 1 10)), .extra 0 (.lookup 1), .own (.setClock 0 7),
      .extra 0 (.lookup 1), .extra 0 (.erase 2), .own (.cache 0 (.insert 1 11))] ∧
    ({} : Session Unit Nat Nat).QuietOver parts ∧
    (({} : Session Unit Nat Nat).run (parts.map Part.command)).map
        (fun r => bareRun (ownReports parts r.1, r.2)) =
      (({} : Session Unit Nat Nat).run
        [.startClock, .createCache { origin := .empty 1 (.timeToLive 5), clock := some 0 },
          .cache 0 (.insert 1 10), .setClock 0 7, .cache 0 (.insert 1 11)]).map bareRun := by
  let parts : List (Part Unit Nat Nat) :=
    [.own .startClock,
      .own (.createCache { origin := .empty 1 (.timeToLive 5), clock := some 0 }),
      .own (.cache 0 (.insert 1 10)), .extra 0 (.lookup 1), .own (.setClock 0 7),
      .extra 0 (.lookup 1), .extra 0 (.erase 2), .own (.cache 0 (.insert 1 11))]
  have quiet : ({} : Session Unit Nat Nat).QuietOver parts := by
    rintro _ ⟨⟩ _ ⟨⟩ _ ⟨⟩
    refine ⟨_, rfl, ⟨_, _, rfl, rfl, rfl⟩, ?_⟩
    rintro _ ⟨⟩
    refine ⟨_, rfl, ⟨_, _, rfl, rfl, rfl⟩, ?_⟩
    refine ⟨_, rfl, ⟨_, _, rfl, rfl, rfl⟩, ?_⟩
    rintro _ ⟨⟩
    trivial
  exact ⟨inferInstance, parts, rfl, quiet, (quiet_not_shown parts quiet).1⟩

end Runs

end Session

end Lru
