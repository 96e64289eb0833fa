import Lru.Proofs.History.Memoization
import Lru.Proofs.Session.Accounts

/-! # What observers are called for

Observers are registered and cleared by requests. An access calls those that
are registered at that moment for its kind, and then those of all accesses, in
the order of registration and once each; the access is recorded before the
first of them is called. A hit is told with the value that the entry has before
the caller writes to it, and a miss before a value is made or stored. So an
observer of all accesses to a cache counts what the statistics of that cache
count.
-/

namespace Lru

variable {T K V α : Type}

/-- The observers of one kind. -/
def Callbacks.of (c : Callbacks α) : AccessEvent → List α
  | .hit => c.hit
  | .miss => c.miss
  | .access => c.access

theorem Callbacks.of_register (c : Callbacks α) (event event' : AccessEvent) (observer : α) :
    (c.register event observer).of event' =
      if event = event' then c.of event' ++ [observer] else c.of event' := by
  cases event <;> cases event' <;> rfl

/-- What a request that gives a value out makes of the value that it finds. -/
def Cache.Command.overwrite : Cache.Command K V → V → V
  | .lookupMut _ update => update
  | _ => fun value => value

namespace Reference

variable [BEq K] {r : Reference K V} {entry : Entry K V} {key : K} {now : Instant}

theorem entryOf_write (r : Reference K V) (key : K) (update : V → V) :
    (r.write key update).entryOf key =
      (r.entryOf key).map fun e => { e with value := update e.value } := by
  rw [entryOf, entryOf, write, List.find?_map]
  have hsame : ((fun e : Entry K V => key == e.key) ∘ fun e =>
      if key == e.key then { e with value := update e.value } else e) =
        fun e => key == e.key := by
    funext e
    by_cases hk : key == e.key <;> simp [hk]
  rw [hsame]
  cases he : r.entries.find? fun e => key == e.key with
  | none => rfl
  | some e => simp [List.find?_some (p := fun e : Entry K V => key == e.key) he]

variable [PartialEquivBEq K]

theorem Distinct.entryOf_promoteOnAccess (h : Distinct r.entries)
    (he : r.entryOf key = some entry) (now : Instant) :
    ∃ e, (r.promoteOnAccess now key entry).entryOf key = some e ∧ e.value = entry.value := by
  cases hm : r.mode with
  | onInsert =>
    rw [promoteOnAccess, hm]
    exact ⟨entry, he, rfl⟩
  | onAccess =>
    rw [promoteOnAccess, hm]
    cases h.located key with
    | absent missing entryOf others =>
      rw [entryOf] at he
      cases he
    | stored p s found split same missing entryOf others =>
      rw [entryOf] at he
      cases he
      have hentries : (r.promote now key entry).entries =
          (p ++ s) ++ { entry with stamp := now } :: [] := by rw [promote, others]
      exact ⟨_, entryOf_of_split hentries missing same, rfl⟩

end Reference

namespace Cache

variable [BEq K] [EquivBEq K] {c : Cache K V} {now : Instant} {request : Command K V} {key : K}
  {entry : Entry K V} {o : Outcome K V (Answer K V)}

/-- An access that hits leaves the entry of its key with the value found, or with what the caller
makes of that value. -/
theorem Coherent.stored_of_hit (h : c.Coherent) (ho : c.perform now request = .ok o)
    (hk : request.counted? = some key) (hl : c.reference.liveEntry now key = some entry) :
    ∃ e, o.cache.reference.entryOf key = some e ∧ e.value = request.overwrite entry.value := by
  have hd := h.proper.distinct
  have he := Reference.entryOf_of_liveEntry hl
  rw [h.perform_reference ho, leaves]
  cases request with
  | lookup k =>
    cases hk
    refine ⟨entry, ?_, rfl⟩
    simp only [request?, Reference.perform, Reference.Outcome.map, Reference.lookup, hl, he]
  | lookupMut k update =>
    cases hk
    obtain ⟨e, hp, hv⟩ := hd.entryOf_promoteOnAccess he now
    refine ⟨{ e with value := update e.value }, ?_, congrArg update hv⟩
    simp only [request?, Reference.perform, Reference.Outcome.map, Reference.lookupMut, hl,
      Reference.entryOf_write, hp, Option.map_some]
  | getOrInsert k make =>
    cases hk
    obtain ⟨e, hp, hv⟩ := hd.entryOf_promoteOnAccess he now
    refine ⟨e, ?_, hv⟩
    simp only [request?, Reference.perform, Reference.Outcome.map, Reference.getOrInsert, hl, hp]
  | _ => cases hk

/-- A value is made after the miss, and then stored in a cache that still has its old entries. -/
theorem Coherent.made_after_miss (h : c.Coherent) {make : K → V}
    (ho : c.perform now (.getOrInsert key make) = .ok o)
    (hl : c.reference.liveEntry now key = none) :
    ∃ (found : Cache K V) (stored : Outcome K V Insertion), found.entries = c.entries ∧
      found.insert now key (make key) = .ok stored ∧ o.cache = stored.cache ∧
      o.notices = c.reference.deadNotices now key ++ .miss key :: .made key :: stored.notices := by
  obtain ⟨items, free, hh⟩ := h
  cases hh.resolution now key with
  | hit p id entry s split same resolved live silent =>
    rw [hl] at live
    cases live
  | miss memo resolved remembers dead =>
    obtain ⟨stored, hstored, -⟩ := (hh.remembering memo).insert_simulates now key (make key)
    refine ⟨c.remembering memo, stored, rfl, hstored, ?_⟩
    obtain ⟨o', ho', rfl⟩ := exists_of_map_eq_ok ho
    simp only [Cache.getOrInsert, resolved, Option.bind_none, hstored, bind, Except.bind,
      pure, Except.pure] at ho'
    cases ho'
    exact ⟨rfl, by simp [Outcome.map, Outcome.after]⟩

end Cache

/-- Whether a request counts a hit, or a miss. -/
def Statistics.Command.records (hit : Bool) : Statistics.Command K → Bool
  | recordHit _ => hit
  | recordMiss _ => !hit
  | adjust _ => false

theorem Statistics.Command.records_true :
    (fun c : Statistics.Command K => c.records true) = isHit := by
  funext c
  cases c <;> rfl

theorem Statistics.Command.records_false :
    (fun c : Statistics.Command K => c.records false) = isMiss := by
  funext c
  cases c <;> rfl

namespace Session

variable {s s' : Session T K V} {m : Member T K V} {i : CacheId} {event : AccessEvent}
  {command : Command T K V} {report : Report T K V (Answer K V)}

section Registered

/-- The observers of one kind that a request leaves registered at the cache `i`. -/
def registering (i : CacheId) (event : AccessEvent) (observers : List (Observer T)) :
    Command T K V × Answer K V → List (Observer T)
  | (.register j e observer, .registered _) =>
    if j = i ∧ e = event then observers ++ [observer] else observers
  | (.clearCallbacks j, _) => if j = i then [] else observers
  | _ => observers

/-- The observers of one kind that are registered at the cache `i` after the recorded requests, in
the order of registration. -/
def registered (record : List (Command T K V × Answer K V)) (i : CacheId) (event : AccessEvent) :
    List (Observer T) :=
  record.foldl (registering i event) []

/-- The observers of one kind that the cache `i` calls. -/
def observers (s : Session T K V) (i : CacheId) (event : AccessEvent) : List (Observer T) :=
  (s.members[i]?.map fun m => m.callbacks.of event).getD []

theorem observers_of_member (hm : s.members[i]? = some m) :
    s.observers i event = m.callbacks.of event := by
  rw [observers, hm]
  rfl

theorem observers_of_members (h : s'.members = s.members) : s'.observers i event =
    s.observers i event := by
  rw [observers, h, observers]

theorem observers_setMember {j : CacheId} (hm : s.members[j]? = some m) (m' : Member T K V) :
    (s.setMember j m').observers i event =
      if j = i then m'.callbacks.of event else s.observers i event := by
  rw [observers, getElem?_setMember hm]
  split <;> rfl

theorem observers_push {m : Member T K V} (h : s'.members = s.members.push m)
    (hm : m.callbacks = {}) : s'.observers i event = s.observers i event := by
  rw [observers, observers, h, Array.getElem?_push]
  split
  · next he =>
    rw [he, Array.getElem?_eq_none (Nat.le_refl _), Option.map_some, hm]
    cases event <;> rfl
  · rfl

theorem onMember_of_member {f : Member T K V → Report T K V (Answer K V)}
    (hm : s.members[i]? = some m) : s.onMember i f = f m := by
  rw [onMember, hm]

theorem onMember_of_none {f : Member T K V → Report T K V (Answer K V)}
    (hm : s.members[i]? = none) : s.onMember i f = s.keeping .done := by
  rw [onMember, hm]

theorem onMember_observers {j : CacheId} {f : Member T K V → Report T K V (Answer K V)}
    (hf : ∀ m, ∃ m', (f m).session = s.setMember j m' ∧ m'.callbacks = m.callbacks) :
    (s.onMember j f).session.observers i event = s.observers i event := by
  cases hm : s.members[j]? with
  | none => rw [onMember_of_none hm, keeping]
  | some m =>
    obtain ⟨m', he, hc⟩ := hf m
    rw [onMember_of_member hm, he, observers_setMember hm]
    split
    · next hj => rw [hc, ← hj, observers_of_member hm]
    · rfl

variable [BEq K]

theorem perform_observers (hr : s.perform command = .ok report) :
    report.session.observers i event =
      registering i event (s.observers i event) (command, report.result) := by
  cases command with
  | startClock | setClock _ _ | createStatistics _ =>
    cases hr
    exact observers_of_members rfl
  | advanceClock clock span =>
    obtain ⟨s', hs', rfl⟩ := Cache.exists_of_map_eq_ok hr
    obtain ⟨now, -, rfl⟩ := Cache.exists_of_map_eq_ok hs'
    exact observers_of_members rfl
  | createCache plan =>
    rcases createCache_cases hr with he | ⟨fresh, hf, he⟩
    · exact observers_of_members (congrArg Session.members he)
    · exact observers_push he rfl
  | adjust subject adjustment =>
    cases hr
    exact observers_of_members (s.adjust_members subject adjustment)
  | attach j statistics =>
    cases hr
    exact onMember_observers fun m => ⟨_, rfl, rfl⟩
  | detach j =>
    cases hr
    exact onMember_observers fun m => ⟨_, rfl, rfl⟩
  | register j e observer =>
    cases hr
    cases hm : s.members[j]? with
    | none =>
      rw [onMember_of_none hm]
      rfl
    | some m =>
      rw [onMember_of_member hm]
      refine (observers_setMember hm _).trans ?_
      rw [keeping, registering, Callbacks.of_register]
      by_cases hj : j = i
      · subst hj
        simp only [observers_of_member hm, if_true, true_and]
      · simp only [hj, if_false, false_and]
  | clearCallbacks j =>
    cases hr
    cases hm : s.members[j]? with
    | none =>
      rw [onMember_of_none hm, keeping, registering]
      split
      · next hj =>
        subst hj
        rw [observers, hm]
        rfl
      · rfl
    | some m =>
      rw [onMember_of_member hm]
      refine (observers_setMember hm _).trans ?_
      rw [keeping, registering]
      split
      · cases event <;> rfl
      · rfl
  | cache j request =>
    rcases onCache_cases hr with rfl | ⟨m, o, hm, ho, rfl⟩
    · rfl
    · have hm' : (s.notifyAll m o.notices).2.members[j]? = some m := by rwa [notifyAll_members]
      refine (observers_setMember hm' { m with cache := o.cache }).trans ?_
      split
      · next hj => exact (observers_of_member (m := m) (hj ▸ hm)).symm
      · exact observers_of_members (s.notifyAll_members m o.notices)

theorem run_observers {commands : List (Command T K V)} {reports : List (Report T K V (Answer K V))}
    (hr : s.run commands = .ok (reports, s')) :
    s'.observers i event =
      (commands.zip (reports.map Report.result)).foldl (registering i event)
        (s.observers i event) := by
  induction commands generalizing s reports with
  | nil =>
    cases hr
    rfl
  | cons command commands ih =>
    obtain ⟨report, hfirst, hr⟩ := Cache.exists_of_bind_eq_ok hr
    obtain ⟨⟨reports', s''⟩, hrest, hr⟩ := Cache.exists_of_bind_eq_ok hr
    cases hr
    rw [List.map_cons, List.zip_cons_cons, List.foldl_cons, ← perform_observers hfirst]
    exact ih hrest

end Registered

section Observed

variable [BEq K]

/-- The live entry of a key in a cache, at the reading of its clock. -/
def found (s : Session T K V) (m : Member T K V) (key : K) : Option (Entry K V) :=
  m.cache.reference.liveEntry (s.reading m) key

/-- A request had these observers called, one after the other, once `record` was done to the
statistics object of the cache. -/
structure Called (s : Session T K V) (m : Member T K V) (record : Statistics K → Statistics K)
    (calls : List (Call (Observer T) K V)) (report : Report T K V (Answer K V)) : Prop where
  order : report.log.map LogEntry.call = calls
  log : report.log = ((s.record m record).callAll calls).1
  statistics : report.session.statistics = ((s.record m record).callAll calls).2.statistics

/-- Which observers a request has called, where `observers` are those registered at that moment. -/
structure Observed (s : Session T K V) (observers : CacheId → AccessEvent → List (Observer T))
    (command : Command T K V) (report : Report T K V (Answer K V)) : Prop where
  /-- The value told is that of the live entry, and what is stored afterwards is made from it. -/
  hit : ∀ i request m key entry, command = .cache i request → s.members[i]? = some m →
    request.counted? = some key → s.found m key = some entry →
    s.Called m (fun statistics => statistics.recordHit key)
      ((observers i .hit).map (⟨·, .hit, key, .found entry.value⟩) ++
        (observers i .access).map (⟨·, .access, key, .outcome true⟩)) report ∧
    ∃ m' e, report.session.members[i]? = some m' ∧ m'.cache.reference.entryOf key = some e ∧
      e.value = request.overwrite entry.value
  miss : ∀ i request m key, command = .cache i request → s.members[i]? = some m →
    request.counted? = some key → s.found m key = none →
    s.Called m (fun statistics => statistics.recordMiss key)
      ((observers i .miss).map (⟨·, .miss, key, .absent⟩) ++
        (observers i .access).map (⟨·, .access, key, .outcome false⟩)) report
  /-- All is logged once the miss has been passed on; then the value is made and goes into a cache
  that has its old entries. -/
  made : ∀ i m key make, command = .cache i (.getOrInsert key make) → s.members[i]? = some m →
    s.found m key = none → ∃ (looking : List (Notice K V)) (found : Cache K V)
        (stored : Outcome K V Insertion) (m' : Member T K V),
      (s.notifyAll m (looking ++ [.miss key])).1 = report.log ∧ found.entries = m.cache.entries ∧
      found.insert (s.reading m) key (make key) = .ok stored ∧
      report.session.members[i]? = some m' ∧ m'.cache = stored.cache ∧
      report.notices = looking ++ .miss key :: .made key :: stored.notices
  others : (∀ i request m, command = .cache i request → s.members[i]? = some m →
    request.counted? = none) → report.log = []

theorem callAll_calls (s : Session T K V) (calls : List (Call (Observer T) K V)) :
    (s.callAll calls).1.map LogEntry.call = calls := by
  have h := congrArg (List.map LogEntry.call) (s.callAll_uncounted calls).1
  simpa [Function.comp_def, LogEntry.uncounted] using h

theorem access?_of_found {request : Cache.Command K V} {key : K} {entry : Entry K V}
    (hk : request.counted? = some key) (hf : s.found m key = some entry) :
    m.cache.access? (s.reading m) request = some (.hit key entry.value) := by
  rw [found] at hf
  rw [Cache.access?, hk, Option.map_some, hf]

theorem access?_of_not_found {request : Cache.Command K V} {key : K}
    (hk : request.counted? = some key) (hf : s.found m key = none) :
    m.cache.access? (s.reading m) request = some (.miss key) := by
  rw [found] at hf
  rw [Cache.access?, hk, Option.map_some, hf]

variable [EquivBEq K]

theorem Sound.called (hs : s.Sound) {request : Cache.Command K V} {notice : Notice K V}
    {record : Statistics K → Statistics K} (hm : s.members[i]? = some m)
    (hn : m.cache.access? (s.reading m) request = some notice)
    (hrecord : s.recorded m notice = s.record m record)
    (hr : s.perform (.cache i request) = .ok report) :
    s.Called m record (calls m notice) report := by
  obtain ⟨o, -, rfl⟩ := hs.report_of_member hm hr
  have hobserved : s.observed m request = (s.record m record).callAll (calls m notice) := by
    rw [observed, hn, ← hrecord]
  rw [hobserved]
  exact ⟨callAll_calls _ _, rfl, rfl⟩

/-- A request has the registered observers called for its access, and none if it makes none. -/
theorem Sound.observed (hs : s.Sound) (hr : s.perform command = .ok report) :
    s.Observed s.observers command report := by
  constructor
  case hit =>
    rintro i request m key entry rfl hm hk hf
    have hcalled := hs.called hm (access?_of_found hk hf) rfl hr
    obtain ⟨o, ho, rfl⟩ := hs.report_of_member hm hr
    rw [observers_of_member hm, observers_of_member hm]
    obtain ⟨e, he, hv⟩ := (hs i m hm).1.stored_of_hit ho hk hf
    exact ⟨hcalled, _, e, getElem?_observed hm _ _, he, hv⟩
  case miss =>
    rintro i request m key rfl hm hk hf
    rw [observers_of_member hm, observers_of_member hm]
    exact hs.called hm (access?_of_not_found hk hf) rfl hr
  case made =>
    rintro i m key make rfl hm hf
    obtain ⟨o, ho, rfl⟩ := hs.report_of_member hm hr
    obtain ⟨found, stored, hentries, hstored, hcache, hnotices⟩ :=
      (hs i m hm).1.made_after_miss ho hf
    refine ⟨_, found, stored, _, ?_, hentries, hstored, getElem?_observed hm _ _, hcache, hnotices⟩
    have hlooking := m.cache.reference.isTrace_deadNotices (s.reading m) key
    have hmiss : (m.cache.reference.deadNotices (s.reading m) key ++ [Notice.miss key]).filter
        Notice.isAccess = (some (.miss key)).toList := by
      rw [List.filter_append, Notice.filter_isAccess hlooking]
      rfl
    rw [notifyAll_filter, hmiss, observed_eq_notifyAll, access?_of_not_found rfl hf]
  case others =>
    intro hnone
    cases command with
    | cache i request =>
      rcases hs.onCache_cases hr with ⟨-, rfl⟩ | ⟨m, o, hm, -, rfl⟩
      · rfl
      · rw [Session.observed, Cache.access?, hnone i request m rfl hm]
        rfl
    | _ => exact perform_log hr (by rintro _ _ ⟨⟩)

end Observed

section Mirror

variable [DecidableEq T]

/-- Whether an observer of all accesses is told of a hit, or of a miss. -/
def tells (o : Observer T) (hit : Bool) (call : Call (Observer T) K V) : Bool :=
  match call.event, call.detail with
  | .access, .outcome outcome => outcome == hit && call.observer == o
  | _, _ => false

/-- How often an observer of all accesses was told of a hit, or of a miss. -/
def heard (o : Observer T) (hit : Bool) (log : List (LogEntry T K V)) : Nat :=
  log.countP fun e => tells o hit e.call

/-- The object `j` is attached to the cache `i` and to no other, and `o` is registered there for
all accesses and at no other cache. -/
structure Paired (s : Session T K V) (i : CacheId) (j : StatisticsId) (o : Observer T) : Prop where
  exist : j < s.statistics.size
  attached : ∀ k m, s.members[k]? = some m → (m.statistics = some j ↔ k = i)
  registered : ∀ k m, s.members[k]? = some m →
    m.callbacks.access.count o = if k = i then 1 else 0

/-- They stay paired as long as requests are carried out. -/
def PairedOver [BEq K] (s : Session T K V) (i : CacheId) (j : StatisticsId) (o : Observer T) :
    List (Command T K V) → Prop
  | [] => True
  | command :: commands => s.Paired i j o ∧
      ∀ report, s.perform command = .ok report → report.session.PairedOver i j o commands

variable {o : Observer T} {j : StatisticsId}

theorem heard_eq (o : Observer T) (hit : Bool) (log : List (LogEntry T K V)) :
    heard o hit log = (log.map LogEntry.call).countP (tells o hit) := by
  rw [List.countP_map]
  rfl

theorem countP_onHit (c : Callbacks (Observer T)) (key : K) (value : V) (hit : Bool) :
    (c.onHit key value).countP (tells o hit) = if hit then c.access.count o else 0 := by
  rw [Callbacks.onHit, List.countP_append, List.countP_map, List.countP_map]
  have hnone : c.hit.countP (tells o hit ∘ (⟨·, .hit, key, .found value⟩)) = 0 :=
    List.countP_eq_zero.mpr fun _ _ => Bool.false_ne_true
  rw [hnone, Nat.zero_add]
  cases hit with
  | true => rfl
  | false => exact List.countP_eq_zero.mpr fun _ _ => Bool.false_ne_true

theorem countP_onMiss (c : Callbacks (Observer T)) (key : K) (hit : Bool) :
    (c.onMiss key : List (Call (Observer T) K V)).countP (tells o hit) =
      if hit then 0 else c.access.count o := by
  rw [Callbacks.onMiss, List.countP_append, List.countP_map, List.countP_map]
  have hnone : c.miss.countP (tells o hit ∘ (⟨·, .miss, key, (.absent : AccessDetail V)⟩)) = 0 :=
    List.countP_eq_zero.mpr fun _ _ => Bool.false_ne_true
  rw [hnone, Nat.zero_add]
  cases hit with
  | true => exact List.countP_eq_zero.mpr fun _ _ => Bool.false_ne_true
  | false => rfl

omit [DecidableEq T] in
theorem countP_changes (hit : Bool) (log : List (LogEntry T K V)) :
    (log.filterMap (LogEntry.change? j)).countP (fun c => c.records hit) = 0 := by
  refine List.countP_eq_zero.mpr fun c hc => ?_
  obtain ⟨e, -, he⟩ := List.mem_filterMap.mp hc
  unfold LogEntry.change? at he
  split at he
  · split at he
    · obtain ⟨adjustment, -, rfl⟩ := Option.map_eq_some_iff.mp he
      exact Bool.false_ne_true
    · cases he
  · cases he

variable [BEq K]

theorem heard_observed (s : Session T K V) (m : Member T K V) (request : Cache.Command K V)
    (hit : Bool) : heard o hit (s.observed m request).1 =
      (m.cache.counting? (s.reading m) request).toList.countP (fun c => c.records hit) *
        m.callbacks.access.count o := by
  rw [heard_eq, observed, Cache.access?, Cache.counting?]
  cases request.counted? with
  | none =>
    rw [Option.map_none, Option.map_none, Option.toList_none, List.countP_nil, Nat.zero_mul]
    rfl
  | some key =>
    simp only [Option.map_some, callAll_calls, Option.toList_some, List.countP_singleton]
    cases m.cache.reference.liveEntry (s.reading m) key with
    | some entry =>
      refine (countP_onHit m.callbacks key entry.value hit).trans ?_
      cases hit <;> simp [Statistics.Command.records]
    | none =>
      refine (countP_onMiss m.callbacks key hit).trans ?_
      cases hit <;> simp [Statistics.Command.records]

variable [EquivBEq K]

theorem Paired.posting (h : s.Paired i j o) (hs : s.Sound) (hr : s.perform command = .ok report)
    (hit : Bool) : (s.posting j command report.log).countP (fun c => c.records hit) =
      heard o hit report.log := by
  rw [Session.posting, if_pos h.exist]
  cases command with
  | cache k request =>
    rcases hs.onCache_cases hr with ⟨hm, rfl⟩ | ⟨m, o, hm, -, rfl⟩
    · rw [dealings, hm]
      rfl
    · simp only [dealings, hm, List.countP_append, countP_changes, heard_observed, Nat.add_zero,
        h.attached k m hm, h.registered k m hm]
      split <;> simp
  | adjust subject adjustment =>
    rw [perform_log hr (by rintro _ _ ⟨⟩), dealings]
    split <;> rfl
  | _ =>
    rw [perform_log hr (by rintro _ _ ⟨⟩)]
    rfl

theorem account_heard (hs : s.Sound) {commands : List (Command T K V)}
    {reports : List (Report T K V (Answer K V))} (hr : s.run commands = .ok (reports, s'))
    (paired : s.PairedOver i j o commands) (hit : Bool) :
    (s.account j commands).countP (fun c => c.records hit) =
      heard o hit (reports.flatMap Report.log) := by
  induction commands generalizing s reports with
  | nil =>
    cases hr
    rfl
  | cons command commands ih =>
    obtain ⟨report, hfirst, hr⟩ := Cache.exists_of_bind_eq_ok hr
    obtain ⟨⟨reports', s''⟩, hrest, hr⟩ := Cache.exists_of_bind_eq_ok hr
    cases hr
    obtain ⟨hnow, hlater⟩ := paired
    have htail := ih (hs.perform hfirst).1 hrest (hlater report hfirst)
    simp only [account, hfirst, List.countP_append, hnow.posting hs hfirst, htail,
      List.flatMap_cons, heard]

/-- In a run without a reset, the object counts as many hits and misses as the observer is told. -/
theorem run_heard (hs : s.Sound) {commands : List (Command T K V)}
    {reports : List (Report T K V (Answer K V))} {history : List (Statistics.Command K)}
    (hhistory : s.object j = Statistics.run {} history)
    (hr : s.run commands = .ok (reports, s')) (paired : s.PairedOver i j o commands)
    (kept : ∀ c ∈ s.account j commands, c.isReset = false) :
    (s'.object j).hits = (s.object j).hits + heard o true (reports.flatMap Report.log) ∧
    (s'.object j).misses = (s.object j).misses + heard o false (reports.flatMap Report.log) := by
  have hafter : s'.object j = Statistics.run {} (history ++ s.account j commands) := by
    rw [hs.run_object hr, hhistory, Statistics.run_append]
  have hcounts := Statistics.counts_run history
  have hcounts' := Statistics.counts_run (history ++ s.account j commands)
  rw [← hhistory] at hcounts
  rw [← hafter] at hcounts'
  rw [hcounts.hits, hcounts.misses, hcounts'.hits, hcounts'.misses,
    Statistics.sinceReset_append kept, List.countP_append, List.countP_append,
    ← account_heard hs hr paired, ← account_heard hs hr paired, Statistics.Command.records_true,
    Statistics.Command.records_false]
  exact ⟨rfl, rfl⟩

end Mirror

section Runs

variable [BEq K] [EquivBEq K] [DecidableEq T]

/-- After every run from an empty session, the next request calls the observers that were registered
by then, each once and in order. Through a run without a reset, an observer of all accesses to a
cache is told of as many hits and misses as a statistics object of that cache alone counts. -/
theorem run_observed {before : List (Command T K V)} {earlier : List (Report T K V (Answer K V))}
    (hr : ({} : Session T K V).run before = .ok (earlier, s)) :
    (∀ command report, s.perform command = .ok report →
      s.Observed (registered (before.zip (earlier.map Report.result))) command report) ∧
    ∀ commands reports s' i j o, s.run commands = .ok (reports, s') →
      s.PairedOver i j o commands → (∀ c ∈ s.account j commands, c.isReset = false) →
      (s'.object j).hits = (s.object j).hits + heard o true (reports.flatMap Report.log) ∧
      (s'.object j).misses =
        (s.object j).misses + heard o false (reports.flatMap Report.log) := by
  have hs : s.Sound := (sound_empty.run hr).1
  constructor
  · intro command report hreport
    have hregistered : registered (before.zip (earlier.map Report.result)) = s.observers := by
      funext i event
      exact (run_observers hr).symm
    rw [hregistered]
    exact hs.observed hreport
  · intro commands reports s' i j o hrun paired kept
    exact run_heard hs (sound_empty.run_object hr j) hrun paired kept

/-- A hit, and a miss once the entry has expired: the observer is told of both. -/
theorem run_observed_expired : EquivBEq Nat ∧
    ∃ (earlier reports : List (Report Unit Nat Nat (Answer Nat Nat)))
      (s s' : Session Unit Nat Nat),
      ({} : Session Unit Nat Nat).run [.startClock, .createStatistics [],
        .createCache { origin := .empty 1 (.timeToLive 5), clock := some 0, statistics := some 0 },
        .register 0 .hit ⟨(), some (0, .watch)⟩, .register 0 .access ⟨(), none⟩,
        .cache 0 (.insert 1 10)] = .ok (earlier, s) ∧
      s.run [.cache 0 (.lookup 1), .setClock 0 7, .cache 0 (.getOrInsert 1 fun _ => 11)] =
        .ok (reports, s') ∧
      s.PairedOver 0 0 ⟨(), none⟩
        [.cache 0 (.lookup 1), .setClock 0 7, .cache 0 (.getOrInsert 1 fun _ => 11)] ∧
      (s'.object 0).hits = (s.object 0).hits + 1 ∧
      (s'.object 0).misses = (s.object 0).misses + 1 := by
  -- With one cache, only that one can be attached to the object.
  have single : ∀ {s : Session Unit Nat Nat} {m : Member Unit Nat Nat}, s.members = #[m] →
      0 < s.statistics.size → m.statistics = some 0 →
      m.callbacks.access.count ⟨(), none⟩ = 1 → s.Paired 0 0 ⟨(), none⟩ := by
    intro s m hs hsize hm hcount
    have hzero : ∀ k m', s.members[k]? = some m' → k = 0 ∧ m' = m := by
      intro k m' hk
      obtain ⟨hlt, hget⟩ := Array.getElem?_eq_some_iff.mp (hs ▸ hk)
      obtain rfl : k = 0 := Nat.lt_one_iff.mp hlt
      exact ⟨rfl, hget.symm⟩
    refine ⟨hsize, fun k m' hk => ?_, fun k m' hk => ?_⟩
    · obtain ⟨rfl, rfl⟩ := hzero k m' hk
      exact iff_of_true hm rfl
    · obtain ⟨rfl, rfl⟩ := hzero k m' hk
      exact hcount
  have hmirror := (@run_observed Unit Nat Nat _ _ _ _ [.startClock, .createStatistics [],
    .createCache { origin := .empty 1 (.timeToLive 5), clock := some 0, statistics := some 0 },
    .register 0 .hit ⟨(), some (0, .watch)⟩, .register 0 .access ⟨(), none⟩,
    .cache 0 (.insert 1 10)] _ rfl).2
      [.cache 0 (.lookup 1), .setClock 0 7, .cache 0 (.getOrInsert 1 fun _ => 11)] _ _ 0 0
      ⟨(), none⟩ rfl
  refine ⟨inferInstance, _, _, _, _, rfl, rfl, (and_iff_left_of_imp fun paired => ?_).mpr ?_⟩
  · exact hmirror paired (by decide)
  · refine ⟨single rfl (by decide) rfl (by decide), ?_⟩
    rintro _ ⟨⟩
    refine ⟨single rfl (by decide) rfl (by decide), ?_⟩
    rintro _ ⟨⟩
    refine ⟨single rfl (by decide) rfl (by decide), ?_⟩
    rintro _ ⟨⟩
    trivial

end Runs

end Session

end Lru
