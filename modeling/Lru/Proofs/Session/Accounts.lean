import Lru.Proofs.Session.Accesses
import Lru.Proofs.Statistics

/-! # The accounts of statistics objects

A statistics object is shared: caches that it is attached to record accesses,
requests adjust what it counts, and so do observers while they are called. The
account of an object lists all that it was made to carry out over a run, in the
order in which it happened. What the object counts is what its account calls
for, also in the middle of a request, when an observer reads the totals.
-/

namespace Lru

variable {T K V : Type}

/-- The change that the observer who wrote a log entry made to the object `id`. -/
def LogEntry.change? (id : StatisticsId) (e : LogEntry T K V) : Option (Statistics.Command K) :=
  match e.call.observer.subject with
  | some (subject, reaction) =>
    if subject = id then (reaction.adjustment? e.call.key).map .adjust else none
  | none => none

variable [BEq K]

/-- How a request counts: as a hit if it asks for a value and meets a live entry of its key, as a
miss if it asks for a value and meets none. -/
def Cache.counting? (c : Cache K V) (now : Instant) (request : Cache.Command K V) :
    Option (Statistics.Command K) :=
  request.counted?.map fun key =>
    if (c.reference.liveEntry now key).isSome then .recordHit key else .recordMiss key

namespace Session

/-- What a request has the existing object `id` carry out: the access is counted if the object is
attached to the cache, and then come the changes that the observers made when they wrote `log`. -/
def dealings (s : Session T K V) (id : StatisticsId) (command : Command T K V)
    (log : List (LogEntry T K V)) : List (Statistics.Command K) :=
  match command with
  | .adjust subject adjustment => if subject = id then [.adjust adjustment] else []
  | .cache i request =>
    match s.members[i]? with
    | some m =>
      (if m.statistics = some id then (m.cache.counting? (s.reading m) request).toList else []) ++
        log.filterMap (LogEntry.change? id)
    | none => []
  | _ => []

/-- What a new object has carried out: it monitors the keys that it is created with. -/
def opening (s : Session T K V) (id : StatisticsId) : Command T K V → List (Statistics.Command K)
  | .createStatistics keys =>
    if id = s.statistics.size then keys.map fun key => .adjust (.monitor key) else []
  | _ => []

/-- What a request adds to the account of the object `id`. -/
def posting (s : Session T K V) (id : StatisticsId) (command : Command T K V)
    (log : List (LogEntry T K V)) : List (Statistics.Command K) :=
  if id < s.statistics.size then s.dealings id command log else s.opening id command

/-- All that a run has the object `id` carry out, in order. -/
def account (s : Session T K V) (id : StatisticsId) :
    List (Command T K V) → List (Statistics.Command K)
  | [] => []
  | command :: commands =>
    match s.perform command with
    | .ok report => s.posting id command report.log ++ report.session.account id commands
    | .error _ => []

/-- The object `id`; before it is created it counts nothing. -/
def object (s : Session T K V) (id : StatisticsId) : Statistics K :=
  s.statistics[id]?.getD {}

/-- The statistics objects of `s` have each carried out its own history in `s'`. -/
def Carries (s s' : Session T K V) (history : StatisticsId → List (Statistics.Command K)) : Prop :=
  ∀ id : StatisticsId, s'.statistics[id]? =
    s.statistics[id]?.map fun statistics => statistics.run (history id)

variable {s s' s'' : Session T K V} {m : Member T K V} {id : StatisticsId} {i : CacheId}
  {command : Command T K V} {request : Cache.Command K V} {report : Report T K V (Answer K V)}

section Carries

variable {history history' : StatisticsId → List (Statistics.Command K)}

theorem map_run_nil (statistics? : Option (Statistics K)) :
    (statistics?.map fun statistics => statistics.run []) = statistics? :=
  Option.map_id'

theorem carries_of_statistics (he : s'.statistics = s.statistics) : s.Carries s' fun _ => [] := by
  intro id
  rw [he, map_run_nil]

theorem Carries.trans (h : s.Carries s' history) (h' : s'.Carries s'' history') :
    s.Carries s'' fun id => history id ++ history' id := by
  intro id
  rw [h' id, h id, Option.map_map]
  congr 1
  funext statistics
  exact (statistics.run_append _ _).symm

theorem Carries.object (h : s.Carries s' history) (id : StatisticsId) :
    s'.object id = (s.object id).run (if id < s.statistics.size then history id else []) := by
  rw [Session.object, Session.object, h id]
  by_cases hid : id < s.statistics.size
  · rw [if_pos hid, Array.getElem?_eq_getElem hid]
    rfl
  · rw [if_neg hid, Array.getElem?_eq_none (Nat.le_of_not_lt hid)]
    rfl

theorem adjust_carries (s : Session T K V) (subject : StatisticsId)
    (adjustment : Statistics.Adjustment K) : s.Carries (s.adjust subject adjustment).2
      fun id => if subject = id then [.adjust adjustment] else [] := by
  intro id
  have hadjust : (s.adjust subject adjustment).2.statistics[id]? =
      if subject = id then s.statistics[id]?.map fun statistics => (statistics.adjust adjustment).2
      else s.statistics[id]? := by
    unfold adjust
    by_cases he : subject = id
    · subst he
      cases hs : s.statistics[subject]? with
      | none => simp [hs]
      | some statistics => simp [(Array.getElem?_eq_some_iff.mp hs).1]
    · cases s.statistics[subject]? <;> simp [he]
  simp only [hadjust]
  split
  · rfl
  · exact (map_run_nil _).symm

theorem call_carries (s : Session T K V) (call : Call (Observer T) K V) :
    s.Carries (s.call call).2 fun id => ((s.call call).1.change? id).toList := by
  unfold Session.call
  cases hsubject : call.observer.subject with
  | none =>
    simp only [LogEntry.change?, hsubject]
    exact carries_of_statistics rfl
  | some subject =>
    obtain ⟨subject, reaction⟩ := subject
    simp only [LogEntry.change?, hsubject, react]
    cases reaction.adjustment? call.key with
    | none =>
      simp only [Option.map_none, ite_self]
      exact carries_of_statistics rfl
    | some adjustment =>
      intro id
      refine (s.adjust_carries subject adjustment id).trans ?_
      by_cases he : subject = id <;> simp [he]

theorem callAll_carries (s : Session T K V) (calls : List (Call (Observer T) K V)) :
    s.Carries (s.callAll calls).2 fun id =>
      (s.callAll calls).1.filterMap (LogEntry.change? id) := by
  induction calls generalizing s with
  | nil => exact carries_of_statistics rfl
  | cons first others ih =>
    intro id
    refine ((s.call_carries first).trans (ih (s.call first).2) id).trans ?_
    simp only [callAll, List.filterMap_cons]
    cases (s.call first).1.change? id <;> rfl

theorem record_carries (s : Session T K V) (m : Member T K V) (c : Statistics.Command K) :
    s.Carries (s.record m fun statistics => statistics.perform c)
      fun id => if m.statistics = some id then [c] else [] := by
  intro id
  unfold record
  cases m.statistics with
  | none => exact (map_run_nil _).symm
  | some attached =>
    simp only [Array.getElem?_modify, Option.some.injEq]
    split
    · rfl
    · exact (map_run_nil _).symm

theorem recorded_carries (s : Session T K V) {notice : Notice K V}
    (hn : m.cache.access? (s.reading m) request = some notice) :
    s.Carries (s.recorded m notice) fun id =>
      if m.statistics = some id then (m.cache.counting? (s.reading m) request).toList else [] := by
  obtain ⟨key, hkey, hn⟩ := Option.map_eq_some_iff.mp hn
  cases hl : m.cache.reference.liveEntry (s.reading m) key with
  | some entry =>
    have hcount : m.cache.counting? (s.reading m) request = some (.recordHit key) := by
      simp [Cache.counting?, hkey, hl]
    rw [hl] at hn
    rw [← hn, hcount]
    exact s.record_carries m (.recordHit key)
  | none =>
    have hcount : m.cache.counting? (s.reading m) request = some (.recordMiss key) := by
      simp [Cache.counting?, hkey, hl]
    rw [hl] at hn
    rw [← hn, hcount]
    exact s.record_carries m (.recordMiss key)

end Carries

section Steps

theorem observed_carries (s : Session T K V) (hm : s.members[i]? = some m) :
    s.Carries (s.observed m request).2 fun id =>
      s.dealings id (.cache i request) (s.observed m request).1 := by
  intro id
  simp only [dealings, hm, observed]
  cases hn : m.cache.access? (s.reading m) request with
  | none =>
    have hcount : m.cache.counting? (s.reading m) request = none := by
      rw [Cache.access?, Option.map_eq_none_iff] at hn
      rw [Cache.counting?, hn]
      rfl
    simp only [hcount, Option.toList_none, ite_self, List.append_nil, List.filterMap_nil]
    exact carries_of_statistics rfl id
  | some notice =>
    exact (s.recorded_carries hn).trans ((s.recorded m notice).callAll_carries _) id

omit [BEq K] in
theorem object_eq (h : s'.statistics = s.statistics) (id : StatisticsId) :
    s'.object id = s.object id := by
  rw [object, object, h]

omit [BEq K] in
theorem onMember_statistics {f : Member T K V → Report T K V (Answer K V)}
    (hf : ∀ m, (f m).session.statistics = s.statistics) :
    (s.onMember i f).session.statistics = s.statistics := by
  unfold onMember
  cases s.members[i]? with
  | none => rfl
  | some m => exact hf m

omit [BEq K] in
/-- A new object that monitors no key counts like one that does not exist. -/
theorem object_push (h : s'.statistics = s.statistics.push {}) (id : StatisticsId) :
    s'.object id = s.object id := by
  rw [object, object, h, Array.getElem?_push]
  split
  · next he =>
    rw [he, Array.getElem?_eq_none (Nat.le_refl _)]
    rfl
  · rfl

theorem createCache_statistics {plan : Plan K V} (hr : s.createCache plan = .ok report) :
    report.session.statistics = s.statistics ∨
      report.session.statistics = s.statistics.push {} := by
  obtain ⟨made, hmade, hr'⟩ := Cache.exists_of_bind_eq_ok hr
  cases made with
  | error e =>
    cases hr'
    exact .inl rfl
  | ok fresh =>
    rw [createCache_of_fresh hmade] at hr
    cases hr
    cases fresh.ownStatistics with
    | false => exact .inl rfl
    | true => exact .inr rfl

theorem createStatistics_object (s : Session T K V) (id : StatisticsId) (keys : List K) :
    (s.createStatistics keys).2.object id =
      (s.object id).run (s.posting id (.createStatistics keys) []) := by
  have hpush : (s.createStatistics keys).2.statistics[id]? =
      if id = s.statistics.size then some (.ofKeys keys) else s.statistics[id]? :=
    Array.getElem?_push
  rw [object, hpush, object, posting]
  by_cases he : id = s.statistics.size
  · rw [if_pos he, if_neg (he ▸ Nat.lt_irrefl _), opening, if_pos he, he,
      Array.getElem?_eq_none (Nat.le_refl _)]
    exact Statistics.ofKeys_eq_run keys
  · rw [if_neg he, opening, if_neg he, dealings, ite_self]
    · rfl
    all_goals rintro _ _ ⟨⟩

variable [EquivBEq K]

theorem Sound.perform_object (hs : s.Sound) (hr : s.perform command = .ok report)
    (id : StatisticsId) :
    report.session.object id = (s.object id).run (s.posting id command report.log) := by
  cases command with
  | startClock | setClock _ _ =>
    cases hr
    simp only [posting, dealings, opening, ite_self]
    exact object_eq rfl id
  | advanceClock clock span =>
    obtain ⟨s', hs', rfl⟩ := Cache.exists_of_map_eq_ok hr
    obtain ⟨now, -, rfl⟩ := Cache.exists_of_map_eq_ok hs'
    simp only [posting, dealings, opening, ite_self]
    exact object_eq rfl id
  | createStatistics keys =>
    cases hr
    exact s.createStatistics_object id keys
  | createCache plan =>
    simp only [posting, dealings, opening, ite_self]
    rcases createCache_statistics hr with he | he
    · exact object_eq he id
    · exact object_push he id
  | adjust subject adjustment =>
    cases hr
    exact (s.adjust_carries subject adjustment).object id
  | attach i _ | detach i | register i _ _ | clearCallbacks i =>
    cases hr
    simp only [posting, dealings, opening, ite_self]
    refine object_eq (s := s) (onMember_statistics fun m => ?_) id
    rfl
  | cache i request =>
    rcases hs.onCache_cases hr with ⟨hm, rfl⟩ | ⟨m, o, hm, ho, rfl⟩
    · simp only [posting, dealings, opening, hm, ite_self]
      exact object_eq rfl id
    · exact (s.observed_carries hm).object id

theorem Sound.run_object (hs : s.Sound) {commands : List (Command T K V)}
    {reports : List (Report T K V (Answer K V))} (hr : s.run commands = .ok (reports, s'))
    (id : StatisticsId) : s'.object id = (s.object id).run (s.account id commands) := by
  induction commands generalizing s reports with
  | nil =>
    cases hr
    rfl
  | cons command commands ih =>
    obtain ⟨report, hfirst, hr⟩ := Cache.exists_of_bind_eq_ok hr
    obtain ⟨⟨reports', s''⟩, hrest, hr⟩ := Cache.exists_of_bind_eq_ok hr
    cases hr
    simp only [account, hfirst, Statistics.run_append]
    rw [ih (hs.perform hfirst).1 hrest, hs.perform_object hfirst]

end Steps

section Totals

theorem call_totals (s : Session T K V) (call : Call (Observer T) K V) {reaction : Reaction}
    (hc : (s.call call).1.call.observer.subject = some (id, reaction)) :
    (s.call call).1.totals = (s.call call).2.statistics[id]?.map fun statistics =>
      (statistics.accesses, statistics.hits) := by
  unfold Session.call at hc ⊢
  cases hsubject : call.observer.subject with
  | none =>
    simp only [hsubject] at hc
    cases hc
  | some subject =>
    simp only [hsubject] at hc ⊢
    cases hc
    rfl

theorem callAll_split {calls : List (Call (Observer T) K V)}
    {before behind : List (LogEntry T K V)} {e : LogEntry T K V}
    (h : (s.callAll calls).1 = before ++ e :: behind) :
    ∃ done next, (s.callAll (done ++ [next])).1 = before ++ [e] ∧
      ((s.callAll done).2.call next).1 = e ∧
      (s.callAll (done ++ [next])).2 = ((s.callAll done).2.call next).2 := by
  induction calls generalizing s before with
  | nil => simp [callAll] at h
  | cons first others ih =>
    cases before with
    | nil =>
      obtain ⟨rfl, -⟩ := List.cons.inj h
      exact ⟨[], first, rfl, rfl, rfl⟩
    | cons b before =>
      obtain ⟨rfl, htail⟩ := List.cons.inj h
      obtain ⟨done, next, hlog, hentry, hsession⟩ := ih htail
      exact ⟨first :: done, next, congrArg ((s.call first).1 :: ·) hlog, hentry, hsession⟩

/-- What an observer reads is what the object counts after the access and after the changes that
the observers made up to then. -/
theorem observed_totals (hm : s.members[i]? = some m) {before behind : List (LogEntry T K V)}
    {e : LogEntry T K V} {reaction : Reaction}
    (h : (s.observed m request).1 = before ++ e :: behind)
    (he : e.call.observer.subject = some (id, reaction)) (hid : id < s.statistics.size) :
    ∃ statistics, e.totals = some (statistics.accesses, statistics.hits) ∧
      statistics = (s.object id).run (s.dealings id (.cache i request) (before ++ [e])) := by
  unfold observed at h
  cases hn : m.cache.access? (s.reading m) request with
  | none => simp [hn] at h
  | some notice =>
    rw [hn] at h
    obtain ⟨done, next, hlog, rfl, hsession⟩ := callAll_split h
    have hcarries := ((s.recorded_carries hn).trans
      ((s.recorded m notice).callAll_carries (done ++ [next]))) id
    rw [hlog, hsession, Array.getElem?_eq_getElem hid, Option.map_some] at hcarries
    refine ⟨_, ?_, rfl⟩
    rw [call_totals _ next he, hcarries, object, Array.getElem?_eq_getElem hid]
    simp only [dealings, hm]
    rfl

end Totals

section Runs

/-- Whether a request may change what a statistics object counts: it adjusts or creates one, or it
asks a cache for a value. -/
def Command.counts : Command T K V → Bool
  | .adjust _ _ | .createStatistics _ => true
  | .cache _ request => request.counted?.isSome
  | _ => false

/-- What the statistics objects count, where `account` lists what each has carried out. -/
structure Accounted (s : Session T K V) (account : StatisticsId → List (Statistics.Command K)) :
    Prop where
  objects : ∀ id, Statistics.Counts (account id) (s.object id)
  /-- In the middle of a request, an observer reads what the object counts after the access and
  after the changes that the observers made up to then. -/
  readings : ∀ command report, s.perform command = .ok report → ∀ before e behind id reaction,
    report.log = before ++ e :: behind → e.call.observer.subject = some (id, reaction) →
    id < s.statistics.size → ∃ statistics,
      Statistics.Counts (account id ++ s.posting id command (before ++ [e])) statistics ∧
        e.totals = some (statistics.accesses, statistics.hits)
  others : ∀ command report, s.perform command = .ok report → command.counts = false →
    ∀ id, report.session.object id = s.object id

variable [EquivBEq K]

theorem Sound.object_of_not_counts (hs : s.Sound) (hr : s.perform command = .ok report)
    (hc : command.counts = false) (id : StatisticsId) : report.session.object id = s.object id := by
  rw [hs.perform_object hr id]
  suffices hnone : s.posting id command report.log = [] by
    rw [hnone]
    rfl
  cases command with
  | adjust _ _ | createStatistics _ => cases hc
  | cache i request =>
    have hcount : request.counted? = none := by simpa [Command.counts] using hc
    rcases hs.onCache_cases hr with ⟨hm, rfl⟩ | ⟨m, o, hm, ho, rfl⟩
    · simp [posting, dealings, opening, hm]
    · simp [posting, dealings, opening, hm, observed, Cache.access?, Cache.counting?, hcount]
  | _ => simp [posting, dealings, opening]

/-- After every run from an empty session, each statistics object counts the accesses that were made
through caches it was attached to, whoever shares it and whatever its observers do. -/
theorem run_accounted {commands : List (Command T K V)}
    {reports : List (Report T K V (Answer K V))}
    (hr : ({} : Session T K V).run commands = .ok (reports, s)) :
    s.Accounted fun id => ({} : Session T K V).account id commands := by
  have hs : s.Sound := (sound_empty.run hr).1
  have hobject (id : StatisticsId) :
      s.object id = Statistics.run {} (({} : Session T K V).account id commands) :=
    sound_empty.run_object hr id
  constructor
  case objects =>
    intro id
    rw [hobject]
    exact Statistics.counts_run _
  case readings =>
    intro command report hreport before e behind id reaction hlog he hid
    cases command with
    | cache i request =>
      rcases hs.onCache_cases hreport with ⟨hm, rfl⟩ | ⟨m, o, hm, ho, rfl⟩
      · exact absurd hlog (by simp [keeping])
      · obtain ⟨statistics, htotals, hstatistics⟩ := observed_totals hm hlog he hid
        refine ⟨statistics, ?_, htotals⟩
        rw [hstatistics, hobject, ← Statistics.run_append, posting, if_pos hid]
        exact Statistics.counts_run _
    | _ => exact absurd (hlog.symm.trans (perform_log hreport (by rintro _ _ ⟨⟩))) (by simp)
  case others =>
    intro command report hreport hc id
    exact hs.object_of_not_counts hreport hc id

/-- Two caches share an object that an observer resets. After that it counts a miss of an expired
entry through one cache and a hit through the other. -/
theorem run_accounted_shared : EquivBEq Nat ∧
    ∃ (reports : List (Report Unit Nat Nat (Answer Nat Nat))) (s : Session Unit Nat Nat),
      ({} : Session Unit Nat Nat).run [.startClock, .createStatistics [1],
        .createCache { origin := .empty 1 (.timeToLive 5), clock := some 0, statistics := some 0 },
        .createCache { origin := .empty 1 .capacity, statistics := some 0 },
        .register 1 .miss ⟨(), some (0, .reset)⟩, .cache 0 (.insert 1 10), .cache 0 (.lookup 1),
        .cache 1 (.getOrInsert 2 fun _ => 20), .setClock 0 7, .cache 0 (.lookup 1),
        .cache 1 (.lookupMut 2 Nat.succ)] = .ok (reports, s) ∧
      (s.Accounted fun id => ({} : Session Unit Nat Nat).account id [.startClock,
        .createStatistics [1],
        .createCache { origin := .empty 1 (.timeToLive 5), clock := some 0, statistics := some 0 },
        .createCache { origin := .empty 1 .capacity, statistics := some 0 },
        .register 1 .miss ⟨(), some (0, .reset)⟩, .cache 0 (.insert 1 10), .cache 0 (.lookup 1),
        .cache 1 (.getOrInsert 2 fun _ => 20), .setClock 0 7, .cache 0 (.lookup 1),
        .cache 1 (.lookupMut 2 Nat.succ)]) ∧
      (s.object 0).accesses = 2 ∧ (s.object 0).hits = 1 ∧
      (s.object 0).statsFor 1 = .ok { hits := 0, misses := 1 } ∧
      (s.object 0).statsFor 2 = .error .unmonitoredKey :=
  ⟨inferInstance, _, _, rfl, run_accounted rfl, rfl, rfl, rfl, rfl⟩

end Runs

end Session

end Lru
