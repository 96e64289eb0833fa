import Lru.Proofs.Cache.Quiet
import Lru.Proofs.Session.Accesses

/-! # Looking up and then inserting

The value of a live entry, or else one that is made and inserted, can be had in
one request or in two: a lookup that may change the entry but does not, and an
insertion after a miss. The two ways have the same answer and leave the same
session, down to slots and stamps, statistics, logs and traced events.
-/

namespace Lru

namespace Cache

variable {K V : Type} [BEq K]

/-- The entry at `id` got another value and a new stamp in its slot, and became the most recent
one. -/
structure Overwritten (c d : Cache K V) (id : SlotId) (entry : Entry K V) (value : V)
    (now : Instant) : Prop where
  order : ∃ p s, c.order.entries = p ++ (id, entry) :: s ∧
    d.order.entries = p ++ s ++ [(id, { entry with value, stamp := now })]
  index : d.index = c.index
  len : d.len = c.len
  lastAccessed : d.lastAccessed = some id
  generation : d.generation = c.generation + 1

/-- The two ways in which a lookup that changes no value ends, each with what becomes of a request
for the same key that inserts after a miss. -/
inductive Fetching (c : Cache K V) (now : Instant) (key : K) (make : K → V) : Prop
  | hit (value : V) (d : Cache K V) (stored : c.hasEntry key = true)
      (looked : c.lookupMut now key (fun v => v) =
        { result := .ok value, cache := d, notices := [.hit key value] })
      (got : c.getOrInsert now key make =
        .ok { result := value, cache := d, notices := [.hit key value] })
  | miss (memo : Option SlotId) (dead : List (Notice K V))
      (looked : c.lookupMut now key (fun v => v) =
        { result := .error .keyNotFound, cache := c.remembering memo
          notices := dead ++ [.miss key] })
      (got : c.getOrInsert now key make =
        ((c.remembering memo).insert now key (make key)).map fun stored =>
          (stored.map fun _ => make key).after (dead ++ [.miss key, .made key]))

variable [EquivBEq K] {c : Cache K V} {items p s : List (SlotId × Entry K V)}
  {free : List SlotId} {id : SlotId} {entry : Entry K V} {key : K} {now : Instant}

theorem Holds.hasEntry_of_mem (h : c.Holds (p ++ (id, entry) :: s) free)
    (same : key == entry.key) : c.hasEntry key = true := by
  rw [hasEntry, h.slotOf_of_mem same, Option.bind_some, h.get?_order, Option.isSome_some]

theorem Holds.fetching (h : c.Holds items free) (now : Instant) (key : K) (make : K → V) :
    c.Fetching now key make := by
  cases h.resolution now key with
  | miss memo resolved remembers dead =>
    refine .miss memo (c.reference.deadNotices now key) ?_ ?_
    · simp only [lookupMut, resolved]
    · simp only [getOrInsert, resolved, Option.bind_none]
      rfl
  | hit p id entry s split same resolved live silent =>
    subst split
    obtain ⟨p', entry', s', hd, -, hvalue⟩ := (h.remembering (some id)).promoteOnAccess now
    -- The promoted entry is still in its slot: a request that found it does not miss after all.
    have hg := hd.get?_order
    have hkept : ((c.remembering (some id)).promoteOnAccess now id).order.modify id
        (fun e => { e with value := e.value }) =
          ((c.remembering (some id)).promoteOnAccess now id).order :=
      RecencyList.modify_eq_self hg rfl
    refine .hit entry'.value ((c.remembering (some id)).promoteOnAccess now id)
      (h.hasEntry_of_mem same) ?_ ?_
    · simp only [lookupMut, resolved, hg, hkept, List.nil_append]
    · simp only [getOrInsert, resolved, Option.bind_some, hg, List.nil_append]

/-- An expired entry does not make room: it is overwritten where it is. -/
theorem Holds.getOrInsert_of_dead (h : c.Holds items free) (hm : (id, entry) ∈ items)
    (same : key == entry.key) (dead : c.policy.isLive now entry.stamp = false) (make : K → V) :
    ∃ d, c.getOrInsert now key make = .ok { result := make key, cache := d
                                            notices := [.trace .foundDead, .miss key, .made key] } ∧
      c.Overwritten d id entry (make key) now := by
  obtain ⟨p, s, rfl⟩ := List.append_of_mem hm
  have hforget : (c.forget id).Holds (p ++ (id, entry) :: s) free := by
    rw [forget_eq]
    exact h.remembering _
  have hd := hforget.replace now (make key)
  refine ⟨((c.forget id).replace now id (make key)).cache, ?_, ?_⟩
  · simp only [getOrInsert, h.resolve_of_dead same dead, Option.bind_none,
      hforget.insert_of_mem same]
    rfl
  · have hindex : ((c.forget id).replace now id (make key)).cache.index = c.index := by
      rw [forget_eq]
      rfl
    refine ⟨⟨p, s, h.order.entries_eq, hd.order.entries_eq⟩, hindex, ?_, rfl, ?_⟩
    · rw [len, len, hindex]
    · rw [forget_eq]
      rfl

end Cache

namespace Session

variable {T K V : Type} [BEq K]

/-- Looks a key up, and on a miss makes a value and inserts it, in requests of their own. -/
def lookupThenInsert (s : Session T K V) (id : CacheId) (key : K) (make : K → V) :
    Except Fault (Report T K V (Answer K V)) := do
  let looked ← s.perform (.cache id (.lookupMut key fun v => v))
  match looked.result with
  | .cache (.valueOr (.ok value)) => pure { looked with result := .cache (.value value) }
  | .cache (.valueOr (.error _)) =>
    let value := make key
    let stored ← looked.session.perform (.cache id (.insert key value))
    pure { stored with
      result := .cache (.value value)
      log := looked.log ++ stored.log
      notices := looked.notices ++ .made key :: stored.notices }
  | _ => pure looked

/-- What a request comes to that gets the value of a key from `m` or inserts one: it has one hit or
one miss recorded and observed, and it overwrites an expired entry, for which nothing is evicted. -/
structure Fetches (s : Session T K V) (id : CacheId) (m : Member T K V) (key : K) (make : K → V)
    (report : Report T K V (Answer K V)) : Prop where
  once : ∃ access c, (access = .miss key ∨ ∃ value, access = .hit key value) ∧
    report.notices.filter Notice.isAccess = [access] ∧ report.log = (s.notify m access).1 ∧
    report.session = (s.notify m access).2.setMember id { m with cache := c }
  overwrites : ∀ slot entry, (slot, entry) ∈ m.cache.order.entries → (key == entry.key) = true →
    m.cache.policy.isLive (s.reading m) entry.stamp = false →
    report.result = .cache (.value (make key)) ∧
    report.notices = [.trace .foundDead, .miss key, .made key] ∧
    ∃ c, report.session.members[id]? = some { m with cache := c } ∧
      m.cache.Overwritten c slot entry (make key) (s.reading m)

variable {s : Session T K V} {m : Member T K V} {id : CacheId} {key : K}

section Reports

theorem notifyAll_append (s : Session T K V) (m : Member T K V)
    (earlier later : List (Notice K V)) : s.notifyAll m (earlier ++ later) =
      ((s.notifyAll m earlier).1 ++ ((s.notifyAll m earlier).2.notifyAll m later).1,
        ((s.notifyAll m earlier).2.notifyAll m later).2) := by
  induction earlier generalizing s with
  | nil => rfl
  | cons first others ih =>
    rw [List.cons_append, notifyAll_cons, notifyAll_cons, ih]
    simp only [List.append_assoc]

theorem notifyAll_setMember (s : Session T K V) (m : Member T K V) (id : CacheId)
    (m' : Member T K V) (notices : List (Notice K V)) :
    (s.setMember id m').notifyAll m notices =
      ((s.notifyAll m notices).1, (s.notifyAll m notices).2.setMember id m') := by
  have hset : ∀ t : Session T K V, t.members = s.members →
      t.withMembers (s.members.setIfInBounds id m') = t.setMember id m' := by
    intro t ht
    rw [withMembers, setMember, ht]
  rw [← hset s rfl, notifyAll_withMembers, hset _ (s.notifyAll_members m notices)]

omit [BEq K] in
theorem setMember_setMember (s : Session T K V) (id : CacheId) (m m' : Member T K V) :
    (s.setMember id m).setMember id m' = s.setMember id m' := by
  simp only [setMember, Array.setIfInBounds_setIfInBounds]

/-- The report of an insertion that follows a miss, from the reports of the two. That the value was
made is announced to nobody outside. -/
theorem reportOf_stored (s : Session T K V) (id : CacheId) (m : Member T K V)
    (found : Outcome K V (Cache.Answer K V)) (stored : Outcome K V Insertion) (key : K)
    (value : V) :
    let looked := s.reportOf id m found
    let report := looked.session.reportOf id { m with cache := found.cache }
      (stored.map .inserted)
    s.reportOf id m ((stored.map fun _ => .value value).after (found.notices ++ [.made key])) =
      { report with
        result := .cache (.value value)
        log := looked.log ++ report.log
        notices := looked.notices ++ .made key :: report.notices } := by
  intro looked report
  have halike : looked.session.notifyAll { m with cache := found.cache } stored.notices =
      looked.session.notifyAll m stored.notices := by
    apply notifyAll_alike <;> rfl
  have hnotified : looked.session.notifyAll m stored.notices =
      (((s.notifyAll m found.notices).2.notifyAll m stored.notices).1,
        ((s.notifyAll m found.notices).2.notifyAll m stored.notices).2.setMember id
          { m with cache := found.cache }) := notifyAll_setMember ..
  have hreport : report =
      { result := .cache (.inserted stored.result)
        session := ((s.notifyAll m found.notices).2.notifyAll m stored.notices).2.setMember id
          { m with cache := stored.cache }
        log := ((s.notifyAll m found.notices).2.notifyAll m stored.notices).1
        notices := stored.notices } := by
    simp only [report, reportOf, Outcome.map]
    rw [halike, hnotified, setMember_setMember]
  rw [hreport]
  simp only [reportOf, Outcome.after, Outcome.map, notifyAll_append, List.append_assoc]
  rfl

end Reports

section Readings

theorem readingFor_getOrInsert (s : Session T K V) (m : Member T K V) (key : K) (make : K → V) :
    s.readingFor m (.getOrInsert key make) =
      (s.readingFor m (.lookupMut key fun v => v)).bind fun _ =>
        s.readingFor m (.insert key (make key)) := by
  have hreads : m.cache.readsClock (.getOrInsert key make) =
      (m.cache.readsClock (.lookupMut key fun v => v) ||
        m.cache.readsClock (.insert key (make key))) :=
    Bool.and_or_distrib_left ..
  rw [readingFor, readingFor, readingFor, hreads]
  cases m.cache.readsClock (.lookupMut key fun v => v) with
  | false => rfl
  | true =>
    obtain hchecked | ⟨e, hchecked⟩ : Instant.checked (s.reading m) = .ok (s.reading m) ∨
        ∃ e, Instant.checked (s.reading m) = .error e := by
      unfold Instant.checked
      split <;> simp
    · rw [hchecked]
      cases m.cache.readsClock (.insert key (make key)) <;> rfl
    · rw [hchecked]
      rfl

theorem readingFor_insert {now : Instant} {update : V → V} {value : V}
    (stored : m.cache.hasEntry key = true)
    (read : s.readingFor m (.lookupMut key update) = .ok now) :
    s.readingFor m (.insert key value) = .ok now := by
  obtain rfl := readingFor_eq read
  rw [readingFor] at read ⊢
  by_cases hw : m.cache.readsClock (.insert key value) = true
  · have hl : m.cache.readsClock (.lookupMut key update) = true :=
      Bool.and_eq_true_iff.mpr ⟨(Bool.and_eq_true_iff.mp hw).1, stored⟩
    rw [if_pos hl] at read
    rwa [if_pos hw]
  · rw [if_neg hw]

theorem readingFor_reportOf (s : Session T K V) (id : CacheId) (m : Member T K V)
    {found : Outcome K V (Cache.Answer K V)} {memo : Option SlotId}
    (hfound : found.cache = m.cache.remembering memo) (key : K) (value : V) :
    (s.reportOf id m found).session.readingFor { m with cache := found.cache }
      (.insert key value) = s.readingFor m (.insert key value) := by
  have hclocks : (s.reportOf id m found).session.clocks = s.clocks := s.notifyAll_clocks m _
  rw [readingFor, readingFor, reading, reading, hclocks, hfound]
  rfl

end Readings

section Steps

theorem lookupThenInsert_of_hit {make : K → V} {looked : Report T K V (Answer K V)} {value : V}
    (hl : s.perform (.cache id (.lookupMut key fun v => v)) = .ok looked)
    (hr : looked.result = .cache (.valueOr (.ok value))) :
    s.lookupThenInsert id key make = .ok { looked with result := .cache (.value value) } := by
  simp only [lookupThenInsert, hl, bind, Except.bind, hr]
  rfl

theorem lookupThenInsert_of_miss {make : K → V} {looked : Report T K V (Answer K V)}
    {e : CacheError} (hl : s.perform (.cache id (.lookupMut key fun v => v)) = .ok looked)
    (hr : looked.result = .cache (.valueOr (.error e))) :
    s.lookupThenInsert id key make =
      (looked.session.onCache id (.insert key (make key))).map fun stored =>
        { stored with
          result := .cache (.value (make key))
          log := looked.log ++ stored.log
          notices := looked.notices ++ .made key :: stored.notices } := by
  simp only [lookupThenInsert, hl, bind, Except.bind, hr]
  rfl

theorem onCache_of_hit (hm : s.members[id]? = some m) {make : K → V} {value : V} {d : Cache K V}
    (hread : s.readingFor m (.lookupMut key fun v => v) = .ok (s.reading m))
    (stored : m.cache.hasEntry key = true)
    (looked : m.cache.lookupMut (s.reading m) key (fun v => v) =
      { result := .ok value, cache := d, notices := [.hit key value] })
    (got : m.cache.getOrInsert (s.reading m) key make =
      .ok { result := value, cache := d, notices := [.hit key value] }) :
    s.onCache id (.getOrInsert key make) = s.lookupThenInsert id key make := by
  have hlooked : s.perform (.cache id (.lookupMut key fun v => v)) = .ok (s.reportOf id m
      { result := .valueOr (.ok value), cache := d, notices := [.hit key value] }) := by
    rw [Session.perform, onCache_of_member hm, hread, Except.bind, Cache.perform, looked]
    rfl
  rw [lookupThenInsert_of_hit hlooked rfl, onCache_of_member hm, readingFor_getOrInsert, hread]
  simp only [Except.bind, readingFor_insert stored hread, Cache.perform, got]
  rfl

theorem onCache_of_miss (hm : s.members[id]? = some m) {make : K → V} {memo : Option SlotId}
    {dead : List (Notice K V)}
    (hread : s.readingFor m (.lookupMut key fun v => v) = .ok (s.reading m))
    (looked : m.cache.lookupMut (s.reading m) key (fun v => v) =
      { result := .error .keyNotFound, cache := m.cache.remembering memo
        notices := dead ++ [.miss key] })
    (got : m.cache.getOrInsert (s.reading m) key make =
      ((m.cache.remembering memo).insert (s.reading m) key (make key)).map fun stored =>
        (stored.map fun _ => make key).after (dead ++ [.miss key, .made key])) :
    s.onCache id (.getOrInsert key make) = s.lookupThenInsert id key make := by
  let found : Outcome K V (Cache.Answer K V) :=
    ⟨.valueOr (.error .keyNotFound), m.cache.remembering memo, dead ++ [.miss key]⟩
  have hlooked : s.perform (.cache id (.lookupMut key fun v => v)) =
      .ok (s.reportOf id m found) := by
    rw [Session.perform, onCache_of_member hm, hread, Except.bind, Cache.perform, looked]
    rfl
  rw [lookupThenInsert_of_miss hlooked rfl, onCache_of_member (getElem?_reportOf hm found),
    s.readingFor_reportOf id m rfl, onCache_of_member hm, readingFor_getOrInsert, hread]
  cases hinsert : s.readingFor m (.insert key (make key)) with
  | error e => rfl
  | ok now =>
    obtain rfl := readingFor_eq hinsert
    simp only [Except.bind, Cache.perform, got]
    cases (m.cache.remembering memo).insert (s.reading m) key (make key) with
    | error e => rfl
    | ok stored =>
      refine congrArg Except.ok (Eq.trans ?_ (s.reportOf_stored id m found stored key (make key)))
      simp only [found, List.append_assoc]
      rfl

variable [EquivBEq K]

theorem Sound.perform_getOrInsert (hs : s.Sound) (id : CacheId) (key : K) (make : K → V) :
    s.perform (.cache id (.getOrInsert key make)) = s.lookupThenInsert id key make := by
  rw [Session.perform]
  cases hm : s.members[id]? with
  | none =>
    rw [lookupThenInsert, Session.perform, onCache, onCache, hm]
    rfl
  | some m =>
    obtain ⟨⟨items, free, h⟩, -⟩ := hs id m hm
    cases hread : s.readingFor m (.lookupMut key fun v => v) with
    | error e =>
      rw [lookupThenInsert, Session.perform, onCache_of_member hm, onCache_of_member hm,
        readingFor_getOrInsert, hread]
      rfl
    | ok now =>
      obtain rfl := readingFor_eq hread
      cases h.fetching (s.reading m) key make with
      | hit value d stored looked got => exact onCache_of_hit hm hread stored looked got
      | miss memo dead looked got => exact onCache_of_miss hm hread looked got

theorem Sound.fetches (hs : s.Sound) (hm : s.members[id]? = some m) {make : K → V}
    {report : Report T K V (Answer K V)}
    (hr : s.perform (.cache id (.getOrInsert key make)) = .ok report) :
    s.Fetches id m key make report := by
  obtain ⟨o, ho, rfl⟩ := hs.report_of_member hm hr
  have hc := (hs id m hm).1
  constructor
  · obtain ⟨access, haccess, hkey⟩ : ∃ access,
        m.cache.access? (s.reading m) (.getOrInsert key make) = some access ∧
          (access = .miss key ∨ ∃ value, access = .hit key value) := by
      simp only [Cache.access?, Cache.Command.counted?, Option.map_some]
      cases m.cache.reference.liveEntry (s.reading m) key with
      | none => exact ⟨_, rfl, .inl rfl⟩
      | some entry => exact ⟨_, rfl, .inr ⟨entry.value, rfl⟩⟩
    have hobserved : s.observed m (.getOrInsert key make) = s.notify m access := by
      rw [observed, haccess, notify_eq]
    refine ⟨access, o.cache, hkey, ?_, ?_, ?_⟩
    · rw [(hc.announced ho).filter_isAccess, haccess, Option.toList_some]
    · rw [hobserved]
    · rw [hobserved]
  · intro slot entry hentry same dead
    obtain ⟨items, free, h⟩ := hc
    rw [h.order.entries_eq] at hentry
    obtain ⟨d, hget, hd⟩ := h.getOrInsert_of_dead hentry same dead make
    obtain ⟨o', ho', rfl⟩ := Cache.exists_of_map_eq_ok ho
    cases hget.symm.trans ho'
    exact ⟨rfl, rfl, d, getElem?_observed hm _ _, hd⟩

theorem Sound.exists_report (hs : s.Sound) (hm : s.members[id]? = some m)
    (hclock : m.cache.policy.ttl? = none ∨ s.reading m < Instant.limit)
    (request : Cache.Command K V) : ∃ report, s.perform (.cache id request) = .ok report := by
  have hread : s.readingFor m request = .ok (s.reading m) := by
    rw [readingFor]
    split
    · next hreads =>
      rcases hclock with hplain | hlt
      · rw [Cache.readsClock, hplain] at hreads
        cases hreads
      · exact if_pos hlt
    · rfl
  obtain ⟨o, ho, -⟩ := (hs id m hm).1.perform (s.reading m) request
  refine ⟨s.reportOf id m o, ?_⟩
  rw [Session.perform, onCache_of_member hm, hread, Except.bind, ho]
  rfl

/-- After every run, to get the value of a key or to insert one has the same report as to look the
key up and, on a miss, to insert what is made: the same value, the same session and log, and the
same announcements, between which only the making of the value is marked. It has a report unless a
clock cannot be read, with one hit or one miss, and it overwrites an expired entry where it is. -/
theorem run_getOrInsert {before : List (Command T K V)}
    {reports : List (Report T K V (Answer K V))}
    (hr : ({} : Session T K V).run before = .ok (reports, s)) (id : CacheId) (key : K)
    (make : K → V) :
    s.perform (.cache id (.getOrInsert key make)) = s.lookupThenInsert id key make ∧
    ∀ m, s.members[id]? = some m →
      (m.cache.policy.ttl? = none ∨ s.reading m < Instant.limit →
        ∃ report, s.perform (.cache id (.getOrInsert key make)) = .ok report) ∧
      ∀ report, s.perform (.cache id (.getOrInsert key make)) = .ok report →
        s.Fetches id m key make report := by
  have hs : s.Sound := (sound_empty.run hr).1
  refine ⟨hs.perform_getOrInsert id key make, fun m hm => ⟨?_, ?_⟩⟩
  · intro hclock
    exact hs.exists_report hm hclock _
  · intro report hreport
    exact hs.fetches hm hreport

/-- The older entry of a full cache has expired: it is overwritten, and nothing is evicted. -/
theorem run_getOrInsert_expired : EquivBEq Nat ∧
    ∃ (s : Session Unit Nat Nat) (reports : List (Report Unit Nat Nat _))
      (m : Member Unit Nat Nat) (report : Report Unit Nat Nat _),
      ({} : Session Unit Nat Nat).run [.startClock,
        .createCache { origin := .empty 2 (.timeToLive 5), clock := some 0 },
        .cache 0 (.insert 1 10), .setClock 0 5, .cache 0 (.insert 2 20)] = .ok (reports, s) ∧
      s.members[0]? = some m ∧ m.cache.isFull = true ∧ s.reading m < Instant.limit ∧
      m.cache.order.entries = [(0, ⟨1, 10, 0⟩), (1, ⟨2, 20, 5⟩)] ∧
      s.lookupThenInsert 0 1 (fun _ => 30) = .ok report ∧
      report.notices = [.trace .foundDead, .miss 1, .made 1] ∧
      ∃ c, report.session.members[0]? = some { m with cache := c } ∧
        m.cache.Overwritten c 0 ⟨1, 10, 0⟩ 30 5 := by
  obtain ⟨s, reports, hr⟩ : ∃ (s : Session Unit Nat Nat) (reports : List (Report Unit Nat Nat _)),
      ({} : Session Unit Nat Nat).run [.startClock,
        .createCache { origin := .empty 2 (.timeToLive 5), clock := some 0 },
        .cache 0 (.insert 1 10), .setClock 0 5, .cache 0 (.insert 2 20)] = .ok (reports, s) :=
    ⟨_, _, rfl⟩
  obtain ⟨m, hm, hfull, hread, hpolicy, hentries⟩ : ∃ m, s.members[0]? = some m ∧
      m.cache.isFull = true ∧ s.reading m = 5 ∧ m.cache.policy = .timeToLive 5 ∧
      m.cache.order.entries = [(0, ⟨1, 10, 0⟩), (1, ⟨2, 20, 5⟩)] := by
    cases hr
    exact ⟨_, rfl, rfl, rfl, rfl, rfl⟩
  obtain ⟨heq, h⟩ := run_getOrInsert hr 0 1 fun _ => 30
  obtain ⟨hexists, hfetches⟩ := h m hm
  have hlimit : s.reading m < Instant.limit := by
    rw [hread]
    decide
  obtain ⟨report, hreport⟩ := hexists (.inr hlimit)
  have hdead : m.cache.policy.isLive (s.reading m) 0 = false := by
    rw [hpolicy, hread]
    rfl
  obtain ⟨-, hnotices, c, hc, hover⟩ := (hfetches report hreport).overwrites 0 ⟨1, 10, 0⟩
    (by simp [hentries]) rfl hdead
  exact ⟨inferInstance, s, reports, m, report, hr, hm, hfull, hlimit, hentries,
    heq.symm.trans hreport, hnotices, c, hc, hread ▸ hover⟩

end Steps

end Session

end Lru
