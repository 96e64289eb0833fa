import Lru.Proofs.History.CloseReadings
import Lru.Proofs.Session.Altered
import Lru.Proofs.Session.LastAccessed

/-! # A timed cache in which nothing expires

Of two sessions one has a timed cache where the other has one without a time to
live. As long as the clock readings of the timed cache lie close together, the
sessions carry out the same requests with the same answers, logs, announcements
and statistics, and differ in nothing but what the timed cache knows of time.
-/

namespace Lru

variable {T K V : Type}

/-- The member without its clock and with all that its cache knows of time. -/
def Member.untimed (m : Member T K V) : Member T K V :=
  { m with cache := m.cache.untimed, clock := none }

/-- The member that stands at `id` where the cache `i` is to know no time. -/
def Member.untimedAt (i id : CacheId) (m : Member T K V) : Member T K V :=
  if id = i then m.untimed else m

/-- The session in which the cache `i` knows no time. -/
def Session.untimedAt (s : Session T K V) (i : CacheId) : Session T K V :=
  s.withMembers (s.members.mapIdx (Member.untimedAt i))

def Report.untimedAt {α : Type} (r : Report T K V α) (i : CacheId) : Report T K V α :=
  { r with session := r.session.untimedAt i }

namespace Session

/-- Whether a request asks the cache `i` about time. -/
def Command.asksTime (i : CacheId) : Command T K V → Bool
  | .cache id request => id == i && request.timed
  | _ => false

variable {s : Session T K V} {m : Member T K V} {i id : CacheId}

section Frame

theorem getElem?_untimedAt (s : Session T K V) (i id : CacheId) :
    (s.untimedAt i).members[id]? = (s.members[id]?).map (Member.untimedAt i id) :=
  s.getElem?_altered _ id

theorem untimedAt_of_ne (h : id ≠ i) (m : Member T K V) : m.untimedAt i id = m :=
  if_neg h

theorem untimedAt_self (i : CacheId) (m : Member T K V) : m.untimedAt i i = m.untimed :=
  if_pos rfl

theorem leavesAttached_untimedAt (i : CacheId) :
    LeavesAttached (Member.untimedAt i : CacheId → Member T K V → Member T K V) where
  withStatistics id m statistics := by
    unfold Member.untimedAt
    split <;> rfl
  withCallbacks id m callbacks := by
    unfold Member.untimedAt
    split <;> rfl

theorem altered_untimedAt (i : CacheId) :
    (fun r : Report T K V (Answer K V) => r.altered (Member.untimedAt i) fun a => a) =
      fun r => r.untimedAt i :=
  funext fun r => congrArg (fun result => ({ r with
    result, session := r.session.untimedAt i } : Report T K V (Answer K V))) r.result.altered_id

end Frame

section Requests

variable [BEq K]

theorem createCache_untimedAt (hm : s.members[i]? = some m) (plan : Plan K V) :
    (s.untimedAt i).createCache plan = (s.createCache plan).map (·.untimedAt i) := by
  have hlt : i < s.members.size := (Array.getElem?_eq_some_iff.mp hm).1
  rw [← altered_untimedAt]
  exact s.createCache_altered _ _ fun fresh _ => untimedAt_of_ne (Nat.ne_of_gt hlt) _

theorem reportOf_untimedAt (s : Session T K V) (i id : CacheId) (m : Member T K V)
    {o o' : Outcome K V (Cache.Answer K V)} (hresult : o'.result = o.result)
    (hnotices : o'.notices = o.notices)
    (hcache : ({ m.untimedAt i id with cache := o'.cache } : Member T K V) =
      ({ m with cache := o.cache } : Member T K V).untimedAt i id) :
    (s.untimedAt i).reportOf id (m.untimedAt i id) o' = (s.reportOf id m o).untimedAt i :=
  (leavesAttached_untimedAt i).reportOf s (fun a => a) id m hresult hnotices hcache

/-- A request that is not sent to the cache `i` does not see what that cache knows of time. -/
theorem perform_untimedAt (hm : s.members[i]? = some m) {command : Command T K V}
    (hc : ∀ request, command ≠ .cache i request) :
    (s.untimedAt i).perform command = (s.perform command).map (·.untimedAt i) := by
  cases command with
  | createCache plan => exact createCache_untimedAt hm plan
  | cache id request =>
    have hne : id ≠ i := fun he => hc request (he ▸ rfl)
    cases hid : s.members[id]? with
    | none =>
      simp only [perform, onCache, getElem?_untimedAt, hid]
      rfl
    | some m' =>
      have hid' : (s.untimedAt i).members[id]? = some m' := by
        rw [getElem?_untimedAt, hid, Option.map_some, untimedAt_of_ne hne]
      have hreading : (s.untimedAt i).readingFor m' request = s.readingFor m' request := rfl
      have hreport (o : Outcome K V (Cache.Answer K V)) :
          (s.untimedAt i).reportOf id m' o = (s.reportOf id m' o).untimedAt i := by
        have h := s.reportOf_untimedAt i id m' (o := o) rfl rfl
          (by simp only [untimedAt_of_ne hne])
        rwa [untimedAt_of_ne hne] at h
      rw [perform, perform, onCache_of_member hid, onCache_of_member hid', hreading]
      cases s.readingFor m' request with
      | error e => rfl
      | ok now =>
        simp only [Except.bind]
        cases m'.cache.perform now request with
        | error e => rfl
        | ok o => exact congrArg Except.ok (hreport o)
  | _ =>
    rw [← altered_untimedAt]
    exact (leavesAttached_untimedAt i).perform s (fun a => a) (by rintro _ ⟨⟩) (by rintro _ _ ⟨⟩)

theorem exists_of_perform (hm : s.members[i]? = some m) {command : Command T K V}
    (hc : ∀ request, command ≠ .cache i request) {report : Report T K V (Answer K V)}
    (hr : s.perform command = .ok report) :
    ∃ m', report.session.members[i]? = some m' ∧ m'.cache = m.cache := by
  rcases perform_cases hr with he | ⟨plan, fresh, -, -, he⟩ | ⟨id, m₁, m₂, hm₁, hcache, he⟩ |
    ⟨id, request, m₁, o, rfl, hm₁, -, he⟩
  · exact ⟨m, he ▸ hm, rfl⟩
  · have hlt : i < s.members.size := (Array.getElem?_eq_some_iff.mp hm).1
    refine ⟨m, ?_, rfl⟩
    rw [he, Array.getElem?_push, if_neg (Nat.ne_of_lt hlt), hm]
  · rw [he, getElem?_setMember hm₁]
    split
    · next hid =>
      subst hid
      obtain rfl : m₁ = m := Option.some.inj (hm₁.symm.trans hm)
      exact ⟨m₂, rfl, hcache⟩
    · exact ⟨m, hm, rfl⟩
  · have hne : id ≠ i := fun hid => hc request (hid ▸ rfl)
    refine ⟨m, ?_, rfl⟩
    rw [he, getElem?_setMember hm₁, if_neg hne, hm]

end Requests

section Target

variable [BEq K] {s : Session T K V} {m : Member T K V} {i : CacheId}
  {request : Cache.Command K V} {report : Report T K V (Answer K V)}

theorem exists_of_onCache (hm : s.members[i]? = some m) (hr : s.onCache i request = .ok report) :
    ∃ o, m.cache.perform (s.reading m) request = .ok o ∧ report = s.reportOf i m o := by
  rw [onCache_of_member hm] at hr
  obtain ⟨now, hnow, hr⟩ := Cache.exists_of_bind_eq_ok hr
  obtain rfl := readingFor_eq hnow
  obtain ⟨o, ho, rfl⟩ := Cache.exists_of_map_eq_ok hr
  exact ⟨o, ho, rfl⟩

theorem onCache_untimedAt (hm : s.members[i]? = some m) {now : Instant}
    (hlive : m.cache.AllLive now)
    (hnow : m.cache.perform (s.reading m) request = m.cache.perform now request)
    (ht : request.timed = false) (hr : s.onCache i request = .ok report) :
    (s.untimedAt i).onCache i request = .ok (report.untimedAt i) := by
  have hm' : (s.untimedAt i).members[i]? = some m.untimed := by
    rw [getElem?_untimedAt, hm, Option.map_some, untimedAt_self]
  have hreading : (s.untimedAt i).readingFor m.untimed request = .ok 0 := rfl
  obtain ⟨o, ho, rfl⟩ := exists_of_onCache hm hr
  have hplain : m.untimed.cache.perform 0 request = _ := hlive.perform_untimed ht
  have hmember : ({ m.untimedAt i i with cache := o.untimed.cache } : Member T K V) =
      ({ m with cache := o.cache } : Member T K V).untimedAt i i := by
    rw [untimedAt_self, untimedAt_self]
    rfl
  have hresult : o.untimed.result = o.result := rfl
  have hreport := s.reportOf_untimedAt i i m hresult rfl hmember
  rw [untimedAt_self] at hreport
  rw [onCache_of_member hm', hreading]
  simp only [Except.bind, hplain, ← hnow, ho]
  exact congrArg Except.ok hreport

variable [EquivBEq K]

theorem onCache_timed (hm : s.members[i]? = some m) (hc : m.cache.Coherent) {now : Instant}
    (hlive : m.cache.AllLive now)
    (hnow : m.cache.perform (s.reading m) request = m.cache.perform now request)
    (ht : request.timed = true) (hr : s.onCache i request = .ok report) :
    ∃ answer, report = s.keeping (.cache answer) ∧ m.cache.AnswersLive request answer := by
  obtain ⟨o, ho, rfl⟩ := exists_of_onCache hm hr
  obtain ⟨answer, ha, hanswer⟩ := hlive.perform_timed hc ht
  obtain rfl := Except.ok.inj (ha.symm.trans (hnow.symm.trans ho))
  refine ⟨answer, ?_, hanswer⟩
  have hset : s.setMember i m = s := setMember_self hm
  exact congrArg (fun s : Session T K V => s.keeping (.cache answer)) hset

end Target

section Runs

variable [BEq K] {s t : Session T K V} {m : Member T K V} {i : CacheId} {ttl : Duration}
  {past : List Instant} {commands : List (Command T K V)}
  {reports : List (Report T K V (Answer K V))}

/-- The readings that a request takes for the cache `i`. -/
def readingsAt (s : Session T K V) (i : CacheId) : Command T K V → List Instant
  | .cache id request =>
    if id = i then s.members[i]?.elim [] fun m => m.cache.taken (s.reading m) request else []
  | _ => []

/-- The readings that a run takes for the cache `i`, in order. -/
def readingsOver (s : Session T K V) (i : CacheId) : List (Command T K V) → List Instant
  | [] => []
  | command :: commands =>
    match s.perform command with
    | .ok report => s.readingsAt i command ++ report.session.readingsOver i commands
    | .error _ => []

/-- What is said in reply to requests that ask the cache `i` about time. -/
def AnswersLive (i : CacheId) (deed : Command T K V × Report T K V (Answer K V)) : Prop :=
  ∀ request, deed.1 = .cache i request → request.timed = true →
    ∃ m answer, deed.2.session.members[i]? = some m ∧
      deed.2 = deed.2.session.keeping (.cache answer) ∧ m.cache.AnswersLive request answer

variable [EquivBEq K]

/-- While readings lie close together, a request is carried out the same way without the time that
the cache `i` knows, or it asks for that and changes nothing. -/
theorem perform_follows {command : Command T K V} {report : Report T K V (Answer K V)}
    (hm : s.members[i]? = some m) (ht : m.cache.TimedBy ttl past)
    (close : Cache.Close ttl (past ++ s.readingsAt i command))
    (hr : s.perform command = .ok report) :
    (∃ m', report.session.members[i]? = some m' ∧
      m'.cache.TimedBy ttl (past ++ s.readingsAt i command)) ∧
    AnswersLive i (command, report) ∧
    (command.asksTime i = true → report.session = s) ∧
    (command.asksTime i = false → (s.untimedAt i).perform command = .ok (report.untimedAt i)) := by
  by_cases hc : ∃ request, command = .cache i request
  · obtain ⟨request, rfl⟩ := hc
    have htaken : s.readingsAt i (.cache i request) = m.cache.taken (s.reading m) request := by
      simp [readingsAt, hm]
    have hasks : (Command.cache i request : Command T K V).asksTime i = request.timed := by
      simp [Command.asksTime]
    rw [htaken] at close ⊢
    rw [hasks]
    obtain ⟨now, hlive, hnow⟩ := ht.exists_allLive close
    refine ⟨?_, ?_, ?_, fun hplain => onCache_untimedAt hm hlive hnow hplain hr⟩
    · obtain ⟨o, ho, rfl⟩ := exists_of_onCache hm hr
      exact ⟨{ m with cache := o.cache }, getElem?_reportOf hm o, ht.step ho⟩
    · rintro request' he htimed
      cases he
      obtain ⟨answer, rfl, hanswer⟩ := onCache_timed hm ht.coherent hlive hnow htimed hr
      exact ⟨m, answer, hm, rfl, hanswer⟩
    · intro htimed
      obtain ⟨answer, rfl, -⟩ := onCache_timed hm ht.coherent hlive hnow htimed hr
      rfl
  · have hother : ∀ request, command ≠ .cache i request := fun request he => hc ⟨request, he⟩
    have hnone : s.readingsAt i command = [] := by
      cases command with
      | cache id request =>
        have hne : id ≠ i := fun he => hother request (he ▸ rfl)
        exact if_neg hne
      | _ => rfl
    have hasks : command.asksTime i = false := by
      cases command with
      | cache id request =>
        have hne : id ≠ i := fun he => hother request (he ▸ rfl)
        simp [Command.asksTime, hne]
      | _ => rfl
    rw [hnone, List.append_nil] at close ⊢
    refine ⟨?_, fun request he => absurd he (hother request), fun he => ?_, fun _ => ?_⟩
    · obtain ⟨m', hm', hcache⟩ := exists_of_perform hm hother hr
      exact ⟨m', hm', hcache ▸ ht⟩
    · rw [hasks] at he
      cases he
    · rw [perform_untimedAt hm hother, hr]
      rfl

theorem run_follows (hm : s.members[i]? = some m) (ht : m.cache.TimedBy ttl past)
    (close : Cache.Close ttl (past ++ s.readingsOver i commands))
    (hr : s.run commands = .ok (reports, t)) :
    (s.untimedAt i).run (commands.filter fun command => !command.asksTime i) =
      .ok (((commands.zip reports).filter fun deed => !deed.1.asksTime i).map
        fun deed => deed.2.untimedAt i, t.untimedAt i) ∧
    ∀ deed ∈ commands.zip reports, AnswersLive i deed := by
  -- The readings taken so far bound the stamps, so they have to grow with the induction.
  induction commands generalizing s m past reports with
  | nil =>
    cases hr
    exact ⟨rfl, fun _ h => (nomatch h)⟩
  | cons command commands ih =>
    obtain ⟨report, hfirst, hr⟩ := Cache.exists_of_bind_eq_ok hr
    obtain ⟨⟨reports', t'⟩, hrest, hr⟩ := Cache.exists_of_bind_eq_ok hr
    cases hr
    have hover : s.readingsOver i (command :: commands) =
        s.readingsAt i command ++ report.session.readingsOver i commands := by
      simp only [readingsOver, hfirst]
    rw [hover, ← List.append_assoc] at close
    obtain ⟨⟨m', hm', ht'⟩, hlive, hasks, hfollows⟩ :=
      perform_follows hm ht (close.mono (List.subset_append_left _ _)) hfirst
    obtain ⟨hrun, hanswers⟩ := ih hm' ht' close hrest
    refine ⟨?_, ?_⟩
    · cases ha : command.asksTime i with
      | true =>
        rw [hasks ha] at hrun
        simpa [ha] using hrun
      | false =>
        simp only [List.zip_cons_cons, List.filter_cons, ha, Bool.not_false, if_true, List.map_cons,
          run, hfollows ha, bind, Except.bind]
        have hsession : (report.untimedAt i).session = report.session.untimedAt i := rfl
        rw [hsession, hrun]
        rfl
    · rw [List.zip_cons_cons]
      exact List.forall_mem_cons.mpr ⟨hlive, hanswers⟩

/-- A timed cache in which nothing expires is a cache without a time to live. Let the readings that
a run takes for a new timed cache be less than the time to live apart, whatever else is in the
session and whether or not the clock goes back. With a new cache of no time to live in its place,
the requests that do not ask it about time get the same answers, make the same announcements and
write the same logs; after each of them the statistics are the same and the caches differ in what
the timed one knows of time, that is in stamps, clock and policy. Asked about time, the timed cache
changes nothing and answers that nothing has expired. -/
theorem run_as_untimed {number : UInt64} {capacity : Nat} {mode : RecencyMode}
    (hm : s.members[i]? = some m) (hc : m.cache = .start number capacity (.timeToLive ttl) mode)
    (hr : s.run commands = .ok (reports, t)) (close : Cache.Close ttl (s.readingsOver i commands)) :
    (s.untimedAt i).members[i]? =
      some { m with cache := .start number capacity .capacity mode, clock := none } ∧
    (s.untimedAt i).run (commands.filter fun command => !command.asksTime i) =
      .ok (((commands.zip reports).filter fun deed => !deed.1.asksTime i).map
        fun deed => deed.2.untimedAt i, t.untimedAt i) ∧
    ∀ deed ∈ commands.zip reports, AnswersLive i deed := by
  have ht : m.cache.TimedBy ttl [] := hc ▸ Cache.timedBy_start number capacity ttl mode
  refine ⟨?_, run_follows hm ht close hr⟩
  rw [getElem?_untimedAt, hm, Option.map_some, untimedAt_self, Member.untimed, hc,
    Cache.untimed_start]

/-- The clock goes back between the insertions, of which the second displaces the first. -/
theorem run_as_untimed_backwards : EquivBEq Nat ∧
    ∃ (s t : Session Unit Nat Nat) (m : Member Unit Nat Nat)
      (commands : List (Command Unit Nat Nat)) (reports : List (Report Unit Nat Nat _)),
      commands = [.setClock 0 9, .cache 0 (.insert 1 10), .setClock 0 6, .cache 0 (.insert 2 20),
        .setClock 0 8, .cache 0 (.isExpired 2), .cache 0 (.lookup 2)] ∧
      s.members[0]? = some m ∧ m.cache = .start 0 1 (.timeToLive 5) .onAccess ∧
      s.run commands = .ok (reports, t) ∧ s.readingsOver 0 commands = [9, 6, 8, 8] ∧
      Cache.Close 5 (s.readingsOver 0 commands) ∧
      (s.untimedAt 0).members[0]? =
        some { m with cache := .start 0 1 .capacity .onAccess, clock := none } ∧
      ∃ reports', (s.untimedAt 0).run [.setClock 0 9, .cache 0 (.insert 1 10), .setClock 0 6,
        .cache 0 (.insert 2 20), .setClock 0 8, .cache 0 (.lookup 2)] =
          .ok (reports', t.untimedAt 0) := by
  let s : Session Unit Nat Nat :=
    { clocks := #[0]
      members := #[{ cache := .start 0 1 (.timeToLive 5) .onAccess, clock := some 0 }] }
  let commands : List (Command Unit Nat Nat) :=
    [.setClock 0 9, .cache 0 (.insert 1 10), .setClock 0 6, .cache 0 (.insert 2 20),
      .setClock 0 8, .cache 0 (.isExpired 2), .cache 0 (.lookup 2)]
  have hreadings : s.readingsOver 0 commands = [9, 6, 8, 8] := by decide +kernel
  have close : Cache.Close 5 [9, 6, 8, 8] := by
    unfold Cache.Close
    decide
  have hok : (s.run commands).isOk = true := by decide +kernel
  obtain ⟨⟨reports, t⟩, hr⟩ : ∃ x, s.run commands = .ok x := by
    cases h : s.run commands with
    | error e =>
      rw [h] at hok
      cases hok
    | ok x => exact ⟨x, rfl⟩
  obtain ⟨hplain, hrun, -⟩ := run_as_untimed (s := s) (i := 0) rfl rfl hr (hreadings.symm ▸ close)
  exact ⟨inferInstance, s, t, _, commands, reports, rfl, rfl, rfl, hr, hreadings,
    hreadings.symm ▸ close, hplain, _, hrun⟩

end Runs

end Session

end Lru
