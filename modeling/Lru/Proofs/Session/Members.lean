import Lru.Proofs.Cache.Handles
import Lru.Session.Command

/-! # The caches of a session

Requests change a cache only when they are sent to it, and the callbacks they
set off change none. The caches of a session hold entries and carry their
number as identity in every state that a run reaches.
-/

namespace Lru.Session

variable {T K V : Type} [BEq K] {s s' : Session T K V} {m m' : Member T K V} {i id : CacheId}

section Frame

/-- The session with other caches. -/
def withMembers (s : Session T K V) (members : Array (Member T K V)) : Session T K V :=
  { s with members }

variable (s) (members : Array (Member T K V))

theorem adjust_withMembers (id : StatisticsId) (adjustment : Statistics.Adjustment K) :
    (s.withMembers members).adjust id adjustment =
      ((s.adjust id adjustment).1, (s.adjust id adjustment).2.withMembers members) := by
  have hstatistics : (s.withMembers members).statistics = s.statistics := rfl
  simp only [adjust, hstatistics]
  cases s.statistics[id]? <;> rfl

theorem call_withMembers (call : Call (Observer T) K V) :
    (s.withMembers members).call call = ((s.call call).1, (s.call call).2.withMembers members) := by
  simp only [Session.call]
  cases call.observer.subject with
  | none => rfl
  | some subject =>
    obtain ⟨id, reaction⟩ := subject
    simp only [react]
    cases reaction.adjustment? call.key with
    | none => rfl
    | some adjustment =>
      simp only [adjust_withMembers]
      rfl

theorem callAll_withMembers (calls : List (Call (Observer T) K V)) :
    (s.withMembers members).callAll calls =
      ((s.callAll calls).1, (s.callAll calls).2.withMembers members) := by
  induction calls generalizing s with
  | nil => rfl
  | cons first others ih => simp only [callAll, call_withMembers, ih]

omit [BEq K] in
theorem record_withMembers (m : Member T K V) (f : Statistics K → Statistics K) :
    (s.withMembers members).record m f = (s.record m f).withMembers members := by
  unfold record
  cases m.statistics <;> rfl

theorem notify_withMembers (m : Member T K V) (notice : Notice K V) :
    (s.withMembers members).notify m notice =
      ((s.notify m notice).1, (s.notify m notice).2.withMembers members) := by
  cases notice with
  | hit key value => simp only [notify, record_withMembers, callAll_withMembers]
  | miss key => simp only [notify, record_withMembers, callAll_withMembers]
  | made key => rfl
  | trace event => rfl

theorem notifyAll_withMembers (m : Member T K V) (notices : List (Notice K V)) :
    (s.withMembers members).notifyAll m notices =
      ((s.notifyAll m notices).1, (s.notifyAll m notices).2.withMembers members) := by
  induction notices generalizing s with
  | nil => rfl
  | cons first others ih => simp only [notifyAll, notify_withMembers, ih]

theorem adjust_members (id : StatisticsId) (adjustment : Statistics.Adjustment K) :
    (s.adjust id adjustment).2.members = s.members :=
  congrArg (fun r => r.2.members) (s.adjust_withMembers s.members id adjustment)

theorem notifyAll_members (m : Member T K V) (notices : List (Notice K V)) :
    (s.notifyAll m notices).2.members = s.members :=
  congrArg (fun r => r.2.members) (s.notifyAll_withMembers s.members m notices)

theorem adjust_clocks (id : StatisticsId) (adjustment : Statistics.Adjustment K) :
    (s.adjust id adjustment).2.clocks = s.clocks := by
  unfold adjust
  cases s.statistics[id]? <;> rfl

theorem call_clocks (call : Call (Observer T) K V) : (s.call call).2.clocks = s.clocks := by
  simp only [Session.call]
  cases call.observer.subject with
  | none => rfl
  | some subject =>
    obtain ⟨id, reaction⟩ := subject
    simp only [react]
    cases reaction.adjustment? call.key with
    | none => rfl
    | some adjustment => exact s.adjust_clocks id adjustment

theorem callAll_clocks (calls : List (Call (Observer T) K V)) :
    (s.callAll calls).2.clocks = s.clocks := by
  induction calls generalizing s with
  | nil => rfl
  | cons first others ih => exact (ih (s.call first).2).trans (s.call_clocks first)

omit [BEq K] in
theorem record_clocks (m : Member T K V) (f : Statistics K → Statistics K) :
    (s.record m f).clocks = s.clocks := by
  unfold record
  cases m.statistics <;> rfl

theorem notifyAll_clocks (m : Member T K V) (notices : List (Notice K V)) :
    (s.notifyAll m notices).2.clocks = s.clocks := by
  induction notices generalizing s with
  | nil => rfl
  | cons first others ih =>
    refine (ih (s.notify m first).2).trans ?_
    cases first with
    | hit | miss => exact (callAll_clocks _ _).trans (s.record_clocks m _)
    | made | trace => rfl

variable {s}

/-- What is announced goes to the statistics and the observers attached, whatever the cache is. -/
theorem notifyAll_alike (hstatistics : m'.statistics = m.statistics)
    (hcallbacks : m'.callbacks = m.callbacks) (notices : List (Notice K V)) :
    s.notifyAll m' notices = s.notifyAll m notices := by
  induction notices generalizing s with
  | nil => rfl
  | cons first others ih =>
    have hfirst : s.notify m' first = s.notify m first := by
      cases first <;> simp only [notify, record, hstatistics, hcallbacks]
    simp only [notifyAll, hfirst, ih]

omit [BEq K] in
theorem getElem?_setMember (hm : s.members[id]? = some m) (m' : Member T K V) (i : CacheId) :
    (s.setMember id m').members[i]? = if id = i then some m' else s.members[i]? := by
  have hlt : id < s.members.size := (Array.getElem?_eq_some_iff.mp hm).1
  simp [setMember, Array.getElem?_setIfInBounds, hlt]

end Frame

/-- Each cache has the property `P` and carries its number. -/
def Each (P : Cache K V → Prop) (s : Session T K V) : Prop :=
  ∀ i m, s.members[i]? = some m → P m.cache ∧ m.cache.id = UInt64.ofNat i

/-- The caches hold entries, and each carries its number. -/
def Sound (s : Session T K V) : Prop :=
  ∀ i m, s.members[i]? = some m → m.cache.Coherent ∧ m.cache.id = UInt64.ofNat i

/-- Every cache of `s` is one of `s'`, at a generation advanced as often as `count` says. -/
def Evolves (s s' : Session T K V) (count : CacheId → Nat) : Prop :=
  ∀ i m, s.members[i]? = some m →
    ∃ m', s'.members[i]? = some m' ∧ Cache.Ages m.cache m'.cache (count i)

/-- How many structural changes of the cache `i` a request makes that gets this answer. -/
def mutations (s : Session T K V) (i : CacheId) (command : Command T K V) (answer : Answer K V) :
    Nat :=
  match command, answer, s.members[i]? with
  | .cache id request, .cache answer, some m =>
    if id = i then m.cache.mutations (s.reading m) request answer else 0
  | _, _, _ => 0

/-- How many structural changes of the cache `i` a run makes. -/
def mutationsOver (s : Session T K V) (i : CacheId) : List (Command T K V) → Nat
  | [] => 0
  | command :: commands =>
    match s.perform command with
    | .ok report =>
      s.mutations i command report.result + report.session.mutationsOver i commands
    | .error _ => 0

omit [BEq K] in
theorem evolves_of_members (h : s'.members = s.members) : s.Evolves s' fun _ => 0 :=
  fun _ m hm => ⟨m, h ▸ hm, .refl _⟩

section Each

variable {P : Cache K V → Prop}

omit [BEq K]

theorem Each.of_members (hs : s.Each P) (h : s'.members = s.members) : s'.Each P :=
  fun i m hm => hs i m (h ▸ hm)

theorem each_empty (P : Cache K V → Prop) : ({} : Session T K V).Each P :=
  fun _ _ hm => by simp at hm

theorem Each.setMember (hs : s.Each P) (hm : s.members[id]? = some m) (m' : Member T K V) {n : Nat}
    (hc : P m'.cache) (ha : Cache.Ages m.cache m'.cache n) :
    (s.setMember id m').Each P ∧
      s.Evolves (s.setMember id m') fun i => if id = i then n else 0 := by
  constructor
  · intro i m₁ hm₁
    rw [getElem?_setMember hm] at hm₁
    split at hm₁
    · next he =>
      cases hm₁
      exact ⟨hc, ha.id.trans (he ▸ (hs id m hm).2)⟩
    · exact hs i m₁ hm₁
  · intro i m₁ hm₁
    simp only [getElem?_setMember hm]
    split
    · next he =>
      subst he
      rw [hm] at hm₁
      cases hm₁
      exact ⟨m', rfl, ha⟩
    · exact ⟨m₁, hm₁, .refl _⟩

end Each

theorem Sound.of_members (hs : s.Sound) (h : s'.members = s.members) : s'.Sound :=
  Each.of_members hs h

theorem sound_empty : ({} : Session T K V).Sound :=
  each_empty Cache.Coherent

theorem Sound.setMember (hs : s.Sound) (hm : s.members[id]? = some m) (m' : Member T K V) {n : Nat}
    (hc : m'.cache.Coherent) (ha : Cache.Ages m.cache m'.cache n) :
    (s.setMember id m').Sound ∧ s.Evolves (s.setMember id m') fun i => if id = i then n else 0 :=
  Each.setMember hs hm m' hc ha

/-- A property of new caches that no request and no other recency mode takes away. -/
structure Kept (P : Cache K V → Prop) : Prop where
  start : ∀ number capacity policy mode, P (.start number capacity policy mode)
  withMode : ∀ {c : Cache K V} (mode : RecencyMode), P c → P { c with mode }
  drifting : ∀ {c : Cache K V}, P c → c.Drifting
  perform : ∀ {c : Cache K V} {now : Instant} {request : Cache.Command K V}
    {o : Outcome K V (Cache.Answer K V)}, P c → c.perform now request = .ok o → P o.cache

theorem kept_coherent [EquivBEq K] : Kept (Cache.Coherent : Cache K V → Prop) where
  start _ _ _ _ := ⟨_, _, Cache.holds_start ..⟩
  withMode _ := fun ⟨items, free, h⟩ => ⟨items, free, h.congr rfl rfl rfl⟩
  drifting h := h.drifting
  perform {c now request o} h ho := by
    obtain ⟨o', ho', hc, -⟩ := h.perform now request
    cases ho'.symm.trans ho
    exact hc

theorem kept_drifting [PartialEquivBEq K] : Kept (Cache.Drifting : Cache K V → Prop) where
  start _ _ _ _ := ⟨_, _, 0, (Cache.holds_start ..).drifts⟩
  withMode _ := fun ⟨items, free, g, h⟩ => ⟨items, free, g, h.congr rfl rfl rfl⟩
  drifting h := h
  perform h ho := h.perform ho

section Create

variable {P : Cache K V → Prop} {number : UInt64} {capacity : Nat} {pairs : List (K × V)}

theorem make_cases {origin : Origin K V} {fresh : Fresh K V}
    (hf : origin.make number = .ok (.ok fresh)) :
    (∃ capacity policy mode, fresh.cache = .start number capacity policy mode) ∨
    ∃ capacity pairs o, Cache.ofPairs number capacity pairs = .ok o ∧ fresh.cache = o.cache := by
  cases origin with
  | empty capacity policy =>
    cases hf
    exact .inl ⟨capacity, policy, _, rfl⟩
  | pairs capacity pairs =>
    obtain ⟨filled, hp, hf⟩ := Cache.exists_of_bind_eq_ok hf
    cases hf
    exact .inr ⟨capacity, pairs, filled, hp, rfl⟩
  | collected pairs =>
    obtain ⟨filled, hp, hf⟩ := Cache.exists_of_bind_eq_ok hf
    cases hf
    exact .inr ⟨_, pairs, filled, hp, rfl⟩
  | built settings timed =>
    cases hp : settings.policy timed with
    | error e => simp [Origin.make, hp, Except.map] at hf
    | ok policy =>
      simp only [Origin.make, hp, Except.map] at hf
      cases hf
      exact .inl ⟨settings.capacity, policy, settings.mode, rfl⟩

theorem Kept.make (hP : Kept P) {origin : Origin K V} {fresh : Fresh K V}
    (hf : origin.make number = .ok (.ok fresh)) : P fresh.cache ∧ fresh.cache.id = number := by
  rcases make_cases hf with ⟨capacity, policy, mode, he⟩ | ⟨capacity, pairs, o, ho, he⟩
  · rw [he]
    exact ⟨hP.start number capacity policy mode, rfl⟩
  · have hinsert : (Cache.start number capacity .capacity .onInsert).insertAll 0 pairs = .ok o := ho
    have hfilled : (Cache.start number capacity .capacity .onInsert).perform 0 (.insertAll pairs) =
        .ok (o.map Cache.Answer.count) := by
      rw [Cache.perform, hinsert]
      rfl
    rw [he]
    exact ⟨hP.perform (hP.start ..) hfilled, (Cache.insertAll_ages ho).id⟩

theorem make_sound [EquivBEq K] {origin : Origin K V} {fresh : Fresh K V}
    (hf : origin.make number = .ok (.ok fresh)) :
    fresh.cache.Coherent ∧ fresh.cache.id = number :=
  kept_coherent.make hf

/-- The statistics objects that a new cache gets. -/
def attached (s : Session T K V) (plan : Plan K V) (fresh : Fresh K V) : List StatisticsId :=
  (if fresh.ownStatistics then [s.statistics.size] else []) ++ plan.statistics.toList

/-- What a new cache is together with what is attached to it. -/
def newcomer (s : Session T K V) (plan : Plan K V) (fresh : Fresh K V) : Member T K V :=
  { cache := { fresh.cache with mode := plan.mode.getD fresh.cache.mode }
    clock := plan.clock
    statistics := (s.attached plan fresh).getLast? }

theorem createCache_of_fresh {plan : Plan K V} {fresh : Fresh K V}
    (hf : plan.origin.make (UInt64.ofNat s.members.size) = .ok (.ok fresh)) :
    s.createCache plan = .ok
      { result := .created (.ok s.members.size)
        session := { s with
          statistics :=
            if fresh.ownStatistics then s.statistics.push (.ofKeys []) else s.statistics
          members := s.members.push (s.newcomer plan fresh) }
        notices := fresh.notices ++
          (s.attached plan fresh).map fun _ => .trace .attachedStatistics } := by
  simp only [createCache, hf, bind, Except.bind, newcomer, attached]
  cases fresh.ownStatistics <;> rfl

theorem createCache_cases {plan : Plan K V} {report : Report T K V (Answer K V)}
    (hr : s.createCache plan = .ok report) :
    report.session = s ∨ ∃ fresh, plan.origin.make (UInt64.ofNat s.members.size) =
      .ok (.ok fresh) ∧ report.session.members = s.members.push (s.newcomer plan fresh) := by
  obtain ⟨made, hm, hmade⟩ := Cache.exists_of_bind_eq_ok hr
  cases made with
  | error e =>
    cases hmade
    exact .inl rfl
  | ok fresh =>
    rw [createCache_of_fresh hm] at hr
    cases hr
    exact .inr ⟨fresh, hm, rfl⟩

theorem Each.createCache (hs : s.Each P) (hP : Kept P) {plan : Plan K V}
    {report : Report T K V (Answer K V)} (hr : s.createCache plan = .ok report) :
    report.session.Each P ∧ s.Evolves report.session fun _ => 0 := by
  rcases createCache_cases hr with he | ⟨fresh, hf, he⟩
  · rw [he]
    exact ⟨hs, evolves_of_members rfl⟩
  · obtain ⟨hfresh, hid⟩ := hP.make hf
    constructor
    · intro i m' hm'
      rw [he, Array.getElem?_push] at hm'
      split at hm'
      · next hi =>
        cases hm'
        exact ⟨hP.withMode _ hfresh, hi ▸ hid⟩
      · exact hs i m' hm'
    · intro i m' hm'
      have hlt := (Array.getElem?_eq_some_iff.mp hm').1
      refine ⟨m', ?_, .refl _⟩
      rw [he, Array.getElem?_push, if_neg (Nat.ne_of_lt hlt), hm']

end Create

section Requests

variable {P : Cache K V → Prop} {request : Cache.Command K V} {command : Command T K V}
  {report : Report T K V (Answer K V)}

theorem readingFor_eq {now : Instant} (h : s.readingFor m request = .ok now) :
    now = s.reading m := by
  unfold readingFor Instant.checked at h
  split_ifs at h <;> cases h <;> rfl

/-- What the session makes of the outcome of a request to a cache. -/
def reportOf (s : Session T K V) (id : CacheId) (m : Member T K V)
    (o : Outcome K V (Cache.Answer K V)) : Report T K V (Answer K V) where
  result := .cache o.result
  session := (s.notifyAll m o.notices).2.setMember id { m with cache := o.cache }
  log := (s.notifyAll m o.notices).1
  notices := o.notices

theorem getElem?_reportOf (hm : s.members[id]? = some m) (o : Outcome K V (Cache.Answer K V)) :
    (s.reportOf id m o).session.members[id]? = some { m with cache := o.cache } := by
  have hm' : (s.notifyAll m o.notices).2.members[id]? = some m := by rwa [notifyAll_members]
  exact (getElem?_setMember hm' _ id).trans (if_pos rfl)

theorem onCache_of_member (hm : s.members[id]? = some m) :
    s.onCache id request = (s.readingFor m request).bind fun now =>
      (m.cache.perform now request).map (s.reportOf id m) := by
  simp only [onCache, hm]
  cases s.readingFor m request with
  | error e => rfl
  | ok now => cases ho : m.cache.perform now request <;> simp only [bind, Except.bind, ho] <;> rfl

theorem onCache_cases (hr : s.onCache id request = .ok report) :
    report = s.keeping .done ∨ ∃ m o, s.members[id]? = some m ∧
      m.cache.perform (s.reading m) request = .ok o ∧ report = s.reportOf id m o := by
  cases hm : s.members[id]? with
  | none =>
    simp only [onCache, hm] at hr
    cases hr
    exact .inl rfl
  | some m =>
    rw [onCache_of_member hm] at hr
    obtain ⟨now, hnow, hr⟩ := Cache.exists_of_bind_eq_ok hr
    obtain rfl := readingFor_eq hnow
    obtain ⟨o, ho, rfl⟩ := Cache.exists_of_map_eq_ok hr
    exact .inr ⟨m, o, rfl, ho, rfl⟩

omit [BEq K] in
theorem onMember_cases {f : Member T K V → Report T K V (Answer K V)}
    (hr : s.onMember id f = report)
    (hf : ∀ m, ∃ m', (f m).session = s.setMember id m' ∧ m'.cache = m.cache) :
    report.session.members = s.members ∨ ∃ m m', s.members[id]? = some m ∧
      m'.cache = m.cache ∧ report.session.members = (s.setMember id m').members := by
  rw [← hr]
  cases hm : s.members[id]? with
  | none =>
    rw [Session.onMember, hm]
    exact .inl rfl
  | some m =>
    obtain ⟨m', he, hc⟩ := hf m
    rw [Session.onMember, hm]
    exact .inr ⟨m, m', rfl, hc, congrArg Session.members he⟩

/-- All that a request can do to the caches of a session: nothing, append a new one, change what is
attached to one, or have one carry out what is sent to it. -/
theorem perform_cases (hr : s.perform command = .ok report) :
    report.session.members = s.members ∨
    (∃ plan fresh, command = .createCache plan ∧
      plan.origin.make (UInt64.ofNat s.members.size) = .ok (.ok fresh) ∧
      report.session.members = s.members.push (s.newcomer plan fresh)) ∨
    (∃ id m m', s.members[id]? = some m ∧ m'.cache = m.cache ∧
      report.session.members = (s.setMember id m').members) ∨
    ∃ id request m o, command = .cache id request ∧ s.members[id]? = some m ∧
      m.cache.perform (s.reading m) request = .ok o ∧
      report.session.members = (s.setMember id { m with cache := o.cache }).members := by
  cases command with
  | startClock | setClock id reading | createStatistics keys =>
    cases hr
    exact .inl rfl
  | advanceClock id span =>
    obtain ⟨s', hs', rfl⟩ := Cache.exists_of_map_eq_ok hr
    obtain ⟨now, -, rfl⟩ := Cache.exists_of_map_eq_ok hs'
    exact .inl rfl
  | createCache plan =>
    rcases createCache_cases hr with he | ⟨fresh, hf, he⟩
    · exact .inl (congrArg Session.members he)
    · exact .inr (.inl ⟨plan, fresh, rfl, hf, he⟩)
  | adjust id adjustment =>
    cases hr
    exact .inl (s.adjust_members id adjustment)
  | attach id statistics | detach id | register id event observer | clearCallbacks id =>
    rcases onMember_cases (Except.ok.inj hr) fun m => ⟨_, rfl, rfl⟩ with he | h
    · exact .inl he
    · exact .inr (.inr (.inl ⟨id, h⟩))
  | cache id request =>
    rcases onCache_cases hr with rfl | ⟨m, o, hm, ho, rfl⟩
    · exact .inl rfl
    · have hset : (s.reportOf id m o).session.members =
          (s.setMember id { m with cache := o.cache }).members := by
        simp only [reportOf, setMember, notifyAll_members]
      exact .inr (.inr (.inr ⟨id, request, m, o, rfl, hm, ho, hset⟩))

omit [BEq K] in
theorem Each.onMember (hs : s.Each P) {f : Member T K V → Report T K V (Answer K V)}
    (hf : ∀ m, s.members[id]? = some m → ∃ m', (f m).session.members = (s.setMember id m').members ∧
      m'.cache = m.cache) :
    (s.onMember id f).session.Each P ∧ s.Evolves (s.onMember id f).session fun _ => 0 := by
  cases hm : s.members[id]? with
  | none =>
    rw [Session.onMember, hm]
    exact ⟨hs, evolves_of_members rfl⟩
  | some m =>
    obtain ⟨m', he, hc⟩ := hf m hm
    have hset := hs.setMember hm m' (n := 0) (hc ▸ (hs id m hm).1) (hc ▸ .refl _)
    rw [Session.onMember, hm]
    constructor
    · exact hset.1.of_members he
    · intro i m₁ hm₁
      obtain ⟨m₂, hm₂, ha⟩ := hset.2 i m₁ hm₁
      exact ⟨m₂, he ▸ hm₂, by simpa using ha⟩

section Keep

variable [PartialEquivBEq K]

theorem Each.onCache (hs : s.Each P) (hP : Kept P) (hr : s.onCache id request = .ok report) :
    report.session.Each P ∧
      s.Evolves report.session fun i => s.mutations i (.cache id request) report.result := by
  rcases onCache_cases hr with rfl | ⟨m, o, hm, ho, rfl⟩
  · exact ⟨hs, evolves_of_members rfl⟩
  · have hn := s.notifyAll_members m o.notices
    have hc := (hs id m hm).1
    have hset := (hs.of_members hn).setMember (hn ▸ hm)
      { m with cache := o.cache } (hP.perform hc ho) ((hP.drifting hc).perform_ages ho)
    constructor
    · exact hset.1
    · intro i m₁ hm₁
      obtain ⟨m₂, hm₂, ha⟩ := hset.2 i m₁ (hn ▸ hm₁)
      refine ⟨m₂, hm₂, ?_⟩
      by_cases hi : id = i
      · subst hi
        simpa [mutations, hm, reportOf] using ha
      · simpa [mutations, hm₁, hi, reportOf] using ha

/-- A request keeps what is kept, and ages each cache by the structural changes it makes. -/
theorem Each.perform (hs : s.Each P) (hP : Kept P) (hr : s.perform command = .ok report) :
    report.session.Each P ∧
      s.Evolves report.session fun i => s.mutations i command report.result := by
  cases command with
  | startClock =>
    cases hr
    exact ⟨hs.of_members rfl, evolves_of_members rfl⟩
  | advanceClock id span =>
    obtain ⟨s', hs', rfl⟩ := Cache.exists_of_map_eq_ok hr
    obtain ⟨now, -, rfl⟩ := Cache.exists_of_map_eq_ok hs'
    exact ⟨hs.of_members rfl, evolves_of_members rfl⟩
  | setClock id reading =>
    cases hr
    exact ⟨hs.of_members rfl, evolves_of_members rfl⟩
  | createStatistics keys =>
    cases hr
    exact ⟨hs.of_members rfl, evolves_of_members rfl⟩
  | createCache plan => exact hs.createCache hP hr
  | adjust id adjustment =>
    cases hr
    have he := s.adjust_members id adjustment
    exact ⟨hs.of_members he, evolves_of_members he⟩
  | attach id statistics =>
    cases hr
    exact hs.onMember fun m _ => ⟨_, rfl, rfl⟩
  | detach id =>
    cases hr
    exact hs.onMember fun m _ => ⟨_, rfl, rfl⟩
  | register id event observer =>
    cases hr
    exact hs.onMember fun m _ => ⟨_, rfl, rfl⟩
  | clearCallbacks id =>
    cases hr
    exact hs.onMember fun m _ => ⟨_, rfl, rfl⟩
  | cache id request => exact hs.onCache hP hr

theorem Each.run {commands : List (Command T K V)} {reports : List (Report T K V (Answer K V))}
    (hs : s.Each P) (hP : Kept P) (hr : s.run commands = .ok (reports, s')) :
    s'.Each P ∧ s.Evolves s' fun i => s.mutationsOver i commands := by
  induction commands generalizing s reports with
  | nil =>
    cases hr
    exact ⟨hs, evolves_of_members rfl⟩
  | cons command commands ih =>
    obtain ⟨report, hfirst, hr⟩ := Cache.exists_of_bind_eq_ok hr
    obtain ⟨⟨reports', s''⟩, hrest, hr⟩ := Cache.exists_of_bind_eq_ok hr
    cases hr
    obtain ⟨hs₁, hev₁⟩ := hs.perform hP hfirst
    obtain ⟨hs₂, hev₂⟩ := ih hs₁ hrest
    constructor
    · exact hs₂
    · intro i m hm
      obtain ⟨m₁, hm₁, ha₁⟩ := hev₁ i m hm
      obtain ⟨m₂, hm₂, ha₂⟩ := hev₂ i m₁ hm₁
      refine ⟨m₂, hm₂, ?_⟩
      simp only [mutationsOver, hfirst]
      exact ha₁.trans ha₂

end Keep

variable [EquivBEq K]

theorem Sound.perform (hs : s.Sound) (hr : s.perform command = .ok report) :
    report.session.Sound ∧
      s.Evolves report.session fun i => s.mutations i command report.result :=
  Each.perform hs kept_coherent hr

theorem Sound.run {commands : List (Command T K V)} {reports : List (Report T K V (Answer K V))}
    (hs : s.Sound) (hr : s.run commands = .ok (reports, s')) :
    s'.Sound ∧ s.Evolves s' fun i => s.mutationsOver i commands :=
  Each.run hs kept_coherent hr

end Requests

end Lru.Session
