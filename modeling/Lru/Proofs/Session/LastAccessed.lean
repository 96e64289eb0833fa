import Lru.Proofs.Cache.LastAccessed
import Lru.Proofs.Session.Altered

/-! # Overwriting last accessed slots between requests

Two runs of the same requests are compared, one of which has the last accessed
slots of its caches overwritten at will between the requests. Everything that
the runs show is the same, what the audit says apart.
-/

namespace Lru

variable {T K V : Type}

/-- The member without its last accessed slot. -/
def Member.shown (m : Member T K V) : Member T K V :=
  { m with cache := m.cache.remembering none }

/-- An answer without what an audit says. -/
def Session.Answer.unaudited : Session.Answer K V → Session.Answer K V
  | .cache answer => .cache answer.unaudited
  | answer => answer

/-- The session without the last accessed slots of its caches. -/
def Session.shown (s : Session T K V) : Session T K V :=
  s.withMembers (s.members.map Member.shown)

/-- All that a step shows: the last accessed slots and what the audit says of them are left out. -/
def Report.shown (r : Report T K V (Session.Answer K V)) : Report T K V (Session.Answer K V) :=
  { r with result := r.result.unaudited, session := r.session.shown }

namespace Session

/-- What a run shows. -/
def shownRun (r : List (Report T K V (Answer K V)) × Session T K V) :
    List (Report T K V (Answer K V)) × Session T K V :=
  (r.1.map Report.shown, r.2.shown)

/-- A request, or putting whatever one likes in the last accessed slot of a cache. -/
inductive Step (T K V : Type)
  | request (command : Command T K V)
  | overwrite (id : CacheId) (memo : Option SlotId)

/-- Overwrites the last accessed slot of a cache. -/
def overwrite (s : Session T K V) (id : CacheId) (memo : Option SlotId) : Session T K V :=
  match s.members[id]? with
  | some m => s.setMember id { m with cache := m.cache.remembering memo }
  | none => s

variable [BEq K]

/-- Takes steps one after the other and collects the reports of the requests. -/
def runSteps (s : Session T K V) :
    List (Step T K V) → Except Fault (List (Report T K V (Answer K V)) × Session T K V)
  | [] => .ok ([], s)
  | .request command :: steps => do
    let report ← s.perform command
    let (reports, s) ← report.session.runSteps steps
    pure (report :: reports, s)
  | .overwrite id memo :: steps => (s.overwrite id memo).runSteps steps

/-- The requests among the steps. -/
def requests (steps : List (Step T K V)) : List (Command T K V) :=
  steps.filterMap fun
    | .request command => some command
    | .overwrite _ _ => none

variable {s : Session T K V} {m : Member T K V} {id : CacheId}

section Shown

omit [BEq K]

theorem map_eq_map_cases {ε α β γ : Type} {f : α → γ} {g : β → γ} {x : Except ε α}
    {y : Except ε β} (h : x.map f = y.map g) :
    (∃ e, x = .error e ∧ y = .error e) ∨ ∃ a b, x = .ok a ∧ y = .ok b ∧ f a = g b := by
  cases x with
  | error e =>
    cases y with
    | error e' =>
      cases h
      exact .inl ⟨e, rfl, rfl⟩
    | ok b => cases h
  | ok a =>
    cases y with
    | error e => cases h
    | ok b => exact .inr ⟨a, b, rfl, rfl, Except.ok.inj h⟩

theorem shown_shown (s : Session T K V) : s.shown.shown = s.shown := by
  simp only [shown, withMembers, Array.map_map]
  rfl

theorem setMember_shown (s : Session T K V) (id : CacheId) (m : Member T K V) :
    (s.setMember id m).shown = s.shown.setMember id m.shown := by
  simp [shown, withMembers, setMember, Array.map_setIfInBounds]

theorem getElem?_shown (s : Session T K V) (id : CacheId) :
    s.shown.members[id]? = (s.members[id]?).map Member.shown := by
  simp [shown, withMembers]

theorem setMember_self (hm : s.members[id]? = some m) : s.setMember id m = s := by
  obtain ⟨hlt, rfl⟩ := Array.getElem?_eq_some_iff.mp hm
  have he : s.members.setIfInBounds id s.members[id] = s.members := by
    rw [Array.setIfInBounds, dif_pos hlt, Array.set_getElem_self]
  rw [setMember, he]

theorem overwrite_shown (s : Session T K V) (id : CacheId) (memo : Option SlotId) :
    (s.overwrite id memo).shown = s.shown := by
  unfold overwrite
  cases hm : s.members[id]? with
  | none => rfl
  | some m =>
    have hset : s.shown.setMember id m.shown = s.shown := by
      rw [← setMember_shown, setMember_self hm]
    exact (setMember_shown s id _).trans hset

end Shown

theorem notifyAll_shown (s : Session T K V) (m : Member T K V) (notices : List (Notice K V)) :
    s.shown.notifyAll m.shown notices =
      ((s.notifyAll m notices).1, (s.notifyAll m notices).2.shown) := by
  have hm : m.shown.statistics = m.statistics ∧ m.shown.callbacks = m.callbacks := ⟨rfl, rfl⟩
  rw [notifyAll_alike hm.1 hm.2, shown, notifyAll_withMembers, shown, notifyAll_members]

section Requests

omit [BEq K] in
theorem keeping_shown (s : Session T K V) (answer : Answer K V) :
    (s.shown.keeping answer).shown = (s.keeping answer).shown := by
  simp only [keeping, Report.shown, shown_shown]

omit [BEq K] in
theorem push_shown (s : Session T K V) (statistics : Array (Statistics K)) (m : Member T K V) :
    ({ s.shown with statistics, members := s.shown.members.push m } : Session T K V).shown =
      ({ s with statistics, members := s.members.push m } : Session T K V).shown := by
  simp only [shown, withMembers, Array.map_push, Array.map_map]
  rfl

theorem createCache_shown (s : Session T K V) (plan : Plan K V) :
    (s.shown.createCache plan).map Report.shown = (s.createCache plan).map Report.shown := by
  have hsize : s.shown.members.size = s.members.size := by simp [shown, withMembers]
  cases hm : plan.origin.make (UInt64.ofNat s.members.size) with
  | error e => simp only [createCache, hsize, hm]; rfl
  | ok made =>
    cases made with
    | error e =>
      simp only [createCache, hsize, hm]
      exact congrArg Except.ok (s.keeping_shown _)
    | ok fresh =>
      rw [createCache_of_fresh hm, createCache_of_fresh (hsize.symm ▸ hm)]
      simp only [Except.map, Report.shown, push_shown, hsize]
      rfl

theorem reportOf_shown (s : Session T K V) (id : CacheId) (m : Member T K V)
    {o o' : Outcome K V (Cache.Answer K V)} (h : o'.shown = o.shown) :
    (s.shown.reportOf id m.shown o').shown = (s.reportOf id m o).shown := by
  have hnotices : o'.notices = o.notices := congrArg (·.notices) h
  have hresult : o'.result.unaudited = o.result.unaudited := congrArg (·.result) h
  have hcache : o'.cache.remembering none = o.cache.remembering none := congrArg (·.cache) h
  have hmember : ({ m.shown with cache := o'.cache } : Member T K V).shown =
      ({ m with cache := o.cache } : Member T K V).shown :=
    congrArg (fun cache => { m with cache := cache }) hcache
  simp only [reportOf, Report.shown, notifyAll_shown, hnotices, setMember_shown, shown_shown,
    hmember, Answer.unaudited, hresult]

theorem Sound.onCache_shown [PartialEquivBEq K] (hs : s.Sound) (id : CacheId)
    (request : Cache.Command K V) :
    (s.shown.onCache id request).map Report.shown = (s.onCache id request).map Report.shown := by
  cases hm : s.members[id]? with
  | none =>
    simp only [Session.onCache, getElem?_shown, hm]
    exact congrArg Except.ok (s.keeping_shown _)
  | some m =>
    have hc := (hs id m hm).1
    obtain ⟨items, free, h⟩ := hc
    have hm' : s.shown.members[id]? = some m.shown := by rw [getElem?_shown, hm]; rfl
    have hreading : s.shown.readingFor m.shown request = s.readingFor m request := by
      simp only [readingFor, Member.shown, h.readsClock_remembering]
      rfl
    rw [onCache_of_member hm, onCache_of_member hm', hreading]
    cases s.readingFor m request with
    | error e => rfl
    | ok now =>
      have hp : (m.shown.cache.perform now request).map Outcome.shown =
          (m.cache.perform now request).map Outcome.shown :=
        Cache.Coherent.perform_remembering ⟨items, free, h⟩ none now request
      rcases map_eq_map_cases hp with ⟨e, h₂, h₁⟩ | ⟨o', o, h₂, h₁, ho⟩
      · simp only [Except.bind, h₁, h₂]
        rfl
      · simp only [Except.bind, h₁, h₂]
        exact congrArg Except.ok (s.reportOf_shown id m ho)

/-- A request that neither creates a cache nor is sent to one sees no last accessed slot. -/
theorem perform_shown_of_attached (s : Session T K V) {command : Command T K V}
    (hcreate : ∀ plan, command ≠ .createCache plan)
    (hcache : ∀ id request, command ≠ .cache id request) :
    (s.shown.perform command).map Report.shown = (s.perform command).map Report.shown := by
  have hattached : LeavesAttached fun _ => (Member.shown : Member T K V → Member T K V) :=
    ⟨fun _ _ _ => rfl, fun _ _ _ => rfl⟩
  have haltered (t : Session T K V) : t.altered (fun _ => Member.shown) = t.shown :=
    congrArg t.withMembers (Array.ext_getElem? fun id => by simp)
  have hperform := hattached.perform s (fun a => a) hcreate hcache
  rw [haltered] at hperform
  rw [hperform]
  cases s.perform command with
  | error e => rfl
  | ok r =>
    simp only [Except.map, Report.shown, Report.altered, haltered, shown_shown,
      Answer.altered_id]

theorem Sound.perform_shown [PartialEquivBEq K] (hs : s.Sound) (command : Command T K V) :
    (s.shown.perform command).map Report.shown = (s.perform command).map Report.shown := by
  cases command with
  | createCache plan => exact s.createCache_shown plan
  | cache id request => exact hs.onCache_shown id request
  | _ => exact s.perform_shown_of_attached (by rintro _ ⟨⟩) (by rintro _ _ ⟨⟩)

end Requests

section Runs

theorem Sound.overwrite (hs : s.Sound) (id : CacheId) (memo : Option SlotId) :
    (s.overwrite id memo).Sound := by
  unfold Session.overwrite
  cases hm : s.members[id]? with
  | none => exact hs
  | some m =>
    obtain ⟨⟨items, free, h⟩, -⟩ := hs id m hm
    exact (hs.setMember hm _ ⟨items, free, h.remembering memo⟩ (Cache.ages_remembering _ memo)).1

variable [EquivBEq K] {d : Session T K V}

theorem Sound.runSteps {steps : List (Step T K V)}
    {reports : List (Report T K V (Answer K V))} (hs : s.Sound)
    (hr : s.runSteps steps = .ok (reports, d)) : d.Sound := by
  induction steps generalizing s reports with
  | nil =>
    cases hr
    exact hs
  | cons step steps ih =>
    cases step with
    | overwrite id memo => exact ih (hs.overwrite id memo) hr
    | request command =>
      obtain ⟨report, hfirst, hr⟩ := Cache.exists_of_bind_eq_ok hr
      obtain ⟨⟨reports', s'⟩, hrest, hr⟩ := Cache.exists_of_bind_eq_ok hr
      cases hr
      exact ih (hs.perform hfirst).1 hrest

/-- Sessions that show the same go on to show the same, and overwriting does not show. -/
theorem Sound.runSteps_shown (hs : s.Sound) (hd : d.Sound) (h : d.shown = s.shown)
    (steps : List (Step T K V)) :
    (d.runSteps steps).map shownRun = (s.run (requests steps)).map shownRun := by
  induction steps generalizing s d with
  | nil => exact congrArg (fun x => Except.ok ([], x)) h
  | cons step steps ih =>
    cases step with
    | overwrite id memo => exact ih hs (hd.overwrite id memo) ((d.overwrite_shown id memo).trans h)
    | request command =>
      have hp := hd.perform_shown command
      rw [h, hs.perform_shown command] at hp
      have hrequests : requests (.request command :: steps) = command :: requests steps := rfl
      rw [hrequests]
      simp only [Session.runSteps, Session.run]
      rcases map_eq_map_cases hp with ⟨e, hs₁, hd₁⟩ | ⟨r, r', hs₁, hd₁, hr⟩
      · rw [hs₁, hd₁]
        rfl
      have hsession : r'.session.shown = r.session.shown := congrArg (·.session) hr.symm
      have hrest := ih (hs.perform hs₁).1 (hd.perform hd₁).1 hsession
      simp only [hs₁, hd₁, bind, Except.bind]
      rcases map_eq_map_cases hrest with ⟨e, hd₂, hs₂⟩ | ⟨y, x, hd₂, hs₂, hy⟩
      · rw [hs₂, hd₂]
      · have hlist : y.1.map Report.shown = x.1.map Report.shown := congrArg Prod.fst hy
        have hlast : y.2.shown = x.2.shown := congrArg Prod.snd hy
        simp only [hs₂, hd₂, Except.map, pure, Except.pure, shownRun, List.map_cons, hr, hlist,
          hlast]

/-- The last accessed slots do not show: a run in which they are overwritten at will shows what the
run of its requests alone shows, and in its end every key has the slot that the index tells. -/
theorem overwriting_not_shown (steps : List (Step T K V)) :
    (({} : Session T K V).runSteps steps).map shownRun =
      (({} : Session T K V).run (requests steps)).map shownRun ∧
    ∀ (reports : List (Report T K V (Answer K V))) (s : Session T K V),
      ({} : Session T K V).runSteps steps = .ok (reports, s) →
      ∀ (i : CacheId) (m : Member T K V), s.members[i]? = some m →
      ∀ key, m.cache.slotOf key = m.cache.index.get? key := by
  constructor
  · exact sound_empty.runSteps_shown sound_empty rfl steps
  · intro reports s hr i m hm key
    obtain ⟨items, free, h⟩ := (sound_empty.runSteps hr i m hm).1
    exact h.slotOf_eq key

/-- The slot of the first key is taken by the second, and a slot out of range follows. -/
theorem overwriting_not_shown_recycled : EquivBEq Nat ∧
    (({} : Session Unit Nat Nat).runSteps
      [.request (.createCache { origin := .empty 1 .capacity }), .request (.cache 0 (.insert 1 10)),
        .request (.cache 0 (.insert 2 20)), .overwrite 0 (some 0),
        .request (.cache 0 (.lookup 1)), .overwrite 0 (some 9),
        .request (.cache 0 (.lookup 2))]).map shownRun =
    (({} : Session Unit Nat Nat).run
      [.createCache { origin := .empty 1 .capacity }, .cache 0 (.insert 1 10),
        .cache 0 (.insert 2 20), .cache 0 (.lookup 1), .cache 0 (.lookup 2)]).map shownRun :=
  ⟨inferInstance, (overwriting_not_shown _).1⟩

end Runs

end Session

end Lru
