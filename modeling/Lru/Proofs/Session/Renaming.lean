import Lru.Proofs.Cache.Renaming
import Lru.Proofs.Session.Altered

/-! # Sessions under other identities

Give the caches of a session other identities. Then requests in which handles
are named accordingly are answered accordingly, step by step, with the same
logs, announcements and statistics. Only a new cache, whose identity is its
number in the session, has to get the identity that it would have got.
-/

namespace Lru

variable {T K V : Type} (ρ : Renaming)

def Member.renamed (m : Member T K V) : Member T K V :=
  { m with cache := m.cache.renamed ρ }

/-- The session in which every cache has another identity. -/
def Session.renamed (s : Session T K V) : Session T K V :=
  s.altered fun _ => Member.renamed ρ

def Session.Command.renamed : Session.Command T K V → Session.Command T K V
  | .cache id request => .cache id (request.renamed ρ)
  | command => command

def Report.renamed (r : Report T K V (Session.Answer K V)) : Report T K V (Session.Answer K V) :=
  r.altered (fun _ => Member.renamed ρ) (Cache.Answer.renamed ρ)

namespace Session

/-- Whether a request may add a cache to the session. -/
def Command.creates : Command T K V → Bool
  | .createCache _ => true
  | _ => false

theorem leavesAttached_renamed :
    LeavesAttached fun _ => (Member.renamed ρ : Member T K V → Member T K V) where
  withStatistics _ _ _ := rfl
  withCallbacks _ _ _ := rfl

variable [BEq K] (s : Session T K V)

section Requests

theorem make_renamed {number : UInt64} (hfix : ρ.Fixes number) {origin : Origin K V}
    {fresh : Fresh K V} (hf : origin.make number = .ok (.ok fresh)) :
    fresh.cache.renamed ρ = fresh.cache := by
  rcases make_cases hf with ⟨capacity, policy, mode, he⟩ | ⟨capacity, pairs, o, ho, he⟩
  · rw [he]
    exact Cache.renamed_of_fixes ρ hfix
  · have hinsert := (Cache.empty number capacity .capacity).insertAll_renamed ρ 0 pairs
    have hempty : (Cache.empty number capacity .capacity : Cache K V).renamed ρ = _ :=
      Cache.renamed_of_fixes ρ hfix
    have hfilled : (Cache.empty number capacity .capacity).insertAll 0 pairs = .ok o := ho
    rw [hempty, hfilled] at hinsert
    rw [he]
    exact (congrArg Outcome.cache (Except.ok.inj hinsert)).symm

theorem newcomer_renamed {plan : Plan K V} {fresh : Fresh K V}
    (hfix : ρ.Fixes (UInt64.ofNat s.members.size))
    (hf : plan.origin.make (UInt64.ofNat s.members.size) = .ok (.ok fresh)) :
    (s.newcomer plan fresh).renamed ρ = s.newcomer plan fresh :=
  congrArg (fun c : Cache K V => ({ s.newcomer plan fresh with
    cache := { c with mode := plan.mode.getD fresh.cache.mode } } : Member T K V))
    (make_renamed ρ hfix hf)

theorem onCache_renamed (id : CacheId) (request : Cache.Command K V) :
    (s.renamed ρ).onCache id (request.renamed ρ) =
      (s.onCache id request).map (Report.renamed ρ) := by
  have hget : (s.renamed ρ).members[id]? = (s.members[id]?).map (Member.renamed ρ) :=
    s.getElem?_altered _ id
  cases hm : s.members[id]? with
  | none =>
    simp only [onCache, hget, hm]
    rfl
  | some m =>
    rw [hm, Option.map_some] at hget
    have hreads : (m.renamed ρ).cache.readsClock (request.renamed ρ) =
        m.cache.readsClock request := m.cache.readsClock_renamed ρ request
    have hreading : (s.renamed ρ).readingFor (m.renamed ρ) (request.renamed ρ) =
        s.readingFor m request := by
      simp only [readingFor, hreads]
      rfl
    have hperform (now : Instant) : (m.renamed ρ).cache.perform now (request.renamed ρ) = _ :=
      m.cache.perform_renamed ρ now request
    rw [onCache_of_member hm, onCache_of_member hget, hreading]
    cases s.readingFor m request with
    | error e => rfl
    | ok now =>
      simp only [Except.bind, hperform]
      cases m.cache.perform now request with
      | error e => rfl
      | ok o =>
        exact congrArg Except.ok
          ((leavesAttached_renamed ρ).reportOf s (Cache.Answer.renamed ρ) id m rfl rfl rfl)

/-- A request is carried out in the same way under other identities. -/
theorem perform_renamed (command : Command T K V)
    (hfix : command.creates = true → ρ.Fixes (UInt64.ofNat s.members.size)) :
    (s.renamed ρ).perform (command.renamed ρ) = (s.perform command).map (Report.renamed ρ) := by
  cases command with
  | createCache plan =>
    exact s.createCache_altered _ (Cache.Answer.renamed ρ) fun fresh hf =>
      s.newcomer_renamed ρ (hfix rfl) hf
  | cache id request => exact s.onCache_renamed ρ id request
  | _ =>
    exact (leavesAttached_renamed ρ).perform s (Cache.Answer.renamed ρ) (by rintro _ ⟨⟩)
      (by rintro _ _ ⟨⟩)

end Requests

section Runs

variable {s} {command : Command T K V} {commands : List (Command T K V)} {n : Nat}

/-- The numbers of the caches that a run may create. -/
def Numbers (s : Session T K V) (commands : List (Command T K V)) (n : Nat) : Prop :=
  s.members.size ≤ n ∧ n < s.members.size + commands.countP Command.creates

omit [BEq K] in
theorem numbers_of_creates (h : command.creates = true) :
    s.Numbers (command :: commands) s.members.size := by
  rw [Numbers, List.countP_cons_of_pos h]
  omega

theorem Numbers.of_perform {report : Report T K V (Answer K V)}
    (hn : report.session.Numbers commands n) (hr : s.perform command = .ok report) :
    s.Numbers (command :: commands) n := by
  obtain ⟨hlow, hhigh⟩ := hn
  rw [Numbers, List.countP_cons]
  rcases perform_cases hr with he | ⟨plan, fresh, rfl, -, he⟩ | ⟨id, m, m', -, -, he⟩ |
    ⟨id, request, m, o, rfl, -, -, he⟩
  · rw [he] at hlow hhigh
    omega
  · rw [he, Array.size_push] at hlow hhigh
    simp only [Command.creates, if_true]
    omega
  · rw [he, setMember, Array.size_setIfInBounds] at hlow hhigh
    omega
  · rw [he, setMember, Array.size_setIfInBounds] at hlow hhigh
    omega

/-- A run goes in the same way under other identities, if the caches that it creates keep theirs. -/
theorem run_renamed (hfix : ∀ n, s.Numbers commands n → ρ.Fixes (UInt64.ofNat n)) :
    (s.renamed ρ).run (commands.map (Command.renamed ρ)) =
      (s.run commands).map fun (reports, s) => (reports.map (Report.renamed ρ), s.renamed ρ) := by
  induction commands generalizing s with
  | nil => rfl
  | cons command commands ih =>
    have hfirst := s.perform_renamed ρ command fun h => hfix _ (numbers_of_creates h)
    simp only [List.map_cons, run, hfirst]
    cases hr : s.perform command with
    | error e => rfl
    | ok report =>
      have hrest : (report.renamed ρ).session.run (commands.map (Command.renamed ρ)) = _ :=
        ih fun n hn => hfix n (hn.of_perform hr)
      simp only [Except.map, bind, Except.bind, hrest]
      cases report.session.run commands <;> rfl

end Runs

end Session

end Lru
