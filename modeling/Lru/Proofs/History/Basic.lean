import Lru.Proofs.Cache.Generations

/-! # Histories

The history of a run lists its operations in order, each with the cache that it
was asked of and its outcome. A bulk insertion stands in it as the insertions
that it is made of. What holds at first and is kept by every operation holds
before each operation of the history and at the end of the run.
-/

namespace Lru

/-- An operation of a run: the cache that it was asked of, the reading, the request and the
outcome. -/
structure Deed (K V : Type) where
  before : Cache K V
  now : Instant
  command : Cache.Command K V
  outcome : Outcome K V (Cache.Answer K V)

/-- What was asked, and at which reading. -/
def Deed.step {K V : Type} (d : Deed K V) : Instant × Cache.Command K V :=
  (d.now, d.command)

/-- The cache that an operation leaves. -/
def Deed.after {K V : Type} (d : Deed K V) : Cache K V :=
  d.outcome.cache

namespace Cache

variable {K V : Type}

/-- The requests that a request is made of: a bulk insertion inserts its pairs one by one. -/
def Command.parts : Command K V → List (Command K V)
  | .insertAll pairs => pairs.map fun pair => .insert pair.1 pair.2
  | command => [command]

/-- The steps of a run with every request taken apart. -/
def singly (steps : List (Instant × Command K V)) : List (Instant × Command K V) :=
  steps.flatMap fun step => step.2.parts.map (step.1, ·)

variable [BEq K]

/-- The operations of a run, each with its outcome, as far as the run gets. -/
def journal (c : Cache K V) : List (Instant × Command K V) → List (Deed K V)
  | [] => []
  | (now, command) :: rest =>
    match c.perform now command with
    | .ok o => ⟨c, now, command, o⟩ :: o.cache.journal rest
    | .error _ => []

/-- The operations of a run in order, where a bulk insertion counts as its insertions. -/
def history (c : Cache K V) (steps : List (Instant × Command K V)) : List (Deed K V) :=
  c.journal (singly steps)

end Cache

/-- An operation on a cache that holds entries, with the outcome that it has there. -/
structure Deed.Sound {K V : Type} [BEq K] (d : Deed K V) : Prop where
  coherent : d.before.Coherent
  performed : d.before.perform d.now d.command = .ok d.outcome
  single : ∀ pairs, d.command ≠ .insertAll pairs

namespace Cache

variable {K V : Type} {c : Cache K V} {steps more : List (Instant × Command K V)}

theorem singly_cons (step : Instant × Command K V) (steps : List (Instant × Command K V)) :
    singly (step :: steps) = step.2.parts.map (step.1, ·) ++ singly steps :=
  List.flatMap_cons

theorem parts_of_single {command : Command K V} (h : ∀ pairs, command ≠ .insertAll pairs) :
    command.parts = [command] := by
  cases command with
  | insertAll pairs => exact absurd rfl (h pairs)
  | _ => rfl

theorem single_of_mem_parts {part command : Command K V} (h : part ∈ command.parts) :
    ∀ pairs, part ≠ .insertAll pairs := by
  rintro pairs rfl
  cases command with
  | insertAll pairs' => simp [Command.parts] at h
  | _ => simp [Command.parts] at h

theorem forall_mem_singly {P : Instant × Command K V → Prop}
    (h : ∀ step ∈ steps, ∀ part ∈ step.2.parts, P (step.1, part)) :
    ∀ step ∈ singly steps, P step := by
  intro step hs
  obtain ⟨whole, hw, hm⟩ := List.mem_flatMap.mp hs
  obtain ⟨part, hp, rfl⟩ := List.mem_map.mp hm
  exact h whole hw part hp

theorem single_of_mem_singly (steps : List (Instant × Command K V)) :
    ∀ step ∈ singly steps, ∀ pairs, step.2 ≠ .insertAll pairs :=
  forall_mem_singly fun _ _ _ hp => single_of_mem_parts hp

variable [BEq K]

section Trail

/-- The cache that a run leaves, and what it announces on the way. -/
def trail (c : Cache K V) (steps : List (Instant × Command K V)) :
    Except Fault (Cache K V × List (Notice K V)) :=
  (c.run steps).map fun o => (o.cache, o.notices)

theorem trail_cons (c : Cache K V) (now : Instant) (command : Command K V)
    (rest : List (Instant × Command K V)) : c.trail ((now, command) :: rest) =
      (c.perform now command).bind fun first =>
        (first.cache.trail rest).map fun x => (x.1, first.notices ++ x.2) := by
  cases hp : c.perform now command with
  | error e => simp [trail, run, hp, bind, Except.bind, Except.map]
  | ok first =>
    cases ho : first.cache.run rest <;>
      simp [trail, run, hp, ho, bind, Except.bind, Except.map, pure, Except.pure, Outcome.map,
        Outcome.after]

theorem trail_append (c : Cache K V) (steps more : List (Instant × Command K V)) :
    c.trail (steps ++ more) = (c.trail steps).bind fun x =>
      (x.1.trail more).map fun y => (y.1, x.2 ++ y.2) := by
  induction steps generalizing c with
  | nil =>
    change c.trail more = (c.trail more).map fun y => (y.1, [] ++ y.2)
    cases c.trail more <;> rfl
  | cons step rest ih =>
    obtain ⟨now, command⟩ := step
    rw [List.cons_append, trail_cons, trail_cons]
    cases c.perform now command with
    | error e => rfl
    | ok first =>
      simp only [Except.bind, ih]
      cases first.cache.trail rest with
      | error e => rfl
      | ok x => cases hm : x.1.trail more <;> simp [hm, Except.map]

/-- Inserting pairs one by one leaves and announces what inserting them in bulk does. -/
theorem trail_inserts (c : Cache K V) (now : Instant) (pairs : List (K × V)) :
    c.trail (pairs.map fun pair => (now, .insert pair.1 pair.2)) =
      (c.insertAll now pairs).map fun o => (o.cache, o.notices) := by
  induction pairs generalizing c with
  | nil => rfl
  | cons pair rest ih =>
    obtain ⟨key, value⟩ := pair
    rw [List.map_cons, trail_cons, perform, insertAll]
    cases c.insert now key value with
    | error e => rfl
    | ok first =>
      refine (congrArg (Except.map _) (ih first.cache)).trans ?_
      cases ho : first.cache.insertAll now rest <;>
        simp [ho, bind, Except.bind, Except.map, pure, Except.pure, Outcome.map, Outcome.after]

theorem trail_parts (c : Cache K V) (now : Instant) (command : Command K V) :
    c.trail (command.parts.map (now, ·)) =
      (c.perform now command).map fun o => (o.cache, o.notices) := by
  by_cases hs : ∃ pairs, command = .insertAll pairs
  · obtain ⟨pairs, rfl⟩ := hs
    rw [Command.parts, List.map_map, perform]
    refine (c.trail_inserts now pairs).trans ?_
    cases c.insertAll now pairs <;> rfl
  · rw [parts_of_single fun pairs hp => hs ⟨pairs, hp⟩, List.map_singleton, trail_cons]
    cases c.perform now command with
    | error e => rfl
    | ok o => simp [trail, run, Except.bind, Except.map]

/-- Requests that are taken apart leave and announce what the run does, or fail as it does. -/
theorem trail_singly (c : Cache K V) (steps : List (Instant × Command K V)) :
    c.trail (singly steps) = c.trail steps := by
  induction steps generalizing c with
  | nil => rfl
  | cons step rest ih =>
    obtain ⟨now, command⟩ := step
    rw [singly_cons, trail_append, trail_parts, trail_cons]
    cases c.perform now command with
    | error e => rfl
    | ok first => simp only [Except.bind, Except.map, ih]

theorem run_of_trail {d : Cache K V} {notices : List (Notice K V)}
    (h : c.trail steps = .ok (d, notices)) :
    ∃ o, c.run steps = .ok o ∧ o.cache = d ∧ o.notices = notices := by
  cases ho : c.run steps with
  | error e => simp [trail, ho, Except.map] at h
  | ok o =>
    simp only [trail, ho, Except.map, Except.ok.injEq, Prod.mk.injEq] at h
    exact ⟨o, rfl, h.1, h.2⟩

theorem trail_of_run {o : Outcome K V (List (Answer K V))} (h : c.run steps = .ok o) :
    c.trail steps = .ok (o.cache, o.notices) := by
  rw [trail, h]
  rfl

theorem run_singly {o : Outcome K V (List (Answer K V))} (ho : c.run steps = .ok o) :
    ∃ o', c.run (singly steps) = .ok o' ∧ o'.cache = o.cache ∧ o'.notices = o.notices :=
  run_of_trail ((c.trail_singly steps).trans (trail_of_run ho))

theorem run_of_singly {o : Outcome K V (List (Answer K V))} (ho : c.run (singly steps) = .ok o) :
    ∃ o', c.run steps = .ok o' ∧ o'.cache = o.cache := by
  obtain ⟨o', ho', hcache, -⟩ := run_of_trail ((c.trail_singly steps).symm.trans (trail_of_run ho))
  exact ⟨o', ho', hcache⟩

theorem journal_append {o : Outcome K V (List (Answer K V))} (ho : c.run steps = .ok o)
    (more : List (Instant × Command K V)) :
    c.journal (steps ++ more) = c.journal steps ++ o.cache.journal more := by
  induction steps generalizing c o with
  | nil =>
    cases ho
    rfl
  | cons step rest ih =>
    obtain ⟨now, command⟩ := step
    cases hp : c.perform now command with
    | error e => simp [run, hp, bind, Except.bind] at ho
    | ok first =>
      cases hr : first.cache.run rest with
      | error e => simp [run, hp, hr, bind, Except.bind] at ho
      | ok others =>
        obtain rfl := Except.ok.inj (ho.symm.trans (run_cons hp hr))
        simp only [List.cons_append, journal, hp, ih hr]
        rfl

theorem history_append {o : Outcome K V (List (Answer K V))} (ho : c.run steps = .ok o)
    (more : List (Instant × Command K V)) :
    c.history (steps ++ more) = c.history steps ++ o.cache.history more := by
  obtain ⟨o', ho', hcache, -⟩ := run_singly ho
  have happ : singly (steps ++ more) = singly steps ++ singly more := List.flatMap_append
  rw [history, happ, journal_append ho', hcache]
  rfl

end Trail

theorem coherent_start (id : UInt64) (capacity : Nat) (policy : Policy) (mode : RecencyMode) :
    (start id capacity policy mode : Cache K V).Coherent :=
  ⟨_, _, holds_start ..⟩

variable [EquivBEq K]

theorem Coherent.of_run (h : c.Coherent) {o : Outcome K V (List (Answer K V))}
    (ho : c.run steps = .ok o) : o.cache.Coherent := by
  obtain ⟨o', ho', hc, -⟩ := h.run steps
  obtain rfl : o = o' := Except.ok.inj (ho.symm.trans ho')
  exact hc

theorem Coherent.map_step_journal (h : c.Coherent) (steps : List (Instant × Command K V)) :
    (c.journal steps).map Deed.step = steps := by
  induction steps generalizing c with
  | nil => rfl
  | cons step rest ih =>
    obtain ⟨now, command⟩ := step
    obtain ⟨o, ho, hc, -⟩ := h.perform now command
    simp only [journal, ho, List.map_cons, ih hc]
    rfl

/-- A history has every request of its run. -/
theorem Coherent.map_step_history (h : c.Coherent) (steps : List (Instant × Command K V)) :
    (c.history steps).map Deed.step = singly steps :=
  h.map_step_journal (singly steps)

section Induction

variable {I : List (Deed K V) → Cache K V → Prop}

theorem Coherent.journal_induction (h : c.Coherent) {past : List (Deed K V)} (first : I past c)
    (single : ∀ step ∈ steps, ∀ pairs, step.2 ≠ .insertAll pairs)
    (next : ∀ past d, d.Sound → d.step ∈ steps → I past d.before → I (past ++ [d]) d.after) :
    ∃ o, c.run steps = .ok o ∧ I (past ++ c.journal steps) o.cache ∧
      ∀ behind d ahead, c.journal steps = behind ++ d :: ahead →
        d.Sound ∧ d.step ∈ steps ∧ I (past ++ behind) d.before := by
  induction steps generalizing c past with
  | nil =>
    refine ⟨_, rfl, by simpa [journal] using first, fun behind d ahead hj => ?_⟩
    simp [journal] at hj
  | cons step rest ih =>
    obtain ⟨now, command⟩ := step
    obtain ⟨o, ho, hc, -⟩ := h.perform now command
    have sound : Deed.Sound ⟨c, now, command, o⟩ :=
      ⟨h, ho, single (now, command) List.mem_cons_self⟩
    have hj : c.journal ((now, command) :: rest) =
        ⟨c, now, command, o⟩ :: o.cache.journal rest := by
      simp only [journal, ho]
    obtain ⟨others, hothers, hI, hsplit⟩ := ih hc
      (next past ⟨c, now, command, o⟩ sound List.mem_cons_self first)
      (fun step hs => single step (List.mem_cons_of_mem _ hs))
      fun past d hd hm => next past d hd (List.mem_cons_of_mem _ hm)
    rw [List.append_assoc, List.singleton_append, ← hj] at hI
    refine ⟨_, run_cons ho hothers, hI, fun behind d ahead hd => ?_⟩
    rw [hj] at hd
    cases behind with
    | nil =>
      obtain ⟨rfl, -⟩ := List.cons.inj hd
      exact ⟨sound, List.mem_cons_self, by simpa using first⟩
    | cons b behind =>
      obtain ⟨rfl, htail⟩ := List.cons.inj hd
      obtain ⟨hsound, hm, hI'⟩ := hsplit behind d ahead htail
      exact ⟨hsound, List.mem_cons_of_mem _ hm, by simpa using hI'⟩

/-- What holds at first and is kept by every operation holds at the end of a run, and in front of
every operation of its history. -/
theorem Coherent.history_induction (h : c.Coherent)
    (steps : List (Instant × Command K V)) (first : I [] c)
    (next : ∀ past d, d.Sound → d.step ∈ singly steps → I past d.before →
      I (past ++ [d]) d.after) :
    ∃ o, c.run steps = .ok o ∧ I (c.history steps) o.cache ∧
      ∀ past d future, c.history steps = past ++ d :: future →
        d.Sound ∧ d.step ∈ singly steps ∧ I past d.before := by
  obtain ⟨o, ho, hI, hsplit⟩ := h.journal_induction first (single_of_mem_singly steps) next
  obtain ⟨o', ho', hcache⟩ := run_of_singly ho
  exact ⟨o', ho', hcache ▸ hI, hsplit⟩

end Induction

end Cache

theorem Deed.Sound.coherent_after {K V : Type} [BEq K] [EquivBEq K] {d : Deed K V} (h : d.Sound) :
    d.after.Coherent := by
  obtain ⟨o, ho, hc, -⟩ := Cache.Coherent.perform h.coherent d.now d.command
  obtain rfl : o = d.outcome := Except.ok.inj (ho.symm.trans h.performed)
  exact hc

end Lru
