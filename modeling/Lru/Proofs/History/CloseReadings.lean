import Lru.Cache.Reading
import Lru.Proofs.Cache.Untimed
import Lru.Proofs.History.Effects

/-! # Readings close together

Every stamp is a reading that was taken. While all readings taken are less than
the time to live apart, a request finds no entry expired, even if the clock goes
back: an entry stamped ahead of the clock has no age.
-/

namespace Lru

variable {K V : Type} [BEq K] [EquivBEq K] {ttl : Duration} {now : Instant} {entry : Entry K V}

/-- An entry that an operation leaves bears the reading or a stamp that was there before. -/
theorem Deed.Sound.stamp_of_mem {d : Deed K V} (h : d.Sound) (hm : entry ∈ d.after.entries) :
    entry.stamp = d.now ∨ entry.stamp ∈ d.before.entries.map Entry.stamp := by
  have effect := h.effect
  generalize d.promoted? = key? at effect
  generalize d.after.entries = after at effect hm
  cases effect with
  | kept sub =>
    have hs := sub.map Prod.snd
    rw [List.map_map, List.map_map] at hs
    exact .inr (hs.subset (List.mem_map_of_mem hm))
  | promoted key others last sub missing same stamped =>
    rcases List.mem_append.mp hm with hm | hm
    · exact .inr (List.mem_map_of_mem (sub.subset hm))
    · obtain rfl := List.mem_singleton.mp hm
      exact .inl stamped

namespace Cache

variable {c : Cache K V} {command : Command K V} {o : Outcome K V (Answer K V)}
  {readings : List Instant}

/-- So is it with a request of several parts, which all see the one reading. -/
theorem Coherent.stamp_of_mem (h : c.Coherent) (ho : c.perform now command = .ok o)
    (hm : entry ∈ o.cache.entries) :
    entry.stamp = now ∨ entry.stamp ∈ c.entries.map Entry.stamp := by
  have hnow : ∀ step ∈ singly [(now, command)], step.1 = now := by
    refine forall_mem_singly fun step hs part _ => ?_
    obtain rfl := List.mem_singleton.mp hs
    rfl
  obtain ⟨o', ho', hI, -⟩ := h.history_induction [(now, command)]
    (I := fun _ d => ∀ e ∈ d.entries, e.stamp = now ∨ e.stamp ∈ c.entries.map Entry.stamp)
    (fun e he => .inr (List.mem_map_of_mem he)) fun past d hd hstep hI e he => by
      rcases hd.stamp_of_mem he with hs | hs
      · exact .inl (hs.trans (hnow d.step hstep))
      · obtain ⟨e', he', hs⟩ := List.mem_map.mp hs
        exact hs ▸ hI e' he'
  obtain rfl := Except.ok.inj ((run_cons ho rfl).symm.trans ho')
  exact hI entry hm

/-- The readings that a request takes. -/
def taken (c : Cache K V) (now : Instant) (command : Command K V) : List Instant :=
  if c.readsClock command then [now] else []

/-- The entries have a time to live, and their stamps are among the readings. -/
structure TimedBy (ttl : Duration) (readings : List Instant) (c : Cache K V) : Prop where
  coherent : c.Coherent
  policy : c.policy = .timeToLive ttl
  stamps : c.entries.map Entry.stamp ⊆ readings

/-- Any two readings are less than `ttl` apart. -/
def Close (ttl : Duration) (readings : List Instant) : Prop :=
  ∀ earlier ∈ readings, ∀ later ∈ readings, earlier ≤ later → later - earlier < ttl

omit [BEq K] [EquivBEq K] in
theorem untimed_start (id : UInt64) (capacity : Nat) (policy : Policy) (mode : RecencyMode) :
    (start id capacity policy mode : Cache K V).untimed = start id capacity .capacity mode := by
  simp only [untimed, start, empty, RecencyList.map_empty]

theorem Close.mono {some all : List Instant} (h : Close ttl all) (hs : some ⊆ all) :
    Close ttl some :=
  fun earlier he later hl => h earlier (hs he) later (hs hl)

omit [EquivBEq K] in
theorem timedBy_start (id : UInt64) (capacity : Nat) (ttl : Duration) (mode : RecencyMode) :
    (start id capacity (.timeToLive ttl) mode : Cache K V).TimedBy ttl [] where
  coherent := ⟨_, _, holds_start ..⟩
  policy := rfl
  stamps := fun _ h => (nomatch h)

omit [EquivBEq K] in
theorem TimedBy.readsClock_eq (h : c.TimedBy ttl readings) (command : Command K V) :
    c.readsClock command = c.judgesOrStamps command := by
  rw [readsClock, h.policy]
  exact Bool.true_and _

theorem TimedBy.step (h : c.TimedBy ttl readings) (ho : c.perform now command = .ok o) :
    o.cache.TimedBy ttl (readings ++ c.taken now command) := by
  obtain ⟨o', ho', hc, -⟩ := h.coherent.perform now command
  obtain rfl := Except.ok.inj (ho'.symm.trans ho)
  refine ⟨hc, ?_, ?_⟩
  · have hrules := h.coherent.perform_rules ho
    exact (congrArg Prod.fst hrules).trans h.policy
  · intro stamp hs
    obtain ⟨entry, hm, rfl⟩ := List.mem_map.mp hs
    have hold (he : entry.stamp ∈ c.entries.map Entry.stamp) :
        entry.stamp ∈ readings ++ c.taken now command :=
      List.mem_append_left _ (h.stamps he)
    cases hr : c.readsClock command with
    | true =>
      rcases h.coherent.stamp_of_mem ho hm with hn | he
      · simp [taken, hr, hn]
      · exact hold he
    | false =>
      -- The outcome at the next reading is the same, so the stamp is none of the two readings.
      have hlater := perform_of_not_judgesOrStamps (h.readsClock_eq command ▸ hr) (now + 1) now
      rcases h.coherent.stamp_of_mem ho hm with hn | he
      · rcases h.coherent.stamp_of_mem (hlater.trans ho) hm with hn' | he
        · exact absurd (hn.symm.trans hn') (Nat.ne_of_lt (Nat.lt_succ_self now))
        · exact hold he
      · exact hold he

omit [EquivBEq K] in
/-- While the readings lie close together a request finds all entries live, be it at the reading
that it takes or, if it takes none, at some other with the same outcome. -/
theorem TimedBy.exists_allLive (h : c.TimedBy ttl readings)
    (close : Close ttl (readings ++ c.taken now command)) :
    ∃ now', c.AllLive now' ∧ c.perform now command = c.perform now' command := by
  have hstamp {id : SlotId} {entry : Entry K V} (hg : c.order.get? id = some entry) :
      entry.stamp ∈ readings ++ c.taken now command := by
    obtain ⟨items, free, hh⟩ := h.coherent
    have hm : entry ∈ c.entries := by
      rw [hh.entries_eq]
      exact List.mem_map_of_mem (hh.order.get?_eq_some_iff.mp hg)
    exact List.mem_append_left _ (h.stamps (List.mem_map_of_mem hm))
  have hpositive {id : SlotId} {entry : Entry K V} (hg : c.order.get? id = some entry) :
      0 < ttl := by
    have := close _ (hstamp hg) _ (hstamp hg) (Nat.le_refl _)
    rwa [Nat.sub_self] at this
  cases hr : c.readsClock command with
  | true =>
    refine ⟨now, fun id entry hg => ?_, rfl⟩
    rw [h.policy, Policy.isLive, Instant.since, decide_eq_true_iff]
    rcases Nat.le_total entry.stamp now with hle | hle
    · exact close _ (hstamp hg) _ (by simp [taken, hr]) hle
    · rw [Nat.sub_eq_zero_of_le hle]
      exact hpositive hg
  | false =>
    -- No stamp lies before the first instant, so every entry is live there.
    refine ⟨0, fun id entry hg => ?_, ?_⟩
    · rw [h.policy, Policy.isLive, Instant.since, decide_eq_true_iff, Nat.zero_sub]
      exact hpositive hg
    · exact perform_of_not_judgesOrStamps (h.readsClock_eq command ▸ hr) now 0

end Cache

end Lru
