import Lru.Proofs.Statistics
import Mathlib.Algebra.Order.BigOperators.Group.List
import Mathlib.Algebra.Order.Ring.Nat
import Mathlib.Data.Rat.Cast.Defs

/-! # Totals cover the monitored keys

A monitored key counts an access only together with the totals, and a key that
comes back starts with nothing counted. So the counters of all monitored keys
never add up to more than the totals, whatever the keys are: also where one of
them does not equal itself and is monitored several times over.
-/

namespace Lru

namespace KeyMap

variable {K V : Type} {m : KeyMap K V} {key : K} {value : V} (f : V → Nat)

/-- The sum of `f` over the values of a map. -/
def total (m : KeyMap K V) : Nat :=
  (m.entries.map fun entry => f entry.2).sum

theorem total_mapValues_eq_zero {g : V → V} (h : ∀ v, f (g v) = 0) :
    (m.mapValues g).total f = 0 := by
  rw [total, mapValues, List.map_map, List.sum_eq_zero_iff]
  intro n hn
  obtain ⟨entry, -, rfl⟩ := List.mem_map.mp hn
  exact h entry.2

variable [BEq K]

theorem total_modify_le {g : V → V} {n : Nat} (h : ∀ v, f (g v) ≤ f v + n) :
    (m.modify key g).total f ≤ m.total f + n := by
  obtain ⟨entries⟩ := m
  simp only [modify, total]
  induction entries with
  | nil => exact Nat.zero_le _
  | cons x rest ih =>
    obtain ⟨k, v⟩ := x
    cases hk : key == k with
    | true =>
      have hv := h v
      simp only [modifyFirst, hk, if_true, List.map_cons, List.sum_cons]
      omega
    | false =>
      simp only [modifyFirst, hk, Bool.false_eq_true, if_false, List.map_cons, List.sum_cons]
      omega

theorem total_insertIfNew (h : f value = 0) : (m.insertIfNew key value).total f = m.total f := by
  unfold insertIfNew
  split
  · rfl
  · simp [total, h]

theorem total_erase_le : (m.erase key).total f ≤ m.total f := by
  have hsub : (m.erase key).entries.Sublist m.entries := List.eraseP_sublist
  exact (hsub.map fun entry => f entry.2).sum_le_sum fun n _ => Nat.zero_le n

theorem le_total_of_get? (h : m.get? key = some value) : f value ≤ m.total f := by
  obtain ⟨entry, hf, rfl⟩ := Option.map_eq_some_iff.mp h
  apply List.le_sum_of_mem
  exact List.mem_map_of_mem (f := fun entry => f entry.2) (List.mem_of_find?_eq_some hf)

end KeyMap

/-- The share as an exact number. -/
def Rate.toRat (r : Rate) : ℚ :=
  r.count / r.total

namespace Statistics

variable {K : Type} {s : Statistics K}

/-- The totals are no less than what the monitored keys have counted. -/
structure Covers (s : Statistics K) : Prop where
  hits_le : s.hits ≤ s.accesses
  monitoredHits_le : s.monitored.total KeyStatistics.hits ≤ s.hits
  monitoredMisses_le : s.monitored.total KeyStatistics.misses ≤ s.misses

theorem covers_empty : Covers ({} : Statistics K) where
  hits_le := Nat.le_refl _
  monitoredHits_le := Nat.le_refl _
  monitoredMisses_le := Nat.le_refl _

theorem Covers.unmonitorAll (h : s.Covers) : s.unmonitorAll.Covers where
  hits_le := h.hits_le
  monitoredHits_le := Nat.zero_le _
  monitoredMisses_le := Nat.zero_le _

theorem covers_reset (s : Statistics K) : s.reset.Covers where
  hits_le := Nat.le_refl _
  monitoredHits_le := (KeyMap.total_mapValues_eq_zero KeyStatistics.hits fun _ => rfl).le
  monitoredMisses_le := (KeyMap.total_mapValues_eq_zero KeyStatistics.misses fun _ => rfl).le

theorem Covers.hits_add_misses (h : s.Covers) : s.hits + s.misses = s.accesses :=
  Nat.add_sub_of_le h.hits_le

section Shares

theorem rate_of_ne_zero (hne : s.accesses ≠ 0) (count : Nat) :
    s.rate count = .ok ⟨count, s.accesses⟩ :=
  if_neg hne

theorem rate_eq_error_iff (count : Nat) : s.rate count = .error .noAccesses ↔ s.accesses = 0 := by
  constructor
  · intro herror
    by_contra hne
    rw [rate_of_ne_zero hne] at herror
    cases herror
  · intro hzero
    exact if_pos hzero

theorem Covers.rates (h : s.Covers) (hne : s.accesses ≠ 0) :
    ∃ hit miss, s.hitRate = .ok hit ∧ s.missRate = .ok miss ∧
      hit.toRat = s.hits / s.accesses ∧ hit.toRat + miss.toRat = 1 := by
  refine ⟨_, _, rate_of_ne_zero hne _, rate_of_ne_zero hne _, rfl, ?_⟩
  have hsum : (s.hits : ℚ) + s.misses = s.accesses := by exact_mod_cast h.hits_add_misses
  have hpos : (s.accesses : ℚ) ≠ 0 := by exact_mod_cast hne
  rw [Rate.toRat, Rate.toRat, ← add_div, hsum, div_self hpos]

end Shares

variable [BEq K] {key : K} {stats : KeyStatistics}

section Requests

variable (h : s.Covers) (key : K)

include h

theorem Covers.monitor : (s.monitor key).Covers := by
  constructor
  · exact h.hits_le
  · exact (KeyMap.total_insertIfNew KeyStatistics.hits rfl).trans_le h.monitoredHits_le
  · exact (KeyMap.total_insertIfNew KeyStatistics.misses rfl).trans_le h.monitoredMisses_le

theorem Covers.unmonitor : (s.unmonitor key).2.Covers := by
  constructor
  · exact h.hits_le
  · exact (KeyMap.total_erase_le KeyStatistics.hits).trans h.monitoredHits_le
  · exact (KeyMap.total_erase_le KeyStatistics.misses).trans h.monitoredMisses_le

theorem Covers.recordHit : (s.recordHit key).Covers := by
  obtain ⟨hle, hhits, hmisses⟩ := h
  have hkeep : (s.recordHit key).misses = s.misses := Nat.add_sub_add_right ..
  constructor
  · exact Nat.succ_le_succ hle
  · have hadd : (s.recordHit key).monitored.total KeyStatistics.hits ≤ _ :=
      KeyMap.total_modify_le KeyStatistics.hits fun _ => Nat.le_refl _
    exact hadd.trans (Nat.succ_le_succ hhits)
  · have hsame : (s.recordHit key).monitored.total KeyStatistics.misses ≤ _ :=
      KeyMap.total_modify_le (n := 0) KeyStatistics.misses fun _ => Nat.le_refl _
    rw [hkeep]
    exact hsame.trans hmisses

theorem Covers.recordMiss : (s.recordMiss key).Covers := by
  obtain ⟨hle, hhits, hmisses⟩ := h
  have hone : (s.recordMiss key).misses = s.misses + 1 := Nat.succ_sub hle
  constructor
  · exact Nat.le_succ_of_le hle
  · have hsame : (s.recordMiss key).monitored.total KeyStatistics.hits ≤ _ :=
      KeyMap.total_modify_le (n := 0) KeyStatistics.hits fun _ => Nat.le_refl _
    exact hsame.trans hhits
  · have hadd : (s.recordMiss key).monitored.total KeyStatistics.misses ≤ _ :=
      KeyMap.total_modify_le KeyStatistics.misses fun _ => Nat.le_refl _
    rw [hone]
    exact hadd.trans (Nat.succ_le_succ hmisses)

end Requests

theorem Covers.perform (h : s.Covers) (c : Command K) : (s.perform c).Covers := by
  cases c with
  | adjust adjustment =>
    cases adjustment with
    | monitor key => exact h.monitor key
    | unmonitor key => exact h.unmonitor key
    | unmonitorAll => exact h.unmonitorAll
    | reset => exact covers_reset s
  | recordHit key => exact h.recordHit key
  | recordMiss key => exact h.recordMiss key

theorem covers_run (history : List (Command K)) : (run {} history).Covers := by
  induction history using List.reverseRecOn with
  | nil => exact covers_empty
  | append_singleton history c ih =>
    rw [run_concat]
    exact ih.perform c

section Range

theorem perform_accesses_le (s : Statistics K) (c : Command K) :
    (s.perform c).accesses ≤ s.accesses + if c.isAccess then 1 else 0 := by
  cases c with
  | adjust adjustment =>
    cases adjustment with
    | monitor | unmonitor | unmonitorAll => exact Nat.le_refl _
    | reset => exact Nat.zero_le _
  | recordHit | recordMiss => exact Nat.le_refl _

/-- A reset takes accesses away, and nothing adds one but recording it. -/
theorem run_accesses_le (history : List (Command K)) :
    (run {} history).accesses ≤ history.countP Command.isAccess := by
  induction history using List.reverseRecOn with
  | nil => exact Nat.le_refl _
  | append_singleton history c ih =>
    rw [run_concat, List.countP_append, List.countP_singleton]
    exact (perform_accesses_le _ c).trans (Nat.add_le_add_right ih _)

theorem get?_of_statsFor (hs : s.statsFor key = .ok stats) :
    s.monitored.get? key = some stats := by
  unfold statsFor at hs
  cases hget : s.monitored.get? key with
  | none =>
    rw [hget] at hs
    cases hs
  | some found =>
    rw [hget] at hs
    rw [Except.ok.inj hs]

theorem Covers.statsFor_le (h : s.Covers) (hs : s.statsFor key = .ok stats) :
    stats.hits + stats.misses ≤ s.accesses := by
  have hget := get?_of_statsFor hs
  have hhits := (KeyMap.le_total_of_get? KeyStatistics.hits hget).trans h.monitoredHits_le
  have hmisses := (KeyMap.le_total_of_get? KeyStatistics.misses hget).trans h.monitoredMisses_le
  calc stats.hits + stats.misses ≤ s.hits + s.misses := Nat.add_le_add hhits hmisses
    _ = s.accesses := h.hits_add_misses

end Range

/-- Totals, counters and shares agree, and none of them leaves its range. -/
structure Reconciled (s : Statistics K) : Prop where
  /-- The misses are what is left of the accesses without the hits. -/
  hits_le : s.hits ≤ s.accesses
  hits_add_misses : s.hits + s.misses = s.accesses
  /-- The largest counter fits in a word, so no addition has left the words. -/
  accesses_lt : s.accesses < wordLimit
  monitoredHits_le : s.monitored.total KeyStatistics.hits ≤ s.hits
  monitoredMisses_le : s.monitored.total KeyStatistics.misses ≤ s.misses
  /-- Hits and misses of a monitored key can be added, and are no more than all accesses. -/
  statsFor : ∀ key stats, s.statsFor key = .ok stats →
    stats.accesses = .ok (stats.hits + stats.misses) ∧ stats.hits + stats.misses ≤ s.accesses
  hitRate_error : s.hitRate = .error .noAccesses ↔ s.accesses = 0
  missRate_error : s.missRate = .error .noAccesses ↔ s.accesses = 0
  rates : s.accesses ≠ 0 → ∃ hit miss, s.hitRate = .ok hit ∧ s.missRate = .ok miss ∧
    hit.toRat = s.hits / s.accesses ∧ hit.toRat + miss.toRat = 1

theorem Covers.reconciled (h : s.Covers) (hlt : s.accesses < wordLimit) : s.Reconciled where
  hits_le := h.hits_le
  hits_add_misses := h.hits_add_misses
  accesses_lt := hlt
  monitoredHits_le := h.monitoredHits_le
  monitoredMisses_le := h.monitoredMisses_le
  statsFor key stats hs := by
    have hle := h.statsFor_le hs
    exact ⟨if_pos (hle.trans_lt hlt), hle⟩
  hitRate_error := rate_eq_error_iff _
  missRate_error := rate_eq_error_iff _
  rates := h.rates

/-- As long as the recorded accesses fit in a word, totals, counters and shares agree after every
history, whatever keys are monitored from the start and on the way. -/
theorem run_reconciled (keys : List K) (history : List (Command K))
    (h : history.countP Command.isAccess < wordLimit) :
    ((ofKeys keys).run history).Reconciled := by
  have hbegin : (keys.map fun key => (.adjust (.monitor key) : Command K)).countP
      Command.isAccess = 0 := by
    rw [List.countP_map, List.countP_eq_zero]
    exact fun _ _ => Bool.false_ne_true
  rw [ofKeys_eq_run, ← run_append]
  refine (covers_run _).reconciled ((run_accesses_le _).trans_lt ?_)
  rwa [List.countP_append, hbegin, Nat.zero_add]

/-- Also for a key that is monitored anew after its hits were forgotten. -/
theorem run_reconciled_anew :
    ([.recordHit 1, .adjust (.unmonitor 1), .recordMiss 1, .adjust (.monitor 1), .recordMiss 1,
      .recordHit 2] : List (Command Nat)).countP Command.isAccess < wordLimit ∧
    ((ofKeys [1]).run [.recordHit 1, .adjust (.unmonitor 1), .recordMiss 1,
      .adjust (.monitor 1), .recordMiss 1, .recordHit 2] : Statistics Nat).Reconciled := by
  have h : ([.recordHit 1, .adjust (.unmonitor 1), .recordMiss 1, .adjust (.monitor 1),
      .recordMiss 1, .recordHit 2] : List (Command Nat)).countP Command.isAccess < wordLimit := by
    decide
  exact ⟨h, run_reconciled [1] _ h⟩

end Statistics

end Lru
