import Lru.Statistics
import Lru.Proofs.KeyMap
import Mathlib.Data.List.DropRight

/-! # What statistics count

The history of a statistics object is the list of the requests that it carried
out. The totals count the accesses since the last reset. A key is monitored or
not as the history tells, and its counters count the accesses to it since its
monitoring began, or since the last reset if that came later.
-/

namespace Lru.Statistics

variable {K : Type}

namespace Command

/-- Whether a request counts a hit. -/
def isHit : Command K → Bool
  | recordHit _ => true
  | _ => false

/-- Whether a request counts a miss. -/
def isMiss : Command K → Bool
  | recordMiss _ => true
  | _ => false

def isAccess (c : Command K) : Bool :=
  c.isHit || c.isMiss

def isReset : Command K → Bool
  | adjust .reset => true
  | _ => false

variable [BEq K]

/-- Whether a request counts a hit on a key that equals `key`. -/
def hits (key : K) : Command K → Bool
  | recordHit k => key == k
  | _ => false

/-- Whether a request counts a miss on a key that equals `key`. -/
def misses (key : K) : Command K → Bool
  | recordMiss k => key == k
  | _ => false

/-- Whether a request puts `key` under monitoring, if it is not monitored already. -/
def begins (key : K) : Command K → Bool
  | adjust (.monitor k) => key == k
  | _ => false

/-- Whether a request ends the monitoring of `key`. -/
def ends (key : K) : Command K → Bool
  | adjust (.unmonitor k) => key == k
  | adjust .unmonitorAll => true
  | _ => false

end Command

/-- What came after the last reset. -/
def sinceReset (history : List (Command K)) : List (Command K) :=
  history.rtakeWhile fun c => !c.isReset

/-- What came after the moment at which `key` went from unmonitored to monitored; none while it is
not monitored. -/
def sinceMonitored [BEq K] (key : K) (history : List (Command K)) : Option (List (Command K)) :=
  history.foldl (fun since? c =>
    match since? with
    | none => if c.begins key then some [] else none
    | some since => if c.ends key then none else some (since ++ [c])) none

/-- The counters of a key that has been monitored while `since` came. -/
def keyCounts [BEq K] (key : K) (since : List (Command K)) : KeyStatistics where
  hits := (sinceReset since).countP (·.hits key)
  misses := (sinceReset since).countP (·.misses key)

/-- The counters are those that the history calls for. -/
structure Counts [BEq K] (history : List (Command K)) (s : Statistics K) : Prop where
  accesses : s.accesses = (sinceReset history).countP Command.isAccess
  hits : s.hits = (sinceReset history).countP Command.isHit
  misses : s.misses = (sinceReset history).countP Command.isMiss
  /-- A key has counters exactly while it is monitored. -/
  statsFor : ∀ key, s.statsFor key =
    match sinceMonitored key history with
    | some since => .ok (keyCounts key since)
    | none => .error .unmonitoredKey

section Histories

variable {history since : List (Command K)} {c : Command K}

theorem sinceReset_concat (history : List (Command K)) (c : Command K) :
    sinceReset (history ++ [c]) = if c.isReset then [] else sinceReset history ++ [c] := by
  rw [sinceReset, List.rtakeWhile_concat]
  cases c.isReset <;> rfl

theorem sinceReset_append {more : List (Command K)} (h : ∀ c ∈ more, c.isReset = false)
    (history : List (Command K)) : sinceReset (history ++ more) = sinceReset history ++ more := by
  induction more using List.reverseRecOn with
  | nil => rw [List.append_nil, List.append_nil]
  | append_singleton more c ih =>
    have hmore : ∀ c ∈ more, c.isReset = false := fun c hc => h c (List.mem_append_left _ hc)
    have hc : c.isReset = false := h c List.mem_concat_self
    rw [← List.append_assoc, sinceReset_concat, hc, if_neg Bool.false_ne_true, ih hmore,
      List.append_assoc]

theorem countP_sinceReset_concat (p : Command K → Bool) (hc : c.isReset = false)
    (history : List (Command K)) : (sinceReset (history ++ [c])).countP p =
      (sinceReset history).countP p + if p c then 1 else 0 := by
  rw [sinceReset_concat, hc, if_neg Bool.false_ne_true, List.countP_append, List.countP_singleton]

/-- Every access is a hit or a miss. -/
theorem countP_isAccess (history : List (Command K)) :
    history.countP Command.isAccess =
      history.countP Command.isHit + history.countP Command.isMiss := by
  induction history with
  | nil => rfl
  | cons c rest ih =>
    rw [List.countP_cons, List.countP_cons, List.countP_cons, ih]
    cases c <;> simp [Command.isAccess, Command.isHit, Command.isMiss] <;> omega

variable [BEq K]

theorem sinceMonitored_concat (key : K) (history : List (Command K)) (c : Command K) :
    sinceMonitored key (history ++ [c]) =
      match sinceMonitored key history with
      | none => if c.begins key then some [] else none
      | some since => if c.ends key then none else some (since ++ [c]) := by
  rw [sinceMonitored, List.foldl_concat]
  rfl

theorem keyCounts_concat_of_isReset (key : K) (since : List (Command K)) (hc : c.isReset = true) :
    keyCounts key (since ++ [c]) = {} := by
  simp [keyCounts, sinceReset_concat, hc]

theorem keyCounts_concat (key : K) (since : List (Command K)) (hc : c.isReset = false) :
    keyCounts key (since ++ [c]) =
      ⟨(keyCounts key since).hits + if c.hits key then 1 else 0,
        (keyCounts key since).misses + if c.misses key then 1 else 0⟩ := by
  simp only [keyCounts, countP_sinceReset_concat _ hc]

theorem run_concat (s : Statistics K) (history : List (Command K)) (c : Command K) :
    s.run (history ++ [c]) = (s.run history).perform c :=
  List.foldl_concat ..

theorem run_append (s : Statistics K) (history more : List (Command K)) :
    s.run (history ++ more) = (s.run history).run more :=
  List.foldl_append ..

theorem ofKeys_eq_run (keys : List K) :
    ofKeys keys = run {} (keys.map fun key => .adjust (.monitor key)) := by
  rw [ofKeys, run, List.foldl_map]
  rfl

end Histories

section Invariant

variable [BEq K]

/-- The counters of each monitored key, and no key is monitored twice. -/
structure Tracks (history : List (Command K)) (s : Statistics K) : Prop where
  accesses : s.accesses = (sinceReset history).countP Command.isAccess
  hits : s.hits = (sinceReset history).countP Command.isHit
  distinct : KeyMap.Distinct s.monitored.entries
  monitored : ∀ key, s.monitored.get? key = (sinceMonitored key history).map (keyCounts key)

variable {history : List (Command K)} {s : Statistics K}

theorem tracks_nil : Tracks [] ({} : Statistics K) where
  accesses := rfl
  hits := rfl
  distinct := .nil
  monitored _ := rfl

/-- A change that resets nothing leaves the totals, and begins or ends the monitoring of keys. -/
theorem Tracks.of_adjust (h : Tracks history s) {adjustment : Adjustment K} {s' : Statistics K}
    (hc : (Command.adjust adjustment).isReset = false) (haccesses : s'.accesses = s.accesses)
    (hhits : s'.hits = s.hits) (hdistinct : KeyMap.Distinct s'.monitored.entries)
    (hmonitored : ∀ key, s'.monitored.get? key =
      match s.monitored.get? key with
      | none => if (Command.adjust adjustment).begins key then some {} else none
      | some stats => if (Command.adjust adjustment).ends key then none else some stats) :
    Tracks (history ++ [.adjust adjustment]) s' where
  accesses := by
    rw [countP_sinceReset_concat _ hc, haccesses]
    exact h.accesses
  hits := by
    rw [countP_sinceReset_concat _ hc, hhits]
    exact h.hits
  distinct := hdistinct
  monitored key := by
    rw [hmonitored, h.monitored, sinceMonitored_concat]
    cases sinceMonitored key history with
    | none => cases (Command.adjust adjustment).begins key <;> rfl
    | some since =>
      have hsame : keyCounts key (since ++ [.adjust adjustment]) = keyCounts key since :=
        keyCounts_concat key since hc
      cases (Command.adjust adjustment).ends key <;> simp [hsame]

variable [EquivBEq K]

/-- A request that counts an access adds to the counters of its key if that is monitored. -/
theorem Tracks.of_record (h : Tracks history s) {c : Command K} {s' : Statistics K} {k : K}
    {f : KeyStatistics → KeyStatistics} (hc : c.isReset = false)
    (hb : ∀ key, c.begins key = false) (he : ∀ key, c.ends key = false)
    (haccesses : s'.accesses = s.accesses + if c.isAccess then 1 else 0)
    (hhits : s'.hits = s.hits + if c.isHit then 1 else 0)
    (hmonitored : s'.monitored = s.monitored.modify k f)
    (hf : ∀ key stats, (if key == k then f stats else stats) =
      ⟨stats.hits + if c.hits key then 1 else 0, stats.misses + if c.misses key then 1 else 0⟩) :
    Tracks (history ++ [c]) s' where
  accesses := by rw [countP_sinceReset_concat _ hc, ← h.accesses, haccesses]
  hits := by rw [countP_sinceReset_concat _ hc, ← h.hits, hhits]
  distinct := hmonitored ▸ h.distinct.modify f
  monitored key := by
    rw [hmonitored, KeyMap.get?_modify, h.monitored, sinceMonitored_concat]
    cases sinceMonitored key history with
    | none => simp [hb key]
    | some since =>
      have hadd := hf key (keyCounts key since)
      rw [← keyCounts_concat key since hc] at hadd
      cases hk : key == k <;> simp_all

omit [EquivBEq K] in
theorem Tracks.reset (h : Tracks history s) : Tracks (history ++ [.adjust .reset]) s.reset where
  accesses := by simp [sinceReset_concat, Command.isReset, Statistics.reset]
  hits := by simp [sinceReset_concat, Command.isReset, Statistics.reset]
  distinct := h.distinct.mapValues _
  monitored key := by
    rw [Statistics.reset, KeyMap.get?_mapValues, h.monitored, sinceMonitored_concat]
    cases sinceMonitored key history with
    | none => rfl
    | some since => exact congrArg some (keyCounts_concat_of_isReset key since rfl).symm

theorem Tracks.perform (h : Tracks history s) (c : Command K) :
    Tracks (history ++ [c]) (s.perform c) := by
  cases c with
  | adjust adjustment =>
    cases adjustment with
    | monitor key =>
      refine h.of_adjust rfl rfl rfl (h.distinct.insertIfNew key {}) fun k => ?_
      refine KeyMap.get?_insertIfNew.trans ?_
      cases s.monitored.get? k <;> rfl
    | unmonitor key =>
      refine h.of_adjust rfl rfl rfl (h.distinct.erase key) fun k => ?_
      refine (KeyMap.get?_erase h.distinct).trans ?_
      cases s.monitored.get? k with
      | none => exact ite_self none
      | some stats => rfl
    | unmonitorAll =>
      refine h.of_adjust rfl rfl rfl .nil fun k => ?_
      cases s.monitored.get? k <;> rfl
    | reset => exact h.reset
  | recordHit key =>
    refine h.of_record rfl (fun _ => rfl) (fun _ => rfl) rfl rfl rfl fun k stats => ?_
    cases hk : k == key <;> simp [Command.hits, Command.misses, hk]
  | recordMiss key =>
    refine h.of_record rfl (fun _ => rfl) (fun _ => rfl) rfl rfl rfl fun k stats => ?_
    cases hk : k == key <;> simp [Command.hits, Command.misses, hk]

theorem tracks_run (history : List (Command K)) : Tracks history (run {} history) := by
  induction history using List.reverseRecOn with
  | nil => exact tracks_nil
  | append_singleton history c ih =>
    rw [run_concat]
    exact ih.perform c

omit [EquivBEq K] in
theorem Tracks.counts (h : Tracks history s) : Counts history s where
  accesses := h.accesses
  hits := h.hits
  misses := by
    rw [Statistics.misses, h.accesses, h.hits, countP_isAccess, Nat.add_sub_cancel_left]
  statsFor key := by
    rw [Statistics.statsFor, h.monitored]
    cases sinceMonitored key history <;> rfl

/-- An object that starts with nothing counted counts what its history calls for. -/
theorem counts_run (history : List (Command K)) : Counts history (run {} history) :=
  (tracks_run history).counts

end Invariant

end Lru.Statistics
