import Lru.Proofs.Neighbours
import Mathlib.Data.List.Induction
import Mathlib.Logic.Function.Basic
import Mathlib.Order.Bounds.Basic

/-! # An arena is a partial map with a stack

To its callers an arena is a map from some slots to values, and a stack of the
slots that were vacated and not taken again. A new value takes the slot on top
of the stack, or the first one that was never taken, so there are as many slots
as values were ever stored at once.
-/

namespace Lru

/-- A map from slots to values, with the slots that were vacated and not taken again. -/
structure SlotMap (α : Type) where
  content : SlotId → Option α := fun _ => none
  /-- The slot vacated last comes first. -/
  vacated : List SlotId := []
  /-- The first slot that was never taken. -/
  unused : SlotId := 0

namespace SlotMap

open Arena (Answer Command)

variable {α : Type}

/-- Carries out one request. -/
def perform (m : SlotMap α) : Command α → Answer α × SlotMap α
  | .insert value =>
    match m.vacated with
    | id :: rest =>
      (.slot id, { m with
        content := Function.update m.content id (some value)
        vacated := rest })
    | [] =>
      (.slot m.unused, { m with
        content := Function.update m.content m.unused (some value)
        unused := m.unused + 1 })
  | .remove id =>
    match m.content id with
    | some value =>
      (.value (some value), { m with
        content := Function.update m.content id none
        vacated := id :: m.vacated })
    | none => (.value none, m)
  | .set id value =>
    (.value (m.content id), { m with
      content := Function.update m.content id ((m.content id).map fun _ => value) })
  | .clear => (.done, {})

/-- Carries out requests one after the other. -/
def run (m : SlotMap α) (commands : List (Command α)) : SlotMap α :=
  commands.foldl (fun m command => (m.perform command).2) m

theorem run_concat (m : SlotMap α) (history : List (Command α)) (c : Command α) :
    m.run (history ++ [c]) = ((m.run history).perform c).2 :=
  List.foldl_concat ..

end SlotMap

namespace Arena

variable {α : Type} {a : Arena α} {id : SlotId} {value : α} {free : List SlotId}

section Definitions

/-- What callers see of an arena whose chain of vacant slots is `free`. -/
def view (a : Arena α) (free : List SlotId) : SlotMap α where
  content := a.get?
  vacated := free
  unused := a.slotCount

/-- What callers read off an arena is what the map tells, and the vacant slots are chained in the
order of its stack. -/
structure Reflects (a : Arena α) (m : SlotMap α) : Prop where
  /-- The chain from the free head passes the stack from top to bottom and ends there. -/
  chain : Chain a.vacantLink a.freeHead m.vacated
  nodup : m.vacated.Nodup
  mem_vacated : ∀ id, id ∈ m.vacated ↔ id < a.slotCount ∧ a.contains id = false
  slotCount : a.slotCount = m.unused
  get? : ∀ id, a.get? id = m.content id
  contains : ∀ id, a.contains id = (m.content id).isSome
  /-- The entries are those of the map, by slot number. -/
  mem_entries : ∀ id value, (id, value) ∈ a.entries ↔ m.content id = some value
  sorted : a.entries.Pairwise fun x y => x.1 < y.1
  /-- The length is the number of occupied slots. -/
  len : a.len = a.entries.length
  len_add : a.len + m.vacated.length = a.slotCount
  firstFrom : ∀ start id, a.firstFrom start = some id ↔
    IsLeast {j | start ≤ j ∧ (m.content j).isSome} id
  firstFrom_none : ∀ start, a.firstFrom start = none ↔ ∀ j, start ≤ j → m.content j = none

/-- The slot that a request is about. -/
def slotOf (a : Arena α) : Command α → Option SlotId
  | .insert value => some (a.insert value).1
  | .remove id => some id
  | .set id _ => some id
  | .clear => none

/-- A request finds the slot that it needs, and touches no other. -/
structure Spares (a : Arena α) : Prop where
  /-- The slot on top of the stack is there to be taken and holds nothing. -/
  freeHead : ∀ id, a.freeHead = some id → id < a.slotCount ∧ a.contains id = false
  insert : ∀ value, a.contains (a.insert value).1 = false
  /-- Where there is a value to remove, at least one is counted. -/
  len_pos : ∀ id, a.contains id = true → 0 < a.len
  /-- Nothing changes for a slot that holds nothing. -/
  remove : ∀ id, a.contains id = false → a.perform (.remove id) = (.value none, a)
  set : ∀ id value, a.contains id = false → a.perform (.set id value) = (.value none, a)
  others : ∀ c id, c ≠ .clear → a.slotOf c ≠ some id → (a.perform c).2.get? id = a.get? id

/-- How many values were stored in each state since the arena was new or last cleared. -/
def lens (history : List (Command α)) : Set Nat :=
  {n | ∃ before after, before ++ after = history ∧ Command.clear ∉ after ∧
    (run {} before).len = n}

end Definitions

section Steps

theorem Vacates.update_insert (h : a.Vacates free) (value : α) :
    Function.update a.get? (a.insert value).1 (some value) = (a.insert value).2.get? := by
  funext j
  rw [h.get?_insert, Function.update_apply]
  exact ite_congr (propext eq_comm) (fun _ => rfl) fun _ => rfl

theorem update_vacate (a : Arena α) (id : SlotId) :
    Function.update a.get? id none = (a.vacate id).get? := by
  funext j
  rw [get?_vacate, Function.update_apply]
  exact ite_congr (propext eq_comm) (fun _ => rfl) fun _ => rfl

theorem update_modify (a : Arena α) (id : SlotId) (f : α → α) :
    Function.update a.get? id ((a.get? id).map f) = (a.modify id f).get? := by
  funext j
  rw [get?_modify, Function.update_apply]
  by_cases he : j = id
  · rw [if_pos he, if_pos he.symm, he]
  · rw [if_neg he, if_neg (Ne.symm he)]

theorem Vacates.view_insert (h : a.Vacates free) (value : α) :
    (a.view free).perform (.insert value) =
      (.slot (a.insert value).1, (a.insert value).2.view free.tail) := by
  have hupdate := h.update_insert value
  have hcount := h.slotCount_insert value
  rw [h.insert_fst] at hupdate ⊢
  cases free with
  | nil =>
    rw [List.headD_nil, Nat.max_eq_right (Nat.le_succ _)] at hcount
    simp only [SlotMap.perform, view, hcount, ← hupdate, List.headD_nil, List.tail_nil]
  | cons id rest =>
    have hlt : id < a.slotCount := ((h.mem_iff id).mp List.mem_cons_self).1
    rw [List.headD_cons, Nat.max_eq_left hlt] at hcount
    simp only [SlotMap.perform, view, hcount, ← hupdate, List.headD_cons, List.tail_cons]

theorem Vacates.perform (h : a.Vacates free) (c : Command α) :
    ∃ free', (a.perform c).2.Vacates free' ∧
      (a.view free).perform c = ((a.perform c).1, (a.perform c).2.view free') := by
  cases c with
  | insert value => exact ⟨_, h.insert value, h.view_insert value⟩
  | remove id =>
    cases hv : a.get? id with
    | none =>
      refine ⟨free, ?_, ?_⟩
      · simpa only [Arena.perform, remove?_eq_none hv] using h
      · simp only [Arena.perform, remove?_eq_none hv, SlotMap.perform, view, hv]
    | some value =>
      refine ⟨id :: free, ?_, ?_⟩
      · simpa only [Arena.perform, remove?_eq_some hv] using h.vacate hv
      · simp only [Arena.perform, remove?_eq_some hv, SlotMap.perform, view, hv, update_vacate,
          vacate_slotCount]
  | set id value =>
    refine ⟨free, h.modify _, ?_⟩
    simp only [Arena.perform, SlotMap.perform, view, update_modify, modify_slotCount]
  | clear => exact ⟨[], vacates_empty, rfl⟩

end Steps

section Reads

theorem Vacates.length_entries (h : a.Vacates free) : a.entries.length = a.len := by
  have hnodup : (a.entries.map Prod.fst).Nodup :=
    List.pairwise_map.mpr (a.entries_sorted.imp Nat.ne_of_lt)
  have hlen := h.length_add hnodup fun id => contains_iff_mem_entries.symm
  rw [List.length_map, ← h.len_add] at hlen
  exact Nat.add_right_cancel hlen

theorem lt_scanned_of_get? (hv : a.get? id = some value) (start : SlotId) :
    id < start + (a.slots.size - start) := by
  have hlt : id < a.slots.size := lt_slotCount_of_get? hv
  exact hlt.trans_le (Nat.sub_le_iff_le_add'.mp (Nat.le_refl _))

theorem firstFrom_eq_some_iff (a : Arena α) (start id : SlotId) :
    a.firstFrom start = some id ↔ IsLeast {j | start ≤ j ∧ (a.get? j).isSome} id := by
  rw [firstFrom, List.find?_range'_eq_some]
  constructor
  · rintro ⟨hc, hid, hbefore⟩
    refine ⟨⟨(List.mem_range'_1.mp hid).1, hc⟩, ?_⟩
    rintro j ⟨hj, hcj⟩
    by_contra hlt
    have hnone := hbefore j hj (Nat.lt_of_not_le hlt)
    rw [contains, hcj] at hnone
    cases hnone
  · rintro ⟨⟨hid, hc⟩, hleast⟩
    obtain ⟨value, hv⟩ := Option.isSome_iff_exists.mp hc
    refine ⟨hc, List.mem_range'_1.mpr ⟨hid, lt_scanned_of_get? hv start⟩, ?_⟩
    intro j hj hjid
    rw [Bool.not_eq_true', Bool.eq_false_iff]
    intro hcj
    exact absurd (hleast ⟨hj, hcj⟩) (Nat.not_le.mpr hjid)

theorem firstFrom_eq_none_iff (a : Arena α) (start : SlotId) :
    a.firstFrom start = none ↔ ∀ j, start ≤ j → a.get? j = none := by
  rw [firstFrom, List.find?_range'_eq_none]
  constructor
  · intro hscan j hj
    by_contra hne
    obtain ⟨value, hv⟩ := Option.ne_none_iff_exists'.mp hne
    have hc := hscan j hj (lt_scanned_of_get? hv start)
    rw [Bool.not_eq_true', contains_eq_false_iff] at hc
    exact hne hc
  · intro hnone j hj _
    rw [Bool.not_eq_true', contains_eq_false_iff]
    exact hnone j hj

end Reads

section Peak

theorem run_concat (a : Arena α) (history : List (Command α)) (c : Command α) :
    a.run (history ++ [c]) = ((a.run history).perform c).2 :=
  List.foldl_concat ..

theorem run_len_mem_lens (history : List (Command α)) : (run {} history).len ∈ lens history :=
  ⟨history, [], List.append_nil history, List.not_mem_nil, rfl⟩

/-- A state before the last request is one of the history before it, which no clearing has ended. -/
theorem mem_lens_concat {n : Nat} {c : Command α} {history : List (Command α)} :
    n ∈ lens (history ++ [c]) ↔
      n = (run {} (history ++ [c])).len ∨ c ≠ .clear ∧ n ∈ lens history := by
  constructor
  · rintro ⟨before, after, he, hclear, rfl⟩
    cases after using List.reverseRecOn with
    | nil =>
      rw [List.append_nil] at he
      exact .inl (he ▸ rfl)
    | append_singleton after d =>
      rw [← List.append_assoc] at he
      obtain ⟨hbefore, hd⟩ := List.append_inj' he rfl
      obtain rfl := List.singleton_inj.mp hd
      rw [List.mem_append, List.mem_singleton, not_or] at hclear
      exact .inr ⟨Ne.symm hclear.2, before, after, hbefore, hclear.1, rfl⟩
  · rintro (rfl | ⟨hc, before, after, rfl, hclear, rfl⟩)
    · exact run_len_mem_lens _
    · refine ⟨before, after ++ [c], (List.append_assoc ..).symm, ?_, rfl⟩
      rw [List.mem_append, List.mem_singleton, not_or]
      exact ⟨hclear, hc.symm⟩

/-- A value gets a new slot only where none is vacant, and then all slots are occupied. -/
theorem Vacates.slotCount_perform (h : a.Vacates free) {c : Command α} (hc : c ≠ .clear) :
    (a.perform c).2.slotCount = max a.slotCount (a.perform c).2.len := by
  obtain ⟨free', h', -⟩ := h.perform c
  have hlen : (a.perform c).2.len ≤ (a.perform c).2.slotCount := h'.len_add ▸ Nat.le_add_right ..
  cases c with
  | insert value =>
    have hcount : (a.perform (.insert value)).2.slotCount = _ := h.slotCount_insert value
    have hadd : (a.perform (.insert value)).2.len + _ = _ := (h.insert value).len_add
    cases free with
    | nil =>
      rw [List.tail_nil, List.length_nil, Nat.add_zero] at hadd
      rw [hadd]
      exact (Nat.max_eq_right (hcount ▸ Nat.le_max_left ..)).symm
    | cons id rest =>
      have hlt : id < a.slotCount := ((h.mem_iff id).mp List.mem_cons_self).1
      rw [List.headD_cons, Nat.max_eq_left hlt] at hcount
      rw [hcount] at hlen ⊢
      exact (Nat.max_eq_left hlen).symm
  | remove id =>
    have hsame : (a.perform (.remove id)).2.slotCount = a.slotCount := by
      cases hv : a.get? id with
      | none => rw [Arena.perform, remove?_eq_none hv]
      | some value => rw [Arena.perform, remove?_eq_some hv, vacate_slotCount]
    rw [hsame] at hlen ⊢
    exact (Nat.max_eq_left hlen).symm
  | set id value =>
    have hsame : (a.perform (.set id value)).2.slotCount = a.slotCount := modify_slotCount a _
    rw [hsame] at hlen ⊢
    exact (Nat.max_eq_left hlen).symm
  | clear => exact absurd rfl hc

end Peak

section Runs

theorem exists_view_run (history : List (Command α)) :
    ∃ free, (run {} history).Vacates free ∧ SlotMap.run {} history = (run {} history).view free := by
  induction history using List.reverseRecOn with
  | nil => exact ⟨[], vacates_empty, rfl⟩
  | append_singleton history c ih =>
    obtain ⟨free, h, hview⟩ := ih
    obtain ⟨free', h', hstep⟩ := h.perform c
    refine ⟨free', run_concat {} history c ▸ h', ?_⟩
    rw [SlotMap.run_concat, hview, hstep, run_concat]

/-- There are as many slots as values were stored at once. -/
theorem isGreatest_lens (history : List (Command α)) :
    IsGreatest (lens history) (run {} history).slotCount := by
  induction history using List.reverseRecOn with
  | nil =>
    refine ⟨run_len_mem_lens [], ?_⟩
    rintro n ⟨before, after, he, -, rfl⟩
    rw [(List.append_eq_nil_iff.mp he).1]
    exact Nat.zero_le _
  | append_singleton history c ih =>
    by_cases hc : c = .clear
    · -- Of the states up to a clearing only the one that it leads to counts.
      subst hc
      have hempty : run {} (history ++ [.clear]) = ({} : Arena α) := run_concat {} history .clear
      rw [hempty]
      constructor
      · have hlast := run_len_mem_lens (history ++ [.clear])
        rwa [hempty] at hlast
      · intro n hn
        rcases mem_lens_concat.mp hn with rfl | ⟨hne, -⟩
        · rw [hempty]
          exact Nat.le_refl _
        · exact absurd rfl hne
    · obtain ⟨free, h, -⟩ := exists_view_run history
      have hcount := h.slotCount_perform hc
      rw [← run_concat] at hcount
      rw [hcount]
      constructor
      · rcases Nat.le_total (run {} history).slotCount (run {} (history ++ [c])).len with hle | hle
        · rw [Nat.max_eq_right hle]
          exact run_len_mem_lens _
        · rw [Nat.max_eq_left hle]
          exact mem_lens_concat.mpr (.inr ⟨hc, ih.1⟩)
      · intro n hn
        rcases mem_lens_concat.mp hn with rfl | ⟨-, hn⟩
        · exact Nat.le_max_right ..
        · exact (ih.2 hn).trans (Nat.le_max_left ..)

end Runs

theorem Vacates.reflects (h : a.Vacates free) : a.Reflects (a.view free) where
  chain := h.chain
  nodup := h.nodup
  mem_vacated id := by
    rw [contains_eq_false_iff]
    exact h.mem_iff id
  slotCount := rfl
  get? _ := rfl
  contains _ := rfl
  mem_entries _ _ := Arena.mem_entries
  sorted := a.entries_sorted
  len := h.length_entries.symm
  len_add := h.len_add
  firstFrom := a.firstFrom_eq_some_iff
  firstFrom_none := a.firstFrom_eq_none_iff

theorem Vacates.freeHead_vacant (h : a.Vacates free) (hid : a.freeHead = some id) :
    id < a.slotCount ∧ a.get? id = none := by
  cases free with
  | nil =>
    rw [show a.freeHead = none from h.chain] at hid
    cases hid
  | cons j rest =>
    obtain rfl := Option.some.inj (h.chain.1.symm.trans hid)
    exact (h.mem_iff j).mp List.mem_cons_self

theorem Vacates.others (h : a.Vacates free) {c : Command α} (hc : c ≠ .clear)
    (hid : a.slotOf c ≠ some id) : (a.perform c).2.get? id = a.get? id := by
  cases c with
  | insert value =>
    have hne : (a.insert value).1 ≠ id := fun he => hid (congrArg some he)
    exact (h.get?_insert value id).trans (if_neg hne)
  | remove j =>
    have hne : j ≠ id := fun he => hid (congrArg some he)
    cases hv : a.get? j with
    | none => rw [Arena.perform, remove?_eq_none hv]
    | some value =>
      rw [Arena.perform, remove?_eq_some hv]
      exact (get?_vacate id).trans (if_neg hne)
  | set j value =>
    have hne : j ≠ id := fun he => hid (congrArg some he)
    exact (get?_modify a _ id).trans (if_neg hne)
  | clear => exact absurd rfl hc

theorem Vacates.spares (h : a.Vacates free) : a.Spares where
  freeHead id hid := by
    rw [contains_eq_false_iff]
    exact h.freeHead_vacant hid
  insert value := by
    rw [h.insert_fst, contains_eq_false_iff]
    exact h.get?_headD
  len_pos id hc := by
    obtain ⟨value, hv⟩ := contains_iff.mp hc
    exact h.len_pos hv
  remove id hc := by
    rw [Arena.perform, remove?_eq_none (contains_eq_false_iff.mp hc)]
  set id value hc := by
    have hv := contains_eq_false_iff.mp hc
    rw [Arena.perform, hv, modify_of_vacant _ _ hv]
  others _ _ := h.others

/-- After every run an arena is the map that the run makes of the empty one, with the vacated slots
on a stack, and it answers the next request as that map does. It has as many slots as values were
stored at once since it was new or last cleared. -/
theorem run_reflects (history : List (Command α)) :
    (run {} history).Reflects (SlotMap.run {} history) ∧
    (∀ c, ((run {} history).perform c).1 = ((SlotMap.run {} history).perform c).1) ∧
    (run {} history).Spares ∧ IsGreatest (lens history) (run {} history).slotCount := by
  obtain ⟨free, h, hview⟩ := exists_view_run history
  rw [hview]
  refine ⟨h.reflects, ?_, h.spares, isGreatest_lens history⟩
  intro c
  obtain ⟨free', -, hstep⟩ := h.perform c
  rw [hstep]

-- Slot 1 is vacated last, and only once, so it is taken first.
example : ((({} : Arena Nat).run [.insert 10, .insert 20, .remove 0, .remove 1, .remove 1]).perform
    (.insert 30)).1 = .slot 1 := by
  decide

end Arena

end Lru
