import Lru.KeyMap
import Mathlib.Data.List.Perm.Basic

/-! # Maps whose keys are pairwise unequal

Where the equality of keys is symmetric and transitive and no two keys of a map
are equal, the order of its entries does not show: looking up, changing and
removing a key act on the one entry that has it.
-/

namespace Lru.KeyMap

variable {K V : Type} [BEq K] {m : KeyMap K V} {entries : List (K × V)} {key k : K} {value v : V}

/-- No entry has a key that equals `key`. -/
def Absent (key : K) (entries : List (K × V)) : Prop :=
  ∀ entry ∈ entries, (key == entry.1) = false

/-- No two keys are equal. -/
def Distinct (entries : List (K × V)) : Prop :=
  entries.Pairwise fun a b => (a.1 == b.1) = false

theorem get?_eq_none_iff : m.get? key = none ↔ Absent key m.entries := by
  simp [get?, Absent]

theorem contains_eq_false_iff : m.contains key = false ↔ Absent key m.entries := by
  rw [← get?_eq_none_iff]
  simp [contains]

theorem insert_of_absent (h : Absent key m.entries) :
    (m.insert key value).entries = m.entries ++ [(key, value)] := by
  simp [insert, contains_eq_false_iff.mpr h]

theorem map_of_absent (h : Absent key entries) (f : V → V) :
    entries.map (fun entry => if key == entry.1 then (entry.1, f entry.2) else entry) =
      entries := by
  conv => rhs; rw [← List.map_id entries]
  exact List.map_congr_left fun entry hm => by simp [h entry hm]

theorem erase_of_absent (h : Absent key m.entries) : m.erase key = m := by
  rw [erase, List.eraseP_of_forall_not fun entry he => by simp [h entry he]]

theorem modify_of_absent (h : Absent key m.entries) (f : V → V) : m.modify key f = m := by
  obtain ⟨entries⟩ := m
  rw [modify]
  refine congrArg KeyMap.mk ?_
  induction entries with
  | nil => rfl
  | cons x rest ih =>
    obtain ⟨hx, hrest⟩ := List.forall_mem_cons.mp h
    simp [modifyFirst, hx, ih hrest]

theorem get?_mapValues (f : V → V) : (m.mapValues f).get? key = (m.get? key).map f := by
  simp only [mapValues, get?, List.find?_map, Option.map_map, Function.comp_def]

section Keys

theorem keys_modifyFirst (f : V → V) (entries : List (K × V)) :
    (modifyFirst key f entries).map Prod.fst = entries.map Prod.fst := by
  induction entries with
  | nil => rfl
  | cons x rest ih =>
    obtain ⟨j, v⟩ := x
    simp only [modifyFirst]
    split <;> simp [ih]

theorem Distinct.of_keys {entries' : List (K × V)} (h : Distinct entries)
    (he : entries'.map Prod.fst = entries.map Prod.fst) : Distinct entries' := by
  have hm : (entries.map Prod.fst).Pairwise fun a b => (a == b) = false :=
    List.pairwise_map.mpr h
  rw [← he] at hm
  exact List.pairwise_map.mp hm

theorem Distinct.modify (h : Distinct m.entries) (f : V → V) :
    Distinct (m.modify key f).entries :=
  h.of_keys (keys_modifyFirst f m.entries)

theorem Distinct.mapValues (h : Distinct m.entries) (f : V → V) :
    Distinct (m.mapValues f).entries :=
  h.of_keys (by simp [KeyMap.mapValues, Function.comp_def])

theorem Distinct.erase (h : Distinct m.entries) (key : K) : Distinct (m.erase key).entries :=
  h.sublist List.eraseP_sublist

end Keys

section Size

theorem size_erase (h : m.get? key = some value) : (m.erase key).size + 1 = m.size := by
  obtain ⟨entry, hf, -⟩ := Option.map_eq_some_iff.mp h
  have hk := List.find?_some hf
  exact List.length_eraseP_add_one (List.mem_of_find?_eq_some hf) hk

theorem size_modify (f : V → V) : (m.modify key f).size = m.size := by
  have hkeys : ((m.modify key f).entries.map Prod.fst).length =
      (m.entries.map Prod.fst).length := congrArg List.length (keys_modifyFirst f m.entries)
  rwa [List.length_map, List.length_map] at hkeys

end Size

/-- The entries whose keys equal themselves. No key equals one of the others. -/
def proper (entries : List (K × V)) : List (K × V) :=
  entries.filter fun entry => entry.1 == entry.1

@[simp] theorem proper_append (entries entries' : List (K × V)) :
    proper (entries ++ entries') = proper entries ++ proper entries' :=
  List.filter_append ..

theorem Distinct.proper (h : Distinct entries) : Distinct (proper entries) :=
  h.sublist List.filter_sublist

theorem proper_eq [ReflBEq K] (entries : List (K × V)) : proper entries = entries :=
  List.filter_eq_self.mpr fun _ _ => BEq.rfl

section PartialEquiv

variable [PartialEquivBEq K]

theorem Distinct.perm {entries' : List (K × V)} (h : Distinct entries)
    (hp : entries.Perm entries') : Distinct entries' :=
  (hp.pairwise_iff fun h => BEq.symm_false h).mp h

theorem Distinct.absent (h : Distinct ((k, v) :: entries)) (hk : key == k) :
    Absent key entries := fun entry hm =>
  (BEq.congr_left hk).trans ((List.pairwise_cons.mp h).1 entry hm)

theorem get?_of_perm (h : Distinct m.entries) (hp : m.entries.Perm ((k, v) :: entries))
    (hk : key == k) : m.get? key = some v := by
  cases hf : m.entries.find? fun entry => key == entry.1 with
  | none =>
    rw [List.find?_eq_none] at hf
    exact absurd hk (hf (k, v) (hp.mem_iff.mpr List.mem_cons_self))
  | some x =>
    have hx : key == x.1 := by simpa using List.find?_some hf
    rcases List.mem_cons.mp (hp.mem_iff.mp (List.mem_of_find?_eq_some hf)) with rfl | hm
    · simp [get?, hf]
    · have := (h.perm hp).absent hk x hm
      rw [hx] at this
      cases this

theorem erase_perm (h : Distinct m.entries) (hp : m.entries.Perm ((k, v) :: entries))
    (hk : key == k) : (m.erase key).entries.Perm entries := by
  have hpw : m.entries.Pairwise fun a b => (key == a.1) = true → (key == b.1) = true → False := by
    refine h.imp fun {a b} hab ha hb => ?_
    rw [BEq.trans (BEq.symm ha) hb] at hab
    cases hab
  have he := hp.eraseP (fun entry => key == entry.1) hpw
  rwa [List.eraseP_cons_of_pos (by exact hk)] at he

theorem modifyFirst_eq_map (h : Distinct entries) (f : V → V) :
    modifyFirst key f entries =
      entries.map fun entry => if key == entry.1 then (entry.1, f entry.2) else entry := by
  induction entries with
  | nil => rfl
  | cons x rest ih =>
    obtain ⟨k, v⟩ := x
    by_cases hk : key == k
    · simp [modifyFirst, hk, map_of_absent (h.absent hk)]
    · simp [modifyFirst, hk, ih (List.pairwise_cons.mp h).2]

theorem modify_perm (h : Distinct m.entries) (hp : m.entries.Perm ((k, v) :: entries))
    (hk : key == k) (f : V → V) : (m.modify key f).entries.Perm ((k, f v) :: entries) := by
  have hm := hp.map fun entry => if key == entry.1 then (entry.1, f entry.2) else entry
  rw [modify, modifyFirst_eq_map h]
  simpa [hk, map_of_absent ((h.perm hp).absent hk)] using hm

section Lookup

theorem get?_modify (f : V → V) :
    (m.modify k f).get? key = if key == k then (m.get? key).map f else m.get? key := by
  obtain ⟨entries⟩ := m
  simp only [modify, get?]
  induction entries with
  | nil => simp [modifyFirst]
  | cons x rest ih =>
    obtain ⟨j, v⟩ := x
    by_cases hk : key == k
    · have hj : (key == j) = (k == j) := BEq.congr_left hk
      cases hkj : k == j <;> simp_all [modifyFirst]
    · cases hkj : k == j with
      | false => cases hj : key == j <;> simp_all [modifyFirst]
      | true =>
        have hj : (key == j) = false := (BEq.congr_right (BEq.symm hkj)).trans (by simpa using hk)
        simp_all [modifyFirst]

theorem get?_insertIfNew :
    (m.insertIfNew k v).get? key = (m.get? key).or (if key == k then some v else none) := by
  unfold insertIfNew
  by_cases hc : m.contains k
  · rw [if_pos hc]
    by_cases hk : key == k
    · have hsame : m.get? key = m.get? k := by
        simp only [get?, BEq.congr_left hk]
      have hsome : (m.get? k).isSome := hc
      rw [hsame, Option.or_of_isSome hsome]
    · simp [hk]
  · rw [if_neg hc]
    cases hf : m.entries.find? fun entry => key == entry.1 <;>
      cases hk : key == k <;> simp [get?, List.find?_append, hf, hk]

theorem get?_erase (h : Distinct m.entries) :
    (m.erase k).get? key = if key == k then none else m.get? key := by
  obtain ⟨entries⟩ := m
  simp only [erase, get?]
  induction entries with
  | nil => simp
  | cons x rest ih =>
    obtain ⟨j, v⟩ := x
    have ih := ih (List.pairwise_cons.mp h).2
    cases hkj : k == j with
    | false =>
      rw [List.eraseP_cons_of_neg (by simp [hkj]), List.find?_cons]
      cases hj : key == j with
      | false => simpa [hj] using ih
      | true =>
        have hk : (key == k) = false :=
          (BEq.congr_left hj).trans (BEq.symm_false hkj)
        simp [hj, hk]
    | true =>
      rw [List.eraseP_cons_of_pos (by exact hkj)]
      have hj : (key == j) = (key == k) := BEq.congr_right (BEq.symm hkj)
      cases hk : key == k with
      | false => simp [hj, hk]
      | true =>
        -- The removed key was the only one that equals `key`.
        have ha : Absent key rest := h.absent (hj.trans hk)
        simpa [Absent] using ha

end Lookup

theorem Distinct.concat (h : Distinct entries) (ha : Absent key entries) (value : V) :
    Distinct (entries ++ [(key, value)]) := by
  refine List.pairwise_append.mpr ⟨h, List.pairwise_singleton _ _, ?_⟩
  intro x hx y hy
  obtain rfl := List.mem_singleton.mp hy
  exact BEq.symm_false (ha x hx)

section Proper

theorem self_of_beq (h : key == k) : k == k :=
  BEq.trans (BEq.symm h) h

theorem absent_of_not_self (h : (key == key) = false) (entries : List (K × V)) :
    Absent key entries := by
  intro entry _
  cases hk : key == entry.1 with
  | false => rfl
  | true => exact (h.symm.trans (BEq.trans hk (BEq.symm hk))).symm

theorem and_self_of_beq (entry : K × V) : ((entry.1 == entry.1) && key == entry.1) =
    (key == entry.1) := by
  cases hk : key == entry.1 with
  | false => exact Bool.and_false _
  | true => rw [self_of_beq hk, Bool.and_true]

theorem get?_proper : (⟨proper m.entries⟩ : KeyMap K V).get? key = m.get? key := by
  simp only [get?, proper, List.find?_filter, Bool.decide_and, Bool.decide_eq_true,
    and_self_of_beq]

theorem proper_erase : proper (m.erase key).entries =
    ((⟨proper m.entries⟩ : KeyMap K V).erase key).entries := by
  simp only [erase, proper, List.eraseP_filter, Bool.and_comm (key == _), and_self_of_beq]

theorem proper_modify (f : V → V) : proper (m.modify key f).entries =
    ((⟨proper m.entries⟩ : KeyMap K V).modify key f).entries := by
  obtain ⟨entries⟩ := m
  simp only [modify]
  induction entries with
  | nil => rfl
  | cons x rest ih =>
    obtain ⟨j, v⟩ := x
    cases hk : key == j with
    | true => simp [modifyFirst, proper, hk, self_of_beq hk]
    | false => cases hj : j == j <;> simp_all [modifyFirst, proper]

end Proper

theorem Distinct.insertIfNew (h : Distinct m.entries) (key : K) (value : V) :
    Distinct (m.insertIfNew key value).entries := by
  unfold KeyMap.insertIfNew
  by_cases hc : m.contains key
  · rwa [if_pos hc]
  · rw [if_neg hc]
    exact h.concat (contains_eq_false_iff.mp (by simpa using hc)) value

end PartialEquiv

end Lru.KeyMap
