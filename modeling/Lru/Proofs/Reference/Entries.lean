import Lru.Proofs.Reference.Refinement

/-! # The entries of a reference

No two entries have equal keys, and the entries fit. So a key has one entry or
none, and an insertion replaces that entry, appends a new one, or appends it in
place of the head. Entries are lost between two lists when their keys are.
-/

namespace Lru

namespace Reference

variable {K V : Type} [BEq K] {r : Reference K V} {before after gone kept p s : List (Entry K V)}
  {entry : Entry K V} {key : K} {now : Instant} {value : V}

/-- No entry has a key that equals `key`. -/
def Missing (key : K) (entries : List (Entry K V)) : Prop :=
  ∀ e ∈ entries, (key == e.key) = false

/-- No two entries have equal keys. -/
def Distinct (entries : List (Entry K V)) : Prop :=
  entries.Pairwise fun a b => (a.key == b.key) = false

/-- The entries have unequal keys and fit. -/
structure Proper (r : Reference K V) : Prop where
  distinct : Distinct r.entries
  fits : r.entries.length ≤ r.capacity

section Located

/-- A key has no entry, or one entry between others. -/
inductive Located (r : Reference K V) (key : K) : Prop
  | absent (missing : Missing key r.entries) (entryOf : r.entryOf key = none)
      (others : r.others key = r.entries)
  | stored (p s : List (Entry K V)) (entry : Entry K V) (split : r.entries = p ++ entry :: s)
      (same : key == entry.key) (missing : Missing key (p ++ s))
      (entryOf : r.entryOf key = some entry) (others : r.others key = p ++ s)

theorem find?_of_missing (h : Missing key before) :
    before.find? (fun e => key == e.key) = none :=
  List.find?_eq_none.mpr fun e he => by simp [h e he]

theorem eraseP_of_missing (h : Missing key before) :
    before.eraseP (fun e => key == e.key) = before :=
  List.eraseP_of_forall_not fun e he => by simp [h e he]

theorem missing_append : Missing key (p ++ s) ↔ Missing key p ∧ Missing key s :=
  List.forall_mem_append

theorem entryOf_of_split (h : r.entries = p ++ entry :: s) (hp : Missing key p)
    (hk : key == entry.key) : r.entryOf key = some entry := by
  rw [entryOf, h, List.find?_append, find?_of_missing hp]
  simp [hk]

theorem others_of_split (h : r.entries = p ++ entry :: s) (hp : Missing key p)
    (hk : key == entry.key) : r.others key = p ++ s := by
  rw [others, h, List.eraseP_append_right _ fun e he => by simp [hp e he]]
  simp [hk]

variable [PartialEquivBEq K]

theorem Distinct.missing (h : Distinct (p ++ entry :: s)) (hk : key == entry.key) :
    Missing key (p ++ s) := by
  obtain ⟨-, hs, hps⟩ := List.pairwise_append.mp h
  refine missing_append.mpr ⟨fun e he => ?_, fun e he => ?_⟩
  · rw [BEq.congr_left hk]
    exact BEq.symm_false (hps e he entry List.mem_cons_self)
  · rw [BEq.congr_left hk]
    exact (List.pairwise_cons.mp hs).1 e he

theorem Distinct.located (h : Distinct r.entries) (key : K) : r.Located key := by
  by_cases hm : Missing key r.entries
  · exact .absent hm (find?_of_missing hm) (eraseP_of_missing hm)
  · obtain ⟨entry, he, hk⟩ : ∃ e ∈ r.entries, key == e.key := by simpa [Missing] using hm
    obtain ⟨p, s, hs⟩ := List.append_of_mem he
    have hps := (hs ▸ h).missing hk
    have hp := (missing_append.mp hps).1
    exact .stored p s entry hs hk hps (entryOf_of_split hs hp hk) (others_of_split hs hp hk)

end Located

section Insertion

/-- The four ways in which an insertion changes the entries. -/
inductive Inserting (r : Reference K V) (now : Instant) (key : K) (value : V) : Prop
  | refused (missing : Missing key r.entries) (empty : r.capacity = 0)
      (inserted : r.insert now key value = ⟨(false, none), r, []⟩)
  | replaced (p s : List (Entry K V)) (entry : Entry K V) (split : r.entries = p ++ entry :: s)
      (same : key == entry.key) (missing : Missing key (p ++ s)) (held : r.capacity ≠ 0)
      (inserted : r.insert now key value = ⟨(false, some (p ++ s).length),
        { r with entries := p ++ s ++ [{ entry with value, stamp := now }] }, []⟩)
  | appended (missing : Missing key r.entries) (room : r.entries.length < r.capacity)
      (inserted : r.insert now key value = ⟨(true, some r.entries.length),
        { r with entries := r.entries ++ [⟨key, value, now⟩] }, []⟩)
  | displaced (head : Entry K V) (s : List (Entry K V)) (split : r.entries = head :: s)
      (missing : Missing key (head :: s)) (full : r.capacity = s.length + 1)
      (inserted : r.insert now key value = ⟨(true, some s.length),
        { r with entries := s ++ [⟨key, value, now⟩] },
        [.trace (.evicted s.length r.capacity)]⟩)

theorem Proper.inserting [PartialEquivBEq K] (h : r.Proper) (now : Instant) (key : K)
    (value : V) : r.Inserting now key value := by
  cases h.distinct.located key with
  | absent missing entryOf others =>
    by_cases hc : r.capacity = 0
    · exact .refused missing hc (by simp [insert, entryOf, hc])
    rcases Nat.lt_or_eq_of_le h.fits with hl | hl
    · exact .appended missing hl (by simp [insert, entryOf, hc, hl])
    · obtain ⟨head, s, hs⟩ : ∃ head s, r.entries = head :: s :=
        List.exists_cons_of_length_pos (by omega)
      have full : r.capacity = s.length + 1 := by rw [← hl, hs, List.length_cons]
      exact .displaced head s hs (hs ▸ missing) full (by simp [insert, entryOf, hs, full])
  | stored p s entry split same missing entryOf others =>
    have hl := h.fits
    simp only [split, List.length_append, List.length_cons] at hl
    exact .replaced p s entry split same missing (by omega)
      (by simp [insert, entryOf, promote, others, split])

end Insertion

section Loss

/-- Whether an entry has a key that equals `key`. -/
def stores (key : K) (entries : List (Entry K V)) : Bool :=
  entries.any fun e => key == e.key

/-- The entries of `before` whose keys have no entry in `after`. -/
def lost (before after : List (Entry K V)) : List (Entry K V) :=
  before.filter fun e => !stores e.key after

theorem stores_eq_false_iff : stores key before = false ↔ Missing key before := by
  simp [stores, Missing]

theorem stores_eq_true_iff : stores key before = true ↔ ∃ e ∈ before, key == e.key := by
  simp [stores]

theorem stores_append : stores key (p ++ s) = (stores key p || stores key s) :=
  List.any_append

theorem lost_append : lost (p ++ s) after = lost p after ++ lost s after :=
  List.filter_append ..

theorem lost_eq_nil (h : ∀ e ∈ before, stores e.key after = true) : lost before after = [] :=
  List.filter_eq_nil_iff.mpr fun e he => by simp [h e he]

theorem lost_eq_self (h : ∀ e ∈ before, Missing e.key after) : lost before after = before :=
  List.filter_eq_self.mpr fun e he => by simp [stores_eq_false_iff.mpr (h e he)]

theorem lost_prefix_of_kept (h : ∀ e ∈ before, stores e.key after = true) :
    lost before after <+: before := by
  rw [lost_eq_nil h]
  exact List.nil_prefix

theorem stores_congr [PartialEquivBEq K] {k : K} (h : key == k) :
    stores key before = stores k before := by
  simp only [stores, BEq.congr_left h]

/-- A key is among the lost ones if it had an entry and has none. -/
theorem any_lost [PartialEquivBEq K] (key : K) (before after : List (Entry K V)) :
    (lost before after).any (fun e => key == e.key) =
      (stores key before && !stores key after) := by
  rw [Bool.eq_iff_iff]
  simp only [lost, List.any_eq_true, List.mem_filter, Bool.and_eq_true, stores_eq_true_iff]
  constructor
  · rintro ⟨e, ⟨he, hl⟩, hk⟩
    exact ⟨⟨e, he, hk⟩, by rwa [stores_congr hk]⟩
  · rintro ⟨⟨e, he, hk⟩, hl⟩
    exact ⟨e, ⟨he, by rwa [← stores_congr hk]⟩, hk⟩

/-- An entry that moves to the end is still there. -/
theorem stores_moved (entry moved : Entry K V) (h : moved.key = entry.key) :
    stores key (p ++ s ++ [moved]) = stores key (p ++ entry :: s) := by
  simp [stores, h, Bool.or_comm]

/-- Entries in front of those that stay are lost. -/
theorem lost_prefix (hg : ∀ e ∈ gone, Missing e.key after)
    (hk : ∀ e ∈ kept, stores e.key after = true) :
    lost (gone ++ kept) after <+: gone ++ kept := by
  rw [lost_append, lost_eq_self hg, lost_eq_nil hk, List.append_nil]
  exact List.prefix_append gone kept

theorem Distinct.missing_of_mem (h : Distinct (gone ++ kept)) (he : entry ∈ gone) :
    Missing entry.key kept :=
  (List.pairwise_append.mp h).2.2 entry he

variable [EquivBEq K]

theorem stores_of_mem (h : entry ∈ before) : stores entry.key before = true :=
  stores_eq_true_iff.mpr ⟨entry, h, BEq.rfl⟩

theorem Distinct.lost_suffix (h : Distinct before) (hs : after <:+ before) :
    lost before after <+: before := by
  obtain ⟨gone, rfl⟩ := hs
  exact lost_prefix (fun e he => h.missing_of_mem he) fun e he => stores_of_mem he

end Loss

end Reference

end Lru
