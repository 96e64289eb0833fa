import Lru.Proofs.History.Inclusion
import Lru.Proofs.Latest

/-! # Loading in bulk

A cache that many pairs are inserted into may evict a key and store it again
further on. What it holds in the end is told without following it: of the
entries and the pairs in order it keeps the last with each key, and of these
the most recent ones that fit.
-/

namespace Lru

namespace Reference

section Newest

variable {K V : Type} {p s entries : List (Entry K V)} {n : Nat}

theorem newest_zero (entries : List (Entry K V)) : newest 0 entries = [] := by
  simp [newest]

theorem newest_of_fits (h : s.length ≤ n) : newest n s = s := by
  simp [newest, Nat.sub_eq_zero_of_le h]

theorem newest_append (h : n ≤ s.length) : newest n (p ++ s) = newest n s := by
  rw [newest, newest, List.length_append, Nat.add_sub_assoc h, List.drop_append,
    List.drop_of_length_le (Nat.le_add_right ..), List.nil_append, Nat.add_sub_cancel_left]

theorem exists_newest (n : Nat) (entries : List (Entry K V)) :
    ∃ older, entries = older ++ newest n entries ∧
      (older = [] ∨ (newest n entries).length = n) := by
  refine ⟨entries.take (entries.length - n), (List.take_append_drop ..).symm, ?_⟩
  rcases Nat.le_total entries.length n with h | h
  · exact .inl (by simp [Nat.sub_eq_zero_of_le h])
  · exact .inr (by rw [newest, List.length_drop]; omega)

variable [BEq K]

theorem newest_forall₂ {shared : List (Entry K V)} (n : Nat)
    (h : List.Forall₂ Entry.Agree s shared) :
    List.Forall₂ Entry.Agree (newest n s) (newest n shared) := by
  rw [newest, newest, h.length_eq]
  exact List.forall₂_drop _ h

/-- The entry of a key may go before or after the most recent entries are chosen if another one is
put behind them: with a key among the older ones, the others stay, and there are enough of them. -/
theorem newest_eraseP_concat [PartialEquivBEq K] (h : Distinct entries) (n : Nat) (key : K)
    (stored : Entry K V) :
    newest n ((newest n entries).eraseP (fun e => key == e.key) ++ [stored]) =
      newest n (entries.eraseP (fun e => key == e.key) ++ [stored]) := by
  obtain ⟨older, he, hl⟩ := exists_newest n entries
  generalize newest n entries = shared at he hl
  subst he
  rcases hl with rfl | hl
  · rfl
  have hlen : n ≤ (shared.eraseP (fun e => key == e.key) ++ [stored]).length := by
    have hle : shared.length - 1 ≤ (shared.eraseP fun e => key == e.key).length :=
      List.le_length_eraseP
    simp only [List.length_append, List.length_singleton]
    omega
  rcases h.missing_or key with ho | hs
  · rw [List.eraseP_append_right _ fun e he => by simp [ho e he], List.append_assoc,
      newest_append hlen]
  · rw [eraseP_of_missing hs] at hlen ⊢
    rw [List.eraseP_append, eraseP_of_missing hs]
    split <;> rw [List.append_assoc, newest_append hlen]

end Newest

section Insertion

variable {K V : Type} [BEq K] [EquivBEq K] {r : Reference K V}

theorem Proper.insert_latest (h : r.Proper) {entries : List (Entry K V)}
    (hr : List.Forall₂ Entry.Agree r.entries (newest r.capacity (latest Entry.key entries)))
    (now : Instant) (key : K) (value : V) :
    List.Forall₂ Entry.Agree (r.insert now key value).reference.entries
      (newest r.capacity (latest Entry.key (entries ++ [⟨key, value, now⟩]))) := by
  obtain ⟨stored, hkey, hvalue, he⟩ := h.insert_entries now key value
  have hd : Distinct (latest Entry.key entries) := latest_pairwise Entry.key entries
  have hagree : stored.Agree ⟨key, value, now⟩ := ⟨BEq.symm hkey, hvalue⟩
  rw [he, latest_concat, ← newest_eraseP_concat hd]
  exact newest_forall₂ _ (List.rel_append (eraseP_forall₂ hr key) (.cons hagree .nil))

theorem Proper.insert_silent (h : r.Proper) (room : r.entries.length < r.capacity)
    (now : Instant) (key : K) (value : V) : (r.insert now key value).notices = [] ∧
      (r.insert now key value).reference.entries.length ≤ r.entries.length + 1 := by
  cases h.inserting now key value with
  | refused missing empty inserted => simp [inserted]
  | replaced p s entry split same missing held inserted => simp [inserted, split]
  | appended missing room inserted => simp [inserted]
  | displaced head s split missing full inserted =>
    rw [split, full, List.length_cons] at room
    exact absurd room (Nat.lt_irrefl _)

end Insertion

end Reference

namespace Cache

open Reference

variable {K V : Type}

/-- The entries of pairs that are stored at a reading. -/
def written (now : Instant) (pairs : List (K × V)) : List (Entry K V) :=
  pairs.map fun pair => ⟨pair.1, pair.2, now⟩

variable [BEq K] [EquivBEq K] {c : Cache K V} {entries : List (Entry K V)}

theorem Coherent.exists_insert (h : c.Coherent) (now : Instant) (key : K) (value : V) :
    ∃ o, c.insert now key value = .ok o ∧ o.cache.capacity = c.capacity ∧
      Simulates c o (c.reference.insert now key value) InsertedAt := by
  obtain ⟨items, free, h⟩ := h
  obtain ⟨o, ho, hs⟩ := h.insert_simulates now key value
  exact ⟨o, ho, (congrArg Reference.capacity hs.reference).trans (insert_capacity ..), hs⟩

theorem Coherent.insertAll_latest (h : c.Coherent)
    (hc : List.Forall₂ Entry.Agree c.entries (newest c.capacity (latest Entry.key entries)))
    (now : Instant) (pairs : List (K × V)) :
    ∃ o, c.insertAll now pairs = .ok o ∧ o.cache.capacity = c.capacity ∧
      List.Forall₂ Entry.Agree o.cache.entries
        (newest c.capacity (latest Entry.key (entries ++ written now pairs))) := by
  induction pairs generalizing c entries with
  | nil => exact ⟨_, rfl, rfl, by simpa [written] using hc⟩
  | cons pair rest ih =>
    obtain ⟨key, value⟩ := pair
    have hstep := h.proper.insert_latest hc now key value
    obtain ⟨first, hfirst, hcap, hs⟩ := h.exists_insert now key value
    rw [← hs.reference, show c.reference.capacity = first.cache.capacity from hcap.symm] at hstep
    obtain ⟨others, hothers, hcap', hlatest⟩ := ih hs.coherent hstep
    rw [hcap, List.append_assoc] at hlatest
    exact ⟨_, insertAll_cons hfirst hothers, hcap'.trans hcap, hlatest⟩

theorem Coherent.insertAll_silent (h : c.Coherent) (now : Instant) {pairs : List (K × V)}
    (room : c.entries.length + pairs.length ≤ c.capacity) :
    ∃ o, c.insertAll now pairs = .ok o ∧ o.notices = [] := by
  induction pairs generalizing c with
  | nil => exact ⟨_, rfl, rfl⟩
  | cons pair rest ih =>
    obtain ⟨key, value⟩ := pair
    rw [List.length_cons] at room
    have hlt : c.reference.entries.length < c.reference.capacity := by
      change c.entries.length < c.capacity
      omega
    obtain ⟨hnotices, hlength⟩ := h.proper.insert_silent hlt now key value
    obtain ⟨first, hfirst, hcap, hs⟩ := h.exists_insert now key value
    rw [← hs.reference] at hlength
    have hle : first.cache.entries.length ≤ c.entries.length + 1 := hlength
    obtain ⟨others, hothers, hsilent⟩ := ih hs.coherent (by omega)
    refine ⟨_, insertAll_cons hfirst hothers, ?_⟩
    exact congrArg₂ (· ++ ·) (hs.notices.trans hnotices) hsilent

theorem Coherent.entries_latest (h : c.Coherent) :
    newest c.capacity (latest Entry.key c.entries) = c.entries := by
  have hd : Distinct c.entries := h.proper.distinct
  have hfits : c.entries.length ≤ c.capacity := h.proper.fits
  rw [latest_eq_self hd, newest_of_fits hfits]

theorem Coherent.insertAll_entries (h : c.Coherent) (now : Instant) (pairs : List (K × V)) :
    ∃ o, c.insertAll now pairs = .ok o ∧ o.cache.capacity = c.capacity ∧
      List.Forall₂ Entry.Agree o.cache.entries
        (newest c.capacity (latest Entry.key (c.entries ++ written now pairs))) := by
  refine h.insertAll_latest ?_ now pairs
  rw [h.entries_latest]
  exact List.forall₂_same.mpr fun e _ => ⟨BEq.rfl, rfl⟩

theorem ofPairs_entries (id : UInt64) (capacity : Nat) (pairs : List (K × V)) :
    ∃ o, ofPairs id capacity pairs = .ok o ∧ o.cache.capacity = capacity ∧
      List.Forall₂ Entry.Agree o.cache.entries
        (newest capacity (latest Entry.key (written 0 pairs))) :=
  (coherent_start id capacity .capacity .onInsert).insertAll_entries 0 pairs

theorem ofList_entries (id : UInt64) (pairs : List (K × V)) :
    ∃ o, ofList id pairs = .ok o ∧ o.cache.capacity = max pairs.length defaultCapacity ∧
      o.notices = [] ∧
      List.Forall₂ Entry.Agree o.cache.entries (latest Entry.key (written 0 pairs)) := by
  obtain ⟨o, ho, hcap, hentries⟩ := ofPairs_entries id (max pairs.length defaultCapacity) pairs
  have hempty : (empty id (max pairs.length defaultCapacity) .capacity : Cache K V).Coherent :=
    coherent_start id _ .capacity .onInsert
  -- There is room for all pairs, so nothing is evicted on the way.
  have room : (empty id (max pairs.length defaultCapacity) .capacity : Cache K V).entries.length +
      pairs.length ≤ max pairs.length defaultCapacity := by
    rw [show (empty id (max pairs.length defaultCapacity) .capacity : Cache K V).entries = []
      from rfl, List.length_nil, Nat.zero_add]
    exact Nat.le_max_left ..
  obtain ⟨o', ho', hsilent⟩ := hempty.insertAll_silent 0 room
  obtain rfl : o = o' := Except.ok.inj (ho.symm.trans ho')
  refine ⟨o, ho, hcap, hsilent, ?_⟩
  rwa [newest_of_fits] at hentries
  calc (latest Entry.key (written 0 pairs)).length
      ≤ (written 0 pairs).length := (latest_sublist ..).length_le
    _ = pairs.length := List.length_map ..
    _ ≤ max pairs.length defaultCapacity := Nat.le_max_left ..

/-- In every reachable state inserting pairs leaves the last entry of every key among the stored
entries and the pairs, as many of the most recent ones as fit; the keys are equal ones and the
values the same. So a cache made of pairs holds their last distinct keys, and one made of a list
evicts nothing and holds all of them. -/
theorem run_insertAll (id : UInt64) (capacity : Nat) (policy : Policy) (mode : RecencyMode)
    (steps : List (Instant × Command K V)) (now : Instant) (pairs : List (K × V)) :
    (∃ o p, (start id capacity policy mode : Cache K V).run steps = .ok o ∧
      o.cache.insertAll now pairs = .ok p ∧
      List.Forall₂ Entry.Agree p.cache.entries
        (newest o.cache.capacity (latest Entry.key (o.cache.entries ++ written now pairs))) ∧
      (o.cache.capacity = 0 → p.cache.entries = [])) ∧
    (∃ p, ofPairs id capacity pairs = .ok p ∧ List.Forall₂ Entry.Agree p.cache.entries
      (newest capacity (latest Entry.key (written 0 pairs)))) ∧
    ∃ p, ofList id pairs = .ok p ∧ p.cache.capacity = max pairs.length defaultCapacity ∧
      p.notices = [] ∧
      List.Forall₂ Entry.Agree p.cache.entries (latest Entry.key (written 0 pairs)) := by
  refine ⟨?_, ?_, ofList_entries id pairs⟩
  · have hstart : (start id capacity policy mode : Cache K V).Coherent := coherent_start ..
    obtain ⟨o, ho, hc, -⟩ := hstart.run steps
    obtain ⟨p, hp, -, hentries⟩ := hc.insertAll_entries now pairs
    refine ⟨o, p, ho, hp, hentries, fun hzero => ?_⟩
    rw [hzero, newest_zero] at hentries
    exact List.forall₂_nil_right_iff.mp hentries
  · obtain ⟨p, hp, -, hentries⟩ := ofPairs_entries id capacity pairs
    exact ⟨p, hp, hentries⟩

/-- The first key is evicted on the way and stored again, and the repeated one stands at its last
place, with its last value. -/
theorem run_insertAll_restored : EquivBEq Nat ∧ ∃ o p,
    (start 0 2 .capacity .onInsert : Cache Nat Nat).run [(0, .insert 1 10), (0, .insert 2 20)] =
      .ok o ∧
    o.cache.insertAll 0 [(3, 30), (1, 11), (3, 31)] = .ok p ∧
    List.Forall₂ Entry.Agree p.cache.entries [⟨1, 11, 0⟩, ⟨3, 31, 0⟩] := by
  obtain ⟨⟨o, p, ho, hp, hentries, -⟩, -⟩ := run_insertAll 0 2 .capacity .onInsert
    [(0, .insert 1 10), (0, .insert 2 20)] 0 [(3, 30), (1, 11), (3, 31)]
  have hview : ((start 0 2 .capacity .onInsert : Cache Nat Nat).run
      [(0, .insert 1 10), (0, .insert 2 20)]).map (fun o => (o.cache.capacity, o.cache.entries)) =
      .ok (2, [⟨1, 10, 0⟩, ⟨2, 20, 0⟩]) := by rfl
  rw [ho] at hview
  obtain ⟨hcap, hstored⟩ := Prod.mk.inj (Except.ok.inj hview)
  rw [hcap, hstored] at hentries
  exact ⟨inferInstance, o, p, ho, hp, hentries⟩

end Cache

end Lru
