import Lru.Proofs.History.Effects

/-! # Memoization

A cache that is only ever given the values of a function answers with the values
of that function, whatever else is asked of it. A value is made once for each
request that finds no live entry, and for no other.
-/

namespace Lru

namespace Reference

variable {K V : Type} [BEq K] {f : K → V} {before after : List (Entry K V)} {entry : Entry K V}
  {key : K} {now : Instant} {value : V} {r : Reference K V}

/-- Every entry holds the value of `f` at its key. -/
def Memoized (f : K → V) (entries : List (Entry K V)) : Prop :=
  ∀ e ∈ entries, e.value = f e.key

omit [BEq K] in
theorem Memoized.sublist (h : Memoized f before) (hs : after.Sublist before) :
    Memoized f after :=
  fun e he => h e (hs.subset he)

omit [BEq K] in
theorem Memoized.concat (h : Memoized f before) (he : entry.value = f entry.key) :
    Memoized f (before ++ [entry]) := by
  intro e hm
  rcases List.mem_append.mp hm with hb | hl
  · exact h e hb
  · obtain rfl := List.mem_singleton.mp hl
    exact he

theorem entryOf_mem (h : r.entryOf key = some entry) : entry ∈ r.entries ∧ key == entry.key :=
  ⟨List.mem_of_find?_eq_some h, List.find?_some (p := fun e : Entry K V => key == e.key) h⟩

theorem Memoized.promote (h : Memoized f r.entries) (he : entry.value = f entry.key) :
    Memoized f (r.promote now key entry).entries :=
  (h.sublist List.eraseP_sublist).concat he

theorem Memoized.promoteOnAccess (h : Memoized f r.entries) (he : entry.value = f entry.key) :
    Memoized f (r.promoteOnAccess now key entry).entries := by
  unfold Reference.promoteOnAccess
  split
  · exact h
  · exact h.promote he

theorem write_id {update : V → V} (hu : ∀ v, update v = v) (r : Reference K V) (key : K) :
    (r.write key update).entries = r.entries := by
  refine (List.map_congr_left fun e _ => ?_).trans (List.map_id r.entries)
  simp [hu]

theorem Memoized.of_liveEntry (h : Memoized f r.entries) (hl : r.liveEntry now key = some entry) :
    entry.value = f entry.key :=
  h entry (entryOf_mem (entryOf_of_liveEntry hl)).1

theorem Memoized.touch (h : Memoized f r.entries) :
    Memoized f (r.touch now key).reference.entries := by
  unfold Reference.touch
  cases hl : r.liveEntry now key with
  | none => exact h
  | some entry => exact h.promote (h.of_liveEntry hl)

theorem Memoized.lookupMut (h : Memoized f r.entries) {update : V → V} (hu : ∀ v, update v = v) :
    Memoized f (r.lookupMut now key update).reference.entries := by
  unfold Reference.lookupMut
  cases hl : r.liveEntry now key with
  | none => exact h
  | some entry =>
    simp only [write_id hu]
    exact h.promoteOnAccess (h.of_liveEntry hl)

theorem Distinct.any_live [PartialEquivBEq K] (h : Distinct r.entries) (now : Instant) (key : K) :
    (r.entries.any fun e => key == e.key && r.policy.isLive now e.stamp) =
      (r.liveEntry now key).isSome := by
  have hany : ∀ {entries : List (Entry K V)}, Missing key entries →
      (entries.any fun e => key == e.key && r.policy.isLive now e.stamp) = false :=
    fun hm => List.any_eq_false.mpr fun e he => by simp [hm e he]
  rw [liveEntry]
  cases h.located key with
  | absent missing entryOf others =>
    rw [hany missing, entryOf]
    rfl
  | stored p s entry split same missing entryOf others =>
    obtain ⟨hp, hs⟩ := missing_append.mp missing
    rw [entryOf, split, List.any_append, List.any_cons, hany hp, hany hs]
    simp [same, Option.isSome_filter]

section Equal

variable (hf : ∀ k k', (k == k') = true → f k = f k')

include hf

theorem Memoized.insert (h : Memoized f r.entries) (hv : value = f key) :
    Memoized f (r.insert now key value).reference.entries := by
  unfold Reference.insert
  split
  · next entry he => exact h.promote (hv.trans (hf _ _ (entryOf_mem he).2))
  · split
    · exact h
    · split
      · exact h.concat hv
      · exact (h.sublist (List.tail_sublist _)).concat hv

theorem Memoized.value_of_liveEntry (h : Memoized f r.entries)
    (hl : r.liveEntry now key = some entry) : entry.value = f key :=
  (h.of_liveEntry hl).trans (hf _ _ (entryOf_mem (entryOf_of_liveEntry hl)).2).symm

theorem Memoized.lookup (h : Memoized f r.entries) : (r.lookup now key).result =
    if (r.liveEntry now key).isSome then .ok (f key) else .error .keyNotFound := by
  unfold Reference.lookup
  cases hl : r.liveEntry now key with
  | none => rfl
  | some entry => exact congrArg Except.ok (h.value_of_liveEntry hf hl)

theorem Memoized.getOrInsert (h : Memoized f r.entries) (now : Instant) (key : K) :
    Memoized f (r.getOrInsert now key f).reference.entries ∧
    (r.getOrInsert now key f).result = f key ∧
    (r.getOrInsert now key f).notices.filterMap Notice.made? =
      if (r.liveEntry now key).isSome then [] else [key] := by
  refine ⟨?_, ?_, r.made_getOrInsert now key f⟩
  · unfold Reference.getOrInsert
    cases hl : r.liveEntry now key with
    | some entry => exact h.promoteOnAccess (h.of_liveEntry hl)
    | none => exact h.insert hf rfl
  · unfold Reference.getOrInsert
    cases hl : r.liveEntry now key with
    | some entry => exact h.value_of_liveEntry hf hl
    | none => rfl

end Equal

end Reference

namespace Cache

variable {K V : Type}

/-- Whether a request writes no values but those of `f`. -/
def Command.Memoizes (f : K → V) : Command K V → Prop
  | .insert key value => value = f key
  | .insertAll pairs => ∀ pair ∈ pairs, pair.2 = f pair.1
  | .getOrInsert _ make => make = f
  | .lookupMut _ update => ∀ v, update v = v
  | _ => True

/-- Whether a key has a live entry. -/
def hasLive [BEq K] (c : Cache K V) (now : Instant) (key : K) : Bool :=
  c.entries.any fun e => key == e.key && c.policy.isLive now e.stamp

theorem Command.Memoizes.part {f : K → V} {command part : Command K V} (h : command.Memoizes f)
    (hp : part ∈ command.parts) : part.Memoizes f := by
  cases command with
  | insertAll pairs =>
    obtain ⟨pair, hm, rfl⟩ := List.mem_map.mp hp
    exact h pair hm
  | _ =>
    obtain rfl := List.mem_singleton.mp hp
    exact h

end Cache

namespace Deed

variable {K V : Type} {d : Deed K V} {f : K → V} {key : K}

/-- The keys for which an operation made a value. -/
def made (d : Deed K V) : List K :=
  d.outcome.notices.filterMap Notice.made?

variable [BEq K] [EquivBEq K]

open Cache Reference

theorem Sound.hasLive_eq (h : d.Sound) (key : K) :
    d.before.hasLive d.now key = (d.before.reference.liveEntry d.now key).isSome :=
  h.coherent.proper.distinct.any_live d.now key

section Equal

variable (hf : ∀ k k', (k == k') = true → f k = f k')

include hf

/-- An operation that writes no other values keeps the entries to the values of `f`. -/
theorem Sound.memoized (h : d.Sound) (hm : d.command.Memoizes f)
    (hb : Memoized f d.before.entries) : Memoized f d.after.entries := by
  obtain ⟨c, now, command, o⟩ := d
  obtain ⟨hc, performed, single⟩ := h
  change c.perform now command = .ok o at performed
  have he : o.cache.entries = (c.leaves now command).entries :=
    congrArg Reference.entries (hc.perform_reference performed)
  change Memoized f c.reference.entries at hb
  change Memoized f o.cache.entries
  cases command with
  | insert key value => exact he ▸ hb.insert hf hm
  | insertAll pairs => exact absurd rfl (single pairs)
  | getOrInsert key make =>
    obtain rfl : make = f := hm
    exact he ▸ (hb.getOrInsert hf now key).1
  | lookupMut key update => exact he ▸ hb.lookupMut hm
  | touch key => exact he ▸ hb.touch
  | _ => exact hb.sublist (hc.perform_sublist performed rfl)

theorem Sound.getOrInsert_value (h : d.Sound) (hb : Memoized f d.before.entries)
    (hc : d.command = .getOrInsert key f) : d.outcome.result = .value (f key) ∧
      d.made = if d.before.hasLive d.now key then [] else [key] := by
  rw [h.hasLive_eq, made]
  obtain ⟨c, now, command, o⟩ := d
  obtain ⟨⟨items, free, h⟩, performed, -⟩ := h
  obtain rfl : command = .getOrInsert key f := hc
  obtain ⟨o, ho, rfl⟩ := exists_of_map_eq_ok performed
  have hs := simulates_of_ok (h.getOrInsert_simulates now key f) ho
  obtain ⟨-, hvalue, hmade⟩ := Memoized.getOrInsert (r := c.reference) hf hb now key
  exact ⟨congrArg Answer.value (hs.result.trans hvalue), hs.notices ▸ hmade⟩

theorem Sound.lookup_value (h : d.Sound) (hb : Memoized f d.before.entries)
    (hc : d.command = .lookup key) : d.outcome.result =
      .valueOr (if d.before.hasLive d.now key then .ok (f key) else .error .keyNotFound) := by
  rw [h.hasLive_eq]
  obtain ⟨c, now, command, o⟩ := d
  obtain ⟨⟨items, free, h⟩, performed, -⟩ := h
  obtain rfl : command = .lookup key := hc
  change c.perform now (.lookup key) = .ok o at performed
  cases performed
  exact congrArg Answer.valueOr ((h.lookup_simulates now key).result.trans (hb.lookup hf))

end Equal

end Deed

namespace Cache

variable {K V : Type} [BEq K] [EquivBEq K]

/-- A cache that is only given values of `f` answers with values of `f`, and makes a value just
when the key has no live entry. -/
theorem run_memoizes (f : K → V) (hf : ∀ k k', (k == k') = true → f k = f k') (id : UInt64)
    (capacity : Nat) (policy : Policy) (mode : RecencyMode) (steps : List (Instant × Command K V))
    (hs : ∀ step ∈ steps, step.2.Memoizes f) :
    ((start id capacity policy mode).history steps).map Deed.step = singly steps ∧
    (∃ o, (start id capacity policy mode).run steps = .ok o) ∧
    ∀ d ∈ (start id capacity policy mode).history steps, ∀ key,
      (d.command = .getOrInsert key f → d.outcome.result = .value (f key) ∧
        d.made = if d.before.hasLive d.now key then [] else [key]) ∧
      (d.command = .lookup key → d.outcome.result =
        .valueOr (if d.before.hasLive d.now key then .ok (f key) else .error .keyNotFound)) := by
  have hc : (start id capacity policy mode : Cache K V).Coherent := coherent_start ..
  have hparts : ∀ step ∈ singly steps, step.2.Memoizes f :=
    forall_mem_singly fun step hm _ hp => (hs step hm).part hp
  obtain ⟨o, ho, -, hdeeds⟩ := hc.history_induction steps
    (I := fun _ c => Reference.Memoized f c.entries) (fun e he => nomatch he)
    fun past d hd hm hI => hd.memoized hf (hparts _ hm) hI
  refine ⟨hc.map_step_history steps, ⟨o, ho⟩, fun d hd key => ?_⟩
  obtain ⟨past, future, hsplit⟩ := List.append_of_mem hd
  obtain ⟨hsound, -, hI⟩ := hdeeds past d future hsplit
  exact ⟨hsound.getOrInsert_value hf hI, hsound.lookup_value hf hI⟩

/-- A value is made again for a key that an insertion evicted, and not for one that is stored. -/
theorem run_memoizes_evicted : EquivBEq Nat ∧ ∃ a b d e,
    (start 0 1 .capacity .onInsert : Cache Nat Nat).history
      [(0, .getOrInsert 3 (· + 7)), (0, .insert 4 11), (0, .getOrInsert 3 (· + 7)),
        (0, .getOrInsert 3 (· + 7))] = [a, b, d, e] ∧
    d.outcome.result = .value 10 ∧ d.made = [3] ∧ e.outcome.result = .value 10 ∧ e.made = [] := by
  obtain ⟨-, -, hdeeds⟩ := run_memoizes (· + 7) (by simp) 0 1 .capacity .onInsert
    [(0, .getOrInsert 3 (· + 7)), (0, .insert 4 11), (0, .getOrInsert 3 (· + 7)),
      (0, .getOrInsert 3 (· + 7))] (by simp [Command.Memoizes])
  have hthird := (hdeeds _ (List.mem_of_getElem? (i := 2) rfl) 3).1 rfl
  have hfourth := (hdeeds _ (List.mem_of_getElem? (i := 3) rfl) 3).1 rfl
  exact ⟨inferInstance, _, _, _, _, rfl, hthird.1, hthird.2, hfourth.1, hfourth.2⟩

end Cache

end Lru
