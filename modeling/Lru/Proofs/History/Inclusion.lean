import Lru.Proofs.History.Effects
import Lru.Proofs.Reference.Inclusion

/-! # Larger caches

Two plain caches that are given the same requests hold the same most recent
entries, as many as the smaller one has. So the larger one finds whatever the
smaller one finds. This needs requests that treat stored and missing keys alike:
touching a key, for one, promotes it only where it is stored.
-/

namespace Lru.Cache

open Reference

variable {K V : Type}

/-- Whether a request keeps the entries of a smaller cache among those of a larger one, where `m`
and `n` tell what accesses do in the two. -/
def Command.inclusive (m n : RecencyMode) : Command K V → Bool
  | .insert _ _ | .insertAll _ | .erase _ | .popFront | .clear => true
  | .lookupMut _ _ => m == .onInsert && n == .onInsert
  | command => command.reads

theorem Command.inclusive_part {m n : RecencyMode} {command part : Command K V}
    (h : command.inclusive m n = true) (hp : part ∈ command.parts) :
    part.inclusive m n = true := by
  cases command with
  | insertAll pairs =>
    obtain ⟨pair, -, rfl⟩ := List.mem_map.mp hp
    rfl
  | _ =>
    obtain rfl := List.mem_singleton.mp hp
    exact h

variable [BEq K] [EquivBEq K] {c d : Cache K V} {m n : RecencyMode} {now : Instant}

theorem Coherent.perform_included (hc : c.Coherent) (hd : d.Coherent)
    (h : Included m n c.reference d.reference) {command : Command K V}
    (single : ∀ pairs, command ≠ .insertAll pairs) (hk : command.inclusive m n = true)
    {o p : Outcome K V (Answer K V)} (ho : c.perform now command = .ok o)
    (hp : d.perform now command = .ok p) : Included m n o.cache.reference p.cache.reference := by
  cases command with
  | insert key value =>
    rw [hc.perform_reference ho, hd.perform_reference hp]
    exact h.insert hc.proper hd.proper now key value
  | insertAll pairs => exact absurd rfl (single pairs)
  | erase key =>
    rw [hc.perform_reference ho, hd.perform_reference hp]
    exact h.erase hd.proper key
  | popFront =>
    rw [hc.perform_reference ho, hd.perform_reference hp]
    exact h.popFront
  | clear =>
    rw [hc.perform_reference ho, hd.perform_reference hp]
    exact h.clear
  | lookupMut key update =>
    obtain ⟨rfl, rfl⟩ : m = .onInsert ∧ n = .onInsert := by simpa [Command.inclusive] using hk
    rw [hc.perform_reference ho, hd.perform_reference hp]
    exact h.lookupMut now key update
  | getOrInsert key make => cases hk
  | touch key => cases hk
  | eraseAt g => cases hk
  | setCapacity capacity => cases hk
  | purgeExpired => cases hk
  | _ => rwa [hc.perform_reads ho rfl, hd.perform_reads hp rfl]

theorem Coherent.run_included (hc : c.Coherent) (hd : d.Coherent)
    (h : Included m n c.reference d.reference) (steps : List (Instant × Command K V))
    (single : ∀ step ∈ steps, ∀ pairs, step.2 ≠ .insertAll pairs)
    (hk : ∀ step ∈ steps, step.2.inclusive m n = true) :
    ∃ o p, c.run steps = .ok o ∧ d.run steps = .ok p ∧
      Included m n o.cache.reference p.cache.reference := by
  induction steps generalizing c d with
  | nil => exact ⟨_, _, rfl, rfl, h⟩
  | cons step rest ih =>
    obtain ⟨now, command⟩ := step
    obtain ⟨first, hfirst, hc', -⟩ := hc.perform now command
    obtain ⟨first', hfirst', hd', -⟩ := hd.perform now command
    have hi := hc.perform_included hd h (single _ List.mem_cons_self) (hk _ List.mem_cons_self)
      hfirst hfirst'
    obtain ⟨o, p, ho, hp, hincluded⟩ := ih hc' hd' hi
      (fun step hs => single step (List.mem_cons_of_mem _ hs))
      fun step hs => hk step (List.mem_cons_of_mem _ hs)
    exact ⟨_, _, run_cons hfirst ho, run_cons hfirst' hp, hincluded⟩

theorem Coherent.contains_included (hc : c.Coherent) (hd : d.Coherent)
    (h : Included m n c.reference d.reference) (now : Instant) (key : K)
    (hit : (c.contains now key).result = true) : (d.contains now key).result = true := by
  have proper := hd.proper
  obtain ⟨items, free, hc⟩ := hc
  obtain ⟨items', free', hd⟩ := hd
  rw [(hc.contains_simulates now key).result, Reference.contains] at hit
  obtain ⟨a, ha⟩ := Option.isSome_iff_exists.mp hit
  obtain ⟨b, hb, -⟩ := h.liveEntry proper ha
  rw [(hd.contains_simulates now key).result, Reference.contains, hb]
  rfl

theorem Coherent.lookup_included (hc : c.Coherent) (hd : d.Coherent)
    (h : Included m n c.reference d.reference) (now : Instant) (key : K) {value : V}
    (hit : (c.lookup now key).result = .ok value) : (d.lookup now key).result = .ok value := by
  have proper := hd.proper
  obtain ⟨items, free, hc⟩ := hc
  obtain ⟨items', free', hd⟩ := hd
  rw [(hc.lookup_simulates now key).result, Reference.lookup] at hit
  cases ha : c.reference.liveEntry now key with
  | none => simp [ha] at hit
  | some a =>
    obtain ⟨b, hb, -, hv⟩ := h.liveEntry proper ha
    simp only [ha] at hit
    rw [(hd.lookup_simulates now key).result, Reference.lookup, hb, ← hit]
    exact congrArg Except.ok hv.symm

/-- A larger plain cache never does worse. After whatever requests, the entries of the smaller one
agree with the most recent ones of the larger one, which finds what the smaller one finds. -/
theorem run_within (id id' : UInt64) {capacity capacity' : Nat} (hcap : capacity ≤ capacity')
    (m n : RecencyMode) (steps : List (Instant × Command K V))
    (hk : ∀ step ∈ steps, step.2.inclusive m n = true) :
    ∃ o p, (start id capacity .capacity m : Cache K V).run steps = .ok o ∧
      (start id' capacity' .capacity n : Cache K V).run steps = .ok p ∧
      Within o.cache.entries p.cache.entries ∧
      ∀ now key,
        ((o.cache.contains now key).result = true → (p.cache.contains now key).result = true) ∧
        ∀ value, (o.cache.lookup now key).result = .ok value →
          (p.cache.lookup now key).result = .ok value := by
  have hc : (start id capacity .capacity m : Cache K V).Coherent := coherent_start ..
  have hd : (start id' capacity' .capacity n : Cache K V).Coherent := coherent_start ..
  have first : Included m n (start id capacity .capacity m : Cache K V).reference
      (start id' capacity' .capacity n : Cache K V).reference :=
    ⟨within_nil _, hcap, rfl, rfl⟩
  -- Taken apart, the requests leave the same two caches.
  obtain ⟨o', p', ho', hp', hincluded⟩ := hc.run_included hd first (singly steps)
    (single_of_mem_singly steps)
    (forall_mem_singly fun step hs _ hp => Command.inclusive_part (hk step hs) hp)
  obtain ⟨o, ho, hcache⟩ := run_of_singly ho'
  obtain ⟨p, hp, hcache'⟩ := run_of_singly hp'
  rw [← hcache, ← hcache'] at hincluded
  have hco := hc.of_run ho
  have hcp := hd.of_run hp
  refine ⟨o, p, ho, hp, hincluded.within, fun now key => ⟨?_, fun value => ?_⟩⟩
  · exact hco.contains_included hcp hincluded now key
  · exact hco.lookup_included hcp hincluded now key

/-- The larger cache still holds the entry that the smaller one evicted, and finds the value that
was written in both. -/
theorem run_within_evicted : EquivBEq Nat ∧ 1 ≤ 2 ∧ ∃ o p,
    (start 0 1 .capacity .onInsert : Cache Nat Nat).run
      [(0, .insert 1 10), (0, .insert 2 20), (0, .lookupMut 2 (· + 1))] = .ok o ∧
    (start 1 2 .capacity .onInsert : Cache Nat Nat).run
      [(0, .insert 1 10), (0, .insert 2 20), (0, .lookupMut 2 (· + 1))] = .ok p ∧
    Within o.cache.entries p.cache.entries ∧
    o.cache.entries = [⟨2, 21, 0⟩] ∧ p.cache.entries = [⟨1, 10, 0⟩, ⟨2, 21, 0⟩] ∧
    (p.cache.lookup 0 2).result = .ok 21 := by
  obtain ⟨o, p, ho, hp, hwithin, hfinds⟩ := run_within 0 1 (by decide : 1 ≤ 2) .onInsert .onInsert
    [(0, .insert 1 10), (0, .insert 2 20), (0, .lookupMut 2 (· + 1))] (by decide)
  have hview : ((start 0 1 .capacity .onInsert : Cache Nat Nat).run
      [(0, .insert 1 10), (0, .insert 2 20), (0, .lookupMut 2 (· + 1))]).map
        (fun o => (o.cache.entries, (o.cache.lookup 0 2).result)) =
      .ok ([⟨2, 21, 0⟩], .ok 21) := by rfl
  have hview' : ((start 1 2 .capacity .onInsert : Cache Nat Nat).run
      [(0, .insert 1 10), (0, .insert 2 20), (0, .lookupMut 2 (· + 1))]).map
        (fun p => p.cache.entries) = .ok [⟨1, 10, 0⟩, ⟨2, 21, 0⟩] := by rfl
  rw [ho] at hview
  rw [hp] at hview'
  obtain ⟨hentries, hlookup⟩ := Prod.mk.inj (Except.ok.inj hview)
  exact ⟨inferInstance, by decide, o, p, ho, hp, hwithin, hentries, Except.ok.inj hview',
    (hfinds 0 2).2 21 hlookup⟩

-- Touching promotes the entry of the larger cache alone, and then the most recent keys differ.
example :
    ((start 0 1 .capacity .onInsert : Cache Nat Nat).run
      [(0, .insert 1 10), (0, .insert 2 20), (0, .touch 1)]).map
        (fun o => o.cache.entries.map Entry.key) = .ok [2] ∧
    ((start 1 2 .capacity .onInsert : Cache Nat Nat).run
      [(0, .insert 1 10), (0, .insert 2 20), (0, .touch 1)]).map
        (fun p => p.cache.entries.map Entry.key) = .ok [2, 1] :=
  ⟨rfl, rfl⟩

end Lru.Cache
