import Lru.Proofs.History.Expiry
import Mathlib.Data.List.TFAE

/-! # Verdicts on a key

Whether a stored key is live or has expired is told by every access to it, by
the question for its expiry, and by what is left of its time to live. At one
reading they all tell the same, and they tell it again after any of them: an
access stamps live entries alone, and a newly stamped entry is live.
-/

namespace Lru

namespace Reference

variable {K V : Type} [BEq K] {r : Reference K V} {key : K} {now : Instant} {ttl : Duration}

theorem lookup_result (r : Reference K V) (now : Instant) (key : K) : (r.lookup now key).result =
    (r.liveEntry now key).elim (.error .keyNotFound) fun entry => .ok entry.value := by
  unfold lookup
  cases r.liveEntry now key <;> rfl

theorem lookupMut_result (r : Reference K V) (now : Instant) (key : K) (update : V → V) :
    (r.lookupMut now key update).result =
      (r.liveEntry now key).elim (.error .keyNotFound) fun entry => .ok entry.value := by
  unfold lookupMut
  cases r.liveEntry now key <;> rfl

theorem touch_result (r : Reference K V) (now : Instant) (key : K) :
    (r.touch now key).result = (r.liveEntry now key).isSome := by
  unfold touch
  cases r.liveEntry now key <;> rfl

theorem stores_eq_isSome (key : K) (entries : List (Entry K V)) :
    stores key entries = (stampOf key entries).isSome := by
  rw [Bool.eq_iff_iff, stampOf, Option.isSome_map, List.find?_isSome]
  simp [stores]

theorem isExpired_eq_stampOf (hr : r.policy = .timeToLive ttl) : r.isExpired now key =
    (stampOf key r.entries).elim (.error .keyNotFound)
      fun stamp => .ok (!decide (now - stamp < ttl)) := by
  rw [stampOf_entries, isExpired, hr]
  cases r.entryOf key <;> rfl

theorem remainingTtl_eq_stampOf (hr : r.policy = .timeToLive ttl) : r.remainingTtl now key =
    (stampOf key r.entries).elim (.error .keyNotFound)
      fun stamp => .ok (some (ttl - (now - stamp))) := by
  rw [stampOf_entries, remainingTtl, hr]
  cases r.entryOf key <;> rfl

end Reference

namespace Cache

variable {K V : Type} [BEq K]

open Reference (stampOf stores)

/-- What is told of a key that is not stored. -/
structure Unknown (c : Cache K V) (now : Instant) (key : K) : Prop where
  isExpired : c.isExpired now key = .error .keyNotFound
  remainingTtl : c.remainingTtl now key = .error .keyNotFound
  contains : (c.contains now key).result = false
  find : (c.find now key).result.isEnd = true
  lookup : (c.lookup now key).result = .error .keyNotFound
  lookupMut : ∀ update, (c.lookupMut now key update).result = .error .keyNotFound
  touch : (c.touch now key).result = false

/-- What is told of a stored key, by the stamp of its entry and the time to live. -/
structure Verdict (c : Cache K V) (ttl : Duration) (now : Instant) (key : K) (stamp : Instant) :
    Prop where
  agree : ∀ (update : V → V) (make : K → V), List.TFAE [
    (c.contains now key).result = true,
    ∃ v, (c.lookup now key).result = .ok v,
    ∃ v, (c.lookupMut now key update).result = .ok v,
    (c.find now key).result.isEnd = false,
    (c.touch now key).result = true,
    ∃ o, c.getOrInsert now key make = .ok o ∧ o.notices.filterMap Notice.made? = [],
    c.isExpired now key = .ok false,
    ∃ left, c.remainingTtl now key = .ok (some left) ∧ 0 < left]
  remaining : c.remainingTtl now key = .ok (some (ttl - (now - stamp)))
  expired : (c.contains now key).result = false →
    c.isExpired now key = .ok true ∧ c.remainingTtl now key = .ok (some 0)

/-- Whether a request observes a key without storing one. A request to find or to make a value is
such a one where the key is found. -/
def Observes (c : Cache K V) (now : Instant) : Command K V → Prop
  | .contains _ | .lookup _ | .lookupMut _ _ | .touch _ => True
  | .isExpired _ | .remainingTtl _ | .cursor (.find _) _ => True
  | .getOrInsert key _ => (c.contains now key).result = true
  | _ => False

/-- At a reading `d` has the same keys stored and live as `c`. -/
structure SameVerdicts (c d : Cache K V) (now : Instant) : Prop where
  stored : ∀ key, stores key d.entries = stores key c.entries
  live : ∀ key, (d.contains now key).result = (c.contains now key).result

variable [EquivBEq K] {c d : Cache K V} {items : List (SlotId × Entry K V)} {free : List SlotId}
  {key : K} {now stamp : Instant} {ttl : Duration}

section Results

theorem Holds.contains_result (h : c.Holds items free) :
    (c.contains now key).result = (c.reference.liveEntry now key).isSome :=
  (h.contains_simulates now key).result

theorem Holds.lookup_result (h : c.Holds items free) : (c.lookup now key).result =
    (c.reference.liveEntry now key).elim (.error .keyNotFound) fun entry => .ok entry.value :=
  (h.lookup_simulates now key).result.trans (c.reference.lookup_result now key)

theorem Holds.lookupMut_result (h : c.Holds items free) (update : V → V) :
    (c.lookupMut now key update).result =
      (c.reference.liveEntry now key).elim (.error .keyNotFound) fun entry => .ok entry.value :=
  (h.lookupMut_simulates now key update).result.trans
    (c.reference.lookupMut_result now key update)

theorem Holds.find_isEnd (h : c.Holds items free) :
    (c.find now key).result.isEnd = (c.reference.liveEntry now key).isNone := by
  cases h.resolution now key with
  | miss memo resolved remembers dead =>
    rw [find, resolved, dead]
    rfl
  | hit p id entry s split same resolved live silent =>
    rw [find, resolved, live]
    rfl

theorem Holds.touch_result (h : c.Holds items free) :
    (c.touch now key).result = (c.reference.liveEntry now key).isSome :=
  (h.touch_simulates now key).result.trans (c.reference.touch_result now key)

theorem Holds.getOrInsert_made (h : c.Holds items free) (now : Instant) (key : K) (make : K → V) :
    ∃ o, c.getOrInsert now key make = .ok o ∧ o.notices.filterMap Notice.made? =
      if (c.reference.liveEntry now key).isSome then [] else [key] := by
  obtain ⟨o, ho, hs⟩ := h.getOrInsert_simulates now key make
  exact ⟨o, ho, hs.notices ▸ c.reference.made_getOrInsert now key make⟩

theorem Holds.isExpired_result (h : c.Holds items free) (hp : c.policy = .timeToLive ttl) :
    c.isExpired now key = (stampOf key c.entries).elim (.error .keyNotFound)
      fun stamp => .ok (!decide (now - stamp < ttl)) :=
  (h.isExpired_eq now key).trans (Reference.isExpired_eq_stampOf hp)

theorem Holds.remainingTtl_result (h : c.Holds items free) (hp : c.policy = .timeToLive ttl) :
    c.remainingTtl now key = (stampOf key c.entries).elim (.error .keyNotFound)
      fun stamp => .ok (some (ttl - (now - stamp))) :=
  (h.remainingTtl_eq now key).trans (Reference.remainingTtl_eq_stampOf hp)

end Results

section Verdicts

omit [EquivBEq K] in
theorem liveEntry_iff (hp : c.policy = .timeToLive ttl) (hs : stampOf key c.entries = some stamp)
    (now : Instant) : (c.reference.liveEntry now key).isSome = true ↔ now - stamp < ttl := by
  have hpol : c.reference.policy = .timeToLive ttl := hp
  have hstamp : stampOf key c.reference.entries = some stamp := hs
  rw [Reference.liveEntry_isSome_iff hpol, hstamp]
  simp [Instant.since]

theorem Holds.verdict (h : c.Holds items free) (hp : c.policy = .timeToLive ttl)
    (hs : stampOf key c.entries = some stamp) : c.Verdict ttl now key stamp := by
  have hlive := liveEntry_iff hp hs now
  have hexp : c.isExpired now key = .ok (!decide (now - stamp < ttl)) := by
    rw [h.isExpired_result hp, hs]
    rfl
  have hrem : c.remainingTtl now key = .ok (some (ttl - (now - stamp))) := by
    rw [h.remainingTtl_result hp, hs]
    rfl
  have hfound : (∃ v, (c.reference.liveEntry now key).elim (Except.error CacheError.keyNotFound)
      (fun entry => .ok entry.value) = .ok v) ↔ (c.reference.liveEntry now key).isSome = true := by
    cases c.reference.liveEntry now key <;> simp
  refine ⟨fun update make => ?_, hrem, ?_⟩
  · apply List.tfae_of_forall ((c.reference.liveEntry now key).isSome = true)
    simp only [List.forall_mem_cons]
    refine ⟨?_, ?_, ?_, ?_, ?_, ?_, ?_, ?_, nofun⟩
    · rw [h.contains_result]
    · rw [h.lookup_result, hfound]
    · rw [h.lookupMut_result, hfound]
    · rw [h.find_isEnd, Option.isNone_eq_false_iff]
    · rw [h.touch_result]
    · obtain ⟨o, ho, hmade⟩ := h.getOrInsert_made now key make
      simp only [ho, Except.ok.injEq, exists_eq_left', hmade]
      cases (c.reference.liveEntry now key).isSome <;> simp
    · rw [hexp, hlive]
      simp
    · rw [hrem, hlive]
      simp only [Except.ok.injEq, Option.some.injEq, exists_eq_left', Nat.sub_pos_iff_lt]
  · intro hc
    rw [h.contains_result] at hc
    have hdead : ¬ now - stamp < ttl := by
      rw [← hlive, hc]
      decide
    rw [hexp, hrem, Nat.sub_eq_zero_of_le (Nat.le_of_not_lt hdead)]
    simp [hdead]

theorem Holds.unknown (h : c.Holds items free) (hp : c.policy = .timeToLive ttl)
    (hs : stampOf key c.entries = none) : c.Unknown now key := by
  have hpol : c.reference.policy = .timeToLive ttl := hp
  have hstamp : stampOf key c.reference.entries = none := hs
  have hlive : c.reference.liveEntry now key = none :=
    Reference.liveEntry_eq_none hpol fun stamp hm => by rw [hstamp] at hm; cases hm
  constructor
  · rw [h.isExpired_result hp, hs, Option.elim_none]
  · rw [h.remainingTtl_result hp, hs, Option.elim_none]
  · rw [h.contains_result, hlive, Option.isSome_none]
  · rw [h.find_isEnd, hlive, Option.isNone_none]
  · rw [h.lookup_result, hlive, Option.elim_none]
  · intro update
    rw [h.lookupMut_result, hlive, Option.elim_none]
  · rw [h.touch_result, hlive, Option.isSome_none]

end Verdicts

end Cache

namespace Deed

variable {K V : Type} [BEq K] [EquivBEq K] {d : Deed K V} {key : K} {ttl : Duration}

open Cache Reference

theorem Sound.removes_of_observes (h : d.Sound) (ho : d.before.Observes d.now d.command) (key : K) :
    d.removes key = false := by
  have hr := h.removes_eq key
  obtain ⟨c, now, command, o⟩ := d
  obtain ⟨hc, performed, -⟩ := h
  have distinct : Distinct c.reference.entries := hc.proper.distinct
  obtain ⟨items, free, h⟩ := hc
  change c.perform now command = .ok o at performed
  cases command with
  | getOrInsert k make =>
    obtain ⟨o, hok, rfl⟩ := exists_of_map_eq_ok performed
    have hs := simulates_of_ok (h.getOrInsert_simulates now k make) hok
    have hlive : (c.reference.liveEntry now k).isSome = true := h.contains_result ▸ ho
    obtain ⟨entry, hl⟩ := Option.isSome_iff_exists.mp hlive
    have hstores : stores key o.cache.entries = stores key c.entries := by
      rw [hs.entries, Reference.getOrInsert, hl]
      exact distinct.stores_promoteOnAccess (entryOf_of_liveEntry hl) now
    exact hr.trans (by simp [Deed.after, Outcome.map, hstores])
  | cursor start moves => rfl
  | contains _ | lookup _ | lookupMut _ _ | touch _ | isExpired _ | remainingTtl _ => rfl
  | _ => cases ho

theorem Sound.live_of_promotes (h : d.Sound) (ho : d.before.Observes d.now d.command)
    (hp : d.promotes key = true) :
    (d.before.reference.liveEntry d.now key).isSome = true := by
  obtain ⟨k, hpromoted, hkey⟩ := promotes_eq_true_iff.mp hp
  rw [liveEntry_congr hkey]
  rcases accessed_or_written_of_promoted? hpromoted with ha | hw
  · refine Option.isSome_iff_ne_none.mpr fun hl => ?_
    have hf := promoted?_of_fails (h.fails ha hl).1
    simp [hf] at hpromoted
  · obtain ⟨c, now, command, o⟩ := d
    obtain ⟨⟨items, free, h⟩, -, -⟩ := h
    cases command with
    | getOrInsert k' make =>
      cases hw
      exact h.contains_result ▸ ho
    | insert k' value => cases ho
    | _ => cases hw

theorem Sound.stampOf_of_observes (h : d.Sound) (ho : d.before.Observes d.now d.command) (key : K) :
    stampOf key d.after.entries =
      if d.promotes key then some d.now else stampOf key d.before.entries := by
  rw [h.stampOf_after, h.removes_of_observes ho, if_neg Bool.false_ne_true]

/-- Observing a key changes no verdict: a key that it stamps was live, and stays so. -/
theorem Sound.sameVerdicts (h : d.Sound) (hp : d.before.policy = .timeToLive ttl)
    (ho : d.before.Observes d.now d.command) : d.before.SameVerdicts d.after d.now := by
  have hp' : d.before.reference.policy = .timeToLive ttl := hp
  have hpa : d.after.reference.policy = .timeToLive ttl := (congrArg Prod.fst h.rules).trans hp
  obtain ⟨items, free, hb⟩ := h.coherent
  obtain ⟨items', free', ha⟩ := h.coherent_after
  have hstamped : ∀ key, d.promotes key = true → ∃ stamp,
      stampOf key d.before.entries = some stamp ∧ Instant.since d.now stamp < ttl :=
    fun key hk => (liveEntry_isSome_iff hp').mp (h.live_of_promotes ho hk)
  constructor
  · intro key
    rw [stores_eq_isSome, stores_eq_isSome, h.stampOf_of_observes ho]
    split
    · next hk =>
      obtain ⟨stamp, hs, -⟩ := hstamped key hk
      rw [hs]
      rfl
    · rfl
  · intro key
    rw [ha.contains_result, hb.contains_result, Bool.eq_iff_iff, liveEntry_isSome_iff hpa,
      liveEntry_isSome_iff hp']
    change (∃ stamp, stampOf key d.after.entries = some stamp ∧ _) ↔
      ∃ stamp, stampOf key d.before.entries = some stamp ∧ _
    rw [h.stampOf_of_observes ho]
    split
    · next hk =>
      obtain ⟨stamp, hs, hlt⟩ := hstamped key hk
      refine iff_of_true ⟨d.now, rfl, ?_⟩ ⟨stamp, hs, hlt⟩
      rw [Instant.since, Nat.sub_self]
      exact Nat.zero_lt_of_lt hlt
    · rfl

end Deed

namespace Cache

open Reference (stores stampOf_eq_none_iff)

variable {K V : Type} [BEq K] [EquivBEq K] {c d e : Cache K V} {now : Instant} {ttl : Duration}

omit [EquivBEq K] in
theorem SameVerdicts.trans (h : c.SameVerdicts d now) (h' : d.SameVerdicts e now) :
    c.SameVerdicts e now :=
  ⟨fun key => (h'.stored key).trans (h.stored key), fun key => (h'.live key).trans (h.live key)⟩

omit [EquivBEq K] in
theorem SameVerdicts.observes (h : c.SameVerdicts d now) {command : Command K V}
    (ho : c.Observes now command) : d.Observes now command := by
  cases command with
  | getOrInsert key make => exact (h.live key).trans ho
  | cursor start moves => cases start <;> exact ho
  | _ => exact ho

/-- Observing keys in any order changes no verdict, and reading changes no stamp. -/
theorem Coherent.observing (h : c.Coherent) (hp : c.policy = .timeToLive ttl)
    {calls : List (Command K V)} (ho : ∀ call ∈ calls, c.Observes now call) :
    ∃ o, c.run (calls.map (now, ·)) = .ok o ∧ o.cache.Coherent ∧
      o.cache.policy = .timeToLive ttl ∧ c.SameVerdicts o.cache now ∧
      ((∀ call ∈ calls, call.reads = true) → o.cache.entries = c.entries) := by
  induction calls generalizing c with
  | nil => exact ⟨_, rfl, h, hp, ⟨fun _ => rfl, fun _ => rfl⟩, fun _ => rfl⟩
  | cons call calls ih =>
    obtain ⟨first, hfirst, hc, -⟩ := h.perform now call
    obtain ⟨hcall, hcalls⟩ := List.forall_mem_cons.mp ho
    have hsound : Deed.Sound ⟨c, now, call, first⟩ := by
      refine ⟨h, hfirst, ?_⟩
      rintro pairs rfl
      exact hcall
    have hsame : c.SameVerdicts first.cache now := hsound.sameVerdicts hp hcall
    have hpol : first.cache.policy = .timeToLive ttl := (congrArg Prod.fst hsound.rules).trans hp
    obtain ⟨others, hothers, hco, hpo, hso, hreads⟩ :=
      ih hc hpol fun call hm => hsame.observes (hcalls call hm)
    refine ⟨_, run_cons hfirst hothers, hco, hpo, hsame.trans hso, ?_⟩
    intro hr
    obtain ⟨hcall, hcalls⟩ := List.forall_mem_cons.mp hr
    exact (hreads hcalls).trans (h.entries_of_reads hfirst hcall)

/-- In a cache with a time to live all observers of a key agree at a reading, and they agree on the
same after any of them were called, in whatever order. Until an access stamps it anew, a live key
also keeps what is left of its time to live. -/
theorem run_verdicts (id : UInt64) (capacity : Nat) (ttl : Duration) (mode : RecencyMode)
    (steps : List (Instant × Command K V)) :
    ∃ o, (start id capacity (.timeToLive ttl) mode : Cache K V).run steps = .ok o ∧
      ∀ (now : Instant) (calls : List (Command K V)),
        (∀ call ∈ calls, o.cache.Observes now call) →
      ∃ o', o.cache.run (calls.map (now, ·)) = .ok o' ∧ o.cache.SameVerdicts o'.cache now ∧
        ((∀ call ∈ calls, call.reads = true) → ∀ key,
          o'.cache.remainingTtl now key = o.cache.remainingTtl now key) ∧
        ∀ key, (stores key o'.cache.entries = false → o'.cache.Unknown now key) ∧
          ∀ e ∈ o'.cache.entries, (key == e.key) = true →
            o'.cache.Verdict ttl now key e.stamp := by
  have hstart : (start id capacity (.timeToLive ttl) mode : Cache K V).Coherent :=
    coherent_start ..
  obtain ⟨o, ho, hrules, -⟩ := hstart.history_induction steps
    (I := fun _ c => c.reference.rules = (.timeToLive ttl, mode)) rfl
    fun past d hd _ hI => hd.rules.trans hI
  have hc := hstart.of_run ho
  have hp : o.cache.policy = .timeToLive ttl := congrArg Prod.fst hrules
  have ⟨items, free, h⟩ := hc
  refine ⟨o, ho, fun now calls hcalls => ?_⟩
  obtain ⟨o', ho', hc', hp', hsame, hreads⟩ := hc.observing hp hcalls
  have distinct : Reference.Distinct o'.cache.entries := hc'.proper.distinct
  obtain ⟨items', free', h'⟩ := hc'
  refine ⟨o', ho', hsame, ?_, fun key => ⟨?_, ?_⟩⟩
  · intro hr key
    rw [h'.remainingTtl_result hp', h.remainingTtl_result hp, hreads hr]
  · intro hs
    exact h'.unknown hp' (stampOf_eq_none_iff.mpr hs)
  · intro e he hk
    exact h'.verdict hp' (distinct.stampOf_of_mem he hk)

/-- Of two keys one has expired just now and stays so, whatever is asked of the other, which is
stamped anew in between. -/
theorem run_verdicts_stamped : EquivBEq Nat ∧ ∃ o o',
    (start 0 2 (.timeToLive 5) .onAccess : Cache Nat Nat).run
      [(0, .insert 1 10), (3, .insert 2 20)] = .ok o ∧
    o.cache.run [(5, .contains 1), (5, .lookupMut 2 (· + 1)), (5, .getOrInsert 2 fun _ => 0)] =
      .ok o' ∧
    o.cache.SameVerdicts o'.cache 5 ∧ o'.cache.Verdict 5 5 1 0 ∧ o'.cache.Verdict 5 5 2 5 ∧
    o'.cache.Unknown 5 3 := by
  obtain ⟨o, ho, h⟩ := run_verdicts (K := Nat) (V := Nat) 0 2 5 .onAccess
    [(0, .insert 1 10), (3, .insert 2 20)]
  have hcalls : ∀ call ∈ [Command.contains 1, .lookupMut 2 (· + 1), .getOrInsert 2 fun _ => 0],
      o.cache.Observes 5 call := by
    simp only [List.forall_mem_cons]
    refine ⟨trivial, trivial, ?_, nofun⟩
    cases ho
    rfl
  obtain ⟨o', ho', hsame, -, hkeys⟩ := h 5 _ hcalls
  have hrun : o.cache.run [(5, .contains 1), (5, .lookupMut 2 (· + 1)),
      (5, .getOrInsert 2 fun _ => 0)] = .ok o' := ho'
  have hview : (o.cache.run [(5, .contains 1), (5, .lookupMut 2 (· + 1)),
      (5, .getOrInsert 2 fun _ => 0)]).map (fun o => o.cache.entries) =
        .ok [⟨1, 10, 0⟩, ⟨2, 21, 5⟩] := by
    cases ho
    rfl
  rw [hrun] at hview
  have hentries : o'.cache.entries = [⟨1, 10, 0⟩, ⟨2, 21, 5⟩] := Except.ok.inj hview
  refine ⟨inferInstance, o, o', ho, hrun, hsame, ?_, ?_, ?_⟩
  · exact (hkeys 1).2 ⟨1, 10, 0⟩ (by simp [hentries]) rfl
  · exact (hkeys 2).2 ⟨2, 21, 5⟩ (by simp [hentries]) rfl
  · exact (hkeys 3).1 (by rw [hentries]; rfl)

end Cache

end Lru
