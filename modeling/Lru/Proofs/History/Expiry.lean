import Lru.Proofs.History.Effects

/-! # Expiry and history

An entry bears the reading of the last operation that stamped its key, if none
has removed the key since. So the history tells which keys are present at a
reading. From then on an expired key stays absent until it is written again:
accesses to it fail and change no entry.
-/

namespace Lru

namespace Reference

variable {K V : Type} [BEq K] {before after : List (Entry K V)} {entry : Entry K V} {key : K}
  {now stamp : Instant} {r : Reference K V}

/-- The stamp of the entry of `key`. -/
def stampOf (key : K) (entries : List (Entry K V)) : Option Instant :=
  (entries.find? fun e => key == e.key).map Entry.stamp

theorem stampOf_eq_none_iff : stampOf key before = none ↔ stores key before = false := by
  simp [stampOf, stores]

theorem exists_of_stampOf (h : stampOf key before = some stamp) :
    ∃ e ∈ before, key == e.key ∧ e.stamp = stamp := by
  obtain ⟨e, he, rfl⟩ := Option.map_eq_some_iff.mp h
  have hk : (key == e.key) = true := List.find?_some (p := fun e : Entry K V => key == e.key) he
  exact ⟨e, List.mem_of_find?_eq_some he, hk, rfl⟩

theorem stampOf_entries (r : Reference K V) (key : K) :
    stampOf key r.entries = (r.entryOf key).map Entry.stamp :=
  rfl

theorem stampOf_concat_of_missing (h : Missing key before) (hk : key == entry.key) :
    stampOf key (before ++ [entry]) = some entry.stamp := by
  simp [stampOf, find?_of_missing h, hk]

theorem liveEntry_isSome_iff {ttl : Duration} (hr : r.policy = .timeToLive ttl) :
    (r.liveEntry now key).isSome = true ↔
      ∃ stamp, stampOf key r.entries = some stamp ∧ Instant.since now stamp < ttl := by
  rw [stampOf_entries, liveEntry, hr]
  cases r.entryOf key with
  | none => simp
  | some entry => simp [Policy.isLive, Option.isSome_filter]

theorem liveEntry_eq_none {ttl : Duration} (hr : r.policy = .timeToLive ttl)
    (h : ∀ stamp ∈ stampOf key r.entries, ttl ≤ Instant.since now stamp) :
    r.liveEntry now key = none := by
  refine Option.not_isSome_iff_eq_none.mp fun hs => ?_
  obtain ⟨stamp, hstamp, hlt⟩ := (liveEntry_isSome_iff hr).mp hs
  exact Nat.not_lt.mpr (h stamp hstamp) hlt

theorem dead_of_isExpired {ttl : Duration} (hr : r.policy = .timeToLive ttl)
    (h : r.isExpired now key = .ok true) :
    ∀ stamp ∈ stampOf key r.entries, ttl ≤ Instant.since now stamp := by
  intro stamp hs
  rw [stampOf_entries] at hs
  obtain ⟨entry, he, rfl⟩ := Option.map_eq_some_iff.mp hs
  simpa [isExpired, he, hr, Policy.isLive] using h

variable [PartialEquivBEq K]

theorem entryOf_congr {k : K} (h : key == k) : r.entryOf key = r.entryOf k := by
  simp only [entryOf, BEq.congr_left h]

theorem liveEntry_congr {k : K} (h : key == k) : r.liveEntry now key = r.liveEntry now k := by
  rw [liveEntry, entryOf_congr h, liveEntry]

theorem Distinct.stampOf_of_mem (h : Distinct before) (he : entry ∈ before)
    (hk : key == entry.key) : stampOf key before = some entry.stamp := by
  obtain ⟨p, s, rfl⟩ := List.append_of_mem he
  have hp := (missing_append.mp (h.missing hk)).1
  simp [stampOf, find?_of_missing hp, hk]

theorem Effect.stamp_kept {key? : Option K} (h : Effect now before key? after)
    (hn : key?.any (key == ·) = false) (he : entry ∈ after) (hk : key == entry.key) :
    ∃ e ∈ before, key == e.key ∧ e.stamp = entry.stamp := by
  cases h with
  | kept sub =>
    obtain ⟨e, hb, hd⟩ := List.mem_map.mp (sub.subset (List.mem_map_of_mem he))
    obtain ⟨hkey, hstamp⟩ := Prod.mk.inj hd
    exact ⟨e, hb, hkey ▸ hk, hstamp⟩
  | promoted k others last sub missing same stamped =>
    rcases List.mem_append.mp he with ho | hl
    · exact ⟨entry, sub.subset ho, hk, rfl⟩
    · obtain rfl := List.mem_singleton.mp hl
      have hkk : key == k := BEq.trans hk (BEq.symm same)
      simp [hkk] at hn

theorem Effect.stamp_new {k : K} (h : Effect now before (some k) after) (hk : key == k) :
    stampOf key after = some now := by
  cases h with
  | promoted k others last sub missing same stamped =>
    have hm : Missing key others := fun e he => by rw [BEq.congr_left hk, missing e he]
    rw [stampOf_concat_of_missing hm (BEq.trans hk same), stamped]

end Reference

namespace Cache

variable {K V : Type}

/-- The key that a request looks for among the live entries, without inserting it. -/
def Command.accessed? : Command K V → Option K
  | .contains key | .lookup key | .lookupMut key _ | .touch key => some key
  | .cursor (.find key) _ => some key
  | _ => none

/-- The key that a request stores. -/
def Command.written? : Command K V → Option K
  | .insert key _ | .getOrInsert key _ => some key
  | _ => none

end Cache

namespace Deed

variable {K V : Type} [BEq K]

def accesses (d : Deed K V) (key : K) : Bool :=
  d.command.accessed?.any (key == ·)

def writes (d : Deed K V) (key : K) : Bool :=
  d.command.written?.any (key == ·)

/-- An access finds no entry; a cursor that looks for a key starts past the end. -/
def Fails (d : Deed K V) : Prop :=
  match d.command with
  | .contains _ | .touch _ => d.outcome.result = .flag false
  | .lookup _ | .lookupMut _ _ => d.outcome.result = .valueOr (.error .keyNotFound)
  | .cursor (.find _) moves =>
    d.outcome.result = .walked (.ok (d.after.walkCursor d.after.unorderedEnd moves))
  | _ => False

variable {d : Deed K V} {key : K}

open Cache Reference

omit [BEq K] in
theorem promoted?_of_fails (h : d.Fails) : d.promoted? = none := by
  obtain ⟨c, now, command, o⟩ := d
  cases command with
  | touch k => simp only [promoted?, show o.result = .flag false from h]
  | lookupMut k update =>
    simp only [promoted?, show o.result = .valueOr (.error .keyNotFound) from h]
  | contains k => rfl
  | lookup k => rfl
  | cursor start moves => rfl
  | _ => cases h

theorem promotes_eq_true_iff :
    d.promotes key = true ↔ ∃ k, d.promoted? = some k ∧ key == k := by
  rw [promotes]
  cases d.promoted? <;> simp

omit [BEq K] in
theorem accessed_or_written_of_promoted? (h : d.promoted? = some key) :
    d.command.accessed? = some key ∨ d.command.written? = some key := by
  obtain ⟨c, now, command, o⟩ := d
  cases command with
  | insert k value =>
    simp only [promoted?] at h
    split at h <;> simp_all [Command.written?]
  | getOrInsert k make =>
    simp only [promoted?] at h
    split at h <;> simp_all [Command.written?]
  | lookupMut k update =>
    simp only [promoted?] at h
    split at h <;> simp_all [Command.accessed?]
  | touch k =>
    simp only [promoted?] at h
    split at h <;> simp_all [Command.accessed?]
  | _ => cases h

variable [EquivBEq K]

/-- Which operations stamp a key and which remove it; all others leave its stamp. -/
theorem Sound.stampOf_after (h : d.Sound) (key : K) :
    stampOf key d.after.entries =
      if d.promotes key then some d.now
      else if d.removes key then none
      else stampOf key d.before.entries := by
  have effect := h.effect
  have distinct : Distinct d.before.entries := h.coherent.proper.distinct
  split
  · next hp =>
    rw [promotes] at hp
    cases hk : d.promoted? with
    | none => simp [hk] at hp
    | some k =>
      rw [hk] at effect hp
      exact effect.stamp_new hp
  · next hp =>
    have hp : d.promotes key = false := Bool.eq_false_iff.mpr hp
    rw [h.removes_eq]
    cases ha : stampOf key d.after.entries with
    | some stamp =>
      obtain ⟨e, he, hk, rfl⟩ := exists_of_stampOf ha
      obtain ⟨e', hb, hk', hs⟩ := effect.stamp_kept hp he hk
      rw [stores_eq_true_iff.mpr ⟨e, he, hk⟩, distinct.stampOf_of_mem hb hk', hs]
      simp
    | none =>
      rw [stampOf_eq_none_iff.mp ha]
      split
      · rfl
      · next hb => exact (stampOf_eq_none_iff.mpr (by simpa using hb)).symm

theorem Sound.fails (h : d.Sound) (ha : d.command.accessed? = some key)
    (hl : d.before.reference.liveEntry d.now key = none) :
    d.Fails ∧ d.after.entries = d.before.entries := by
  obtain ⟨c, now, command, o⟩ := d
  obtain ⟨hc, performed, -⟩ := h
  obtain ⟨items, free, h⟩ := hc
  change c.perform now command = .ok o at performed
  change c.reference.liveEntry now key = none at hl
  change _ ∧ o.cache.entries = c.entries
  cases command with
  | contains k =>
    cases ha
    cases performed
    have hs := h.contains_simulates now key
    exact ⟨congrArg Answer.flag (hs.result.trans (by rw [Reference.contains, hl]; rfl)), hs.entries⟩
  | lookup k =>
    cases ha
    cases performed
    have hs := h.lookup_simulates now key
    rw [Reference.lookup, hl] at hs
    exact ⟨congrArg Answer.valueOr hs.result, hs.entries⟩
  | lookupMut k update =>
    cases ha
    cases performed
    have hs := h.lookupMut_simulates now key update
    rw [Reference.lookupMut, hl] at hs
    exact ⟨congrArg Answer.valueOr hs.result, hs.entries⟩
  | touch k =>
    cases ha
    cases performed
    have hs := h.touch_simulates now key
    rw [Reference.touch, hl] at hs
    exact ⟨congrArg Answer.flag hs.result, hs.entries⟩
  | cursor start moves =>
    cases start with
    | find k =>
      cases ha
      cases performed
      have hs := h.find_simulates now key
      rw [Reference.find, hl] at hs
      obtain ⟨slot, hslot, hplace⟩ := hs.result
      obtain rfl : slot = none := Option.map_eq_none_iff.mp hplace
      refine ⟨?_, hs.entries⟩
      exact congrArg (fun x => Answer.walked (.ok ((c.find now key).cache.walkCursor x moves)))
        hslot
    | _ => cases ha
  | _ => cases ha

/-- An operation that does not write a key leaves the key without a live entry. -/
theorem Sound.stays_dead (h : d.Sound) {now : Instant} {ttl : Duration}
    (hp : d.before.policy = .timeToLive ttl) (hn : now ≤ d.now) (hw : d.writes key = false)
    (hd : ∀ stamp ∈ stampOf key d.before.entries, ttl ≤ Instant.since now stamp) :
    ∀ stamp ∈ stampOf key d.after.entries, ttl ≤ Instant.since now stamp := by
  have hl : d.before.reference.liveEntry d.now key = none :=
    liveEntry_eq_none hp fun stamp hs =>
      Nat.le_trans (hd stamp hs) (Nat.sub_le_sub_right hn stamp)
  have hk : d.promotes key = false := by
    rw [Bool.eq_false_iff]
    intro hk
    obtain ⟨k, hpromoted, hkey⟩ := promotes_eq_true_iff.mp hk
    rcases accessed_or_written_of_promoted? hpromoted with ha | hwritten
    · rw [liveEntry_congr hkey] at hl
      have hf := promoted?_of_fails (h.fails ha hl).1
      simp [hf] at hpromoted
    · simp [writes, hwritten, hkey] at hw
  intro stamp hs
  rw [h.stampOf_after, hk] at hs
  split at hs
  · next hf => cases hf
  · split at hs
    · cases hs
    · exact hd stamp hs

end Deed

namespace Cache

variable {K V : Type} [BEq K]

/-- The last operation of a history that stamped `key` did so at `stamp`, and no operation has
removed the key since. -/
def StampedAt (history : List (Deed K V)) (key : K) (stamp : Instant) : Prop :=
  ∃ past d future, history = past ++ d :: future ∧ d.promotes key = true ∧ d.now = stamp ∧
    ∀ x ∈ future, x.promotes key = false ∧ x.removes key = false

variable {past : List (Deed K V)} {d : Deed K V} {key : K} {stamp : Instant} {c : Cache K V}

theorem not_stampedAt_nil : ¬ StampedAt ([] : List (Deed K V)) key stamp := by
  rintro ⟨past, d, future, h, -⟩
  simp at h

/-- The last operation of a history stamps the key, or removes it, or leaves its stamp. -/
theorem stampedAt_concat : StampedAt (past ++ [d]) key stamp ↔
    if d.promotes key then d.now = stamp
    else d.removes key = false ∧ StampedAt past key stamp := by
  constructor
  · rintro ⟨before, x, future, h, hp, hs, hf⟩
    rcases List.eq_nil_or_concat future with rfl | ⟨future, last, rfl⟩
    · obtain ⟨rfl, hx⟩ := List.append_inj' h rfl
      obtain rfl : d = x := List.singleton_inj.mp hx
      rwa [if_pos hp]
    · rw [List.concat_eq_append, ← List.cons_append, ← List.append_assoc] at h
      obtain ⟨rfl, hx⟩ := List.append_inj' h rfl
      obtain rfl : d = last := List.singleton_inj.mp hx
      have hd := hf d (by simp)
      rw [if_neg (by simp [hd.1])]
      exact ⟨hd.2, before, x, future, rfl, hp, hs, fun y hy => hf y (by simp [hy])⟩
  · split
    · next hp =>
      intro hs
      exact ⟨past, d, [], rfl, hp, hs, by simp⟩
    · next hp =>
      rintro ⟨hr, before, x, future, rfl, hx, hs, hf⟩
      refine ⟨before, x, future ++ [d], by simp, hx, hs, fun y hy => ?_⟩
      rcases List.mem_append.mp hy with hy | hy
      · exact hf y hy
      · obtain rfl := List.mem_singleton.mp hy
        exact ⟨Bool.eq_false_iff.mpr hp, hr⟩

variable [EquivBEq K]

open Reference

theorem stampedAt_step (h : ∀ stamp, stampOf key d.before.entries = some stamp ↔
      StampedAt past key stamp) (hd : d.Sound) (stamp : Instant) :
    stampOf key d.after.entries = some stamp ↔ StampedAt (past ++ [d]) key stamp := by
  rw [stampedAt_concat, hd.stampOf_after key]
  split
  · exact Option.some_inj
  · split
    · next hr => simp [hr]
    · next hr => simp [hr, h stamp]

theorem Coherent.stays_dead (h : c.Coherent) {ttl : Duration} {now : Instant}
    (hp : c.policy = .timeToLive ttl)
    (hd : ∀ stamp ∈ stampOf key c.entries, ttl ≤ Instant.since now stamp)
    {later : List (Instant × Command K V)} (hl : ∀ step ∈ later, now ≤ step.1)
    {future : List (Deed K V)} (hh : c.history later = past ++ d :: future)
    (hw : ∀ x ∈ past, x.writes key = false) (ha : d.accesses key = true) :
    d.Fails ∧ d.after.entries = d.before.entries := by
  have hlater : ∀ step ∈ singly later, now ≤ step.1 :=
    forall_mem_singly fun step hs _ _ => hl step hs
  obtain ⟨-, -, -, hdeeds⟩ := h.history_induction later
    (I := fun past c => c.policy = .timeToLive ttl ∧ ((∀ x ∈ past, x.writes key = false) →
      ∀ stamp ∈ stampOf key c.entries, ttl ≤ Instant.since now stamp))
    ⟨hp, fun _ => hd⟩ fun past d hd hm hI => by
      refine ⟨(congrArg Prod.fst hd.rules).trans hI.1, fun hw => ?_⟩
      have hpast := hI.2 fun x hx => hw x (List.mem_append_left _ hx)
      exact hd.stays_dead hI.1 (hlater _ hm) (hw d (by simp)) hpast
  obtain ⟨hd, hm, hp, hI⟩ := hdeeds past d future hh
  obtain ⟨k, hk, hkey⟩ : ∃ k, d.command.accessed? = some k ∧ key == k := by
    rw [Deed.accesses] at ha
    cases hk : d.command.accessed? <;> simp_all
  refine hd.fails hk ((liveEntry_congr hkey).symm.trans (liveEntry_eq_none hp fun stamp hs => ?_))
  exact Nat.le_trans (hI hw stamp hs) (Nat.sub_le_sub_right (hlater _ hm) stamp)

/-- In a cache with a time to live a key is present at a reading if it was stamped, has not been
removed since, and the time since then is below the time to live. A key that has expired stays
absent at later readings until it is written: accesses to it fail and change no entry. -/
theorem run_expiry (id : UInt64) (capacity : Nat) (ttl : Duration) (mode : RecencyMode)
    (steps : List (Instant × Command K V)) (key : K) (now : Instant) :
    ((start id capacity (.timeToLive ttl) mode).history steps).map Deed.step = singly steps ∧
    (∀ d ∈ (start id capacity (.timeToLive ttl) mode).history steps,
      stampOf key d.after.entries =
        if d.promotes key then some d.now
        else if d.removes key then none
        else stampOf key d.before.entries) ∧
    ∃ o, (start id capacity (.timeToLive ttl) mode : Cache K V).run steps = .ok o ∧
      ((o.cache.contains now key).result = true ↔
        ∃ stamp, StampedAt ((start id capacity (.timeToLive ttl) mode).history steps) key stamp ∧
          Instant.since now stamp < ttl) ∧
      (o.cache.isExpired now key = .ok true → ∀ later, (∀ step ∈ later, now ≤ step.1) →
        (o.cache.history later).map Deed.step = singly later ∧
        ∀ past d future, o.cache.history later = past ++ d :: future →
          (∀ x ∈ past, x.writes key = false) → d.accesses key = true →
          d.Fails ∧ d.after.entries = d.before.entries) := by
  have hc : (start id capacity (.timeToLive ttl) mode : Cache K V).Coherent := coherent_start ..
  have first : ∀ stamp, stampOf key (start id capacity (.timeToLive ttl) mode :
      Cache K V).entries = some stamp ↔ StampedAt ([] : List (Deed K V)) key stamp :=
    fun stamp => ⟨fun h => (nomatch h), fun h => absurd h not_stampedAt_nil⟩
  obtain ⟨o, ho, ⟨hstamps, hrules⟩, hdeeds⟩ := hc.history_induction steps
    (I := fun past c => (∀ stamp, stampOf key c.entries = some stamp ↔ StampedAt past key stamp) ∧
      c.reference.rules = (.timeToLive ttl, mode))
    ⟨first, rfl⟩
    fun past d hd _ hI => ⟨stampedAt_step hI.1 hd, hd.rules.trans hI.2⟩
  have hco := hc.of_run ho
  have hp : o.cache.reference.policy = .timeToLive ttl := congrArg Prod.fst hrules
  have ⟨items, free, h⟩ := hco
  refine ⟨hc.map_step_history steps, fun d hd => ?_, o, ho, ?_, fun he later hl => ?_⟩
  · obtain ⟨past, future, hsplit⟩ := List.append_of_mem hd
    exact (hdeeds past d future hsplit).1.stampOf_after key
  · rw [(h.contains_simulates now key).result, Reference.contains, liveEntry_isSome_iff hp]
    exact exists_congr fun stamp => and_congr_left' (hstamps stamp)
  · refine ⟨hco.map_step_history later, fun past d future hsplit hw ha => ?_⟩
    have hdead := dead_of_isExpired hp ((h.isExpired_eq now key).symm.trans he)
    exact hco.stays_dead hp hdead hl hsplit hw ha

/-- An entry found at 3 is live up to 5 later, and is not found at 8. -/
theorem run_expiry_refreshed : EquivBEq Nat ∧ ∃ o d,
    (start 0 1 (.timeToLive 5) .onAccess : Cache Nat Nat).run
      [(0, .insert 1 10), (3, .lookupMut 1 fun v => v)] = .ok o ∧
    (o.cache.contains 7 1).result = true ∧ o.cache.isExpired 8 1 = .ok true ∧
    o.cache.history [(8, .lookup 1)] = [] ++ d :: [] ∧ d.accesses 1 = true ∧ d.Fails := by
  obtain ⟨-, -, o, ho, -, hlater⟩ := run_expiry 0 1 5 .onAccess
    [(0, .insert 1 10), (3, .lookupMut 1 fun v : Nat => v)] 1 8
  have hview : ((start 0 1 (.timeToLive 5) .onAccess : Cache Nat Nat).run
      [(0, .insert 1 10), (3, .lookupMut 1 fun v => v)]).map
        (fun o => ((o.cache.contains 7 1).result, o.cache.isExpired 8 1)) =
      .ok (true, .ok true) := by rfl
  rw [ho] at hview
  obtain ⟨hcontains, hexpired⟩ := Prod.mk.inj (Except.ok.inj hview)
  obtain ⟨hsteps, hfails⟩ := hlater hexpired [(8, .lookup 1)] (by decide)
  obtain ⟨d, hd, hstep⟩ := List.map_eq_singleton_iff.mp hsteps
  have ha : d.accesses 1 = true := by
    rw [Deed.accesses, show d.command = .lookup 1 from congrArg Prod.snd hstep]
    rfl
  exact ⟨inferInstance, o, d, ho, hcontains, hexpired, hd, ha, (hfails [] d [] hd (by simp) ha).1⟩

end Cache

end Lru
