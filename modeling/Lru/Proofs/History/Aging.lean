import Lru.Proofs.History.Expiry
import Mathlib.Data.List.TakeWhile

/-! # Stamps in order

Every stamp is a reading that the run took from its clock. While the readings
do not decrease, the entries bear theirs in recency order: at every reading the
expired ones come first and the live ones follow. So a purge that stops at the
first live entry leaves no expired one behind, and a live entry never makes
room while an expired one is stored.
-/

namespace Lru

theorem Policy.isLive_timeToLive (ttl : Duration) (now stamp : Instant) :
    (timeToLive ttl).isLive now stamp = !decide (ttl ≤ Instant.since now stamp) := by
  rw [isLive, ← decide_not, decide_eq_decide, Nat.not_le]

namespace Entry

variable {K V : Type}

/-- Whether the age of an entry has reached the time to live. -/
def expired (ttl : Duration) (now : Instant) (e : Entry K V) : Bool :=
  ttl ≤ Instant.since now e.stamp

theorem expired_of_le {ttl : Duration} {now : Instant} {a b : Entry K V} (h : a.stamp ≤ b.stamp)
    (hb : b.expired ttl now = true) : a.expired ttl now = true := by
  have hage : ttl ≤ now - b.stamp := of_decide_eq_true hb
  exact decide_eq_true (Nat.le_trans hage (Nat.sub_le_sub_left h now))

end Entry

section Prefix

variable {α : Type} {p : α → Bool} {l : List α}

theorem takeWhile_eq_filter (h : l.Pairwise fun a b => p b = true → p a = true) :
    l.takeWhile p = l.filter p ∧ l.dropWhile p = l.filter fun a => !p a := by
  induction l with
  | nil => exact ⟨rfl, rfl⟩
  | cons a l ih =>
    obtain ⟨ha, hl⟩ := List.pairwise_cons.mp h
    obtain ⟨htake, hdrop⟩ := ih hl
    cases hp : p a with
    | true => simp [hp, htake, hdrop]
    | false =>
      -- Behind the first element without the property none has it.
      have hn : ∀ b ∈ l, p b = false := by
        intro b hb
        rw [Bool.eq_false_iff]
        intro hpb
        rw [ha b hb hpb] at hp
        cases hp
      have hnone : l.filter p = [] := List.filter_eq_nil_iff.mpr fun b hb => by simp [hn b hb]
      have hall : l.filter (fun b => !p b) = l :=
        List.filter_eq_self.mpr fun b hb => by simp [hn b hb]
      simp [hp, hnone, hall]

theorem all_getLast?_iff (h : l.Pairwise fun a b => p b = true → p a = true) :
    l.getLast?.all p = true ↔ ∀ a ∈ l, p a = true := by
  rcases List.eq_nil_or_concat l with rfl | ⟨l, last, rfl⟩
  · simp
  · rw [List.concat_eq_append] at h ⊢
    have hl := (List.pairwise_append.mp h).2.2
    simp only [List.getLast?_append, List.getLast?_singleton, Option.some_or, Option.all_some,
      List.forall_mem_append, List.forall_mem_singleton]
    exact ⟨fun hp => ⟨fun a ha => hl a ha last (List.mem_singleton_self _) hp, hp⟩, fun hp => hp.2⟩

end Prefix

namespace Deed

variable {K V : Type} [BEq K]

def reads (d : Deed K V) : Bool :=
  d.before.readsClock d.command

/-- The readings that operations take from the clock, in order. -/
def readings (history : List (Deed K V)) : List Instant :=
  (history.filter reads).map Deed.now

variable {past : List (Deed K V)} {d : Deed K V} {key : K} {ttl : Duration}

theorem readings_concat (past : List (Deed K V)) (d : Deed K V) :
    readings (past ++ [d]) = readings past ++ if d.reads then [d.now] else [] := by
  rw [readings, List.filter_append, List.map_append, readings]
  cases h : d.reads <;> simp [h]

variable [EquivBEq K]

/-- Only an operation that reads the clock can stamp an entry: one that does not has the same
outcome at the next reading, and a stamp shows the reading. -/
theorem Sound.reads_of_promoted? (h : d.Sound) (hp : d.before.policy = .timeToLive ttl)
    (hk : d.promoted? = some key) : d.reads = true := by
  by_contra hr
  have hn : d.before.judgesOrStamps d.command = false := by
    simpa [reads, Cache.readsClock, hp, Policy.ttl?] using hr
  let later : Deed K V := { d with now := d.now + 1 }
  have hlater : later.Sound :=
    ⟨h.coherent, (Cache.perform_of_not_judgesOrStamps hn _ _).trans h.performed, h.single⟩
  have effect := h.effect
  have effect' := hlater.effect
  rw [hk] at effect
  rw [show later.promoted? = some key from hk] at effect'
  have hs := effect.stamp_new BEq.rfl
  have hs' : Reference.stampOf key d.after.entries = some (d.now + 1) :=
    effect'.stamp_new BEq.rfl
  rw [hs] at hs'
  exact Nat.ne_of_lt (Nat.lt_succ_self _) (Option.some.inj hs')

end Deed

namespace Cache

open Deed Reference

variable {K V : Type} [BEq K] {past : List (Deed K V)} {d : Deed K V} {c : Cache K V}
  {ttl : Duration} {now : Instant}

/-- The stamps are readings that were taken, and they stand in the order of the entries if the
readings did not decrease. -/
structure Dated (past : List (Deed K V)) (c : Cache K V) : Prop where
  taken : c.entries.map Entry.stamp ⊆ readings past
  sorted : (readings past).Pairwise (· ≤ ·) → (c.entries.map Entry.stamp).Pairwise (· ≤ ·)

section Order

theorem dated_start (id : UInt64) (capacity : Nat) (policy : Policy) (mode : RecencyMode) :
    Dated ([] : List (Deed K V)) (start id capacity policy mode) :=
  ⟨fun _ h => (nomatch h), fun _ => .nil⟩

theorem Dated.step [EquivBEq K] (h : Dated past d.before) (hd : d.Sound)
    (hp : d.before.policy = .timeToLive ttl) : Dated (past ++ [d]) d.after := by
  have effect := hd.effect
  have hpast : readings past ⊆ readings (past ++ [d]) := by
    rw [readings_concat]
    exact List.subset_append_left _ _
  have hsorted : (readings (past ++ [d])).Pairwise (· ≤ ·) → (readings past).Pairwise (· ≤ ·) := by
    rw [readings_concat]
    exact fun hr => (List.pairwise_append.mp hr).1
  generalize hk : d.promoted? = key? at effect
  generalize ha : d.after.entries = after at effect
  cases effect with
  | kept sub =>
    have hs : (after.map Entry.stamp).Sublist (d.before.entries.map Entry.stamp) := by
      have hm := sub.map Prod.snd
      rwa [List.map_map, List.map_map] at hm
    refine ⟨?_, fun hr => ?_⟩
    · rw [ha]
      exact List.Subset.trans hs.subset (List.Subset.trans h.taken hpast)
    · rw [ha]
      exact (h.sorted (hsorted hr)).sublist hs
  | promoted key others entry sub missing same stamped =>
    -- The entry at the end bears the reading that the operation takes itself.
    have hread : readings (past ++ [d]) = readings past ++ [d.now] := by
      rw [readings_concat, hd.reads_of_promoted? hp hk]
      rfl
    have hs : (others.map Entry.stamp).Sublist (d.before.entries.map Entry.stamp) :=
      sub.map Entry.stamp
    have he : d.after.entries.map Entry.stamp = others.map Entry.stamp ++ [d.now] := by
      rw [ha, List.map_append, List.map_singleton, stamped]
    refine ⟨?_, fun hr => ?_⟩
    · rw [he, hread]
      intro stamp hm
      rcases List.mem_append.mp hm with hm | hm
      · exact List.mem_append_left _ (h.taken (hs.subset hm))
      · exact List.mem_append_right _ hm
    · rw [he]
      refine List.pairwise_append.mpr
        ⟨(h.sorted (hsorted hr)).sublist hs, List.pairwise_singleton _ _, ?_⟩
      rw [hread] at hr
      exact fun stamp hm => (List.pairwise_append.mp hr).2.2 stamp (h.taken (hs.subset hm))

omit [BEq K] in
theorem expired_first (h : (c.entries.map Entry.stamp).Pairwise (· ≤ ·)) (ttl : Duration)
    (now : Instant) :
    c.entries.Pairwise fun a b => b.expired ttl now = true → a.expired ttl now = true :=
  (List.pairwise_map.mp h).imp fun hab hb => Entry.expired_of_le hab hb

theorem run_dated [EquivBEq K] (id : UInt64) (capacity : Nat) (ttl : Duration)
    (mode : RecencyMode) (steps : List (Instant × Command K V)) :
    ∃ o, (start id capacity (.timeToLive ttl) mode : Cache K V).run steps = .ok o ∧
      o.cache.Coherent ∧ o.cache.policy = .timeToLive ttl ∧
      Dated ((start id capacity (.timeToLive ttl) mode).history steps) o.cache ∧
      ∀ past d future,
        (start id capacity (.timeToLive ttl) mode).history steps = past ++ d :: future →
        d.Sound ∧ Dated past d.before := by
  have hc : (start id capacity (.timeToLive ttl) mode : Cache K V).Coherent := coherent_start ..
  obtain ⟨o, ho, ⟨hdated, hpolicy⟩, hdeeds⟩ := hc.history_induction steps
    (I := fun past c => Dated past c ∧ c.policy = .timeToLive ttl)
    ⟨dated_start .., rfl⟩
    fun past d hd _ hI => ⟨hI.1.step hd hI.2, (congrArg Prod.fst hd.rules).trans hI.2⟩
  refine ⟨o, ho, hc.of_run ho, hpolicy, hdated, fun past d future hsplit => ?_⟩
  obtain ⟨hd, -, hI⟩ := hdeeds past d future hsplit
  exact ⟨hd, hI.1⟩

end Order

section Purging

variable [EquivBEq K]

theorem Coherent.purgeExpired_eq (h : c.Coherent) (hp : c.policy = .timeToLive ttl)
    (now : Instant) : ∃ p, c.purgeExpired now = .ok p ∧ p.cache.Coherent ∧
      p.cache.policy = .timeToLive ttl ∧
      p.result = (c.entries.takeWhile (Entry.expired ttl now)).length ∧
      p.cache.entries = c.entries.dropWhile (Entry.expired ttl now) := by
  obtain ⟨items, free, h⟩ := h
  obtain ⟨p, hpurge, hs⟩ := h.purgeExpired_simulates now
  have hdead : (fun e : Entry K V => !c.reference.policy.isLive now e.stamp) =
      Entry.expired ttl now := by
    funext e
    rw [show c.reference.policy = .timeToLive ttl from hp, Policy.isLive_timeToLive, Bool.not_not]
    rfl
  have hsplit : c.entries.length = (c.entries.takeWhile (Entry.expired ttl now)).length +
      (c.entries.dropWhile (Entry.expired ttl now)).length := by
    rw [← List.length_append, List.takeWhile_append_dropWhile]
  refine ⟨p, hpurge, hs.coherent, ?_, ?_, ?_⟩
  · exact (congrArg Reference.policy hs.reference).trans hp
  · rw [hs.result, Reference.purgeExpired, hdead]
    change c.entries.length - (c.entries.dropWhile (Entry.expired ttl now)).length = _
    omega
  · rw [hs.entries, Reference.purgeExpired, hdead]
    rfl

omit [EquivBEq K] in
theorem Coherent.allExpired_eq (h : c.Coherent) (hp : c.policy = .timeToLive ttl)
    (now : Instant) : c.allExpired now = c.entries.getLast?.all (Entry.expired ttl now) := by
  obtain ⟨items, free, h⟩ := h
  rw [h.allExpired_eq, Reference.allExpired]
  congr 1
  funext e
  rw [show c.reference.policy = .timeToLive ttl from hp, Policy.isLive_timeToLive, Bool.not_not]
  rfl

/-- Purging is exact. It removes the longest run of expired entries at the front, tells how many
there were, and finds none when asked again. If the readings of the run did not decrease, the
stamps are in the order of the entries and all that has expired goes, and the last entry tells
whether any is live. -/
theorem run_purges (id : UInt64) (capacity : Nat) (ttl : Duration) (mode : RecencyMode)
    (steps : List (Instant × Command K V)) (now : Instant) :
    ((start id capacity (.timeToLive ttl) mode).history steps).map Deed.step = singly steps ∧
    ∃ o p, (start id capacity (.timeToLive ttl) mode : Cache K V).run steps = .ok o ∧
      o.cache.purgeExpired now = .ok p ∧
      (∃ gone, o.cache.entries = gone ++ p.cache.entries ∧ p.result = gone.length ∧
        (∀ e ∈ gone, e.expired ttl now = true) ∧
        ∀ e ∈ p.cache.entries.head?, e.expired ttl now = false) ∧
      (∃ q, p.cache.purgeExpired now = .ok q ∧ q.result = 0) ∧
      ((readings ((start id capacity (.timeToLive ttl) mode).history steps)).Pairwise (· ≤ ·) →
        (o.cache.entries.map Entry.stamp).Pairwise (· ≤ ·) ∧
        p.cache.entries = o.cache.entries.filter (fun e => !e.expired ttl now) ∧
        p.result = o.cache.entries.countP (Entry.expired ttl now) ∧
        (o.cache.allExpired now = true ↔ ∀ e ∈ o.cache.entries, e.expired ttl now = true)) := by
  obtain ⟨o, ho, hc, hp, hdated, -⟩ := run_dated (K := K) (V := V) id capacity ttl mode steps
  obtain ⟨p, hpurge, hc', hp', hresult, hentries⟩ := hc.purgeExpired_eq hp now
  obtain ⟨q, hagain, -, -, hresult', -⟩ := hc'.purgeExpired_eq hp' now
  have hsplit : o.cache.entries =
      o.cache.entries.takeWhile (Entry.expired ttl now) ++ p.cache.entries := by
    rw [hentries, List.takeWhile_append_dropWhile]
  have hfront : ∀ e ∈ p.cache.entries.head?, e.expired ttl now = false := by
    intro e he
    rw [hentries, ← List.find?_not_eq_head?_dropWhile] at he
    simpa using List.find?_some he
  refine ⟨(coherent_start ..).map_step_history steps, o, p, ho, hpurge,
    ⟨_, hsplit, hresult, fun e he => List.mem_takeWhile_imp he, hfront⟩, ⟨q, hagain, ?_⟩, ?_⟩
  · rw [hresult']
    cases hkept : p.cache.entries with
    | nil => rfl
    | cons e kept => simp [hfront e (by simp [hkept])]
  · intro forward
    have hfirst := expired_first (hdated.sorted forward) ttl now
    obtain ⟨htake, hdrop⟩ := takeWhile_eq_filter hfirst
    refine ⟨hdated.sorted forward, hentries.trans hdrop, ?_, ?_⟩
    · rw [hresult, htake, List.countP_eq_length_filter]
    · rw [hc.allExpired_eq hp, all_getLast?_iff hfirst]

/-- Of three entries two have expired at 8, one of them after it was touched. -/
theorem run_purges_touched : EquivBEq Nat ∧ ∃ o p,
    (start 0 3 (.timeToLive 5) .onInsert : Cache Nat Nat).run
      [(0, .insert 1 10), (1, .insert 2 20), (3, .touch 1), (4, .insert 3 30)] = .ok o ∧
    (readings ((start 0 3 (.timeToLive 5) .onInsert : Cache Nat Nat).history
      [(0, .insert 1 10), (1, .insert 2 20), (3, .touch 1), (4, .insert 3 30)])).Pairwise
        (· ≤ ·) ∧
    o.cache.purgeExpired 8 = .ok p ∧ p.result = 2 ∧ p.cache.entries = [⟨3, 30, 4⟩] := by
  obtain ⟨-, o, p, ho, hp, -, -, hforward⟩ := run_purges 0 3 5 .onInsert
    [(0, .insert 1 10), (1, .insert 2 20), (3, .touch 1), (4, .insert (3 : Nat) (30 : Nat))] 8
  have forward : (readings ((start 0 3 (.timeToLive 5) .onInsert : Cache Nat Nat).history
      [(0, .insert 1 10), (1, .insert 2 20), (3, .touch 1), (4, .insert 3 30)])).Pairwise
        (· ≤ ·) := by decide
  obtain ⟨-, hkept, hcount, -⟩ := hforward forward
  have hentries : ((start 0 3 (.timeToLive 5) .onInsert : Cache Nat Nat).run
      [(0, .insert 1 10), (1, .insert 2 20), (3, .touch 1), (4, .insert 3 30)]).map
        (fun o => o.cache.entries) = .ok [⟨2, 20, 1⟩, ⟨1, 10, 3⟩, ⟨3, 30, 4⟩] := by rfl
  rw [ho] at hentries
  have hentries : o.cache.entries = _ := Except.ok.inj hentries
  rw [hentries] at hkept hcount
  exact ⟨inferInstance, o, p, ho, forward, hp, hcount, hkept⟩

end Purging

section Evicting

/-- Evicting the front over and over removes `gone` from `c` and leaves `d`, and the rule holds for
each entry that goes and all that are stored then. -/
inductive EvictsBy (rule : Entry K V → List (Entry K V) → Prop) :
    (c : Cache K V) → (gone : List (Entry K V)) → (d : Cache K V) → Prop
  | done (c : Cache K V) : EvictsBy rule c [] c
  | next {c d : Cache K V} {entry : Entry K V} {gone : List (Entry K V)}
      (evicted : c.evictFront.result = some entry) (holds : rule entry c.entries)
      (rest : EvictsBy rule c.evictFront.cache gone d) : EvictsBy rule c (entry :: gone) d

def ExpiredFirst (ttl : Duration) (now : Instant) (entries : List (Entry K V)) : Prop :=
  ∃ dead live, entries = dead ++ live ∧ (∀ e ∈ dead, e.expired ttl now = true) ∧
    ∀ e ∈ live, e.expired ttl now = false

/-- A live entry goes only while all are live. -/
def SparesLive (ttl : Duration) (now : Instant) (entry : Entry K V) (stored : List (Entry K V)) :
    Prop :=
  entry.expired ttl now = false → ∀ e ∈ stored, e.expired ttl now = false

variable [EquivBEq K] {entry : Entry K V} {gone rest : List (Entry K V)}

theorem Coherent.evictFront_cons (h : c.Coherent) (he : c.entries = entry :: rest) :
    c.evictFront.result = some entry ∧ c.evictFront.cache.Coherent ∧
      c.evictFront.cache.entries = rest := by
  obtain ⟨items, free, h⟩ := h
  rw [h.entries_eq] at he
  obtain ⟨⟨id, e⟩, s, rfl, rfl, rfl⟩ := List.map_eq_cons_iff.mp he
  have hd := h.drop (p := []) (BEq.rfl (a := e.key))
  rw [Cache.evictFront_cons h.order]
  exact ⟨rfl, ⟨_, _, hd⟩, hd.entries_eq⟩

theorem Coherent.evictsBy {rule : Entry K V → List (Entry K V) → Prop} (h : c.Coherent)
    (hg : gone <+: c.entries)
    (hr : ∀ front e behind, c.entries = front ++ e :: behind → rule e (e :: behind)) :
    ∃ d, EvictsBy rule c gone d := by
  induction gone generalizing c with
  | nil => exact ⟨c, .done c⟩
  | cons entry gone ih =>
    obtain ⟨kept, hk⟩ := hg
    have he : c.entries = entry :: (gone ++ kept) := hk.symm
    obtain ⟨hevicted, hc, hrest⟩ := h.evictFront_cons he
    obtain ⟨d, hd⟩ := ih hc (hrest ▸ List.prefix_append gone kept) fun front e behind hs =>
      hr (entry :: front) e behind (by rw [he, ← hrest, hs, List.cons_append])
    exact ⟨d, .next hevicted (he ▸ hr [] entry (gone ++ kept) he) hd⟩

omit [BEq K] [EquivBEq K] in
theorem expiredFirst_of_sorted (h : (c.entries.map Entry.stamp).Pairwise (· ≤ ·))
    (ttl : Duration) (now : Instant) : ExpiredFirst ttl now c.entries := by
  obtain ⟨-, hdrop⟩ := takeWhile_eq_filter (expired_first h ttl now)
  refine ⟨_, _, List.takeWhile_append_dropWhile.symm, fun e he => List.mem_takeWhile_imp he, ?_⟩
  intro e he
  rw [hdrop] at he
  simpa using (List.mem_filter.mp he).2

omit [BEq K] [EquivBEq K] in
theorem sparesLive_of_sorted (h : (c.entries.map Entry.stamp).Pairwise (· ≤ ·)) (ttl : Duration)
    (now : Instant) {front behind : List (Entry K V)} (hs : c.entries = front ++ entry :: behind) :
    SparesLive ttl now entry (entry :: behind) := by
  have hfirst := hs ▸ expired_first h ttl now
  have hbehind := (List.pairwise_cons.mp (List.pairwise_append.mp hfirst).2.1).1
  intro hlive
  refine List.forall_mem_cons.mpr ⟨hlive, fun e he => ?_⟩
  rw [Bool.eq_false_iff]
  intro hdead
  rw [hbehind e he hdead] at hlive
  cases hlive

/-- Making room never costs a live entry while an expired one is stored. If the readings of a run
do not decrease, the expired entries stand in front of the live ones at every reading, before each
operation and at the end, and an entry that goes to make room is live only if all are. -/
theorem run_spares_live (id : UInt64) (capacity : Nat) (ttl : Duration) (mode : RecencyMode)
    (steps : List (Instant × Command K V))
    (forward : (readings ((start id capacity (.timeToLive ttl) mode).history steps)).Pairwise
      (· ≤ ·)) :
    ((start id capacity (.timeToLive ttl) mode).history steps).map Deed.step = singly steps ∧
    ∃ o, (start id capacity (.timeToLive ttl) mode : Cache K V).run steps = .ok o ∧
      (∀ now, ExpiredFirst ttl now o.cache.entries) ∧
      ∀ past d future,
        (start id capacity (.timeToLive ttl) mode).history steps = past ++ d :: future →
        ∀ now, ExpiredFirst ttl now d.before.entries ∧
          (d.command.evicts = true →
            ∃ rest, EvictsBy (SparesLive ttl now) d.before d.lost rest) := by
  obtain ⟨o, ho, -, -, hdated, hdeeds⟩ := run_dated (K := K) (V := V) id capacity ttl mode steps
  refine ⟨(coherent_start ..).map_step_history steps, o, ho,
    expiredFirst_of_sorted (hdated.sorted forward) ttl, fun past d future hsplit now => ?_⟩
  obtain ⟨hd, hbefore⟩ := hdeeds past d future hsplit
  have hpast : (readings past).Pairwise (· ≤ ·) := by
    rw [hsplit, readings, List.filter_append, List.map_append] at forward
    exact (List.pairwise_append.mp forward).1
  have hsorted := hbefore.sorted hpast
  exact ⟨expiredFirst_of_sorted hsorted ttl now, fun he =>
    hd.coherent.evictsBy (hd.lost_prefix he) fun _ _ _ => sparesLive_of_sorted hsorted ttl now⟩

/-- The entry that has expired at 6 goes before the one that was touched at 4. -/
theorem run_spares_live_touched : EquivBEq Nat ∧
    (readings ((start 0 2 (.timeToLive 5) .onInsert : Cache Nat Nat).history
      [(0, .insert 1 10), (1, .insert 2 20), (4, .touch 1), (6, .insert 3 30)])).Pairwise
        (· ≤ ·) ∧
    ∃ past d future rest, (start 0 2 (.timeToLive 5) .onInsert : Cache Nat Nat).history
        [(0, .insert 1 10), (1, .insert 2 20), (4, .touch 1), (6, .insert 3 30)] =
      past ++ d :: future ∧ d.command.evicts = true ∧ d.lost = [⟨2, 20, 1⟩] ∧
      EvictsBy (SparesLive 5 6) d.before d.lost rest := by
  have forward : (readings ((start 0 2 (.timeToLive 5) .onInsert : Cache Nat Nat).history
      [(0, .insert 1 10), (1, .insert 2 20), (4, .touch 1), (6, .insert 3 30)])).Pairwise
        (· ≤ ·) := by decide
  obtain ⟨-, -, -, -, hdeeds⟩ := run_spares_live 0 2 5 .onInsert _ forward
  obtain ⟨-, hevicts⟩ := hdeeds _ _ [] (List.dropLast_append_getLast (by decide)).symm 6
  obtain ⟨rest, hrest⟩ := hevicts (by rfl)
  exact ⟨inferInstance, forward, _, _, [], rest,
    (List.dropLast_append_getLast (by decide)).symm, by rfl, by decide, hrest⟩

end Evicting

end Cache

end Lru
