import Lru.Proofs.Reference.Balance
import Mathlib.Algebra.GroupWithZero.Nat

/-! # Entries are conserved

Every entry that an insertion adds is still there, or its eviction has been
announced, or an operation that removes entries has taken it. The announcements
of evictions count down the entries that stay, and where evictions are summed up
the sum is their number.
-/

namespace Lru

namespace Deed

variable {K V : Type}

/-- Whether an operation erased a key. -/
def erased (d : Deed K V) : Bool :=
  match d.command, d.outcome.result with
  | .erase _, .flag found => found
  | _, _ => false

/-- Whether an operation erased the entry that a handle points to. -/
def erasedAt (d : Deed K V) : Bool :=
  match d.command, d.outcome.result with
  | .eraseAt _, .entryOr result => result.toBool
  | _, _ => false

/-- How many evictions an operation announced. -/
def evictions (d : Deed K V) : Nat :=
  Notice.countEvictions d.outcome.notices

variable [BEq K]

/-- Whether an insertion stored a key that was not stored before, be it asked for or done with a
value that was made. -/
def storesNew (d : Deed K V) : Bool :=
  match d.command with
  | .insert key _ | .getOrInsert key _ =>
    !Reference.stores key d.before.entries && Reference.stores key d.after.entries
  | _ => false

/-- How many entries went when the cache was cleared. -/
def cleared (d : Deed K V) : Nat :=
  match d.command with
  | .clear => d.before.len
  | _ => 0

/-- The announcements of an operation tell what it evicted. -/
structure Traced (d : Deed K V) : Prop where
  bound : d.evictions ≤ d.before.len
  /-- Each eviction announces the entries that it left, at the capacity before the operation. -/
  evictions : d.outcome.notices.filter Notice.isEviction =
    Notice.evictions d.before.capacity d.before.len d.evictions
  setCapacity : ∀ capacity, d.command = .setCapacity capacity → d.outcome.notices =
    Notice.evictions d.before.capacity d.before.len d.evictions ++
      if d.evictions = 0 then []
      else [.trace (.shrank d.evictions capacity), .trace (.compacted d.after.len)]
  purgeExpired : d.command = .purgeExpired → d.outcome.result = .count d.evictions ∧
    d.outcome.notices = Notice.evictions d.before.capacity d.before.len d.evictions ++
      if d.evictions = 0 then [] else [.trace (.purged d.evictions d.after.len)]
  insert : ∀ key value result, d.command = .insert key value →
    d.outcome.result = .inserted result → result.inserted = d.storesNew

/-- After these operations `len` entries are stored: all that were added and neither evicted nor
erased nor cleared. -/
def Balanced (past : List (Deed K V)) (len : Nat) : Prop :=
  past.countP storesNew = len + Notice.countEvictions (past.flatMap fun d => d.outcome.notices) +
    past.countP erased + past.countP erasedAt + (past.map cleared).sum

end Deed

namespace Cache

variable {K V α β : Type} [BEq K] {c : Cache K V} {now : Instant}

theorem Coherent.len_eq (h : c.Coherent) : c.len = c.reference.entries.length := by
  obtain ⟨items, free, h⟩ := h
  rw [h.len_eq, h.reference_eq, List.length_map]

theorem Simulates.flow {o : Outcome K V α} {q : Reference.Outcome K V β}
    {agree : Cache K V → α → β → Prop} (hs : Simulates c o q agree) {added removed : Nat}
    (hf : Reference.Flow c.reference q.reference q.notices added removed) :
    Reference.Flow c.reference o.cache.reference o.notices added removed := by
  rw [hs.reference, hs.notices]
  exact hf

end Cache

namespace Deed

variable {K V : Type} [BEq K] [EquivBEq K] {d : Deed K V} {past : List (Deed K V)}

open Cache Reference

/-- What an operation adds, evicts and removes accounts for the entries that it leaves. -/
theorem Sound.flow (h : d.Sound) : Flow d.before.reference d.after.reference d.outcome.notices
    d.storesNew.toNat (d.erased.toNat + d.erasedAt.toNat + d.cleared) := by
  obtain ⟨c, now, command, o⟩ := d
  obtain ⟨hc, performed, single⟩ := h
  have proper : c.reference.Proper := Coherent.proper hc
  have coherent : c.Coherent := hc
  obtain ⟨items, free, h⟩ := hc
  change c.perform now command = .ok o at performed
  change Flow c.reference o.cache.reference o.notices _ _
  cases command with
  | insert key value =>
    obtain ⟨o, ho, rfl⟩ := exists_of_map_eq_ok performed
    have hs := simulates_of_ok (h.insert_simulates now key value) ho
    obtain ⟨hnew, hflow⟩ := proper.insert_flow now key value
    rw [hnew, ← hs.entries] at hflow
    exact hs.flow hflow
  | insertAll pairs => exact absurd rfl (single pairs)
  | getOrInsert key make =>
    obtain ⟨o, ho, rfl⟩ := exists_of_map_eq_ok performed
    have hs := simulates_of_ok (h.getOrInsert_simulates now key make) ho
    have hflow := proper.getOrInsert_flow now key make
    rw [← hs.entries] at hflow
    exact hs.flow hflow
  | erase key =>
    obtain ⟨o, ho, rfl⟩ := exists_of_map_eq_ok performed
    have hs := simulates_of_ok (h.erase_simulates key) ho
    have hflow := proper.distinct.erase_flow key
    rw [← hs.result] at hflow
    exact hs.flow hflow
  | eraseAt g =>
    cases performed
    have hs := h.eraseAt_simulates g
    have hflow := c.reference.eraseAt_flow (c.address g)
    rw [← hs.result, ← Nat.zero_add (Bool.toNat _)] at hflow
    exact hs.flow hflow
  | clear =>
    cases performed
    have hempty : c.clear.reference.entries = [] := (holds_clear c).entries_eq
    refine .of_silent rfl ?_
    simp [hempty, storesNew, erased, erasedAt, cleared, coherent.len_eq]
  | popFront =>
    cases performed
    exact h.popFront_simulates.flow c.reference.popFront_flow
  | setCapacity capacity =>
    obtain ⟨o, ho, rfl⟩ := exists_of_map_eq_ok performed
    have hs := simulates_of_ok (h.setCapacity_simulates capacity) ho
    exact hs.flow (c.reference.setCapacity_flow capacity)
  | purgeExpired =>
    obtain ⟨o, ho, rfl⟩ := exists_of_map_eq_ok performed
    have hs := simulates_of_ok (h.purgeExpired_simulates now) ho
    exact hs.flow (c.reference.purgeExpired_flow now)
  | lookupMut key update =>
    cases performed
    exact (h.lookupMut_simulates now key update).flow (proper.distinct.lookupMut_flow now key update)
  | touch key =>
    cases performed
    exact (h.touch_simulates now key).flow (proper.distinct.touch_flow now key)
  | lookup key =>
    cases performed
    exact (h.lookup_simulates now key).flow (c.reference.lookup_flow now key)
  | contains key =>
    cases performed
    exact (h.contains_simulates now key).flow (c.reference.deadNotices_flow now key)
  | cursor start moves =>
    cases start with
    | find key =>
      have hs := simulates_of_ok (coherent.perform_simulates now rfl) performed
      exact hs.flow (c.reference.deadNotices_flow now key)
    | _ =>
      cases performed
      exact .of_silent rfl rfl
  | _ =>
    cases performed
    exact .of_silent rfl rfl

theorem Sound.evictions_eq (h : d.Sound) : d.outcome.notices.filter Notice.isEviction =
    Notice.evictions d.before.capacity d.before.len d.evictions := by
  rw [Coherent.len_eq h.coherent]
  exact h.flow.evictions

theorem Sound.traced (h : d.Sound) : d.Traced where
  bound := by
    rw [Coherent.len_eq h.coherent]
    exact h.flow.bound
  evictions := h.evictions_eq
  setCapacity := by
    intro capacity hd
    rw [Coherent.len_eq h.coherent, Coherent.len_eq h.coherent_after]
    obtain ⟨c, now, command, o⟩ := d
    obtain ⟨⟨items, free, hc⟩, performed, -⟩ := h
    obtain rfl : command = .setCapacity capacity := hd
    obtain ⟨o, ho, rfl⟩ := exists_of_map_eq_ok performed
    have hs := simulates_of_ok (hc.setCapacity_simulates capacity) ho
    have ht := c.reference.setCapacity_trace capacity
    rw [← hs.notices, ← hs.reference] at ht
    exact ht
  purgeExpired := by
    intro hd
    rw [Coherent.len_eq h.coherent, Coherent.len_eq h.coherent_after]
    obtain ⟨c, now, command, o⟩ := d
    obtain ⟨⟨items, free, hc⟩, performed, -⟩ := h
    obtain rfl : command = .purgeExpired := hd
    obtain ⟨o, ho, rfl⟩ := exists_of_map_eq_ok performed
    have hs := simulates_of_ok (hc.purgeExpired_simulates now) ho
    obtain ⟨hresult, ht⟩ := c.reference.purgeExpired_trace now
    rw [← hs.notices, ← hs.reference] at ht
    rw [← hs.notices, ← hs.result] at hresult
    exact ⟨congrArg Answer.count hresult, ht⟩
  insert := by
    intro key value result hd hr
    obtain ⟨c, now, command, o⟩ := d
    obtain ⟨hc, performed, -⟩ := h
    have proper : c.reference.Proper := Coherent.proper hc
    obtain ⟨items, free, hc⟩ := hc
    obtain rfl : command = .insert key value := hd
    obtain ⟨o, ho, rfl⟩ := exists_of_map_eq_ok performed
    obtain rfl : o.result = result := Answer.inserted.inj hr
    have hs := simulates_of_ok (hc.insert_simulates now key value) ho
    have hnew := (proper.insert_flow now key value).1
    rw [← hs.result.1, ← hs.entries] at hnew
    exact hnew

theorem Balanced.concat (h : Balanced past d.before.len) (hd : d.Sound) :
    Balanced (past ++ [d]) d.after.len := by
  have hbalance := hd.flow.balance
  rw [← Coherent.len_eq hd.coherent, ← Coherent.len_eq hd.coherent_after] at hbalance
  simp only [Balanced, List.countP_append, List.countP_singleton, List.flatMap_append,
    List.flatMap_singleton, List.map_append, List.map_singleton, List.sum_append,
    List.sum_singleton, Notice.countEvictions] at h ⊢
  have hbool (b : Bool) : (if b = true then 1 else 0) = b.toNat := by cases b <;> rfl
  simp only [hbool]
  rw [Notice.countEvictions] at hbalance
  omega

end Deed

namespace Cache

variable {K V : Type} [BEq K] {c : Cache K V} {steps : List (Instant × Command K V)}

theorem journal_notices {o : Outcome K V (List (Answer K V))} (ho : c.run steps = .ok o) :
    o.notices = (c.journal steps).flatMap fun d => d.outcome.notices := by
  induction steps generalizing c o with
  | nil =>
    cases ho
    rfl
  | cons step rest ih =>
    obtain ⟨now, command⟩ := step
    obtain ⟨first, hfirst, hrest⟩ := exists_of_bind_eq_ok ho
    obtain ⟨others, hothers, ho⟩ := exists_of_bind_eq_ok hrest
    cases ho
    simp only [journal, hfirst, List.flatMap_cons, ← ih hothers]
    rfl

theorem mem_journal_cons {step : Instant × Command K V} {rest : List (Instant × Command K V)}
    {d : Deed K V} (hd : d ∈ c.journal (step :: rest)) : ∃ o, c.perform step.1 step.2 = .ok o ∧
      (d = ⟨c, step.1, step.2, o⟩ ∨ d ∈ o.cache.journal rest) := by
  rw [journal] at hd
  cases ho : c.perform step.1 step.2 with
  | error e => simp [ho] at hd
  | ok o =>
    simp only [ho, List.mem_cons] at hd
    exact ⟨o, rfl, hd⟩

theorem history_notices {o : Outcome K V (List (Answer K V))} (ho : c.run steps = .ok o) :
    o.notices = (c.history steps).flatMap fun d => d.outcome.notices := by
  obtain ⟨o', ho', -, hnotices⟩ := run_singly ho
  rw [← hnotices]
  exact journal_notices ho'

variable [EquivBEq K]

theorem Coherent.of_mem_journal (h : c.Coherent) {d : Deed K V} (hd : d ∈ c.journal steps) :
    d.before.Coherent ∧ d.before.perform d.now d.command = .ok d.outcome := by
  induction steps generalizing c with
  | nil => cases hd
  | cons step rest ih =>
    obtain ⟨o, ho, rfl | hd⟩ := mem_journal_cons hd
    · exact ⟨h, ho⟩
    · obtain ⟨o', ho', hc, -⟩ := h.perform step.1 step.2
      obtain rfl : o = o' := Except.ok.inj (ho.symm.trans ho')
      exact ih hc hd

omit [EquivBEq K] in
theorem history_insertAll (c : Cache K V) (now : Instant) (pairs : List (K × V)) :
    c.history [(now, .insertAll pairs)] =
      c.journal (pairs.map fun pair => (now, .insert pair.1 pair.2)) := by
  rw [history, singly, List.flatMap_singleton, Command.parts, List.map_map]
  rfl

/-- A bulk insertion counts the new keys, each as often as it was stored anew. -/
theorem Coherent.insertAll_count (h : c.Coherent) {now : Instant} {pairs : List (K × V)}
    {o : Outcome K V Nat} (ho : c.insertAll now pairs = .ok o) :
    o.result = (c.history [(now, .insertAll pairs)]).countP Deed.storesNew := by
  rw [history_insertAll]
  induction pairs generalizing c o with
  | nil =>
    cases ho
    rfl
  | cons pair rest ih =>
    obtain ⟨first, hfirst, hrest⟩ := exists_of_bind_eq_ok ho
    obtain ⟨others, hothers, ho⟩ := exists_of_bind_eq_ok hrest
    cases ho
    have hperform : c.perform now (.insert pair.1 pair.2) = .ok (first.map .inserted) := by
      simp only [Cache.perform, hfirst]
      rfl
    have hd : Deed.Sound ⟨c, now, .insert pair.1 pair.2, first.map .inserted⟩ :=
      ⟨h, hperform, by rintro pairs ⟨⟩⟩
    have hnew := hd.traced.insert _ _ _ rfl rfl
    have hcount := ih hd.coherent_after hothers
    simp only [List.map_cons, journal, hperform, List.countP_cons]
    refine congrArg₂ (· + ·) hcount ?_
    rw [← hnew]
    cases first.result.inserted <;> rfl

/-- Over every run of a cache that is empty at first, what was stored anew is still there or has
been evicted, erased or cleared, and the announcements say what was evicted. A bulk insertion counts
its own share. -/
theorem run_conserves (id : UInt64) (capacity : Nat) (policy : Policy) (mode : RecencyMode)
    (steps : List (Instant × Command K V)) :
    ∃ o, (start id capacity policy mode : Cache K V).run steps = .ok o ∧
      o.notices = ((start id capacity policy mode : Cache K V).history steps).flatMap
        (fun d => d.outcome.notices) ∧
      Deed.Balanced ((start id capacity policy mode : Cache K V).history steps) o.cache.len ∧
      (∀ past d future,
        (start id capacity policy mode : Cache K V).history steps = past ++ d :: future →
        Deed.Balanced past d.before.len ∧ d.Traced) ∧
      ∀ d ∈ (start id capacity policy mode : Cache K V).journal steps, ∀ pairs,
        d.command = .insertAll pairs →
        d.outcome.result = .count ((d.before.history [d.step]).countP Deed.storesNew) := by
  have hc : (start id capacity policy mode : Cache K V).Coherent := coherent_start ..
  obtain ⟨o, ho, hbalanced, hsplit⟩ := hc.history_induction
    (I := fun past c => Deed.Balanced past c.len) steps rfl fun past d hd _ h => h.concat hd
  refine ⟨o, ho, history_notices ho, hbalanced, fun past d future hh => ?_,
    fun d hd pairs hcommand => ?_⟩
  · obtain ⟨hsound, -, hpast⟩ := hsplit past d future hh
    exact ⟨hpast, hsound.traced⟩
  · obtain ⟨hbefore, hperformed⟩ := hc.of_mem_journal hd
    obtain ⟨c, now, command, o⟩ := d
    obtain rfl : command = .insertAll pairs := hcommand
    obtain ⟨o, ho, rfl⟩ := exists_of_map_eq_ok hperformed
    exact congrArg Answer.count (Coherent.insertAll_count hbefore ho)

/-- A key that was evicted is stored anew, and counts twice. Later entries are erased, purged and
cleared. -/
theorem run_conserves_restored : EquivBEq Nat ∧ ∃ o, o.cache.len = 0 ∧
    (start 0 1 (.timeToLive 5) .onInsert : Cache Nat Nat).run
      [(0, .insertAll [(1, 10), (2, 20), (1, 11)]), (0, .erase 1), (0, .insert 3 30),
        (9, .purgeExpired), (9, .insert 4 40), (9, .clear)] = .ok o ∧
    ((start 0 1 (.timeToLive 5) .onInsert : Cache Nat Nat).history
      [(0, .insertAll [(1, 10), (2, 20), (1, 11)]), (0, .erase 1), (0, .insert 3 30),
        (9, .purgeExpired), (9, .insert 4 40), (9, .clear)]).countP Deed.storesNew = 5 ∧
    Deed.Balanced ((start 0 1 (.timeToLive 5) .onInsert : Cache Nat Nat).history
      [(0, .insertAll [(1, 10), (2, 20), (1, 11)]), (0, .erase 1), (0, .insert 3 30),
        (9, .purgeExpired), (9, .insert 4 40), (9, .clear)]) 0 := by
  obtain ⟨o, ho, -, hbalanced, -⟩ := run_conserves (K := Nat) (V := Nat) 0 1 (.timeToLive 5)
    .onInsert [(0, .insertAll [(1, 10), (2, 20), (1, 11)]), (0, .erase 1), (0, .insert 3 30),
      (9, .purgeExpired), (9, .insert 4 40), (9, .clear)]
  have hlen : o.cache.len = 0 := by
    cases ho
    rfl
  rw [hlen] at hbalanced
  exact ⟨inferInstance, o, hlen, ho, rfl, hbalanced⟩

end Cache

end Lru
