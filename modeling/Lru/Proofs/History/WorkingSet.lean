import Mathlib.Data.List.Induction
import Lru.Proofs.History.Recency
import Lru.Proofs.Latest
import Lru.Proofs.Reference.Inclusion

/-! # Working sets

A key goes to make room only from the front of a full cache. All other keys
that are then stored were promoted after it, and so was the new one. So a key
stays stored until as many other keys as the cache holds were promoted behind
its own last promotion, whatever was evicted, erased and stored again.
-/

namespace Lru

namespace Reference

variable {K V : Type} [BEq K] {r : Reference K V} {key : K} {now : Instant}

/-- The entry of `key` stood at the front of a full reference and made room for the last entry. -/
def Displaces (key : K) (r : Reference K V) (after : List (Entry K V)) : Prop :=
  ∃ head s last, r.entries = head :: s ∧ key == head.key ∧ after = s ++ [last] ∧
    r.capacity = s.length + 1

theorem stores_eq_any_dated (key : K) (entries : List (Entry K V)) :
    stores key entries = (entries.map Entry.dated).any fun x => key == x.1 := by
  simp [stores, List.any_map, Function.comp_def, Entry.dated]

section Capacity

theorem promoteOnAccess_capacity (r : Reference K V) (now : Instant) (key : K)
    (entry : Entry K V) : (r.promoteOnAccess now key entry).capacity = r.capacity := by
  unfold promoteOnAccess
  split <;> rfl

theorem insertAll_capacity (r : Reference K V) (now : Instant) (pairs : List (K × V)) :
    (r.insertAll now pairs).reference.capacity = r.capacity := by
  induction pairs generalizing r with
  | nil => rfl
  | cons pair rest ih => exact (ih _).trans (r.insert_capacity now pair.1 pair.2)

theorem perform_capacity (r : Reference K V) (now : Instant) {request : Request K V}
    (hr : ∀ capacity, request ≠ .setCapacity capacity) :
    (r.perform now request).reference.capacity = r.capacity := by
  cases request with
  | setCapacity capacity => exact absurd rfl (hr capacity)
  | insert key value => exact r.insert_capacity now key value
  | insertAll pairs => exact r.insertAll_capacity now pairs
  | getOrInsert key make =>
    simp only [perform, Outcome.map, getOrInsert]
    split
    · exact r.promoteOnAccess_capacity now key _
    · exact r.insert_capacity now key (make key)
  | lookup key =>
    simp only [perform, Outcome.map, lookup]
    split <;> rfl
  | lookupMut key update =>
    simp only [perform, Outcome.map, lookupMut]
    split
    · exact r.promoteOnAccess_capacity now key _
    · rfl
  | touch key =>
    simp only [perform, Outcome.map, touch]
    split <;> rfl
  | eraseAt address =>
    simp only [perform, Outcome.map, eraseAt]
    split
    · rfl
    · split <;> rfl
  | _ => rfl

end Capacity

variable [EquivBEq K]

theorem Proper.insert_displaces (h : r.Proper) {k : K} {value : V}
    (hs : stores key r.entries = true)
    (hn : stores key (r.insert now k value).reference.entries = false) :
    Displaces key r (r.insert now k value).reference.entries := by
  cases h.inserting now k value with
  | refused missing empty inserted =>
    rw [inserted, hs] at hn
    cases hn
  | replaced p s entry split same missing held inserted =>
    rw [split] at hs
    have moved : stores key (p ++ s ++ [{ entry with value, stamp := now }]) = true :=
      (stores_moved entry { entry with value, stamp := now } rfl).trans hs
    rw [inserted, moved] at hn
    cases hn
  | appended missing room inserted =>
    rw [inserted, stores_append, hs] at hn
    cases hn
  | displaced head s split missing full inserted =>
    rw [inserted, stores_append, Bool.or_eq_false_iff] at hn
    refine ⟨head, s, ⟨k, value, now⟩, split, ?_, by rw [inserted], full⟩
    rw [split, stores, List.any_cons, Bool.or_eq_true] at hs
    exact hs.resolve_right (Bool.eq_false_iff.mp hn.1)

theorem Proper.getOrInsert_displaces (h : r.Proper) {k : K} {make : K → V}
    (hs : stores key r.entries = true)
    (hn : stores key (r.getOrInsert now k make).reference.entries = false) :
    Displaces key r (r.getOrInsert now k make).reference.entries := by
  unfold getOrInsert at hn ⊢
  cases hl : r.liveEntry now k with
  | none =>
    rw [hl] at hn
    exact h.insert_displaces hs hn
  | some entry =>
    have kept : stores key (r.promoteOnAccess now k entry).entries = true := by
      rw [h.distinct.stores_promoteOnAccess (entryOf_of_liveEntry hl), hs]
    rw [hl, kept] at hn
    cases hn

end Reference

open Reference

section Deeds

variable {K V : Type} [BEq K] {d : Deed K V} {key : K}

/-- Whether an operation takes the entry of `key`, if at all, to make room for another one: it does
not resize, clear, pop or purge, and does not erase this entry. -/
def Deed.spares (d : Deed K V) (key : K) : Bool :=
  match d.command with
  | .setCapacity _ | .clear | .popFront | .purgeExpired => false
  | .erase _ | .eraseAt _ => !d.removes key
  | _ => true

variable [EquivBEq K]

theorem Deed.Sound.capacity_of_spares (h : d.Sound) (hs : d.spares key = true) :
    d.after.capacity = d.before.capacity := by
  have hc : d.after.capacity = (d.before.leaves d.now d.command).capacity :=
    congrArg Reference.capacity (h.coherent.perform_reference h.performed)
  rw [hc, Cache.leaves]
  split
  · next request hr =>
    refine Reference.perform_capacity _ _ fun capacity hq => ?_
    subst hq
    obtain ⟨c, now, command, o⟩ := d
    cases command with
    | setCapacity capacity => cases hs
    | cursor start moves => cases start <;> cases hr
    | _ => cases hr
  · rfl

theorem Deed.Sound.displaces (h : d.Sound) (hs : d.spares key = true)
    (hb : stores key d.before.entries = true) (hn : stores key d.after.entries = false) :
    Displaces key d.before.reference d.after.entries := by
  have removed : d.removes key = true := by rw [h.removes_eq key, hb, hn]; rfl
  have proper := h.coherent.proper
  have he : d.after.entries = (d.before.leaves d.now d.command).entries :=
    congrArg Reference.entries (h.coherent.perform_reference h.performed)
  obtain ⟨c, now, command, o⟩ := d
  rw [he] at hn ⊢
  cases command with
  | insert k value => exact proper.insert_displaces hb hn
  | getOrInsert k make => exact proper.getOrInsert_displaces hb hn
  | erase k => simp [spares, removed] at hs
  | eraseAt g => simp [spares, removed] at hs
  | setCapacity capacity => cases hs
  | clear => cases hs
  | popFront => cases hs
  | purgeExpired => cases hs
  | _ => cases removed

theorem Deed.Sound.stores_of_promotes (h : d.Sound) (hp : d.promotes key = true) :
    stores key d.after.entries = true := by
  have effect := h.effect
  rw [promotes] at hp
  generalize d.promoted? = key? at effect hp
  generalize d.after.entries = after at effect
  cases effect with
  | kept sub => cases hp
  | promoted k others entry sub missing same stamped =>
    have hkey : key == entry.key := BEq.trans hp same
    simp [stores, hkey]

theorem Deed.Sound.promoted_of_displaces (h : d.Sound) {head last : Entry K V}
    {s : List (Entry K V)} (hb : d.before.entries = head :: s)
    (ha : d.after.entries = s ++ [last]) (hkey : key == head.key)
    (hn : stores key d.after.entries = false) : ∃ k, d.promoted? = some k ∧ k == last.key := by
  have effect := h.effect
  generalize hk : d.promoted? = key? at effect
  generalize hafter : d.after.entries = after at effect ha hn
  cases effect with
  | kept sub =>
    -- As many entries as before would be the same ones, and `key` among them.
    have heq : after.map Entry.dated = d.before.entries.map Entry.dated :=
      sub.eq_of_length (by simp [hb, ha])
    rw [stores_eq_any_dated, heq, ← stores_eq_any_dated, hb, stores, List.any_cons, hkey] at hn
    cases hn
  | promoted k others entry sub missing same stamped =>
    obtain ⟨-, hlast⟩ := List.append_inj' ha rfl
    obtain rfl := List.singleton_inj.mp hlast
    exact ⟨k, rfl, same⟩

end Deeds

namespace Cache

variable {K V : Type}

def promotions (i : Nat) (history : List (Deed K V)) : List K :=
  (history.drop (i + 1)).filterMap Deed.promoted?

variable [BEq K]

/-- The keys that were promoted in a history behind position `i`, each once. -/
def promotedSince (i : Nat) (history : List (Deed K V)) : List K :=
  latest (fun key => key) (promotions i history)

/-- `key` is stored, or `capacity` distinct keys were promoted since its last promotion. -/
def Retains (key : K) (capacity : Nat) (past : List (Deed K V)) (c : Cache K V) : Prop :=
  ∃ i, lastPromotion? key past = some i ∧
    (stores key c.entries = true ∨ capacity ≤ (promotedSince i past).length)

variable {past : List (Deed K V)} {d : Deed K V} {key a b : K} {i j : Nat}

omit [BEq K] in
theorem promotions_concat (hi : i < past.length) :
    promotions i (past ++ [d]) = promotions i past ++ d.promoted?.toList := by
  rw [promotions, List.drop_append_of_le_length (Nat.succ_le_of_lt hi), List.filterMap_append]
  cases hd : d.promoted? <;> simp [promotions, hd]

theorem any_promotions (hj : lastPromotion? key past = some j) (hij : i < j) :
    (promotions i past).any (key == ·) = true := by
  induction past using List.reverseRecOn with
  | nil => cases hj
  | append_singleton past d ih =>
    cases hd : d.promotes key with
    | true =>
      rw [lastPromotion?_of_promotes hd] at hj
      obtain rfl := Option.some.inj hj
      have hk : d.promoted?.toList.any (key == ·) = true := by
        rw [Deed.promotes] at hd
        cases hp : d.promoted? <;> simp_all
      rw [promotions_concat hij, List.any_append, hk, Bool.or_true]
    | false =>
      rw [lastPromotion?_of_not_promotes hd] at hj
      have hlt := lastPromotion?_lt hj
      rw [promotions_concat (by omega), List.any_append, ih hj, Bool.true_or]

variable [EquivBEq K]

theorem promotes_congr (h : a == b) (d : Deed K V) : d.promotes a = d.promotes b := by
  unfold Deed.promotes
  cases d.promoted? with
  | none => rfl
  | some k => exact BEq.congr_left h

theorem lastPromotion?_congr (h : a == b) (past : List (Deed K V)) :
    lastPromotion? a past = lastPromotion? b past := by
  induction past with
  | nil => rfl
  | cons d past ih => simp only [lastPromotion?, ih, promotes_congr h d]

theorem promotedSince_length_le (hi : i < past.length) :
    (promotedSince i past).length ≤ (promotedSince i (past ++ [d])).length := by
  rw [promotedSince, promotedSince, promotions_concat hi]
  cases d.promoted? with
  | none => simp
  | some k => exact latest_length_le_concat _ _ k

theorem RankedBy.retains {c : Cache K V} {capacity : Nat}
    (h : RankedBy past (c.entries.map Entry.key)) (hs : stores key c.entries = true) :
    Retains key capacity past c := by
  obtain ⟨x, hx, hkey⟩ := stores_eq_true_iff.mp hs
  obtain ⟨i, hi⟩ := Option.isSome_iff_exists.mp (h.promoted _ (List.mem_map_of_mem hx))
  exact ⟨i, (lastPromotion?_congr hkey past).trans hi, .inl hs⟩

/-- When a key is displaced, the keys that are stored then were all promoted behind it. -/
theorem promotedSince_of_displaces (hr : RankedBy past (d.before.entries.map Entry.key))
    (hd : d.Sound) (hi : lastPromotion? key past = some i)
    (hdis : Displaces key d.before.reference d.after.entries)
    (hn : stores key d.after.entries = false) :
    d.before.capacity ≤ (promotedSince i (past ++ [d])).length := by
  obtain ⟨head, s, last, hb, hkey, ha, hcap⟩ := hdis
  change d.before.entries = head :: s at hb
  have hlt : i < past.length := lastPromotion?_lt hi
  have distinct : Distinct d.after.entries := hd.coherent_after.proper.distinct
  have since : ∀ x ∈ d.after.entries.map Entry.key,
      (promotions i (past ++ [d])).any (x == ·) = true := by
    intro x hx
    rw [promotions_concat hlt, List.any_append, Bool.or_eq_true]
    rw [ha, List.map_append] at hx
    rcases List.mem_append.mp hx with hx | hx
    · rw [hb] at hr
      obtain ⟨i', j, hi', hj, hij⟩ := (List.pairwise_cons.mp hr.increasing).1 x hx
      rw [← lastPromotion?_congr hkey, hi] at hi'
      obtain rfl := Option.some.inj hi'
      exact .inl (any_promotions hj hij)
    · obtain rfl := List.mem_singleton.mp hx
      obtain ⟨k, hk, hlast⟩ := hd.promoted_of_displaces hb ha hkey hn
      exact .inr (by simp [hk, BEq.symm hlast])
  calc d.before.capacity = s.length + 1 := hcap
    _ = (d.after.entries.map Entry.key).length := by simp [ha]
    _ ≤ (promotedSince i (past ++ [d])).length :=
      length_le_latest (List.pairwise_map.mpr distinct) since

theorem Retains.step (h : Retains key d.before.capacity past d.before)
    (hr : RankedBy past (d.before.entries.map Entry.key)) (hd : d.Sound)
    (hs : d.spares key = true) : Retains key d.before.capacity (past ++ [d]) d.after := by
  obtain ⟨i, hi, hkept⟩ := h
  have hlt : i < past.length := lastPromotion?_lt hi
  cases hp : d.promotes key with
  | true => exact ⟨past.length, lastPromotion?_of_promotes hp, .inl (hd.stores_of_promotes hp)⟩
  | false =>
    refine ⟨i, (lastPromotion?_of_not_promotes hp).trans hi, ?_⟩
    rcases hkept with hstored | hmany
    · cases hn : stores key d.after.entries with
      | true => exact .inl rfl
      | false =>
        exact .inr (promotedSince_of_displaces hr hd hi (hd.displaces hs hstored hn) hn)
    · exact .inr (Nat.le_trans hmany (promotedSince_length_le hlt))

/-- In every reachable state a stored key has a last promotion, and it stays stored while the run
goes on without removing it other than to make room, as long as fewer distinct keys than the cache
holds were promoted since its last promotion, whether that was before or on the way. -/
theorem run_retains (id : UInt64) (capacity : Nat) (policy : Policy) (mode : RecencyMode)
    (steps more : List (Instant × Command K V)) (key : K) :
    ∃ o p, (start id capacity policy mode : Cache K V).run steps = .ok o ∧
      o.cache.run more = .ok p ∧
      (stores key o.cache.entries = true →
        (∀ d ∈ o.cache.history more, d.spares key = true) →
        ∃ i, lastPromotion? key ((start id capacity policy mode).history (steps ++ more)) = some i ∧
          ((promotedSince i ((start id capacity policy mode).history (steps ++ more))).length <
            o.cache.capacity → stores key p.cache.entries = true)) := by
  have hstart : (start id capacity policy mode : Cache K V).Coherent := coherent_start ..
  have first : RankedBy ([] : List (Deed K V))
      ((start id capacity policy mode : Cache K V).entries.map Entry.key) :=
    ⟨fun key hk => (nomatch hk), .nil⟩
  obtain ⟨o, ho, hranked, -⟩ := hstart.history_induction steps
    (I := fun past c => RankedBy past (c.entries.map Entry.key)) first
    fun past d hd _ hI => hI.step hd
  generalize hpast : (start id capacity policy mode).history steps = past at hranked
  have hc := hstart.of_run ho
  obtain ⟨p, hp, hI, -⟩ := hc.history_induction more
    (I := fun later c => RankedBy (past ++ later) (c.entries.map Entry.key) ∧
      (stores key o.cache.entries = true → (∀ d ∈ later, d.spares key = true) →
        c.capacity = o.cache.capacity ∧ Retains key o.cache.capacity (past ++ later) c))
    (by
      rw [List.append_nil]
      exact ⟨hranked, fun hstored _ => ⟨rfl, hranked.retains hstored⟩⟩)
    (by
      rintro later d hd - ⟨hr, hk⟩
      rw [← List.append_assoc]
      refine ⟨hr.step hd, fun hstored hspares => ?_⟩
      obtain ⟨hlater, hs⟩ := List.forall_mem_append.mp hspares
      have hs : d.spares key = true := hs d List.mem_cons_self
      obtain ⟨hcap, hretains⟩ := hk hstored hlater
      rw [← hcap] at hretains ⊢
      exact ⟨hd.capacity_of_spares hs, hretains.step hr hd hs⟩)
  refine ⟨o, p, ho, hp, fun hstored hspares => ?_⟩
  obtain ⟨-, i, hi, hkept⟩ := hI.2 hstored hspares
  rw [history_append ho, hpast]
  exact ⟨i, hi, fun hfew => hkept.resolve_right (Nat.not_le_of_lt hfew)⟩

/-- A key found by an access that promotes outlives the one stored later. The key stored twice
since then counts once. -/
theorem run_retains_found : EquivBEq Nat ∧ ∃ o p,
    (start 0 2 .capacity .onAccess : Cache Nat Nat).run [(0, .insert 1 10), (0, .insert 2 20)] =
      .ok o ∧
    o.cache.run [(0, .lookupMut 1 fun v => v), (0, .insert 3 30), (0, .insert 3 31)] = .ok p ∧
    stores 1 o.cache.entries = true ∧ o.cache.capacity = 2 ∧
    (∀ d ∈ o.cache.history
      [(0, .lookupMut 1 fun v => v), (0, .insert 3 30), (0, .insert 3 31)], d.spares 1 = true) ∧
    stores 1 p.cache.entries = true := by
  obtain ⟨o, p, ho, hp, hretains⟩ := run_retains 0 2 .capacity .onAccess
    [(0, .insert 1 10), (0, .insert 2 20)]
    [(0, .lookupMut 1 fun v : Nat => v), (0, .insert 3 30), (0, .insert 3 31)] 1
  have hview : ((start 0 2 .capacity .onAccess : Cache Nat Nat).run
      [(0, .insert 1 10), (0, .insert 2 20)]).map (fun o => (stores 1 o.cache.entries,
        o.cache.capacity, (o.cache.history
          [(0, .lookupMut 1 fun v => v), (0, .insert 3 30), (0, .insert 3 31)]).all
          (·.spares 1))) = .ok (true, 2, true) := by rfl
  rw [ho] at hview
  obtain ⟨hstored, hrest⟩ := Prod.mk.inj (Except.ok.inj hview)
  obtain ⟨hcap, hall⟩ := Prod.mk.inj hrest
  have hspares := List.all_eq_true.mp hall
  obtain ⟨i, hi, hkept⟩ := hretains hstored hspares
  obtain rfl : 2 = i := Option.some.inj hi
  rw [hcap] at hkept
  exact ⟨inferInstance, o, p, ho, hp, hstored, hcap, hspares, hkept (by decide)⟩

end Cache

end Lru
