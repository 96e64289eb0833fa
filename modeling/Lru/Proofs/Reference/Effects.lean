import Lru.Proofs.Reference.Entries

/-! # What requests do to the entries

A request makes at most one entry the most recent one and stamps it. The others
keep their order and their stamps, unless they go, and a request that makes
room lets them go from the front. The policy and the mode never change.
-/

namespace Lru

/-- The key of an entry and its stamp. -/
def Entry.dated {K V : Type} (e : Entry K V) : K × Instant :=
  (e.key, e.stamp)

theorem map_fst_dated {K V : Type} (entries : List (Entry K V)) :
    (entries.map Entry.dated).map Prod.fst = entries.map Entry.key := by
  rw [List.map_map]
  rfl

namespace Notice

variable {K V : Type} {notices : List (Notice K V)}

/-- Whether an access announces that it met a live entry. -/
def isHit : Notice K V → Bool
  | .hit _ _ => true
  | _ => false

/-- The key for which a value was made. -/
def made? : Notice K V → Option K
  | .made key => some key
  | _ => none

/-- Whether an announcement is a mere trace, of no access. -/
def isTrace : Notice K V → Bool
  | .trace _ => true
  | _ => false

theorem any_isHit_of_isTrace (h : notices.all isTrace = true) : notices.any isHit = false := by
  refine List.any_eq_false.mpr fun n hn => ?_
  have ht := List.all_eq_true.mp h n hn
  cases n <;> simp_all [isHit, isTrace]

theorem filterMap_made?_of_isTrace (h : notices.all isTrace = true) :
    notices.filterMap made? = [] := by
  refine List.filterMap_eq_nil_iff.mpr fun n hn => ?_
  have ht := List.all_eq_true.mp h n hn
  cases n <;> simp_all [made?, isTrace]

end Notice

namespace Reference

variable {K V : Type} [BEq K] {r : Reference K V} {before after : List (Entry K V)}
  {entry : Entry K V} {key : K} {now : Instant} {value : V}

section Rules

/-- What governs the entries for good. -/
def rules (r : Reference K V) : Policy × RecencyMode :=
  (r.policy, r.mode)

theorem insert_rules (r : Reference K V) (now : Instant) (key : K) (value : V) :
    (r.insert now key value).reference.rules = r.rules := by
  unfold insert
  split
  · rfl
  · split
    · rfl
    · split <;> rfl

theorem insertAll_rules (r : Reference K V) (now : Instant) (pairs : List (K × V)) :
    (r.insertAll now pairs).reference.rules = r.rules := by
  induction pairs generalizing r with
  | nil => rfl
  | cons pair rest ih => exact (ih _).trans (r.insert_rules now pair.1 pair.2)

theorem promoteOnAccess_rules (r : Reference K V) (now : Instant) (key : K) (entry : Entry K V) :
    (r.promoteOnAccess now key entry).rules = r.rules := by
  unfold promoteOnAccess
  split <;> rfl

theorem perform_rules (r : Reference K V) (now : Instant) (request : Request K V) :
    (r.perform now request).reference.rules = r.rules := by
  cases request with
  | insert key value => exact r.insert_rules now key value
  | insertAll pairs => exact r.insertAll_rules now pairs
  | getOrInsert key make =>
    simp only [perform, Outcome.map, getOrInsert]
    split
    · exact r.promoteOnAccess_rules now key _
    · exact r.insert_rules now key (make key)
  | lookup key =>
    simp only [perform, Outcome.map, lookup]
    split <;> rfl
  | lookupMut key update =>
    simp only [perform, Outcome.map, lookupMut]
    split
    · exact r.promoteOnAccess_rules now key _
    · rfl
  | touch key =>
    simp only [perform, Outcome.map, touch]
    split <;> rfl
  | eraseAt address =>
    simp only [perform, Outcome.map, eraseAt]
    split
    · rfl
    · split <;> rfl
  | _ => rfl

end Rules

section Effect

/-- How a request changes the entries that it finds, where `key?` is the key that it makes the most
recent one and stamps. -/
inductive Effect (now : Instant) (before : List (Entry K V)) :
    (key? : Option K) → (after : List (Entry K V)) → Prop
  /-- No entry was stamped or moved; some may have gone, and values may have been written. -/
  | kept {after : List (Entry K V)}
      (sub : (after.map Entry.dated).Sublist (before.map Entry.dated)) :
      Effect now before none after
  /-- The entry of `key` is the last one, and others may have gone. -/
  | promoted (key : K) (others : List (Entry K V)) (entry : Entry K V)
      (sub : others.Sublist before) (missing : Missing key others) (same : key == entry.key)
      (stamped : entry.stamp = now) : Effect now before (some key) (others ++ [entry])

theorem Effect.of_sublist (h : after.Sublist before) : Effect now before none after :=
  .kept (h.map _)

theorem Effect.refl (now : Instant) (before : List (Entry K V)) :
    Effect now before none before :=
  .of_sublist (List.Sublist.refl _)

theorem dated_write (r : Reference K V) (key : K) (update : V → V) :
    (r.write key update).entries.map Entry.dated = r.entries.map Entry.dated := by
  rw [write, List.map_map]
  refine List.map_congr_left fun e _ => ?_
  by_cases hk : key == e.key <;> simp [Entry.dated, hk]

theorem map_write_of_missing (h : Missing key before) (update : V → V) :
    before.map (fun e => if key == e.key then { e with value := update e.value } else e) =
      before := by
  conv_rhs => rw [← List.map_id before]
  exact List.map_congr_left fun e he => by simp [h e he]

/-- Writing to the entry of the key that a request made the most recent one, or to any. -/
theorem Effect.write {r' : Reference K V} {key? : Option K}
    (h : Effect now before key? r'.entries) (hk : ∀ k ∈ key?, k = key) (update : V → V) :
    Effect now before key? (r'.write key update).entries := by
  generalize he : r'.entries = after at h
  cases h with
  | kept sub =>
    refine .kept ?_
    rwa [dated_write, he]
  | promoted k others entry sub missing same stamped =>
    obtain rfl := hk k rfl
    simp only [Reference.write, he, List.map_append, map_write_of_missing missing, List.map_cons,
      same, if_true, List.map_nil]
    exact .promoted k others _ sub missing same stamped

theorem isTrace_deadNotices (r : Reference K V) (now : Instant) (key : K) :
    (r.deadNotices now key).all Notice.isTrace = true := by
  unfold deadNotices
  split
  · split <;> rfl
  · rfl

theorem isTrace_insert (r : Reference K V) (now : Instant) (key : K) (value : V) :
    (r.insert now key value).notices.all Notice.isTrace = true := by
  unfold insert
  split
  · rfl
  · split
    · rfl
    · split <;> rfl

theorem made_getOrInsert (r : Reference K V) (now : Instant) (key : K) (make : K → V) :
    (r.getOrInsert now key make).notices.filterMap Notice.made? =
      if (r.liveEntry now key).isSome then [] else [key] := by
  unfold getOrInsert
  cases r.liveEntry now key with
  | some entry => rfl
  | none =>
    simp only [List.filterMap_append,
      Notice.filterMap_made?_of_isTrace (r.isTrace_deadNotices now key),
      Notice.filterMap_made?_of_isTrace (r.isTrace_insert now key (make key))]
    rfl

omit [BEq K] in
theorem eraseAt_sublist (r : Reference K V) (address : Except CacheError (Option Nat)) :
    (r.eraseAt address).reference.entries.Sublist r.entries := by
  unfold eraseAt
  split
  · exact List.Sublist.refl _
  · split
    · exact List.Sublist.refl _
    · exact List.eraseIdx_sublist _ _

theorem entryOf_of_liveEntry (h : r.liveEntry now key = some entry) :
    r.entryOf key = some entry :=
  (Option.filter_eq_some_iff.mp h).1

variable [EquivBEq K]

theorem Distinct.promote_effect (h : Distinct r.entries) (he : r.entryOf key = some entry)
    (now : Instant) : Effect now r.entries (some key) (r.promote now key entry).entries := by
  cases h.located key with
  | absent missing entryOf others =>
    rw [entryOf] at he
    cases he
  | stored p s found split same missing entryOf others =>
    rw [entryOf] at he
    cases he
    rw [promote, others]
    have hsub : (p ++ s).Sublist r.entries := by simp [split]
    exact .promoted key (p ++ s) _ hsub missing same rfl

theorem Distinct.promoteOnAccess_effect (h : Distinct r.entries)
    (he : r.entryOf key = some entry) (now : Instant) :
    Effect now r.entries (if r.mode = .onAccess then some key else none)
      (r.promoteOnAccess now key entry).entries := by
  cases hm : r.mode with
  | onInsert =>
    rw [promoteOnAccess, hm]
    exact .refl now r.entries
  | onAccess =>
    rw [promoteOnAccess, hm]
    exact h.promote_effect he now

theorem Proper.insert_isNone (h : r.Proper) (now : Instant) (key : K) (value : V) :
    (r.insert now key value).result.2.isNone = decide (r.capacity = 0) := by
  cases h.inserting now key value with
  | refused missing empty inserted => simp [inserted, empty]
  | replaced p s entry split same missing held inserted => simp [inserted, held]
  | appended missing room inserted => simp [inserted, Nat.ne_of_gt (Nat.zero_lt_of_lt room)]
  | displaced head s split missing full inserted => simp [inserted, full]

theorem Proper.insert_effect (h : r.Proper) (now : Instant) (key : K) (value : V) :
    Effect now r.entries (if r.capacity = 0 then none else some key)
      (r.insert now key value).reference.entries := by
  cases h.inserting now key value with
  | refused missing empty inserted =>
    rw [inserted, if_pos empty]
    exact .refl now _
  | replaced p s entry split same missing held inserted =>
    rw [inserted, if_neg held]
    have hsub : (p ++ s).Sublist r.entries := by simp [split]
    exact .promoted key (p ++ s) _ hsub missing same rfl
  | appended missing room inserted =>
    rw [inserted, if_neg (by omega)]
    exact .promoted key r.entries _ (List.Sublist.refl _) missing BEq.rfl rfl
  | displaced head s split missing full inserted =>
    rw [inserted, if_neg (by omega)]
    have hsub : s.Sublist r.entries := by simp [split]
    have hs : Missing key s := fun e he => missing e (List.mem_cons_of_mem _ he)
    exact .promoted key s _ hsub hs BEq.rfl rfl

theorem Proper.getOrInsert_effect (h : r.Proper) (now : Instant) (key : K) (make : K → V) :
    Effect now r.entries
      (if (r.getOrInsert now key make).notices.any Notice.isHit then
        if r.mode = .onAccess then some key else none
      else if r.capacity = 0 then none else some key)
      (r.getOrInsert now key make).reference.entries := by
  unfold getOrInsert
  cases hl : r.liveEntry now key with
  | none =>
    simp only [List.any_append, Notice.any_isHit_of_isTrace (r.isTrace_deadNotices now key),
      Notice.any_isHit_of_isTrace (r.isTrace_insert now key (make key))]
    exact h.insert_effect now key (make key)
  | some entry => exact h.distinct.promoteOnAccess_effect (entryOf_of_liveEntry hl) now

theorem Proper.lookupMut_effect (h : r.Proper) (now : Instant) (key : K) (update : V → V) :
    Effect now r.entries
      (match (r.lookupMut now key update).result with
        | .ok _ => if r.mode = .onAccess then some key else none
        | .error _ => none)
      (r.lookupMut now key update).reference.entries := by
  unfold lookupMut
  cases hl : r.liveEntry now key with
  | none => exact .refl now r.entries
  | some entry =>
    have he := h.distinct.promoteOnAccess_effect (entryOf_of_liveEntry hl) now
    refine he.write ?_ update
    intro k hk
    split at hk
    · exact (Option.some.inj hk).symm
    · cases hk

theorem Proper.touch_effect (h : r.Proper) (now : Instant) (key : K) :
    Effect now r.entries (if (r.touch now key).result then some key else none)
      (r.touch now key).reference.entries := by
  unfold touch
  cases hl : r.liveEntry now key with
  | none => exact .refl now r.entries
  | some entry => exact h.distinct.promote_effect (entryOf_of_liveEntry hl) now

end Effect

section Loss

theorem stores_write (r : Reference K V) (key k : K) (update : V → V) :
    stores k (r.write key update).entries = stores k r.entries := by
  have h := congrArg (·.any fun x => k == x.1) (dated_write r key update)
  simpa [stores, List.any_map, Function.comp_def, Entry.dated] using h

omit [BEq K] in
/-- An entry at a place goes when the place is erased, and the others stay. -/
theorem eraseIdx_of_getElem? {i : Nat} (h : before[i]? = some entry) :
    ∃ p s, before = p ++ entry :: s ∧ before.eraseIdx i = p ++ s := by
  obtain ⟨hi, rfl⟩ := List.getElem?_eq_some_iff.mp h
  refine ⟨before.take i, before.drop (i + 1), ?_, List.eraseIdx_eq_take_drop_succ before i⟩
  rw [List.getElem_cons_drop, List.take_append_drop]

variable [EquivBEq K]

theorem Distinct.stores_promote {k : K} (h : Distinct r.entries)
    (he : r.entryOf key = some entry) (now : Instant) :
    stores k (r.promote now key entry).entries = stores k r.entries := by
  cases h.located key with
  | absent missing entryOf others =>
    rw [entryOf] at he
    cases he
  | stored p s found split same missing entryOf others =>
    rw [entryOf] at he
    cases he
    rw [promote, others, split]
    exact stores_moved entry { entry with stamp := now } rfl

theorem Distinct.stores_promoteOnAccess {k : K} (h : Distinct r.entries)
    (he : r.entryOf key = some entry) (now : Instant) :
    stores k (r.promoteOnAccess now key entry).entries = stores k r.entries := by
  cases hm : r.mode with
  | onInsert => rw [promoteOnAccess, hm]
  | onAccess =>
    rw [promoteOnAccess, hm]
    exact h.stores_promote he now

/-- Without one entry its key is no longer stored, and the other keys are. -/
theorem Distinct.stores_without {p s : List (Entry K V)} {k : K}
    (h : Distinct (p ++ entry :: s)) (hk : k == entry.key) (key : K) :
    (stores key (p ++ entry :: s) && !stores key (p ++ s)) = (key == k) := by
  cases he : key == entry.key with
  | true =>
    rw [stores_eq_false_iff.mpr (h.missing he), BEq.trans he (BEq.symm hk)]
    simp [stores, he]
  | false =>
    have hs : stores key (p ++ entry :: s) = stores key (p ++ s) := by simp [stores, he]
    rw [hs, Bool.and_not_self, ← he]
    exact BEq.congr_right (BEq.symm hk)

/-- Erasing removes the key if it tells so, and no other key. -/
theorem Distinct.erase_removes (h : Distinct r.entries) (key k : K) :
    ((r.erase k).result && key == k) =
      (stores key r.entries && !stores key (r.erase k).reference.entries) := by
  unfold erase
  cases h.located k with
  | absent missing entryOf others => simp [entryOf, others]
  | stored p s entry split same missing entryOf others =>
    have hw := (split ▸ h : Distinct (p ++ entry :: s)).stores_without same key
    simp [entryOf, others, split, hw]

theorem Distinct.eraseAt_removes (h : Distinct r.entries) (key : K)
    (address : Except CacheError (Option Nat)) :
    (match (r.eraseAt address).result with
      | .ok (k, _) => key == k
      | .error _ => false) =
      (stores key r.entries && !stores key (r.eraseAt address).reference.entries) := by
  unfold eraseAt
  cases address with
  | error e => exact (Bool.and_not_self _).symm
  | ok place =>
    cases place with
    | none => exact (Bool.and_not_self _).symm
    | some i =>
      cases hi : r.entries[i]? with
      | none => simp [hi]
      | some entry =>
        obtain ⟨p, s, split, hidx⟩ := eraseIdx_of_getElem? hi
        have hw := (split ▸ h : Distinct (p ++ entry :: s)).stores_without BEq.rfl key
        rw [← split] at hw
        simp [hi, hidx, hw]

theorem Distinct.popFront_removes (h : Distinct r.entries) (key : K) :
    (r.popFront.result.any fun x => key == x.1) =
      (stores key r.entries && !stores key r.popFront.reference.entries) := by
  unfold popFront
  cases he : r.entries with
  | nil => rfl
  | cons head s =>
    exact ((he ▸ h : Distinct ([] ++ head :: s)).stores_without BEq.rfl key).symm

theorem Proper.insert_lost (h : r.Proper) (now : Instant) (key : K) (value : V) :
    lost r.entries (r.insert now key value).reference.entries <+: r.entries := by
  cases h.inserting now key value with
  | refused missing empty inserted =>
    rw [inserted]
    exact lost_prefix_of_kept fun e he => stores_of_mem he
  | replaced p s entry split same missing held inserted =>
    rw [inserted, split]
    refine lost_prefix_of_kept fun e he => ?_
    have hm := stores_of_mem he
    rwa [← stores_moved entry { entry with value, stamp := now } rfl] at hm
  | appended missing room inserted =>
    rw [inserted]
    exact lost_prefix_of_kept fun e he => by simp [stores_append, stores_of_mem he]
  | displaced head s split missing full inserted =>
    rw [inserted, split]
    have hd : Distinct (head :: s) := split ▸ h.distinct
    rw [← List.singleton_append]
    refine lost_prefix ?_ fun e he => by simp [stores_append, stores_of_mem he]
    intro e he
    obtain rfl := List.mem_singleton.mp he
    refine missing_append.mpr ⟨(List.pairwise_cons.mp hd).1, ?_⟩
    simpa [Missing] using BEq.symm_false (missing e List.mem_cons_self)

theorem Proper.getOrInsert_lost (h : r.Proper) (now : Instant) (key : K) (make : K → V) :
    lost r.entries (r.getOrInsert now key make).reference.entries <+: r.entries := by
  unfold getOrInsert
  cases hl : r.liveEntry now key with
  | none => exact h.insert_lost now key (make key)
  | some entry =>
    refine lost_prefix_of_kept fun e he => ?_
    rw [h.distinct.stores_promoteOnAccess (entryOf_of_liveEntry hl)]
    exact stores_of_mem he

end Loss

end Reference

end Lru
