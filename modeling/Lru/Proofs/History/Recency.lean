import Lru.Proofs.History.Effects

/-! # Recency and history

Every stored key was promoted by some operation of the run, and the recency
list has the keys in the order of their last promotions. So the entry at the
front is the one whose last promotion is the oldest, and it is the one that
goes when room is made; reading does not change which one it is.
-/

namespace Lru

namespace Cache

variable {K V : Type} [BEq K]

/-- The position in a history of the last operation that promoted `key`. -/
def lastPromotion? (key : K) : List (Deed K V) → Option Nat
  | [] => none
  | d :: rest =>
    match lastPromotion? key rest with
    | some i => some (i + 1)
    | none => if d.promotes key then some 0 else none

/-- The last promotion of `a` is older than that of `b`. -/
def PromotedBefore (history : List (Deed K V)) (a b : K) : Prop :=
  ∃ i j, lastPromotion? a history = some i ∧ lastPromotion? b history = some j ∧ i < j

/-- The keys were all promoted and stand in the order of their last promotions. -/
structure RankedBy (history : List (Deed K V)) (keys : List K) : Prop where
  promoted : ∀ key ∈ keys, (lastPromotion? key history).isSome = true
  increasing : keys.Pairwise (PromotedBefore history)

/-- Evicting the front over and over removes `gone` from `c` and leaves `d`, and each entry goes
while all the others that are stored then have later last promotions. -/
inductive EvictsOldest (history : List (Deed K V)) :
    (c : Cache K V) → (gone : List (Entry K V)) → (d : Cache K V) → Prop
  | done (c : Cache K V) : EvictsOldest history c [] c
  | next {c d : Cache K V} {entry : Entry K V} {gone : List (Entry K V)}
      (evicted : c.evictFront.result = some entry)
      (oldest : ∀ x ∈ c.evictFront.cache.entries, PromotedBefore history entry.key x.key)
      (rest : EvictsOldest history c.evictFront.cache gone d) :
      EvictsOldest history c (entry :: gone) d

variable {past : List (Deed K V)} {d : Deed K V} {key a b : K} {keys : List K} {c : Cache K V}

theorem lastPromotion?_concat (key : K) (past : List (Deed K V)) (d : Deed K V) :
    lastPromotion? key (past ++ [d]) =
      if d.promotes key then some past.length else lastPromotion? key past := by
  induction past with
  | nil => rfl
  | cons e past ih =>
    by_cases hd : d.promotes key <;> simp [lastPromotion?, ih, hd]

theorem lastPromotion?_lt {i : Nat} (h : lastPromotion? key past = some i) : i < past.length := by
  induction past generalizing i with
  | nil => cases h
  | cons d past ih =>
    rw [lastPromotion?] at h
    split at h
    · next j hj =>
      cases h
      exact Nat.succ_lt_succ (ih hj)
    · split at h
      · cases h
        exact Nat.zero_lt_succ _
      · cases h

theorem lastPromotion?_of_not_promotes (h : d.promotes key = false) :
    lastPromotion? key (past ++ [d]) = lastPromotion? key past := by
  rw [lastPromotion?_concat, h]
  rfl

theorem lastPromotion?_of_promotes (h : d.promotes key = true) :
    lastPromotion? key (past ++ [d]) = some past.length := by
  rw [lastPromotion?_concat, h]
  rfl

theorem RankedBy.sublist {keys' : List K} (h : RankedBy past keys) (hs : keys'.Sublist keys) :
    RankedBy past keys' :=
  ⟨fun key hk => h.promoted key (hs.subset hk), h.increasing.sublist hs⟩

theorem RankedBy.later (h : RankedBy past keys) (hn : ∀ key ∈ keys, d.promotes key = false) :
    RankedBy (past ++ [d]) keys := by
  have hl : ∀ key ∈ keys, lastPromotion? key (past ++ [d]) = lastPromotion? key past :=
    fun key hk => lastPromotion?_of_not_promotes (hn key hk)
  refine ⟨fun key hk => by rw [hl key hk]; exact h.promoted key hk, ?_⟩
  refine h.increasing.imp_of_mem fun {a b} ha hb hab => ?_
  rwa [PromotedBefore, hl a ha, hl b hb]

theorem RankedBy.concat (h : RankedBy past keys) (hn : ∀ key ∈ keys, d.promotes key = false)
    (hd : d.promotes key = true) : RankedBy (past ++ [d]) (keys ++ [key]) := by
  have hlast : lastPromotion? key (past ++ [d]) = some past.length :=
    lastPromotion?_of_promotes hd
  have hkeys := h.later hn
  refine ⟨?_, List.pairwise_append.mpr ⟨hkeys.increasing, List.pairwise_singleton _ _, ?_⟩⟩
  · intro k hk
    rcases List.mem_append.mp hk with hk | hk
    · exact hkeys.promoted k hk
    · obtain rfl := List.mem_singleton.mp hk
      rw [hlast]
      rfl
  · intro k hk last hm
    obtain rfl := List.mem_singleton.mp hm
    obtain ⟨i, hi⟩ := Option.isSome_iff_exists.mp (h.promoted k hk)
    refine ⟨i, past.length, ?_, hlast, lastPromotion?_lt hi⟩
    rw [lastPromotion?_of_not_promotes (hn k hk), hi]

section Steps

open Reference

theorem promotes_of_promoted? (h : d.promoted? = some key) (k : K) : d.promotes k = (k == key) := by
  rw [Deed.promotes, h]
  rfl

variable [EquivBEq K]

/-- An operation keeps the keys in the order of their last promotions. -/
theorem RankedBy.step (h : RankedBy past (d.before.entries.map Entry.key)) (hd : d.Sound) :
    RankedBy (past ++ [d]) (d.after.entries.map Entry.key) := by
  have effect := hd.effect
  generalize hk : d.promoted? = key? at effect
  generalize ha : d.after.entries = after at effect
  cases effect with
  | kept sub =>
    have hs : (after.map Entry.key).Sublist (d.before.entries.map Entry.key) := by
      rw [← map_fst_dated, ← map_fst_dated]
      exact sub.map Prod.fst
    refine (h.sublist hs).later fun key _ => ?_
    rw [Deed.promotes, hk]
    rfl
  | promoted key others entry sub missing same stamped =>
    have hp := promotes_of_promoted? hk
    rw [List.map_append]
    refine (h.sublist (sub.map Entry.key)).concat ?_ ?_
    · intro k hm
      obtain ⟨x, hx, rfl⟩ := List.mem_map.mp hm
      rw [hp]
      exact BEq.symm_false (missing x hx)
    · rw [hp]
      exact BEq.symm same

/-- Evicting the front takes the entries in the order of their last promotions. -/
theorem Holds.evictsOldest {gone kept : List (SlotId × Entry K V)} {free : List SlotId}
    (h : c.Holds (gone ++ kept) free)
    (hr : RankedBy past ((gone ++ kept).map fun x => x.2.key)) :
    EvictsOldest past c (gone.map Prod.snd) (c.dropAll gone) := by
  induction gone generalizing c free with
  | nil => exact .done c
  | cons x gone ih =>
    obtain ⟨id, entry⟩ := x
    have hd : (c.drop id entry.key).Holds (gone ++ kept) (id :: free) := h.drop (p := []) BEq.rfl
    have he := evictFront_cons h.order
    have hinc := List.pairwise_cons.mp hr.increasing
    refine .next (by rw [he]) ?_ ?_
    · intro x hx
      rw [he, hd.entries_eq] at hx
      obtain ⟨y, hy, rfl⟩ := List.mem_map.mp hx
      exact hinc.1 _ (List.mem_map_of_mem hy)
    · rw [he]
      exact ih hd (hr.sublist (List.sublist_cons_self _ _))

theorem Coherent.evictsOldest {gone : List (Entry K V)} (h : c.Coherent)
    (hr : RankedBy past (c.entries.map Entry.key)) (hp : gone <+: c.entries) :
    ∃ rest, EvictsOldest past c gone rest := by
  obtain ⟨items, free, h⟩ := h
  obtain ⟨kept, hk⟩ := hp
  rw [h.entries_eq] at hk hr
  obtain ⟨front, back, rfl, rfl, rfl⟩ := List.map_eq_append_iff.mp hk.symm
  refine ⟨_, h.evictsOldest ?_⟩
  rwa [List.map_map] at hr

end Steps

/-- In every run the recency list has the keys in the order of their last promotions, the entries
that go to make room go in that order, and reading does not change it. -/
theorem run_ranked [EquivBEq K] (id : UInt64) (capacity : Nat) (policy : Policy)
    (mode : RecencyMode) (steps : List (Instant × Command K V)) :
    ((start id capacity policy mode).history steps).map Deed.step = singly steps ∧
    ∃ o, (start id capacity policy mode : Cache K V).run steps = .ok o ∧
      RankedBy ((start id capacity policy mode).history steps) (o.cache.entries.map Entry.key) ∧
      ∀ past d future, (start id capacity policy mode).history steps = past ++ d :: future →
        RankedBy past (d.before.entries.map Entry.key) ∧
        (d.command.evicts = true → ∃ rest, EvictsOldest past d.before d.lost rest) ∧
        (d.command.keepsOrder mode = true → d.promoted? = none ∧
          d.after.entries.map Entry.key = d.before.entries.map Entry.key) := by
  have hc : (start id capacity policy mode : Cache K V).Coherent := coherent_start ..
  have first : RankedBy ([] : List (Deed K V))
      ((start id capacity policy mode : Cache K V).entries.map Entry.key) :=
    ⟨fun key hk => (nomatch hk), .nil⟩
  obtain ⟨o, ho, ⟨hranked, -⟩, hdeeds⟩ := hc.history_induction steps
    (I := fun past c => RankedBy past (c.entries.map Entry.key) ∧
      c.reference.rules = (policy, mode))
    ⟨first, rfl⟩
    fun past d hd _ hI => ⟨hI.1.step hd, hd.rules.trans hI.2⟩
  refine ⟨hc.map_step_history steps, o, ho, hranked, fun past d future hsplit => ?_⟩
  obtain ⟨hd, -, hI, hrules⟩ := hdeeds past d future hsplit
  have hm : d.before.mode = mode := congrArg Prod.snd hrules
  refine ⟨hI, fun he => hd.coherent.evictsOldest hI (hd.lost_prefix he), fun hk => ?_⟩
  exact hd.keepsOrder (by rwa [hm])

/-- Of two entries the one stored later goes, as the other one was found since by an access that
promotes. -/
theorem run_ranked_second : EquivBEq Nat ∧ ∃ past d future rest,
    (start 0 2 .capacity .onAccess : Cache Nat Nat).history
        [(0, .insert 1 10), (0, .insert 2 20), (0, .lookupMut 1 fun v => v), (0, .insert 3 30)] =
      past ++ d :: future ∧
    d.command.evicts = true ∧ d.lost = [⟨2, 20, 0⟩] ∧ EvictsOldest past d.before d.lost rest := by
  obtain ⟨-, o, -, -, hdeeds⟩ := run_ranked 0 2 .capacity .onAccess
    [(0, .insert 1 10), (0, .insert 2 20), (0, .lookupMut 1 fun v : Nat => v), (0, .insert 3 30)]
  obtain ⟨-, hevicts, -⟩ := hdeeds _ _ [] (List.dropLast_append_getLast (by decide)).symm
  obtain ⟨rest, hrest⟩ := hevicts (by rfl)
  exact ⟨inferInstance, _, _, [], rest, (List.dropLast_append_getLast (by decide)).symm, by rfl,
    by decide, hrest⟩

end Cache

end Lru
