import Mathlib.Data.List.Forall2
import Lru.Proofs.Reference.Effects

/-! # Larger references

What a reference holds is within what a larger one holds: the most recent
entries of the larger one have equal keys and the same values. Insertions keep
the most recent entries that fit, so the request that both are given keeps them
that way, even where one of them makes room and the other does not.
-/

namespace Lru

/-- Two entries have equal keys and the same value. -/
def Entry.Agree {K V : Type} [BEq K] (a b : Entry K V) : Prop :=
  a.key == b.key ∧ a.value = b.value

namespace Reference

variable {K V : Type} [BEq K] {small large shared : List (Entry K V)} {a b : Entry K V}
  {key : K} {now : Instant} {value : V} {r q : Reference K V}

/-- The entries of `small` agree with the most recent ones of `large`. -/
def Within (small large : List (Entry K V)) : Prop :=
  ∃ shared, shared <:+ large ∧ List.Forall₂ Entry.Agree small shared

/-- The most recent entries, at most `n`. -/
def newest (n : Nat) (entries : List (Entry K V)) : List (Entry K V) :=
  entries.drop (entries.length - n)

section Within

theorem within_nil (large : List (Entry K V)) : Within [] large :=
  ⟨[], List.nil_suffix, .nil⟩

theorem Within.length_le (h : Within small large) : small.length ≤ large.length := by
  obtain ⟨shared, hs, hf⟩ := h
  exact hf.length_eq ▸ hs.length_le

theorem Within.concat (h : Within small large) (hab : a.Agree b) :
    Within (small ++ [a]) (large ++ [b]) := by
  obtain ⟨shared, ⟨older, rfl⟩, hf⟩ := h
  refine ⟨shared ++ [b], ⟨older, (List.append_assoc ..).symm⟩, ?_⟩
  exact List.rel_append hf (.cons hab .nil)

theorem Within.drop (h : Within small large) {i j : Nat}
    (hij : small.length - i ≤ large.length - j) : Within (small.drop i) (large.drop j) := by
  obtain ⟨shared, hs, hf⟩ := h
  have hlen : small.length = shared.length := hf.length_eq
  refine ⟨shared.drop i, ?_, List.forall₂_drop i hf⟩
  refine List.suffix_of_suffix_length_le ((List.drop_suffix i shared).trans hs)
    (List.drop_suffix j large) ?_
  simpa [← hlen] using hij

theorem Within.tail (h : Within small large) : Within small.tail large.tail := by
  have hl := h.length_le
  rw [← List.drop_one, ← List.drop_one]
  exact h.drop (by omega)

theorem Within.newest (h : Within small large) {m n : Nat} (hmn : m ≤ n) :
    Within (newest m small) (newest n large) := by
  have hl := h.length_le
  exact h.drop (by omega)

theorem Within.map (h : Within small large) {g : Entry K V → Entry K V}
    (hg : ∀ {a b : Entry K V}, a.Agree b → (g a).Agree (g b)) :
    Within (small.map g) (large.map g) := by
  obtain ⟨shared, hs, hf⟩ := h
  refine ⟨shared.map g, hs.map g, ?_⟩
  exact List.forall₂_map_left_iff.mpr (List.forall₂_map_right_iff.mpr (hf.imp fun _ _ => hg))

end Within

section Keys

variable [PartialEquivBEq K]

theorem agree_key (h : a.Agree b) (key : K) : (key == a.key) = (key == b.key) :=
  BEq.congr_right h.1

theorem missing_of_forall₂ (h : List.Forall₂ Entry.Agree small shared) (hm : Missing key shared) :
    Missing key small := by
  induction h with
  | nil => exact hm
  | cons hab _ ih =>
    have hm' := List.forall_mem_cons.mp hm
    exact List.forall_mem_cons.mpr ⟨(agree_key hab key).trans hm'.1, ih hm'.2⟩

theorem eraseP_forall₂ (h : List.Forall₂ Entry.Agree small shared) (key : K) :
    List.Forall₂ Entry.Agree (small.eraseP fun e => key == e.key)
      (shared.eraseP fun e => key == e.key) := by
  induction h with
  | nil => exact .nil
  | @cons a b _ _ hab hrest ih =>
    have hk := agree_key hab key
    cases hb : key == b.key with
    | true => simpa [hk, hb] using hrest
    | false => simpa [hk, hb] using ⟨hab, ih⟩

theorem find?_forall₂ (h : List.Forall₂ Entry.Agree small shared)
    (ha : small.find? (fun e => key == e.key) = some a) :
    ∃ b, shared.find? (fun e => key == e.key) = some b ∧ a.Agree b := by
  induction h with
  | nil => cases ha
  | @cons x y _ _ hxy _ ih =>
    have hk := agree_key hxy key
    cases hy : key == y.key with
    | true =>
      rw [List.find?_cons_of_pos (by rw [hk, hy])] at ha
      cases ha
      exact ⟨y, List.find?_cons_of_pos hy, hxy⟩
    | false =>
      rw [List.find?_cons_of_neg (by simp [hk, hy])] at ha
      rw [List.find?_cons_of_neg (by simp [hy])]
      exact ih ha

/-- A key with an entry among those shared has none among the older ones. -/
theorem Distinct.missing_or {older : List (Entry K V)} (h : Distinct (older ++ shared)) (key : K) :
    Missing key older ∨ Missing key shared := by
  by_cases ho : Missing key older
  · exact .inl ho
  · obtain ⟨e, he, hk⟩ : ∃ e ∈ older, key == e.key := by simpa [Missing] using ho
    refine .inr fun x hx => ?_
    rw [BEq.congr_left hk]
    exact h.missing_of_mem he x hx

theorem Within.eraseP (h : Within small large) (hd : Distinct large) (key : K) :
    Within (small.eraseP fun e => key == e.key) (large.eraseP fun e => key == e.key) := by
  obtain ⟨shared, ⟨older, rfl⟩, hf⟩ := h
  rcases hd.missing_or key with ho | hs
  · rw [List.eraseP_append_right _ fun e he => by simp [ho e he]]
    exact ⟨_, List.suffix_append .., eraseP_forall₂ hf key⟩
  · rw [eraseP_of_missing (missing_of_forall₂ hf hs), List.eraseP_append, eraseP_of_missing hs]
    split
    · exact ⟨shared, List.suffix_append .., hf⟩
    · exact ⟨shared, List.suffix_append .., hf⟩

theorem Within.find? (h : Within small large) (hd : Distinct large)
    (ha : small.find? (fun e => key == e.key) = some a) :
    ∃ b, large.find? (fun e => key == e.key) = some b ∧ a.Agree b := by
  obtain ⟨shared, ⟨older, rfl⟩, hf⟩ := h
  obtain ⟨b, hb, hab⟩ := find?_forall₂ hf ha
  rcases hd.missing_or key with ho | hs
  · exact ⟨b, by rw [List.find?_append, find?_of_missing ho, hb, Option.none_or], hab⟩
  · rw [find?_of_missing hs] at hb
    cases hb

end Keys

section Insertion

variable [EquivBEq K]

/-- An insertion puts the new entry behind those of the other keys and keeps the most recent ones
that fit. -/
theorem Proper.insert_entries (h : r.Proper) (now : Instant) (key : K) (value : V) :
    ∃ stored : Entry K V, key == stored.key ∧ stored.value = value ∧
      (r.insert now key value).reference.entries =
        newest r.capacity (r.others key ++ [stored]) := by
  have hfits := h.fits
  cases h.inserting now key value with
  | refused missing empty inserted =>
    refine ⟨⟨key, value, now⟩, BEq.rfl, rfl, ?_⟩
    have he : r.entries = [] := List.eq_nil_of_length_eq_zero (by omega)
    simp [inserted, newest, empty, he]
  | replaced p s entry split same missing held inserted =>
    refine ⟨{ entry with value, stamp := now }, same, rfl, ?_⟩
    rw [split, List.length_append, List.length_cons] at hfits
    rw [inserted, others_of_split split (missing_append.mp missing).1 same, newest]
    simp only [List.length_append, List.length_cons, List.length_nil]
    rw [Nat.sub_eq_zero_of_le (by omega), List.drop_zero]
  | appended missing room inserted =>
    refine ⟨⟨key, value, now⟩, BEq.rfl, rfl, ?_⟩
    rw [inserted, others, eraseP_of_missing missing, newest, Nat.sub_eq_zero_of_le (by simpa)]
    rfl
  | displaced head s split missing full inserted =>
    refine ⟨⟨key, value, now⟩, BEq.rfl, rfl, ?_⟩
    rw [inserted, others, split, eraseP_of_missing missing, newest, full]
    simp

omit [EquivBEq K] in
theorem insert_capacity (r : Reference K V) (now : Instant) (key : K) (value : V) :
    (r.insert now key value).reference.capacity = r.capacity := by
  unfold insert
  split
  · rfl
  · split
    · rfl
    · split <;> rfl

end Insertion

section Included

/-- A plain reference holds no more than another one that is no smaller. -/
structure Included (m n : RecencyMode) (r q : Reference K V) : Prop where
  within : Within r.entries q.entries
  fits : r.capacity ≤ q.capacity
  small : r.rules = (.capacity, m)
  large : q.rules = (.capacity, n)

variable {m n : RecencyMode}

theorem liveEntry_of_plain (h : r.rules = (.capacity, m)) (now : Instant) (key : K) :
    r.liveEntry now key = r.entryOf key := by
  rw [liveEntry, show r.policy = .capacity from congrArg Prod.fst h]
  cases r.entryOf key <;> rfl

/-- Where accesses do not promote, an access that may change a value writes in place. -/
theorem lookupMut_of_plain (h : r.rules = (.capacity, .onInsert)) (now : Instant) (key : K)
    (update : V → V) : (r.lookupMut now key update).reference = r.write key update := by
  have hm : r.mode = .onInsert := congrArg Prod.snd h
  rw [lookupMut, liveEntry_of_plain h]
  cases he : r.entryOf key with
  | some entry => simp only [promoteOnAccess, hm]
  | none =>
    have hmissing : Missing key r.entries := by simpa [entryOf, Missing] using he
    simp only [write, map_write_of_missing hmissing]

theorem Included.clear (h : Included m n r q) :
    Included m n ({ r with entries := [] } : Reference K V) { q with entries := [] } :=
  { h with within := within_nil [] }

theorem Included.popFront (h : Included m n r q) :
    Included m n r.popFront.reference q.popFront.reference :=
  { h with within := h.within.tail }

variable [EquivBEq K]

theorem Included.liveEntry (h : Included m n r q) (hq : q.Proper)
    (ha : r.liveEntry now key = some a) :
    ∃ b, q.liveEntry now key = some b ∧ a.Agree b := by
  rw [liveEntry_of_plain h.small] at ha
  rw [liveEntry_of_plain h.large]
  exact h.within.find? hq.distinct ha

theorem Included.insert (h : Included m n r q) (hr : r.Proper) (hq : q.Proper) (now : Instant)
    (key : K) (value : V) :
    Included m n (r.insert now key value).reference (q.insert now key value).reference := by
  refine ⟨?_, ?_, (insert_rules ..).trans h.small, (insert_rules ..).trans h.large⟩
  · obtain ⟨a, hka, hva, hea⟩ := hr.insert_entries now key value
    obtain ⟨b, hkb, hvb, heb⟩ := hq.insert_entries now key value
    have hab : a.Agree b := ⟨BEq.trans (BEq.symm hka) hkb, hva.trans hvb.symm⟩
    rw [hea, heb]
    exact ((h.within.eraseP hq.distinct key).concat hab).newest h.fits
  · rw [insert_capacity, insert_capacity]
    exact h.fits

theorem Included.erase (h : Included m n r q) (hq : q.Proper) (key : K) :
    Included m n (r.erase key).reference (q.erase key).reference :=
  { h with within := h.within.eraseP hq.distinct key }

theorem Within.write {small large : Reference K V} (h : Within small.entries large.entries)
    (key : K) (update : V → V) :
    Within (small.write key update).entries (large.write key update).entries := by
  refine h.map fun {a b} hab => ?_
  rw [agree_key hab key]
  split
  · exact ⟨hab.1, congrArg update hab.2⟩
  · exact hab

theorem Included.lookupMut (h : Included .onInsert .onInsert r q) (now : Instant) (key : K)
    (update : V → V) : Included .onInsert .onInsert
      (r.lookupMut now key update).reference (q.lookupMut now key update).reference := by
  rw [lookupMut_of_plain h.small, lookupMut_of_plain h.large]
  exact { h with within := h.within.write key update }

end Included

end Reference

end Lru
