/-! # Last occurrences

Among elements with keys, the latest ones are those behind which no element has
an equal key. They come in the order in which their keys occur last. One more
element at the end takes the place of the latest one with its key.
-/

namespace Lru

variable {α K : Type} [BEq K] {keyOf : α → K}

/-- The last element with each key, in order. -/
def latest (keyOf : α → K) : List α → List α
  | [] => []
  | x :: rest =>
    if rest.any (keyOf x == keyOf ·) then latest keyOf rest else x :: latest keyOf rest

theorem latest_cons_of_any {x : α} {rest : List α} (h : rest.any (keyOf x == keyOf ·) = true) :
    latest keyOf (x :: rest) = latest keyOf rest :=
  if_pos h

theorem latest_cons_of_not_any {x : α} {rest : List α}
    (h : rest.any (keyOf x == keyOf ·) = false) :
    latest keyOf (x :: rest) = x :: latest keyOf rest :=
  if_neg (by simp [h])

theorem latest_sublist (keyOf : α → K) (xs : List α) : (latest keyOf xs).Sublist xs := by
  induction xs with
  | nil => exact .refl _
  | cons x rest ih =>
    cases h : rest.any (keyOf x == keyOf ·) with
    | true => exact latest_cons_of_any h ▸ ih.cons x
    | false => exact latest_cons_of_not_any h ▸ ih.cons_cons x

theorem latest_pairwise (keyOf : α → K) (xs : List α) :
    (latest keyOf xs).Pairwise fun a b => (keyOf a == keyOf b) = false := by
  induction xs with
  | nil => exact .nil
  | cons x rest ih =>
    cases h : rest.any (keyOf x == keyOf ·) with
    | true => exact latest_cons_of_any h ▸ ih
    | false =>
      rw [latest_cons_of_not_any h]
      refine .cons (fun b hb => ?_) ih
      simpa using List.any_eq_false.mp h b ((latest_sublist keyOf rest).subset hb)

theorem latest_eq_self {xs : List α}
    (h : xs.Pairwise fun a b => (keyOf a == keyOf b) = false) : latest keyOf xs = xs := by
  induction xs with
  | nil => rfl
  | cons x rest ih =>
    obtain ⟨hx, hrest⟩ := List.pairwise_cons.mp h
    have hany : rest.any (keyOf x == keyOf ·) = false :=
      List.any_eq_false.mpr fun b hb => by simp [hx b hb]
    rw [latest_cons_of_not_any hany, ih hrest]

variable [PartialEquivBEq K]

theorem any_latest (keyOf : α → K) (key : K) (xs : List α) :
    (latest keyOf xs).any (key == keyOf ·) = xs.any (key == keyOf ·) := by
  induction xs with
  | nil => rfl
  | cons x rest ih =>
    cases h : rest.any (keyOf x == keyOf ·) with
    | false => rw [latest_cons_of_not_any h, List.any_cons, List.any_cons, ih]
    | true =>
      rw [latest_cons_of_any h, ih, List.any_cons]
      cases hk : key == keyOf x with
      | false => rw [Bool.false_or]
      | true => simpa only [BEq.congr_left hk, Bool.true_or] using h

/-- One more element takes the place of the latest one with its key. -/
theorem latest_concat (keyOf : α → K) (xs : List α) (y : α) :
    latest keyOf (xs ++ [y]) = (latest keyOf xs).eraseP (keyOf y == keyOf ·) ++ [y] := by
  induction xs with
  | nil => rfl
  | cons x rest ih =>
    rw [List.cons_append]
    cases h : rest.any (keyOf x == keyOf ·) with
    | true => rw [latest_cons_of_any (by simp [h]), latest_cons_of_any h, ih]
    | false =>
      rw [latest_cons_of_not_any h]
      cases hk : keyOf x == keyOf y with
      | false =>
        have hk' : (keyOf y == keyOf x) = false := BEq.symm_false hk
        rw [latest_cons_of_not_any (by simp [h, hk]), ih,
          List.eraseP_cons_of_neg (by simp [hk']), List.cons_append]
      | true =>
        -- No element of `rest` has the key of `x`, so none has that of `y`.
        have hnone : (latest keyOf rest).any (keyOf y == keyOf ·) = false := by
          rw [any_latest, ← h]
          simp only [BEq.congr_left hk]
        have hx : (x :: latest keyOf rest).eraseP (keyOf y == keyOf ·) = latest keyOf rest :=
          List.eraseP_cons_of_pos (BEq.symm hk)
        rw [latest_cons_of_any (by simp [hk]), ih, hx,
          List.eraseP_of_forall_not (List.any_eq_false.mp hnone)]

/-- There are as many latest elements as there are unequal keys that occur, or more. -/
theorem length_le_latest {xs ys : List α}
    (h : ys.Pairwise fun a b => (keyOf a == keyOf b) = false)
    (hm : ∀ y ∈ ys, xs.any (keyOf y == keyOf ·) = true) :
    ys.length ≤ (latest keyOf xs).length := by
  replace hm : ∀ y ∈ ys, (latest keyOf xs).any (keyOf y == keyOf ·) = true :=
    fun y hy => (any_latest keyOf (keyOf y) xs).trans (hm y hy)
  generalize latest keyOf xs = zs at hm
  induction ys generalizing zs with
  | nil => exact Nat.zero_le _
  | cons y rest ih =>
    obtain ⟨hy, hrest⟩ := List.pairwise_cons.mp h
    obtain ⟨z, hz, hyz⟩ := List.any_eq_true.mp (hm y List.mem_cons_self)
    -- Without the element that `y` stands for, the others still stand for those that are left.
    have hleft : ∀ x ∈ rest, (zs.eraseP (keyOf y == keyOf ·)).any (keyOf x == keyOf ·) = true := by
      intro x hx
      obtain ⟨w, hw, hxw⟩ := List.any_eq_true.mp (hm x (List.mem_cons_of_mem _ hx))
      have hyw : ¬ (keyOf y == keyOf w) = true := by
        rw [← BEq.congr_right hxw, hy x hx]
        exact Bool.false_ne_true
      have hw' : w ∈ zs.eraseP (keyOf y == keyOf ·) :=
        (List.mem_eraseP_of_neg (p := fun z => keyOf y == keyOf z) hyw).mpr hw
      exact List.any_eq_true.mpr ⟨w, hw', hxw⟩
    have hlen : (zs.eraseP (keyOf y == keyOf ·)).length = zs.length - 1 :=
      List.length_eraseP_of_mem hz hyz
    have := ih hrest _ hleft
    have := List.length_pos_of_mem hz
    rw [List.length_cons]
    omega

theorem latest_length_le_concat (keyOf : α → K) (xs : List α) (y : α) :
    (latest keyOf xs).length ≤ (latest keyOf (xs ++ [y])).length := by
  have hle : (latest keyOf xs).length - 1 ≤
      ((latest keyOf xs).eraseP (keyOf y == keyOf ·)).length := List.le_length_eraseP
  rw [latest_concat, List.length_append, List.length_singleton]
  omega

end Lru
