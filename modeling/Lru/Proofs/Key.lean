import Lru.Key

/-! # Equality of keys

Two keys that equal a third are equal, in either order. A key need not equal
itself, and then it equals nothing.
-/

namespace Lru.Key

theorem same_symmetric : (∀ a b : Key, same a b = true → same b a = true) ∧
    ∀ ps qs : List Key, sameParts ps qs = true → sameParts qs ps = true := by
  apply same.mutual_induct
  case case1 | case2 | case4 =>
    intro s t h
    simp only [same, beq_iff_eq] at h ⊢
    exact h.symm
  case case3 =>
    intro ps qs ih h
    rw [same] at h ⊢
    exact ih h
  case case5 =>
    intro a b hi ht hp hc h
    rw [same.eq_5 a b hi ht hp hc] at h
    cases h
  case case6 => exact id
  case case7 =>
    intro p ps q qs ihp ihps h
    rw [sameParts, Bool.and_eq_true] at h ⊢
    exact ⟨ihp h.1, ihps h.2⟩
  case case8 =>
    intro ps qs hn hc h
    rw [sameParts.eq_3 ps qs hn hc] at h
    cases h

theorem same_transitive :
    (∀ a b : Key, same a b = true → ∀ c, same b c = true → same a c = true) ∧
      ∀ ps qs : List Key, sameParts ps qs = true → ∀ rs, sameParts qs rs = true →
        sameParts ps rs = true := by
  apply same.mutual_induct
  case case1 | case2 | case4 =>
    intro s t h c hc
    cases c <;> simp_all [same]
  case case3 =>
    intro ps qs ih h c hc
    cases c <;> simp_all [same]
  case case5 =>
    intro a b hi ht hp hc h
    rw [same.eq_5 a b hi ht hp hc] at h
    cases h
  case case6 => exact fun _ _ h => h
  case case7 =>
    intro p ps q qs ihp ihps h rs hc
    cases rs with
    | nil => cases hc
    | cons r rs =>
      rw [sameParts, Bool.and_eq_true] at h hc ⊢
      exact ⟨ihp h.1 r hc.1, ihps h.2 rs hc.2⟩
  case case8 =>
    intro ps qs hn hc h
    rw [sameParts.eq_3 ps qs hn hc] at h
    cases h

instance : PartialEquivBEq Key where
  symm h := same_symmetric.1 _ _ h
  trans h h' := same_transitive.1 _ _ h _ h'

end Lru.Key
