import Lru.Proofs.History.Basic
import Lru.Proofs.Session.Handles

/-! # Handles given out in a run

A run gives handles out and reopens them. As long as it reopens no others, and
makes fewer structural changes than there are generations, every handle that
the cache still accepts stands past the end or on an entry: of two handles of
one generation the later one was given out before the next structural change.
-/

namespace Lru

section Definitions

variable {K V : Type} [BEq K]

/-- The handles that an operation gives out. -/
def Deed.handles (d : Deed K V) : List Handle :=
  d.outcome.result.handles

/-- How many structural changes an operation makes. -/
def Deed.changes (d : Deed K V) : Nat :=
  d.before.mutations d.now d.command d.outcome.result

namespace Cache

/-- The handles that operations gave out. -/
def handed (history : List (Deed K V)) : List Handle :=
  history.flatMap Deed.handles

/-- How many structural changes operations made. -/
def changes : List (Deed K V) → Nat
  | [] => 0
  | d :: future => d.changes + changes future

/-- A cursor was only ever opened at a handle that had been given out, or that has another
owner. -/
def Honest (history : List (Deed K V)) : Prop :=
  ∀ past d future kind g moves, history = past ++ d :: future →
    d.command = .cursor (.handle kind g) moves → g.owner = d.before.id → g ∈ handed past

/-- A handle of an honest history that made fewer structural changes than there are generations. -/
structure GivenOut (history : List (Deed K V)) (g : Handle) : Prop where
  handed : g ∈ handed history
  honest : Honest history
  few : changes history < UInt64.size

/-- After operations on `c` the cache is `e`, and the handles that they gave out are dated: one of
the present generation stands past the end or on an entry. -/
def Dates (c : Cache K V) (past : List (Deed K V)) (e : Cache K V) : Prop :=
  Ages c e (changes past) ∧ (Honest past → changes past < UInt64.size → ∀ g ∈ handed past,
    ∃ n ≤ changes past, g.generation = c.generation + .ofNat n ∧
      (n = changes past → e.Stands g.slot))

end Cache

end Definitions

namespace Cache

variable {K V : Type} [BEq K] {c d e : Cache K V} {past : List (Deed K V)} {g : Handle}

omit [BEq K] in
theorem Stands.of_keyAt {slot : Option SlotId} (h : c.Stands slot) (hk : d.keyAt = c.keyAt) :
    d.Stands slot := by
  intro id hid
  rw [← isSome_keyAt, hk, isSome_keyAt]
  exact h id hid

theorem changes_concat (past : List (Deed K V)) (d : Deed K V) :
    changes (past ++ [d]) = changes past + d.changes := by
  induction past with
  | nil => exact Nat.add_comm ..
  | cons first past ih => rw [List.cons_append, changes, changes, ih, Nat.add_assoc]

omit [BEq K] in
theorem mem_handed_concat {d : Deed K V} :
    g ∈ handed (past ++ [d]) ↔ g ∈ handed past ∨ g ∈ d.handles := by
  simp [handed]

omit [BEq K] in
theorem Honest.of_concat {d : Deed K V} (h : Honest (past ++ [d])) : Honest past := by
  intro past' d' future kind g moves he
  exact h past' d' (future ++ [d]) kind g moves (by simp [he])

theorem dates_start (c : Cache K V) : Dates c [] c :=
  ⟨.refl c, fun _ _ _ hg => nomatch hg⟩

theorem Dates.stands (h : Dates c past e) (honest : Honest past)
    (few : changes past < UInt64.size) (hg : g ∈ handed past)
    (hgen : g.generation = e.generation) : e.Stands g.slot := by
  obtain ⟨n, hn, hdate, hstands⟩ := h.2 honest few g hg
  apply hstands
  by_contra hne
  rw [hdate, h.1.generation] at hgen
  exact Session.ofNat_ne_ofNat (Nat.lt_of_le_of_lt hn few) few hne
    (UInt64.add_right_inj c.generation |>.mp hgen)

/-- A handle given out by an operation comes from an entry, or from a handle that was accepted. -/
theorem Dates.stands_of_mem [EquivBEq K] {d : Deed K V} (h : Dates c past d.before)
    (hd : d.Sound) (honest : Honest (past ++ [d])) (few : changes past < UInt64.size)
    (hg : g ∈ d.handles) : d.after.Stands g.slot := by
  refine (hd.coherent.perform_handles hd.performed hg).2 ?_
  intro kind g' moves hcommand
  obtain ⟨before, now, command, o⟩ := d
  obtain rfl : command = .cursor (.handle kind g') moves := hcommand
  have hp : before.perform now (.cursor (.handle kind g') moves) = .ok o := hd.performed
  cases hp
  obtain ⟨x, hx, -⟩ := handles_walk hg
  obtain ⟨slot, hv, -⟩ := exists_of_map_eq_ok hx
  have hg' : g' = before.handle slot := validate_eq_ok_iff.mp hv
  refine h.stands honest.of_concat few ?_ (congrArg Handle.generation hg')
  exact honest past _ [] kind g' moves rfl rfl (congrArg Handle.owner hg')

theorem Dates.step [EquivBEq K] {d : Deed K V} (h : Dates c past d.before) (hd : d.Sound) :
    Dates c (past ++ [d]) d.after := by
  have hage : Ages d.before d.after d.changes := hd.coherent.drifting.perform_ages hd.performed
  refine ⟨changes_concat past d ▸ h.1.trans hage, ?_⟩
  intro honest few g hg
  rw [changes_concat] at few ⊢
  rcases mem_handed_concat.mp hg with hg | hg
  · obtain ⟨n, hn, hdate, hstands⟩ := h.2 honest.of_concat (by omega) g hg
    refine ⟨n, Nat.le_add_right_of_le hn, hdate, ?_⟩
    intro hlast
    exact (hstands (by omega)).of_keyAt (hage.keyAt (by omega))
  · have hmint := (hd.coherent.perform_handles hd.performed hg).1
    have hgen : g.generation = d.after.generation := congrArg Handle.generation hmint
    refine ⟨_, Nat.le_refl _, hgen.trans (h.1.trans hage).generation, ?_⟩
    intro _
    exact h.stands_of_mem hd honest (by omega) hg

/-- A run that opens no cursor at a handle is honest. -/
theorem Coherent.honest [EquivBEq K] (h : c.Coherent) {steps : List (Instant × Command K V)}
    (fresh : ∀ step ∈ steps, ∀ kind g moves, step.2 ≠ .cursor (.handle kind g) moves) :
    Honest (c.history steps) := by
  intro past d future kind g moves hsplit hcommand
  have hfresh : ∀ step ∈ singly steps, ∀ kind g moves, step.2 ≠ .cursor (.handle kind g) moves := by
    apply forall_mem_singly
    rintro ⟨now, command⟩ hs part hp
    cases command with
    | insertAll pairs =>
      obtain ⟨pair, -, rfl⟩ := List.mem_map.mp hp
      intro kind g moves he
      cases he
    | _ =>
      obtain rfl := List.mem_singleton.mp hp
      exact fresh _ hs
  have hmem : d.step ∈ singly steps := by
    rw [← h.map_step_history steps, hsplit]
    simp
  exact absurd hcommand (hfresh d.step hmem kind g moves)

theorem Coherent.run_dates [EquivBEq K] (h : c.Coherent) (steps : List (Instant × Command K V)) :
    ∃ o, c.run steps = .ok o ∧ o.cache.Coherent ∧ o.cache.id = c.id ∧
      ∀ g, GivenOut (c.history steps) g → g.generation = o.cache.generation →
        o.cache.Stands g.slot := by
  obtain ⟨o, ho, hdates, -⟩ := h.history_induction steps (I := fun past e => Dates c past e)
    (dates_start c) fun past d hd _ hI => hI.step hd
  refine ⟨o, ho, h.of_run ho, hdates.1.id, ?_⟩
  intro g hg hgen
  exact hdates.stands hg.honest hg.few hg.handed hgen

end Cache

end Lru
