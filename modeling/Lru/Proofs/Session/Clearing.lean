import Lru.Proofs.Key
import Lru.Proofs.Session.Handles
import Lru.Proofs.Session.Renaming

/-! # A cleared cache in a session

A cleared cache has its identity, a later generation and what its settings are;
nothing else tells it from a new cache. So a session goes on with it as with a
new cache in its place, and refuses the handles from before.
-/

namespace Lru

variable {T K V : Type}

namespace Cache

/-- Names a cache by the identity `number`, at its first generation. -/
def renewal (c : Cache K V) (number : UInt64) : Renaming where
  identity := Equiv.swap c.id number
  offset id := if id = c.id then -c.generation else 0

/-- A new cache with the capacity, the policy and the recency mode of another one. -/
def renewed (c : Cache K V) (number : UInt64) : Cache K V :=
  start number c.capacity c.policy c.mode

theorem fixes_renewal {c : Cache K V} {id number : UInt64} (hc : id ≠ c.id) (hn : id ≠ number) :
    (c.renewal number).Fixes id :=
  ⟨Equiv.swap_apply_of_ne_of_ne hc hn, if_neg hc⟩

theorem clear_renewed (c : Cache K V) (number : UInt64) :
    c.clear.renamed (c.clear.renewal number) = c.renewed number := by
  have hidentity : (c.clear.renewal number).identity c.clear.id = number :=
    Equiv.swap_apply_left ..
  have hgeneration : c.clear.generation + (c.clear.renewal number).offset c.clear.id = 0 := by
    simp only [renewal, if_pos]
    exact UInt64.add_right_neg _
  rw [renamed, hidentity, hgeneration]
  rfl

end Cache

/-- A new cache with the settings of another one and all that is attached to it. -/
def Member.renewed (m : Member T K V) (number : UInt64) : Member T K V :=
  { m with cache := m.cache.renewed number }

namespace Session

variable {s t : Session T K V} {i : CacheId} {m : Member T K V} {g : Handle} {n : Nat}

/-- The reports and the session that a run leaves, under other identities. -/
def renamedRun (ρ : Renaming) (left : List (Report T K V (Answer K V)) × Session T K V) :
    List (Report T K V (Answer K V)) × Session T K V :=
  (left.1.map (Report.renamed ρ), left.2.renamed ρ)

variable [BEq K]

/-- A request of a run to the cache `i` mints `g`, and `n` structural changes of that cache come
after it in the run. -/
def Minted (s : Session T K V) (i : CacheId) (g : Handle) (n : Nat)
    (commands : List (Command T K V)) : Prop :=
  ∃ first request rest reports s₀ minted, commands = first ++ .cache i request :: rest ∧
    s.run first = .ok (reports, s₀) ∧ s₀.perform (.cache i request) = .ok minted ∧
    g ∈ minted.result.handles ∧ n = minted.session.mutationsOver i rest

theorem run_append {first rest : List (Command T K V)} {reports : List (Report T K V (Answer K V))}
    (hr : s.run first = .ok (reports, t)) :
    s.run (first ++ rest) = (t.run rest).map fun left => (reports ++ left.1, left.2) := by
  induction first generalizing s reports with
  | nil =>
    cases hr
    rw [List.nil_append]
    cases t.run rest <;> rfl
  | cons command first ih =>
    obtain ⟨report, hfirst, hr⟩ := Cache.exists_of_bind_eq_ok hr
    obtain ⟨⟨reports', s'⟩, hrest, hr⟩ := Cache.exists_of_bind_eq_ok hr
    cases hr
    simp only [List.cons_append, run, hfirst, bind, Except.bind, ih hrest]
    cases t.run rest <;> rfl

theorem perform_clear (hm : s.members[i]? = some m) :
    ∃ cleared, s.perform (.cache i .clear) = .ok cleared ∧
      cleared.session = s.setMember i { m with cache := m.cache.clear } := by
  have hreading : s.readingFor m .clear = .ok (s.reading m) := by
    rw [readingFor, Cache.readsClock, Cache.judgesOrStamps, Bool.and_false]
    rfl
  refine ⟨s.reportOf i m { result := .done, cache := m.cache.clear }, ?_, rfl⟩
  rw [perform, onCache_of_member hm, hreading]
  rfl

section Renew

omit [BEq K] in
theorem setMember_renewed (s : Session T K V) (i : CacheId) (m : Member T K V) (number : UInt64)
    (others : ∀ j m', j ≠ i → s.members[j]? = some m' →
      (m.cache.clear.renewal number).Fixes m'.cache.id) :
    (s.setMember i { m with cache := m.cache.clear }).renamed (m.cache.clear.renewal number) =
      s.setMember i (m.renewed number) := by
  have hnew : ({ m with cache := m.cache.clear } : Member T K V).renamed
      (m.cache.clear.renewal number) = m.renewed number :=
    congrArg (fun cache => ({ m with cache } : Member T K V)) (m.cache.clear_renewed number)
  rw [renamed, ← setMember_altered, hnew]
  refine congrArg (fun members => ({ s with members } : Session T K V)) ?_
  refine Array.ext_getElem? fun j => ?_
  rw [Array.getElem?_setIfInBounds, Array.getElem?_setIfInBounds, size_altered, getElem?_altered]
  by_cases hj : i = j
  · rw [if_pos hj, if_pos hj]
  · rw [if_neg hj, if_neg hj]
    cases hm' : s.members[j]? with
    | none => rfl
    | some m' =>
      have hfixed := Cache.renamed_of_fixes _ (others j m' (Ne.symm hj) hm')
      exact congrArg (fun cache => some ({ m' with cache } : Member T K V)) hfixed

/-- A session with a cleared cache goes on as with a new cache in its place. -/
theorem run_renewed (hs : s.Each Cache.Drifting) (hm : s.members[i]? = some m)
    {commands : List (Command T K V)} {number : Nat}
    (hnew : s.members.size + commands.countP Command.creates ≤ number)
    (hsize : number < UInt64.size) :
    (s.setMember i (m.renewed (.ofNat number))).run
        (commands.map (Command.renamed (m.cache.clear.renewal (.ofNat number)))) =
      ((s.setMember i { m with cache := m.cache.clear }).run commands).map
        (renamedRun (m.cache.clear.renewal (.ofNat number))) := by
  have hi : s.members.size > i := (Array.getElem?_eq_some_iff.mp hm).1
  have hid : m.cache.clear.id = .ofNat i := (hs i m hm).2
  have hfix {j : Nat} (hj : j < number) (hne : j ≠ i) :
      (m.cache.clear.renewal (.ofNat number)).Fixes (.ofNat j) := by
    refine Cache.fixes_renewal ?_ ?_
    · rw [hid]
      exact ofNat_ne_ofNat (by omega) (by omega) hne
    · exact ofNat_ne_ofNat (by omega) hsize (by omega)
  have hstart := s.setMember_renewed i m (.ofNat number) fun j m' hne hm' => by
    have hj : s.members.size > j := (Array.getElem?_eq_some_iff.mp hm').1
    rw [(hs j m' hm').2]
    exact hfix (by omega) hne
  rw [← hstart]
  refine run_renamed _ fun n hn => ?_
  obtain ⟨hlow, hhigh⟩ := hn
  rw [setMember, Array.size_setIfInBounds] at hlow hhigh
  exact hfix (by omega) (by omega)

end Renew

section Stale

variable [PartialEquivBEq K]

theorem Minted.ages {commands : List (Command T K V)} {reports : List (Report T K V (Answer K V))}
    (hg : s.Minted i g n commands) (hs : s.Each Cache.Drifting)
    (hr : s.run commands = .ok (reports, t)) :
    ∃ c m, t.members[i]? = some m ∧ g = c.handle g.slot ∧ Cache.Ages c m.cache n := by
  obtain ⟨first, request, rest, reports₀, s₀, minted, rfl, hfirst, hminted, hg, rfl⟩ := hg
  have hs₀ := (hs.run kept_drifting hfirst).1
  obtain ⟨hs₁, -⟩ := hs₀.perform kept_drifting hminted
  rw [run_append hfirst] at hr
  obtain ⟨⟨reports₁, t₁⟩, hmore, he⟩ := Cache.exists_of_map_eq_ok hr
  obtain ⟨report, hreport, hmore⟩ := Cache.exists_of_bind_eq_ok hmore
  obtain ⟨⟨reports₂, t₂⟩, hrest, hmore⟩ := Cache.exists_of_bind_eq_ok hmore
  obtain rfl := Except.ok.inj (hminted.symm.trans hreport)
  obtain rfl : t₂ = t₁ := congrArg Prod.snd (Except.ok.inj hmore)
  obtain rfl : t₂ = t := congrArg Prod.snd he
  rcases onCache_cases hminted with rfl | ⟨m₀, o, hm₀, ho, rfl⟩
  · cases hg
  obtain ⟨m, hm, ha⟩ := (hs₁.run kept_drifting hrest).2 i _ (getElem?_reportOf hm₀ o)
  exact ⟨o.cache, m, hm, Cache.handle_of_perform ho hg, ha⟩

end Stale

/-- Nothing leaks across a clear. Whatever the cache held, also keys that equal nothing, every run
goes on as with a new cache in its place that has its capacity, policy and recency mode and all that
is attached to it: step by step with the same answers, recency lists, slots, logs, announcements and
statistics, or with the same fault. Only its identity is the new cache's own, one that no cache of
the run has, and the generations of its handles count from the clear. Each handle that the cache
minted before is stale from then on, if fewer than 2 ^ 64 structural changes come after it. -/
theorem run_clear_renews [PartialEquivBEq K] {before : List (Command T K V)}
    {earlier : List (Report T K V (Answer K V))}
    (hbefore : ({} : Session T K V).run before = .ok (earlier, s))
    (hm : s.members[i]? = some m) :
    ∃ cleared, s.perform (.cache i .clear) = .ok cleared ∧
      (∀ (commands : List (Command T K V)) (number : Nat),
        s.members.size + commands.countP Command.creates ≤ number → number < UInt64.size →
        (s.setMember i (m.renewed (.ofNat number))).run
            (commands.map (Command.renamed (m.cache.clear.renewal (.ofNat number)))) =
          (cleared.session.run commands).map
            (renamedRun (m.cache.clear.renewal (.ofNat number)))) ∧
      ∀ (after : List (Command T K V)) later t g n,
        cleared.session.run after = .ok (later, t) → ({} : Session T K V).Minted i g n before →
        n + 1 + cleared.session.mutationsOver i after < UInt64.size →
        ∃ m', t.members[i]? = some m' ∧ m'.cache.Refuses g .staleHandle := by
  obtain ⟨hs, -⟩ := (each_empty Cache.Drifting).run kept_drifting hbefore
  obtain ⟨cleared, hcleared, hsession⟩ := perform_clear hm
  refine ⟨cleared, hcleared, ?_, ?_⟩
  · intro commands number hnew hsize
    rw [hsession]
    exact run_renewed hs hm hnew hsize
  · intro after later t g n hafter hg hbumps
    obtain ⟨c, m₀, hm₀, hhandle, hold⟩ := hg.ages (each_empty Cache.Drifting) hbefore
    obtain rfl := Option.some.inj (hm₀.symm.trans hm)
    have hs' := (hs.perform kept_drifting hcleared).1
    have hclear : Cache.Ages m₀.cache m₀.cache.clear 1 := Cache.ages_one rfl rfl
    have hm₁ := getElem?_setMember hm { m₀ with cache := m₀.cache.clear } i
    rw [if_pos rfl, ← hsession] at hm₁
    obtain ⟨m', hm', hnew⟩ := (hs'.run kept_drifting hafter).2 i _ hm₁
    have hages := (hold.trans hclear).trans hnew
    exact ⟨m', hm', ages_refuses hages hhandle (by omega) hbumps⟩

/-- A stray key is left in the index when the cache is cleared, and afterwards it is gone: an
insertion and the erasure of its entry by handle go through as in a new cache, whose identity is 1,
and the handle from before is refused. -/
theorem run_clear_renews_stray : PartialEquivBEq Key ∧
    ∃ (s t : Session Unit Key Nat) (earlier later : List (Report Unit Key Nat (Answer Key Nat)))
      (m m' : Member Unit Key Nat) (cleared : Report Unit Key Nat (Answer Key Nat)),
      ({} : Session Unit Key Nat).run [.createCache { origin := .empty 2 .capacity },
        .cache 0 (.insert (.unequal 1) 10), .cache 0 .popFront] = .ok (earlier, s) ∧
      s.members[0]? = some m ∧ m.cache.index.size = m.cache.order.len + 1 ∧
      s.perform (.cache 0 .clear) = .ok cleared ∧
      (s.setMember 0 (m.renewed 1)).run
          [.cache 0 (.insert (.int 2) 20), .cache 0 (.eraseAt ⟨1, some 0, 1⟩)] =
        (cleared.session.run
          [.cache 0 (.insert (.int 2) 20), .cache 0 (.eraseAt ⟨0, some 0, 4⟩)]).map
            (renamedRun (m.cache.clear.renewal 1)) ∧
      cleared.session.run [.cache 0 (.insert (.int 2) 20), .cache 0 (.eraseAt ⟨0, some 0, 4⟩)] =
        .ok (later, t) ∧
      t.members[0]? = some m' ∧ m'.cache.Refuses ⟨0, some 0, 1⟩ .staleHandle := by
  obtain ⟨cleared, hcleared, hruns, hstale⟩ := @run_clear_renews Unit Key Nat _ 0 _ _ _
    [.createCache { origin := .empty 2 .capacity }, .cache 0 (.insert (.unequal 1) 10),
      .cache 0 .popFront] _ rfl rfl
  cases hcleared
  obtain ⟨m', hm', hrefuses⟩ := hstale
    [.cache 0 (.insert (.int 2) 20), .cache 0 (.eraseAt ⟨0, some 0, 4⟩)] _ _ ⟨0, some 0, 1⟩ 1 rfl
    ⟨[.createCache { origin := .empty 2 .capacity }], .insert (.unequal 1) 10, [.cache 0 .popFront],
      _, _, _, rfl, rfl, rfl, List.mem_singleton.mpr rfl, rfl⟩ (by decide)
  exact ⟨inferInstance, _, _, _, _, _, m', _, rfl, rfl, rfl, rfl,
    hruns [.cache 0 (.insert (.int 2) 20), .cache 0 (.eraseAt ⟨0, some 0, 4⟩)] 1 (by decide)
      (by decide), rfl, hm', hrefuses⟩

end Session

end Lru
