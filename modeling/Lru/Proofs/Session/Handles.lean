import Lru.Proofs.Session.Members

/-! # Handles in a session

However many caches there are and whatever happens to them, a handle is refused
by every cache but the one that minted it. That one refuses it once the cache
has changed its structure, and until then finds what the handle was minted for.
-/

namespace Lru.Session

/-- The handles that an answer mints. -/
def Answer.handles {K V : Type} : Answer K V → List Handle
  | .cache answer => answer.handles
  | _ => []

variable {T K V : Type} [BEq K] {s₀ s : Session T K V} {a b : CacheId} {g : Handle}

theorem ofNat_ne_ofNat {m n : Nat} (hm : m < UInt64.size) (hn : n < UInt64.size) (h : m ≠ n) :
    UInt64.ofNat m ≠ UInt64.ofNat n := by
  intro he
  have ht := congrArg UInt64.toNat he
  rw [UInt64.toNat_ofNat_of_lt' hm, UInt64.toNat_ofNat_of_lt' hn] at ht
  exact h ht

theorem ages_refuses {c d : Cache K V} {n : Nat} (ha : Cache.Ages c d n)
    (hg : g = c.handle g.slot) (hn : n ≠ 0) (hlt : n < UInt64.size) : d.Refuses g .staleHandle := by
  have howner : g.owner = c.id := congrArg Handle.owner hg
  have hgen : g.generation = c.generation := congrArg Handle.generation hg
  refine Cache.refuses_stale (howner.trans ha.id.symm) ?_
  rw [hgen, ha.generation]
  intro he
  have hzero : UInt64.ofNat n = UInt64.ofNat 0 := by simpa using he
  exact ofNat_ne_ofNat hlt (by decide) hn hzero

theorem ages_honours {c d : Cache K V} (ha : Cache.Ages c d 0) (hd : d.Coherent)
    (hg : g = c.handle g.slot) : d.Honours c g := by
  obtain ⟨items, free, h⟩ := hd
  refine h.honours ?_ (ha.keyAt rfl)
  have hgen : d.generation = c.generation := by simpa using ha.generation
  rw [hg, Cache.handle, Cache.handle, ha.id, hgen]

/-- The fate of a handle. Other caches refuse it as foreign. The cache that minted it refuses it as
stale exactly if it has changed its structure since, and else lets it stand where it stood: past
the end, or on the same entry, which is that of the key if one was inserted or found for it. -/
theorem run_handle [EquivBEq K] {before after : List (Command T K V)}
    {earlier later : List (Report T K V (Answer K V))} {request : Cache.Command K V}
    {minted : Report T K V (Answer K V)}
    (hbefore : ({} : Session T K V).run before = .ok (earlier, s₀))
    (hminted : s₀.perform (.cache a request) = .ok minted) (hg : g ∈ minted.result.handles)
    (hafter : minted.session.run after = .ok (later, s))
    (hmutations : minted.session.mutationsOver a after < UInt64.size)
    (hsize : s.members.size < UInt64.size) :
    (∀ b m, b ≠ a → s.members[b]? = some m → m.cache.Refuses g .foreignHandle) ∧
    ∃ m₀ m₁ m, s₀.members[a]? = some m₀ ∧ minted.session.members[a]? = some m₁ ∧
      s.members[a]? = some m ∧
      (minted.session.mutationsOver a after ≠ 0 → m.cache.Refuses g .staleHandle) ∧
      (minted.session.mutationsOver a after = 0 → m.cache.Honours m₁.cache g) ∧
      ((∀ kind g' moves, request = .cursor (.handle kind g') moves → m₀.cache.Stands g'.slot) →
        m₁.cache.Stands g.slot) ∧
      m₀.cache.MintedFor m₁.cache (s₀.reading m₀) request g := by
  have hs₀ := (sound_empty.run hbefore).1
  obtain ⟨hs₁, -⟩ := hs₀.perform hminted
  obtain ⟨hs, hev⟩ := hs₁.run hafter
  rcases onCache_cases hminted with rfl | ⟨m₀, o, hm₀, ho, rfl⟩
  · cases hg
  have hm₁ := getElem?_setMember (s := (s₀.notifyAll m₀ o.notices).2)
    (s₀.notifyAll_members m₀ o.notices ▸ hm₀) { m₀ with cache := o.cache } a
  rw [if_pos rfl] at hm₁
  obtain ⟨m, hm, ha⟩ := hev a _ hm₁
  have hcoherent := (hs₀ a m₀ hm₀).1
  obtain ⟨hmint, hstands⟩ := hcoherent.perform_handles ho hg
  have hid : o.cache.id = UInt64.ofNat a := (hs₁ a _ hm₁).2
  have hlt {b : CacheId} {m : Member T K V} (h : s.members[b]? = some m) : b < UInt64.size :=
    Nat.lt_trans (Array.getElem?_eq_some_iff.mp h).1 hsize
  constructor
  · intro b m' hne hb
    have howner : g.owner = o.cache.id := congrArg Handle.owner hmint
    apply Cache.refuses_foreign
    rw [howner, hid, (hs b m' hb).2]
    exact ofNat_ne_ofNat (hlt hm) (hlt hb) (Ne.symm hne)
  · refine ⟨m₀, _, m, hm₀, hm₁, hm, ?_, ?_, hstands, hcoherent.perform_mintedFor ho hg⟩
    · intro hn
      exact ages_refuses ha hmint hn hmutations
    · intro hz
      have hzero : o.cache.Ages m.cache 0 := hz ▸ ha
      exact ages_honours hzero (hs a m hm).1 hmint

/-- The handle stands on its key until another one takes the slot, and then it is refused. -/
theorem run_handle_recycled : EquivBEq Nat ∧
    ∃ (s₀ s : Session Unit Nat Nat) (earlier later : List (Report Unit Nat Nat (Answer Nat Nat)))
      (minted : Report Unit Nat Nat (Answer Nat Nat)),
      ({} : Session Unit Nat Nat).run [.createCache { origin := .empty 1 .capacity },
        .createCache { origin := .empty 1 .capacity }] = .ok (earlier, s₀) ∧
      s₀.perform (.cache 0 (.insert 1 10)) = .ok minted ∧
      ⟨0, some 0, 1⟩ ∈ minted.result.handles ∧
      (∃ m₁, minted.session.members[0]? = some m₁ ∧ m₁.cache.StandsOn 1 (some 0)) ∧
      minted.session.run [.cache 0 (.insert 2 20)] = .ok (later, s) ∧
      minted.session.mutationsOver 0 [.cache 0 (.insert 2 20)] = 1 ∧
      ∃ m, s.members[0]? = some m ∧ m.cache.keyAt 0 = some 2 ∧
        m.cache.Refuses ⟨0, some 0, 1⟩ .staleHandle := by
  obtain ⟨-, m₀, m₁, m, hm₀, hm₁, hm, hstale, -, -, hfor⟩ := @run_handle Unit Nat Nat _ _ _ 0
    ⟨0, some 0, 1⟩ _
    [.createCache { origin := .empty 1 .capacity }, .createCache { origin := .empty 1 .capacity }]
    [.cache 0 (.insert 2 20)] _ _ (.insert 1 10) _ rfl rfl (List.mem_singleton.mpr rfl) rfl
    (by decide) (by decide)
  have hinsert := hfor.insert 1 10 rfl
  cases hm₀
  rw [if_pos (by rfl)] at hinsert
  refine ⟨inferInstance, _, _, _, _, _, rfl, rfl, List.mem_singleton.mpr rfl, ⟨m₁, hm₁, hinsert⟩,
    rfl, rfl, m, hm, ?_, hstale (by decide)⟩
  cases hm
  rfl

end Lru.Session
