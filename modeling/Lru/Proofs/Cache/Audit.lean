import Lru.Cache.Audit
import Lru.Proofs.Cache.Content

/-! # What the audit accepts

The audit is right about every state, also about one that no run reaches: its
links may form a cycle or lead to vacant slots, its counters and its last
accessed slot may be anything. It looks at one node after the other, and its
local checks decide what the whole walk from the head is like.
-/

namespace Lru

namespace RecencyList

variable {α : Type} {l : RecencyList α} {start prev : Option SlotId}
  {nodes nodes' : List (SlotId × Node α)}

/-- The next links from `start` pass exactly `nodes` and end there: behind the last node is no
link, or one to a slot that holds none. Links that lead into a cycle pass no such list. -/
inductive Passes (l : RecencyList α) : Option SlotId → List (SlotId × Node α) → Prop
  | none : l.Passes none []
  | vacant {id : SlotId} : l.nodes.get? id = none → l.Passes (some id) []
  | node {id : SlotId} {node : Node α} {rest : List (SlotId × Node α)} :
      l.nodes.get? id = some node → l.Passes node.next rest →
        l.Passes (some id) ((id, node) :: rest)

def BackLinked : Option SlotId → List (SlotId × Node α) → Prop
  | _, [] => True
  | prev, (id, node) :: rest => node.prev = prev ∧ BackLinked (some id) rest

theorem Passes.unique (h : l.Passes start nodes) (h' : l.Passes start nodes') :
    nodes = nodes' := by
  induction h generalizing nodes' with
  | none => cases h'; rfl
  | vacant hv =>
    cases h' with
    | vacant => rfl
    | node hn => rw [hv] at hn; cases hn
  | node hn _ ih =>
    cases h' with
    | vacant hv => rw [hv] at hn; cases hn
    | node hn' hrest =>
      rw [hn] at hn'
      obtain rfl := Option.some.inj hn'
      rw [ih hrest]

theorem Passes.of_append {p s : List (SlotId × Node α)} {x : SlotId × Node α}
    (h : l.Passes start (p ++ x :: s)) : l.Passes (some x.1) (x :: s) := by
  induction p generalizing start with
  | nil =>
    cases h with
    | node hn hrest => exact .node hn hrest
  | cons y p ih =>
    cases h with
    | node _ hrest => exact ih hrest

/-- A walk that ends meets no node twice: from the second visit it would go on as from the first. -/
theorem Passes.nodup (h : l.Passes start nodes) : (nodes.map Prod.fst).Nodup := by
  induction h with
  | none | vacant => exact List.nodup_nil
  | @node id node rest hn hrest ih =>
    refine List.nodup_cons.mpr ⟨fun hm => ?_, ih⟩
    obtain ⟨x, hx, rfl⟩ := List.mem_map.mp hm
    obtain ⟨p, s, rfl⟩ := List.append_of_mem hx
    have hsame := (Passes.node hn hrest).unique hrest.of_append
    have hlen := congrArg List.length hsame
    simp only [List.length_cons, List.length_append] at hlen
    omega

end RecencyList

namespace Cache

open RecencyList (Passes BackLinked)

variable {K V : Type} [BEq K] {c : Cache K V} {start prev : Option SlotId} {budget n : Nat}
  {nodes : List (SlotId × Node (Entry K V))}

def Indexed (c : Cache K V) (nodes : List (SlotId × Node (Entry K V))) : Prop :=
  ∀ x ∈ nodes, c.index.get? x.2.value.key = some x.1

/-- The walk from the head passes `nodes`, which are as many as the index has keys and are linked
in both directions, and the index holds their keys with their slots and no other key. -/
structure Threaded (c : Cache K V) (nodes : List (SlotId × Node (Entry K V))) : Prop where
  passes : c.order.Passes c.order.head nodes
  length_eq : nodes.length = c.index.size
  nodup : (nodes.map Prod.fst).Nodup
  back : BackLinked none nodes
  indexed : c.Indexed nodes
  no_other : ∀ key, c.index.contains key = true → ∃ x ∈ nodes, (key == x.2.value.key) = true

/-- Index, recency list, capacity and last access agree. -/
structure Intact (c : Cache K V) : Prop where
  size_eq : c.index.size = c.order.len
  le_capacity : c.index.size ≤ c.capacity
  threaded : ∃ nodes, c.Threaded nodes
  remembers : c.Remembers

/-- The loop over the nodes, with no bound on its rounds: from a count, the node before and the
link ahead it takes `rounds` rounds to its result. -/
inductive Scans (c : Cache K V) :
    Nat → Option SlotId → Option SlotId → Nat → Except InvariantError Nat → Prop
  | done {count prev link} : link.bind c.order.nodes.get? = none →
      c.Scans count prev link 0 (.ok count)
  | fail {count prev id node e} : c.order.nodes.get? id = some node →
      c.checkNode prev id node = .error e → c.Scans count prev (some id) 1 (.error e)
  | cycle {count prev id node} : c.order.nodes.get? id = some node →
      c.checkNode prev id node = .ok () → c.index.size < count + 1 →
      c.Scans count prev (some id) 1 (.error .cycle)
  | next {count prev id node rounds result} : c.order.nodes.get? id = some node →
      c.checkNode prev id node = .ok () → ¬ c.index.size < count + 1 →
      c.Scans (count + 1) (some id) node.next rounds result →
      c.Scans count prev (some id) (rounds + 1) result

theorem checkNode_eq_ok_iff {id : SlotId} {node : Node (Entry K V)} :
    c.checkNode prev id node = .ok () ↔
      c.index.get? node.value.key = some id ∧ node.prev = prev := by
  simp only [checkNode]
  by_cases hi : c.index.get? node.value.key = some id
  · by_cases hp : node.prev = prev <;> simp [hi, hp]
  · simp [hi]

section Rounds

variable {id : SlotId} {node : Node (Entry K V)}

theorem round_cases (c : Cache K V) (prev link : Option SlotId) :
    link.bind c.order.nodes.get? = none ∨
      ∃ id node, link = some id ∧ c.order.nodes.get? id = some node ∧
        ((∃ e, c.checkNode prev id node = .error e) ∨ c.checkNode prev id node = .ok ()) := by
  cases hl : link.bind c.order.nodes.get? with
  | none => exact .inl rfl
  | some node =>
    obtain ⟨id, rfl, hn⟩ := Option.bind_eq_some_iff.mp hl
    refine .inr ⟨id, node, rfl, hn, ?_⟩
    cases c.checkNode prev id node with
    | error e => exact .inl ⟨e, rfl⟩
    | ok => exact .inr rfl

theorem checkNodes_of_end (h : start.bind c.order.nodes.get? = none) :
    c.checkNodes prev budget start = .ok 0 := by
  cases start with
  | none => cases budget <;> rfl
  | some id =>
    rw [Option.bind_some] at h
    simp only [checkNodes, h]

theorem checkNodes_of_error {e : InvariantError} (hn : c.order.nodes.get? id = some node)
    (hc : c.checkNode prev id node = .error e) :
    c.checkNodes prev budget (some id) = .error e := by
  simp only [checkNodes, hn, hc]
  rfl

theorem checkNodes_zero (hn : c.order.nodes.get? id = some node)
    (hc : c.checkNode prev id node = .ok ()) :
    c.checkNodes prev 0 (some id) = .error .cycle := by
  simp only [checkNodes, hn, hc]
  rfl

theorem checkNodes_succ (hn : c.order.nodes.get? id = some node)
    (hc : c.checkNode prev id node = .ok ()) :
    c.checkNodes prev (budget + 1) (some id) =
      (c.checkNodes (some id) budget node.next).map (· + 1) := by
  simp only [checkNodes, hn, hc]
  rfl

end Rounds

/-- The bounded loop gives the result of the unbounded one, which thus comes to an end, whatever
the links are: after one node more than the index has keys it does not go on. -/
theorem scans_checkNodes (budget count : Nat) (prev link : Option SlotId)
    (hb : count + budget = c.index.size) :
    ∃ rounds ≤ budget + 1,
      c.Scans count prev link rounds ((c.checkNodes prev budget link).map (count + ·)) := by
  induction budget using Nat.strongRecOn generalizing count prev link with
  | ind budget ih =>
    rcases c.round_cases prev link with hl | ⟨id, node, rfl, hn, ⟨e, hc⟩ | hc⟩
    · rw [checkNodes_of_end hl]
      exact ⟨0, Nat.zero_le _, .done hl⟩
    · rw [checkNodes_of_error hn hc]
      exact ⟨1, Nat.le_add_left .., .fail hn hc⟩
    · cases budget with
      | zero =>
        rw [checkNodes_zero hn hc]
        exact ⟨1, Nat.le_refl _, .cycle hn hc (by omega)⟩
      | succ budget =>
        obtain ⟨rounds, hle, hrest⟩ :=
          ih budget (Nat.lt_succ_self _) (count + 1) (some id) node.next (by omega)
        refine ⟨rounds + 1, Nat.succ_le_succ hle, ?_⟩
        rw [checkNodes_succ hn hc]
        refine .next hn hc (by omega) ?_
        have hmap : ∀ r : Except InvariantError Nat,
            (r.map (· + 1)).map (count + ·) = r.map (count + 1 + ·) := by
          rintro (e | n)
          · rfl
          · exact congrArg Except.ok (Nat.add_right_comm count n 1)
        rwa [hmap]

theorem exists_passes_of_checkNodes (h : c.checkNodes prev budget start = .ok n) :
    n ≤ budget ∧ ∃ nodes, c.order.Passes start nodes ∧ nodes.length = n ∧
      BackLinked prev nodes ∧ c.Indexed nodes := by
  induction budget using Nat.strongRecOn generalizing prev start n with
  | ind budget ih =>
    rcases c.round_cases prev start with hl | ⟨id, node, rfl, hn, ⟨e, hc⟩ | hc⟩
    · rw [checkNodes_of_end hl] at h
      obtain rfl := Except.ok.inj h
      refine ⟨Nat.zero_le _, [], ?_, rfl, trivial, fun x hx => nomatch hx⟩
      cases start with
      | none => exact .none
      | some id => exact .vacant hl
    · rw [checkNodes_of_error hn hc] at h
      cases h
    · cases budget with
      | zero =>
        rw [checkNodes_zero hn hc] at h
        cases h
      | succ budget =>
        rw [checkNodes_succ hn hc] at h
        cases hm : c.checkNodes (some id) budget node.next with
        | error e => rw [hm] at h; cases h
        | ok m =>
          rw [hm] at h
          obtain rfl := Except.ok.inj h
          obtain ⟨hi, hp⟩ := checkNode_eq_ok_iff.mp hc
          obtain ⟨hle, nodes, hpass, rfl, hback, hind⟩ := ih budget (Nat.lt_succ_self _) hm
          exact ⟨Nat.succ_le_succ hle, (id, node) :: nodes, .node hn hpass, rfl, ⟨hp, hback⟩,
            List.forall_mem_cons.mpr ⟨hi, hind⟩⟩

theorem checkNodes_of_passes (hpass : c.order.Passes start nodes) (hle : nodes.length ≤ budget)
    (hback : BackLinked prev nodes) (hind : c.Indexed nodes) :
    c.checkNodes prev budget start = .ok nodes.length := by
  induction hpass generalizing prev budget with
  | none => exact checkNodes_of_end rfl
  | vacant hv => exact checkNodes_of_end hv
  | node hn hrest ih =>
    obtain ⟨hi, hind⟩ := List.forall_mem_cons.mp hind
    cases budget with
    | zero => cases hle
    | succ budget =>
      rw [checkNodes_succ hn (checkNode_eq_ok_iff.mpr ⟨hi, hback.1⟩),
        ih (Nat.le_of_succ_le_succ hle) hback.2 hind]
      rfl

theorem checkNodes_eq_ok_iff : c.checkNodes prev budget start = .ok n ↔
    n ≤ budget ∧ ∃ nodes, c.order.Passes start nodes ∧ nodes.length = n ∧
      BackLinked prev nodes ∧ c.Indexed nodes := by
  constructor
  · exact exists_passes_of_checkNodes
  · rintro ⟨hle, nodes, hpass, rfl, hback, hind⟩
    exact checkNodes_of_passes hpass hle hback hind

section Keys

theorem Indexed.exists_entry (h : c.Indexed nodes) {x : SlotId × Node (Entry K V)}
    (hx : x ∈ nodes) : ∃ key, (key, x.1) ∈ c.index.entries ∧ (x.2.value.key == key) = true := by
  obtain ⟨⟨key, id⟩, hf, rfl⟩ := Option.map_eq_some_iff.mp (h x hx)
  exact ⟨key, List.mem_of_find?_eq_some hf, by simpa using List.find?_some hf⟩

theorem Indexed.slots_perm (h : c.Indexed nodes) (hnodup : (nodes.map Prod.fst).Nodup)
    (hlen : nodes.length = c.index.size) :
    (nodes.map Prod.fst).Perm (c.index.entries.map Prod.snd) := by
  have hsub : nodes.map Prod.fst ⊆ c.index.entries.map Prod.snd := by
    intro id hid
    obtain ⟨x, hx, rfl⟩ := List.mem_map.mp hid
    obtain ⟨key, hm, -⟩ := h.exists_entry hx
    exact List.mem_map_of_mem hm
  refine (List.subperm_of_subset hnodup hsub).perm_of_length_le ?_
  rw [List.length_map, List.length_map, hlen]
  exact Nat.le_refl _

/-- As many nodes as keys leave no key to the index but theirs: each of its slots is that of a
node, and a second key for that slot would be one key too many. -/
theorem Indexed.no_other [PartialEquivBEq K] (h : c.Indexed nodes)
    (hnodup : (nodes.map Prod.fst).Nodup) (hlen : nodes.length = c.index.size) (key : K)
    (hk : c.index.contains key = true) : ∃ x ∈ nodes, (key == x.2.value.key) = true := by
  obtain ⟨id, hid⟩ := Option.isSome_iff_exists.mp hk
  obtain ⟨⟨k, _⟩, hf, rfl⟩ := Option.map_eq_some_iff.mp hid
  have hkk : (key == k) = true := by simpa using List.find?_some hf
  have hperm := h.slots_perm hnodup hlen
  have hmem := List.mem_of_find?_eq_some hf
  obtain ⟨x, hx, hxid⟩ := List.mem_map.mp (hperm.mem_iff.mpr (List.mem_map_of_mem hmem))
  obtain ⟨k', hmem', hxk⟩ := h.exists_entry hx
  have hsame : (k', x.1) = (k, _) :=
    List.inj_on_of_nodup_map (hperm.nodup_iff.mp hnodup) hmem' hmem hxid
  obtain rfl := (Prod.mk.inj hsame).1
  exact ⟨x, hx, BEq.trans hkk (BEq.symm hxk)⟩

end Keys

theorem checkInvariants_eq_ok_iff : c.checkInvariants = .ok () ↔
    c.index.size = c.order.len ∧ c.index.size ≤ c.capacity ∧
      c.checkNodes none c.index.size c.order.head = .ok c.index.size ∧ c.Remembers := by
  have hlen : c.len = c.index.size := rfl
  simp only [checkInvariants, hlen, bind, Except.bind, throw, throwThe, MonadExceptOf.throw, pure,
    Except.pure, Remembers]
  generalize c.index.size = size
  generalize c.order.len = queued
  by_cases hsize : size = queued
  · subst hsize
    by_cases hcap : c.capacity < size
    · simp [hcap, Nat.not_le.mpr hcap]
    · cases c.checkNodes none size c.order.head with
      | error e => simp [hcap]
      | ok walked =>
        by_cases hw : walked = size
        · cases hm : c.lastAccessed with
          | none => simp [hcap, hw, Nat.le_of_not_lt hcap]
          | some id => simp [hcap, hw, Nat.le_of_not_lt hcap]
        · simp [hcap, hw]
  · simp [hsize]

/-- The audit of an arbitrary state comes to its end, and it finds nothing wrong exactly in the
intact states. -/
theorem checkInvariants_iff_intact [PartialEquivBEq K] (c : Cache K V) :
    (∃ rounds ≤ c.index.size + 1, c.Scans 0 none c.order.head rounds
      (c.checkNodes none c.index.size c.order.head)) ∧
    (c.checkInvariants = .ok () ↔ c.Intact) := by
  constructor
  · obtain ⟨rounds, hle, h⟩ :=
      c.scans_checkNodes c.index.size 0 none c.order.head (Nat.zero_add _)
    have hmap : ∀ r : Except InvariantError Nat, r.map (0 + ·) = r := by
      rintro (e | n)
      · rfl
      · exact congrArg Except.ok (Nat.zero_add n)
    rw [hmap] at h
    exact ⟨rounds, hle, h⟩
  · rw [checkInvariants_eq_ok_iff, checkNodes_eq_ok_iff]
    constructor
    · rintro ⟨hsize, hcap, ⟨-, nodes, hpass, hlen, hback, hind⟩, hr⟩
      exact ⟨hsize, hcap, ⟨nodes, hpass, hlen, hpass.nodup, hback, hind,
        hind.no_other hpass.nodup hlen⟩, hr⟩
    · rintro ⟨hsize, hcap, ⟨nodes, h⟩, hr⟩
      exact ⟨hsize, hcap, ⟨Nat.le_refl _, nodes, h.passes, h.length_eq, h.back, h.indexed⟩, hr⟩

def circular : Cache Nat Nat where
  index := ⟨[(1, 0), (2, 1)]⟩
  order :=
    { nodes :=
        { slots := #[.occupied ⟨⟨1, 10, 0⟩, none, some 1⟩, .occupied ⟨⟨2, 20, 0⟩, some 0, some 0⟩]
          len := 2 }
      head := some 0
      tail := some 1 }
  capacity := 2
  id := 0

/-- Also where the links go round in a circle: the audit comes back to the first node, and finds
fault with its back link. -/
theorem checkInvariants_iff_intact_circular : PartialEquivBEq Nat ∧
    (∃ rounds ≤ 3, circular.Scans 0 none (some 0) rounds (.error (.brokenBackLink 0))) ∧
    ¬ circular.Intact := by
  obtain ⟨hends, hiff⟩ := checkInvariants_iff_intact circular
  refine ⟨inferInstance, hends, fun h => ?_⟩
  have hfault : circular.checkInvariants = .error (.brokenBackLink 0) := rfl
  rw [hfault] at hiff
  exact nomatch hiff.mpr h

end Cache

end Lru
