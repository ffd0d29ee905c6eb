import HyperDerp.HdPeers.PeerIds

/-!
# Policies and the slots they live in (`hd_peers.cc:174-320`)

A policy stays in its slot when the peer is removed, and an enrolment does not
reset the slot it takes. Against the registry stands a map from keys to policies,
set by the calls on each key alone. The two agree as long as every enrolment
happens to take a slot whose policy is the default one.
-/

namespace HyperDerp

namespace PolicySlots

structure State where
  reg : HdPeerRegistry
  /-- last policy set or cleared for a live key since it was enrolled -/
  last : Key → Option HdPeerPolicy

def given (last : Key → Option HdPeerPolicy) (key : Key) (policy : HdPeerPolicy) :
    Key → Option HdPeerPolicy :=
  if (last key).isSome then Function.update last key (some policy) else last

def lastAfter (s : State) : HdPeersOp → Key → Option HdPeerPolicy
  | .insert key _ =>
    if hdPeersLookup s.reg key = none ∧ s.reg.freeSlot ≠ none then
      Function.update s.last key (some {})
    else s.last
  | .remove key => Function.update s.last key none
  | .revoke key => Function.update s.last key none
  | .setPolicy key policy => given s.last key policy
  | .clearPolicy key => given s.last key {}

def step (s : State) (op : HdPeersOp) : Option State := some ⟨op.apply s.reg, lastAfter s op⟩

structure Init (s : State) : Prop where
  empty : ∀ i, ¬(s.reg.peers i).Live
  last : s.last = fun _ => none

/-- The slot that an enrolment takes holds the default policy. -/
def CleanSlot (s : State) : HdPeersOp → Prop
  | .insert key _ => ∀ i, s.reg.Takes key i → s.reg.policies i = {}
  | _ => True

def Own (s : State) : Prop :=
  ∀ key, (hdPeersLookup s.reg key).isSome = true → hdPeersLookupPolicy s.reg key = s.last key

theorem lookupPolicy_eq (reg : HdPeerRegistry) (key : Key) :
    hdPeersLookupPolicy reg key = (hdPeersLookup reg key).map reg.policies := rfl

structure Inv (reg : HdPeerRegistry) (last : Key → Option HdPeerPolicy) : Prop where
  keys : reg.KeysDistinct
  agrees : ∀ key, hdPeersLookupPolicy reg key = last key

section

variable {reg : HdPeerRegistry} {last : Key → Option HdPeerPolicy}

theorem Inv.enrol (h : Inv reg last) {key : Key} {i : HdSlot} (ht : reg.Takes key i) (fd : Fd)
    (hclean : reg.policies i = {}) :
    Inv (reg.enrol i key fd) (Function.update last key (some {})) := by
  refine ⟨h.keys.enrol ht fd, fun k => ?_⟩
  rw [lookupPolicy_eq, HdPeerRegistry.enrol_policies]
  by_cases hk : k = key
  · rw [hk, HdPeerRegistry.lookup_enrol_self ht, Function.update_self, Option.map_some, hclean]
  · rw [HdPeerRegistry.lookup_enrol_ne ht hk, Function.update_of_ne hk]
    exact h.agrees k

theorem Inv.remove (h : Inv reg last) (key : Key) :
    Inv (hdPeersRemove reg key) (Function.update last key none) := by
  refine ⟨h.keys.remove key, fun k => ?_⟩
  cases hl : hdPeersLookup reg key with
  | none =>
    have hgone : last key = none := by
      rw [← h.agrees key, lookupPolicy_eq, hl, Option.map_none]
    rw [HdPeerRegistry.hdPeersRemove_none hl, ← hgone, Function.update_eq_self]
    exact h.agrees k
  | some i =>
    rw [HdPeerRegistry.hdPeersRemove_some hl, lookupPolicy_eq]
    by_cases hk : k = key
    · rw [hk, h.keys.lookup_bury_self hl, Function.update_self, Option.map_none]
    · rw [HdPeerRegistry.lookup_bury_ne hl hk, Function.update_of_ne hk]
      exact h.agrees k

theorem Inv.revoke (h : Inv reg last) (key : Key) :
    Inv (hdPeersRevoke reg key) (Function.update last key none) := by
  obtain ⟨d, hd⟩ := HdPeerRegistry.hdPeersRevoke_peers reg key
  rw [hd]
  have hsame : Inv { reg with denylist := d } last := ⟨h.keys, h.agrees⟩
  exact hsame.remove key

theorem Inv.put (h : Inv reg last) {key : Key} {i : HdSlot} (hl : hdPeersLookup reg key = some i)
    (policy : HdPeerPolicy) :
    Inv (reg.setPolicy i policy) (Function.update last key (some policy)) := by
  refine ⟨h.keys, fun k => ?_⟩
  have hmap : hdPeersLookupPolicy (reg.setPolicy i policy) k =
      (hdPeersLookup reg k).map (Function.update reg.policies i policy) := rfl
  rw [hmap]
  by_cases hk : k = key
  · rw [hk, hl, Function.update_self, Option.map_some, Function.update_self]
  · rw [Function.update_of_ne hk, ← h.agrees k, lookupPolicy_eq]
    cases hj : hdPeersLookup reg k with
    | none => rfl
    | some j =>
      have hji : j ≠ i := by
        intro hji
        rw [hji] at hj
        exact hk ((HdPeerRegistry.lookup_some hj).2.symm.trans (HdPeerRegistry.lookup_some hl).2)
      rw [Option.map_some, Option.map_some, Function.update_of_ne hji]

theorem Inv.setPolicy (h : Inv reg last) (key : Key) (policy : HdPeerPolicy) :
    Inv ((hdPeersSetPolicy reg key policy).getD reg) (given last key policy) := by
  unfold hdPeersSetPolicy given
  rw [← h.agrees key, lookupPolicy_eq]
  cases hl : hdPeersLookup reg key with
  | none => exact h
  | some i => exact h.put hl policy

end

theorem inv_step {s : State} (h : Inv s.reg s.last) (op : HdPeersOp) (hok : CleanSlot s op) :
    Inv (op.apply s.reg) (lastAfter s op) := by
  cases op with
  | insert key fd =>
    rw [HdPeersOp.apply, lastAfter]
    rcases HdPeerRegistry.hdPeersInsert_cases s.reg key fd with ⟨hnot, heq⟩ | ⟨i, ht, heq⟩
    · rw [heq, if_neg]
      · exact h
      · rintro ⟨hl, hf⟩
        obtain ⟨i, hi⟩ := Option.ne_none_iff_exists'.1 hf
        exact hnot i ⟨hl, hi⟩
    · have hfree : s.reg.freeSlot ≠ none := by
        rw [ht.2]
        exact Option.some_ne_none i
      rw [heq, if_pos ⟨ht.1, hfree⟩]
      exact h.enrol ht fd (hok i ht)
  | remove key => exact h.remove key
  | revoke key => exact h.revoke key
  | setPolicy key policy => exact h.setPolicy key policy
  | clearPolicy key => exact h.setPolicy key {}

theorem inv_init {s : State} (h : Init s) : Inv s.reg s.last := by
  refine ⟨fun i _ hi => absurd hi (h.empty i), fun key => ?_⟩
  have hnone : hdPeersLookup s.reg key = none :=
    HdPeerRegistry.lookup_none.2 fun i hi => absurd hi (h.empty i)
  rw [lookupPolicy_eq, hnone, h.last, Option.map_none]

theorem policies_own {s : State} (h : Runs.Reach Init step CleanSlot s) : Own s := by
  have hinv : Inv s.reg s.last := h.invariant (P := fun s => Inv s.reg s.last)
      (fun _ h0 => inv_init h0) fun s s' op hs hok hstep => by
    rw [step, Option.some.injEq] at hstep
    rw [← hstep]
    exact inv_step hs op hok
  exact fun key _ => hinv.agrees key

/-! ### A recycled slot -/

def start : State := ⟨{}, fun _ => none⟩

theorem start_init : Init start := ⟨HdPeerRegistry.not_live_empty, rfl⟩

def relayOnly : HdPeerPolicy :=
  { overrideClient := true, hasPin := true, pinnedIntent := .kRequireRelay }

def recycled : List HdPeersOp :=
  [.insert (byteKey 1) 5, .setPolicy (byteKey 1) relayOnly, .remove (byteKey 1),
    .insert (byteKey 2) 6]

theorem recycled_slot_keeps_policy : ¬∀ s, Runs.Reach Init step Runs.Any s → Own s := by
  intro hall
  have hrun : (Runs.run step start recycled).map (fun s =>
      (hdPeersLookupPolicy s.reg (byteKey 2), s.last (byteKey 2),
        (hdPeersLookup s.reg (byteKey 2)).isSome)) = some (some relayOnly, some {}, true) := by
    decide +kernel
  obtain ⟨s, hs, hval⟩ := Option.map_eq_some_iff.1 hrun
  rw [Prod.mk.injEq, Prod.mk.injEq] at hval
  have hown := hall s (Runs.reach_of_run start_init hs) (byteKey 2) hval.2.2
  rw [hval.1, hval.2.1] at hown
  exact absurd hown (by decide)

def run (ops : List HdPeersOp) : State :=
  ops.foldl (fun s op => ⟨op.apply s.reg, lastAfter s op⟩) start

theorem run_append (ops : List HdPeersOp) (op : HdPeersOp) :
    run (ops ++ [op]) = ⟨op.apply (run ops).reg, lastAfter (run ops) op⟩ := by
  rw [run, List.foldl_append]
  rfl

theorem reach_append {ops : List HdPeersOp} (h : Runs.Reach Init step CleanSlot (run ops))
    (op : HdPeersOp) (hok : CleanSlot (run ops) op) :
    Runs.Reach Init step CleanSlot (run (ops ++ [op])) := by
  rw [run_append]
  exact h.next _ _ op hok rfl

theorem insert_policies (ops : List HdPeersOp) (key : Key) (fd : Fd) :
    (run (ops ++ [HdPeersOp.insert key fd])).reg.policies = (run ops).reg.policies := by
  rw [run_append]
  dsimp only
  rw [HdPeersOp.apply]
  rcases HdPeerRegistry.hdPeersInsert_cases (run ops).reg key fd with ⟨-, heq⟩ | ⟨i, -, heq⟩
  · rw [heq]
  · rw [heq, HdPeerRegistry.enrol_policies]

/-- The first peer leaves without a policy. -/
def cleared : List HdPeersOp :=
  [] ++ [HdPeersOp.insert (byteKey 1) 5] ++ [HdPeersOp.insert (byteKey 2) 6] ++
    [HdPeersOp.setPolicy (byteKey 2) relayOnly] ++ [HdPeersOp.remove (byteKey 1)]

theorem cleared_slots :
    ((run cleared).reg.freeSlot = some (0 : HdSlot) ∧
      (run cleared).reg.policies (0 : HdSlot) = {}) ∧
      hdPeersLookup (run cleared).reg (byteKey 1) = none ∧
      hdPeersLookupPolicy (run cleared).reg (byteKey 2) = some relayOnly := by
  decide +kernel

/-- A third peer takes the slot of the first; the second keeps its policy. -/
theorem policies_own_cleared :
    Own (run (cleared ++ [HdPeersOp.insert (byteKey 3) 7])) ∧
      hdPeersLookup (run cleared).reg (byteKey 1) = none ∧
      hdPeersLookupPolicy (run cleared).reg (byteKey 2) = some relayOnly ∧
      hdPeersLookup (run (cleared ++ [HdPeersOp.insert (byteKey 3) 7])).reg (byteKey 3) = some 0 := by
  have hstart : Runs.Reach Init step CleanSlot (run []) := .start _ start_init
  have hfirst := reach_append hstart (.insert (byteKey 1) 5) fun _ _ => rfl
  have hsecond := reach_append hfirst (.insert (byteKey 2) 6) fun i _ => by
    rw [insert_policies]
    rfl
  have hset := reach_append hsecond (.setPolicy (byteKey 2) relayOnly) trivial
  have hleft : Runs.Reach Init step CleanSlot (run cleared) :=
    reach_append hset (.remove (byteKey 1)) trivial
  have hclean : CleanSlot (run cleared) (.insert (byteKey 3) 7) := by
    intro i ht
    have hi : some i = some 0 := ht.2.symm.trans cleared_slots.1.1
    rw [Option.some.injEq] at hi
    rw [hi]
    exact cleared_slots.1.2
  have hlast := reach_append hleft (.insert (byteKey 3) 7) hclean
  exact ⟨policies_own hlast, cleared_slots.2.1, cleared_slots.2.2, by decide +kernel⟩

end PolicySlots

end HyperDerp
