import HyperDerp.HdPeers.Registry

/-!
# Peer ids (`hd_peers.cc:221-320`)

A new entry gets the value of a 16-bit counter that skips 0. Nothing compares it
with the ids in use, so ids are distinct exactly as long as the counter, once it
has wrapped, is not the id of an entry that is still live.
-/

namespace HyperDerp

inductive HdPeersOp where
  | insert (key : Key) (fd : Fd)
  | remove (key : Key)
  | revoke (key : Key)
  | setPolicy (key : Key) (policy : HdPeerPolicy)
  | clearPolicy (key : Key)

def HdPeersOp.apply (reg : HdPeerRegistry) : HdPeersOp → HdPeerRegistry
  | .insert key fd => hdPeersInsert reg key fd
  | .remove key => hdPeersRemove reg key
  | .revoke key => hdPeersRevoke reg key
  | .setPolicy key policy => (hdPeersSetPolicy reg key policy).getD reg
  | .clearPolicy key => (hdPeersClearPolicy reg key).getD reg

namespace PeerIds

def step (reg : HdPeerRegistry) (op : HdPeersOp) : Option HdPeerRegistry := some (op.apply reg)

structure Init (reg : HdPeerRegistry) : Prop where
  empty : ∀ i, ¬(reg.peers i).Live
  first : reg.nextPeerId = 1

/-- An enrolment that makes an entry finds the counter at an id that is not in use. -/
def FreshId (reg : HdPeerRegistry) : HdPeersOp → Prop
  | .insert key _ => ∀ i, reg.Takes key i →
      ∀ j, (reg.peers j).Live → (reg.peers j).peerId ≠ reg.nextPeerId
  | _ => True

/-- Ids of live entries are distinct and not zero, and each leads back to its entry. -/
structure Unambiguous (reg : HdPeerRegistry) : Prop where
  distinct : ∀ i j, (reg.peers i).Live → (reg.peers j).Live →
    (reg.peers i).peerId = (reg.peers j).peerId → i = j
  nonzero : ∀ i, (reg.peers i).Live → (reg.peers i).peerId ≠ 0
  byId : ∀ i, (reg.peers i).Live → hdPeersLookupById reg (reg.peers i).peerId = some (reg.peers i)

structure IdsInv (reg : HdPeerRegistry) : Prop where
  distinct : ∀ i j, (reg.peers i).Live → (reg.peers j).Live →
    (reg.peers i).peerId = (reg.peers j).peerId → i = j
  nonzero : ∀ i, (reg.peers i).Live → (reg.peers i).peerId ≠ 0
  next : reg.nextPeerId ≠ 0

variable {reg : HdPeerRegistry} {n : ℕ}

theorem lookupById_of_unique (h : IdsInv reg) {i : HdSlot} (hl : (reg.peers i).Live) :
    hdPeersLookupById reg (reg.peers i).peerId = some (reg.peers i) := by
  have hfirst : FrontScan.first reg.peers (fun p => decide (p.occupied = .live) &&
      decide (p.peerId = (reg.peers i).peerId)) = some i := by
    apply FrontScan.first_of_unique
    · rw [Bool.and_eq_true, decide_eq_true_eq, decide_eq_true_eq]
      exact ⟨hl, rfl⟩
    · intro j hj
      rw [Bool.and_eq_true, decide_eq_true_eq, decide_eq_true_eq] at hj
      exact h.distinct j i hj.1 hl hj.2
  have hby : hdPeersLookupById reg (reg.peers i).peerId =
      (FrontScan.first reg.peers fun p => decide (p.occupied = .live) &&
        decide (p.peerId = (reg.peers i).peerId)).map reg.peers := rfl
  rw [hby, hfirst, Option.map_some]

theorem IdsInv.unambiguous (h : IdsInv reg) : Unambiguous reg :=
  ⟨h.distinct, h.nonzero, fun _ hl => lookupById_of_unique h hl⟩

theorem IdsInv.enrol (h : IdsInv reg) {i : HdSlot} (key : Key) (fd : Fd)
    (hfresh : ∀ j, (reg.peers j).Live → (reg.peers j).peerId ≠ reg.nextPeerId) :
    IdsInv (reg.enrol i key fd) := by
  constructor
  · intro a b ha hb hab
    by_cases hai : a = i
    · by_cases hbi : b = i
      · rw [hai, hbi]
      · rw [hai, HdPeerRegistry.enrol_self, HdPeerRegistry.enrol_ne reg hbi] at hab
        rw [HdPeerRegistry.enrol_ne reg hbi] at hb
        exact absurd hab.symm (hfresh b hb)
    · rw [HdPeerRegistry.enrol_ne reg hai] at ha hab
      by_cases hbi : b = i
      · rw [hbi, HdPeerRegistry.enrol_self] at hab
        exact absurd hab (hfresh a ha)
      · rw [HdPeerRegistry.enrol_ne reg hbi] at hb hab
        exact h.distinct a b ha hb hab
  · intro a ha
    by_cases hai : a = i
    · rw [hai, HdPeerRegistry.enrol_self]
      exact h.next
    · rw [HdPeerRegistry.enrol_ne reg hai] at ha ⊢
      exact h.nonzero a ha
  · unfold HdPeerRegistry.enrol
    dsimp only
    split <;> omega

theorem IdsInv.of_sub {reg' : HdPeerRegistry} (h : IdsInv reg)
    (hsub : ∀ i, (reg'.peers i).Live → reg'.peers i = reg.peers i)
    (hnext : reg'.nextPeerId = reg.nextPeerId) : IdsInv reg' := by
  constructor
  · intro a b ha hb hab
    have hsa := hsub a ha
    have hsb := hsub b hb
    rw [hsa] at ha hab
    rw [hsb] at hb hab
    exact h.distinct a b ha hb hab
  · intro a ha
    have hsa := hsub a ha
    rw [hsa] at ha ⊢
    exact h.nonzero a ha
  · rw [hnext]
    exact h.next

theorem IdsInv.remove (h : IdsInv reg) (key : Key) :
    IdsInv (hdPeersRemove reg key) := by
  unfold hdPeersRemove
  split
  · exact h
  · exact h.of_sub (fun j hj => (HdPeerRegistry.bury_live hj).2) rfl

theorem IdsInv.setPolicy (h : IdsInv reg) (key : Key) (policy : HdPeerPolicy) :
    IdsInv ((hdPeersSetPolicy reg key policy).getD reg) := by
  unfold hdPeersSetPolicy
  cases hdPeersLookup reg key with
  | none => exact h
  | some i => exact h.of_sub (fun _ _ => rfl) rfl

theorem IdsInv.revoke (h : IdsInv reg) (key : Key) :
    IdsInv (hdPeersRevoke reg key) := by
  obtain ⟨d, hd⟩ := HdPeerRegistry.hdPeersRevoke_peers reg key
  rw [hd]
  apply IdsInv.remove
  exact h.of_sub (fun _ _ => rfl) rfl

theorem IdsInv.insert (h : IdsInv reg) {key : Key} {fd : Fd} (hok : FreshId reg (.insert key fd)) :
    IdsInv (hdPeersInsert reg key fd) := by
  rcases HdPeerRegistry.hdPeersInsert_cases reg key fd with ⟨-, heq⟩ | ⟨i, ht, heq⟩
  · rw [heq]
    exact h
  · rw [heq]
    exact h.enrol key fd (hok i ht)

theorem apply_inv (h : IdsInv reg) (op : HdPeersOp) (hok : FreshId reg op) :
    IdsInv (op.apply reg) := by
  cases op with
  | insert key fd =>
    rw [HdPeersOp.apply]
    exact h.insert hok
  | remove key => exact h.remove key
  | revoke key => exact h.revoke key
  | setPolicy key policy => exact h.setPolicy key policy
  | clearPolicy key => exact h.setPolicy key {}

theorem inv_init (h : Init reg) : IdsInv reg := by
  constructor
  · exact fun i _ hi => absurd hi (h.empty i)
  · exact fun i hi => absurd hi (h.empty i)
  · rw [h.first]
    omega

theorem ids_unambiguous {reg : HdPeerRegistry} (h : Runs.Reach Init step FreshId reg) :
    Unambiguous reg := by
  have hinv : IdsInv reg := h.invariant (fun _ h0 => inv_init h0) fun s s' op hs hok hstep => by
    rw [step, Option.some.injEq] at hstep
    rw [← hstep]
    exact apply_inv hs op hok
  exact hinv.unambiguous

/-! ### The counter wraps -/

structure Churned (n : ℕ) (reg : HdPeerRegistry) : Prop where
  keys : reg.KeysDistinct
  oldest : ∃ a, (reg.peers a).Live ∧ (reg.peers a).key = byteKey 1 ∧ (reg.peers a).peerId = 1
  away : hdPeersLookup reg (byteKey 2) = none
  room : reg.freeSlot.isSome = true
  next : reg.nextPeerId = n

theorem Churned.takes (h : Churned n reg) :
    ∃ i, reg.Takes (byteKey 2) i := by
  obtain ⟨i, hi⟩ := Option.isSome_iff_exists.1 h.room
  exact ⟨i, h.away, hi⟩

theorem Churned.churn (h : Churned n reg) (fd : Fd) :
    Churned (if (n + 1) % 2 ^ 16 = 0 then 1 else (n + 1) % 2 ^ 16)
      (hdPeersRemove (hdPeersInsert reg (byteKey 2) fd) (byteKey 2)) := by
  obtain ⟨i, ht⟩ := h.takes
  have hkeys := h.keys.enrol ht fd
  have hself := HdPeerRegistry.lookup_enrol_self ht fd
  rw [HdPeerRegistry.hdPeersInsert_takes ht, HdPeerRegistry.hdPeersRemove_some hself]
  constructor
  · rw [← HdPeerRegistry.hdPeersRemove_some hself]
    exact hkeys.remove _
  · obtain ⟨a, hl, hk, hid⟩ := h.oldest
    have hai : a ≠ i := by
      intro hai
      rw [hai] at hl
      exact HdPeerRegistry.freeSlot_some ht.2 hl
    have hsame : ((reg.enrol i (byteKey 2) fd).bury i).peers a = reg.peers a :=
      (Function.update_of_ne hai ..).trans (HdPeerRegistry.enrol_ne reg hai _ fd)
    refine ⟨a, ?_, ?_, ?_⟩ <;> rw [hsame]
    · exact hl
    · exact hk
    · exact hid
  · exact hkeys.lookup_bury_self hself
  · apply FrontScan.first_isSome
    have hb : ((reg.enrol i (byteKey 2) fd).bury i).peers i =
        { (reg.enrol i (byteKey 2) fd).peers i with occupied := .tombstone } :=
      Function.update_self ..
    rw [hb]
    rfl
  · rw [← h.next]
    rfl

theorem churned_first : Churned 2 (hdPeersInsert {} (byteKey 1) 5) := by
  have ht := HdPeerRegistry.takes_empty .kManual (byteKey 1)
  have hdist : HdPeerRegistry.KeysDistinct {} :=
    fun i _ hl => absurd hl (HdPeerRegistry.not_live_empty i)
  rw [HdPeerRegistry.hdPeersInsert_takes ht]
  constructor
  · exact hdist.enrol ht 5
  · refine ⟨0, ?_⟩
    rw [HdPeerRegistry.enrol_self]
    exact ⟨rfl, rfl, rfl⟩
  · rw [HdPeerRegistry.lookup_enrol_ne ht (by decide)]
    exact HdPeerRegistry.lookup_none.2 fun i hl => absurd hl (HdPeerRegistry.not_live_empty i)
  · have hone : (1 : HdSlot) ≠ 0 := by decide
    have hfree : decide (((HdPeerRegistry.enrol {} 0 (byteKey 1) 5).peers 1).occupied ≠ .live) =
        true := by
      rw [HdPeerRegistry.enrol_ne _ hone]
      rfl
    exact FrontScan.first_isSome hfree
  · rfl

theorem init_empty : Init {} := ⟨HdPeerRegistry.not_live_empty, rfl⟩

theorem reach_apply {ok : HdPeerRegistry → HdPeersOp → Prop} (h : Runs.Reach Init step ok reg)
    (op : HdPeersOp) (hok : ok reg op) :
    Runs.Reach Init step ok (op.apply reg) := h.next _ _ op hok rfl

theorem reach_churned (n : ℕ) (h2 : 2 ≤ n) (hn : n < 2 ^ 16) :
    ∃ reg, Runs.Reach Init step Runs.Any reg ∧ Churned n reg := by
  induction n, h2 using Nat.le_induction with
  | base =>
    have hstart : Runs.Reach Init step Runs.Any {} := .start _ init_empty
    exact ⟨_, reach_apply hstart (.insert (byteKey 1) 5) trivial, churned_first⟩
  | succ n h2 ih =>
    obtain ⟨reg, hreach, hc⟩ := ih (by omega)
    have hins := reach_apply hreach (.insert (byteKey 2) 6) trivial
    have hrem := reach_apply hins (.remove (byteKey 2)) trivial
    refine ⟨_, hrem, ?_⟩
    have hc' := hc.churn 6
    rw [Nat.mod_eq_of_lt hn, if_neg (by omega)] at hc'
    exact hc'

/-- After 65534 enrolments of the second peer the counter is back at the first one's id. -/
theorem wrapped_id_is_reused :
    ¬∀ reg, Runs.Reach Init step Runs.Any reg → Unambiguous reg := by
  intro hall
  obtain ⟨reg, hreach, hc⟩ := reach_churned 65535 (by omega) (by omega)
  have hins := reach_apply hreach (.insert (byteKey 2) 6) trivial
  have hrem := reach_apply hins (.remove (byteKey 2)) trivial
  have hlast := reach_apply hrem (.insert (byteKey 2) 7) trivial
  have hdist := (hall _ hlast).distinct
  have hc1 := hc.churn 6
  obtain ⟨i, ht⟩ := hc1.takes
  obtain ⟨a, hl, hk, hid⟩ := hc1.oldest
  have hai : a ≠ i := by
    intro hai
    rw [hai] at hl
    exact HdPeerRegistry.freeSlot_some ht.2 hl
  simp only [HdPeersOp.apply] at hdist
  rw [HdPeerRegistry.hdPeersInsert_takes ht] at hdist
  apply hai
  apply hdist a i
  · rw [HdPeerRegistry.enrol_ne _ hai]
    exact hl
  · rw [HdPeerRegistry.enrol_self]
    rfl
  · rw [HdPeerRegistry.enrol_ne _ hai, HdPeerRegistry.enrol_self, hid, hc1.next]
    rfl

/-! ### A young registry -/

/-- The counter has not wrapped around: it is beyond every id in use. -/
structure Ahead (n : ℕ) (reg : HdPeerRegistry) : Prop where
  below : ∀ i, (reg.peers i).Live → (reg.peers i).peerId < reg.nextPeerId
  next : reg.nextPeerId ≤ n

theorem Ahead.fresh (h : Ahead n reg) (op : HdPeersOp) :
    FreshId reg op := by
  cases op with
  | insert key fd => exact fun _ _ j hl => Nat.ne_of_lt (h.below j hl)
  | remove | revoke | setPolicy | clearPolicy => trivial

theorem Ahead.insert (h : Ahead n reg) (hn : n + 1 < 2 ^ 16) (key : Key) (fd : Fd) :
    Ahead (n + 1) (hdPeersInsert reg key fd) := by
  rcases HdPeerRegistry.hdPeersInsert_cases reg key fd with ⟨-, heq⟩ | ⟨i, -, heq⟩
  · rw [heq]
    exact ⟨h.below, h.next.trans (Nat.le_succ n)⟩
  · have hbound := h.next
    have hnext : (reg.enrol i key fd).nextPeerId = reg.nextPeerId + 1 := by
      unfold HdPeerRegistry.enrol
      dsimp only
      rw [Nat.mod_eq_of_lt (by omega), if_neg (by omega)]
    rw [heq]
    refine ⟨fun j hl => ?_, by omega⟩
    rw [hnext]
    by_cases hji : j = i
    · rw [hji, HdPeerRegistry.enrol_self]
      exact Nat.lt_succ_self _
    · rw [HdPeerRegistry.enrol_ne reg hji] at hl ⊢
      have hlt := h.below j hl
      omega

theorem Ahead.remove (h : Ahead n reg) (key : Key) :
    Ahead n (hdPeersRemove reg key) := by
  unfold hdPeersRemove
  split
  · exact h
  · refine ⟨fun j hl => ?_, h.next⟩
    obtain ⟨-, heq⟩ := HdPeerRegistry.bury_live hl
    rw [heq] at hl ⊢
    exact h.below j hl

/-- The first peer leaves, and a third one takes its slot. -/
def enrolled : List HdPeersOp :=
  [.insert (byteKey 1) 5, .insert (byteKey 2) 6, .remove (byteKey 1), .insert (byteKey 3) 7]

theorem ids_unambiguous_enrolled : ∃ reg, Runs.run step {} enrolled = some reg ∧
    Unambiguous reg ∧ hdPeersLookup reg (byteKey 1) = none ∧
      (hdPeersLookup reg (byteKey 2)).map (fun i => (i, (reg.peers i).peerId)) = some (1, 2) ∧
      (hdPeersLookup reg (byteKey 3)).map (fun i => (i, (reg.peers i).peerId)) = some (0, 3) := by
  have h0 : Ahead 1 {} := ⟨fun j hl => absurd hl (HdPeerRegistry.not_live_empty j), Nat.le_refl 1⟩
  have h1 := h0.insert (by decide) (byteKey 1) 5
  have h2 := h1.insert (by decide) (byteKey 2) 6
  have h3 := h2.remove (byteKey 1)
  have hfirst := reach_apply (.start _ init_empty) (.insert (byteKey 1) 5) (h0.fresh _)
  have hsecond := reach_apply hfirst (.insert (byteKey 2) 6) (h1.fresh _)
  have hleft := reach_apply hsecond (.remove (byteKey 1)) (h2.fresh _)
  have hlast := reach_apply hleft (.insert (byteKey 3) 7) (h3.fresh _)
  exact ⟨_, rfl, ids_unambiguous hlast, by decide +kernel⟩

end PeerIds

end HyperDerp
