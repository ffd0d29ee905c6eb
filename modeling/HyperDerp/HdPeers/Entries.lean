import HyperDerp.HdPeers.Registry

/-!
# The entry of a key under each registry operation (`hd_peers.cc:186-320`)

An operation on one key leaves the entries of the other keys where they are.
Callers read the entry's fd under the registry's lock; `fd >= 0` says that it
has one.
-/

namespace HyperDerp

def entryFd (reg : HdPeerRegistry) (key : Key) : Option Fd :=
  ((hdPeersLookup reg key).map fun i => (reg.peers i).fd).filter (0 ≤ ·)

namespace HdPeerRegistry

variable {reg reg' : HdPeerRegistry} {key k : Key} {i : HdSlot}

theorem entryFd_congr (hl : hdPeersLookup reg' key = hdPeersLookup reg key)
    (hfd : ∀ i, hdPeersLookup reg key = some i → (reg'.peers i).fd = (reg.peers i).fd) :
    entryFd reg' key = entryFd reg key := by
  unfold entryFd
  rw [hl]
  cases h : hdPeersLookup reg key with
  | none => rfl
  | some i => rw [Option.map_some, Option.map_some, hfd i h]

theorem entryFd_none (h : hdPeersLookup reg key = none) : entryFd reg key = none := by
  rw [entryFd, h, Option.map_none, Option.filter_none]

/-! ### Approving and denying -/

def SetsState (reg reg' : HdPeerRegistry) : Prop :=
  reg' = reg ∨ ∃ i state, reg' = reg.setPeer i { reg.peers i with state := state }

theorem approve_some (h : hdPeersLookup reg key = some i) :
    hdPeersApprove reg key = some (reg.setPeer i { reg.peers i with state := .kApproved }) := by
  rw [hdPeersApprove, h, Option.map_some]

theorem sets_approve (reg : HdPeerRegistry) (key : Key) :
    SetsState reg ((hdPeersApprove reg key).getD reg) := by
  unfold hdPeersApprove
  cases hdPeersLookup reg key with
  | none => exact .inl rfl
  | some i => exact .inr ⟨i, .kApproved, rfl⟩

theorem sets_deny (reg : HdPeerRegistry) (key : Key) :
    SetsState reg ((hdPeersDeny reg key).getD reg) := by
  unfold hdPeersDeny
  cases hdPeersLookup reg key with
  | none => exact .inl rfl
  | some i => exact .inr ⟨i, .kDenied, rfl⟩

theorem lookup_setState (reg : HdPeerRegistry) (i : HdSlot) (state : HdPeerState) (k : Key) :
    hdPeersLookup (reg.setPeer i { reg.peers i with state := state }) k = hdPeersLookup reg k := by
  rw [lookup_eq, lookup_eq]
  exact FrontScan.first_update _ rfl

theorem SetsState.lookup (h : SetsState reg reg') (k : Key) :
    hdPeersLookup reg' k = hdPeersLookup reg k := by
  obtain rfl | ⟨i, state, rfl⟩ := h
  · rfl
  · exact lookup_setState reg i state k

theorem SetsState.denylist (h : SetsState reg reg') : reg'.denylist = reg.denylist := by
  obtain rfl | ⟨i, state, rfl⟩ := h <;> rfl

theorem SetsState.peers (h : SetsState reg reg') (j : HdSlot) :
    ((reg'.peers j).Live ↔ (reg.peers j).Live) ∧ (reg'.peers j).key = (reg.peers j).key ∧
      (reg'.peers j).fd = (reg.peers j).fd := by
  obtain rfl | ⟨i, state, rfl⟩ := h
  · exact ⟨Iff.rfl, rfl, rfl⟩
  · by_cases hj : j = i
    · subst hj
      simp [setPeer, HdPeer.Live]
    · simp [setPeer, Function.update_of_ne hj]

theorem SetsState.entryFd (h : SetsState reg reg') (k : Key) :
    HyperDerp.entryFd reg' k = HyperDerp.entryFd reg k :=
  entryFd_congr (h.lookup k) fun i _ => (h.peers i).2.2

theorem SetsState.distinct (h : SetsState reg reg') (hd : reg.KeysDistinct) :
    reg'.KeysDistinct := by
  apply hd.of_sub
  intro j hl
  obtain ⟨hlive, hkey, -⟩ := h.peers j
  exact ⟨hlive.1 hl, hkey⟩

/-! ### Inserting -/

theorem insert_denylist (reg : HdPeerRegistry) (key : Key) (fd : Fd) :
    (hdPeersInsert reg key fd).denylist = reg.denylist := by
  rcases hdPeersInsert_cases reg key fd with ⟨-, heq⟩ | ⟨i, -, heq⟩
  · rw [heq]
  · rw [heq]
    rfl

theorem lookup_insert_ne (hk : k ≠ key) (fd : Fd) :
    hdPeersLookup (hdPeersInsert reg key fd) k = hdPeersLookup reg k := by
  rcases hdPeersInsert_cases reg key fd with ⟨-, heq⟩ | ⟨i, ht, heq⟩
  · rw [heq]
  · rw [heq, lookup_enrol_ne ht hk]

theorem entryFd_insert_ne (hk : k ≠ key) (fd : Fd) :
    entryFd (hdPeersInsert reg key fd) k = entryFd reg k := by
  apply entryFd_congr (lookup_insert_ne hk fd)
  intro j hj
  rcases hdPeersInsert_cases reg key fd with ⟨-, heq⟩ | ⟨i, ht, heq⟩
  · rw [heq]
  · have hne : j ≠ i := by
      rintro rfl
      exact freeSlot_some ht.2 (lookup_some hj).1
    rw [heq, enrol_ne reg hne]

theorem entryFd_insert_self {fd f : Fd} (h : entryFd (hdPeersInsert reg key fd) key = some f) :
    hdPeersLookup reg key ≠ none ∧ entryFd reg key = some f ∨
      hdPeersLookup reg key = none ∧ f = fd := by
  rcases hdPeersInsert_cases reg key fd with ⟨-, heq⟩ | ⟨i, ht, heq⟩
  · rw [heq] at h
    left
    refine ⟨fun hnone => ?_, h⟩
    rw [entryFd_none hnone] at h
    cases h
  · right
    rw [heq, entryFd, lookup_enrol_self ht, Option.map_some, enrol_self,
      Option.filter_eq_some_iff] at h
    exact ⟨ht.1, (Option.some.inj h.1).symm⟩

theorem entryFd_insert_takes (ht : reg.Takes key i) {fd : Fd} (hfd : 0 ≤ fd) :
    entryFd (hdPeersInsert reg key fd) key = some fd := by
  rw [hdPeersInsert_takes ht, entryFd, lookup_enrol_self ht, Option.map_some, enrol_self,
    Option.filter_eq_some_iff]
  exact ⟨rfl, decide_eq_true hfd⟩

/-! ### Removing and revoking -/

theorem remove_denylist (reg : HdPeerRegistry) (key : Key) :
    (hdPeersRemove reg key).denylist = reg.denylist := by
  unfold hdPeersRemove
  split <;> rfl

theorem lookup_remove_self (h : reg.KeysDistinct) (key : Key) :
    hdPeersLookup (hdPeersRemove reg key) key = none := by
  cases hl : hdPeersLookup reg key with
  | none => rw [hdPeersRemove_none hl, hl]
  | some i => rw [hdPeersRemove_some hl, h.lookup_bury_self hl]

theorem lookup_remove_ne (hk : k ≠ key) :
    hdPeersLookup (hdPeersRemove reg key) k = hdPeersLookup reg k := by
  cases hl : hdPeersLookup reg key with
  | none => rw [hdPeersRemove_none hl]
  | some i => rw [hdPeersRemove_some hl, lookup_bury_ne hl hk]

theorem lookup_remove_none (h : reg.KeysDistinct) (hk : hdPeersLookup reg k = none) (key : Key) :
    hdPeersLookup (hdPeersRemove reg key) k = none := by
  by_cases heq : k = key
  · rw [heq, lookup_remove_self h]
  · rw [lookup_remove_ne heq, hk]

theorem entryFd_remove_ne (hk : k ≠ key) : entryFd (hdPeersRemove reg key) k = entryFd reg k := by
  apply entryFd_congr (lookup_remove_ne hk)
  intro j hj
  cases hl : hdPeersLookup reg key with
  | none => rw [hdPeersRemove_none hl]
  | some i =>
    have hne : j ≠ i := by
      rintro rfl
      exact hk ((lookup_some hj).2.symm.trans (lookup_some hl).2)
    rw [hdPeersRemove_some hl]
    simp [bury, setPeer, Function.update_of_ne hne]

theorem lookup_revoke (reg : HdPeerRegistry) (key k : Key) :
    hdPeersLookup (hdPeersRevoke reg key) k = hdPeersLookup (hdPeersRemove reg key) k := by
  obtain ⟨d, hd⟩ := hdPeersRevoke_peers reg key
  rw [hd]
  cases hl : hdPeersLookup reg key with
  | none =>
    have hl' : hdPeersLookup { reg with denylist := d } key = none := hl
    rw [hdPeersRemove_none hl, hdPeersRemove_none hl']
    rfl
  | some i =>
    have hl' : hdPeersLookup { reg with denylist := d } key = some i := hl
    rw [hdPeersRemove_some hl, hdPeersRemove_some hl']
    rfl

theorem entryFd_revoke_self (h : reg.KeysDistinct) (key : Key) :
    entryFd (hdPeersRevoke reg key) key = none :=
  entryFd_none (by rw [lookup_revoke, lookup_remove_self h])

theorem entryFd_revoke_ne (hk : k ≠ key) :
    entryFd (hdPeersRevoke reg key) k = entryFd reg k := by
  obtain ⟨d, hd⟩ := hdPeersRevoke_peers reg key
  rw [hd, entryFd_remove_ne hk]
  exact entryFd_congr rfl fun _ _ => rfl

theorem KeysDistinct.revoke (h : reg.KeysDistinct) (key : Key) :
    (hdPeersRevoke reg key).KeysDistinct := by
  obtain ⟨d, hd⟩ := hdPeersRevoke_peers reg key
  rw [hd]
  have hlift : KeysDistinct { reg with denylist := d } := h
  exact hlift.remove key

theorem denied_iff : hdPeersIsDenied reg key = true ↔ key ∈ reg.denylist :=
  decide_eq_true_iff

theorem denied_revoke :
    hdPeersIsDenied (hdPeersRevoke reg key) k = true ↔ k = key ∨ hdPeersIsDenied reg k = true := by
  simp only [denied_iff]
  unfold hdPeersRevoke
  rw [remove_denylist]
  split
  next h =>
    rw [denied_iff] at h
    refine ⟨.inr, ?_⟩
    rintro (rfl | hk)
    · exact h
    · exact hk
  next =>
    rw [List.mem_append, List.mem_singleton]
    exact or_comm

end HdPeerRegistry

end HyperDerp
