import HyperDerp.ControlPlane.Registry
import HyperDerp.Enrolment.Honest
import HyperDerp.RelayTable

/-!
# The two ways to approve a peer (`server.cc:363-418`, `einheit_channel.cc:473-500`)

In auto-approve mode `HandleConnection` registers the enrolled peer in five
stores. In manual mode an admin approves it later, and `PeerApprove` touches
two of them. Both run here from one state. What is written to sockets and to
the peers' queues is left out.
-/

namespace HyperDerp

namespace Enrolment

/-- The arguments of a `DpAddPeer` with protocol `kHd`. -/
structure DpAdd where
  fd : Fd
  key : Key
  peerId : ℕ
  deriving DecidableEq

/-- The stores of the server that know its HD peers. -/
structure Registrations where
  hdPeers : HdPeerRegistry := {}
  /-- The peers handed to the data plane. -/
  adds : List DpAdd := []
  /-- The registry of the control plane. -/
  controlPlane : CpRegistry := {}
  relayTable : RelayTable := {}
  /-- `data_plane.relay_peer_map`. -/
  relayPeerMap : ℕ → ℕ := fun _ => 0

namespace Registrations

def inMode (s : Registrations) (mode : HdEnrollMode) : Registrations :=
  { s with hdPeers := { s.hdPeers with enrollMode := mode } }

/-- `HandleConnection` after an automatic approval (`server.cc:375-418`). -/
def registerApproved (s : Registrations) (fd : Fd) (result : HdEnrollResult) : Registrations :=
  let hp := (hdPeersLookup s.hdPeers result.clientKey).map s.hdPeers.peers
  let s := { s with
    adds := s.adds ++ [⟨fd, result.clientKey, (hp.map HdPeer.peerId).getD 0⟩]
    controlPlane := cpRegistryInsert s.controlPlane result.clientKey fd }
  if result.isRelay ∧ 0 < result.relayId then
    { s with
      relayTable := relayTableAdd s.relayTable result.relayId fd result.clientKey
      relayPeerMap :=
        match hp with
        | none => s.relayPeerMap
        | some p => Function.update s.relayPeerMap result.relayId p.peerId }
  else s

/-- The `/hd` path of `HandleConnection` from the handshake on. -/
def handleConnection (s : Registrations) (ext : EnrolExtern) (cfg : HdEnrollConfig)
    (sock : HdSocket) (peerIpv4 : BitVec 32) : Registrations :=
  let out := hdPerformHandshake ext cfg s.hdPeers sock peerIpv4
  let s := { s with hdPeers := out.reg }
  if out.error.isNone ∧ out.result.autoApproved then s.registerApproved sock.fd out.result else s

/-- `fd >= 0`: the entry is handed to the data plane. -/
def approvedAdd (key : Key) (p : HdPeer) : List DpAdd :=
  if 0 ≤ p.fd then [⟨p.fd, key, p.peerId⟩] else []

def peerApprove (s : Registrations) (key : Key) : Registrations :=
  match hdPeersApprove s.hdPeers key with
  | none => s
  | some reg =>
    match hdPeersLookup reg key with
    | none => { s with hdPeers := reg }
    | some i =>
      { s with
        hdPeers := reg
        adds := s.adds ++ approvedAdd key (reg.peers i) }

end Registrations

open Registrations

/-! ### When a registration changes nothing -/

/-- The control plane knows the key under the fd, or has no slot for it. -/
def CpSettled (r : CpRegistry) (key : Key) (fd : Fd) : Prop :=
  ∀ a, LinearProbe.claim cpView keyHash r.peers key = some a →
    (r.peers a).occupied = .live ∧ (r.peers a).key = key ∧ (r.peers a).fd = fd ∧
      (validFd fd = true → r.fdMap fd = some a)

theorem setFd_fdMap {r : CpRegistry} {fd : Fd} (h : validFd fd = true) (a : Option CpSlot) :
    (r.setFd fd a).fdMap = Function.update r.fdMap fd a := by
  rw [CpRegistry.setFd, if_pos h]

theorem cpRegistryInsert_settled {r : CpRegistry} {key : Key} {fd : Fd} :
    cpRegistryInsert r key fd = r ↔ CpSettled r key fd := by
  unfold CpSettled cpRegistryInsert
  cases hc : LinearProbe.claim cpView keyHash r.peers key with
  | none => simp
  | some a =>
    dsimp only
    by_cases hlive : (r.peers a).occupied = .live ∧ (r.peers a).key = key
    · rw [if_pos hlive]
      constructor
      · intro heq b hb
        cases hb
        have hpeers := congrFun (congrArg CpRegistry.peers heq) a
        have hfd : (r.peers a).fd = fd := by
          have := congrArg CpPeer.fd hpeers
          simpa [CpRegistry.setPeer] using this.symm
        refine ⟨hlive.1, hlive.2, hfd, fun hv => ?_⟩
        have hmap := congrFun (congrArg CpRegistry.fdMap heq) fd
        rw [setFd_fdMap hv, Function.update_self] at hmap
        exact hmap.symm
      · intro h
        obtain ⟨-, -, hfd, hmap⟩ := h a rfl
        have hpeer : ({ r.peers a with fd := fd } : CpPeer) = r.peers a := by rw [← hfd]
        rw [hpeer, hfd]
        by_cases hv : validFd fd = true
        · simp only [CpRegistry.setFd, if_pos hv, CpRegistry.setPeer, Function.update_eq_self,
            Function.update_idem, ← hmap hv]
        · simp only [CpRegistry.setFd, if_neg hv, CpRegistry.setPeer, Function.update_eq_self]
    · rw [if_neg hlive]
      constructor
      · intro heq
        have hcount := congrArg CpRegistry.peerCount heq
        simp at hcount
      · intro h
        obtain ⟨hl, hk, -⟩ := h a rfl
        exact absurd ⟨hl, hk⟩ hlive

/-- The relay table lists the relay as this neighbour, or has no slot for it. -/
structure RelaySettled (rt : RelayTable) (relayId : ℕ) (key : Key) (fd : Fd) : Prop where
  listed : ∀ i, rt.byId relayId = some i →
    rt.entries i = { rt.entries i with fd := fd, key := key, hops := 1, nextHop := relayId }
  full : rt.byId relayId = none → rt.find (fun e => !e.occupied) = none

theorem relayTableAdd_settled {rt : RelayTable} {relayId : ℕ} {key : Key} {fd : Fd}
    (h : 0 < relayId) :
    relayTableAdd rt relayId fd key = rt ↔ RelaySettled rt relayId key fd := by
  have hfields : RelaySettled rt relayId key fd ↔
      (∀ i, rt.byId relayId = some i → rt.entries i =
          { rt.entries i with fd := fd, key := key, hops := 1, nextHop := relayId }) ∧
        (rt.byId relayId = none → rt.find (fun e => !e.occupied) = none) :=
    ⟨fun h => ⟨h.listed, h.full⟩, fun h => ⟨h.1, h.2⟩⟩
  rw [hfields, relayTableAdd, if_neg (by omega)]
  cases hid : rt.byId relayId with
  | some i =>
    simp only [Option.some.injEq, forall_eq', reduceCtorEq, false_implies, and_true]
    constructor
    · intro heq
      have hentry := congrFun (congrArg RelayTable.entries heq) i
      simp only [RelayTable.set, Function.update_self] at hentry
      exact hentry.symm
    · intro heq
      rw [RelayTable.set, ← heq, Function.update_eq_self]
  | none =>
    simp only [reduceCtorEq, false_implies, implies_true, true_and, forall_const]
    cases hfree : rt.find fun e => !e.occupied with
    | none => simp
    | some i =>
      constructor
      · intro heq
        have hcount := congrArg RelayTable.relayCount heq
        simp at hcount
      · nofun

/-! ### The entry both ways lead to -/

/-- The approved entry of a key that enrols on `fd`; `none` when there is no room for it. -/
def approvedEntry (reg : HdPeerRegistry) (key : Key) (fd : Fd) : Option HdPeer :=
  match hdPeersLookup reg key with
  | some i => some { reg.peers i with state := .kApproved }
  | none => reg.freeSlot.map fun _ => ⟨key, fd, reg.nextPeerId, .kApproved, .live⟩

variable {reg : HdPeerRegistry} {key : Key} {fd : Fd}

theorem approvedEntry_none : approvedEntry reg key fd = none ↔ NoRoom reg key := by
  unfold approvedEntry NoRoom
  cases hdPeersLookup reg key <;> simp

theorem autoReg_entry (reg : HdPeerRegistry) (key : Key) (fd : Fd) :
    (hdPeersLookup (autoReg reg key fd) key).map (autoReg reg key fd).peers =
      approvedEntry reg key fd := by
  unfold approvedEntry
  rcases room_cases reg key with ⟨i, hl⟩ | ⟨i, ht⟩ | hfull
  · rw [autoReg_known hl, HdPeerRegistry.lookup_setState, hl]
    simp [HdPeerRegistry.setPeer]
  · rw [autoReg_new ht, HdPeerRegistry.lookup_setState, HdPeerRegistry.lookup_enrol_self ht fd, ht.1, ht.2]
    simp [HdPeerRegistry.setPeer]
  · rw [autoReg_full hfull, hfull.1, hfull.2]
    rfl

theorem approve_insert (reg : HdPeerRegistry) (key : Key) (fd : Fd) :
    hdPeersApprove (hdPeersInsert reg key fd) key =
      (approvedEntry reg key fd).map fun _ => autoReg reg key fd := by
  unfold approvedEntry
  rcases room_cases reg key with ⟨i, hl⟩ | ⟨i, ht⟩ | hfull
  · rw [HdPeerRegistry.hdPeersInsert_known hl, HdPeerRegistry.approve_some hl, autoReg_known hl, hl]
    rfl
  · rw [HdPeerRegistry.hdPeersInsert_takes ht, autoReg_new ht,
      HdPeerRegistry.approve_some (HdPeerRegistry.lookup_enrol_self ht fd), ht.1, ht.2]
    rfl
  · rw [insert_full hfull, hdPeersApprove, hfull.1, hfull.2]
    rfl

theorem approvedEntry_mode (reg : HdPeerRegistry) (mode : HdEnrollMode) (key : Key) (fd : Fd) :
    approvedEntry { reg with enrollMode := mode } key fd = approvedEntry reg key fd := by
  have hlookup : hdPeersLookup { reg with enrollMode := mode } key = hdPeersLookup reg key := rfl
  have hfree : HdPeerRegistry.freeSlot { reg with enrollMode := mode } = reg.freeSlot := rfl
  unfold approvedEntry
  rw [hlookup, hfree]

theorem autoReg_mode (reg : HdPeerRegistry) (mode : HdEnrollMode) (key : Key) (fd : Fd) :
    autoReg { reg with enrollMode := mode } key fd =
      { autoReg reg key fd with enrollMode := mode } := by
  rcases room_cases reg key with ⟨i, hl⟩ | ⟨i, ht⟩ | hfull
  · have hl' : hdPeersLookup { reg with enrollMode := mode } key = some i := hl
    rw [autoReg_known hl, autoReg_known hl']
    rfl
  · have ht' : HdPeerRegistry.Takes { reg with enrollMode := mode } key i := ht
    rw [autoReg_new ht, autoReg_new ht']
    simp [HdPeerRegistry.setPeer, HdPeerRegistry.enrol]
  · have hfull' : NoRoom { reg with enrollMode := mode } key := hfull
    rw [autoReg_full hfull, autoReg_full hfull']

/-! ### The state after either way -/

/-- The Enroll frame is accepted in either mode, and the Approved frame is taken. -/
structure ValidEnrolment (ext : EnrolExtern) (cfg : HdEnrollConfig) (reg : HdPeerRegistry)
    (sock : HdSocket) (peerIpv4 : BitVec 32) (p : EnrollPayload) : Prop where
  authentic : Authentic ext cfg reg sock p
  policy : hdPolicyRejects ext cfg.policy reg p.clientKey peerIpv4 = none
  taken : sock.takes (hdBuildApproved p.clientKey) = true

variable {s : Registrations} {ext : EnrolExtern} {cfg : HdEnrollConfig} {sock : HdSocket}
  {peerIpv4 : BitVec 32} {p : EnrollPayload}

def enrolledRelay (p : EnrollPayload) : Option ℕ := p.relayId.filter (0 < ·)

theorem auto_path (h : ValidEnrolment ext cfg s.hdPeers sock peerIpv4 p) :
    (s.inMode .kAutoApprove).handleConnection ext cfg sock peerIpv4 =
      { hdPeers := autoReg { s.hdPeers with enrollMode := .kAutoApprove } p.clientKey sock.fd
        adds := s.adds ++ [⟨sock.fd, p.clientKey,
          ((approvedEntry s.hdPeers p.clientKey sock.fd).map HdPeer.peerId).getD 0⟩]
        controlPlane := cpRegistryInsert s.controlPlane p.clientKey sock.fd
        relayTable := match enrolledRelay p with
          | none => s.relayTable
          | some id => relayTableAdd s.relayTable id sock.fd p.clientKey
        relayPeerMap := match enrolledRelay p, approvedEntry s.hdPeers p.clientKey sock.fd with
          | some id, some e => Function.update s.relayPeerMap id e.peerId
          | _, _ => s.relayPeerMap } := by
  have hauth : Authentic ext cfg (s.inMode .kAutoApprove).hdPeers sock p :=
    ⟨h.authentic.read, h.authentic.hmac, h.authentic.allowed⟩
  have hpolicy : hdPolicyRejects ext cfg.policy (s.inMode .kAutoApprove).hdPeers p.clientKey
      peerIpv4 = none := h.policy
  have hrun : hdPerformHandshake ext cfg (s.inMode .kAutoApprove).hdPeers sock peerIpv4 =
      { reg := autoReg (s.inMode .kAutoApprove).hdPeers p.clientKey sock.fd
        sent := [hdBuildApproved p.clientKey]
        result := { relayResult p with clientKey := p.clientKey, autoApproved := true } } := by
    have hmode : (s.inMode .kAutoApprove).hdPeers.enrollMode = .kAutoApprove := rfl
    rw [handshake_of_authentic hauth, admitPeer, if_pos hmode, hpolicy]
    exact enrolPeer_sent hmode h.taken
  have hentry := autoReg_entry (s.inMode .kAutoApprove).hdPeers p.clientKey sock.fd
  have hsame : approvedEntry (s.inMode .kAutoApprove).hdPeers p.clientKey sock.fd =
      approvedEntry s.hdPeers p.clientKey sock.fd := approvedEntry_mode ..
  unfold Registrations.handleConnection
  dsimp only
  rw [hrun, if_pos ⟨rfl, rfl⟩]
  unfold Registrations.registerApproved
  dsimp only
  rw [hentry, hsame]
  unfold enrolledRelay relayResult
  cases p.relayId with
  | none => rfl
  | some id =>
    by_cases hid : 0 < id
    · simp only [hid, decide_true, Option.filter_some, and_self, if_true]
      cases approvedEntry s.hdPeers p.clientKey sock.fd <;> rfl
    · simp only [hid, decide_false, Option.filter_some, and_false, if_false]
      rfl

theorem manual_path (h : ValidEnrolment ext cfg s.hdPeers sock peerIpv4 p) :
    ((s.inMode .kManual).handleConnection ext cfg sock peerIpv4).peerApprove p.clientKey =
      { s with
        hdPeers := autoReg { s.hdPeers with enrollMode := .kManual } p.clientKey sock.fd
        adds := s.adds ++ ((approvedEntry s.hdPeers p.clientKey sock.fd).map
          (approvedAdd p.clientKey)).getD [] } := by
  have hauth : Authentic ext cfg (s.inMode .kManual).hdPeers sock p :=
    ⟨h.authentic.read, h.authentic.hmac, h.authentic.allowed⟩
  have hrun : (s.inMode .kManual).handleConnection ext cfg sock peerIpv4 =
      { s with hdPeers := hdPeersInsert (s.inMode .kManual).hdPeers p.clientKey sock.fd } := by
    have hmode : (s.inMode .kManual).hdPeers.enrollMode ≠ .kAutoApprove := nofun
    unfold Registrations.handleConnection
    dsimp only
    rw [handshake_of_authentic hauth, admitPeer, if_neg hmode, enrolPeer, if_neg hmode]
    dsimp only
    rw [relayResult_auto, if_neg (by simp)]
    rfl
  have hentry := autoReg_entry (s.inMode .kManual).hdPeers p.clientKey sock.fd
  have hsame : approvedEntry (s.inMode .kManual).hdPeers p.clientKey sock.fd =
      approvedEntry s.hdPeers p.clientKey sock.fd := approvedEntry_mode ..
  rw [hrun]
  unfold Registrations.peerApprove
  dsimp only
  rw [approve_insert, hsame]
  rw [hsame] at hentry
  cases he : approvedEntry s.hdPeers p.clientKey sock.fd with
  | none =>
    have hfull : NoRoom (s.inMode .kManual).hdPeers p.clientKey :=
      approvedEntry_none.1 (hsame.trans he)
    rw [insert_full hfull]
    simp only [Option.map_none, Option.getD_none, List.append_nil]
    have hauto : autoReg { s.hdPeers with enrollMode := .kManual } p.clientKey sock.fd =
      (s.inMode .kManual).hdPeers := autoReg_full hfull sock.fd
    rw [hauto]
  | some e =>
    rw [he] at hentry
    obtain ⟨i, hl, hi⟩ := Option.map_eq_some_iff.1 hentry
    simp only [Option.map_some, Option.getD_some]
    rw [hl]
    dsimp only
    rw [hi]
    rfl

/-! ### When both lead to one state -/

def enrolledId (reg : HdPeerRegistry) (key : Key) : ℕ :=
  match hdPeersLookup reg key with
  | some i => (reg.peers i).peerId
  | none => reg.nextPeerId

/-- The key's entry records the fd it enrols on, or there is room for an entry. -/
structure RecordsFd (reg : HdPeerRegistry) (key : Key) (fd : Fd) : Prop where
  recorded : ∀ i, hdPeersLookup reg key = some i → (reg.peers i).fd = fd
  room : hdPeersLookup reg key = none → reg.freeSlot ≠ none

/-- What `PeerApprove` does not register is registered already. -/
structure SettledFor (s : Registrations) (p : EnrollPayload) (fd : Fd) : Prop where
  entry : RecordsFd s.hdPeers p.clientKey fd
  accepted : 0 ≤ fd
  control : CpSettled s.controlPlane p.clientKey fd
  relay : ∀ id, enrolledRelay p = some id →
    RelaySettled s.relayTable id p.clientKey fd ∧
      s.relayPeerMap id = enrolledId s.hdPeers p.clientKey

theorem recordsFd_iff (reg : HdPeerRegistry) (key : Key) (fd : Fd) :
    RecordsFd reg key fd ↔ ∃ e, approvedEntry reg key fd = some e ∧ e.fd = fd := by
  have hfields : RecordsFd reg key fd ↔
      (∀ i, hdPeersLookup reg key = some i → (reg.peers i).fd = fd) ∧
        (hdPeersLookup reg key = none → reg.freeSlot ≠ none) :=
    ⟨fun h => ⟨h.recorded, h.room⟩, fun h => ⟨h.1, h.2⟩⟩
  rw [hfields]
  unfold approvedEntry
  cases hdPeersLookup reg key with
  | some i => simp
  | none => cases reg.freeSlot <;> simp

theorem RecordsFd.entry (h : RecordsFd reg key fd) : ∃ e, approvedEntry reg key fd = some e := by
  obtain ⟨e, he, -⟩ := (recordsFd_iff reg key fd).1 h
  exact ⟨e, he⟩

theorem approvedEntry_id {e : HdPeer} (h : approvedEntry reg key fd = some e) :
    e.peerId = enrolledId reg key := by
  unfold approvedEntry at h
  unfold enrolledId
  cases hl : hdPeersLookup reg key with
  | some i =>
    rw [hl] at h
    cases h
    rfl
  | none =>
    rw [hl] at h
    obtain ⟨_, -, rfl⟩ := Option.map_eq_some_iff.1 h
    rfl

theorem enrolledRelay_pos {id : ℕ} (h : enrolledRelay p = some id) : 0 < id := by
  simpa using (Option.filter_eq_some_iff.1 h).2

theorem adds_agree_iff {adds : List DpAdd} :
    adds ++ [⟨fd, key, ((approvedEntry reg key fd).map HdPeer.peerId).getD 0⟩] =
        adds ++ ((approvedEntry reg key fd).map (approvedAdd key)).getD [] ↔
      RecordsFd reg key fd ∧ 0 ≤ fd := by
  rw [recordsFd_iff, List.append_cancel_left_eq]
  cases approvedEntry reg key fd with
  | none => simp
  | some e =>
    simp only [Option.map_some, Option.getD_some, approvedAdd, Option.some.injEq, exists_eq_left']
    split
    next hfd =>
      simp only [List.cons.injEq, DpAdd.mk.injEq, and_true]
      constructor
      · rintro rfl
        exact ⟨rfl, hfd⟩
      · exact fun h => h.1.symm
    next hfd =>
      simp only [List.cons_ne_nil, false_iff]
      rintro ⟨rfl, hopen⟩
      exact hfd hopen

/-- Both ways to approve a peer lead to the same registrations exactly when the control plane
and the relay stores hold theirs before. -/
theorem approvals_agree_iff (s : Registrations) (ext : EnrolExtern) (cfg : HdEnrollConfig)
    (sock : HdSocket) (peerIpv4 : BitVec 32) (p : EnrollPayload)
    (h : ValidEnrolment ext cfg s.hdPeers sock peerIpv4 p) :
    ((s.inMode .kAutoApprove).handleConnection ext cfg sock peerIpv4).inMode .kManual =
        ((s.inMode .kManual).handleConnection ext cfg sock peerIpv4).peerApprove p.clientKey ↔
      SettledFor s p sock.fd := by
  have hreg : autoReg { s.hdPeers with enrollMode := .kManual } p.clientKey sock.fd =
      { autoReg { s.hdPeers with enrollMode := .kAutoApprove } p.clientKey sock.fd with
        enrollMode := .kManual } :=
    autoReg_mode { s.hdPeers with enrollMode := .kAutoApprove } ..
  rw [auto_path h, manual_path h, hreg]
  unfold Registrations.inMode
  simp only [Registrations.mk.injEq, true_and, adds_agree_iff, cpRegistryInsert_settled]
  constructor
  · rintro ⟨⟨hentry, hfd⟩, hcontrol, htable, hmap⟩
    refine ⟨hentry, hfd, hcontrol, fun id hid => ?_⟩
    obtain ⟨e, he⟩ := RecordsFd.entry hentry
    rw [hid] at htable hmap
    rw [he] at hmap
    dsimp only at htable hmap
    refine ⟨(relayTableAdd_settled (enrolledRelay_pos hid)).1 htable, ?_⟩
    have hat := congrFun hmap id
    rw [Function.update_self] at hat
    rw [← hat, approvedEntry_id he]
  · intro hs
    refine ⟨⟨hs.entry, hs.accepted⟩, hs.control, ?_⟩
    obtain ⟨e, he⟩ := RecordsFd.entry hs.entry
    cases hid : enrolledRelay p with
    | none => exact ⟨rfl, rfl⟩
    | some id =>
      obtain ⟨htable, hmap⟩ := hs.relay id hid
      rw [he]
      dsimp only
      rw [approvedEntry_id he, ← hmap, Function.update_eq_self]
      exact ⟨(relayTableAdd_settled (enrolledRelay_pos hid)).2 htable, rfl⟩

/-- `hangsUp` with a peer that stays. -/
def stays : HdSocket := { hangsUp with takes := fun _ => true }

theorem stays_valid : ValidEnrolment enrolExtern { relayKey := byteKey 9 } {} stays 0
    enrolPayload where
  authentic := ⟨hangsUp_authentic.read, hangsUp_authentic.hmac, hangsUp_authentic.allowed⟩
  policy := by simp [hdPolicyRejects, HdEnrollPolicy.capped, keyAllowed, ipRefused]
  taken := rfl

/-- The control plane already knows the client of `stays`. -/
def knownToControlPlane : Registrations :=
  { controlPlane := cpRegistryInsert {} enrolPayload.clientKey stays.fd }

theorem approvals_agree_known :
    ((knownToControlPlane.inMode .kAutoApprove).handleConnection enrolExtern
          { relayKey := byteKey 9 } stays 0).inMode .kManual =
      ((knownToControlPlane.inMode .kManual).handleConnection enrolExtern
          { relayKey := byteKey 9 } stays 0).peerApprove enrolPayload.clientKey := by
  have htakes := HdPeerRegistry.takes_empty .kManual enrolPayload.clientKey
  have hclaim : (LinearProbe.claim cpView keyHash knownToControlPlane.controlPlane.peers
      enrolPayload.clientKey).all (fun a => decide (
        (knownToControlPlane.controlPlane.peers a).occupied = .live ∧
        (knownToControlPlane.controlPlane.peers a).key = enrolPayload.clientKey ∧
        (knownToControlPlane.controlPlane.peers a).fd = stays.fd ∧
        (validFd stays.fd = true →
          knownToControlPlane.controlPlane.fdMap stays.fd = some a))) = true := by decide
  have hcontrol : CpSettled knownToControlPlane.controlPlane enrolPayload.clientKey stays.fd := by
    intro a ha
    rw [ha, Option.all_some] at hclaim
    exact of_decide_eq_true hclaim
  refine (approvals_agree_iff knownToControlPlane enrolExtern { relayKey := byteKey 9 } stays 0
    enrolPayload stays_valid).2 ⟨⟨?_, ?_⟩, by decide, hcontrol, ?_⟩
  · intro i hi
    have hnone : hdPeersLookup knownToControlPlane.hdPeers enrolPayload.clientKey = none :=
      htakes.1
    rw [hnone] at hi
    cases hi
  · intro _ hfull
    have hfree : knownToControlPlane.hdPeers.freeSlot = some 0 := htakes.2
    rw [hfree] at hfull
    cases hfull
  · intro id hid
    have hclient : enrolledRelay enrolPayload = none := by decide
    rw [hclient] at hid
    cases hid

/-- A client approved by an admin is unknown to the control plane. -/
theorem manual_approval_unregistered :
    ¬∀ (s : Registrations) (ext : EnrolExtern) (cfg : HdEnrollConfig) (sock : HdSocket)
      (peerIpv4 : BitVec 32) (p : EnrollPayload),
      ValidEnrolment ext cfg s.hdPeers sock peerIpv4 p →
      ((s.inMode .kAutoApprove).handleConnection ext cfg sock peerIpv4).inMode .kManual =
        ((s.inMode .kManual).handleConnection ext cfg sock peerIpv4).peerApprove p.clientKey := by
  intro hall
  have hsame := hall {} enrolExtern { relayKey := byteKey 9 } stays 0 enrolPayload stays_valid
  have hvalid : ValidEnrolment enrolExtern { relayKey := byteKey 9 } ({} : Registrations).hdPeers
      stays 0 enrolPayload := stays_valid
  rw [auto_path hvalid, manual_path hvalid] at hsame
  have hcount := congrArg (fun s => s.controlPlane.peerCount) hsame
  have hauto : (cpRegistryInsert {} enrolPayload.clientKey stays.fd).peerCount = 1 := by
    decide
  dsimp only [Registrations.inMode] at hcount
  rw [hauto] at hcount
  cases hcount

end Enrolment

end HyperDerp
