import HyperDerp.Enrolment.Handshake
import HyperDerp.HdPeers.Entries

/-!
# What an enrolment does to the registry (`hd_handshake.cc:143-166`)

A refused candidate should leave the registry alone and an approved one should
be in it. In auto-approve mode the entry is written before the Approved frame
is, the results of `HdPeersInsert` and `HdPeersApprove` are not read, and the
cap on peers is tested without asking whether the candidate is one of them.
-/

namespace HyperDerp

namespace Enrolment

open Text (utf8)

variable {reg : HdPeerRegistry} {key k : Key} {i : HdSlot}

def entryState (reg : HdPeerRegistry) (key : Key) : Option HdPeerState :=
  (hdPeersLookup reg key).map fun i => (reg.peers i).state

theorem entryState_none : entryState reg key = none ↔ hdPeersLookup reg key = none := by
  simp [entryState]

theorem entryState_some {state : HdPeerState} (h : entryState reg key = some state) :
    ∃ i, hdPeersLookup reg key = some i ∧ (reg.peers i).state = state :=
  Option.map_eq_some_iff.1 h

def NoRoom (reg : HdPeerRegistry) (key : Key) : Prop :=
  hdPeersLookup reg key = none ∧ reg.freeSlot = none

/-! ### The registry after an automatic approval -/

/-- `HdPeersInsert`, then `HdPeersApprove`. -/
def autoReg (reg : HdPeerRegistry) (key : Key) (fd : Fd) : HdPeerRegistry :=
  (hdPeersApprove (hdPeersInsert reg key fd) key).getD (hdPeersInsert reg key fd)

theorem entryState_approve_self (h : hdPeersLookup reg key = some i) :
    entryState (reg.setPeer i { reg.peers i with state := .kApproved }) key = some .kApproved := by
  rw [entryState, HdPeerRegistry.lookup_setState, h]
  simp [HdPeerRegistry.setPeer]

theorem entryState_approve_ne (h : hdPeersLookup reg key = some i) (hk : k ≠ key) :
    entryState (reg.setPeer i { reg.peers i with state := .kApproved }) k = entryState reg k := by
  rw [entryState, entryState, HdPeerRegistry.lookup_setState]
  cases hl : hdPeersLookup reg k with
  | none => rfl
  | some j =>
    have hj : j ≠ i := by
      rintro rfl
      exact hk ((HdPeerRegistry.lookup_some hl).2.symm.trans (HdPeerRegistry.lookup_some h).2)
    simp [HdPeerRegistry.setPeer, Function.update_of_ne hj]

theorem autoReg_known (h : hdPeersLookup reg key = some i) (fd : Fd) :
    autoReg reg key fd = reg.setPeer i { reg.peers i with state := .kApproved } := by
  rw [autoReg, HdPeerRegistry.hdPeersInsert_known h, HdPeerRegistry.approve_some h, Option.getD_some]

theorem autoReg_new (h : reg.Takes key i) (fd : Fd) :
    autoReg reg key fd = (reg.enrol i key fd).setPeer i
      { (reg.enrol i key fd).peers i with state := .kApproved } := by
  rw [autoReg, HdPeerRegistry.hdPeersInsert_takes h,
    HdPeerRegistry.approve_some (HdPeerRegistry.lookup_enrol_self h fd), Option.getD_some]

theorem insert_full (h : NoRoom reg key) (fd : Fd) : hdPeersInsert reg key fd = reg := by
  rw [HdPeerRegistry.hdPeersInsert_new h.1, h.2]

theorem autoReg_full (h : NoRoom reg key) (fd : Fd) : autoReg reg key fd = reg := by
  rw [autoReg, insert_full h, hdPeersApprove, h.1, Option.map_none, Option.getD_none]

theorem room_cases (reg : HdPeerRegistry) (key : Key) :
    (∃ i, hdPeersLookup reg key = some i) ∨ (∃ i, reg.Takes key i) ∨ NoRoom reg key := by
  cases hl : hdPeersLookup reg key with
  | some i => exact .inl ⟨i, rfl⟩
  | none =>
    cases hf : reg.freeSlot with
    | some i => exact .inr (.inl ⟨i, hl, hf⟩)
    | none => exact .inr (.inr ⟨hl, hf⟩)

theorem entryState_enrol_ne (h : reg.Takes key i) (hk : k ≠ key) (fd : Fd) :
    entryState (reg.enrol i key fd) k = entryState reg k := by
  rw [entryState, entryState, HdPeerRegistry.lookup_enrol_ne h hk]
  cases hl : hdPeersLookup reg k with
  | none => rfl
  | some j =>
    have hj : j ≠ i := by
      rintro rfl
      exact HdPeerRegistry.freeSlot_some h.2 (HdPeerRegistry.lookup_some hl).1
    simp [HdPeerRegistry.enrol_ne reg hj]

theorem entryState_insert_ne (hk : k ≠ key) (fd : Fd) :
    entryState (hdPeersInsert reg key fd) k = entryState reg k := by
  rcases HdPeerRegistry.hdPeersInsert_cases reg key fd with ⟨-, heq⟩ | ⟨i, ht, heq⟩
  · rw [heq]
  · rw [heq, entryState_enrol_ne ht hk]

theorem entryState_autoReg_ne (hk : k ≠ key) (fd : Fd) :
    entryState (autoReg reg key fd) k = entryState reg k := by
  rcases room_cases reg key with ⟨i, hl⟩ | ⟨i, ht⟩ | hfull
  · rw [autoReg_known hl, entryState_approve_ne hl hk]
  · rw [autoReg_new ht, entryState_approve_ne (HdPeerRegistry.lookup_enrol_self ht fd) hk,
      entryState_enrol_ne ht hk]
  · rw [autoReg_full hfull]

theorem entryState_autoReg (fd : Fd) :
    entryState (autoReg reg key fd) key = some .kApproved ↔ ¬NoRoom reg key := by
  rcases room_cases reg key with ⟨i, hl⟩ | ⟨i, ht⟩ | hfull
  · rw [autoReg_known hl, entryState_approve_self hl]
    simp [NoRoom, hl]
  · rw [autoReg_new ht, entryState_approve_self (HdPeerRegistry.lookup_enrol_self ht fd)]
    simp [NoRoom, ht.2]
  · rw [autoReg_full hfull, entryState_none.2 hfull.1]
    simp [hfull]

theorem autoReg_eq (fd : Fd) :
    autoReg reg key fd = reg ↔ entryState reg key = some .kApproved ∨ NoRoom reg key := by
  rcases room_cases reg key with ⟨i, hl⟩ | ⟨i, ht⟩ | hfull
  · have hstate : entryState reg key = some (reg.peers i).state := by
      rw [entryState, hl, Option.map_some]
    rw [autoReg_known hl, hstate]
    constructor
    · intro heq
      have hself := entryState_approve_self hl
      rw [heq, hstate] at hself
      exact .inl hself
    · rintro (happroved | hfull)
      · rw [Option.some.injEq] at happroved
        rw [HdPeerRegistry.setPeer, ← happroved, Function.update_eq_self]
      · rw [hfull.1] at hl
        cases hl
  · rw [autoReg_new ht]
    constructor
    · intro heq
      have hcount := congrArg HdPeerRegistry.peerCount heq
      simp [HdPeerRegistry.setPeer, HdPeerRegistry.enrol] at hcount
    · rintro (happroved | hfull)
      · rw [entryState_none.2 ht.1] at happroved
        cases happroved
      · have hfree := ht.2
        rw [hfull.2] at hfree
        cases hfree
  · rw [autoReg_full hfull]
    simp [hfull]

/-! ### Which handshakes are honest -/

/-- What an enrolment owes the registry `reg` it started from. -/
structure Honest (reg : HdPeerRegistry) (input : Bytes) (out : HandshakeOutcome) : Prop where
  atomic : out.error ≠ none → out.reg = reg
  approved : out.result.autoApproved = true →
    entryState out.reg out.result.clientKey = some .kApproved
  denied : ∀ key, entryState reg key = some .kDenied → entryState out.reg key ≠ some .kApproved
  admitted : ∀ p, readEnroll input = .ok p → entryState reg p.clientKey = some .kApproved →
    out.error.map HdHandshakeFailure.message ≠ some maxPeersExceeded

/-- A well-formed Enroll frame with a valid HMAC from a key that is not on the denylist. -/
structure Authentic (ext : EnrolExtern) (cfg : HdEnrollConfig) (reg : HdPeerRegistry)
    (sock : HdSocket) (p : EnrollPayload) : Prop where
  read : readEnroll sock.input = .ok p
  hmac : hdVerifyEnrollment ext cfg p.clientKey p.hmac = true
  allowed : hdPeersIsDenied reg p.clientKey = false

/-- The Approved frame goes out exactly when there is an entry to approve, and an entry in
another state than approved is pending. -/
def ApprovesHonestly (reg : HdPeerRegistry) (sock : HdSocket) (key : Key) : Prop :=
  match entryState reg key with
  | some .kApproved => True
  | some .kPending => sock.takes (hdBuildApproved key) = true
  | some .kDenied => False
  | none => sock.takes (hdBuildApproved key) = true ↔ reg.freeSlot ≠ none

/-- In auto-approve mode: a key at the cap is not an approved peer, and a key that passes the
policy is approved honestly. -/
def EnrolsHonestly (ext : EnrolExtern) (cfg : HdEnrollConfig) (reg : HdPeerRegistry)
    (sock : HdSocket) (peerIpv4 : BitVec 32) : Prop :=
  ∀ p, Authentic ext cfg reg sock p → reg.enrollMode = .kAutoApprove →
    (cfg.policy.capped reg → entryState reg p.clientKey ≠ some .kApproved) ∧
    (hdPolicyRejects ext cfg.policy reg p.clientKey peerIpv4 = none →
      ApprovesHonestly reg sock p.clientKey)

variable {ext : EnrolExtern} {cfg : HdEnrollConfig} {sock : HdSocket} {peerIpv4 : BitVec 32}
  {p : EnrollPayload}

variable {input reason : Bytes} {pol : HdEnrollPolicy}

theorem Honest.refused {out : HandshakeOutcome} (hreg : out.reg = reg)
    (hauto : out.result.autoApproved = false)
    (hmsg : out.error.map HdHandshakeFailure.message ≠ some maxPeersExceeded) :
    Honest reg input out where
  atomic _ := hreg
  approved h := by
    rw [hauto] at h
    cases h
  denied key h := by
    rw [hreg, h]
    exact nofun
  admitted _ _ _ := hmsg

theorem honest_approval {reg' : HdPeerRegistry} {sent : List Bytes} {result : HdEnrollResult}
    (hauto : result.autoApproved = true) :
    Honest reg input { reg := reg', sent := sent, result := result } ↔
      entryState reg' result.clientKey = some .kApproved ∧
      ∀ k, entryState reg k = some .kDenied → entryState reg' k ≠ some .kApproved :=
  ⟨fun h => ⟨h.approved hauto, h.denied⟩,
    fun h => ⟨fun he => absurd rfl he, fun _ => h.1, h.2, fun _ _ _ => nofun⟩⟩

theorem honest_failure {reg' : HdPeerRegistry} {sent : List Bytes} {result : HdEnrollResult}
    {e : HdHandshakeFailure} (hauto : result.autoApproved = false)
    (hmsg : e.message ≠ maxPeersExceeded) :
    Honest reg input { reg := reg', sent := sent, result := result, error := some e } ↔
      reg' = reg :=
  ⟨fun h => h.atomic nofun, fun h => .refused h hauto fun heq => hmsg (Option.some.inj heq)⟩

theorem readEnroll_message {e : HdHandshakeFailure} (h : readEnroll input = .error e) :
    e.message ≠ maxPeersExceeded := by
  unfold readEnroll at h
  repeat' split at h
  all_goals cases h <;> decide

theorem relayResult_auto (p : EnrollPayload) : (relayResult p).autoApproved = false := by
  unfold relayResult
  cases p.relayId <;> rfl

theorem honest_of_not_authentic (h : ∀ p, ¬Authentic ext cfg reg sock p) :
    Honest reg sock.input (hdPerformHandshake ext cfg reg sock peerIpv4) := by
  unfold hdPerformHandshake
  cases hread : readEnroll sock.input with
  | error e => exact (honest_failure rfl (readEnroll_message hread)).2 rfl
  | ok p =>
    dsimp only
    cases hmac : hdVerifyEnrollment ext cfg p.clientKey p.hmac with
    | false =>
      have hmsg : utf8 "enrollment HMAC verification failed" ≠ maxPeersExceeded := by decide
      exact (honest_failure rfl hmsg).2 rfl
    | true =>
      cases hdenied : hdPeersIsDenied reg p.clientKey with
      | true =>
        have hmsg : utf8 "client key revoked" ≠ maxPeersExceeded := by decide
        exact (honest_failure rfl hmsg).2 rfl
      | false => exact absurd ⟨hread, hmac, hdenied⟩ (h p)

theorem handshake_of_authentic (h : Authentic ext cfg reg sock p) :
    hdPerformHandshake ext cfg reg sock peerIpv4 = admitPeer ext cfg reg sock peerIpv4 p := by
  unfold hdPerformHandshake
  simp only [h.read, h.hmac, h.allowed, Bool.not_true, Bool.false_eq_true, if_false]

theorem honest_manual (hmode : reg.enrollMode ≠ .kAutoApprove) :
    Honest reg sock.input (enrolPeer reg sock p) := by
  unfold enrolPeer
  dsimp only
  rw [if_neg hmode]
  constructor
  · exact fun h => absurd rfl h
  · intro h
    rw [relayResult_auto] at h
    cases h
  · intro key hdenied
    by_cases hk : key = p.clientKey
    · obtain ⟨i, hl, -⟩ := entryState_some hdenied
      rw [hk] at hl hdenied
      rw [hk, HdPeerRegistry.hdPeersInsert_known hl, hdenied]
      exact nofun
    · rw [entryState_insert_ne hk, hdenied]
      exact nofun
  · exact fun _ _ _ => nofun

theorem ipRefused_message {ext : EnrolExtern} (h : ipRefused ext pol peerIpv4 = some reason) :
    reason ≠ maxPeersExceeded := by
  unfold ipRefused at h
  repeat' split at h
  all_goals cases h <;> decide

theorem rejects_maxPeers (h : hdPolicyRejects ext pol reg key peerIpv4 = some reason) :
    reason = maxPeersExceeded ↔ pol.capped reg := by
  unfold hdPolicyRejects at h
  split at h
  next hcap =>
    cases h
    exact ⟨fun _ => hcap, fun _ => rfl⟩
  next hcap =>
    refine ⟨fun heq => ?_, fun hc => absurd hc hcap⟩
    split at h
    next =>
      cases h
      exact absurd heq (by decide)
    next => exact absurd heq (ipRefused_message h)

theorem rejects_of_capped (h : pol.capped reg) :
    hdPolicyRejects ext pol reg key peerIpv4 = some maxPeersExceeded :=
  if_pos h

theorem honest_rejected (hread : readEnroll sock.input = .ok p)
    (h : hdPolicyRejects ext cfg.policy reg p.clientKey peerIpv4 = some reason) :
    Honest reg sock.input
        { reg := reg, sent := [hdBuildDenied 0x02 reason], result := relayResult p
          error := some ⟨.EnrollmentDenied, reason⟩ } ↔
      (cfg.policy.capped reg → entryState reg p.clientKey ≠ some .kApproved) := by
  constructor
  · intro hhonest hcap happroved
    apply hhonest.admitted p hread happroved
    rw [(rejects_maxPeers h).2 hcap]
    rfl
  · intro hok
    refine ⟨fun _ => rfl, ?_, ?_, ?_⟩
    · intro hauto
      rw [relayResult_auto] at hauto
      cases hauto
    · intro key hdenied
      rw [hdenied]
      exact nofun
    · intro q hq happroved hmsg
      rw [hread] at hq
      cases hq
      simp only [Option.map_some, Option.some.injEq] at hmsg
      exact hok ((rejects_maxPeers h).1 hmsg) happroved

theorem enrolPeer_sent (hmode : reg.enrollMode = .kAutoApprove)
    (hsent : sock.takes (hdBuildApproved p.clientKey) = true) :
    enrolPeer reg sock p =
      { reg := autoReg reg p.clientKey sock.fd, sent := [hdBuildApproved p.clientKey]
        result := { relayResult p with clientKey := p.clientKey, autoApproved := true } } := by
  unfold enrolPeer
  dsimp only
  rw [if_pos hmode, if_pos hsent]
  rfl

theorem enrolPeer_unsent (hmode : reg.enrollMode = .kAutoApprove)
    (hsent : sock.takes (hdBuildApproved p.clientKey) = false) :
    enrolPeer reg sock p =
      { reg := autoReg reg p.clientKey sock.fd, sent := [hdBuildApproved p.clientKey]
        result := relayResult p
        error := some ⟨.IoFailed, utf8 "write Approved frame failed"⟩ } := by
  unfold enrolPeer
  dsimp only
  rw [if_pos hmode, hsent, if_neg Bool.false_ne_true]
  rfl

theorem denied_stays_ne {fd : Fd} (hdenied : entryState reg k = some .kDenied) (hk : k ≠ key) :
    entryState (autoReg reg key fd) k ≠ some .kApproved := by
  rw [entryState_autoReg_ne hk, hdenied]
  exact nofun

theorem honest_sent (hmode : reg.enrollMode = .kAutoApprove)
    (hsent : sock.takes (hdBuildApproved p.clientKey) = true) :
    Honest reg sock.input (enrolPeer reg sock p) ↔
      ¬NoRoom reg p.clientKey ∧ entryState reg p.clientKey ≠ some .kDenied := by
  have hown : entryState (autoReg reg p.clientKey sock.fd) p.clientKey = some .kApproved ↔
      ¬NoRoom reg p.clientKey := entryState_autoReg sock.fd
  rw [enrolPeer_sent hmode hsent, honest_approval rfl]
  dsimp only
  constructor
  · rintro ⟨happroved, hdenied⟩
    exact ⟨hown.1 happroved, fun h => hdenied _ h happroved⟩
  · rintro ⟨hroom, hdenied⟩
    refine ⟨hown.2 hroom, fun k hk => denied_stays_ne hk ?_⟩
    rintro rfl
    exact hdenied hk

theorem honest_unsent (hmode : reg.enrollMode = .kAutoApprove)
    (hsent : sock.takes (hdBuildApproved p.clientKey) = false) :
    Honest reg sock.input (enrolPeer reg sock p) ↔
      entryState reg p.clientKey = some .kApproved ∨ NoRoom reg p.clientKey := by
  have hmsg : utf8 "write Approved frame failed" ≠ maxPeersExceeded := by decide
  rw [enrolPeer_unsent hmode hsent, honest_failure (relayResult_auto p) hmsg]
  exact autoReg_eq sock.fd

theorem honest_auto (hmode : reg.enrollMode = .kAutoApprove) :
    Honest reg sock.input (enrolPeer reg sock p) ↔ ApprovesHonestly reg sock p.clientKey := by
  unfold ApprovesHonestly
  cases hsent : sock.takes (hdBuildApproved p.clientKey) with
  | true =>
    rw [honest_sent hmode hsent]
    cases hstate : entryState reg p.clientKey with
    | none => simp [NoRoom, entryState_none.1 hstate]
    | some state =>
      obtain ⟨i, hl, -⟩ := entryState_some hstate
      cases state <;> simp [NoRoom, hl]
  | false =>
    rw [honest_unsent hmode hsent]
    cases hstate : entryState reg p.clientKey with
    | none => simp [NoRoom, entryState_none.1 hstate]
    | some state =>
      obtain ⟨i, hl, -⟩ := entryState_some hstate
      cases state <;> simp [NoRoom, hl]

/-- The handshake is honest for the candidates that the mode, the cap, the room in the
registry and the socket allow, and for no others. -/
theorem enrolment_honest_iff (ext : EnrolExtern) (cfg : HdEnrollConfig) (reg : HdPeerRegistry)
    (sock : HdSocket) (peerIpv4 : BitVec 32) :
    Honest reg sock.input (hdPerformHandshake ext cfg reg sock peerIpv4) ↔
      EnrolsHonestly ext cfg reg sock peerIpv4 := by
  by_cases hauth : ∃ p, Authentic ext cfg reg sock p
  · obtain ⟨p, hp⟩ := hauth
    have hone : EnrolsHonestly ext cfg reg sock peerIpv4 ↔ (reg.enrollMode = .kAutoApprove →
        (cfg.policy.capped reg → entryState reg p.clientKey ≠ some .kApproved) ∧
        (hdPolicyRejects ext cfg.policy reg p.clientKey peerIpv4 = none →
          ApprovesHonestly reg sock p.clientKey)) := by
      refine ⟨fun h => h p hp, fun h q hq => ?_⟩
      have heq := hp.read.symm.trans hq.read
      cases heq
      exact h
    rw [hone, handshake_of_authentic hp, admitPeer]
    by_cases hmode : reg.enrollMode = .kAutoApprove
    · rw [if_pos hmode]
      cases hrejects : hdPolicyRejects ext cfg.policy reg p.clientKey peerIpv4 with
      | some reason =>
        dsimp only
        rw [honest_rejected hp.read hrejects]
        simp [hmode]
      | none =>
        have hcap : ¬cfg.policy.capped reg := by
          intro hcap
          rw [rejects_of_capped hcap] at hrejects
          cases hrejects
        dsimp only
        rw [honest_auto hmode]
        simp [hmode, hcap]
    · rw [if_neg hmode]
      exact ⟨fun _ h => absurd h hmode, fun _ => honest_manual hmode⟩
  · have hnone : ∀ p, ¬Authentic ext cfg reg sock p := fun p hp => hauth ⟨p, hp⟩
    exact ⟨fun _ p hp => absurd hp (hnone p), fun _ => honest_of_not_authentic hnone⟩

/-! ### A candidate that hangs up -/

/-- The HMAC of `byteKey 1` under `byteKey 9`. -/
def enrolHmac : Bytes :=
  [0xc6, 0x5a, 0xa3, 0x1f, 0xa3, 0xd0, 0x1a, 0x98, 0xb4, 0x4f, 0x4d, 0xb1, 0x68, 0xca, 0xca, 0x0f,
    0x5a, 0xc5, 0x01, 0x26, 0xf0, 0xac, 0x08, 0xd2, 0x9f, 0xa5, 0xab, 0x9e, 0x1a, 0xfc, 0xb0, 0xfb]

def enrolExtern : EnrolExtern where
  authVerify tag message key :=
    decide (tag = enrolHmac ∧ message = (byteKey 1).data ∧ key = byteKey 9)
  inetAton _ := none

def enrolFrame : Bytes :=
  hdWriteFrameHeader .kEnroll kMinEnrollPayload ++ (byteKey 1).data ++ enrolHmac

def hangsUp : HdSocket where
  fd := 5
  input := enrolFrame
  takes _ := false

def enrolPayload : EnrollPayload := ⟨(byteKey 1).data ++ enrolHmac, by decide⟩

theorem hangsUp_authentic :
    Authentic enrolExtern { relayKey := byteKey 9 } { enrollMode := .kAutoApprove } hangsUp
      enrolPayload where
  read := by rfl
  hmac := by decide
  allowed := by decide

/-- An enrolment that failed has left its peer in the registry. -/
theorem failed_enrolment_registers :
    ¬∀ (ext : EnrolExtern) (cfg : HdEnrollConfig) (reg : HdPeerRegistry) (sock : HdSocket)
      (peerIpv4 : BitVec 32),
      Honest reg sock.input (hdPerformHandshake ext cfg reg sock peerIpv4) := by
  intro hall
  have hhonest := hall enrolExtern { relayKey := byteKey 9 } { enrollMode := .kAutoApprove }
    hangsUp 0
  rw [handshake_of_authentic hangsUp_authentic] at hhonest
  have henrol : admitPeer enrolExtern { relayKey := byteKey 9 } { enrollMode := .kAutoApprove }
      hangsUp 0 enrolPayload = enrolPeer { enrollMode := .kAutoApprove } hangsUp enrolPayload := by
    have hpolicy : hdPolicyRejects enrolExtern {} { enrollMode := .kAutoApprove }
        enrolPayload.clientKey 0 = none := by
      simp [hdPolicyRejects, HdEnrollPolicy.capped, keyAllowed, ipRefused]
    unfold admitPeer
    rw [if_pos rfl, hpolicy]
  have htakes := HdPeerRegistry.takes_empty .kAutoApprove enrolPayload.clientKey
  rw [henrol, honest_unsent rfl rfl] at hhonest
  rcases hhonest with happroved | hfull
  · rw [entryState_none.2 htakes.1] at happroved
    cases happroved
  · have hfree := htakes.2
    rw [hfull.2] at hfree
    cases hfree

end Enrolment

end HyperDerp
