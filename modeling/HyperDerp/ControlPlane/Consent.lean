import HyperDerp.ControlPlane.Answers

/-!
# Consent to a connection (`hd_resolver.cc:43-204`, `control_plane.cc:1292-1383`, `:1497-1525`)

An initiator that is told a mode should be able to rely on it: the policies of its relay
permit the mode, the target agreed to it, and neither side required another. The system is
that of all relays, with the frames between them; requests are numbered, and a frame or a
slot that belongs to one carries its number.
-/

namespace HyperDerp

/-! ### What a decision guarantees -/

def Permits (view : HdLayerView) (mode : HdConnMode) : Prop :=
  (mode = .kDirect ∧ view.allowed &&& kModeDirect ≠ 0) ∨
    (mode = .kRelayed ∧ view.allowed &&& kModeRelayed ≠ 0)

def Satisfies (mode : HdConnMode) (intent : HdIntent) : Prop :=
  (intent = .kRequireDirect → mode = .kDirect) ∧ (intent = .kRequireRelay → mode = .kRelayed)

theorem permits_relayed {view : HdLayerView} :
    Permits view .kRelayed ↔ view.allowed &&& kModeRelayed ≠ 0 := by
  constructor
  · rintro (⟨h, -⟩ | ⟨-, h⟩)
    · exact absurd h (by decide)
    · exact h
  · exact fun h => .inr ⟨rfl, h⟩

theorem and_ne_zero_left {a b c : Byte} (h : a &&& b &&& c ≠ 0) : a &&& c ≠ 0 := by
  intro hac
  apply h
  rw [UInt8.and_assoc, UInt8.and_comm b c, ← UInt8.and_assoc, hac, UInt8.zero_and]

theorem and_ne_zero_right {a b c : Byte} (h : a &&& b &&& c ≠ 0) : b &&& c ≠ 0 := by
  intro hbc
  apply h
  rw [UInt8.and_assoc, hbc, UInt8.and_zero]

def effectiveIntent (fleet federation relay peer : HdLayerView) (client : HdClientView) :
    HdIntent :=
  (fleet.pinnedIntent <|> federation.pinnedIntent <|> relay.pinnedIntent <|>
    peer.pinnedIntent).getD client.intent

theorem hdResolve_relayed {fleet federation relay peer : HdLayerView} {client : HdClientView}
    {relayId : ℕ}
    (h : (hdResolve fleet federation relay peer client false relayId).mode ≠ .kDenied) :
    (hdResolve fleet federation relay peer client false relayId).mode = .kRelayed ∧
      Permits fleet .kRelayed ∧ Permits relay .kRelayed ∧ Permits peer .kRelayed ∧
      effectiveIntent fleet federation relay peer client ≠ .kRequireDirect := by
  generalize hdec : hdResolve fleet federation relay peer client false relayId = dec at h ⊢
  generalize hintent : effectiveIntent fleet federation relay peer client = intent
  unfold effectiveIntent at hintent
  unfold hdResolve at hdec
  split at hdec
  · rw [← hdec] at h
    exact absurd rfl h
  simp only [hintent, Bool.false_eq_true, if_false, true_and] at hdec
  split at hdec
  · rw [← hdec] at h
    exact absurd rfl h
  next heff =>
  -- whatever the intent, only the relayed bit is left
  have hneed : ~~~kModeDirect &&& intentNeed intent = kModeRelayed := by
    unfold intentNeed
    rw [if_neg heff]
    split <;> decide
  rw [UInt8.and_assoc _ (~~~kModeDirect), hneed] at hdec
  split at hdec
  · rw [← hdec] at h
    exact absurd rfl h
  next hfeasible =>
  have hpeer := and_ne_zero_right hfeasible
  have hrelay := and_ne_zero_right (and_ne_zero_left hfeasible)
  have hfleet := and_ne_zero_left (and_ne_zero_left (and_ne_zero_left hfeasible))
  have hdirect : ∀ a : Byte, a &&& kModeRelayed &&& kModeDirect = 0 := by
    intro a
    rw [UInt8.and_assoc]
    exact UInt8.and_zero
  have hself : ∀ a : Byte, a &&& kModeRelayed &&& kModeRelayed = a &&& kModeRelayed := by
    intro a
    rw [UInt8.and_assoc, UInt8.and_self]
  refine ⟨?_, permits_relayed.2 hfleet, permits_relayed.2 hrelay, permits_relayed.2 hpeer, heff⟩
  have hpref : intentPreferred intent = .kDirect ∨ intentPreferred intent = .kRelayed := by
    unfold intentPreferred
    split
    · exact .inl rfl
    · exact .inr rfl
  rw [← hdec]
  dsimp only
  rcases hpref with hp | hp
  · rw [hp, if_pos rfl, hdirect, if_neg (not_not.2 rfl), if_neg (not_not.2 rfl)]
  · have hne : ¬HdConnMode.kRelayed = HdConnMode.kDirect := by decide
    rw [hp, if_neg hne, hself, if_pos hfeasible]

theorem effectiveIntent_peer (fleet : HdFleetPolicy) (relay : HdRelayPolicy) (peer : HdLayerView)
    (client : HdClientView) :
    effectiveIntent (hdBuildFleetView fleet) {} (hdBuildRelayView relay) peer client =
      peer.pinnedIntent.getD client.intent := rfl

theorem hdBuildPeerView_pin (policy : HdPeerPolicy) (intent : HdIntent) :
    (hdBuildPeerView policy intent).pinnedIntent =
      if intent = .kRequireDirect ∨ intent = .kRequireRelay then some intent else none := by
  unfold hdBuildPeerView
  dsimp only
  generalize hv : (if intent = .kRequireDirect ∨ intent = .kRequireRelay then
    ({ pinnedIntent := some intent } : HdLayerView)
    else if intent = .kPreferRelay then { allowed := kModeRelayed } else {}) = v
  have hpin : v.pinnedIntent =
      if intent = .kRequireDirect ∨ intent = .kRequireRelay then some intent else none := by
    rw [← hv]
    split
    · rfl
    · split <;> rfl
  rw [← hpin]
  split
  · split
    · rfl
    · split <;> rfl
  · rfl

/-- A target's consent: its intent and modes after its policy. -/
structure TargetConsent where
  intent : HdIntent
  view : HdLayerView

def targetConsent (hd : HdPeerRegistry) (e : OpenConnEntry) (resp : HdIncomingConnResponse) :
    TargetConsent :=
  let bPolicy := (hdPeersLookupPolicy hd e.targetKey).getD {}
  let intent := hdApplyPeerPolicyIntent bPolicy resp.intent
  { intent := intent, view := hdBuildPeerView bPolicy intent }

theorem targetConsent_pin (hd : HdPeerRegistry) (e : OpenConnEntry)
    (resp : HdIncomingConnResponse) : (targetConsent hd e resp).view.pinnedIntent =
      if (targetConsent hd e resp).intent = .kRequireDirect ∨
        (targetConsent hd e resp).intent = .kRequireRelay then
        some (targetConsent hd e resp).intent else none := by
  unfold targetConsent
  dsimp only
  generalize (hdPeersLookupPolicy hd e.targetKey).getD {} = bPolicy
  exact hdBuildPeerView_pin bPolicy _

structure Agreed (hd : HdPeerRegistry) (e : OpenConnEntry) (consent : TargetConsent)
    (mode : HdConnMode) : Prop where
  mode : mode = .kRelayed
  fleet : Permits (hdBuildFleetView hd.fleetPolicy) .kRelayed
  relay : Permits (hdBuildRelayView hd.relayPolicy) .kRelayed
  view : Permits consent.view .kRelayed
  target : Satisfies .kRelayed consent.intent
  initiator : e.initiatorView.intent = .kRequireDirect → consent.intent = .kRequireRelay

theorem answered_agreed {hd : HdPeerRegistry} {e : OpenConnEntry} {resp : HdIncomingConnResponse}
    (h : (answered hd e resp).1 ≠ .kDenied) :
    hasFlag resp.accept kHdFlagAccept = true ∧
      Agreed hd e (targetConsent hd e resp) (answered hd e resp).1 := by
  unfold answered at h ⊢
  cases hacc : hasFlag resp.accept kHdFlagAccept with
  | false =>
    rw [hacc] at h
    exact absurd rfl h
  | true =>
    rw [hacc, if_pos rfl] at h
    rw [if_pos rfl]
    dsimp only at h ⊢
    generalize hres : hdResolve (hdBuildFleetView hd.fleetPolicy) {}
      (hdBuildRelayView hd.relayPolicy) (targetConsent hd e resp).view e.initiatorView false
      e.targetRelayId = dec
    have hdec : (answerDecision hd e resp).1 = (capDirect hd dec).1 := by
      rw [← hres]
      simp only [answerDecision, targetConsent]
    rw [hdec] at h ⊢
    -- a decision without direct tunnels does not meet the cap
    have hcap : dec.mode ≠ .kDirect → (capDirect hd dec).1 = dec := by
      intro hmode
      unfold capDirect
      rw [if_neg fun hc => hmode hc.1]
    have hmode : dec.mode ≠ .kDenied := by
      intro hdenied
      apply h
      rw [hcap (by rw [hdenied]; decide)]
      exact hdenied
    rw [← hres] at hmode
    obtain ⟨hrelayed, hfleet, hrelay, hview, heff⟩ := hdResolve_relayed hmode
    rw [hres] at hrelayed
    rw [effectiveIntent_peer, targetConsent_pin] at heff
    rw [hcap (by rw [hrelayed]; decide)]
    refine ⟨rfl, hrelayed, hfleet, hrelay, hview, ⟨?_, fun _ => rfl⟩, ?_⟩
    · intro hreq
      rw [if_pos (.inl hreq)] at heff
      exact absurd hreq heff
    · intro hinit
      by_contra hnot
      by_cases hdirect : (targetConsent hd e resp).intent = .kRequireDirect
      · rw [if_pos (.inl hdirect)] at heff
        exact heff hdirect
      · rw [if_neg fun hor => hor.elim hdirect hnot] at heff
        exact heff hinit

namespace Consent

/-! ### Relays and the frames between them -/

structure Msg where
  dest : ℕ
  fd : Fd
  type : FrameType
  payload : Bytes
  tag : ℕ
  consent : Option TargetConsent

/-- For each relay its control plane, where its links lead and the requests that hold its
slots; for each request the client's intent and the one it is decided by. -/
structure State where
  cp : ℕ → ControlPlane
  link : ℕ → Fd → Option (ℕ × Fd) := fun _ _ => none
  wire : List Msg := []
  serial : ℕ := 0
  request : ℕ → OpenSlot → ℕ := fun _ _ => 0
  asked : ℕ → HdIntent := fun _ => .kPreferDirect
  intent : ℕ → HdIntent := fun _ => .kPreferDirect

inductive Op where
  /-- a frame from outside that answers nothing -/
  | frame (r : ℕ) (fd : Fd) (type : FrameType) (payload : Bytes)
  /-- the peer behind `fd` answers the IncomingConnection of request `n` -/
  | respond (r : ℕ) (fd : Fd) (n : ℕ) (payload : Bytes)
  | deliver (k : ℕ)
  | lose (k : ℕ)
  | scan (r : ℕ)
  | elsewhere (r : ℕ) (cp : ControlPlane)
  | relink (link : ℕ → Fd → Option (ℕ × Fd))

def wireIntent (type : FrameType) (payload : Bytes) : HdIntent :=
  if type = HdFrameType.kOpenConnection then
    ((hdParseOpenConnection payload).map HdOpenConnection.intent).getD .kPreferDirect
  else ((fleetRequest payload).map fun r => r.2.intent).getD .kPreferDirect

def matched (cp : ControlPlane) (fd : Fd) (type : FrameType) (payload : Bytes) : Option OpenSlot :=
  if type = HdFrameType.kIncomingConnResponse then
    (hdParseIncomingConnResponse payload).bind fun resp =>
      openConnFind cp (responseMatches resp fd)
  else if type = HdFrameType.kFleetOpenConnectionResult then
    (hdParseOpenConnectionResult payload).bind fun result =>
      openConnFind cp (resultMatches result fd)
  else none

def consentOf (cp : ControlPlane) (fd : Fd) (payload : Bytes) : Option TargetConsent :=
  (hdParseIncomingConnResponse payload).bind fun resp =>
    (openConnFind cp (responseMatches resp fd)).bind fun i =>
      if hasFlag resp.accept kHdFlagAccept then
        cp.hdPeers.map fun hd => targetConsent hd (cp.openConns i) resp
      else none

/-- Frames handed to links are on the wire, where they may be lost. -/
def sent (s : State) (r : ℕ) (cp' : ControlPlane) (tag : ℕ) (consent : Option TargetConsent) :
    List Msg :=
  (cp'.attempted.drop (s.cp r).attempted.length).filterMap fun x =>
    (s.link r x.1).map fun d =>
      ⟨d.1, d.2, hdReadFrameType x.2, x.2.drop kHdFrameHeaderSize, tag, consent⟩

def handled (s : State) (r : ℕ) (cp' : ControlPlane) (tag : ℕ) (consent : Option TargetConsent) :
    State :=
  { s with
    cp := Function.update s.cp r cp'
    wire := s.wire ++ sent s r cp' tag consent
    request := Function.update s.request r fun i =>
      if ((s.cp r).openConns i).inUse then s.request r i else tag }

def step (s : State) : Op → Option State
  | .frame r fd type payload =>
    if 0 ≤ fd then
      some { handled s r (cpProcessFrame (s.cp r) fd type payload) s.serial none with
        serial := s.serial + 1
        asked := Function.update s.asked s.serial (wireIntent type payload)
        intent := Function.update s.intent s.serial (requestIntent (s.cp r) fd type payload) }
    else none
  | .respond r fd n payload =>
    if 0 ≤ fd then
      some (handled s r (cpProcessFrame (s.cp r) fd HdFrameType.kIncomingConnResponse payload) n
        (consentOf (s.cp r) fd payload))
    else none
  | .deliver k =>
    (s.wire[k]?).bind fun m =>
      if 0 ≤ m.fd then
        some (handled { s with wire := s.wire.eraseIdx k } m.dest
          (cpProcessFrame (s.cp m.dest) m.fd m.type m.payload) m.tag none)
      else none
  | .lose k => some { s with wire := s.wire.eraseIdx k }
  | .scan r => some (handled s r (scanOpenConnTimeouts (s.cp r)) 0 none)
  | .elsewhere r cp =>
    if cp.hdPeers.isSome then
      some { s with cp := Function.update s.cp r { cp with
        openConns := (s.cp r).openConns
        openConnPerPeer := (s.cp r).openConnPerPeer
        attempted := (s.cp r).attempted } }
    else none
  | .relink link => some { s with link := link }

structure Init (s : State) : Prop where
  slots : ∀ r i, (s.cp r).openConns i = {}
  hdPeers : ∀ r, (s.cp r).hdPeers.isSome
  wire : s.wire = []

/-! ### Respect -/

def resultMode (frame : Bytes) : HdConnMode := frame.getD 12 0

def initiatorIntent (cp : ControlPlane) (e : OpenConnEntry) (wire : HdIntent) : HdIntent :=
  match cp.hdPeers with
  | none => wire
  | some hd => hdApplyPeerPolicyIntent ((hdPeersLookupPolicy hd e.initiatorKey).getD {}) wire

def consentFor (s : State) (op : Op) (n : ℕ) : Option TargetConsent :=
  match op with
  | .respond r fd n' payload => if n' = n then consentOf (s.cp r) fd payload else none
  | .deliver k => (s.wire[k]?).bind fun m => if m.tag = n then m.consent else none
  | _ => none

/-- The mode suits the relay's policies, the target and the initiator. -/
structure Respects (s : State) (r : ℕ) (i : OpenSlot) (mode : HdConnMode)
    (consent : TargetConsent) : Prop where
  policies : ∃ hd, (s.cp r).hdPeers = some hd ∧ Permits (hdBuildFleetView hd.fleetPolicy) mode ∧
    Permits (hdBuildRelayView hd.relayPolicy) mode
  view : Permits consent.view mode
  target : Satisfies mode consent.intent
  initiator : Satisfies mode (initiatorIntent (s.cp r) ((s.cp r).openConns i)
    (s.asked (s.request r i)))

/-- Every result of the step that is no denial answers a request whose target accepts in
that step, and respects every party. -/
def Respected (s s' : State) (op : Op) : Prop :=
  ∀ r, ∀ x ∈ (s'.cp r).attempted.drop (s.cp r).attempted.length, ∀ corr,
    isResult false corr x.2 = true → resultMode x.2 ≠ .kDenied →
      ∃ i consent, ((s.cp r).openConns i).inUse = true ∧
        ((s.cp r).openConns i).isGatewayInbound = false ∧
        ((s.cp r).openConns i).initiatorFd = x.1 ∧ ((s.cp r).openConns i).correlationId = corr ∧
        consentFor s op (s.request r i) = some consent ∧ Respects s r i (resultMode x.2) consent

/-- The initiator's policy gives its request the intent that it gave when it was made. -/
def PinKept (s : State) (r : ℕ) (i : OpenSlot) : Prop :=
  initiatorIntent (s.cp r) ((s.cp r).openConns i) (s.asked (s.request r i)) =
    ((s.cp r).openConns i).initiatorView.intent

def RelayedAllowed (cp : ControlPlane) : Prop :=
  ∃ hd, cp.hdPeers = some hd ∧ Permits (hdBuildFleetView hd.fleetPolicy) .kRelayed ∧
    Permits (hdBuildRelayView hd.relayPolicy) .kRelayed

/-- Answers find the slots of their own requests, an initiator that requires a direct
connection meets no target that requires the relay, pins stay as they were while a request
is pending, and a verdict other than Denied reaches a relay that permits it. -/
def soundAnswer (s : State) : Op → Prop
  | .frame r fd type payload => matched (s.cp r) fd type payload = none
  | .respond r fd n payload =>
    ∀ i, matched (s.cp r) fd HdFrameType.kIncomingConnResponse payload = some i →
      s.request r i = n ∧ PinKept s r i ∧
      ∀ consent, consentOf (s.cp r) fd payload = some consent →
        ((s.cp r).openConns i).initiatorView.intent = .kRequireDirect →
          consent.intent ≠ .kRequireRelay
  | .deliver k => ∀ m, s.wire[k]? = some m →
    ∀ i, matched (s.cp m.dest) m.fd m.type m.payload = some i →
      s.request m.dest i = m.tag ∧ PinKept s m.dest i ∧
      (m.payload.getD 8 0 ≠ HdConnMode.kDenied → RelayedAllowed (s.cp m.dest))
  | _ => True

/-! ### What is on the wire -/

def sentTypes : List FrameType :=
  [HdFrameType.kIncomingConnection, HdFrameType.kFleetOpenConnection,
    HdFrameType.kOpenConnectionResult, HdFrameType.kFleetOpenConnectionResult,
    HdFrameType.kIncomingConnResult]

/-- A forwarded request carries the intent it is decided by, and a verdict other than
Denied stands for a consent. -/
structure MsgOk (serial : ℕ) (intent : ℕ → HdIntent) (type : FrameType) (payload : Bytes)
    (tag : ℕ) (consent : Option TargetConsent) : Prop where
  kind : type ∈ sentTypes
  request : type = HdFrameType.kFleetOpenConnection → tag < serial ∧
    ∀ r, fleetRequest payload = some r → r.2.intent = intent tag
  verdict : type = HdFrameType.kFleetOpenConnectionResult →
    payload.getD 8 0 ≠ HdConnMode.kDenied → tag < serial ∧ intent tag ≠ .kRequireDirect ∧
    ∃ c, consent = some c ∧ payload.getD 8 0 = HdConnMode.kRelayed ∧ Permits c.view .kRelayed ∧
      Satisfies .kRelayed c.intent

structure Inv (s : State) : Prop where
  slots : ∀ r, SlotsOk (s.cp r)
  hdPeers : ∀ r, (s.cp r).hdPeers.isSome
  requests : ∀ r i, ((s.cp r).openConns i).inUse = true → s.request r i < s.serial ∧
    ((s.cp r).openConns i).initiatorView.intent = s.intent (s.request r i)
  msgs : ∀ m ∈ s.wire, MsgOk s.serial s.intent m.type m.payload m.tag m.consent

section

variable {serial tag corr : ℕ} {intents : ℕ → HdIntent} {consent : Option TargetConsent}
  {frame : Bytes}

theorem getD_drop_header (frame : Bytes) :
    (frame.drop kHdFrameHeaderSize).getD 8 0 = resultMode frame := by
  simp [resultMode, kHdFrameHeaderSize, List.getD_eq_getElem?_getD, List.getElem?_drop]

theorem resultMode_openResult (gateway : Bool) (corr : ℕ) (mode : HdConnMode)
    (reason : HdDenyReason) (sub : Byte) (path : List ℕ) :
    resultMode (openResult gateway corr mode reason sub path) = mode := rfl

theorem MsgOk.later {type : FrameType} {payload : Bytes} {serial' : ℕ} {intents' : ℕ → HdIntent}
    (h : MsgOk serial intents type payload tag consent)
    (hold : ∀ n, n < serial → n < serial' ∧ intents' n = intents n) :
    MsgOk serial' intents' type payload tag consent := by
  constructor
  · exact h.kind
  · intro htype
    obtain ⟨hlt, hreq⟩ := h.request htype
    rw [(hold tag hlt).2]
    exact ⟨(hold tag hlt).1, hreq⟩
  · intro htype hmode
    obtain ⟨hlt, hverdict⟩ := h.verdict htype hmode
    rw [(hold tag hlt).2]
    exact ⟨(hold tag hlt).1, hverdict⟩

theorem msgOk_other {type : FrameType} {payload : Bytes} (htype : type ∈ sentTypes)
    (hreq : type ≠ HdFrameType.kFleetOpenConnection)
    (hverdict : type ≠ HdFrameType.kFleetOpenConnectionResult) :
    MsgOk serial intents type payload tag consent :=
  ⟨htype, fun h => absurd h hreq, fun h => absurd h hverdict⟩

theorem msgOk_forwards {intent : HdIntent} (h : Forwards intent frame) (hlt : tag < serial)
    (hintent : intents tag = intent) :
    MsgOk serial intents (hdReadFrameType frame) (frame.drop kHdFrameHeaderSize) tag consent := by
  constructor
  · rcases h.type with htype | htype
    · rw [htype]
      decide
    · rw [htype]
      decide
  · intro htype
    refine ⟨hlt, fun r hr => ?_⟩
    rw [hintent]
    exact h.inner htype r hr
  · intro htype
    rcases h.type with htype' | htype'
    · rw [htype'] at htype
      exact absurd htype (by decide)
    · rw [htype'] at htype
      exact absurd htype (by decide)

theorem msgOk_mirror (h : hdReadFrameType frame = HdFrameType.kIncomingConnResult) :
    MsgOk serial intents (hdReadFrameType frame) (frame.drop kHdFrameHeaderSize) tag consent := by
  rw [h]
  exact msgOk_other (by decide) (by decide) (by decide)

theorem msgOk_result (gateway : Bool) (mode : HdConnMode) (reason : HdDenyReason) (sub : Byte)
    (path : List ℕ)
    (h : gateway = true → mode ≠ .kDenied → tag < serial ∧ intents tag ≠ .kRequireDirect ∧
      ∃ c, consent = some c ∧ mode = .kRelayed ∧ Permits c.view .kRelayed ∧
        Satisfies .kRelayed c.intent) :
    MsgOk serial intents (hdReadFrameType (openResult gateway corr mode reason sub path))
      ((openResult gateway corr mode reason sub path).drop kHdFrameHeaderSize) tag consent := by
  have htype : hdReadFrameType (openResult gateway corr mode reason sub path) =
      resultType gateway := rfl
  cases gateway with
  | false =>
    rw [htype]
    exact msgOk_other (by decide) (by decide) (by decide)
  | true =>
    constructor
    · rw [htype]
      decide
    · intro hreq
      rw [htype] at hreq
      exact absurd hreq (by decide)
    · intro _
      rw [getD_drop_header, resultMode_openResult]
      exact h rfl

theorem msgOk_denied (gateway : Bool) (reason : HdDenyReason) (sub : Byte) (path : List ℕ) :
    MsgOk serial intents (hdReadFrameType (openResult gateway corr .kDenied reason sub path))
      ((openResult gateway corr .kDenied reason sub path).drop kHdFrameHeaderSize) tag consent :=
  msgOk_result gateway .kDenied reason sub path fun _ hmode => absurd rfl hmode

end

/-! ### What a relay does with a frame -/

section

variable {cp cp' : ControlPlane} {fd : Fd} {type : FrameType} {payload : Bytes} {serial tag : ℕ}
  {intents : ℕ → HdIntent} {consent : Option TargetConsent}

def AllOk (cp cp' : ControlPlane) (serial : ℕ) (intents : ℕ → HdIntent) (tag : ℕ)
    (consent : Option TargetConsent) : Prop :=
  ∀ x ∈ cp'.attempted.drop cp.attempted.length, MsgOk serial intents (hdReadFrameType x.2)
    (x.2.drop kHdFrameHeaderSize) tag consent

def OnlyDenials (cp cp' : ControlPlane) : Prop :=
  ∀ x ∈ cp'.attempted.drop cp.attempted.length, ∀ corr, isResult false corr x.2 = true →
    resultMode x.2 = .kDenied

def TagOk (cp : ControlPlane) (fd : Fd) (type : FrameType) (payload : Bytes) (serial : ℕ)
    (intents : ℕ → HdIntent) (tag : ℕ) : Prop :=
  ∀ gateway corr, requestId gateway type payload = some corr →
    tag < serial ∧ intents tag = requestIntent cp fd type payload

theorem matched_answered {resp : HdIncomingConnResponse} {i : OpenSlot}
    (htype : type = HdFrameType.kIncomingConnResponse)
    (hresp : hdParseIncomingConnResponse payload = some resp)
    (hfind : openConnFind cp (responseMatches resp fd) = some i) :
    matched cp fd type payload = some i := by
  unfold matched
  rw [if_pos htype, hresp]
  exact hfind

theorem matched_relayed {result : HdOpenConnectionResult} {i : OpenSlot}
    (htype : type = HdFrameType.kFleetOpenConnectionResult)
    (hresult : hdParseOpenConnectionResult payload = some result)
    (hfind : openConnFind cp (resultMatches result fd) = some i) :
    matched cp fd type payload = some i := by
  have hno : type ≠ HdFrameType.kIncomingConnResponse := by
    rw [htype]
    decide
  unfold matched
  rw [if_neg hno, if_pos htype, hresult]
  exact hfind

theorem attempted_drop {new : List (Fd × Bytes)} (h : cp'.attempted = cp.attempted ++ new) :
    cp'.attempted.drop cp.attempted.length = new := by
  rw [h, List.drop_left]

theorem request_sends (hout : FrameOutcome cp fd type payload cp')
    (hnone : matched cp fd type payload = none)
    (htag : TagOk cp fd type payload serial intents tag) :
    AllOk cp cp' serial intents tag consent ∧ OnlyDenials cp cp' := by
  cases hout with
  | nothing hu hid =>
    have hnew : cp'.attempted.drop cp.attempted.length = [] := by
      rw [hu.attempted, List.drop_length]
    unfold AllOk OnlyDenials
    rw [hnew]
    exact ⟨nofun, nofun⟩
  | refused gateway corr hid hr =>
    obtain ⟨reqs, reason, path, hreqs, hatt⟩ := hr.attempted
    obtain ⟨hlt, hintent⟩ := htag gateway corr hid
    rw [List.append_assoc] at hatt
    unfold AllOk OnlyDenials
    rw [attempted_drop hatt]
    constructor
    · intro x hx
      rcases List.mem_append.1 hx with hx | hx
      · exact msgOk_forwards (hreqs x hx) hlt hintent
      · rw [List.mem_singleton.1 hx]
        exact msgOk_denied gateway reason 0 path
    · intro x hx corr' hres
      rcases List.mem_append.1 hx with hx | hx
      · rw [(hreqs x hx).noResult.isResult] at hres
        cases hres
      · rw [List.mem_singleton.1 hx]
        rfl
  | pending i e buf he hbuf hp =>
    obtain ⟨hlt, hintent⟩ := htag _ _ he.fields.2.2
    unfold AllOk OnlyDenials
    rw [attempted_drop hp.attempted]
    constructor
    · intro x hx
      rw [List.mem_singleton.1 hx]
      exact msgOk_forwards hbuf hlt hintent
    · intro x hx corr' hres
      rw [List.mem_singleton.1 hx, hbuf.noResult.isResult] at hres
      cases hres
  | answered hd resp i htype hresp hhd hfind hr =>
    rw [matched_answered htype hresp hfind] at hnone
    cases hnone
  | relayed result i htype hresult hfind hr =>
    rw [matched_relayed htype hresult hfind] at hnone
    cases hnone

def SlotsTagged (cp cp' : ControlPlane) (serial : ℕ) (intents : ℕ → HdIntent) (tag : ℕ) : Prop :=
  ∀ i, (cp'.openConns i).inUse = true →
    ((cp.openConns i).inUse = true ∧ cp'.openConns i = cp.openConns i) ∨
      ((cp.openConns i).inUse = false ∧ tag < serial ∧
        (cp'.openConns i).initiatorView.intent = intents tag)

theorem slotsTagged_of_same
    (h : ∀ i, (cp'.openConns i).inUse = true → cp'.openConns i = cp.openConns i) :
    SlotsTagged cp cp' serial intents tag := by
  intro i huse
  have heq := h i huse
  rw [heq] at huse
  exact .inl ⟨huse, heq⟩

theorem outcome_slots (hout : FrameOutcome cp fd type payload cp')
    (htag : TagOk cp fd type payload serial intents tag) :
    SlotsTagged cp cp' serial intents tag := by
  intro i huse
  cases hold : (cp.openConns i).inUse with
  | true =>
    rcases hout.slot huse with heq | ⟨hempty, -⟩
    · exact .inl ⟨rfl, heq⟩
    · rw [hempty] at hold
      cases hold
  | false =>
    rcases hout.slot huse with heq | ⟨-, he⟩
    · rw [heq, hold] at huse
      cases huse
    · obtain ⟨hlt, hintent⟩ := htag _ _ he.fields.2.2
      rw [hintent]
      exact .inr ⟨rfl, hlt, he.intent⟩

theorem satisfies_relayed {intent : HdIntent} :
    Satisfies .kRelayed intent ↔ intent ≠ .kRequireDirect := by
  constructor
  · intro h heq
    exact absurd (h.1 heq) (by decide)
  · exact fun h => ⟨fun heq => absurd heq h, fun _ => rfl⟩

theorem consentOf_eq {hd : HdPeerRegistry} {resp : HdIncomingConnResponse} {i : OpenSlot}
    (hresp : hdParseIncomingConnResponse payload = some resp)
    (hfind : openConnFind cp (responseMatches resp fd) = some i)
    (hacc : hasFlag resp.accept kHdFlagAccept = true) (hhd : cp.hdPeers = some hd) :
    consentOf cp fd payload = some (targetConsent hd (cp.openConns i) resp) := by
  unfold consentOf
  rw [hresp, Option.bind_some, hfind, Option.bind_some, if_pos hacc, hhd, Option.map_some]

theorem parse_mode {result : HdOpenConnectionResult}
    (h : hdParseOpenConnectionResult payload = some result) :
    result.mode = payload.getD 8 0 := by
  unfold hdParseOpenConnectionResult at h
  split at h
  · cases h
  dsimp only at h
  split at h
  · cases h
  split at h
  · cases h
  split at h
  · cases h
  split at h
  · cases h
  · cases h
    rfl

end

/-! ### Steps -/

section

variable {s s' : State} {r : ℕ} {cp' : ControlPlane} {tag : ℕ} {consent : Option TargetConsent}

theorem Init.inv (h : Init s) : Inv s := by
  have hfree : ∀ r i, ¬((s.cp r).openConns i).inUse = true := by
    intro r i
    rw [h.slots r i]
    nofun
  constructor
  · intro r
    exact ⟨fun i _ => h.slots r i, fun i hi => absurd hi (hfree r i),
      fun i hi => absurd hi (hfree r i)⟩
  · exact h.hdPeers
  · exact fun r i hi => absurd hi (hfree r i)
  · rw [h.wire]
    nofun

theorem Inv.handled (h : Inv s) {serial : ℕ} {asked intents : ℕ → HdIntent}
    (hold : ∀ n, n < s.serial → n < serial ∧ intents n = s.intent n) (hok : SlotsOk cp')
    (hsome : cp'.hdPeers.isSome) (hslots : SlotsTagged (s.cp r) cp' serial intents tag)
    (hall : AllOk (s.cp r) cp' serial intents tag consent) :
    Inv { handled s r cp' tag consent with serial := serial, asked := asked, intent := intents } := by
  have hself : Function.update s.cp r cp' r = cp' := Function.update_self ..
  have hother : ∀ r', r' ≠ r → Function.update s.cp r cp' r' = s.cp r' :=
    fun r' hne => Function.update_of_ne hne _ _
  constructor
  · intro r'
    dsimp only [Consent.handled]
    by_cases hne : r' = r
    · rw [hne, hself]
      exact hok
    · rw [hother r' hne]
      exact h.slots r'
  · intro r'
    dsimp only [Consent.handled]
    by_cases hne : r' = r
    · rw [hne, hself]
      exact hsome
    · rw [hother r' hne]
      exact h.hdPeers r'
  · intro r' i huse
    dsimp only [Consent.handled] at huse ⊢
    by_cases hne : r' = r
    · subst hne
      rw [hself] at huse ⊢
      rw [Function.update_self]
      rcases hslots i huse with ⟨huse', heq⟩ | ⟨hfree, hlt, hintent⟩
      · obtain ⟨hlt, hintent⟩ := h.requests r' i huse'
        rw [if_pos huse', heq, hintent, (hold _ hlt).2]
        exact ⟨(hold _ hlt).1, rfl⟩
      · rw [hfree, if_neg nofun]
        exact ⟨hlt, hintent⟩
    · rw [hother r' hne] at huse ⊢
      rw [Function.update_of_ne hne]
      obtain ⟨hlt, hintent⟩ := h.requests r' i huse
      rw [hintent, (hold _ hlt).2]
      exact ⟨(hold _ hlt).1, rfl⟩
  · intro m hm
    rcases List.mem_append.1 hm with hm | hm
    · exact (h.msgs m hm).later hold
    · obtain ⟨x, hx, hdest⟩ := List.mem_filterMap.1 hm
      obtain ⟨d, -, rfl⟩ := Option.map_eq_some_iff.1 hdest
      exact hall x hx

theorem Inv.worked (h : Inv s) (hok : SlotsOk cp') (hsome : cp'.hdPeers.isSome)
    (hslots : SlotsTagged (s.cp r) cp' s.serial s.intent tag)
    (hall : AllOk (s.cp r) cp' s.serial s.intent tag consent) :
    Inv (Consent.handled s r cp' tag consent) :=
  h.handled (fun _ hn => ⟨hn, rfl⟩) hok hsome hslots hall

theorem respected_of {op : Op} (hcp : s'.cp = Function.update s.cp r cp')
    (h : ∀ x ∈ cp'.attempted.drop (s.cp r).attempted.length, ∀ corr,
      isResult false corr x.2 = true → resultMode x.2 ≠ .kDenied →
      ∃ i consent, ((s.cp r).openConns i).inUse = true ∧
        ((s.cp r).openConns i).isGatewayInbound = false ∧
        ((s.cp r).openConns i).initiatorFd = x.1 ∧ ((s.cp r).openConns i).correlationId = corr ∧
        consentFor s op (s.request r i) = some consent ∧
        Respects s r i (resultMode x.2) consent) : Respected s s' op := by
  intro r' x hx
  rw [hcp] at hx
  by_cases hne : r' = r
  · subst hne
    rw [Function.update_self] at hx
    exact h x hx
  · rw [Function.update_of_ne hne, List.drop_length] at hx
    cases hx

theorem respected_of_denials {op : Op} (hcp : s'.cp = Function.update s.cp r cp')
    (h : OnlyDenials (s.cp r) cp') : Respected s s' op :=
  respected_of hcp fun x hx corr hres hmode => absurd (h x hx corr hres) hmode

theorem respected_of_same {op : Op} (hcp : s'.cp = s.cp) : Respected s s' op := by
  intro r x hx
  rw [hcp, List.drop_length] at hx
  cases hx

/-! ### Requests, answers, verdicts -/

theorem frame_step (h : Inv s) {fd : Fd} (hfd : 0 ≤ fd) {type : FrameType} {payload : Bytes}
    (hnone : matched (s.cp r) fd type payload = none)
    (hs : step s (.frame r fd type payload) = some s') :
    Inv s' ∧ Respected s s' (.frame r fd type payload) := by
  have hout := cpProcessFrame_outcome (h.slots r) (h.hdPeers r) hfd type payload
  rw [step, if_pos hfd, Option.some.injEq] at hs
  rw [← hs]
  clear hs
  revert hout
  generalize cpProcessFrame (s.cp r) fd type payload = cp'
  intro hout
  have htag : TagOk (s.cp r) fd type payload (s.serial + 1)
      (Function.update s.intent s.serial (requestIntent (s.cp r) fd type payload)) s.serial :=
    fun _ _ _ => ⟨Nat.lt_succ_self _, Function.update_self ..⟩
  obtain ⟨hall, hden⟩ := request_sends hout hnone htag
  constructor
  · apply h.handled _ (hout.slotsOk (h.slots r) hfd) (hout.hdPeers.trans (h.hdPeers r))
      (outcome_slots hout htag) hall
    exact fun n hn => ⟨Nat.lt_succ_of_lt hn, Function.update_of_ne (Nat.ne_of_lt hn) _ _⟩
  · exact respected_of_denials rfl hden

theorem respond_step (h : Inv s) {fd : Fd} (hfd : 0 ≤ fd) {n : ℕ} {payload : Bytes}
    (hsound : soundAnswer s (.respond r fd n payload))
    (hs : step s (.respond r fd n payload) = some s') :
    Inv s' ∧ Respected s s' (.respond r fd n payload) := by
  have hout := cpProcessFrame_outcome (h.slots r) (h.hdPeers r) hfd
    HdFrameType.kIncomingConnResponse payload
  have hid := @requestId_none payload HdFrameType.kIncomingConnResponse (by decide) (by decide)
  rw [step, if_pos hfd, Option.some.injEq] at hs
  rw [← hs]
  clear hs
  revert hout
  generalize cpProcessFrame (s.cp r) fd HdFrameType.kIncomingConnResponse payload = cp'
  intro hout
  have htag : TagOk (s.cp r) fd HdFrameType.kIncomingConnResponse payload s.serial s.intent n := by
    intro gateway corr hreq
    rw [hid gateway] at hreq
    cases hreq
  cases hmatch : matched (s.cp r) fd HdFrameType.kIncomingConnResponse payload with
  | none =>
    obtain ⟨hall, hden⟩ := @request_sends _ _ _ _ _ _ _ _
      (consentOf (s.cp r) fd payload) hout hmatch htag
    constructor
    · exact h.worked (hout.slotsOk (h.slots r) hfd) (hout.hdPeers.trans (h.hdPeers r))
        (outcome_slots hout htag) hall
    · exact respected_of_denials rfl hden
  | some j =>
    obtain ⟨hreqj, hpin, hconflict⟩ := hsound j hmatch
    have hslots := outcome_slots hout htag
    have hok := hout.slotsOk (h.slots r) hfd
    have hsome := hout.hdPeers.trans (h.hdPeers r)
    cases hout with
    | nothing hu hid =>
      have hnew : cp'.attempted.drop (s.cp r).attempted.length = [] := by
        rw [hu.attempted, List.drop_length]
      constructor
      · apply h.worked hok hsome hslots
        unfold AllOk
        rw [hnew]
        nofun
      · apply respected_of rfl
        rw [hnew]
        nofun
    | refused gateway corr hreq hr =>
      rw [hid gateway] at hreq
      cases hreq
    | pending i e buf he hbuf hp =>
      have hreq := he.fields.2.2
      rw [hid] at hreq
      cases hreq
    | relayed result i htype hresult hfind hr => exact absurd htype (by decide)
    | answered hd resp i htype hresp hhd hfind hr =>
      have hij : j = i := by
        rw [matched_answered htype hresp hfind] at hmatch
        exact (Option.some.inj hmatch).symm
      subst hij
      obtain ⟨huse, -⟩ := openConnFind_some hfind
      obtain ⟨hlt, hintent⟩ := h.requests r j huse
      -- a mode other than Denied is relayed, and nobody requires another
      have hgood : (answered hd ((s.cp r).openConns j) resp).1 ≠ .kDenied →
          ∃ c, consentOf (s.cp r) fd payload = some c ∧
            Agreed hd ((s.cp r).openConns j) c (answered hd ((s.cp r).openConns j) resp).1 ∧
            ((s.cp r).openConns j).initiatorView.intent ≠ .kRequireDirect := by
        intro hmode
        obtain ⟨hacc, hagreed⟩ := answered_agreed hmode
        have hc := consentOf_eq hresp hfind hacc hhd
        refine ⟨_, hc, hagreed, fun hdirect => ?_⟩
        exact hconflict _ hc hdirect (hagreed.initiator hdirect)
      constructor
      · apply h.worked hok hsome hslots
        unfold AllOk
        rw [attempted_drop hr.attempted]
        intro x hx
        rcases List.mem_cons.1 hx with rfl | hx
        · apply msgOk_result
          intro _ hmode
          obtain ⟨c, hc, hagreed, hdirect⟩ := hgood hmode
          rw [hintent, hreqj] at hdirect
          rw [hreqj] at hlt
          exact ⟨hlt, hdirect, c, hc, hagreed.mode, hagreed.view, hagreed.target⟩
        · exact msgOk_mirror (mirrorOf_type hx)
      · apply respected_of rfl
        rw [attempted_drop hr.attempted]
        intro x hx corr hres hmode
        rcases List.mem_cons.1 hx with rfl | hx
        · obtain ⟨hgw, hcorr⟩ :=
            (isResult_openResult _ ((h.slots r).ids j huse) _ _ _ _ _ _).1 hres
          change (answered hd ((s.cp r).openConns j) resp).1 ≠ .kDenied at hmode
          obtain ⟨c, hc, hagreed, hdirect⟩ := hgood hmode
          refine ⟨j, c, huse, hgw.symm, rfl, hcorr.symm, ?_, ?_⟩
          · rw [consentFor, if_pos hreqj.symm]
            exact hc
          · change Respects s r j (answered hd ((s.cp r).openConns j) resp).1 c
            rw [hagreed.mode]
            constructor
            · exact ⟨hd, hhd, hagreed.fleet, hagreed.relay⟩
            · exact hagreed.view
            · exact hagreed.target
            · rw [hpin]
              exact satisfies_relayed.2 hdirect
        · rw [(mirrorOf_noResult hx).isResult] at hres
          cases hres

theorem tagOk_of_msg {cp : ControlPlane} {fd : Fd} {type : FrameType} {payload : Bytes}
    {serial : ℕ} {intents : ℕ → HdIntent}
    (h : MsgOk serial intents type payload tag consent) :
    TagOk cp fd type payload serial intents tag := by
  intro gateway corr hid
  have hopen : type ≠ HdFrameType.kOpenConnection := by
    rintro rfl
    exact absurd h.kind (by decide)
  by_cases hfleet : type = HdFrameType.kFleetOpenConnection
  · subst hfleet
    obtain ⟨hlt, hintent⟩ := h.request rfl
    cases gateway with
    | false => cases hid
    | true =>
      simp only [requestId, if_true] at hid
      obtain ⟨req, hreq, -⟩ := Option.map_eq_some_iff.1 hid
      refine ⟨hlt, ?_⟩
      unfold requestIntent
      rw [if_neg hopen, hreq, Option.map_some, Option.getD_some, hintent req hreq]
  · rw [requestId_none hopen hfleet] at hid
    cases hid

theorem Inv.fewerMsgs (h : Inv s) (k : ℕ) : Inv { s with wire := s.wire.eraseIdx k } :=
  ⟨h.slots, h.hdPeers, h.requests, fun m hm => h.msgs m (List.mem_of_mem_eraseIdx hm)⟩

theorem deliver_step (h : Inv s) {k : ℕ} (hsound : soundAnswer s (.deliver k))
    (hs : step s (.deliver k) = some s') : Inv s' ∧ Respected s s' (.deliver k) := by
  obtain ⟨m, hm, hs⟩ := Option.bind_eq_some_iff.1 hs
  rw [Option.ite_none_right_eq_some, Option.some.injEq] at hs
  obtain ⟨hfd, hs⟩ := hs
  have hmsg := h.msgs m (List.mem_of_getElem? hm)
  have hout := cpProcessFrame_outcome (h.slots m.dest) (h.hdPeers m.dest) hfd m.type m.payload
  rw [← hs]
  clear hs
  revert hout
  generalize cpProcessFrame (s.cp m.dest) m.fd m.type m.payload = cp'
  intro hout
  have htag := @tagOk_of_msg _ _ (s.cp m.dest) m.fd _ _ _ _ hmsg
  have hrest := h.fewerMsgs k
  have hslots := outcome_slots hout htag
  have hok := hout.slotsOk (h.slots m.dest) hfd
  have hsome := hout.hdPeers.trans (h.hdPeers m.dest)
  cases hmatch : matched (s.cp m.dest) m.fd m.type m.payload with
  | none =>
    obtain ⟨hall, hden⟩ := @request_sends _ _ _ _ _ _ _ _ none hout hmatch htag
    exact ⟨hrest.worked hok hsome hslots hall, respected_of_denials rfl hden⟩
  | some j =>
    obtain ⟨hreqj, hpin, hallowed⟩ := hsound m hm j hmatch
    have htype : m.type = HdFrameType.kFleetOpenConnectionResult := by
      have hresp : m.type ≠ HdFrameType.kIncomingConnResponse := by
        intro heq
        have hkind := hmsg.kind
        rw [heq] at hkind
        exact absurd hkind (by decide)
      by_contra hno
      rw [matched, if_neg hresp, if_neg hno] at hmatch
      cases hmatch
    have hid := @requestId_none m.payload m.type (by rw [htype]; decide) (by rw [htype]; decide)
    cases hout with
    | nothing hu hid =>
      have hnew : cp'.attempted.drop (s.cp m.dest).attempted.length = [] := by
        rw [hu.attempted, List.drop_length]
      constructor
      · apply hrest.worked hok hsome hslots
        unfold AllOk
        dsimp only
        rw [hnew]
        nofun
      · apply respected_of rfl
        rw [hnew]
        nofun
    | refused gateway corr hreq hr =>
      rw [hid gateway] at hreq
      cases hreq
    | pending i e buf he hbuf hp =>
      have hreq := he.fields.2.2
      rw [hid] at hreq
      cases hreq
    | answered hd resp i htype' hresp hhd hfind hr =>
      rw [htype] at htype'
      exact absurd htype' (by decide)
    | relayed result i htype' hresult hfind hr =>
      have hij : j = i := by
        rw [matched_relayed htype' hresult hfind] at hmatch
        exact (Option.some.inj hmatch).symm
      subst hij
      obtain ⟨huse, hres⟩ := openConnFind_some hfind
      have hgw : ((s.cp m.dest).openConns j).isGatewayInbound = false := by
        simp only [resultMatches, Bool.and_eq_true, Bool.not_eq_true'] at hres
        exact hres.1.2
      obtain ⟨hlt, hintent⟩ := h.requests m.dest j huse
      have hmode := parse_mode hresult
      constructor
      · apply hrest.worked hok hsome hslots
        unfold AllOk
        dsimp only
        rw [attempted_drop hr.attempted]
        intro x hx
        rcases List.mem_cons.1 hx with rfl | hx
        · apply msgOk_result
          intro hgw'
          rw [hgw] at hgw'
          cases hgw'
        · exact msgOk_mirror (mirrorOf_type hx)
      · apply respected_of rfl
        rw [attempted_drop hr.attempted]
        intro x hx corr hres hden
        rcases List.mem_cons.1 hx with rfl | hx
        · obtain ⟨-, hcorr⟩ :=
            (isResult_openResult _ ((h.slots m.dest).ids j huse) _ _ _ _ _ _).1 hres
          change result.mode ≠ .kDenied at hden
          rw [hmode] at hden
          obtain ⟨-, hdirect, c, hc, hrelayed, hview, htarget⟩ := hmsg.verdict htype hden
          obtain ⟨hd, hhd, hfleet, hrelay⟩ := hallowed hden
          rw [← hreqj, ← hintent] at hdirect
          refine ⟨j, c, huse, hgw, rfl, hcorr.symm, ?_, ?_⟩
          · rw [consentFor, hm, Option.bind_some, if_pos hreqj.symm]
            exact hc
          · change Respects s m.dest j result.mode c
            rw [hmode, hrelayed]
            constructor
            · exact ⟨hd, hhd, hfleet, hrelay⟩
            · exact hview
            · exact htarget
            · rw [hpin]
              exact satisfies_relayed.2 hdirect
        · rw [(mirrorOf_noResult hx).isResult] at hres
          cases hres

theorem scan_step (h : Inv s) (r : ℕ) (hs : step s (.scan r) = some s') :
    Inv s' ∧ Respected s s' (.scan r) := by
  have hswept := scan_swept (h.slots r).fds
  rw [step, Option.some.injEq] at hs
  rw [← hs]
  clear hs
  revert hswept
  generalize scanOpenConnTimeouts (s.cp r) = cp'
  intro hswept
  have hnew := attempted_drop hswept.attempted
  constructor
  · apply h.worked ((h.slots r).swept hswept)
    · rw [hswept.hdPeers]
      exact h.hdPeers r
    · exact slotsTagged_of_same fun i huse => hswept.slot huse
    · unfold AllOk
      rw [hnew]
      intro x hx
      obtain ⟨i, -, rfl⟩ := List.mem_map.1 hx
      exact msgOk_denied _ _ _ _
  · apply respected_of_denials rfl
    unfold OnlyDenials
    rw [hnew]
    intro x hx corr _
    obtain ⟨i, -, rfl⟩ := List.mem_map.1 hx
    rfl

theorem elsewhere_step (h : Inv s) (r : ℕ) (cp : ControlPlane)
    (hs : step s (.elsewhere r cp) = some s') : Inv s' ∧ Respected s s' (.elsewhere r cp) := by
  rw [step, Option.ite_none_right_eq_some, Option.some.injEq] at hs
  obtain ⟨hhd, hs⟩ := hs
  rw [← hs]
  clear hs
  generalize hcp : ({ cp with
    openConns := (s.cp r).openConns
    openConnPerPeer := (s.cp r).openConnPerPeer
    attempted := (s.cp r).attempted } : ControlPlane) = cp'
  have hslots : cp'.openConns = (s.cp r).openConns := by rw [← hcp]
  have hatt : cp'.attempted = (s.cp r).attempted := by rw [← hcp]
  have hsome : cp'.hdPeers.isSome := by
    rw [← hcp]
    exact hhd
  have hself : Function.update s.cp r cp' r = cp' := Function.update_self ..
  have hother : ∀ r', r' ≠ r → Function.update s.cp r cp' r' = s.cp r' :=
    fun r' hne => Function.update_of_ne hne _ _
  constructor
  · constructor
    · intro r'
      dsimp only
      by_cases hne : r' = r
      · rw [hne, hself]
        exact (h.slots r).of_openConns hslots
      · rw [hother r' hne]
        exact h.slots r'
    · intro r'
      dsimp only
      by_cases hne : r' = r
      · rw [hne, hself]
        exact hsome
      · rw [hother r' hne]
        exact h.hdPeers r'
    · intro r' i
      dsimp only
      by_cases hne : r' = r
      · rw [hne, hself, hslots]
        exact h.requests r i
      · rw [hother r' hne]
        exact h.requests r' i
    · exact h.msgs
  · apply respected_of_denials rfl
    unfold OnlyDenials
    rw [hatt, List.drop_length]
    nofun

theorem step_inv (h : Inv s) {op : Op} (hsound : soundAnswer s op) (hs : step s op = some s') :
    Inv s' ∧ Respected s s' op := by
  cases op with
  | frame r fd type payload =>
    have hfd : 0 ≤ fd := by
      by_contra hno
      rw [step, if_neg hno] at hs
      cases hs
    exact frame_step h hfd hsound hs
  | respond r fd n payload =>
    have hfd : 0 ≤ fd := by
      by_contra hno
      rw [step, if_neg hno] at hs
      cases hs
    exact respond_step h hfd hsound hs
  | deliver k => exact deliver_step h hsound hs
  | lose k =>
    rw [step, Option.some.injEq] at hs
    rw [← hs]
    exact ⟨h.fewerMsgs k, respected_of_same rfl⟩
  | scan r => exact scan_step h r hs
  | elsewhere r cp => exact elsewhere_step h r cp hs
  | relink link =>
    rw [step, Option.some.injEq] at hs
    rw [← hs]
    exact ⟨⟨h.slots, h.hdPeers, h.requests, h.msgs⟩, respected_of_same rfl⟩

end

/-! A relay with a peer on fd 6, and a client on fd 5 that asks for it. -/

def start : State := { cp := fun _ => Accounting.gatewayCp }

theorem start_init : Init start := ⟨fun _ _ => rfl, fun _ => rfl, rfl⟩

def acceptance (intent : HdIntent) : Bytes := writeU64 9 ++ [intent, 0, kHdFlagAccept]

def accepts (intent : HdIntent) : Op := .respond 0 6 0 (acceptance intent)

/-- The results of relay 0 in the next step: recipients and modes of those for id 9. -/
def told (s : State) (op : Op) : Option (List (Fd × Bool × HdConnMode)) :=
  (step s op).map fun s' =>
    ((s'.cp 0).attempted.drop (s.cp 0).attempted.length).map fun x =>
      (x.1, isResult false 9 x.2, resultMode x.2)

end Consent

end HyperDerp
