import HyperDerp.ControlPlane.Accounting

/-!
# What open-connection handlers do (`control_plane.cc:961-1056`, `:1058-1525`)

A well-formed request is refused at once or left pending in a slot, a matching answer or
a passed deadline releases the slot, and each of these writes at most one result. The
handlers are taken apart here once, down to the slots and the frames handed to
`WriteFullFrame`.
-/

namespace HyperDerp

/-! ### Result frames -/

def resultType (gateway : Bool) : HdFrameType :=
  if gateway then HdFrameType.kFleetOpenConnectionResult else HdFrameType.kOpenConnectionResult

def openResult (gateway : Bool) (correlationId : ℕ) (mode : HdConnMode) (reason : HdDenyReason)
    (subReason : Byte) (relayPath : List ℕ) : Bytes :=
  hdWriteFrameHeader (resultType gateway) (kHdOpenResultMinSize + relayPath.length * 2) ++
    hdOpenResultPayload correlationId mode reason subReason relayPath []

def isResult (gateway : Bool) (correlationId : ℕ) (frame : Bytes) : Bool :=
  decide (hdReadFrameType frame = resultType gateway) && decide (readU64 frame 4 = correlationId)

def NoResult (frame : Bytes) : Prop := ∀ gateway, hdReadFrameType frame ≠ resultType gateway

theorem isResult_openResult (gateway : Bool) {corr : ℕ} (hcorr : corr < 2 ^ 64) (mode : HdConnMode)
    (reason : HdDenyReason) (sub : Byte) (path : List ℕ) (gateway' : Bool) (corr' : ℕ) :
    isResult gateway' corr' (openResult gateway corr mode reason sub path) = true ↔
      gateway' = gateway ∧ corr' = corr := by
  have htype : hdReadFrameType (openResult gateway corr mode reason sub path) =
      resultType gateway := rfl
  have hid : readU64 (openResult gateway corr mode reason sub path) 4 = corr := by
    unfold readU64 openResult hdOpenResultPayload
    rw [List.drop_append_of_le_length (by simp [kHdFrameHeaderSize]),
      List.drop_of_length_le (by simp [kHdFrameHeaderSize]), List.nil_append]
    simp only [List.append_assoc]
    rw [List.take_append_of_le_length (by simp [writeU64]),
      List.take_of_length_le (by simp [writeU64]), writeU64]
    exact BigEndian.val_bytes_of_lt (by omega)
  unfold isResult
  rw [htype, hid, Bool.and_eq_true, decide_eq_true_eq, decide_eq_true_eq]
  cases gateway <;> cases gateway' <;> simp [resultType, HdFrameType.kOpenConnectionResult,
    HdFrameType.kFleetOpenConnectionResult, eq_comm]

variable {frame : Bytes}

theorem NoResult.isResult (h : NoResult frame) (gateway : Bool) (corr : ℕ) :
    HyperDerp.isResult gateway corr frame = false := by
  unfold HyperDerp.isResult
  rw [decide_eq_false (h gateway), Bool.false_and]

theorem noResult_of_type {type : HdFrameType} (h : hdReadFrameType frame = type)
    (hopen : type ≠ HdFrameType.kOpenConnectionResult)
    (hfleet : type ≠ HdFrameType.kFleetOpenConnectionResult) : NoResult frame := by
  intro gateway
  rw [h]
  cases gateway with
  | false => exact hopen
  | true => exact hfleet

theorem build_openResult (size corr : ℕ) (mode : HdConnMode) (reason : HdDenyReason) (sub : Byte)
    {path : List ℕ} (hsize : 64 ≤ size) (hpath : path.length ≤ 1) (gateway : Bool) :
    hdBuildOpenResult (resultType gateway) size corr mode reason sub path [] =
      some (openResult gateway corr mode reason sub path) := by
  have hmax : ¬kHdMaxRelayPath < path.length := by
    simp only [kHdMaxRelayPath]
    omega
  have hfits : ¬size < kHdFrameHeaderSize + (kHdOpenResultMinSize + path.length * 2 + 0) := by
    simp only [kHdFrameHeaderSize, kHdOpenResultMinSize]
    omega
  unfold hdBuildOpenResult
  dsimp only [List.length_nil]
  rw [if_neg hmax, if_neg (Nat.not_lt_zero _), if_neg hfits]
  rfl

/-! ### Attempted writes -/

section

variable (cp : ControlPlane)

theorem writeFullFrame_attempted (fd : Fd) (buf : Bytes) :
    (writeFullFrame cp fd buf).2.attempted = cp.attempted ++ [(fd, buf)] := by
  unfold writeFullFrame
  split <;> rfl

theorem writeFullFrame_hdPeers (fd : Fd) (buf : Bytes) :
    (writeFullFrame cp fd buf).2.hdPeers = cp.hdPeers := by
  unfold writeFullFrame
  split <;> rfl

theorem countOpenConn_attempted (fd : Fd) (d : ℤ) :
    (cp.countOpenConn fd d).attempted = cp.attempted := by
  unfold ControlPlane.countOpenConn
  split <;> rfl

theorem countOpenConn_hdPeers (fd : Fd) (d : ℤ) :
    (cp.countOpenConn fd d).hdPeers = cp.hdPeers := by
  unfold ControlPlane.countOpenConn
  split <;> rfl

theorem openConnSlotFree_attempted (i : OpenSlot) :
    (openConnSlotFree cp i).attempted = cp.attempted := by
  unfold openConnSlotFree
  dsimp only
  split
  · exact countOpenConn_attempted cp _ _
  · rfl

theorem openConnSlotFree_hdPeers (i : OpenSlot) :
    (openConnSlotFree cp i).hdPeers = cp.hdPeers := by
  unfold openConnSlotFree
  dsimp only
  split
  · exact countOpenConn_hdPeers cp _ _
  · rfl

/-! ### Releasing a slot -/

def resultPath (e : OpenConnEntry) : List ℕ :=
  if e.targetRelayId ≠ 0 ∧ e.isGatewayInbound = false then [e.targetRelayId] else []

def resultOf (e : OpenConnEntry) (mode : HdConnMode) (reason : HdDenyReason) (sub : Byte) : Bytes :=
  openResult e.isGatewayInbound e.correlationId mode reason sub (resultPath e)

def mirrorOf (e : OpenConnEntry) (mode : HdConnMode) (reason : HdDenyReason) (sub : Byte) :
    List (Fd × Bytes) :=
  if mode ≠ .kDenied ∧ 0 ≤ e.targetFd ∧ e.targetRelayId = 0 ∧ e.isGatewayInbound = false then
    [(e.targetFd, hdBuildIncomingConnResult e.correlationId mode reason sub)]
  else []

theorem build_resultOf (e : OpenConnEntry) (mode : HdConnMode) (reason : HdDenyReason)
    (sub : Byte) :
    (if e.isGatewayInbound then
        hdBuildFleetOpenConnectionResult 256 e.correlationId mode reason sub [] []
      else hdBuildOpenConnectionResult 256 e.correlationId mode reason sub (resultPath e) []) =
      some (resultOf e mode reason sub) := by
  cases hgw : e.isGatewayInbound with
  | true =>
    have hpath : resultPath e = [] := by simp [resultPath, hgw]
    rw [resultOf, hgw, hpath, if_pos rfl]
    exact build_openResult 256 _ _ _ _ (by omega) (by simp) true
  | false =>
    have hpath : (resultPath e).length ≤ 1 := by
      unfold resultPath
      split <;> simp
    rw [resultOf, hgw, if_neg nofun]
    exact build_openResult 256 _ _ _ _ (by omega) hpath false

theorem mirrorOf_type {e : OpenConnEntry} {mode : HdConnMode} {reason : HdDenyReason} {sub : Byte}
    {x : Fd × Bytes} (hx : x ∈ mirrorOf e mode reason sub) :
    hdReadFrameType x.2 = HdFrameType.kIncomingConnResult := by
  unfold mirrorOf at hx
  split at hx
  · rw [List.mem_singleton.1 hx]
    rfl
  · cases hx

theorem mirrorOf_noResult {e : OpenConnEntry} {mode : HdConnMode} {reason : HdDenyReason}
    {sub : Byte} {x : Fd × Bytes} (hx : x ∈ mirrorOf e mode reason sub) : NoResult x.2 :=
  noResult_of_type (mirrorOf_type hx) (by decide) (by decide)

structure Released (cp : ControlPlane) (i : OpenSlot) (mode : HdConnMode) (reason : HdDenyReason)
    (sub : Byte) (cp' : ControlPlane) : Prop where
  openConns : cp'.openConns = Function.update cp.openConns i {}
  attempted : cp'.attempted = cp.attempted ++
    ((cp.openConns i).initiatorFd, resultOf (cp.openConns i) mode reason sub) ::
      mirrorOf (cp.openConns i) mode reason sub
  hdPeers : cp'.hdPeers.isSome = cp.hdPeers.isSome

theorem cleanup_released (i : OpenSlot) (mode : HdConnMode) (reason : HdDenyReason) (sub : Byte)
    (hfd : 0 ≤ (cp.openConns i).initiatorFd) :
    Released cp i mode reason sub (sendOpenResultAndCleanup cp i mode reason sub) ∧
      (sendOpenResultAndCleanup cp i mode reason sub).hdPeers = cp.hdPeers := by
  have hbuilt := build_resultOf (cp.openConns i) mode reason sub
  unfold resultPath at hbuilt
  unfold sendOpenResultAndCleanup
  dsimp only
  rw [hbuilt, if_pos hfd, writeBuilt]
  -- first the initiator, then the mirror, then the slot
  have hc1 := writeFullFrame_openConns cp (cp.openConns i).initiatorFd
    (resultOf (cp.openConns i) mode reason sub)
  have ha1 := writeFullFrame_attempted cp (cp.openConns i).initiatorFd
    (resultOf (cp.openConns i) mode reason sub)
  have hp1 := writeFullFrame_hdPeers cp (cp.openConns i).initiatorFd
    (resultOf (cp.openConns i) mode reason sub)
  revert hc1 ha1 hp1
  generalize (writeFullFrame cp (cp.openConns i).initiatorFd _).2 = cp1
  intro hc1 ha1 hp1
  split
  · next hmirror =>
    have hp2 : (openConnSlotFree (writeFullFrame cp1 (cp.openConns i).targetFd
        (hdBuildIncomingConnResult (cp.openConns i).correlationId mode reason sub)).2 i).hdPeers =
        cp.hdPeers := by
      rw [openConnSlotFree_hdPeers, writeFullFrame_hdPeers, hp1]
    constructor
    · constructor
      · rw [openConnSlotFree_openConns, writeFullFrame_openConns, hc1]
      · rw [openConnSlotFree_attempted, writeFullFrame_attempted, ha1, mirrorOf, if_pos hmirror,
          List.append_assoc]
        rfl
      · rw [hp2]
    · exact hp2
  · next hmirror =>
    have hp2 : (openConnSlotFree cp1 i).hdPeers = cp.hdPeers := by
      rw [openConnSlotFree_hdPeers, hp1]
    constructor
    · constructor
      · rw [openConnSlotFree_openConns, hc1]
      · rw [openConnSlotFree_attempted, ha1, mirrorOf, if_neg hmirror]
      · rw [hp2]
    · exact hp2

end

/-! ### Requests -/

def fleetRequest (payload : Bytes) : Option (HdFleetOpenConnection × HdOpenConnection) :=
  (hdParseFleetOpenConnection payload).bind fun env =>
    (hdParseOpenConnection env.innerConn).map fun inner => (env, inner)

/-- A request passed on to its target or to the gateway, with this intent. -/
structure Forwards (intent : HdIntent) (frame : Bytes) : Prop where
  type : hdReadFrameType frame = HdFrameType.kIncomingConnection ∨
    hdReadFrameType frame = HdFrameType.kFleetOpenConnection
  inner : hdReadFrameType frame = HdFrameType.kFleetOpenConnection →
    ∀ r, fleetRequest (frame.drop kHdFrameHeaderSize) = some r → r.2.intent = intent

theorem Forwards.noResult {intent : HdIntent} (h : Forwards intent frame) :
    NoResult frame := by
  rcases h.type with htype | htype
  · exact noResult_of_type htype (by decide) (by decide)
  · exact noResult_of_type htype (by decide) (by decide)

theorem forwards_incomingConnection (key : Key) (peerId : ℕ) (intent : HdIntent) (flags : Byte)
    (corr : ℕ) : Forwards intent (hdBuildIncomingConnection key peerId intent flags corr) := by
  have htype : hdReadFrameType (hdBuildIncomingConnection key peerId intent flags corr) =
      HdFrameType.kIncomingConnection := rfl
  constructor
  · exact .inl htype
  · intro hfleet
    rw [htype] at hfleet
    exact absurd hfleet (by decide)

theorem fleetRequest_build {size relayId : ℕ} {fleetId : Bytes} {key : Key} {inner buf : Bytes}
    (h : hdBuildFleetOpenConnection size relayId fleetId key inner = some buf) :
    hdReadFrameType buf = HdFrameType.kFleetOpenConnection ∧
      ∀ r, fleetRequest (buf.drop kHdFrameHeaderSize) = some r →
        hdParseOpenConnection inner = some r.2 := by
  unfold hdBuildFleetOpenConnection at h
  dsimp only at h
  split at h
  · cases h
  next hlen =>
  split at h
  · cases h
  next hinner =>
  split at h
  · cases h
  cases h
  refine ⟨rfl, fun r hr => ?_⟩
  rw [Nat.not_lt] at hlen
  rw [not_not] at hinner
  simp only [kHdMaxFleetIdLen] at hlen
  simp only [List.append_assoc] at hr
  rw [List.drop_append_of_le_length (by simp), List.drop_of_length_le (by simp),
    List.nil_append] at hr
  obtain ⟨env, henv, hparse⟩ := Option.bind_eq_some_iff.1 hr
  obtain ⟨req, hreq, rfl⟩ := Option.map_eq_some_iff.1 hparse
  -- the length field tells where the request starts
  have hfid : readU16 (writeU16 relayId ++ (writeU16 fleetId.length ++ (fleetId ++
      (key.data ++ inner)))) 2 = fleetId.length := by
    unfold readU16
    rw [List.drop_append_of_le_length (by simp [writeU16]),
      List.drop_of_length_le (by simp [writeU16]), List.nil_append,
      List.take_append_of_le_length (by simp [writeU16]),
      List.take_of_length_le (by simp [writeU16]), writeU16]
    exact BigEndian.val_bytes_of_lt (by omega)
  unfold hdParseFleetOpenConnection at henv
  split at henv
  · cases henv
  dsimp only at henv
  rw [hfid] at henv
  split at henv
  · cases henv
  split at henv
  · cases henv
  cases henv
  have hstart : (writeU16 relayId ++ (writeU16 fleetId.length ++ (fleetId ++
      (key.data ++ inner)))).drop (4 + fleetId.length + kKeySize) = inner := by
    have hpre : (writeU16 relayId ++ (writeU16 fleetId.length ++ (fleetId ++ key.data))).length =
        4 + fleetId.length + kKeySize := by
      simp only [List.length_append, writeU16, BigEndian.length_bytes, key.size]
      omega
    have hsplit : writeU16 relayId ++ (writeU16 fleetId.length ++ (fleetId ++
        (key.data ++ inner))) =
        (writeU16 relayId ++ (writeU16 fleetId.length ++ (fleetId ++ key.data))) ++ inner := by
      simp only [List.append_assoc]
    rw [hsplit, ← hpre, List.drop_left]
  dsimp only at hreq
  rw [hstart, List.take_of_length_le (by omega)] at hreq
  exact hreq

def SlotsClean (cp : ControlPlane) : Prop :=
  ∀ i, (cp.openConns i).inUse = false → cp.openConns i = {}

structure Refused (gateway : Bool) (cp : ControlPlane) (fd : Fd) (corr : ℕ) (intent : HdIntent)
    (cp' : ControlPlane) : Prop where
  openConns : cp'.openConns = cp.openConns
  hdPeers : cp'.hdPeers = cp.hdPeers
  attempted : ∃ reqs reason path, (∀ x ∈ reqs, Forwards intent x.2) ∧ cp'.attempted =
    cp.attempted ++ reqs ++ [(fd, openResult gateway corr .kDenied reason 0 path)]

structure LeftPending (cp : ControlPlane) (i : OpenSlot) (e : OpenConnEntry) (buf : Bytes)
    (cp' : ControlPlane) : Prop where
  free : cp.openConns i = {}
  openConns : cp'.openConns = Function.update cp.openConns i e
  hdPeers : cp'.hdPeers = cp.hdPeers
  attempted : cp'.attempted = cp.attempted ++ [(e.targetFd, buf)]

def remoteEntry (cp : ControlPlane) (fd : Fd) (req : HdOpenConnection) (cv : HdClientView)
    (gatewayFd : Fd) : OpenConnEntry :=
  { inUse := true
    correlationId := req.correlationId
    initiatorFd := fd
    targetFd := gatewayFd
    initiatorKey := initiatorKey cp fd
    initiatorView := cv
    targetRelayId := req.targetRelayId
    deadlineNs := cp.now + kCpOpenConnTimeoutNs }

def localEntry (cp : ControlPlane) (fd : Fd) (req : HdOpenConnection) (cv : HdClientView)
    (target : HdPeer) : OpenConnEntry :=
  { inUse := true
    correlationId := req.correlationId
    initiatorFd := fd
    targetFd := target.fd
    initiatorKey := initiatorKey cp fd
    targetKey := target.key
    initiatorView := cv
    targetRelayId := req.targetRelayId
    deadlineNs := cp.now + kCpOpenConnTimeoutNs }

def gatewayEntry (cp : ControlPlane) (fd : Fd) (env : HdFleetOpenConnection)
    (inner : HdOpenConnection) (target : HdPeer) : OpenConnEntry :=
  { inUse := true
    correlationId := inner.correlationId
    initiatorFd := fd
    targetFd := target.fd
    targetKey := target.key
    initiatorView := hdClientView inner.intent inner.flags
    isGatewayInbound := true
    originRelayId := env.originRelayId
    deadlineNs := cp.now + kCpOpenConnTimeoutNs }

structure Taken (cp : ControlPlane) (i : OpenSlot) (e : OpenConnEntry) (cp1 : ControlPlane) :
    Prop where
  free : cp.openConns i = {}
  openConns : cp1.openConns = Function.update cp.openConns i e
  hdPeers : cp1.hdPeers = cp.hdPeers
  attempted : cp1.attempted = cp.attempted

section

variable {cp cp1 : ControlPlane} {i : OpenSlot} {e : OpenConnEntry}

theorem taken_of_free (hfree : cp.openConns i = {}) (fd : Fd) :
    Taken cp i e ((cp.setOpenConn i e).countOpenConn fd 1) where
  free := hfree
  openConns := countOpenConn_openConns _ _ _
  hdPeers := countOpenConn_hdPeers _ _ _
  attempted := countOpenConn_attempted _ _ _

theorem denied_refused (gateway : Bool) (cp : ControlPlane) (fd : Fd) (corr : ℕ)
    (reason : HdDenyReason) (intent : HdIntent) :
    Refused gateway cp fd corr intent
      (writeBuilt cp fd
        (hdBuildOpenResult (resultType gateway) 64 corr .kDenied reason 0 [] [])) := by
  have hpath : ([] : List ℕ).length ≤ 1 := Nat.zero_le 1
  rw [build_openResult 64 corr _ _ _ (le_refl 64) hpath gateway, writeBuilt]
  constructor
  · exact writeFullFrame_openConns cp fd _
  · exact writeFullFrame_hdPeers cp fd _
  · refine ⟨[], reason, [], fun x hx => absurd hx List.not_mem_nil, ?_⟩
    rw [writeFullFrame_attempted, List.append_nil]

theorem denyOpen_refused (cp : ControlPlane) (fd : Fd) (corr : ℕ) (reason : HdDenyReason)
    (intent : HdIntent) : Refused false cp fd corr intent (denyOpen cp fd corr reason) :=
  denied_refused false cp fd corr reason intent

theorem denyFleet_refused (cp : ControlPlane) (fd : Fd) (corr : ℕ) (reason : HdDenyReason)
    (intent : HdIntent) : Refused true cp fd corr intent (denyFleet cp fd corr reason) :=
  denied_refused true cp fd corr reason intent

variable {req : HdOpenConnection} {fd : Fd} {payload : Bytes}
  {hd : HdPeerRegistry} {type : FrameType}

theorem Taken.refused (h : Taken cp i e cp1) (hfd : 0 ≤ e.initiatorFd) {cp2 : ControlPlane}
    {reqs : List (Fd × Bytes)} {intent : HdIntent} (hreqs : ∀ x ∈ reqs, Forwards intent x.2)
    (hslots : cp2.openConns = cp1.openConns) (hpeers : cp2.hdPeers = cp1.hdPeers)
    (hatt : cp2.attempted = cp1.attempted ++ reqs) (reason : HdDenyReason) :
    Refused e.isGatewayInbound cp e.initiatorFd e.correlationId intent
      (sendOpenResultAndCleanup cp2 i .kDenied reason 0) := by
  have hentry : cp2.openConns i = e := by
    rw [hslots, h.openConns, Function.update_self]
  have hfd2 : 0 ≤ (cp2.openConns i).initiatorFd := by rw [hentry]; exact hfd
  obtain ⟨hrel, hpeers2⟩ := cleanup_released cp2 i .kDenied reason 0 hfd2
  constructor
  · rw [hrel.openConns, hslots, h.openConns, Function.update_idem, ← h.free,
      Function.update_eq_self]
  · rw [hpeers2, hpeers, h.hdPeers]
  · refine ⟨reqs, reason, resultPath e, hreqs, ?_⟩
    have hmirror : mirrorOf e .kDenied reason 0 = [] := if_neg fun hd => hd.1 rfl
    rw [hrel.attempted, hatt, h.attempted, hentry, hmirror]
    rfl

theorem Taken.writeOrClean (h : Taken cp i e cp1) (hfd : 0 ≤ e.initiatorFd) {buf : Bytes}
    {intent : HdIntent} (hbuf : Forwards intent buf) {cp' : ControlPlane}
    (hcp : (match writeFullFrame cp1 e.targetFd buf with
      | (true, cp2) => cp2
      | (false, cp2) => sendOpenResultAndCleanup cp2 i .kDenied .kPeerUnreachable 0) = cp') :
    Refused e.isGatewayInbound cp e.initiatorFd e.correlationId intent cp' ∨
      LeftPending cp i e buf cp' := by
  have hc := writeFullFrame_openConns cp1 e.targetFd buf
  have hp := writeFullFrame_hdPeers cp1 e.targetFd buf
  have ha := writeFullFrame_attempted cp1 e.targetFd buf
  subst hcp
  revert hc hp ha
  rcases writeFullFrame cp1 e.targetFd buf with ⟨ok, cp2⟩
  intro hc hp ha
  cases ok with
  | true =>
    right
    constructor
    · exact h.free
    · exact hc.trans h.openConns
    · exact hp.trans h.hdPeers
    · exact ha.trans (by rw [h.attempted])
  | false =>
    left
    apply h.refused hfd _ hc hp ha
    intro x hx
    rw [List.mem_singleton] at hx
    rw [hx]
    exact hbuf

def GatewayOf (cp : ControlPlane) (relayId : ℕ) (gatewayFd : Fd) : Prop :=
  0 ≤ gatewayFd ∧ ∃ rt r, cp.relayTable = some rt ∧ relayTableLookup rt relayId = some r ∧
    r.fd = gatewayFd

theorem openConnectionPayload_intent {peerId relayId corr : ℕ} {intent : HdIntent}
    {flags : Byte}
    (h : hdParseOpenConnection (hdOpenConnectionPayload peerId relayId intent flags corr) =
      some req) : req.intent = intent := by
  unfold hdParseOpenConnection at h
  split at h
  · cases h
  · cases h
    rfl

theorem openRemote_cases (hclean : SlotsClean cp) (hd : HdPeerRegistry) (hfd : 0 ≤ fd)
    (req : HdOpenConnection) (cv : HdClientView) :
    Refused false cp fd req.correlationId cv.intent (openRemote cp hd fd req cv) ∨
      ∃ i gatewayFd buf, GatewayOf cp req.targetRelayId gatewayFd ∧ Forwards cv.intent buf ∧
        LeftPending cp i (remoteEntry cp fd req cv gatewayFd) buf (openRemote cp hd fd req cv) := by
  generalize hcp : openRemote cp hd fd req cv = cp'
  unfold openRemote at hcp
  split at hcp
  · left
    rw [← hcp]
    exact denyOpen_refused ..
  next rt hrt =>
  dsimp only at hcp
  generalize hlink : ((relayTableLookup rt req.targetRelayId).map RelayEntry.fd).getD (-1) =
    gatewayFd at hcp
  split at hcp
  · left
    rw [← hcp]
    exact denyOpen_refused ..
  next hgw =>
  split at hcp
  · left
    rw [← hcp]
    exact denyOpen_refused ..
  next i hi =>
  have hfree := hclean i (openConnSlotAlloc_some cp hi)
  have htaken := taken_of_free (e := remoteEntry cp fd req cv gatewayFd) hfree fd
  rw [hfree] at hcp
  split at hcp
  · left
    rw [← hcp]
    have hnone : ∀ x ∈ ([] : List (Fd × Bytes)), Forwards cv.intent x.2 := nofun
    exact htaken.refused hfd hnone rfl rfl (List.append_nil _).symm _
  · next buf hbuf =>
    have hforw : Forwards cv.intent buf := by
      obtain ⟨htype, hreq⟩ := fleetRequest_build hbuf
      refine ⟨.inr htype, fun _ r hr => ?_⟩
      exact openConnectionPayload_intent (hreq r hr)
    rcases htaken.writeOrClean hfd hforw hcp with h | h
    · exact .inl h
    · rw [not_lt] at hgw
      have hlink : GatewayOf cp req.targetRelayId gatewayFd := by
        cases hl : relayTableLookup rt req.targetRelayId with
        | none =>
          rw [hl, Option.map_none, Option.getD_none] at hlink
          rw [← hlink] at hgw
          exact absurd hgw (by decide)
        | some r =>
          rw [hl, Option.map_some, Option.getD_some] at hlink
          exact ⟨hgw, rt, r, hrt, hl, hlink⟩
      exact .inr ⟨i, gatewayFd, buf, hlink, hforw, h⟩

theorem openLocal_cases (hclean : SlotsClean cp) (hd : HdPeerRegistry) (hfd : 0 ≤ fd)
    (req : HdOpenConnection) (cv : HdClientView) :
    Refused false cp fd req.correlationId cv.intent (openLocal cp hd fd req cv) ∨
      ∃ i target peerId, localTarget hd req.targetPeerId = some target ∧
        LeftPending cp i (localEntry cp fd req cv target)
          (hdBuildIncomingConnection (initiatorKey cp fd) peerId cv.intent req.flags
            req.correlationId) (openLocal cp hd fd req cv) := by
  generalize hcp : openLocal cp hd fd req cv = cp'
  unfold openLocal at hcp
  split at hcp
  · left
    have hdeny := denyOpen_refused cp fd req.correlationId .kPeerUnreachable cv.intent
    rw [← hcp]
    exact ⟨hdeny.openConns, hdeny.hdPeers, hdeny.attempted⟩
  next target htarget =>
  split at hcp
  · left
    rw [← hcp]
    exact denyOpen_refused ..
  next i hi =>
  have hfree := hclean i (openConnSlotAlloc_some cp hi)
  have htaken := taken_of_free (e := localEntry cp fd req cv target) hfree fd
  rw [hfree] at hcp
  rcases htaken.writeOrClean hfd (forwards_incomingConnection _ _ _ _ _) hcp with h | h
  · exact .inl h
  · exact .inr ⟨i, target, _, htarget, h⟩

def OpenEntry (cp : ControlPlane) (hd : HdPeerRegistry) (fd : Fd) (req : HdOpenConnection)
    (e : OpenConnEntry) : Prop :=
  let cv := openClientView hd (initiatorKey cp fd) req
  (req.targetRelayId ≠ 0 ∧ ∃ gatewayFd, GatewayOf cp req.targetRelayId gatewayFd ∧
      e = remoteEntry cp fd req cv gatewayFd) ∨
    (req.targetRelayId = 0 ∧ ∃ target, localTarget hd req.targetPeerId = some target ∧
      e = localEntry cp fd req cv target)

theorem openConnection_cases (hclean : SlotsClean cp) (hfd : 0 ≤ fd)
    (hreq : hdParseOpenConnection payload = some req) (hhd : cp.hdPeers = some hd) :
    Refused false cp fd req.correlationId (openClientView hd (initiatorKey cp fd) req).intent
        (cpHandleOpenConnection cp fd payload) ∨
      ∃ i e buf, OpenEntry cp hd fd req e ∧
        Forwards (openClientView hd (initiatorKey cp fd) req).intent buf ∧
        LeftPending cp i e buf (cpHandleOpenConnection cp fd payload) := by
  unfold cpHandleOpenConnection
  rw [hreq]
  dsimp only
  rw [hhd]
  dsimp only
  split
  · exact .inl (denyOpen_refused ..)
  split
  · next hremote =>
    rcases openRemote_cases hclean hd hfd req (openClientView hd (initiatorKey cp fd) req) with
      h | ⟨i, gatewayFd, buf, hgw, hbuf, h⟩
    · exact .inl h
    · exact .inr ⟨i, _, buf, .inl ⟨hremote, gatewayFd, hgw, rfl⟩, hbuf, h⟩
  · next hlocal =>
    rw [not_not] at hlocal
    rcases openLocal_cases hclean hd hfd req (openClientView hd (initiatorKey cp fd) req) with
      h | ⟨i, target, peerId, htarget, h⟩
    · exact .inl h
    · exact .inr ⟨i, _, _, .inr ⟨hlocal, target, htarget, rfl⟩,
        forwards_incomingConnection _ _ _ _ _, h⟩

theorem openConnection_ignored (hreq : hdParseOpenConnection payload = none) :
    cpHandleOpenConnection cp fd payload = cp := by
  unfold cpHandleOpenConnection
  rw [hreq]

theorem fleetOpenConnection_cases (hclean : SlotsClean cp) (hfd : 0 ≤ fd)
    {env : HdFleetOpenConnection} {inner : HdOpenConnection}
    (hreq : fleetRequest payload = some (env, inner)) (hhd : cp.hdPeers = some hd) :
    Refused true cp fd inner.correlationId inner.intent
        (cpHandleFleetOpenConnection cp fd payload) ∨
      ∃ i target, localTarget hd inner.targetPeerId = some target ∧
        LeftPending cp i (gatewayEntry cp fd env inner target)
          (hdBuildIncomingConnection zeroKey target.peerId inner.intent inner.flags
            inner.correlationId) (cpHandleFleetOpenConnection cp fd payload) := by
  obtain ⟨env', henv, hinner⟩ := Option.bind_eq_some_iff.1 hreq
  obtain ⟨inner', hinner, hpair⟩ := Option.map_eq_some_iff.1 hinner
  cases hpair
  generalize hcp : cpHandleFleetOpenConnection cp fd payload = cp'
  unfold cpHandleFleetOpenConnection at hcp
  rw [henv] at hcp
  dsimp only at hcp
  rw [hhd] at hcp
  dsimp only at hcp
  rw [hinner] at hcp
  dsimp only at hcp
  split at hcp
  · left
    rw [← hcp]
    exact denyFleet_refused ..
  next target htarget =>
  split at hcp
  · left
    rw [← hcp]
    exact denyFleet_refused ..
  split at hcp
  · left
    rw [← hcp]
    exact denyFleet_refused ..
  next i hi =>
  have hfree := hclean i (openConnSlotAlloc_some cp hi)
  have htaken : Taken cp i (gatewayEntry cp fd env inner target)
      (cp.setOpenConn i (gatewayEntry cp fd env inner target)) :=
    ⟨hfree, rfl, rfl, rfl⟩
  rw [hfree] at hcp
  rcases htaken.writeOrClean hfd (forwards_incomingConnection _ _ _ _ _) hcp with h | h
  · exact .inl h
  · exact .inr ⟨i, target, htarget, h⟩

theorem fleetOpenConnection_ignored (hreq : fleetRequest payload = none) :
    cpHandleFleetOpenConnection cp fd payload = cp := by
  unfold cpHandleFleetOpenConnection
  split
  · rfl
  next env henv =>
  split
  · rfl
  split
  · rfl
  next inner hinner =>
  unfold fleetRequest at hreq
  rw [henv, Option.bind_some, hinner] at hreq
  cases hreq

/-! ### Answers -/

theorem openConnFind_some {p : OpenConnEntry → Bool} {i : OpenSlot}
    (h : openConnFind cp p = some i) :
    (cp.openConns i).inUse = true ∧ p (cp.openConns i) = true := by
  have := List.find?_some h
  simpa only [Bool.and_eq_true] using this

def answerDecision (hd : HdPeerRegistry) (e : OpenConnEntry) (resp : HdIncomingConnResponse) :
    HdDecision × HdPeerRegistry :=
  let bPolicy := (hdPeersLookupPolicy hd e.targetKey).getD {}
  let peerView := hdBuildPeerView bPolicy (hdApplyPeerPolicyIntent bPolicy resp.intent)
  capDirect hd (hdResolve (hdBuildFleetView hd.fleetPolicy) {} (hdBuildRelayView hd.relayPolicy)
    peerView e.initiatorView false e.targetRelayId)

/-- The decision that a target's answer releases its slot with. -/
def answered (hd : HdPeerRegistry) (e : OpenConnEntry) (resp : HdIncomingConnResponse) :
    HdConnMode × HdDenyReason × Byte :=
  if hasFlag resp.accept kHdFlagAccept then
    let dec := (answerDecision hd e resp).1
    (dec.mode, dec.denyReason, dec.subReason)
  else (.kDenied, .kPolicyForbids, 0)

def responseMatches (resp : HdIncomingConnResponse) (fd : Fd) (e : OpenConnEntry) : Bool :=
  decide (e.correlationId = resp.correlationId) && decide (e.targetFd = fd)

theorem incomingConnResponse_cases {resp : HdIncomingConnResponse}
    (hresp : hdParseIncomingConnResponse payload = some resp) (hhd : cp.hdPeers = some hd)
    (hfds : ∀ i, (cp.openConns i).inUse = true → 0 ≤ (cp.openConns i).initiatorFd) :
    (openConnFind cp (responseMatches resp fd) = none ∧
        cpHandleIncomingConnResponse cp fd payload = cp) ∨
      ∃ i, openConnFind cp (responseMatches resp fd) = some i ∧
        Released cp i (answered hd (cp.openConns i) resp).1
          (answered hd (cp.openConns i) resp).2.1 (answered hd (cp.openConns i) resp).2.2
          (cpHandleIncomingConnResponse cp fd payload) := by
  unfold cpHandleIncomingConnResponse
  rw [hresp]
  dsimp only
  cases hfind : openConnFind cp (responseMatches resp fd) with
  | none =>
    refine .inl ⟨rfl, ?_⟩
    split
    · rfl
    · next i hi => cases hi.symm.trans hfind
  | some i =>
    have hfd := hfds i (openConnFind_some hfind).1
    refine .inr ⟨i, rfl, ?_⟩
    split
    · next hnone => cases hnone.symm.trans hfind
    next j hj =>
    cases hj.symm.trans hfind
    unfold answered
    cases hacc : hasFlag resp.accept kHdFlagAccept with
    | false => exact (cleanup_released cp i _ _ _ hfd).1
    | true =>
      rw [hhd]
      have hrel := (cleanup_released { cp with
        hdPeers := some (answerDecision hd (cp.openConns i) resp).2
        audit := cp.audit ++ [((cp.openConns i).initiatorKey, (cp.openConns i).targetKey,
          (cp.openConns i).initiatorView, (answerDecision hd (cp.openConns i) resp).1)] } i
        (answerDecision hd (cp.openConns i) resp).1.mode
        (answerDecision hd (cp.openConns i) resp).1.denyReason
        (answerDecision hd (cp.openConns i) resp).1.subReason hfd).1
      constructor
      · exact hrel.openConns
      · exact hrel.attempted
      · rw [hhd]
        exact hrel.hdPeers

def resultMatches (result : HdOpenConnectionResult) (fd : Fd) (e : OpenConnEntry) : Bool :=
  decide (e.correlationId = result.correlationId) && decide (e.targetFd = fd) &&
    !e.isGatewayInbound && decide (e.targetRelayId ≠ 0)

theorem fleetResult_cases {result : HdOpenConnectionResult}
    (hresult : hdParseOpenConnectionResult payload = some result)
    (hfds : ∀ i, (cp.openConns i).inUse = true → 0 ≤ (cp.openConns i).initiatorFd) :
    (openConnFind cp (resultMatches result fd) = none ∧
        cpHandleFleetOpenConnectionResult cp fd payload = cp) ∨
      ∃ i, openConnFind cp (resultMatches result fd) = some i ∧
        Released cp i result.mode result.denyReason result.subReason
          (cpHandleFleetOpenConnectionResult cp fd payload) := by
  unfold cpHandleFleetOpenConnectionResult
  rw [hresult]
  dsimp only
  cases hfind : openConnFind cp (resultMatches result fd) with
  | none =>
    refine .inl ⟨rfl, ?_⟩
    split
    · rfl
    · next i hi => cases hi.symm.trans hfind
  | some i =>
    refine .inr ⟨i, rfl, ?_⟩
    split
    · next hnone => cases hnone.symm.trans hfind
    · next j hj =>
      cases hj.symm.trans hfind
      exact (cleanup_released cp i _ _ _ (hfds i (openConnFind_some hfind).1)).1

/-! ### The timer -/

def expired (now : ℕ) (e : OpenConnEntry) : Bool := e.inUse && decide (e.deadlineNs ≤ now)

def timeoutOf (e : OpenConnEntry) : Fd × Bytes :=
  (e.initiatorFd, resultOf e .kDenied .kTargetUnresponsive 0)

def scanSlot (now : ℕ) (cp : ControlPlane) (i : OpenSlot) : ControlPlane :=
  if expired now (cp.openConns i) then
    sendOpenResultAndCleanup cp i .kDenied .kTargetUnresponsive 0
  else cp

theorem scan_eq (cp : ControlPlane) :
    scanOpenConnTimeouts cp = (List.finRange kCpMaxOpenConns).foldl (scanSlot cp.now) cp := by
  unfold scanOpenConnTimeouts
  congr 1
  funext cp' i
  unfold scanSlot expired
  dsimp only
  cases huse : (cp'.openConns i).inUse with
  | false => simp
  | true =>
    rw [Bool.not_true, if_neg nofun, Bool.true_and]
    by_cases hlt : cp.now < (cp'.openConns i).deadlineNs
    · rw [if_pos hlt, if_neg (by simpa using hlt)]
    · rw [if_neg hlt, if_pos (by simpa using hlt)]

structure Swept (now : ℕ) (slots : List OpenSlot) (cp cp' : ControlPlane) : Prop where
  openConns : ∀ i, cp'.openConns i =
    if i ∈ slots ∧ expired now (cp.openConns i) = true then {} else cp.openConns i
  attempted : cp'.attempted = cp.attempted ++
    (slots.filter fun i => expired now (cp.openConns i)).map fun i => timeoutOf (cp.openConns i)
  hdPeers : cp'.hdPeers = cp.hdPeers

theorem scanSlot_swept (now : ℕ) (i : OpenSlot)
    (hfd : (cp.openConns i).inUse = true → 0 ≤ (cp.openConns i).initiatorFd) :
    Swept now [i] cp (scanSlot now cp i) := by
  unfold scanSlot
  split
  · next hexp =>
    have huse : (cp.openConns i).inUse = true := by
      simp only [expired, Bool.and_eq_true] at hexp
      exact hexp.1
    obtain ⟨hrel, hpeers⟩ := cleanup_released cp i .kDenied .kTargetUnresponsive 0 (hfd huse)
    constructor
    · intro j
      rw [hrel.openConns]
      by_cases hij : j = i
      · rw [hij, Function.update_self, if_pos ⟨List.mem_singleton_self i, hexp⟩]
      · rw [Function.update_of_ne hij, if_neg fun h => hij (List.mem_singleton.1 h.1)]
    · have hmirror : mirrorOf (cp.openConns i) .kDenied .kTargetUnresponsive 0 = [] :=
        if_neg fun hd => hd.1 rfl
      have hone : ([i].filter fun j => expired now (cp.openConns j)) = [i] := by
        simp [hexp]
      rw [hrel.attempted, hmirror, hone]
      rfl
    · exact hpeers
  · next hexp =>
    constructor
    · intro j
      rw [if_neg]
      rintro ⟨hj, hexpj⟩
      rw [List.mem_singleton.1 hj] at hexpj
      exact hexp hexpj
    · have hnone : ([i].filter fun j => expired now (cp.openConns j)) = [] := by
        simp [hexp]
      rw [hnone, List.map_nil, List.append_nil]
    · rfl

theorem foldl_scanSlot_swept (now : ℕ) {slots : List OpenSlot} (hnodup : slots.Nodup)
    (hfds : ∀ i, (cp.openConns i).inUse = true → 0 ≤ (cp.openConns i).initiatorFd) :
    Swept now slots cp (slots.foldl (scanSlot now) cp) := by
  induction slots generalizing cp with
  | nil =>
    constructor
    · intro i
      rw [if_neg fun h => List.not_mem_nil h.1]
      rfl
    · exact (List.append_nil _).symm
    · rfl
  | cons i slots ih =>
    obtain ⟨hi, hnodup⟩ := List.nodup_cons.1 hnodup
    have h1 := scanSlot_swept now i (hfds i)
    have hsame : ∀ j ∈ slots, (scanSlot now cp i).openConns j = cp.openConns j := by
      intro j hj
      rw [h1.openConns, if_neg]
      rintro ⟨hji, -⟩
      rw [List.mem_singleton.1 hji] at hj
      exact hi hj
    have h2 := ih hnodup (by
      intro j hj
      rw [h1.openConns] at hj ⊢
      split at hj
      · cases hj
      · next hno =>
        rw [if_neg hno]
        exact hfds j hj)
    rw [List.foldl_cons]
    constructor
    · intro j
      rw [h2.openConns, h1.openConns]
      by_cases hji : j = i
      · subst hji
        by_cases hexp : expired now (cp.openConns j) = true
        · simp [hexp, hi]
        · simp [hexp]
      · simp [hji]
    · have hfilter : (slots.filter fun j => expired now ((scanSlot now cp i).openConns j)) =
          slots.filter fun j => expired now (cp.openConns j) := by
        apply List.filter_congr
        intro j hj
        rw [hsame j hj]
      have hmap : ((slots.filter fun j => expired now (cp.openConns j)).map fun j =>
          timeoutOf ((scanSlot now cp i).openConns j)) =
          (slots.filter fun j => expired now (cp.openConns j)).map fun j =>
            timeoutOf (cp.openConns j) := by
        apply List.map_congr_left
        intro j hj
        rw [hsame j (List.mem_of_mem_filter hj)]
      rw [h2.attempted, h1.attempted, hfilter, hmap, List.append_assoc, ← List.map_append,
        ← List.filter_append]
      rfl
    · rw [h2.hdPeers, h1.hdPeers]

theorem scan_swept (hfds : ∀ i, (cp.openConns i).inUse = true → 0 ≤ (cp.openConns i).initiatorFd) :
    Swept cp.now (List.finRange kCpMaxOpenConns) cp (scanOpenConnTimeouts cp) := by
  rw [scan_eq]
  exact foldl_scanSlot_swept cp.now (List.nodup_finRange _) hfds

/-! ### Frames of other types -/

/-- Slots, frames handed to `WriteFullFrame` and the HD registry are as before. -/
structure Untouched (cp cp' : ControlPlane) : Prop where
  openConns : cp'.openConns = cp.openConns
  attempted : cp'.attempted = cp.attempted
  hdPeers : cp'.hdPeers = cp.hdPeers

theorem Untouched.refl (cp : ControlPlane) : Untouched cp cp := ⟨rfl, rfl, rfl⟩

theorem Untouched.trans {a b c : ControlPlane} (h1 : Untouched a b) (h2 : Untouched b c) :
    Untouched a c := by
  constructor
  · rw [h2.openConns, h1.openConns]
  · rw [h2.attempted, h1.attempted]
  · rw [h2.hdPeers, h1.hdPeers]

theorem foldl_untouched {α : Type} {f : ControlPlane → α → ControlPlane}
    (hf : ∀ cp x, Untouched cp (f cp x)) (xs : List α) (cp : ControlPlane) :
    Untouched cp (xs.foldl f cp) := by
  induction xs generalizing cp with
  | nil => exact Untouched.refl cp
  | cons x xs ih => exact (hf cp x).trans (ih (f cp x))

theorem cpSendFrame_untouched (cp : ControlPlane) (key : Key) (frame : Bytes) :
    Untouched cp (cpSendFrame cp key frame) := by
  unfold cpSendFrame
  split <;> exact ⟨rfl, rfl, rfl⟩

theorem cpReply_untouched (cp : ControlPlane) (fd : Fd) (frame : Bytes) :
    Untouched cp (cpReply cp fd frame) := by
  unfold cpReply
  split
  · exact Untouched.refl cp
  · exact cpSendFrame_untouched cp _ _

theorem cpNotifyWatchers_untouched (cp : ControlPlane) (frame : Bytes) :
    Untouched cp (cpNotifyWatchers cp frame) := by
  unfold cpNotifyWatchers
  apply foldl_untouched
  intro cp wfd
  split
  · exact Untouched.refl cp
  split
  · exact Untouched.refl cp
  · exact cpSendFrame_untouched cp _ _

theorem doDisconnect_untouched (cp : ControlPlane) (key : Key) (fd : Fd) (reason : PeerGoneReason) :
    Untouched cp (doDisconnect cp key fd reason) := by
  obtain ⟨ws, hws⟩ := cpRemoveWatcher_eq cp fd
  have hreg : Untouched cp { cp with watcherFds := ws, reg := cpRegistryRemove cp.reg key } :=
    ⟨rfl, rfl, rfl⟩
  unfold doDisconnect
  rw [hws]
  exact hreg.trans (cpNotifyWatchers_untouched _ _)

theorem handleWatchConns_untouched (cp : ControlPlane) (fd : Fd) :
    Untouched cp (handleWatchConns cp fd) := by
  obtain ⟨ws, hws⟩ := cpAddWatcher_eq cp fd
  have hfold : ∀ cp (i : Fin kCpMaxPeers), Untouched cp
      (if (cp.reg.peers i).occupied ≠ .live then cp
      else if (cp.reg.peers i).fd = fd then cp
      else cpReply cp fd (buildPeerPresent (cp.reg.peers i).key)) := by
    intro cp i
    split
    · exact Untouched.refl cp
    split
    · exact Untouched.refl cp
    · exact cpReply_untouched cp _ _
  have hwatch : Untouched cp (cpAddWatcher cp fd) := by
    rw [hws]
    exact ⟨rfl, rfl, rfl⟩
  exact hwatch.trans (foldl_untouched hfold _ _)

def slotFrames : List FrameType :=
  [HdFrameType.kOpenConnection, HdFrameType.kIncomingConnResponse,
    HdFrameType.kFleetOpenConnection, HdFrameType.kFleetOpenConnectionResult]

theorem cpProcessFrame_untouched (cp : ControlPlane) (fd : Fd) (payload : Bytes)
    (h : type ∉ slotFrames) :
    Untouched cp (cpProcessFrame cp fd type payload) := by
  simp only [slotFrames, List.mem_cons, List.not_mem_nil, or_false, not_or] at h
  obtain ⟨hopen, hresp, hfleet, hresult⟩ := h
  unfold cpProcessFrame
  rw [if_neg hopen, if_neg hresp, if_neg hfleet, if_neg hresult]
  split
  · unfold cpHandleHdPeerInfo
    repeat' split
    all_goals exact ⟨rfl, rfl, rfl⟩
  split
  · unfold cpHandleRouteAnnounce
    split
    · exact Untouched.refl cp
    dsimp only
    split <;> exact ⟨rfl, rfl, rfl⟩
  split
  · exact handleWatchConns_untouched cp fd
  split
  · unfold handlePing
    split
    · exact Untouched.refl cp
    · exact cpReply_untouched cp _ _
  split
  · unfold handleNotePreferred
    split
    · exact Untouched.refl cp
    · split <;> exact ⟨rfl, rfl, rfl⟩
  split
  · unfold handleClosePeer
    split
    · exact Untouched.refl cp
    next hlen =>
    dsimp only
    split
    · exact Untouched.refl cp
    · have hgone : Untouched cp (cpRemovePeer cp (toKey payload (Nat.le_of_not_lt hlen))) :=
        ⟨rfl, rfl, rfl⟩
      exact hgone.trans (doDisconnect_untouched _ _ _ _)
  split
  · unfold handlePeerGone
    split
    · exact Untouched.refl cp
    · next hlen =>
      have hreg : Untouched cp
          { cp with reg := cpRegistryRemove cp.reg (toKey payload (Nat.le_of_not_lt hlen)) } :=
        ⟨rfl, rfl, rfl⟩
      have hgone := hreg.trans (doDisconnect_untouched _ (toKey payload (Nat.le_of_not_lt hlen)) fd
        .kDisconnected)
      exact hgone.trans ⟨rfl, rfl, rfl⟩
  · exact Untouched.refl cp

/-! ### Slots that hold well-formed requests -/

/-- Slots in use name a socket and a 64-bit id, the others are as new. -/
structure SlotsOk (cp : ControlPlane) : Prop where
  clean : SlotsClean cp
  fds : ∀ i, (cp.openConns i).inUse = true → 0 ≤ (cp.openConns i).initiatorFd
  ids : ∀ i, (cp.openConns i).inUse = true → (cp.openConns i).correlationId < 2 ^ 64

theorem readU64_lt (p : Bytes) (off : ℕ) : readU64 p off < 2 ^ 64 := by
  have hval := BigEndian.val_lt ((p.drop off).take 8)
  have hlen : ((p.drop off).take 8).length ≤ 8 := List.length_take_le ..
  have hpow : 256 ^ ((p.drop off).take 8).length ≤ 256 ^ 8 := Nat.pow_le_pow_right (by omega) hlen
  unfold readU64
  omega

theorem openConnection_id (h : hdParseOpenConnection payload = some req) :
    req.correlationId < 2 ^ 64 := by
  unfold hdParseOpenConnection at h
  split at h
  · cases h
  · cases h
    exact readU64_lt payload 6

namespace SlotsOk

variable {cp' : ControlPlane}

theorem of_openConns (h : SlotsOk cp) (heq : cp'.openConns = cp.openConns) :
    SlotsOk cp' := by
  constructor
  · unfold SlotsClean
    rw [heq]
    exact h.clean
  · rw [heq]
    exact h.fds
  · rw [heq]
    exact h.ids

theorem update (h : SlotsOk cp) {i : OpenSlot} {e : OpenConnEntry}
    (heq : cp'.openConns = Function.update cp.openConns i e) (hclean : e.inUse = false → e = {})
    (hfd : e.inUse = true → 0 ≤ e.initiatorFd) (hid : e.inUse = true → e.correlationId < 2 ^ 64) :
    SlotsOk cp' := by
  constructor
  · intro j hj
    rw [heq] at hj ⊢
    by_cases hji : j = i
    · subst hji
      rw [Function.update_self] at hj ⊢
      exact hclean hj
    · rw [Function.update_of_ne hji] at hj ⊢
      exact h.clean j hj
  · intro j hj
    rw [heq] at hj ⊢
    by_cases hji : j = i
    · subst hji
      rw [Function.update_self] at hj ⊢
      exact hfd hj
    · rw [Function.update_of_ne hji] at hj ⊢
      exact h.fds j hj
  · intro j hj
    rw [heq] at hj ⊢
    by_cases hji : j = i
    · subst hji
      rw [Function.update_self] at hj ⊢
      exact hid hj
    · rw [Function.update_of_ne hji] at hj ⊢
      exact h.ids j hj

theorem released (h : SlotsOk cp) {i : OpenSlot} {mode : HdConnMode} {reason : HdDenyReason}
    {sub : Byte} (hrel : Released cp i mode reason sub cp') :
    SlotsOk cp' :=
  h.update hrel.openConns (fun _ => rfl) nofun nofun

theorem leftPending (h : SlotsOk cp) {i : OpenSlot} {e : OpenConnEntry} {buf : Bytes}
    (hp : LeftPending cp i e buf cp') (huse : e.inUse = true) (hfd : 0 ≤ e.initiatorFd)
    (hid : e.correlationId < 2 ^ 64) : SlotsOk cp' := by
  apply h.update hp.openConns _ (fun _ => hfd) (fun _ => hid)
  intro hfree
  rw [huse] at hfree
  cases hfree

theorem swept (h : SlotsOk cp) {now : ℕ} {slots : List OpenSlot} (hs : Swept now slots cp cp') :
    SlotsOk cp' := by
  constructor
  · intro i hi
    rw [hs.openConns] at hi ⊢
    split at hi
    · next hexp => rw [if_pos hexp]
    · next hexp =>
      rw [if_neg hexp]
      exact h.clean i hi
  · intro i hi
    rw [hs.openConns] at hi ⊢
    split at hi
    · cases hi
    · next hexp =>
      rw [if_neg hexp]
      exact h.fds i hi
  · intro i hi
    rw [hs.openConns] at hi ⊢
    split at hi
    · cases hi
    · next hexp =>
      rw [if_neg hexp]
      exact h.ids i hi

end SlotsOk

theorem OpenEntry.fields (h : OpenEntry cp hd fd req e) :
    e.inUse = true ∧ e.isGatewayInbound = false ∧ e.initiatorFd = fd ∧
      e.correlationId = req.correlationId := by
  rcases h with ⟨-, gatewayFd, -, rfl⟩ | ⟨-, target, -, rfl⟩
  · exact ⟨rfl, rfl, rfl, rfl⟩
  · exact ⟨rfl, rfl, rfl, rfl⟩

/-! ### One frame -/

def requestId (gateway : Bool) (type : FrameType) (payload : Bytes) : Option ℕ :=
  if gateway then
    if type = HdFrameType.kFleetOpenConnection then
      (fleetRequest payload).map fun r => r.2.correlationId
    else none
  else
    if type = HdFrameType.kOpenConnection then
      (hdParseOpenConnection payload).map HdOpenConnection.correlationId
    else none

/-- The intent that a request is decided by: the client's, or the one its policy pins. -/
def requestIntent (cp : ControlPlane) (fd : Fd) (type : FrameType) (payload : Bytes) : HdIntent :=
  if type = HdFrameType.kOpenConnection then
    ((hdParseOpenConnection payload).bind fun req => cp.hdPeers.map fun hd =>
      (openClientView hd (initiatorKey cp fd) req).intent).getD .kPreferDirect
  else ((fleetRequest payload).map fun r => r.2.intent).getD .kPreferDirect

/-- The entry that the request in this frame may leave behind. -/
def EntryOf (cp : ControlPlane) (fd : Fd) (type : FrameType) (payload : Bytes)
    (e : OpenConnEntry) : Prop :=
  ∃ hd, cp.hdPeers = some hd ∧
    ((type = HdFrameType.kOpenConnection ∧ ∃ req, hdParseOpenConnection payload = some req ∧
        OpenEntry cp hd fd req e) ∨
      (type = HdFrameType.kFleetOpenConnection ∧ ∃ env inner target,
        fleetRequest payload = some (env, inner) ∧
        localTarget hd inner.targetPeerId = some target ∧
        e = gatewayEntry cp fd env inner target))

inductive FrameOutcome (cp : ControlPlane) (fd : Fd) (type : FrameType) (payload : Bytes)
    (cp' : ControlPlane) : Prop where
  | nothing (h : Untouched cp cp') (hid : ∀ gateway, requestId gateway type payload = none)
  | refused (gateway : Bool) (corr : ℕ) (hid : requestId gateway type payload = some corr)
      (h : Refused gateway cp fd corr (requestIntent cp fd type payload) cp')
  | pending (i : OpenSlot) (e : OpenConnEntry) (buf : Bytes) (he : EntryOf cp fd type payload e)
      (hbuf : Forwards (requestIntent cp fd type payload) buf) (h : LeftPending cp i e buf cp')
  | answered (hd : HdPeerRegistry) (resp : HdIncomingConnResponse) (i : OpenSlot)
      (htype : type = HdFrameType.kIncomingConnResponse)
      (hresp : hdParseIncomingConnResponse payload = some resp) (hhd : cp.hdPeers = some hd)
      (hfind : openConnFind cp (responseMatches resp fd) = some i)
      (h : Released cp i (answered hd (cp.openConns i) resp).1
        (answered hd (cp.openConns i) resp).2.1 (answered hd (cp.openConns i) resp).2.2 cp')
  | relayed (result : HdOpenConnectionResult) (i : OpenSlot)
      (htype : type = HdFrameType.kFleetOpenConnectionResult)
      (hresult : hdParseOpenConnectionResult payload = some result)
      (hfind : openConnFind cp (resultMatches result fd) = some i)
      (h : Released cp i result.mode result.denyReason result.subReason cp')

theorem requestId_lt {gateway : Bool} {corr : ℕ} (h : requestId gateway type payload = some corr) :
    corr < 2 ^ 64 := by
  cases gateway with
  | false =>
    simp only [requestId, Bool.false_eq_true, if_false, Option.ite_none_right_eq_some] at h
    obtain ⟨req, hreq, rfl⟩ := Option.map_eq_some_iff.1 h.2
    exact openConnection_id hreq
  | true =>
    simp only [requestId, if_true, Option.ite_none_right_eq_some] at h
    obtain ⟨r, hr, rfl⟩ := Option.map_eq_some_iff.1 h.2
    obtain ⟨env, -, hinner⟩ := Option.bind_eq_some_iff.1 hr
    obtain ⟨inner, hinner, hpair⟩ := Option.map_eq_some_iff.1 hinner
    rw [← hpair]
    exact openConnection_id hinner

theorem requestId_none (hopen : type ≠ HdFrameType.kOpenConnection)
    (hfleet : type ≠ HdFrameType.kFleetOpenConnection) (gateway : Bool) :
    requestId gateway type payload = none := by
  cases gateway with
  | false => simp [requestId, hopen]
  | true => simp [requestId, hfleet]

theorem requestId_other {gateway gateway' : Bool} {corr : ℕ}
    (h : requestId gateway type payload = some corr) (hne : gateway' ≠ gateway) :
    requestId gateway' type payload = none := by
  cases gateway with
  | false =>
    simp only [requestId, Bool.false_eq_true, if_false, Option.ite_none_right_eq_some] at h
    obtain ⟨rfl, -⟩ := h
    cases gateway' with
    | false => exact absurd rfl hne
    | true => rfl
  | true =>
    simp only [requestId, if_true, Option.ite_none_right_eq_some] at h
    obtain ⟨rfl, -⟩ := h
    cases gateway' with
    | false => rfl
    | true => exact absurd rfl hne

theorem EntryOf.fields (h : EntryOf cp fd type payload e) :
    e.inUse = true ∧ e.initiatorFd = fd ∧
      requestId e.isGatewayInbound type payload = some e.correlationId := by
  obtain ⟨hd, -, ⟨rfl, req, hreq, he⟩ | ⟨rfl, env, inner, target, hreq, -, rfl⟩⟩ := h
  · obtain ⟨huse, hgw, hinit, hid⟩ := he.fields
    exact ⟨huse, hinit, by simp [requestId, hgw, hreq, hid]⟩
  · exact ⟨rfl, rfl, by simp [requestId, gatewayEntry, hreq]⟩

theorem EntryOf.intent (h : EntryOf cp fd type payload e) :
    e.initiatorView.intent = requestIntent cp fd type payload := by
  obtain ⟨hd, hhd, ⟨rfl, req, hreq, he⟩ | ⟨rfl, env, inner, target, hreq, -, rfl⟩⟩ := h
  · have hintent : requestIntent cp fd HdFrameType.kOpenConnection payload =
        (openClientView hd (initiatorKey cp fd) req).intent := by
      simp [requestIntent, hreq, hhd]
    rw [hintent]
    rcases he with ⟨-, gatewayFd, -, rfl⟩ | ⟨-, target, -, rfl⟩ <;> rfl
  · unfold requestIntent
    rw [if_neg (by decide), hreq]
    rfl

theorem cpProcessFrame_outcome (hok : SlotsOk cp) (hsome : cp.hdPeers.isSome) (hfd : 0 ≤ fd)
    (type : FrameType) (payload : Bytes) :
    FrameOutcome cp fd type payload (cpProcessFrame cp fd type payload) := by
  obtain ⟨hd, hhd⟩ := Option.isSome_iff_exists.1 hsome
  by_cases hslot : type ∈ slotFrames
  · simp only [slotFrames, List.mem_cons, List.not_mem_nil, or_false] at hslot
    rcases hslot with rfl | rfl | rfl | rfl
    · change FrameOutcome cp fd _ payload (cpHandleOpenConnection cp fd payload)
      cases hreq : hdParseOpenConnection payload with
      | none =>
        rw [openConnection_ignored hreq]
        apply FrameOutcome.nothing (Untouched.refl cp)
        rintro (_ | _)
        · simp [requestId, hreq]
        · rfl
      | some req =>
        have hintent : requestIntent cp fd HdFrameType.kOpenConnection payload =
            (openClientView hd (initiatorKey cp fd) req).intent := by
          simp [requestIntent, hreq, hhd]
        have hcases := openConnection_cases hok.clean hfd hreq hhd
        rw [← hintent] at hcases
        rcases hcases with h | ⟨i, e, buf, he, hbuf, h⟩
        · exact .refused false req.correlationId (by simp [requestId, hreq]) h
        · exact .pending i e buf ⟨hd, hhd, .inl ⟨rfl, req, hreq, he⟩⟩ hbuf h
    · change FrameOutcome cp fd _ payload (cpHandleIncomingConnResponse cp fd payload)
      have hid : ∀ gateway, requestId gateway HdFrameType.kIncomingConnResponse payload = none :=
        requestId_none (by decide) (by decide)
      cases hresp : hdParseIncomingConnResponse payload with
      | none =>
        have heq : cpHandleIncomingConnResponse cp fd payload = cp := by
          unfold cpHandleIncomingConnResponse
          rw [hresp]
        rw [heq]
        exact .nothing (Untouched.refl cp) hid
      | some resp =>
        rcases incomingConnResponse_cases hresp hhd hok.fds with ⟨-, heq⟩ | ⟨i, hfind, h⟩
        · rw [heq]
          exact .nothing (Untouched.refl cp) hid
        · exact .answered hd resp i rfl hresp hhd hfind h
    · change FrameOutcome cp fd _ payload (cpHandleFleetOpenConnection cp fd payload)
      cases hreq : fleetRequest payload with
      | none =>
        rw [fleetOpenConnection_ignored hreq]
        apply FrameOutcome.nothing (Untouched.refl cp)
        rintro (_ | _)
        · rfl
        · simp [requestId, hreq]
      | some r =>
        obtain ⟨env, inner⟩ := r
        have hintent : requestIntent cp fd HdFrameType.kFleetOpenConnection payload =
            inner.intent := by
          unfold requestIntent
          rw [if_neg (by decide), hreq]
          rfl
        rcases fleetOpenConnection_cases hok.clean hfd hreq hhd with h | ⟨i, target, ht, h⟩
        · rw [← hintent] at h
          exact .refused true inner.correlationId (by simp [requestId, hreq]) h
        · apply FrameOutcome.pending i _ _ _ _ h
          · exact ⟨hd, hhd, .inr ⟨rfl, env, inner, target, hreq, ht, rfl⟩⟩
          · rw [hintent]
            exact forwards_incomingConnection _ _ _ _ _
    · change FrameOutcome cp fd _ payload (cpHandleFleetOpenConnectionResult cp fd payload)
      have hid : ∀ gateway,
          requestId gateway HdFrameType.kFleetOpenConnectionResult payload = none :=
        requestId_none (by decide) (by decide)
      cases hresult : hdParseOpenConnectionResult payload with
      | none =>
        have heq : cpHandleFleetOpenConnectionResult cp fd payload = cp := by
          unfold cpHandleFleetOpenConnectionResult
          rw [hresult]
        rw [heq]
        exact .nothing (Untouched.refl cp) hid
      | some result =>
        rcases fleetResult_cases hresult hok.fds with ⟨-, heq⟩ | ⟨i, hfind, h⟩
        · rw [heq]
          exact .nothing (Untouched.refl cp) hid
        · exact .relayed result i rfl hresult hfind h
  · apply FrameOutcome.nothing (cpProcessFrame_untouched cp fd payload hslot)
    apply requestId_none
    · rintro rfl
      exact hslot (by decide)
    · rintro rfl
      exact hslot (by decide)

namespace FrameOutcome

variable {cp' : ControlPlane} {fd : Fd} {type : FrameType} {payload : Bytes}

theorem slotsOk (h : FrameOutcome cp fd type payload cp') (hok : SlotsOk cp) (hfd : 0 ≤ fd) :
    SlotsOk cp' := by
  cases h with
  | nothing hu hid => exact hok.of_openConns hu.openConns
  | refused gateway corr hid hr => exact hok.of_openConns hr.openConns
  | pending i e buf he hbuf hp =>
    obtain ⟨huse, hinit, hid⟩ := he.fields
    rw [← hinit] at hfd
    exact hok.leftPending hp huse hfd (requestId_lt hid)
  | answered hd resp i htype hresp hhd hfind hr => exact hok.released hr
  | relayed result i htype hresult hfind hr => exact hok.released hr

theorem hdPeers (h : FrameOutcome cp fd type payload cp') :
    cp'.hdPeers.isSome = cp.hdPeers.isSome := by
  cases h with
  | nothing hu hid => rw [hu.hdPeers]
  | refused gateway corr hid hr => rw [hr.hdPeers]
  | pending i e buf he hbuf hp => rw [hp.hdPeers]
  | answered hd resp i htype hresp hhd hfind hr => exact hr.hdPeers
  | relayed result i htype hresult hfind hr => exact hr.hdPeers

theorem slot (h : FrameOutcome cp fd type payload cp') {j : OpenSlot}
    (huse : (cp'.openConns j).inUse = true) :
    cp'.openConns j = cp.openConns j ∨
      (cp.openConns j = {} ∧ EntryOf cp fd type payload (cp'.openConns j)) := by
  cases h with
  | nothing hu hid => exact .inl (by rw [hu.openConns])
  | refused gateway corr hid hr => exact .inl (by rw [hr.openConns])
  | pending i e buf he hbuf hp =>
    by_cases hji : j = i
    · rw [hji, hp.openConns, Function.update_self]
      exact .inr ⟨hp.free, he⟩
    · rw [hp.openConns, Function.update_of_ne hji]
      exact .inl rfl
  | answered hd resp i htype hresp hhd hfind hr =>
    by_cases hji : j = i
    · rw [hji, hr.openConns, Function.update_self] at huse
      cases huse
    · rw [hr.openConns, Function.update_of_ne hji]
      exact .inl rfl
  | relayed result i htype hresult hfind hr =>
    by_cases hji : j = i
    · rw [hji, hr.openConns, Function.update_self] at huse
      cases huse
    · rw [hr.openConns, Function.update_of_ne hji]
      exact .inl rfl

theorem one_new (h : FrameOutcome cp fd type payload cp') {i j : OpenSlot}
    (hi : (cp.openConns i).inUse = false) (hi' : (cp'.openConns i).inUse = true)
    (hj : (cp.openConns j).inUse = false) (hj' : (cp'.openConns j).inUse = true) : i = j := by
  have hchanged : ∀ k, (cp.openConns k).inUse = false → (cp'.openConns k).inUse = true →
      cp'.openConns k ≠ cp.openConns k := by
    intro k hk hk' heq
    rw [heq, hk] at hk'
    cases hk'
  cases h with
  | nothing hu hid => exact absurd (by rw [hu.openConns]) (hchanged i hi hi')
  | refused gateway corr hid hr => exact absurd (by rw [hr.openConns]) (hchanged i hi hi')
  | pending k e buf he hbuf hp =>
    have honly : ∀ l, (cp.openConns l).inUse = false → (cp'.openConns l).inUse = true → l = k := by
      intro l hl hl'
      by_contra hlk
      exact hchanged l hl hl' (by rw [hp.openConns, Function.update_of_ne hlk])
    rw [honly i hi hi', honly j hj hj']
  | answered hd resp k htype hresp hhd hfind hr =>
    rw [hr.openConns] at hi'
    by_cases hik : i = k
    · rw [hik, Function.update_self] at hi'
      cases hi'
    · rw [Function.update_of_ne hik, hi] at hi'
      cases hi'
  | relayed result k htype hresult hfind hr =>
    rw [hr.openConns] at hi'
    by_cases hik : i = k
    · rw [hik, Function.update_self] at hi'
      cases hi'
    · rw [Function.update_of_ne hik, hi] at hi'
      cases hi'

end FrameOutcome

theorem Swept.slot {cp' : ControlPlane} {now : ℕ} {slots : List OpenSlot}
    (h : Swept now slots cp cp') {j : OpenSlot} (huse : (cp'.openConns j).inUse = true) :
    cp'.openConns j = cp.openConns j := by
  rw [h.openConns] at huse ⊢
  split at huse
  · cases huse
  · next hno => rw [if_neg hno]

end

end HyperDerp
