import HyperDerp.ControlPlane.Types

/-!
# Open connections (`control_plane.cc:904-1525`)

An OpenConnection asks for a tunnel to a local peer or to a peer of another
relay; a FleetOpenConnection is such a request arriving from another relay. Each
takes a slot until the target answers, the gateway answers or the deadline
passes.
-/

namespace HyperDerp

/-! ### Slots -/

def openConnSlotAlloc (cp : ControlPlane) : Option OpenSlot :=
  (List.finRange kCpMaxOpenConns).find? fun i => !(cp.openConns i).inUse

def openConnSlotFree (cp : ControlPlane) (i : OpenSlot) : ControlPlane :=
  let s := cp.openConns i
  (if s.inUse then cp.countOpenConn s.initiatorFd (-1) else cp).setOpenConn i {}

def openConnFind (cp : ControlPlane) (p : OpenConnEntry → Bool) : Option OpenSlot :=
  (List.finRange kCpMaxOpenConns).find? fun i => (cp.openConns i).inUse && p (cp.openConns i)

/-- `if (n > 0) WriteFullFrame(fd, buf, n)`. -/
def writeBuilt (cp : ControlPlane) (fd : Fd) : Option Bytes → ControlPlane
  | none => cp
  | some buf => (writeFullFrame cp fd buf).2

/-- `SendOpenResultAndCleanup` (`control_plane.cc:961-1012`). -/
def sendOpenResultAndCleanup (cp : ControlPlane) (i : OpenSlot) (mode : HdConnMode)
    (reason : HdDenyReason) (subReason : Byte) : ControlPlane :=
  let s := cp.openConns i
  let path := if s.targetRelayId ≠ 0 ∧ s.isGatewayInbound = false then [s.targetRelayId] else []
  let built :=
    if s.isGatewayInbound then
      hdBuildFleetOpenConnectionResult 256 s.correlationId mode reason subReason [] []
    else hdBuildOpenConnectionResult 256 s.correlationId mode reason subReason path []
  let cp := if 0 ≤ s.initiatorFd then writeBuilt cp s.initiatorFd built else cp
  let cp :=
    if mode ≠ .kDenied ∧ 0 ≤ s.targetFd ∧ s.targetRelayId = 0 ∧ s.isGatewayInbound = false then
      (writeFullFrame cp s.targetFd
        (hdBuildIncomingConnResult s.correlationId mode reason subReason)).2
    else cp
  openConnSlotFree cp i

/-- `ScanOpenConnTimeouts` (`control_plane.cc:1045-1056`). -/
def scanOpenConnTimeouts (cp : ControlPlane) : ControlPlane :=
  (List.finRange kCpMaxOpenConns).foldl
    (fun cp' i =>
      let s := cp'.openConns i
      if !s.inUse then cp'
      else if cp.now < s.deadlineNs then cp'
      else sendOpenResultAndCleanup cp' i .kDenied .kTargetUnresponsive 0) cp

/-! ### OpenConnection -/

def denyOpen (cp : ControlPlane) (fd : Fd) (correlationId : ℕ) (reason : HdDenyReason) :
    ControlPlane :=
  writeBuilt cp fd (hdBuildOpenConnectionResult 64 correlationId .kDenied reason 0 [] [])

def initiatorKey (cp : ControlPlane) (fd : Fd) : Key :=
  match cp.peerOf fd with
  | some a => (cp.reg.peers a).key
  | none => zeroKey

/-- The client view, its intent replaced when the initiator's policy says so
(`control_plane.cc:1095-1116`). -/
def openClientView (hd : HdPeerRegistry) (key : Key) (req : HdOpenConnection) : HdClientView :=
  let cv := hdClientView req.intent req.flags
  match hdPeersLookupPolicy hd key with
  | some pol =>
    if pol.overrideClient && pol.hasPin then { cv with intent := pol.pinnedIntent } else cv
  | none => cv

def clientFlags (cv : HdClientView) : Byte :=
  (if cv.allowUpgrade then kHdFlagAllowUpgrade else 0) |||
    (if cv.allowDowngrade then kHdFlagAllowDowngrade else 0)

/-- The cross-relay path (`control_plane.cc:1135-1226`). -/
def openRemote (cp : ControlPlane) (hd : HdPeerRegistry) (fd : Fd) (req : HdOpenConnection)
    (cv : HdClientView) : ControlPlane :=
  match cp.relayTable with
  | none => denyOpen cp fd req.correlationId .kFleetRoutingNotImplemented
  | some rt =>
    let gatewayFd := ((relayTableLookup rt req.targetRelayId).map RelayEntry.fd).getD (-1)
    if gatewayFd < 0 then denyOpen cp fd req.correlationId .kPeerUnreachable
    else
      match openConnSlotAlloc cp with
      | none => denyOpen cp fd req.correlationId .kTooManyOpenConns
      | some i =>
        let cp1 := (cp.setOpenConn i { cp.openConns i with
          inUse := true
          correlationId := req.correlationId
          initiatorFd := fd
          targetFd := gatewayFd
          initiatorKey := initiatorKey cp fd
          initiatorView := cv
          targetRelayId := req.targetRelayId
          isGatewayInbound := false
          deadlineNs := cp.now + kCpOpenConnTimeoutNs }).countOpenConn fd 1
        let inner := hdOpenConnectionPayload req.targetPeerId 0 cv.intent (clientFlags cv)
          req.correlationId
        match hdBuildFleetOpenConnection 256 rt.selfId hd.federationPolicy.localFleetId zeroKey
            inner with
        | none => sendOpenResultAndCleanup cp1 i .kDenied .kPeerUnreachable 0
        | some buf =>
          match writeFullFrame cp1 gatewayFd buf with
          | (true, cp2) => cp2
          | (false, cp2) => sendOpenResultAndCleanup cp2 i .kDenied .kPeerUnreachable 0

/-- The local path (`control_plane.cc:1228-1290`). -/
def openLocal (cp : ControlPlane) (hd : HdPeerRegistry) (fd : Fd) (req : HdOpenConnection)
    (cv : HdClientView) : ControlPlane :=
  match (hdPeersLookupById hd req.targetPeerId).filter fun t => decide (0 ≤ t.fd) with
  | none =>
    let cp1 := denyOpen cp fd req.correlationId .kPeerUnreachable
    { cp1 with audit := cp1.audit ++
        [(initiatorKey cp fd, zeroKey, cv, { denyReason := .kPeerUnreachable })] }
  | some target =>
    match openConnSlotAlloc cp with
    | none => denyOpen cp fd req.correlationId .kTooManyOpenConns
    | some i =>
      let cp1 := (cp.setOpenConn i { cp.openConns i with
        inUse := true
        correlationId := req.correlationId
        initiatorFd := fd
        targetFd := target.fd
        initiatorKey := initiatorKey cp fd
        targetKey := target.key
        initiatorView := cv
        targetRelayId := req.targetRelayId
        deadlineNs := cp.now + kCpOpenConnTimeoutNs }).countOpenConn fd 1
      let peerId := if (cp.peerOf fd).isSome then target.peerId else 0
      match writeFullFrame cp1 target.fd (hdBuildIncomingConnection (initiatorKey cp fd) peerId
          cv.intent req.flags req.correlationId) with
      | (true, cp2) => cp2
      | (false, cp2) => sendOpenResultAndCleanup cp2 i .kDenied .kPeerUnreachable 0

/-- `CpHandleOpenConnection` (`control_plane.cc:1058-1290`). -/
def cpHandleOpenConnection (cp : ControlPlane) (fd : Fd) (payload : Bytes) : ControlPlane :=
  match hdParseOpenConnection payload with
  | none => cp
  | some req =>
    match cp.hdPeers with
    | none => cp
    | some hd =>
      if validFd fd = true ∧ kCpMaxOpenConnsPerPeer ≤ cp.openConnPerPeer fd then
        denyOpen cp fd req.correlationId .kTooManyOpenConns
      else
        let cv := openClientView hd (initiatorKey cp fd) req
        if req.targetRelayId ≠ 0 then openRemote cp hd fd req cv else openLocal cp hd fd req cv

/-! ### The target's answer -/

/-- Direct tunnels are capped; one granted is counted (`control_plane.cc:1360-1373`). -/
def capDirect (hd : HdPeerRegistry) (dec : HdDecision) : HdDecision × HdPeerRegistry :=
  if dec.mode = .kDirect ∧ 0 < hd.relayPolicy.maxDirectPeers then
    if hd.relayPolicy.maxDirectPeers ≤ hd.directInUse then
      ({ dec with mode := .kDenied, denyReason := .kDirectCapExceeded }, hd)
    else (dec, { hd with directInUse := hd.directInUse + 1 })
  else (dec, hd)

/-- `CpHandleIncomingConnResponse` (`control_plane.cc:1292-1383`). -/
def cpHandleIncomingConnResponse (cp : ControlPlane) (fd : Fd) (payload : Bytes) : ControlPlane :=
  match hdParseIncomingConnResponse payload with
  | none => cp
  | some resp =>
    match openConnFind cp fun s =>
        decide (s.correlationId = resp.correlationId) && decide (s.targetFd = fd) with
    | none => cp
    | some i =>
      if !hasFlag resp.accept kHdFlagAccept then
        sendOpenResultAndCleanup cp i .kDenied .kPolicyForbids 0
      else
        match cp.hdPeers with
        | none => cp
        | some hd =>
          let entry := cp.openConns i
          let bPolicy := (hdPeersLookupPolicy hd entry.targetKey).getD {}
          let peerView := hdBuildPeerView bPolicy (hdApplyPeerPolicyIntent bPolicy resp.intent)
          let r := capDirect hd (hdResolve (hdBuildFleetView hd.fleetPolicy) {}
            (hdBuildRelayView hd.relayPolicy) peerView entry.initiatorView false
            entry.targetRelayId)
          sendOpenResultAndCleanup
            { cp with
              hdPeers := some r.2
              audit := cp.audit ++
                [(entry.initiatorKey, entry.targetKey, entry.initiatorView, r.1)] }
            i r.1.mode r.1.denyReason r.1.subReason

/-! ### Cross-relay requests and results -/

def denyFleet (cp : ControlPlane) (fd : Fd) (correlationId : ℕ) (reason : HdDenyReason) :
    ControlPlane :=
  writeBuilt cp fd (hdBuildFleetOpenConnectionResult 64 correlationId .kDenied reason 0 [] [])

/-- `CpHandleFleetOpenConnection` (`control_plane.cc:1387-1495`). -/
def cpHandleFleetOpenConnection (cp : ControlPlane) (fd : Fd) (payload : Bytes) : ControlPlane :=
  match hdParseFleetOpenConnection payload with
  | none => cp
  | some env =>
    match cp.hdPeers with
    | none => cp
    | some hd =>
      match hdParseOpenConnection env.innerConn with
      | none => cp
      | some inner =>
        let cv := hdClientView inner.intent inner.flags
        match (hdPeersLookupById hd inner.targetPeerId).filter fun t => decide (0 ≤ t.fd) with
        | none => denyFleet cp fd inner.correlationId .kPeerUnreachable
        | some target =>
          if !hdFederationAllows hd.federationPolicy (cString env.originFleetId) target.key then
            denyFleet cp fd inner.correlationId .kFederationDenied
          else
            match openConnSlotAlloc cp with
            | none => denyFleet cp fd inner.correlationId .kTooManyOpenConns
            | some i =>
              let cp1 := cp.setOpenConn i { cp.openConns i with
                inUse := true
                correlationId := inner.correlationId
                initiatorFd := fd
                targetFd := target.fd
                targetKey := target.key
                initiatorView := cv
                targetRelayId := 0
                isGatewayInbound := true
                originRelayId := env.originRelayId
                deadlineNs := cp.now + kCpOpenConnTimeoutNs }
              match writeFullFrame cp1 target.fd (hdBuildIncomingConnection zeroKey target.peerId
                  cv.intent inner.flags inner.correlationId) with
              | (true, cp2) => cp2
              | (false, cp2) => sendOpenResultAndCleanup cp2 i .kDenied .kPeerUnreachable 0

/-- `CpHandleFleetOpenConnectionResult` (`control_plane.cc:1497-1525`). -/
def cpHandleFleetOpenConnectionResult (cp : ControlPlane) (fd : Fd) (payload : Bytes) :
    ControlPlane :=
  match hdParseOpenConnectionResult payload with
  | none => cp
  | some result =>
    match openConnFind cp fun s =>
        decide (s.correlationId = result.correlationId) && decide (s.targetFd = fd) &&
          !s.isGatewayInbound && decide (s.targetRelayId ≠ 0) with
    | none => cp
    | some i => sendOpenResultAndCleanup cp i result.mode result.denyReason result.subReason

end HyperDerp
