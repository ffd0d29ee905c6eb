import HyperDerp.DataPlane.SendQueue

/-!
# Frame dispatch and forwarding (`data_plane.cc:1050-1568`)

What a worker does with one complete inbound frame. The pair of a header
pointer and a payload length is the byte list of the whole frame. A frame
forwarded to a peer of the same worker goes to its send queue; one for a peer of
another worker goes to that worker's inbox for this source, stamped with the
generation of the destination fd.
-/

namespace HyperDerp

/-! ### Protocol-aware header access (`data_plane.cc:1049-1072`) -/

def frameHdrSize (proto : PeerProtocol) : ℕ :=
  if proto = .kHd then kHdFrameHeaderSize else kFrameHeaderSize

def readPeerPayloadLen (proto : PeerProtocol) (hdr : Bytes) : ℕ :=
  if proto = .kHd then hdReadPayloadLen hdr else readPayloadLen hdr

def isValidPeerPayloadLen (proto : PeerProtocol) (len : ℕ) : Bool :=
  if proto = .kHd then hdIsValidPayloadLen len else isValidPayloadLen len

/-! ### One worker of the context -/

def Ctx.onWorker (ctx : Ctx) (wid : ℕ) (f : Worker → Worker) : Ctx :=
  ctx.setWorker wid (f (ctx.workers wid))

/-- `FrameAlloc` on worker `wid`. -/
def frameAlloc (ctx : Ctx) (wid : ℕ) : Bool × Ctx :=
  let r := (ctx.workers wid).alloc
  (r.1, ctx.setWorker wid r.2)

def allocEnqueue (w : Worker) (dst : Slot) (frame : Bytes) : Worker :=
  match w.alloc with
  | (false, w) => w
  | (true, w) => enqueueSend w dst frame

def broadcastFrame (w : Worker) (src : Slot) (proto : PeerProtocol) (frame : Bytes) : Worker :=
  (List.finRange kHtCapacity).foldl
    (fun w dst =>
      if (w.ht dst).occupied ≠ .live ∨ dst = src then w
      else if (w.ht dst).protocol ≠ proto then w
      else allocEnqueue w dst frame) w

/-! ### Cross-shard transfer -/

/-- Push on the inbox of `dstId` for source `wid`, with the bookkeeping around
it (`data_plane.cc:1096-1111`, `:1552-1567`). The ring holds one entry less than
its size. -/
def xferSpscPush (ctx : Ctx) (wid dstId : ℕ) (x : Xfer) : Ctx :=
  let dst := ctx.workers dstId
  let ring := dst.xferInbox wid
  if ring.length + 1 = kXferSpscSize then
    ctx.onWorker wid fun w =>
      { w with
        stats := { w.stats with xferDrops := w.stats.xferDrops + 1 }
        sendPressure := w.sendPressure + 1 }
  else
    let ctx := ctx.setWorker dstId
      { dst with
        xferInbox := Function.update dst.xferInbox wid (ring ++ [x])
        pendingSources := Function.update dst.pendingSources wid true }
    if ring.isEmpty then
      ctx.onWorker wid fun w =>
        { w with xferSignalPending := Function.update w.xferSignalPending dstId true }
    else ctx

def loadGen (ctx : Ctx) (dstId : ℕ) (fd : Fd) : ℕ := (ctx.workers dstId).fdGen fd

/-- `XferPush` (`data_plane.cc:1081-1112`). Worker and fd of a rule are set
together, so a negative index is never formed. -/
def xferPush (ctx : Ctx) (wid : ℕ) (dstId : ℤ) (dstFd : Fd) (frame : Bytes)
    (tag : Option Origin) : Ctx :=
  if dstId = wid ∨ (ctx.numWorkers : ℤ) ≤ dstId ∨ dstId < 0 then ctx
  else
    xferSpscPush ctx wid dstId.toNat ⟨dstFd, frame, loadGen ctx dstId.toNat dstFd, tag⟩

/-! ### HD rules -/

def Worker.setFwd (w : Worker) (p : Slot) (r : ℕ) (rule : FwdRule) : Worker :=
  w.setPeer p { w.ht p with fwd := Function.update (w.ht p).fwd r rule }

def Worker.cachePeer1 (w : Worker) (p dst : Slot) : Worker :=
  w.setPeer p { w.ht p with
    fwd1Peer := some dst
    fwd := Function.update (w.ht p).fwd 0 { (w.ht p).fwd 0 with peer := some dst } }

def Worker.cacheRoute1 (w : Worker) (p : Slot) (rt : Route) : Worker :=
  w.setPeer p { w.ht p with
    fwd1DstFd := rt.fd
    fwd1DstWorker := rt.workerId
    fwd := Function.update (w.ht p).fwd 0
      { (w.ht p).fwd 0 with dstFd := rt.fd, dstWorker := rt.workerId } }

/-- `ForwardHdData1` after its allocation (`data_plane.cc:1127-1157`). -/
def forwardHdData1Body (ctx : Ctx) (wid : ℕ) (p : Slot) (frame : Bytes) : Ctx :=
  let w := ctx.workers wid
  let peer := w.ht p
  let key := (peer.fwd 0).key
  match peer.fwd1Peer.filter fun dst => (w.ht dst).occupied = .live with
  | some dst => ctx.setWorker wid (enqueueSend w dst frame)
  | none =>
    if 0 ≤ peer.fwd1DstFd then
      xferPush ctx wid peer.fwd1DstWorker peer.fwd1DstFd frame (some (.rule key false))
    else
      match htLookup w key with
      | some dst => ctx.setWorker wid (enqueueSend (w.cachePeer1 p dst) dst frame)
      | none =>
        match routeLookup w.routes key with
        | none =>
          ctx.setWorker wid
            { w with stats := { w.stats with hdFwdNoRoute := w.stats.hdFwdNoRoute + 1 } }
        | some r =>
          let rt := w.routes r
          xferPush (ctx.setWorker wid (w.cacheRoute1 p rt)) wid rt.workerId rt.fd frame
            (some (.rule key false))

/-- `ForwardHdData1` (`data_plane.cc:1119-1158`). -/
def forwardHdData1 (ctx : Ctx) (wid : ℕ) (p : Slot) (frame : Bytes) : Ctx :=
  match frameAlloc ctx wid with
  | (false, ctx) => ctx
  | (true, ctx) => forwardHdData1Body ctx wid p frame

/-- One rule of `ForwardHdData` after its allocation (`data_plane.cc:1391-1422`). -/
def forwardRule (ctx : Ctx) (wid : ℕ) (p : Slot) (frame : Bytes) (r : ℕ) : Ctx :=
  let w := ctx.workers wid
  let rule := (w.ht p).fwd r
  match rule.peer.filter fun dst => (w.ht dst).occupied = .live with
  | some dst => ctx.setWorker wid (enqueueSend w dst frame)
  | none =>
    if rule.dstFd < 0 then
      match htLookup w rule.key with
      | some dst =>
        ctx.setWorker wid (enqueueSend (w.setFwd p r { rule with peer := some dst }) dst frame)
      | none =>
        match routeLookup w.routes rule.key with
        | none => ctx
        | some a =>
          let rt := w.routes a
          let ctx := ctx.setWorker wid
            (w.setFwd p r { rule with dstWorker := rt.workerId, dstFd := rt.fd })
          if rt.fd < 0 then ctx
          else xferPush ctx wid rt.workerId rt.fd frame (some (.rule rule.key false))
    else xferPush ctx wid rule.dstWorker rule.dstFd frame (some (.rule rule.key false))

/-- The rule loop; `false` when it returned for want of memory. -/
def forwardRules (ctx : Ctx) (wid : ℕ) (p : Slot) (frame : Bytes) : List ℕ → Bool × Ctx
  | [] => (true, ctx)
  | r :: rs =>
    match frameAlloc ctx wid with
    | (false, ctx) => (false, ctx)
    | (true, ctx) => forwardRules (forwardRule ctx wid p frame r) wid p frame rs

/-- `ForwardHdData` (`data_plane.cc:1369-1443`): without rules to every HD peer
of the shard, else along each rule and, bridged, to every DERP peer of the shard. -/
def forwardHdData (ctx : Ctx) (wid : ℕ) (p : Slot) (frame : Bytes) : Ctx :=
  let src := (ctx.workers wid).ht p
  if src.fwdCount = 0 then ctx.onWorker wid fun w => broadcastFrame w p .kHd frame
  else
    match forwardRules ctx wid p frame (List.range src.fwdCount) with
    | (false, ctx) => ctx
    | (true, ctx) =>
      match bridgeHdToDerp (frame.drop kHdFrameHeaderSize) src.key
          (kFrameHeaderSize + kKeySize + kMaxFramePayload) with
      | none => ctx
      | some derp => ctx.onWorker wid fun w => broadcastFrame w p .kDerp derp

/-! ### Mesh and fleet frames -/

def peerById (w : Worker) (id : ℕ) : Option Slot :=
  if 0 < id then (w.peerIdMap.bind fun m => m id).filter fun dst => (w.ht dst).occupied = .live
  else none

/-- The frame a MeshData or local FleetData frame is rewritten to. -/
def meshFrame (srcId : ℕ) (body : Bytes) : Bytes :=
  hdWriteFrameHeader .kMeshData (kHdMeshDstSize + body.length) ++ writeU16 srcId ++ body

def meshRemote (ctx : Ctx) (wid id : ℕ) : Option (ℕ × Fd) :=
  (List.range ctx.numWorkers).findSome? fun wi =>
    if wi = wid then none
    else
      let dw := ctx.workers wi
      (dw.peerIdMap.bind fun m => m id).map fun q => (wi, (dw.ht q).fd)

/-- MeshData (`data_plane.cc:1184-1239`). -/
def dispatchMeshData (ctx : Ctx) (wid : ℕ) (p : Slot) (payload : Bytes) : Ctx :=
  if payload.length < kHdMeshDstSize then ctx
  else
    match frameAlloc ctx wid with
    | (false, ctx) => ctx
    | (true, ctx) =>
      let w := ctx.workers wid
      let dstId := hdReadMeshDst payload
      let buf := meshFrame (w.ht p).peerId (payload.drop kHdMeshDstSize)
      let ctx :=
        match peerById w dstId with
        | some dst => ctx.setWorker wid (enqueueSend w dst buf)
        | none =>
          match meshRemote ctx wid dstId with
          | some (wi, fd) => xferPush ctx wid wi fd buf none
          | none => ctx
      ctx.onWorker wid fun w =>
        { w with stats := { w.stats with hdMeshForwards := w.stats.hdMeshForwards + 1 } }

def fleetEnqueue (w : Worker) (dst : Slot) (frame : Bytes) : Worker :=
  match w.alloc with
  | (false, w) => w
  | (true, w) =>
    let w := enqueueSend w dst frame
    { w with stats := { w.stats with hdFleetForwards := w.stats.hdFleetForwards + 1 } }

/-- FleetData (`data_plane.cc:1240-1299`). -/
def dispatchFleetData (ctx : Ctx) (wid : ℕ) (p : Slot) (frame payload : Bytes) : Ctx :=
  if payload.length < kHdFleetDstSize then ctx
  else
    let w := ctx.workers wid
    let dstRelay := hdReadFleetRelay payload
    if dstRelay = ctx.relayId ∨ dstRelay = 0 then
      match peerById w (hdReadFleetPeer payload) with
      | none => ctx
      | some dst =>
        ctx.setWorker wid
          (fleetEnqueue w dst (meshFrame (w.ht p).peerId (payload.drop kHdFleetDstSize)))
    else
      match peerById w (ctx.relayPeerMap dstRelay) with
      | none => ctx
      | some dst => ctx.setWorker wid (fleetEnqueue w dst frame)

/-! ### Dispatch -/

/-- A frame for the control plane: `[4B fd][1B type][4B len][payload]`. -/
def sendToPipe (w : Worker) (p : Slot) (type : Byte) (payload : Bytes) : Worker :=
  { w with pipe := w.pipe ++ [⟨(w.ht p).fd, type, payload⟩] }

def hdControlTypes : List HdFrameType :=
  [.kRouteAnnounce, .kOpenConnection, .kIncomingConnResponse, .kFleetOpenConnection,
    .kFleetOpenConnectionResult]

/-- `DispatchHdFrame` (`data_plane.cc:1161-1346`). -/
def dispatchHdFrame (ctx : Ctx) (wid : ℕ) (p : Slot) (frame : Bytes) : Ctx :=
  let hdType := hdReadFrameType frame
  let payload := frame.drop kHdFrameHeaderSize
  let peer := (ctx.workers wid).ht p
  if hdType = .kData then
    if peer.fwdCount = 1 then forwardHdData1 ctx wid p frame
    else forwardHdData ctx wid p frame
  else if hdType = .kPing ∧ payload.length = kHdPingDataSize then
    ctx.onWorker wid fun w => allocEnqueue w p (hdBuildPong payload)
  else if hdType = .kMeshData then dispatchMeshData ctx wid p payload
  else if hdType = .kFleetData then dispatchFleetData ctx wid p frame payload
  else if hdType = .kPeerInfo then
    if 0 < peer.peerId ∧ 0 < ctx.relayId then
      ctx.onWorker wid fun w => broadcastFrame w p .kHd frame
    else ctx
  else if hdType ∈ hdControlTypes then
    ctx.onWorker wid fun w => sendToPipe w p hdType payload
  else ctx

/-- SendPacket for a key this worker does not hold (`data_plane.cc:1537-1567`). -/
def forwardRemote (ctx : Ctx) (wid : ℕ) (dstKey : Key) (frame : Bytes) : Ctx :=
  let w := ctx.workers wid
  match routeLookup w.routes dstKey with
  | none => ctx
  | some a =>
    let rt := w.routes a
    xferSpscPush ctx wid rt.workerId
      ⟨rt.fd, frame, loadGen ctx rt.workerId rt.fd, some (.packet dstKey)⟩

/-- SendPacket for a peer of this worker (`data_plane.cc:1515-1535`). -/
def forwardLocal (w : Worker) (dst : Slot) (payload frame : Bytes) : Worker :=
  if (w.ht dst).protocol = .kHd then
    match bridgeDerpToHd payload (kHdFrameHeaderSize + kMaxFramePayload) with
    | none => w
    | some hd => allocEnqueue w dst hd
  else enqueueSend w dst frame

/-- `ForwardMsg` (`data_plane.cc:1465-1568`). -/
def forwardMsg (ctx : Ctx) (wid : ℕ) (type : FrameType) (payload : Bytes) (src : Slot) : Ctx :=
  if (ctx.workers wid).running = false then ctx
  else if type ≠ .kSendPacket then
    ctx.onWorker wid fun w => sendToPipe w src type payload
  else if hlen : payload.length < kKeySize then ctx
  else
    match frameAlloc ctx wid with
    | (false, ctx) => ctx
    | (true, ctx) =>
      let w := ctx.workers wid
      let dstKey := toKey payload (kKeySize_le hlen)
      let frame := buildRecvPacket (w.ht src).key (payload.drop kKeySize)
      match htLookup w dstKey with
      | some dst => ctx.setWorker wid (forwardLocal w dst payload frame)
      | none => forwardRemote ctx wid dstKey frame

/-- `DispatchFrame` (`data_plane.cc:1351-1362`). -/
def dispatchFrame (ctx : Ctx) (wid : ℕ) (p : Slot) (frame : Bytes) : Ctx :=
  if ((ctx.workers wid).ht p).protocol = .kHd then dispatchHdFrame ctx wid p frame
  else forwardMsg ctx wid (readFrameType frame) (frame.drop kFrameHeaderSize) p

end HyperDerp
