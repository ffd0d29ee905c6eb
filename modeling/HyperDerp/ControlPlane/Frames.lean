import HyperDerp.ControlPlane.OpenConn

/-!
# Control frames (`control_plane.cc:125-278`, `:444-537`, `:814-893`)

Registration, watchers, and the dispatch of one message from a worker's pipe.
Client frames of every type but SendPacket and the workers' own PeerGone
messages arrive here in one format.
-/

namespace HyperDerp

/-! ### Watchers -/

def cpAddWatcher (cp : ControlPlane) (fd : Fd) : ControlPlane :=
  if fd ∈ cp.watcherFds then cp
  else if kCpMaxWatchers ≤ cp.watcherFds.length then cp
  else { cp with watcherFds := cp.watcherFds ++ [fd] }

def cpRemoveWatcher (cp : ControlPlane) (fd : Fd) : ControlPlane :=
  match cp.watcherFds.idxOf? fd with
  | none => cp
  | some i =>
    { cp with watcherFds := (cp.watcherFds.set i (cp.watcherFds.getLastD fd)).dropLast }

def cpNotifyWatchers (cp : ControlPlane) (frame : Bytes) : ControlPlane :=
  cp.watcherFds.foldl
    (fun cp wfd =>
      match cp.peerOf wfd with
      | none => cp
      | some a =>
        if (cp.reg.peers a).occupied ≠ .live then cp
        else cpSendFrame cp (cp.reg.peers a).key frame) cp

/-! ### Registration -/

def doConnect (cp : ControlPlane) (key : Key) (fd : Fd) : ControlPlane :=
  cpNotifyWatchers { cp with reg := cpRegistryInsert cp.reg key fd } (buildPeerPresent key)

def doDisconnect (cp : ControlPlane) (key : Key) (fd : Fd) (reason : PeerGoneReason) :
    ControlPlane :=
  let cp := cpRemoveWatcher cp fd
  cpNotifyWatchers { cp with reg := cpRegistryRemove cp.reg key } (buildPeerGone key reason)

def cpOnPeerConnect : ControlPlane → Key → Fd → ControlPlane := doConnect

def cpOnPeerGone : ControlPlane → Key → Fd → PeerGoneReason → ControlPlane := doDisconnect

/-- `DpRemovePeer(cp->data_plane, key)`. -/
def cpRemovePeer (cp : ControlPlane) (key : Key) : ControlPlane :=
  { cp with dataPlane := dpRemovePeer cp.dataPlane key }

/-! ### Handlers -/

def cpReply (cp : ControlPlane) (fd : Fd) (frame : Bytes) : ControlPlane :=
  match cp.peerOf fd with
  | none => cp
  | some a => cpSendFrame cp (cp.reg.peers a).key frame

def handleWatchConns (cp : ControlPlane) (fd : Fd) : ControlPlane :=
  (List.finRange kCpMaxPeers).foldl
    (fun cp i =>
      let p := cp.reg.peers i
      if p.occupied ≠ .live then cp
      else if p.fd = fd then cp
      else cpReply cp fd (buildPeerPresent p.key)) (cpAddWatcher cp fd)

def handlePing (cp : ControlPlane) (fd : Fd) (payload : Bytes) : ControlPlane :=
  if payload.length < kPingDataSize then cp else cpReply cp fd (buildPong payload)

def handleNotePreferred (cp : ControlPlane) (fd : Fd) (payload : Bytes) : ControlPlane :=
  match payload with
  | [] => cp
  | b :: _ =>
    match cp.peerOf fd with
    | none => cp
    | some a => { cp with reg := cp.reg.setPeer a { cp.reg.peers a with preferred := b } }

def handleClosePeer (cp : ControlPlane) (payload : Bytes) : ControlPlane :=
  if hlen : payload.length < kKeySize then cp
  else
    let key := toKey payload (kKeySize_le hlen)
    match cpRegistryLookup cp.reg key with
    | none => cp
    | some a => doDisconnect (cpRemovePeer cp key) key (cp.reg.peers a).fd .kDisconnected

/-- PeerGone (`control_plane.cc:517-527`): the registry entry is removed twice. -/
def handlePeerGone (cp : ControlPlane) (fd : Fd) (payload : Bytes) : ControlPlane :=
  if hlen : payload.length < kKeySize then cp
  else
    let key := toKey payload (kKeySize_le hlen)
    cpRemovePeer
      (doDisconnect { cp with reg := cpRegistryRemove cp.reg key } key fd .kDisconnected) key

/-- Hop counts are bytes; 255 after the increment is poison. -/
def cpHandleRouteAnnounce (cp : ControlPlane) (fd : Fd) (payload : Bytes) : ControlPlane :=
  match cp.relayTable with
  | none => cp
  | some rt =>
    let srcRelay :=
      ((rt.find fun e => e.occupied && decide (e.fd = fd)).map fun i =>
        (rt.entries i).relayId).getD 0
    if srcRelay = 0 then cp
    else
      { cp with relayTable := some ((hdParseRouteAnnounce payload 256).foldl
          (fun rt e =>
            let newHops := (e.2 + 1) % 256
            if e.1 = rt.selfId then rt
            else if 255 ≤ newHops then rt
            else relayTableUpdateRoute rt e.1 newHops srcRelay fd) rt) }

def cpHandleHdPeerInfo (cp : ControlPlane) (payload : Bytes) : ControlPlane :=
  match cp.iceAgent with
  | none => cp
  | some agent =>
    if !cp.level2Enabled then cp
    else if payload.length < kKeySize then cp
    else
      match iceFindSession agent (payload.take kKeySize) with
      | none => cp
      | some i =>
        match iceParseCandidates (agent.sessions i) (payload.drop kKeySize) with
        | none => cp
        | some s =>
          let s :=
            if s.localCandidates ≠ [] ∧ s.remoteCandidates ≠ [] ∧ s.state = .kGathering then
              iceFormPairs s
            else s
          { cp with iceAgent := some { agent with
              sessions := Function.update agent.sessions i s } }

/-- `CpProcessFrame` (`control_plane.cc:459-537`). -/
def cpProcessFrame (cp : ControlPlane) (fd : Fd) (type : FrameType) (payload : Bytes) :
    ControlPlane :=
  if type = HdFrameType.kPeerInfo then cpHandleHdPeerInfo cp payload
  else if type = HdFrameType.kRouteAnnounce then cpHandleRouteAnnounce cp fd payload
  else if type = HdFrameType.kOpenConnection then cpHandleOpenConnection cp fd payload
  else if type = HdFrameType.kIncomingConnResponse then cpHandleIncomingConnResponse cp fd payload
  else if type = HdFrameType.kFleetOpenConnection then cpHandleFleetOpenConnection cp fd payload
  else if type = HdFrameType.kFleetOpenConnectionResult then
    cpHandleFleetOpenConnectionResult cp fd payload
  else if type = .kWatchConns then handleWatchConns cp fd
  else if type = .kPing then handlePing cp fd payload
  else if type = .kNotePreferred then handleNotePreferred cp fd payload
  else if type = .kClosePeer then handleClosePeer cp payload
  else if type = .kPeerGone then handlePeerGone cp fd payload
  else cp

/-- One message off worker `wid`'s pipe, as `CpRunLoop` processes it. -/
def popPipe (cp : ControlPlane) (wid : ℕ) : Option ControlPlane :=
  match (cp.dataPlane.workers wid).pipe with
  | [] => none
  | msg :: rest =>
    some (cpProcessFrame
      { cp with dataPlane := cp.dataPlane.onWorker wid fun w => { w with pipe := rest } }
      msg.fd msg.type msg.payload)

end HyperDerp
