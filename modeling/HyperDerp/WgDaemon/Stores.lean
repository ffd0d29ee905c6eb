import HyperDerp.HdProtocol
import HyperDerp.Lib.FrontScan
import HyperDerp.Lib.Runs

/-!
# The peer stores of hdwg (`hd_wg.cc:270-560`, `wg_peer.cc`, `wg_proxy.cc`)

The peer table, the proxy table and the peers of wireguard.ko, and what frames of the relay,
packets of wireguard.ko and the periodic check do to them. What the daemon sends is left out.
-/

namespace HyperDerp.WgDaemon

open FrontScan

inductive WgPeerState where
  | kNew
  | kWgexSent
  | kWgexDone
  | kIceGathering
  | kIceChecking
  | kDirect
  | kRelayed
  deriving DecidableEq

def kWgMaxPeers : ℕ := 256
def kWgMaxProxyPeers : ℕ := 256

structure WgPeer where
  hdKey : Key := zeroKey
  hdPeerId : ℕ := 0
  wgPubkey : Key := zeroKey
  tunnelIp : ℕ := 0
  state : WgPeerState := .kNew
  wgexStartNs : UInt64 := 0
  iceStartNs : UInt64 := 0
  iceBaselineHs : UInt64 := 0
  directIp : ℕ := 0
  directPort : ℕ := 0
  directLastCheckNs : UInt64 := 0
  directLastRxChangeNs : UInt64 := 0
  directLastRxBytes : UInt64 := 0
  directLastTxBytes : UInt64 := 0
  active : Bool := false

structure WgProxyPeer where
  hdKey : Key := zeroKey
  hdPeerId : ℕ := 0
  wgPubkey : Key := zeroKey
  tunnelIp : ℕ := 0
  wgSrcPort : ℕ := 0
  active : Bool := false

/-- `WgPeerConfig` without the key it is stored under. Addresses and ports are the numbers
their bytes are in network order. -/
structure WgPeerConfig where
  endpointIp : ℕ
  endpointPort : ℕ
  allowedIp : ℕ
  allowedPrefix : ℕ
  keepaliveSecs : ℕ

structure WgDaemonConfig where
  publicKey : Key
  proxyPort : ℕ := 51821
  keepaliveSecs : ℕ := 25
  forceRelay : Bool := false

structure State where
  peers : Fin kWgMaxPeers → WgPeer := fun _ => {}
  count : ℤ := 0
  proxyPeers : Fin kWgMaxProxyPeers → WgProxyPeer := fun _ => {}
  peerCount : ℤ := 0
  wg : Key → Option WgPeerConfig := fun _ => none

/-- What one event reads from the clock, at its first and its second reading, and from
wireguard.ko. -/
structure Env where
  now : UInt64 := 0
  later : UInt64 := 0
  setOk : Bool := true
  removeOk : Bool := true
  handshake : UInt64 := 0
  rxBytes : UInt64 := 0
  txBytes : UInt64 := 0

namespace State

def setPeer (s : State) (i : Fin kWgMaxPeers) (p : WgPeer) : State :=
  { s with peers := Function.update s.peers i p }

def setProxyPeer (s : State) (j : Fin kWgMaxProxyPeers) (q : WgProxyPeer) : State :=
  { s with proxyPeers := Function.update s.proxyPeers j q }

/-! ### The peer table (`wg_peer.cc`) -/

def wgPeerFind (s : State) (hdKey : Key) : Option (Fin kWgMaxPeers) :=
  first s.peers fun p => p.active && p.hdKey = hdKey

def wgPeerFindById (s : State) (hdPeerId : ℕ) : Option (Fin kWgMaxPeers) :=
  first s.peers fun p => p.active && p.hdPeerId = hdPeerId

def wgPeerAdd (s : State) (hdKey : Key) (hdPeerId : ℕ) : Option (State × Fin kWgMaxPeers) :=
  match s.wgPeerFind hdKey with
  | some i => some (s.setPeer i { s.peers i with hdPeerId := hdPeerId }, i)
  | none =>
    match first s.peers fun p => !p.active with
    | some i =>
      -- the WireGuard key and the tunnel address of the slot's last peer stay
      let p := { s.peers i with
        hdKey := hdKey
        hdPeerId := hdPeerId
        state := .kNew
        active := true }
      some ({ s.setPeer i p with count := s.count + 1 }, i)
    | none => none

def wgPeerRemove (s : State) (hdKey : Key) : State :=
  match s.wgPeerFind hdKey with
  | some i => { s.setPeer i { s.peers i with active := false } with count := s.count - 1 }
  | none => s

/-! ### The proxy table (`wg_proxy.cc`) -/

def wgProxyFindByHdId (s : State) (hdPeerId : ℕ) : Option (Fin kWgMaxProxyPeers) :=
  first s.proxyPeers fun q => q.active && q.hdPeerId = hdPeerId

def wgProxyAddPeer (s : State) (hdKey : Key) (hdPeerId : ℕ) (wgPubkey : Key) (tunnelIp : ℕ) :
    State :=
  match s.wgProxyFindByHdId hdPeerId with
  | some _ => s
  | none =>
    match first s.proxyPeers fun q => !q.active with
    | some j =>
      { s.setProxyPeer j ⟨hdKey, hdPeerId, wgPubkey, tunnelIp, 0, true⟩ with
        peerCount := s.peerCount + 1 }
    | none => s

def wgProxyRemovePeer (s : State) (wgPubkey : Key) : State :=
  match first s.proxyPeers fun q => q.active && q.wgPubkey = wgPubkey with
  | some j =>
    { s.setProxyPeer j { s.proxyPeers j with active := false } with
      peerCount := s.peerCount - 1 }
  | none => s

/-- `WgProxyHandleUdp`: the first packet from a port teaches the port of a peer without one. -/
def wgProxyHandleUdp (s : State) (srcPort : ℕ) : State :=
  match first s.proxyPeers fun q => q.active && q.wgSrcPort = srcPort with
  | some _ => s
  | none =>
    match first s.proxyPeers fun q => q.active && q.wgSrcPort = 0 with
    | some j => s.setProxyPeer j { s.proxyPeers j with wgSrcPort := srcPort }
    | none => s

/-! ### wireguard.ko (`wg_netlink.cc`) -/

def wgNlSetPeer (s : State) (ok : Bool) (publicKey : Key) (wpc : WgPeerConfig) : State :=
  if ok then { s with wg := Function.update s.wg publicKey (some wpc) } else s

def wgNlRemovePeer (s : State) (ok : Bool) (publicKey : Key) : State :=
  if ok then { s with wg := Function.update s.wg publicKey none } else s

end State

def keyAt (data : Bytes) (off : ℕ) : Key :=
  if h : kKeySize ≤ (data.drop off).length then toKey (data.drop off) h else zeroKey

def readU32 (data : Bytes) (off : ℕ) : ℕ := BigEndian.val ((data.drop off).take 4)

def kWgexMagic : Bytes := [0x57, 0x47, 0x45, 0x58]
def kCandMagic : Bytes := [0x43, 0x41, 0x4e, 0x44]
def kFallMagic : Bytes := [0x46, 0x41, 0x4c, 0x4c]
def kWgexSize : ℕ := 40

def htonlInaddrLoopback : ℕ := 0x7f000001

def wgParseWgex (data : Bytes) : Option (Key × ℕ) :=
  if data.length < kWgexSize then none
  else if data.take 4 ≠ kWgexMagic then none
  else some (keyAt data 4, readU32 data 36)

def WgPeerState.Configured (st : WgPeerState) : Prop :=
  st = .kDirect ∨ st = .kRelayed ∨ st = .kIceChecking

instance : DecidablePred WgPeerState.Configured :=
  fun st => inferInstanceAs (Decidable (st = .kDirect ∨ st = .kRelayed ∨ st = .kIceChecking))

def firstCandidate : Bytes → Option (ℕ × ℕ)
  | a :: b :: c :: d :: e :: f :: rest =>
    let ip := BigEndian.val [a, b, c, d]
    let port := BigEndian.val [e, f]
    if ip ≠ 0 ∧ port ≠ 0 then some (ip, port) else firstCandidate rest
  | _ => none

variable (cfg : WgDaemonConfig)

namespace State

def handlePeerInfo (s : State) (payload : Bytes) : State :=
  if payload.length < 34 then s
  else if keyAt payload 0 = cfg.publicKey then s
  else
    match s.wgPeerAdd (keyAt payload 0) (readU16 payload 32) with
    | none => s
    | some (s, i) =>
      if (s.peers i).state = .kNew then s.setPeer i { s.peers i with state := .kWgexSent } else s

def handleWgex (s : State) (i : Fin kWgMaxPeers) (env : Env) (data : Bytes) : State :=
  match wgParseWgex data with
  | none => s
  | some (wgPubkey, tunnelIp) =>
    if (s.peers i).state.Configured then s
    else
      s.setPeer i { s.peers i with
        wgPubkey := wgPubkey
        tunnelIp := tunnelIp
        state := .kWgexDone
        wgexStartNs := env.now }

/-- `StartRelay`; what wireguard.ko answers is ignored. -/
def startRelay (s : State) (i : Fin kWgMaxPeers) (env : Env) : State :=
  let p := s.peers i
  let s := s.wgNlSetPeer env.setOk p.wgPubkey
    ⟨htonlInaddrLoopback, cfg.proxyPort, p.tunnelIp, 32, cfg.keepaliveSecs⟩
  let s := s.wgProxyAddPeer p.hdKey p.hdPeerId p.wgPubkey p.tunnelIp
  s.setPeer i { p with state := .kRelayed }

def handleCandidates (s : State) (i : Fin kWgMaxPeers) (env : Env) (data : Bytes) : State :=
  if cfg.forceRelay then s
  else if data.length < 4 ∨ data.take 4 ≠ kCandMagic then s
  else
    let p := s.peers i
    if p.state = .kWgexDone ∨ p.state = .kRelayed then
      match firstCandidate (data.drop 4) with
      | none => s
      | some (ip, port) =>
        if env.setOk then
          (s.wgNlSetPeer true p.wgPubkey
            ⟨ip, port, p.tunnelIp, 32, cfg.keepaliveSecs⟩).setPeer i { p with
              directIp := ip
              directPort := port
              iceBaselineHs := env.handshake
              iceStartNs := env.now
              state := .kIceChecking }
        else s
    else s

def fallBack (s : State) (i : Fin kWgMaxPeers) (env : Env) : State :=
  let s := (s.wgNlRemovePeer env.removeOk (s.peers i).wgPubkey).startRelay cfg i env
  s.setPeer i { s.peers i with directLastRxChangeNs := 0 }

def handlePeerGone (s : State) (env : Env) (payload : Bytes) : State :=
  if payload.length < 32 then s
  else
    match s.wgPeerFind (keyAt payload 0) with
    | none => s
    | some i =>
      let wgPubkey := (s.peers i).wgPubkey
      ((s.wgNlRemovePeer env.removeOk wgPubkey).wgProxyRemovePeer wgPubkey).wgPeerRemove
        (keyAt payload 0)

end State

def WgPeer.sampled (p : WgPeer) (env : Env) : WgPeer :=
  { p with
    directLastCheckNs := env.now
    directLastRxBytes := env.rxBytes
    directLastRxChangeNs :=
      if env.rxBytes ≠ p.directLastRxBytes then env.now else p.directLastRxChangeNs
    directLastTxBytes := env.txBytes }

def WgPeer.stalled (p : WgPeer) (env : Env) : Prop :=
  p.directLastTxBytes < env.txBytes ∧ 15000 < env.now - (p.sampled env).directLastRxChangeNs

instance (p : WgPeer) (env : Env) : Decidable (p.stalled env) :=
  inferInstanceAs (Decidable (_ ∧ _))

def State.checkDirectPromotion (s : State) (i : Fin kWgMaxPeers) (env : Env) : State :=
  let p := s.peers i
  if p.state = .kWgexDone ∧ 500 < env.now - p.wgexStartNs then s.startRelay cfg i env
  else if p.state = .kDirect then
    if env.now - p.directLastCheckNs < 2000 then s
    else if p.directLastRxChangeNs = 0 then
      s.setPeer i { p with
        directLastCheckNs := env.now
        directLastRxBytes := env.rxBytes
        directLastTxBytes := env.txBytes
        directLastRxChangeNs := env.now }
    else if p.stalled env then (s.setPeer i (p.sampled env)).fallBack cfg i env
    else s.setPeer i (p.sampled env)
  else if p.state ≠ .kIceChecking then s
  else if p.iceBaselineHs < env.handshake then
    s.setPeer i { p with state := .kDirect, directLastCheckNs := 0, directLastRxChangeNs := 0 }
  else
    let kick := p.directLastCheckNs = 0 ∨ 500 ≤ env.later - p.directLastCheckNs
    let s := s.setPeer i { p with
      directLastCheckNs := if kick then env.later else p.directLastCheckNs }
    if 10000 < env.now - p.iceStartNs then s.startRelay cfg i env else s

inductive Label where
  /-- a frame of the relay -/
  | frame (type : HdFrameType) (buf : Bytes) (env : Env)
  /-- a packet of wireguard.ko -/
  | udp (srcPort : ℕ)
  /-- one round of the periodic loop over the table -/
  | check (i : Fin kWgMaxPeers) (env : Env)

/-- What the daemon does with mesh data of a peer; other payloads go to wireguard.ko. -/
def State.handleMeshData (s : State) (srcId : ℕ) (payload : Bytes) (env : Env) : State :=
  match s.wgPeerFindById srcId with
  | none => s
  | some i =>
    if payload.take 4 = kWgexMagic then s.handleWgex i env payload
    else if payload.take 4 = kCandMagic then s.handleCandidates cfg i env payload
    else if payload.take 4 = kFallMagic ∧ (s.peers i).state = .kDirect then s.fallBack cfg i env
    else s

def step (s : State) : Label → Option State
  | .frame type buf env =>
    if type = .kPeerInfo then some (s.handlePeerInfo cfg buf)
    else if type = .kMeshData then
      if buf.length < 2 then some s
      else some (s.handleMeshData cfg (readU16 buf 0) (buf.drop 2) env)
    else if type = .kPeerGone then some (s.handlePeerGone env buf)
    else some s
  | .udp srcPort => some (s.wgProxyHandleUdp srcPort)
  | .check i env =>
    if (s.peers i).active then some (s.checkDirectPromotion cfg i env) else some s

def Init (s : State) : Prop := s = {}

end HyperDerp.WgDaemon
