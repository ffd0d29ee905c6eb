import HyperDerp.WgRelay.Roster
import HyperDerp.WgRelay.Mac1

/-!
# Forward path (`wg_relay.cc:135-160`, `:542-558`, `:780-1233`)

A datagram carries what `NowNs` reads while it is handled and whether `sendto`
succeeds. `handlePacket` returns the datagrams handed to `sendto`, in order.
-/

namespace HyperDerp

/-- The readings while a datagram is handled, in the order of the calls. -/
structure PacketClock where
  /-- when the blocklist is asked -/
  arrival : ℕ
  sweep : SweepClock
  /-- in `HandleUnknownSrcHandshakeLocked` and `ConfirmCandidateLocked` -/
  now : ℕ
  /-- when a drop or the last datagram of a peer is dated -/
  last : ℕ

/-- The clock does not tick while the datagram is handled. -/
def PacketClock.still (t : ℕ) : PacketClock := ⟨t, ⟨t, fun _ => t⟩, t, t⟩

structure Datagram where
  pkt : Bytes
  src : Sockaddr
  clock : PacketClock
  sendOk : Bool

abbrev Datagram.now (d : Datagram) : ℕ := d.clock.now

/-- A call of `sendto`: the address and the bytes. -/
abbrev Sent := Sockaddr × Bytes

def msgType (pkt : Bytes) : Byte := pkt.headD 0

/-- The `uint32_t` at a byte offset, on a little-endian machine. -/
def readIndex (pkt : Bytes) (off : ℕ) : ℕ := BigEndian.val ((pkt.drop off).take 4).reverse

def isWgShaped (pkt : Bytes) : Bool :=
  match pkt with
  | [] => false
  | 1 :: _ => pkt.length = 148
  | 2 :: _ => pkt.length = 92
  | 3 :: _ => pkt.length = 64
  | 4 :: _ => 32 ≤ pkt.length
  | _ => false

/-- `EndpointMatches`: equal, or a v4 endpoint seen through the dual-stack socket. -/
def endpointMatches (p : WgRelayPeer) (src : Sockaddr) : Bool :=
  sockaddrEqual p.endpoint src ||
    match p.endpoint, src with
    | .in4 addr port, .in6 head tail port' _ _ => head = kV4Prefix && port' = port && tail = addr
    | _, _ => false

/-! ### Counting drops -/

def WgRelay.setStats (r : WgRelay) (f : WgRelayStats → WgRelayStats) : WgRelay :=
  { r with stats := f r.stats }

def dropUnknownSrc (r : WgRelay) (d : Datagram) : WgRelay :=
  recordDropBySrcLocked
    (r.setStats fun s => { s with dropUnknownSrc := s.dropUnknownSrc + 1 }) d.src .kUnknownSrc d.clock.last

def countForward (r : WgRelay) : WgRelay :=
  r.setStats fun s => { s with fwdPackets := s.fwdPackets + 1 }

/-! ### Handshakes from an unknown source (`HandleUnknownSrcHandshakeLocked`) -/

def keyVerifies (p : WgRelayPeer) (pkt : Bytes) : Bool :=
  p.pubkeyB64 ≠ [] &&
    match decodeWgPubkey p.pubkeyB64 with
    | some pub => verifyMac1 pkt pub
    | none => false

def handshakeTarget (r : WgRelay) (pkt : Bytes) : Option (WgRelayPeer × WgRelayPeer) :=
  r.peers.findSome? fun p =>
    if keyVerifies p pkt then (findLinkPartnerLocked r p.name).map fun sender => (p, sender)
    else none

def WgRelayPeer.registerCandidate (p : WgRelayPeer) (d : Datagram) : WgRelayPeer :=
  { p with
    candidateEndpoint := some d.src
    candidateSetNs := d.now
    candidateLastForwardNs := d.now
    candidatePartnerResponded := false
    candidateInitSenderIndex := readIndex d.pkt 4 }

def handleUnknownSrcHandshakeLocked (r : WgRelay) (d : Datagram) : WgRelay × List Sent :=
  if msgType d.pkt ≠ 1 then (dropUnknownSrc r d, [])
  else
    match handshakeTarget r d.pkt with
    | none =>
      let r := r.setStats fun s =>
        { s with dropHandshakeNoPubkeyMatch := s.dropHandshakeNoPubkeyMatch + 1 }
      (recordDropBySrcLocked r d.src .kHandshakeNoPubkeyMatch d.clock.last, [])
    | some (p, sender) =>
      if sender.lastRelearnNs ≠ 0 ∧ sub64 d.now sender.lastRelearnNs < kRelearnCooldownNs then
        (dropUnknownSrc r d, [])
      else
        match sender.candidateEndpoint with
        | some c =>
          if sockaddrEqual c d.src then
            -- a retry refreshes the index even when it is not forwarded
            let r := r.modifyPeer sender.name fun s =>
              { s with candidateInitSenderIndex := readIndex d.pkt 4 }
            if sub64 d.now sender.candidateLastForwardNs < kRetryForwardGapNs then
              (dropUnknownSrc r d, [])
            else
              let r := r.modifyPeer sender.name fun s => { s with candidateLastForwardNs := d.now }
              (if d.sendOk then countForward r else r, [(p.endpoint, d.pkt)])
          else (dropUnknownSrc r d, [])
        | none =>
          let r := r.modifyPeer sender.name (WgRelayPeer.registerCandidate · d)
          (if d.sendOk then countForward r else r, [(p.endpoint, d.pkt)])

/-! ### Confirmation (`ConfirmCandidateLocked`) -/

def WgRelayPeer.confirmable (p : WgRelayPeer) (src : Sockaddr) : Bool :=
  (p.candidateEndpoint.any fun c => sockaddrEqual c src) && p.candidatePartnerResponded

def WgRelayPeer.confirm (c : Libc) (p : WgRelayPeer) (ep : Sockaddr) (now : ℕ) : WgRelayPeer :=
  { p.clearCandidate with
    endpoint := ep
    endpointStr := formatEndpoint c ep
    lastRelearnNs := now
    endpointRelearn := p.endpointRelearn + 1 }

def confirmCandidateLocked (c : Libc) (r : WgRelay) (src : Sockaddr) (now : ℕ) :
    WgRelay × Option WgRelayPeer :=
  match r.peers.find? (WgRelayPeer.confirmable · src) with
  | none => (r, none)
  | some p =>
    let partner := findLinkPartnerLocked r p.name
    let r :=
      match partner with
      | some q => xdpRemoveLinkByNameLocked r p.name q.name
      | none => r
    let r := { r with
      peers := modifyFirst (WgRelayPeer.confirmable · src) (WgRelayPeer.confirm c · src now) r.peers }
    let r :=
      match partner with
      | some q => xdpInsertLinkByNameLocked r p.name q.name
      | none => r
    let r := persistRosterLocked r
    let ip := extractV4SrcHostOrder src
    let r := if ip ≠ 0 then { r with strikes := Function.update r.strikes ip none } else r
    (r, some (p.confirm c src now))

/-! ### `HandlePacket` -/

def forwardDst (r : WgRelay) (name : Bytes) : Option WgRelayPeer :=
  match r.links.find? fun l => l.touches name with
  | some l => if l.a = name then r.findPeer l.b else r.findPeer l.a
  | none => none

def mac1Rejects (dst : WgRelayPeer) (pkt : Bytes) : Bool :=
  (msgType pkt = 1 || msgType pkt = 2) && dst.pubkeyB64 ≠ [] &&
    match decodeWgPubkey dst.pubkeyB64 with
    | some pub => !verifyMac1 pkt pub
    | none => false

def mirrorResponse (r : WgRelay) (dst : WgRelayPeer) (pkt : Bytes) : WgRelay × List Sent :=
  match dst.candidateEndpoint with
  | none => (r, [])
  | some c =>
    let recvIdx := readIndex pkt 8
    (r.modifyPeer dst.name fun p =>
      if p.candidateInitSenderIndex ≠ 0 ∧ recvIdx = p.candidateInitSenderIndex then
        { p with candidatePartnerResponded := true }
      else p,
    [(c, pkt)])

def forwardFrom (r : WgRelay) (src : WgRelayPeer) (d : Datagram) : WgRelay × List Sent :=
  let r := r.modifyPeer src.name fun p =>
    { p with rxBytes := p.rxBytes + d.pkt.length, lastSeenNs := d.clock.last }
  match forwardDst r src.name with
  | none =>
    let r := r.setStats fun s => { s with dropNoLink := s.dropNoLink + 1 }
    (r.modifyPeer src.name fun p => { p with dropNoLinkPeer := p.dropNoLinkPeer + 1 }, [])
  | some dst =>
    if mac1Rejects dst d.pkt then
      let r := r.setStats fun s =>
        { s with dropHandshakePubkeyMismatch := s.dropHandshakePubkeyMismatch + 1 }
      (r.modifyPeer src.name fun p =>
        { p with dropPubkeyMismatchPeer := p.dropPubkeyMismatchPeer + 1 }, [])
    else if d.sendOk = false then (r, [(dst.endpoint, d.pkt)])
    else
      let (r, mirrored) := if msgType d.pkt = 2 then mirrorResponse r dst d.pkt else (r, [])
      let r := countForward r
      (r.modifyPeer src.name fun p => { p with fwdBytes := p.fwdBytes + d.pkt.length },
        (dst.endpoint, d.pkt) :: mirrored)

def blocked (r : WgRelay) (src : Sockaddr) (now : ℕ) : Bool :=
  extractV4SrcHostOrder src ≠ 0 && (r.blocklist (extractV4SrcHostOrder src)).any fun e => now < e

def handlePacket (c : Libc) (r : WgRelay) (d : Datagram) : WgRelay × List Sent :=
  let r := r.setStats fun s => { s with rxPackets := s.rxPackets + 1 }
  if blocked r d.src d.clock.arrival then (r, [])
  else if isWgShaped d.pkt = false then
    let r := r.setStats fun s => { s with dropNotWgShaped := s.dropNotWgShaped + 1 }
    (recordDropBySrcLocked r d.src .kNotWgShaped d.clock.last, [])
  else
    let r := expireCandidatesLocked r d.clock.sweep
    match r.peers.find? (endpointMatches · d.src) with
    | some p => forwardFrom r p d
    | none =>
      if msgType d.pkt = 1 ∨ msgType d.pkt = 2 then handleUnknownSrcHandshakeLocked r d
      else if msgType d.pkt = 4 then
        match confirmCandidateLocked c r d.src d.now with
        | (r, some p) => forwardFrom r p d
        | (_, none) => (dropUnknownSrc r d, [])
      else (dropUnknownSrc r d, [])

end HyperDerp
