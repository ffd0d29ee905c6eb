import HyperDerp.WgRelay.Forward

/-!
# The XDP program (`bpf/wg_relay.bpf.c:192-432`)

A frame is the headers that fit in it and what follows them, with multi-byte fields
in host byte order. A header is absent when the bounds check on it fails. The result
holds the action, the frame as rewritten and the maps the program writes.
-/

namespace HyperDerp

structure EthHdr where
  hDest : Bytes
  hSource : Bytes
  hProto : UInt16

structure IpHdr where
  version : UInt8
  ihl : UInt8
  tos : UInt8
  totLen : UInt16
  id : UInt16
  fragOff : UInt16
  ttl : UInt8
  protocol : UInt8
  check : UInt16
  saddr : UInt32
  daddr : UInt32

structure UdpHdr where
  source : UInt16
  dest : UInt16
  len : UInt16
  check : UInt16

structure XdpFrame where
  eth : Option EthHdr
  ip : Option IpHdr
  udp : Option UdpHdr
  payload : Bytes
  ingressIfindex : ℕ

/-- The maps userspace fills when it attaches the program. -/
structure NicMaps where
  wgPort : Option UInt16
  wgNicMacs : ℕ → Option Bytes
  wgNicIps : ℕ → Option UInt32

inductive XdpStat
  | rx
  | fwd
  | passNoPeer
  | passNoMac
  | dropNotWgShaped
  | dropBlocklisted
  deriving DecidableEq

inductive XdpAction
  | pass
  | drop
  | tx
  /-- `bpf_redirect_map` through the devmap to this interface. -/
  | redirect (ifindex : ℕ)
  deriving DecidableEq

structure XdpOut where
  action : XdpAction
  frame : XdpFrame
  wgMacs : EpKey → Option Bytes
  /-- Bytes added to the counters of the source endpoint. -/
  peerBytes : ℕ := 0
  stats : List XdpStat := []

def ETH_P_IP : UInt16 := 0x0800
def IPPROTO_UDP : UInt8 := 17

/-- `ipv4_csum`: two folding steps, then the complement of the low half. -/
def ipv4Csum (ip : IpHdr) : UInt16 :=
  let words : List ℕ :=
    [ip.version.toNat * 2 ^ 12 + ip.ihl.toNat * 2 ^ 8 + ip.tos.toNat, ip.totLen.toNat, ip.id.toNat,
     ip.fragOff.toNat, ip.ttl.toNat * 2 ^ 8 + ip.protocol.toNat, ip.check.toNat,
     ip.saddr.toNat / 2 ^ 16, ip.saddr.toNat % 2 ^ 16, ip.daddr.toNat / 2 ^ 16,
     ip.daddr.toNat % 2 ^ 16]
  let sum := words.sum
  let sum := sum / 2 ^ 16 + sum % 2 ^ 16
  let sum := sum + sum / 2 ^ 16
  ~~~ (UInt16.ofNat sum)

/-- The shape filter on the type byte and the length the UDP header gives, which wraps. -/
def xdpShaped (wgType : Byte) (udpLen : UInt16) : Bool :=
  let len := udpLen - 8
  if wgType = 1 then len = 148
  else if wgType = 2 then len = 92
  else if wgType = 3 then len = 64
  else if wgType = 4 then 32 ≤ len
  else false

def xdpHeaders (f : XdpFrame) : Option (EthHdr × IpHdr × UdpHdr) :=
  match f.eth, f.ip, f.udp with
  | some eth, some ip, some udp =>
    if eth.hProto = ETH_P_IP ∧ ip.protocol = IPPROTO_UDP ∧ ip.ihl = 5 then some (eth, ip, udp)
    else none
  | _, _, _ => none

def xdpTransmit (f : XdpFrame) (eth : EthHdr) (ip : IpHdr) (udp : UdpHdr) (partner : EpVal)
    (srcMac dstMac : Bytes) (srcIp : UInt32) (wgMacs : EpKey → Option Bytes) : XdpOut :=
  let eth := { eth with hSource := srcMac, hDest := dstMac }
  let ip := { ip with saddr := srcIp, daddr := partner.ip, ttl := 64, check := 0 }
  let ip := { ip with check := ipv4Csum ip }
  let udp := { udp with source := udp.dest, dest := partner.port, check := 0 }
  { action :=
      if partner.ifindex = 0 ∨ partner.ifindex = f.ingressIfindex then .tx
      else .redirect partner.ifindex
    frame := { f with eth := some eth, ip := some ip, udp := some udp }
    wgMacs := wgMacs
    peerBytes := ip.totLen.toNat + 14
    stats := [.rx, .fwd] }

def wgRelayXdp (x : WgXdpCtx) (nics : NicMaps) (ktime : ℕ) (f : XdpFrame) : XdpOut :=
  let exit := fun (action : XdpAction) (wgMacs : EpKey → Option Bytes) (stats : List XdpStat) =>
    ({ action := action, frame := f, wgMacs := wgMacs, stats := stats } : XdpOut)
  match xdpHeaders f with
  | none => exit .pass x.wgMacs []
  | some (eth, ip, udp) =>
    if nics.wgPort ≠ some udp.dest then exit .pass x.wgMacs []
    else if (x.wgBlocklist ip.saddr).any fun e => ktime < e then
      exit .drop x.wgMacs [.rx, .dropBlocklisted]
    else
      match f.payload with
      | [] => exit .drop x.wgMacs [.rx, .dropNotWgShaped]
      | wgType :: _ =>
        if xdpShaped wgType udp.len = false then exit .drop x.wgMacs [.rx, .dropNotWgShaped]
        else if wgType = 1 ∨ wgType = 2 then exit .pass x.wgMacs [.rx]
        else
          match x.wgPeers ⟨ip.saddr, udp.source⟩ with
          | none => exit .pass x.wgMacs [.rx, .passNoPeer]
          | some partner =>
            let wgMacs := Function.update x.wgMacs ⟨ip.saddr, udp.source⟩ (some eth.hSource)
            match wgMacs ⟨partner.ip, partner.port⟩ with
            | none => exit .pass wgMacs [.rx, .passNoMac]
            | some dstMac =>
              if partner.ifindex = 0 ∨ partner.ifindex = f.ingressIfindex then
                xdpTransmit f eth ip udp partner eth.hDest dstMac ip.daddr wgMacs
              else
                match nics.wgNicMacs partner.ifindex with
                | none => exit .pass wgMacs [.rx, .passNoMac]
                | some srcMac =>
                  match nics.wgNicIps partner.ifindex with
                  | none =>
                    -- the Ethernet addresses are already rewritten here
                    let eth := { eth with hSource := srcMac, hDest := dstMac }
                    { action := .pass, frame := { f with eth := some eth }, wgMacs := wgMacs,
                      stats := [.rx, .passNoMac] }
                  | some srcIp => xdpTransmit f eth ip udp partner srcMac dstMac srcIp wgMacs

/-- Where a frame that leaves through the program goes. -/
def XdpOut.destination (o : XdpOut) : Option EpKey :=
  match o.action, o.frame.ip, o.frame.udp with
  | .tx, some ip, some udp => some ⟨ip.daddr, udp.dest⟩
  | .redirect _, some ip, some udp => some ⟨ip.daddr, udp.dest⟩
  | _, _, _ => none

/-- The datagram the kernel delivers for a frame it is passed: the bytes the UDP length
covers, from the v4-mapped source. -/
def frameDatagram (f : XdpFrame) (clock : PacketClock) (sendOk : Bool) : Option Datagram :=
  match f.ip, f.udp with
  | some ip, some udp =>
    if 8 ≤ udp.len.toNat ∧ udp.len.toNat - 8 ≤ f.payload.length then
      some ⟨f.payload.take (udp.len.toNat - 8), .in6 kV4Prefix ip.saddr udp.source 0 0, clock, sendOk⟩
    else none
  | _, _ => none

end HyperDerp
