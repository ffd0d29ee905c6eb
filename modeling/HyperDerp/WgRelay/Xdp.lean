import HyperDerp.WgRelay.Types

/-!
# Userspace side of the XDP maps (`wg_relay.cc:586-605`, `:1280-1307`, `:1643-1799`)

`wg_peers` maps the IPv4 endpoint of a linked peer to its partner's endpoint and
the interface the partner is behind. Map updates are taken to succeed.
-/

namespace HyperDerp

def endpointToV4 : Sockaddr → Option EpKey
  | .in4 addr port => some ⟨addr, port⟩
  | .in6 head tail port _ _ => if head = kV4Prefix then some ⟨tail, port⟩ else none

/-- `ResolveNicIfindex`: 0 stands for no preference. -/
def resolveNicIfindex (r : WgRelay) (nic : Bytes) : ℕ :=
  if r.xdp.attached = false then 0
  else
    match r.xdp.attachments with
    | [] => 0
    | first :: _ =>
      if nic = [] then first.ifindex
      else
        match r.xdp.attachments.find? fun a => a.iface = nic with
        | some a => a.ifindex
        | none => 0

/-! ### Link entries -/

def xdpInsertLinkDir (r : WgRelay) (src dst : Sockaddr) (dstIfindex : ℕ) : WgRelay :=
  if r.xdp.attached = false then r
  else
    match endpointToV4 src, endpointToV4 dst with
    | some key, some d =>
      { r with xdp := { r.xdp with
          wgPeers := Function.update r.xdp.wgPeers key (some ⟨d.ip, d.port, dstIfindex⟩) } }
    | _, _ => r

def xdpRemoveLinkDir (r : WgRelay) (src : Sockaddr) : WgRelay :=
  if r.xdp.attached = false then r
  else
    match endpointToV4 src with
    | some key =>
      { r with xdp := { r.xdp with
          wgPeers := Function.update r.xdp.wgPeers key none
          wgMacs := Function.update r.xdp.wgMacs key none } }
    | none => r

def WgRelay.lastPeer (r : WgRelay) (name : Bytes) : Option WgRelayPeer :=
  r.peers.reverse.find? fun p => p.name = name

def xdpInsertLinkByNameLocked (r : WgRelay) (a b : Bytes) : WgRelay :=
  match r.lastPeer a, r.lastPeer b with
  | some pa, some pb =>
    let r1 := xdpInsertLinkDir r pa.endpoint pb.endpoint (resolveNicIfindex r pb.nic)
    xdpInsertLinkDir r1 pb.endpoint pa.endpoint (resolveNicIfindex r pa.nic)
  | _, _ => r

def xdpRemoveLinkByNameLocked (r : WgRelay) (a b : Bytes) : WgRelay :=
  let r1 :=
    match r.lastPeer a with
    | some pa => xdpRemoveLinkDir r pa.endpoint
    | none => r
  match r.lastPeer b with
  | some pb => xdpRemoveLinkDir r1 pb.endpoint
  | none => r1

def xdpBlocklistInsert (r : WgRelay) (hostIp : UInt32) (expiryNs : ℕ) : WgRelay :=
  if r.xdp.attached = false then r
  else
    { r with xdp := { r.xdp with
        wgBlocklist := Function.update r.xdp.wgBlocklist hostIp (some expiryNs) } }

end HyperDerp
