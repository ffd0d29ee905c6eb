import HyperDerp.WgRelay.FastAgree

/-!
# Frames and datagrams left intact (`bpf/wg_relay.bpf.c:195-392`, `wg_relay.cc:542-557`, `:1235-1262`)

The Ethernet header is rewritten before the egress address is looked up, so one of the
passes comes after a write. The shape filter goes by the length in the UDP header, which
nothing compares with the frame, and the receive loop of userspace by what fits its buffer.
-/

namespace HyperDerp

namespace Intact

variable {x : WgXdpCtx} {nics : NicMaps} {ktime : ℕ} {f : XdpFrame} {eth : EthHdr} {ip : IpHdr}
  {udp : UdpHdr} {partner : EpVal} {srcMac dstMac : Bytes} {srcIp : UInt32}

/-! ### The way to the rewrites -/

/-- A cookie or transport message in the shape of its header, to the relay's port from a source
that is not blocked. -/
structure Message (x : WgXdpCtx) (nics : NicMaps) (ktime : ℕ) (f : XdpFrame) (eth : EthHdr)
    (ip : IpHdr) (udp : UdpHdr) : Prop where
  headers : xdpHeaders f = some (eth, ip, udp)
  port : nics.wgPort = some udp.dest
  allowed : ¬((x.wgBlocklist ip.saddr).any fun e => ktime < e) = true
  shaped : ∃ wgType rest, f.payload = wgType :: rest ∧ xdpShaped wgType udp.len = true ∧
    ¬(wgType = 1 ∨ wgType = 2)

/-- The maps know the partner and where it is. -/
structure Routed (x : WgXdpCtx) (eth : EthHdr) (ip : IpHdr) (udp : UdpHdr) (partner : EpVal)
    (dstMac : Bytes) : Prop where
  entry : x.wgPeers ⟨ip.saddr, udp.source⟩ = some partner
  mac : Function.update x.wgMacs ⟨ip.saddr, udp.source⟩ (some eth.hSource)
    ⟨partner.ip, partner.port⟩ = some dstMac

def Elsewhere (f : XdpFrame) (partner : EpVal) : Prop :=
  ¬(partner.ifindex = 0 ∨ partner.ifindex = f.ingressIfindex)

/-- The interface is one whose MAC is known but not its address. -/
structure NoEgressIp (nics : NicMaps) (f : XdpFrame) (partner : EpVal) (srcMac : Bytes) : Prop where
  elsewhere : Elsewhere f partner
  srcMac : nics.wgNicMacs partner.ifindex = some srcMac
  srcIp : nics.wgNicIps partner.ifindex = none

theorem headers_some (h : xdpHeaders f = some (eth, ip, udp)) :
    f.eth = some eth ∧ f.ip = some ip ∧ f.udp = some udp := by
  unfold xdpHeaders at h
  split at h
  · next h1 h2 h3 =>
    split at h
    · cases h
      exact ⟨h1, h2, h3⟩
    · cases h
  · cases h

/-- What a frame turns into: an exit before the rewrites, the exit between them, or a
transmission. -/
inductive Outcome (x : WgXdpCtx) (nics : NicMaps) (ktime : ℕ) (f : XdpFrame) : XdpOut → Prop
  | early (o : XdpOut) : o.frame = f → (o.action = .pass ∨ o.action = .drop) → Outcome x nics ktime f o
  | between {eth : EthHdr} {ip : IpHdr} {udp : UdpHdr} {partner : EpVal} {srcMac dstMac : Bytes}
      (o : XdpOut) : Message x nics ktime f eth ip udp → Routed x eth ip udp partner dstMac →
      NoEgressIp nics f partner srcMac → o.action = .pass →
      o.frame = { f with eth := some { eth with hSource := srcMac, hDest := dstMac } } →
      Outcome x nics ktime f o
  | sent {eth : EthHdr} {ip : IpHdr} {udp : UdpHdr} {partner : EpVal} {srcMac dstMac : Bytes}
      {srcIp : UInt32} (macs : EpKey → Option Bytes) : Message x nics ktime f eth ip udp →
      Routed x eth ip udp partner dstMac →
      Outcome x nics ktime f (xdpTransmit f eth ip udp partner srcMac dstMac srcIp macs)

theorem outcome (x : WgXdpCtx) (nics : NicMaps) (ktime : ℕ) (f : XdpFrame) :
    Outcome x nics ktime f (wgRelayXdp x nics ktime f) := by
  unfold wgRelayXdp
  dsimp only
  split
  · exact .early _ rfl (.inl rfl)
  next eth ip udp hdr =>
  split
  · exact .early _ rfl (.inl rfl)
  next hport =>
  split
  · exact .early _ rfl (.inr rfl)
  next hblock =>
  split
  · exact .early _ rfl (.inr rfl)
  next wgType rest hpay =>
  split
  · exact .early _ rfl (.inr rfl)
  next hshape =>
  split
  · exact .early _ rfl (.inl rfl)
  next htype =>
  have hmessage : Message x nics ktime f eth ip udp :=
    ⟨hdr, not_not.1 hport, hblock, wgType, rest, hpay, Bool.not_eq_false _ ▸ hshape, htype⟩
  split
  · exact .early _ rfl (.inl rfl)
  next partner hpartner =>
  split
  · exact .early _ rfl (.inl rfl)
  next dstMac hmac =>
  have hrouted : Routed x eth ip udp partner dstMac := ⟨hpartner, hmac⟩
  split
  · exact .sent _ hmessage hrouted
  next hother =>
  split
  · exact .early _ rfl (.inl rfl)
  next srcMac hsrc =>
  split
  · next hip => exact .between _ hmessage hrouted ⟨hother, hsrc, hip⟩ rfl rfl
  · exact .sent _ hmessage hrouted

theorem run_routed (hm : Message x nics ktime f eth ip udp)
    (hr : Routed x eth ip udp partner dstMac) :
    wgRelayXdp x nics ktime f =
      let wgMacs := Function.update x.wgMacs ⟨ip.saddr, udp.source⟩ (some eth.hSource)
      if partner.ifindex = 0 ∨ partner.ifindex = f.ingressIfindex then
        xdpTransmit f eth ip udp partner eth.hDest dstMac ip.daddr wgMacs
      else
        match nics.wgNicMacs partner.ifindex with
        | none => { action := .pass, frame := f, wgMacs := wgMacs, stats := [.rx, .passNoMac] }
        | some srcMac =>
          match nics.wgNicIps partner.ifindex with
          | none =>
            { action := .pass
              frame := { f with eth := some { eth with hSource := srcMac, hDest := dstMac } }
              wgMacs := wgMacs
              stats := [.rx, .passNoMac] }
          | some srcIp => xdpTransmit f eth ip udp partner srcMac dstMac srcIp wgMacs := by
  obtain ⟨wgType, rest, hpay, hshape, htype⟩ := hm.shaped
  unfold wgRelayXdp
  dsimp only
  rw [hm.headers]
  dsimp only
  rw [if_neg (not_not.2 hm.port), if_neg hm.allowed, hpay]
  dsimp only
  rw [hshape, if_neg nofun, if_neg htype, hr.entry]
  dsimp only
  rewrite [hr.mac]
  rfl

theorem transmit_action (macs : EpKey → Option Bytes) :
    (xdpTransmit f eth ip udp partner srcMac dstMac srcIp macs).action ≠ .pass := by
  unfold xdpTransmit
  dsimp only
  split <;> nofun

/-! ### Handing a packet to the stack -/

/-- A pass leaves the frame as it came in, unless it is the one after the Ethernet rewrite and the
rewrite changes an address. -/
theorem pass_untouched_iff (x : WgXdpCtx) (nics : NicMaps) (ktime : ℕ) (f : XdpFrame) :
    ((wgRelayXdp x nics ktime f).action = .pass → (wgRelayXdp x nics ktime f).frame = f) ↔
      ∀ eth ip udp partner srcMac dstMac, Message x nics ktime f eth ip udp →
        Routed x eth ip udp partner dstMac → NoEgressIp nics f partner srcMac →
        srcMac = eth.hSource ∧ dstMac = eth.hDest := by
  constructor
  · intro h eth ip udp partner srcMac dstMac hm hr hn
    have hrun := run_routed hm hr
    dsimp only at hrun
    rw [if_neg hn.elsewhere, hn.srcMac] at hrun
    dsimp only at hrun
    rw [hn.srcIp] at hrun
    dsimp only at hrun
    rw [hrun] at h
    have hframe := congrArg XdpFrame.eth (h rfl)
    dsimp only at hframe
    rw [(headers_some hm.headers).1, Option.some.injEq] at hframe
    exact ⟨congrArg EthHdr.hSource hframe, congrArg EthHdr.hDest hframe⟩
  · intro h hpass
    have ho := outcome x nics ktime f
    generalize wgRelayXdp x nics ktime f = o at hpass ho
    cases ho with
    | early _ hframe _ => exact hframe
    | between _ hm hr hn _ hframe =>
      obtain ⟨hsrc, hdst⟩ := h _ _ _ _ _ _ hm hr hn
      rw [hframe, hsrc, hdst, ← (headers_some hm.headers).1]
    | sent macs _ _ => exact absurd hpass (transmit_action macs)

/-- A transport message from 10.0.0.1 to the relay at 10.0.0.2, with `len` in its UDP header. -/
def message (len : UInt16) (payload : Bytes) : XdpFrame where
  eth := some ⟨[2, 0, 0, 0, 0, 2], [2, 0, 0, 0, 0, 1], ETH_P_IP⟩
  ip := some ⟨4, 5, 0, 60, 0, 0, 64, IPPROTO_UDP, 0, 0x0a000001, 0x0a000002⟩
  udp := some ⟨51820, 51820, len, 0⟩
  payload := payload
  ingressIfindex := 1

/-- The partner is 10.1.0.1 behind interface `ifindex`, last seen at 02:00:00:00:00:03. -/
def partnerMaps (ifindex : ℕ) : WgXdpCtx where
  attached := true
  wgPeers := fun _ => some ⟨0x0a010001, 51820, ifindex⟩
  wgMacs := fun _ => some [2, 0, 0, 0, 0, 3]

def addressless : NicMaps where
  wgPort := some 51820
  wgNicMacs := fun _ => some [2, 0, 0, 0, 0, 4]
  wgNicIps := fun _ => none

/-- The message is handed up with the addresses of the other link. -/
theorem passed_rewritten : ¬∀ (x : WgXdpCtx) (nics : NicMaps) (ktime : ℕ) (f : XdpFrame),
    (wgRelayXdp x nics ktime f).action = .pass → (wgRelayXdp x nics ktime f).frame = f := by
  intro h
  have hf := h (partnerMaps 2) addressless 0 (message 40 (4 :: List.replicate 31 0)) (by decide)
  have hmac : (wgRelayXdp (partnerMaps 2) addressless 0
      (message 40 (4 :: List.replicate 31 0))).frame.eth.map EthHdr.hSource =
        some [2, 0, 0, 0, 0, 4] := by decide
  rw [hf] at hmac
  exact absurd hmac (by decide)

/-! ### Both paths on one datagram -/

def kRecvBufSize : ℕ := 2048

/-- A turn of `RecvLoop` with a datagram waiting: what does not fit the buffer is cut off. -/
def recvPacket (c : Libc) (r : WgRelay) (d : Datagram) : WgRelay × List Sent :=
  if d.pkt.take kRecvBufSize = [] then (r, [])
  else handlePacket c r { d with pkt := d.pkt.take kRecvBufSize }

/-- The UDP length covers the UDP header and no more than what arrived. -/
def Consistent (f : XdpFrame) (udp : UdpHdr) : Prop :=
  8 ≤ udp.len.toNat ∧ udp.len.toNat - 8 ≤ f.payload.length

/-- The two paths accept the same datagrams, the kernel's length check is kept, and a datagram is
forwarded as it is. -/
structure SameDatagrams (f : XdpFrame) : Prop where
  shape : ∀ x nics ktime eth ip udp, xdpHeaders f = some (eth, ip, udp) → Consistent f udp →
    nics.wgPort = some udp.dest → ¬((x.wgBlocklist ip.saddr).any fun e => ktime < e) = true →
    (.dropNotWgShaped ∈ (wgRelayXdp x nics ktime f).stats ↔
      isWgShaped (f.payload.take (udp.len.toNat - 8)) = false)
  lengths : ∀ x nics ktime eth ip udp, xdpHeaders f = some (eth, ip, udp) → ¬Consistent f udp →
    (wgRelayXdp x nics ktime f).destination = none
  xdp : ∀ x nics ktime clock sendOk d, frameDatagram f clock sendOk = some d →
    (wgRelayXdp x nics ktime f).destination ≠ none →
    ∃ d', frameDatagram (wgRelayXdp x nics ktime f).frame clock sendOk = some d' ∧ d'.pkt = d.pkt
  userspace : ∀ c r clock sendOk d, frameDatagram f clock sendOk = some d →
    ∀ s ∈ (recvPacket c r d).2, s.2 = d.pkt

/-- A datagram of transport data fits the buffer, and a frame with the headers of a cookie or
transport message has the length they give. -/
structure Sized (f : XdpFrame) : Prop where
  fits : ∀ clock sendOk d, frameDatagram f clock sendOk = some d →
    d.pkt.length ≤ kRecvBufSize ∨ d.pkt.head? ≠ some 4
  covered : ∀ eth ip udp, xdpHeaders f = some (eth, ip, udp) →
    (∃ wgType rest, f.payload = wgType :: rest ∧ xdpShaped wgType udp.len = true ∧
      ¬(wgType = 1 ∨ wgType = 2)) → Consistent f udp

theorem xdpShaped_eq {wgType : Byte} {rest : Bytes} {len : UInt16} (h8 : 8 ≤ len.toNat)
    (hlen : len.toNat - 8 ≤ (wgType :: rest).length) :
    xdpShaped wgType len = isWgShaped ((wgType :: rest).take (len.toNat - 8)) := by
  have hsub : (len - 8).toNat = len.toNat - 8 := by
    rw [UInt16.toNat_sub_of_le]
    · rfl
    · exact UInt16.le_iff_toNat_le.2 h8
  have heq : ∀ n : UInt16, decide (len - 8 = n) = decide (len.toNat - 8 = n.toNat) := by
    intro n
    rw [← hsub]
    exact decide_eq_decide.2 UInt16.toNat_inj.symm
  have hle : decide (32 ≤ len - 8) = decide (32 ≤ len.toNat - 8) := by
    rw [← hsub]
    exact decide_eq_decide.2 UInt16.le_iff_toNat_le
  unfold xdpShaped
  dsimp only
  rw [heq, heq, heq, hle]
  cases hn : len.toNat - 8 with
  | zero => simp [isWgShaped]
  | succ n =>
    have hlength : (rest.take n).length = n := by
      rw [List.length_take]
      rw [hn, List.length_cons] at hlen
      omega
    rw [List.take_succ_cons]
    by_cases h1 : wgType = 1
    · simp [h1, isWgShaped, hlength]
    by_cases h2 : wgType = 2
    · simp [h2, isWgShaped, hlength]
    by_cases h3 : wgType = 3
    · simp [h3, isWgShaped, hlength]
    by_cases h4 : wgType = 4
    · simp [h4, isWgShaped, hlength]
    simp [isWgShaped, h1, h2, h3, h4]

theorem shape_iff (h : xdpHeaders f = some (eth, ip, udp)) (hc : Consistent f udp)
    (hport : nics.wgPort = some udp.dest)
    (hopen : ¬((x.wgBlocklist ip.saddr).any fun e => ktime < e) = true) :
    .dropNotWgShaped ∈ (wgRelayXdp x nics ktime f).stats ↔
      isWgShaped (f.payload.take (udp.len.toNat - 8)) = false := by
  unfold wgRelayXdp
  dsimp only
  rw [h]
  dsimp only
  rw [if_neg (not_not.2 hport), if_neg hopen]
  cases hpay : f.payload with
  | nil => simp [isWgShaped]
  | cons wgType rest =>
    have hshape : xdpShaped wgType udp.len =
        isWgShaped ((wgType :: rest).take (udp.len.toNat - 8)) := xdpShaped_eq hc.1 (hpay ▸ hc.2)
    dsimp only
    rw [← hshape]
    cases hs : xdpShaped wgType udp.len with
    | false => simp
    | true =>
      rw [if_neg nofun]
      split
      · simp
      split
      · simp
      split
      · simp
      split
      · simp [xdpTransmit]
      split
      · simp
      split <;> simp [xdpTransmit]

/-! ### What is sent is what came in -/

section sends

variable {c : Libc} {r : WgRelay} {d : Datagram} {s : Sent}

theorem forwardFrom_sends (src : WgRelayPeer) (h : s ∈ (forwardFrom r src d).2) : s.2 = d.pkt := by
  unfold forwardFrom mirrorResponse at h
  dsimp only at h
  split at h
  · cases h
  split at h
  · cases h
  split at h
  · rw [List.mem_singleton.1 h]
  · rcases List.mem_cons.1 h with rfl | h
    · rfl
    · split at h
      · split at h
        · cases h
        · rw [List.mem_singleton.1 h]
      · cases h

theorem handleUnknown_sends (h : s ∈ (handleUnknownSrcHandshakeLocked r d).2) : s.2 = d.pkt := by
  unfold handleUnknownSrcHandshakeLocked at h
  split at h
  · cases h
  split at h
  · cases h
  split at h
  · cases h
  split at h
  · split at h
    · dsimp only at h
      split at h
      · cases h
      · rw [List.mem_singleton.1 h]
    · cases h
  · rw [List.mem_singleton.1 h]

theorem handlePacket_sends (h : s ∈ (handlePacket c r d).2) : s.2 = d.pkt := by
  unfold handlePacket at h
  dsimp only at h
  split at h
  · cases h
  split at h
  · cases h
  split at h
  · exact forwardFrom_sends _ h
  split at h
  · exact handleUnknown_sends h
  split at h
  · split at h
    · exact forwardFrom_sends _ h
    · cases h
  · cases h

theorem handlePacket_unshaped (h : isWgShaped d.pkt = false) : (handlePacket c r d).2 = [] := by
  unfold handlePacket
  dsimp only
  split
  · rfl
  · rfl

/-- Peers `a` and `b`, linked. -/
def pair (src dst : Sockaddr) : WgRelay where
  peers := [{ name := [0x61], endpoint := src, endpointStr := [], label := [] },
    { name := [0x62], endpoint := dst, endpointStr := [], label := [] }]
  links := [⟨[0x61], [0x62]⟩]

theorem pair_forwards (c : Libc) (dst : Sockaddr) (hshape : isWgShaped d.pkt = true)
    (h4 : msgType d.pkt = 4) : (dst, d.pkt) ∈ (handlePacket c (pair d.src dst) d).2 := by
  have hmatch : ∀ p : WgRelayPeer, p.endpoint = d.src → endpointMatches p d.src = true := by
    intro p hp
    simp [endpointMatches, sockaddrEqual, hp]
  have hopen : blocked ((pair d.src dst).setStats fun s => { s with rxPackets := s.rxPackets + 1 })
      d.src d.clock.arrival = false := by
    simp [blocked, WgRelay.setStats, pair]
  have hexpire : (expireCandidatesLocked ((pair d.src dst).setStats fun s =>
      { s with rxPackets := s.rxPackets + 1 }) d.clock.sweep).peers = (pair d.src dst).peers ∧
      (expireCandidatesLocked ((pair d.src dst).setStats fun s =>
      { s with rxPackets := s.rxPackets + 1 }) d.clock.sweep).links = (pair d.src dst).links := by
    simp [expireCandidatesLocked, strikePeers, strikeExpired, WgRelayPeer.swept, WgRelayPeer.expired,
      WgRelay.setStats, pair]
  unfold handlePacket
  dsimp only
  rw [hopen, if_neg nofun, hshape, if_neg nofun]
  generalize expireCandidatesLocked _ d.clock.sweep = r1 at hexpire ⊢
  obtain ⟨hpeers, hlinks⟩ := hexpire
  rw [hpeers]
  simp only [pair, List.find?_cons, hmatch]
  have hdst : forwardDst (r1.modifyPeer [0x61] fun p =>
      { p with rxBytes := p.rxBytes + d.pkt.length, lastSeenNs := d.clock.last }) [0x61] =
      some { name := [0x62], endpoint := dst, endpointStr := [], label := [] } := by
    simp [forwardDst, WgRelay.modifyPeer, WgRelay.findPeer, hlinks, hpeers, pair, modifyFirst,
      WgRelayLink.touches]
  unfold forwardFrom
  dsimp only
  rw [hdst]
  have hmac : mac1Rejects { name := [0x62], endpoint := dst, endpointStr := [], label := [] }
      d.pkt = false := by
    simp [mac1Rejects]
  dsimp only
  rw [hmac, if_neg nofun, h4]
  split
  · exact List.mem_singleton_self _
  · exact List.mem_cons_self ..

end sends

/-! ### Main result -/

theorem transmit_destination (macs : EpKey → Option Bytes) :
    (xdpTransmit f eth ip udp partner srcMac dstMac srcIp macs).destination ≠ none := by
  unfold xdpTransmit XdpOut.destination
  dsimp only
  split
  · nofun
  · nofun
  · next h _ =>
    split at h <;> simp_all

theorem destination_message (h : (wgRelayXdp x nics ktime f).destination ≠ none) :
    ∃ eth ip udp partner srcMac dstMac srcIp macs, Message x nics ktime f eth ip udp ∧
      wgRelayXdp x nics ktime f = xdpTransmit f eth ip udp partner srcMac dstMac srcIp macs := by
  have ho := outcome x nics ktime f
  generalize wgRelayXdp x nics ktime f = o at h ho
  have hstays : ∀ o : XdpOut, (o.action = .pass ∨ o.action = .drop) → o.destination = none := by
    intro o ho
    unfold XdpOut.destination
    rcases ho with ho | ho <;> rw [ho]
  cases ho with
  | early _ _ haction => exact absurd (hstays o haction) h
  | between _ _ _ _ haction _ => exact absurd (hstays o (.inl haction)) h
  | sent macs hm _ => exact ⟨_, _, _, _, _, _, _, _, hm, rfl⟩

theorem message_leaves {wgType : Byte} {rest : Bytes} (h : xdpHeaders f = some (eth, ip, udp))
    (hpay : f.payload = wgType :: rest) (hshape : xdpShaped wgType udp.len = true)
    (htype : ¬(wgType = 1 ∨ wgType = 2)) :
    (wgRelayXdp (partnerMaps 0) { addressless with wgPort := some udp.dest } 0 f).destination ≠
      none := by
  have hm : Message (partnerMaps 0) { addressless with wgPort := some udp.dest } 0 f eth ip udp :=
    ⟨h, rfl, nofun, wgType, rest, hpay, hshape, htype⟩
  obtain ⟨mac, hmac⟩ : ∃ mac, Function.update (partnerMaps 0).wgMacs ⟨ip.saddr, udp.source⟩
      (some eth.hSource) ⟨0x0a010001, 51820⟩ = some mac := by
    rw [Function.update_apply]
    split
    · exact ⟨_, rfl⟩
    · exact ⟨_, rfl⟩
  have hrouted : Routed (partnerMaps 0) eth ip udp ⟨0x0a010001, 51820, 0⟩ mac := ⟨rfl, hmac⟩
  have hrun := run_routed hm hrouted
  dsimp only at hrun
  rw [if_pos (.inl rfl)] at hrun
  rw [hrun]
  exact transmit_destination _

theorem take_buffer_unshaped {pkt : Bytes} (hlong : kRecvBufSize < pkt.length)
    (h4 : pkt.head? ≠ some 4) : isWgShaped (pkt.take kRecvBufSize) = false := by
  have hlength : (pkt.take kRecvBufSize).length = 2048 := by
    rw [List.length_take]
    exact Nat.min_eq_left hlong.le
  cases hp : pkt.take kRecvBufSize with
  | nil => rfl
  | cons b rest =>
    rw [hp] at hlength
    have hb : b ≠ 4 := by
      rintro rfl
      cases pkt with
      | nil => cases hlong
      | cons b pkt =>
        unfold kRecvBufSize at hp
        rw [List.take_succ_cons] at hp
        exact h4 (by rw [(List.cons.inj hp).1]; rfl)
    unfold isWgShaped
    split <;> simp_all

theorem same_datagrams_iff (f : XdpFrame) : SameDatagrams f ↔ Sized f := by
  constructor
  · intro h
    constructor
    · intro clock sendOk d hd
      by_contra hbad
      rw [not_or, not_not, not_le] at hbad
      obtain ⟨hlong, h4⟩ := hbad
      obtain ⟨rest, hpkt⟩ : ∃ rest, d.pkt = 4 :: rest := by
        cases hp : d.pkt with
        | nil => rw [hp] at h4; cases h4
        | cons b rest => rw [hp] at h4; exact ⟨rest, by rw [Option.some.inj h4]⟩
      have hcut : (d.pkt.take kRecvBufSize).length = 2048 := by
        rw [List.length_take]
        exact Nat.min_eq_left hlong.le
      have hhead : ∃ rest', d.pkt.take kRecvBufSize = 4 :: rest' := by
        rw [hpkt]
        exact ⟨_, List.take_succ_cons ..⟩
      have hsent := h.userspace ⟨fun _ _ => none, fun _ _ => []⟩ (pair d.src (.in4 0 0)) clock sendOk d hd
        (.in4 0 0, d.pkt.take kRecvBufSize)
      unfold recvPacket at hsent
      obtain ⟨rest', hrest⟩ := hhead
      rw [hrest] at hsent hcut
      rw [if_neg nofun] at hsent
      have hshape : isWgShaped (4 :: rest') = true := by
        have h32 : 32 ≤ (4 :: rest').length := by omega
        exact decide_eq_true h32
      have heq := hsent (pair_forwards (d := { d with pkt := 4 :: rest' }) _ (.in4 0 0) hshape rfl)
      rw [← heq, hcut] at hlong
      exact absurd hlong (lt_irrefl _)
    · rintro eth ip udp hheaders ⟨wgType, rest, hpay, hshape, htype⟩
      by_contra hbad
      exact message_leaves hheaders hpay hshape htype (h.lengths _ _ 0 eth ip udp hheaders hbad)
  · intro h
    constructor
    · intro x nics ktime eth ip udp hheaders hc hport hopen
      exact shape_iff hheaders hc hport hopen
    · intro x nics ktime eth ip udp hheaders hbad
      by_contra hdst
      obtain ⟨eth', ip', udp', _, _, _, _, _, hm, -⟩ := destination_message hdst
      have hsame := hm.headers
      rw [hheaders] at hsame
      cases hsame
      exact hbad (h.covered _ _ _ hheaders hm.shaped)
    · intro x nics ktime clock sendOk d hd hdst
      obtain ⟨eth, ip, udp, partner, _, _, _, _, hm, hrun⟩ := destination_message hdst
      obtain ⟨-, hip, hudp⟩ := headers_some hm.headers
      rw [hrun]
      unfold frameDatagram at hd ⊢
      rw [hip, hudp] at hd
      unfold xdpTransmit
      dsimp only at hd ⊢
      split at hd
      · next hlen =>
        rw [if_pos hlen]
        cases hd
        exact ⟨_, rfl, rfl⟩
      · cases hd
    · intro c r clock sendOk d hd s hs
      unfold recvPacket at hs
      split at hs
      · cases hs
      · rcases h.fits clock sendOk d hd with hfits | h4
        · rw [List.take_of_length_le hfits] at hs
          exact handlePacket_sends hs
        · by_cases hfits : d.pkt.length ≤ kRecvBufSize
          · rw [List.take_of_length_le hfits] at hs
            exact handlePacket_sends hs
          · rw [handlePacket_unshaped (take_buffer_unshaped (not_le.1 hfits) h4)] at hs
            cases hs

/-- A UDP length of 7 counts as 65535 bytes of payload. -/
theorem short_length_sent : ¬∀ f : XdpFrame, SameDatagrams f := by
  intro h
  have hheaders : xdpHeaders (message 7 (4 :: List.replicate 31 0)) =
      some (⟨[2, 0, 0, 0, 0, 2], [2, 0, 0, 0, 0, 1], ETH_P_IP⟩,
        ⟨4, 5, 0, 60, 0, 0, 64, IPPROTO_UDP, 0, 0x0a000001, 0x0a000002⟩, ⟨51820, 51820, 7, 0⟩) := rfl
  have hleaves := message_leaves hheaders rfl (by decide) (by decide)
  have hstays := (h (message 7 (4 :: List.replicate 31 0))).lengths (partnerMaps 0)
    { addressless with wgPort := some 51820 } 0 _ _ _ hheaders (fun hc => absurd hc.1 (by decide))
  exact hleaves hstays

end Intact

end HyperDerp
