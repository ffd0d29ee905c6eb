import HyperDerp.WgRelay.FastPath
import HyperDerp.WgRelay.Roaming

/-!
# The fast path against userspace (`bpf/wg_relay.bpf.c:192-432`, `wg_relay.cc:1068-1135`)

A frame the program transmits is one `HandlePacket` would have sent to the same
endpoint, in every state where `wg_peers` is the copy of the links it should be.
-/

namespace HyperDerp

theorem wgRelayXdp_destination {x : WgXdpCtx} {nics : NicMaps} {now : ℕ} {f : XdpFrame}
    {dst : EpKey} (h : (wgRelayXdp x nics now f).destination = some dst) :
    ∃ ip udp wgType rest e, f.ip = some ip ∧ f.udp = some udp ∧ f.payload = wgType :: rest ∧
      xdpShaped wgType udp.len = true ∧ wgType ≠ 1 ∧ wgType ≠ 2 ∧
      ¬ ((x.wgBlocklist ip.saddr).any fun t => now < t) = true ∧
      x.wgPeers ⟨ip.saddr, udp.source⟩ = some e ∧ dst = ⟨e.ip, e.port⟩ := by
  have hsent : ∀ eth ip udp e srcMac dstMac srcIp macs,
      (xdpTransmit f eth ip udp e srcMac dstMac srcIp macs).destination = some dst →
      dst = ⟨e.ip, e.port⟩ := by
    intro eth ip udp e srcMac dstMac srcIp macs hd
    unfold xdpTransmit XdpOut.destination at hd
    dsimp only at hd
    split at hd
    · next h1 h2 h3 =>
      cases h2
      cases h3
      exact (Option.some.inj hd).symm
    · next h1 h2 h3 =>
      cases h2
      cases h3
      exact (Option.some.inj hd).symm
    · cases hd
  unfold wgRelayXdp at h
  dsimp only at h
  split at h
  · cases h
  next eth ip udp hdr =>
  split at h
  · cases h
  split at h
  · cases h
  next hblock =>
  split at h
  · cases h
  next wgType rest hpay =>
  split at h
  · cases h
  next hshape =>
  split at h
  · cases h
  next hdata =>
  split at h
  · cases h
  next e hmap =>
  have hf : f.ip = some ip ∧ f.udp = some udp := by
    unfold xdpHeaders at hdr
    split at hdr
    · next h1 h2 h3 =>
      split at hdr
      · cases hdr
        exact ⟨h2, h3⟩
      · cases hdr
    · cases hdr
  refine ⟨ip, udp, wgType, rest, e, hf.1, hf.2, hpay, Bool.not_eq_false _ ▸ hshape,
    fun h1 => hdata (.inl h1), fun h2 => hdata (.inr h2), hblock, hmap, ?_⟩
  split at h
  · cases h
  split at h
  · exact hsent _ _ _ _ _ _ _ _ h
  split at h
  · cases h
  split at h
  · cases h
  · exact hsent _ _ _ _ _ _ _ _ h

theorem isWgShaped_of_xdp {wgType : Byte} {rest : Bytes} {len : UInt16} (h8 : 8 ≤ len.toNat)
    (hlen : len.toNat - 8 ≤ (wgType :: rest).length) (hshape : xdpShaped wgType len = true)
    (h1 : wgType ≠ 1) (h2 : wgType ≠ 2) :
    isWgShaped ((wgType :: rest).take (len.toNat - 8)) = true ∧
      msgType ((wgType :: rest).take (len.toNat - 8)) = wgType := by
  have hsub : (len - 8).toNat = len.toNat - 8 := by
    rw [UInt16.toNat_sub_of_le]
    · rfl
    · exact UInt16.le_iff_toNat_le.2 h8
  have h32 : 32 ≤ len.toNat - 8 ∧ (wgType = 3 ∧ len.toNat - 8 = 64 ∨ wgType = 4) := by
    unfold xdpShaped at hshape
    dsimp only at hshape
    rw [if_neg h1, if_neg h2] at hshape
    split at hshape
    · next h3 =>
      have h64 : (len - 8).toNat = 64 := by
        rw [of_decide_eq_true hshape]
        rfl
      exact ⟨by omega, .inl ⟨h3, by omega⟩⟩
    · split at hshape
      · next h4 =>
        have h32 := UInt16.le_iff_toNat_le.1 (of_decide_eq_true hshape)
        rw [hsub] at h32
        exact ⟨h32, .inr h4⟩
      · cases hshape
  obtain ⟨n, hn⟩ : ∃ n, len.toNat - 8 = n + 1 := ⟨len.toNat - 9, by omega⟩
  rw [hn, List.take_succ_cons]
  refine ⟨?_, rfl⟩
  have hpkt : (wgType :: rest.take n).length = n + 1 := by
    rw [List.length_cons, List.length_take] at *
    omega
  rcases h32.2 with ⟨rfl, h64⟩ | rfl
  · exact decide_eq_true (hpkt.trans (hn.symm.trans h64))
  · exact decide_eq_true (by omega)

/-! ### What userspace does with it -/

section agree

variable {c : Libc} {r : WgRelay}

theorem find_front (h : FastInv r) {p : WgRelayPeer} (hp : p ∈ r.peers)
    (hfront : Front r.views p.view) {k : EpKey} (hk : p.view.key = some k) :
    r.peers.find? (endpointMatches · (v4Source k)) = some p := by
  unfold Front WgRelay.views at hfront
  rw [List.find?_map, Option.map_eq_some_iff] at hfront
  obtain ⟨q, hq, hview⟩ := hfront
  have hqp : q = p := List.inj_on_of_nodup_map h.roster.nodup (List.mem_of_find?_eq_some hq) hp
    (congrArg PeerView.name hview :)
  rw [hqp] at hq
  apply MapOk.find?_mono _ hq
  · exact (endpointMatches_v4 (h.v4 _ (mem_views hp)) k).2 hk
  · intro y hy hmatch
    apply decide_eq_true
    rw [hk]
    exact (endpointMatches_v4 (h.v4 _ (mem_views hy)) k).1 hmatch

theorem forwardFrom_linked (h : FastInv r) {p q : WgRelayPeer} (hq : q ∈ r.peers)
    (hlink : LinkedIn r.links p.name q.name) {d : Datagram} (h1 : msgType d.pkt ≠ 1)
    (h2 : msgType d.pkt ≠ 2) : ∃ s, s = q.endpoint ∧ (forwardFrom r p d).2 = [(s, d.pkt)] := by
  have hmac : ∀ dst, mac1Rejects dst d.pkt = false := by
    intro dst
    unfold mac1Rejects
    rw [decide_eq_false h1, decide_eq_false h2]
    rfl
  have hmod : SameMap r (r.modifyPeer p.name fun p =>
      { p with rxBytes := p.rxBytes + d.pkt.length, lastSeenNs := d.clock.last }) :=
    .modifyPeer fun _ => rfl
  have hinv := hmod.fastInv h
  obtain ⟨q', hq', hview⟩ : ∃ q' ∈ (r.modifyPeer p.name fun p =>
      { p with rxBytes := p.rxBytes + d.pkt.length, lastSeenNs := d.clock.last }).peers,
      q'.view = q.view := by
    apply List.mem_map.1
    have hmem := mem_views hq
    rw [← hmod.views] at hmem
    exact hmem
  have hname : q'.name = q.name := congrArg PeerView.name hview
  have hdst : forwardDst (r.modifyPeer p.name fun p =>
      { p with rxBytes := p.rxBytes + d.pkt.length, lastSeenNs := d.clock.last }) p.name = some q' := by
    rw [forwardDst_eq hinv.roster]
    apply findLinkPartnerLocked_of_linked hinv.roster _ hq'
    rw [hname]
    exact hlink
  refine ⟨q'.endpoint, congrArg PeerView.endpoint hview, ?_⟩
  unfold forwardFrom
  dsimp only
  rw [hdst]
  dsimp only
  rw [hmac, if_neg nofun, if_neg h2]
  split
  · rfl
  · rfl

theorem handlePacket_of_entry (h : FastInv r) {d : Datagram} {k : EpKey} {e : EpVal}
    (hsrc : d.src = v4Source k) (hshape : isWgShaped d.pkt = true) (h1 : msgType d.pkt ≠ 1)
    (h2 : msgType d.pkt ≠ 2) (hblock : ¬ ((r.xdp.wgBlocklist k.ip).any fun t => d.clock.arrival < t) = true)
    (hentry : r.xdp.wgPeers k = some e) :
    ∃ s, endpointToV4 s = some ⟨e.ip, e.port⟩ ∧ (handlePacket c r d).2 = [(s, d.pkt)] := by
  have hopen : blocked (r.setStats fun s => { s with rxPackets := s.rxPackets + 1 }) d.src d.clock.arrival =
      false := by
    rw [h.blocks, Bool.not_eq_true] at hblock
    unfold blocked WgRelay.setStats
    rw [hsrc]
    have hip : extractV4SrcHostOrder (v4Source k) = k.ip := by
      unfold v4Source
      rw [extractV4SrcHostOrder, if_pos rfl]
    rw [hip, hblock, Bool.and_false]
  have hsame : SameMap r (expireCandidatesLocked
      (r.setStats fun s => { s with rxPackets := s.rxPackets + 1 }) d.clock.sweep) :=
    (SameMap.setStats _).trans (.expire d.clock.sweep)
  unfold handlePacket
  dsimp only
  rw [if_neg (by rw [hopen]; nofun), hshape, if_neg nofun]
  have hinv := hsame.fastInv h
  rw [← hsame.wgPeers] at hentry
  generalize expireCandidatesLocked
    (r.setStats fun s => { s with rxPackets := s.rxPackets + 1 }) d.clock.sweep = r1 at hinv hentry ⊢
  obtain ⟨v, hv, w, hw, hlink, hkv, hew⟩ := (hinv.map.exact k e).1 hentry
  obtain ⟨p, hp, rfl⟩ := List.mem_map.1 hv
  obtain ⟨q, hq, rfl⟩ := List.mem_map.1 hw
  rw [hsrc, find_front hinv hp (hinv.map.front _ hv _ hlink) hkv]
  obtain ⟨s, rfl, hsent⟩ := forwardFrom_linked hinv hq hlink h1 h2
  refine ⟨q.endpoint, ?_, hsent⟩
  unfold PeerView.entry at hew
  rw [Option.map_eq_some_iff] at hew
  obtain ⟨kq, hkq, rfl⟩ := hew
  exact hkq

theorem xdp_sends_as_userspace (h : FastInv r) (macs : EpKey → Option Bytes) (nics : NicMaps)
    {clock : PacketClock} {f : XdpFrame} {sendOk : Bool} {d : Datagram} {dst : EpKey}
    (hd : frameDatagram f clock sendOk = some d)
    (hdst : (wgRelayXdp { r.xdp with wgMacs := macs } nics clock.arrival f).destination =
      some dst) :
    ∃ s, endpointToV4 s = some dst ∧ (handlePacket c r d).2 = [(s, d.pkt)] := by
  obtain ⟨ip, udp, wgType, rest, e, hip, hudp, hpay, hshape, h1, h2, hblock, hentry, rfl⟩ :=
    wgRelayXdp_destination hdst
  unfold frameDatagram at hd
  rw [hip, hudp, hpay] at hd
  dsimp only at hd
  split at hd
  · next hlen =>
    cases hd
    obtain ⟨hwg, htype⟩ := isWgShaped_of_xdp hlen.1 hlen.2 hshape h1 h2
    apply handlePacket_of_entry h (show _ = v4Source ⟨ip.saddr, udp.source⟩ from rfl) hwg
    · rw [htype]
      exact h1
    · rw [htype]
      exact h2
    · exact hblock
    · exact hentry
  · cases hd

end agree

/-! ### Main result -/

/-- The two paths agree in a state of the relay, whatever the program has learnt about MAC
addresses and whatever frame arrives. -/
structure FastPathAgrees (c : Libc) (r : WgRelay) : Prop where
  exact : ∀ k e, r.xdp.wgPeers k = some e ↔ LinkDir r.views r.links (resolveNicIfindex r) k e
  same : ∀ macs nics clock f sendOk d dst, frameDatagram f clock sendOk = some d →
    (wgRelayXdp { r.xdp with wgMacs := macs } nics clock.arrival f).destination = some dst →
    ∃ s, endpointToV4 s = some dst ∧ (handlePacket c r d).2 = [(s, d.pkt)]
  dropped : ∀ macs nics clock f sendOk d, frameDatagram f clock sendOk = some d →
    (handlePacket c r d).2 = [] →
    (wgRelayXdp { r.xdp with wgMacs := macs } nics clock.arrival f).destination = none

namespace FastPath

def Init (c : Libc) (r : WgRelay) : Prop :=
  ∃ cfg file atts, CleanStart (wgRelayStart c cfg file) ∧
    r = xdpStart (wgRelayStart c cfg file) atts

def step (c : Libc) (r : WgRelay) (op : WgOp) : Option WgRelay := some (wgStep c r op).1

def cleanOk (c : Libc) (r : WgRelay) (op : WgOp) : Prop := V4Op c op ∧ CleanOp r op

theorem reach_inv {c : Libc} {r : WgRelay} (h : Runs.Reach (Init c) (step c) (cleanOk c) r) :
    FastInv r := by
  apply h.invariant
  · intro r ⟨cfg, file, atts, hclean, heq⟩
    rw [heq]
    exact fastInv_start hclean atts
  · intro r r' op hr ⟨hv4, hclean⟩ hstep
    cases hstep
    exact wgStep_fastInv hr hv4 hclean

theorem xdp_agrees_with_userspace (c : Libc) {r : WgRelay}
    (h : Runs.Reach (Init c) (step c) (cleanOk c) r) : FastPathAgrees c r := by
  have hinv := reach_inv h
  refine ⟨hinv.map.exact, ?_, ?_⟩
  · intro macs nics clock f sendOk d dst hd hdst
    exact xdp_sends_as_userspace hinv macs nics hd hdst
  · intro macs nics clock f sendOk d hd hnone
    cases hdst : (wgRelayXdp { r.xdp with wgMacs := macs } nics clock.arrival f).destination with
    | none => rfl
    | some dst =>
      obtain ⟨s, -, hsent⟩ := xdp_sends_as_userspace (c := c) hinv macs nics hd hdst
      rw [hnone] at hsent
      cases hsent

/-! The two peers of `roamCfg`, 1.1.1.1:10 and 2.2.2.2:20, with XDP attached. -/

def roamViews : List PeerView := [⟨[0x61], .in4 0x01010101 10, []⟩, ⟨[0x62], .in4 0x02020202 20, []⟩]

theorem roamViews_v4 : ∀ v ∈ roamViews, V4Addr v.endpoint ∧ Front roamViews v := by
  intro v hv
  simp only [roamViews, List.mem_cons, List.not_mem_nil, or_false] at hv
  rcases hv with rfl | rfl
  · exact ⟨trivial, by unfold Front; decide⟩
  · exact ⟨trivial, by unfold Front; decide⟩

def eth0 : WgXdpAttachment := ⟨[0x65, 0x74, 0x68, 0x30], 3⟩

theorem roam_init : Init twoHosts (xdpStart (wgRelayStart twoHosts roamCfg none) [eth0]) := by
  have hviews : (wgRelayStart twoHosts roamCfg none).views = roamViews := by decide
  refine ⟨roamCfg, none, [eth0], ⟨?_, ?_⟩, rfl⟩
  · intro p hp
    have hmem := mem_views hp
    rw [hviews] at hmem
    exact (roamViews_v4 _ hmem).1
  · intro p hp _ _
    have hmem := mem_views hp
    rw [hviews] at hmem ⊢
    exact (roamViews_v4 _ hmem).2

/-- Removing one of them leaves the entry under its endpoint in the map: the endpoint is
looked up after the peer has been erased. -/
theorem removed_peer_stays_in_map :
    ¬∀ (c : Libc) (r : WgRelay), Runs.Reach (Init c) (step c) (fun _ op => V4Op c op) r →
      FastPathAgrees c r := by
  intro hall
  have hreach : Runs.Reach (Init twoHosts) (step twoHosts) (fun _ op => V4Op twoHosts op)
      (wgRelayPeerRemove (xdpStart (wgRelayStart twoHosts roamCfg none) [eth0]) [0x61]).1 :=
    .next _ _ (.peerRemove [0x61]) (.start _ roam_init) trivial rfl
  have hentry : (wgRelayPeerRemove (xdpStart (wgRelayStart twoHosts roamCfg none) [eth0])
      [0x61]).1.xdp.wgPeers ⟨0x01010101, 10⟩ = some ⟨0x02020202, 20, 3⟩ := by decide
  have hlinks : (wgRelayPeerRemove (xdpStart (wgRelayStart twoHosts roamCfg none) [eth0])
      [0x61]).1.links = [] := by decide
  obtain ⟨v, -, w, -, hlink, -⟩ := ((hall _ _ hreach).exact _ _).1 hentry
  rw [hlinks] at hlink
  obtain ⟨l, hl, -⟩ := hlink
  exact List.not_mem_nil hl

/-- Unlinked and linked again, the two peers are served by both paths. -/
theorem xdp_agrees_relinked :
    ∃ r, Runs.Reach (Init twoHosts) (step twoHosts) (cleanOk twoHosts) r ∧
      r.xdp.wgPeers ⟨0x01010101, 10⟩ = some ⟨0x02020202, 20, 3⟩ ∧ FastPathAgrees twoHosts r := by
  have hviews : (wgStep twoHosts (xdpStart (wgRelayStart twoHosts roamCfg none) [eth0])
      (.linkRemove [0x61] [0x62])).1.views = roamViews := by decide
  have hreach : Runs.Reach (Init twoHosts) (step twoHosts) (cleanOk twoHosts)
      (wgRelayLinkAdd (wgRelayLinkRemove (xdpStart (wgRelayStart twoHosts roamCfg none) [eth0])
        [0x61] [0x62]).1 [0x62] [0x61]).1 := by
    refine .next _ _ (.linkAdd [0x62] [0x61]) (.next _ _ (.linkRemove [0x61] [0x62])
      (.start _ roam_init) ⟨trivial, trivial⟩ rfl) ⟨trivial, ?_⟩ rfl
    intro _ p hp _
    have hmem := mem_views hp
    rw [hviews] at hmem ⊢
    exact (roamViews_v4 _ hmem).2
  exact ⟨_, hreach, by decide, xdp_agrees_with_userspace twoHosts hreach⟩

end FastPath

end HyperDerp
