import HyperDerp.DataPlane.Commands
import HyperDerp.DataPlane.Recv
import HyperDerp.Lib.Runs

/-!
# What reaches a peer is a frame of its protocol

A frame may cross from a DERP to an HD peer or back, on the same worker or
through another worker's inbox. This module says when every buffer that a
dispatch or a drained transfer puts on a send queue is exactly one frame of the
receiving peer's protocol, over all runs of commands, dispatches, drains and
connection losses, with the send path free to do anything to the queues.
-/

namespace HyperDerp

/-- The buffer is one frame of the protocol, with a length its check accepts. -/
def WellFormed (proto : PeerProtocol) (data : Bytes) : Prop :=
  frameHdrSize proto ≤ data.length ∧
    data.length = frameHdrSize proto + readPeerPayloadLen proto data ∧
    isValidPeerPayloadLen proto (readPeerPayloadLen proto data) = true

instance (proto : PeerProtocol) (data : Bytes) : Decidable (WellFormed proto data) :=
  inferInstanceAs (Decidable (_ ∧ _ ∧ _))

/-! ### The frames the data plane builds -/

variable {payload : Bytes} {proto : PeerProtocol} {w w' : Worker} {ctx : Ctx} {v : ℕ}

theorem wellFormed_hd {type : HdFrameType} (h : payload.length ≤ kHdMaxFramePayload) :
    WellFormed .kHd (hdWriteFrameHeader type payload.length ++ payload) := by
  have hlt : payload.length < 2 ^ 24 := by
    simp only [kHdMaxFramePayload] at h
    omega
  have hread : readPeerPayloadLen .kHd (hdWriteFrameHeader type payload.length ++ payload) =
      payload.length := hdReadPayloadLen_write type payload.length payload hlt
  refine ⟨?_, ?_, ?_⟩
  · rw [List.length_append, length_hdWriteFrameHeader]
    exact Nat.le_add_right _ _
  · rw [hread, List.length_append, length_hdWriteFrameHeader]
    rfl
  · rw [hread]
    exact decide_eq_true h

theorem wellFormed_derp {type : FrameType} (h : payload.length ≤ kMaxFramePayload) :
    WellFormed .kDerp (writeFrameHeader type payload.length ++ payload) := by
  have hlt : payload.length < 2 ^ 32 := by
    simp only [kMaxFramePayload] at h
    omega
  have hread : readPeerPayloadLen .kDerp (writeFrameHeader type payload.length ++ payload) =
      payload.length := readPayloadLen_write type payload.length payload hlt
  refine ⟨?_, ?_, ?_⟩
  · rw [List.length_append, length_writeFrameHeader]
    exact Nat.le_add_right _ _
  · rw [hread, List.length_append, length_writeFrameHeader]
    rfl
  · rw [hread]
    exact decide_eq_true h

theorem WellFormed.payload_le {frame : Bytes} (h : WellFormed proto frame) :
    (frame.drop (frameHdrSize proto)).length ≤ kMaxFramePayload := by
  have hle := isValidPeerPayloadLen_le h.2.2
  have heq := h.2.1
  rw [List.length_drop]
  omega

theorem wellFormed_pong (h : payload.length = kHdPingDataSize) :
    WellFormed .kHd (hdBuildPong payload) := by
  have ht : payload.take kHdPingDataSize = payload := List.take_of_length_le (Nat.le_of_eq h)
  have hw : WellFormed .kHd (hdWriteFrameHeader .kPong payload.length ++ payload) :=
    wellFormed_hd (by rw [h]; decide)
  unfold hdBuildPong
  rw [ht]
  rwa [h] at hw

theorem wellFormed_mesh {srcId : ℕ} {body : Bytes}
    (h : kHdMeshDstSize + body.length ≤ kHdMaxFramePayload) :
    WellFormed .kHd (meshFrame srcId body) := by
  have hlen : (writeU16 srcId ++ body).length = kHdMeshDstSize + body.length := by
    simp [writeU16, kHdMeshDstSize]
  have hw : WellFormed .kHd
      (hdWriteFrameHeader .kMeshData (writeU16 srcId ++ body).length ++ (writeU16 srcId ++ body)) :=
    wellFormed_hd (by rw [hlen]; exact h)
  unfold meshFrame
  rwa [← hlen, List.append_assoc]

theorem wellFormed_recvPacket {key : Key} {data : Bytes}
    (h : kKeySize + data.length ≤ kMaxFramePayload) :
    WellFormed .kDerp (buildRecvPacket key data) := by
  have hlen : (key.data ++ data).length = kKeySize + data.length := by
    rw [List.length_append, key.size]
  have hw : WellFormed .kDerp
      (writeFrameHeader .kRecvPacket (key.data ++ data).length ++ (key.data ++ data)) :=
    wellFormed_derp (by rw [hlen]; exact h)
  unfold buildRecvPacket
  rwa [← hlen, List.append_assoc]

/-! ### The system -/

inductive DpStep where
  | cmd (v : ℕ) (c : Cmd)
  | dispatch (v : ℕ) (p : Slot) (frame : Bytes)
  | drain (v : ℕ)
  | eof (v : ℕ) (fd : Fd)
  | ioPath (v : ℕ) (q : Slot) (w0 : Worker)

def dpStep (ctx : Ctx) : DpStep → Option Ctx
  | .cmd v c => some (processCmd ctx v c).1
  | .dispatch v p frame =>
    if WellFormed ((ctx.workers v).ht p).protocol frame then some (dispatchFrame ctx v p frame)
    else none
  | .drain v => some (ctx.onWorker v processXfer)
  | .eof v fd =>
    match (ctx.workers v).fdMap fd with
    | none => none
    | some p => some (ctx.onWorker v fun w => closeFd w fd p)
  | .ioPath v q w0 => some (ctx.onWorker v fun w => w.withIoPath q w0)

/-- Workers as `WorkerInit` leaves them. -/
def dpInit (ctx : Ctx) : Prop := ∀ v, ctx.workers v = {}

/-- The buffers a step placed on send queues are frames of their receivers. -/
def PlacesWellFormed (ctx ctx' : Ctx) : Prop :=
  ∀ v q item, item ∈ ((ctx'.workers v).ht q).send.queue →
    item ∈ ((ctx.workers v).ht q).send.queue ∨
      WellFormed ((ctx'.workers v).ht q).protocol item.data

/-- An added peer does not inherit traffic of the other protocol: no waiting
transfer that the add hands to its slot, by the generation the fd is about to
get or by an older fd entry of the slot, and no peer id that still leads to its
slot or its fd. -/
structure AddOk (w : Worker) (p : Slot) (fd : Fd) (proto : PeerProtocol) : Prop where
  waiting : ∀ src, ∀ x ∈ w.xferInbox src,
    (x.dstFd = fd ∧ x.dstGen = (w.fdGen fd + 1) % 2 ^ 32) ∨
      (x.dstFd ≠ fd ∧ xferTarget w x = some p) → WellFormed proto x.frame
  ids : ∀ m id q, w.peerIdMap = some m → m id = some q →
    q = p ∨ (w.ht q).fd = fd ∨ w.fdMap (w.ht q).fd = some p → proto = .kHd

/-- The frame does not meet one of the combinations that are not converted: a
SendPacket to an HD peer of another worker, a rule that leads to a DERP peer, or
several rules, a DERP peer on the shard and no room for the source key. -/
structure DispatchOk (ctx : Ctx) (v : ℕ) (p : Slot) (frame : Bytes) : Prop where
  packet : ∀ k a q, PacketTo ctx v p frame k → htLookup (ctx.workers v) k = none →
    routeLookup (ctx.workers v).routes k = some a →
    (ctx.workers ((ctx.workers v).routes a).workerId).fdMap ((ctx.workers v).routes a).fd =
      some q →
    ((ctx.workers ((ctx.workers v).routes a).workerId).ht q).protocol = .kDerp
  ruleLocal : ∀ rule q, HdFrame ctx v p frame .kData → UsesRule ((ctx.workers v).ht p) rule →
    resolveLocal (ctx.workers v) rule = some q → ((ctx.workers v).ht q).protocol = .kHd
  ruleRemote : ∀ rule (dst : ℕ) fd q, HdFrame ctx v p frame .kData →
    UsesRule ((ctx.workers v).ht p) rule → resolveLocal (ctx.workers v) rule = none →
    resolveRemote (ctx.workers v) rule = some ((dst : ℤ), fd) →
    (ctx.workers dst).fdMap fd = some q → ((ctx.workers dst).ht q).protocol = .kHd
  size : ∀ q, HdFrame ctx v p frame .kData → 1 < ((ctx.workers v).ht p).fwdCount →
    ((ctx.workers v).ht q).occupied = .live → ((ctx.workers v).ht q).protocol = .kDerp →
    kKeySize + (frame.drop kHdFrameHeaderSize).length ≤ kMaxFramePayload

def dpStepOk (ctx : Ctx) : DpStep → Prop
  | .cmd v (.addPeer fd key proto _) =>
    ∀ p, htFind (ctx.workers v) key = some p → AddOk (ctx.workers v) p fd proto
  | .dispatch v p frame => DispatchOk ctx v p frame
  | _ => True

/-! ### The invariant, worker by worker -/

def XferOk (w : Worker) (x : Xfer) : Prop :=
  ∀ q, xferTarget w x = some q → WellFormed (w.ht q).protocol x.frame

structure FormOk (w : Worker) : Prop where
  ring : ∀ src, ∀ x ∈ w.xferInbox src, XferOk w x
  ids : ∀ m id q, w.peerIdMap = some m → m id = some q → (w.ht q).protocol = .kHd ∧
    ∀ q', w.fdMap (w.ht q).fd = some q' → (w.ht q').protocol = .kHd

theorem FormOk.congr (h : FormOk w)
    (hpro : ∀ q, (w'.ht q).protocol = (w.ht q).protocol)
    (hfd : ∀ q, (w'.ht q).fd = (w.ht q).fd) (hgen : w'.fdGen = w.fdGen)
    (hmap : ∀ fd q, w'.fdMap fd = some q → w.fdMap fd = some q)
    (hids : ∀ m' id q, w'.peerIdMap = some m' → m' id = some q →
      ∃ m, w.peerIdMap = some m ∧ m id = some q)
    (hx : ∀ src, ∀ x ∈ w'.xferInbox src, x ∈ w.xferInbox src ∨ XferOk w x) : FormOk w' := by
  constructor
  · intro src x hmem q hq
    have hq' : xferTarget w x = some q := by
      rw [xferTarget_some, hgen] at hq
      exact xferTarget_some.mpr ⟨hq.1, hmap _ _ hq.2.1, hq.2.2⟩
    rw [hpro]
    rcases hx src x hmem with hold | hnew
    · exact h.ring src x hold q hq'
    · exact hnew q hq'
  · intro m' id q hm' hq
    obtain ⟨m, hm, hmq⟩ := hids m' id q hm' hq
    rw [hpro, hfd]
    refine ⟨(h.ids m id q hm hmq).1, fun q' hq' => ?_⟩
    rw [hpro]
    exact (h.ids m id q hm hmq).2 q' (hmap _ _ hq')

theorem FormOk.of_core (h : FormOk w) (hc : w'.core = w.core)
    (hx : ∀ src, ∀ x ∈ w'.xferInbox src, x ∈ w.xferInbox src ∨ XferOk w x) : FormOk w' := by
  have hmap : w'.fdMap = w.fdMap := (congrArg Worker.fdMap hc :)
  have hids : w'.peerIdMap = w.peerIdMap := (congrArg Worker.peerIdMap hc :)
  exact h.congr (fun q => (congrArg Peer.protocol (Worker.core_peer hc q) :))
    (fun q => (congrArg Peer.fd (Worker.core_peer hc q) :)) (congrArg Worker.fdGen hc :)
    (fun fd q hq => hmap ▸ hq) (fun m' id q hm hq => ⟨m', hids ▸ hm, hq⟩) hx

/-! ### Dispatching -/

theorem isValid_hd_le {frame : Bytes} (h : WellFormed .kHd frame) :
    (frame.drop kHdFrameHeaderSize).length ≤ kHdMaxFramePayload := by
  have hv : decide (readPeerPayloadLen .kHd frame ≤ kHdMaxFramePayload) = true := h.2.2
  have hle := of_decide_eq_true hv
  have heq := h.2.1
  have hsz : frameHdrSize .kHd = kHdFrameHeaderSize := rfl
  rw [List.length_drop]
  omega

theorem peerById_some {id : ℕ} {q : Slot} (h : peerById w id = some q) :
    ∃ m, w.peerIdMap = some m ∧ m id = some q := by
  unfold peerById at h
  split at h
  · obtain ⟨hb, -⟩ := Option.filter_eq_some_iff.mp h
    exact Option.bind_eq_some_iff.mp hb
  · cases h

theorem meshRemote_some {id dst : ℕ} {fd : Fd} (h : meshRemote ctx v id = some (dst, fd)) :
    ∃ m q, (ctx.workers dst).peerIdMap = some m ∧ m id = some q ∧
      fd = ((ctx.workers dst).ht q).fd := by
  unfold meshRemote at h
  obtain ⟨wi, -, hwi⟩ := List.exists_of_findSome?_eq_some h
  split at hwi
  · cases hwi
  · obtain ⟨q, hq, heq⟩ := Option.map_eq_some_iff.mp hwi
    obtain ⟨m, hm, hmq⟩ := Option.bind_eq_some_iff.mp hq
    cases heq
    exact ⟨m, q, hm, hmq, rfl⟩

section Dispatch

variable {ctx : Ctx} {v : ℕ} {p : Slot} {frame : Bytes}

theorem LocalTarget.wellFormed (hF : FormOk (ctx.workers v)) (hok : DispatchOk ctx v p frame)
    (hw : WellFormed ((ctx.workers v).ht p).protocol frame) {q : Slot} {data : Bytes}
    (h : LocalTarget ctx v p frame q data) :
    WellFormed ((ctx.workers v).ht q).protocol data := by
  have hbyId : ∀ id a, peerById (ctx.workers v) id = some a →
      ((ctx.workers v).ht a).protocol = .kHd := by
    intro id a ha
    obtain ⟨m, hm, hmq⟩ := peerById_some ha
    exact (hF.ids m id a hm hmq).1
  cases h with
  | rule rule q hd huse hres =>
    rw [hok.ruleLocal rule q hd huse hres]
    rwa [hd.1] at hw
  | noRules q hd _ _ hq => rwa [hq, ← hd.1]
  | bridged q derp hd hmany hlive hq hbr =>
    rw [hq]
    have hsize := hok.size q hd hmany hlive hq
    simp only [bridgeHdToDerp] at hbr
    split at hbr
    · cases hbr
    · cases hbr
      exact wellFormed_recvPacket hsize
  | pong hd hlen =>
    rw [hd.1]
    exact wellFormed_pong hlen
  | mesh q hd hlen hq =>
    rw [hbyId _ _ hq]
    rw [hd.1] at hw
    have hle := isValid_hd_le hw
    refine wellFormed_mesh ?_
    rw [List.length_drop]
    omega
  | fleetLocal q hd hlen hq =>
    rw [hbyId _ _ hq]
    rw [hd.1] at hw
    have hle := isValid_hd_le hw
    refine wellFormed_mesh ?_
    simp only [kHdFleetDstSize, kHdMeshDstSize] at hlen ⊢
    rw [List.length_drop]
    omega
  | fleetRelay q hd hq =>
    rw [hbyId _ _ hq]
    rwa [hd.1] at hw
  | peerInfo q hd _ hq => rwa [hq, ← hd.1]
  | packetHd k q hd hto _ hq hbr =>
    have hle := hw.payload_le
    have hsz : frameHdrSize ((ctx.workers v).ht p).protocol = kFrameHeaderSize :=
      if_neg hto.1
    rw [hsz] at hle
    rw [hq]
    simp only [bridgeDerpToHd] at hbr
    split at hbr
    · cases hbr
    · split at hbr
      · cases hbr
      · cases hbr
        have hlen : ((frame.drop kFrameHeaderSize).drop kKeySize).length =
            (frame.drop kFrameHeaderSize).length - kKeySize := by rw [List.length_drop]
        rw [← hlen]
        refine wellFormed_hd ?_
        simp only [kMaxFramePayload] at hle
        simp only [kHdMaxFramePayload]
        omega
  | packet k q hto _ hq =>
    have hle := hw.payload_le
    have hsz : frameHdrSize ((ctx.workers v).ht p).protocol = kFrameHeaderSize :=
      if_neg hto.1
    obtain ⟨-, -, hkey, -⟩ := hto
    rw [hsz] at hle
    have hder : ((ctx.workers v).ht q).protocol = .kDerp := by
      cases hpr : ((ctx.workers v).ht q).protocol with
      | kDerp => rfl
      | kHd => exact absurd hpr hq
    rw [hder]
    refine wellFormed_recvPacket ?_
    rw [List.length_drop]
    omega

theorem RemoteTarget.xferOk (hF : ∀ u, FormOk (ctx.workers u)) (hok : DispatchOk ctx v p frame)
    (hw : WellFormed ((ctx.workers v).ht p).protocol frame) {dst : ℕ} {x : Xfer}
    (h : RemoteTarget ctx v p frame dst x) : XferOk (ctx.workers dst) x := by
  intro q hq
  obtain ⟨-, hmap, -⟩ := xferTarget_some.mp hq
  cases h with
  | rule rule dst fd hd huse hloc hrem =>
    rw [hok.ruleRemote rule dst fd q hd huse hloc hrem hmap]
    rwa [hd.1] at hw
  | mesh dst fd hd hlen hrem =>
    obtain ⟨m, a, hm, hma, hfd⟩ := meshRemote_some hrem
    simp only [hfd] at hmap
    rw [((hF dst).ids m _ a hm hma).2 q hmap]
    rw [hd.1] at hw
    have hle := isValid_hd_le hw
    refine wellFormed_mesh ?_
    rw [List.length_drop]
    omega
  | packet k a hto hnone hroute =>
    rw [hok.packet k a q hto hnone hroute hmap]
    have hle := hw.payload_le
    have hsz : frameHdrSize ((ctx.workers v).ht p).protocol = kFrameHeaderSize :=
      if_neg hto.1
    obtain ⟨-, -, hkey, -⟩ := hto
    rw [hsz] at hle
    refine wellFormed_recvPacket ?_
    rw [List.length_drop]
    omega

theorem dispatchFrame_formOk (hF : ∀ u, FormOk (ctx.workers u)) (hok : DispatchOk ctx v p frame)
    (hw : WellFormed ((ctx.workers v).ht p).protocol frame) (u : ℕ) :
    FormOk ((dispatchFrame ctx v p frame).workers u) := by
  refine (hF u).of_core (Ctx.core_worker (dispatchFrame_core ctx v p frame) u) fun src x hx => ?_
  rcases (dispatchFrame_effs ctx v p frame).inbox hx with hold | ⟨hnew, -⟩
  · exact .inl hold
  · exact .inr (hnew.xferOk hF hok hw)

theorem dispatchFrame_places (hF : ∀ u, FormOk (ctx.workers u)) (hok : DispatchOk ctx v p frame)
    (hw : WellFormed ((ctx.workers v).ht p).protocol frame) :
    PlacesWellFormed ctx (dispatchFrame ctx v p frame) := by
  intro u q item hitem
  have hcore := Ctx.core_worker (dispatchFrame_core ctx v p frame) u
  have hpro : _ = _ := congrArg Peer.protocol (Worker.core_peer hcore q)
  rcases (dispatchFrame_effs ctx v p frame).queue hitem with hold | ⟨rfl, hnew⟩
  · exact .inl hold
  · exact .inr (hpro ▸ hnew.wellFormed (hF u) hok hw)

end Dispatch

/-! ### Draining -/

/-- What a partial drain that started in `w0` has done. -/
structure Drained (w0 w : Worker) : Prop where
  core : w.core = w0.core
  inbox : ∀ src, ∀ x ∈ w.xferInbox src, x ∈ w0.xferInbox src
  queue : ∀ q, ∀ item ∈ (w.ht q).send.queue,
    item ∈ (w0.ht q).send.queue ∨ WellFormed (w.ht q).protocol item.data

theorem xferTarget_core (h : w'.core = w.core) (x : Xfer) :
    xferTarget w' x = xferTarget w x := by
  have hmap : w'.fdMap = w.fdMap := (congrArg Worker.fdMap h :)
  have hgen : w'.fdGen = w.fdGen := (congrArg Worker.fdGen h :)
  simp only [xferTarget, hmap, hgen]

theorem Drained.deliver {w0 : Worker} {x : Xfer} (h : Drained w0 w) (hx : XferOk w0 x) :
    Drained w0 (xferDeliver w x) := by
  unfold xferDeliver
  split
  · exact h
  · next p hp =>
    rw [xferTarget_core h.core] at hp
    have hcore : (enqueueSend w p x.frame).core = w0.core :=
      (enqueueSend_sendOnly w p x.frame).core.trans h.core
    refine ⟨hcore, ?_, fun q item hitem => ?_⟩
    · rw [enqueueSend_inbox]
      exact h.inbox
    · have hpro : ((enqueueSend w p x.frame).ht q).protocol = (w0.ht q).protocol :=
        (congrArg Peer.protocol (Worker.core_peer hcore q) :)
      have hpro' : (w.ht q).protocol = (w0.ht q).protocol :=
        (congrArg Peer.protocol (Worker.core_peer h.core q) :)
      rw [hpro]
      rcases enqueueSend_mem hitem with hold | ⟨rfl, hdata⟩
      · rw [← hpro']
        exact h.queue q item hold
      · rw [hdata]
        exact .inr (hx q hp)

theorem Drained.deliverAll {w0 : Worker} (xs : List Xfer) (h : Drained w0 w)
    (hxs : ∀ x ∈ xs, XferOk w0 x) : Drained w0 (xs.foldl xferDeliver w) := by
  induction xs generalizing w with
  | nil => exact h
  | cons x xs ih =>
    refine ih (h.deliver (hxs x (List.mem_cons_self ..))) fun y hy => ?_
    exact hxs y (List.mem_cons_of_mem _ hy)

theorem processXfer_drained (hF : FormOk w) : Drained w (processXfer w) := by
  unfold processXfer
  have h0 : Drained w { w with pendingSources := fun _ => false } :=
    ⟨rfl, fun _ _ hx => hx, fun _ _ hitem => .inl hitem⟩
  generalize { w with pendingSources := fun _ => false } = w1 at h0
  generalize List.range kMaxWorkers = srcs
  induction srcs generalizing w1 with
  | nil => exact h0
  | cons src srcs ih =>
    rw [List.foldl_cons]
    apply ih
    split
    · refine Drained.deliverAll _ ⟨h0.core, fun s x hx => ?_, h0.queue⟩ fun x hx => ?_
      · by_cases hs : s = src
        · subst hs
          simp at hx
        · simp only [Function.update_of_ne hs] at hx
          exact h0.inbox s x hx
      · exact hF.ring src x (h0.inbox src x hx)
    · exact h0

/-! ### Commands -/

theorem FormOk.routesOnly (h : FormOk w) (hr : RoutesOnly w w') : FormOk w' := by
  obtain ⟨routes, io, rfl⟩ := hr
  exact ⟨h.ring, h.ids⟩

theorem FormOk.add {p : Slot} {fd : Fd} {key : Key} {peerId : ℕ} (h : FormOk w)
    (hok : AddOk w p fd proto) (hR : PeerAdded w p fd key proto peerId w') : FormOk w' := by
  have hpro : (w'.ht p).protocol = proto := (congrArg Peer.protocol hR.slot :)
  have hfd : (w'.ht p).fd = fd := (congrArg Peer.fd hR.slot :)
  constructor
  · intro src x hx q hq
    rw [hR.inbox] at hx
    obtain ⟨hv, hmap, hgen⟩ := xferTarget_some.mp hq
    rw [hR.fdMap] at hmap
    rw [hR.fdGen] at hgen
    by_cases hxfd : x.dstFd = fd
    · rw [hxfd, Function.update_self] at hmap hgen
      cases hmap
      rw [hpro]
      exact hok.waiting src x hx (.inl ⟨hxfd, hgen⟩)
    · rw [Function.update_of_ne hxfd] at hmap hgen
      have hold : xferTarget w x = some q := xferTarget_some.mpr ⟨hv, hmap, hgen⟩
      by_cases hqp : q = p
      · subst hqp
        rw [hpro]
        exact hok.waiting src x hx (.inr ⟨hxfd, hold⟩)
      · rw [hR.other q hqp]
        exact h.ring src x hx q hold
  · intro m' id q hm' hq
    have hcase := hR.ids m' id q hm' hq
    rw [hR.fdMap]
    by_cases hqp : q = p
    · subst hqp
      have hhd : proto = .kHd := by
        rcases hcase with ⟨-, hhd⟩ | ⟨m, hm, hmq⟩
        · exact hhd
        · exact hok.ids m id q hm hmq (.inl rfl)
      rw [hpro, hfd]
      refine ⟨hhd, fun q' hq' => ?_⟩
      rw [Function.update_self] at hq'
      cases hq'
      rw [hpro, hhd]
    · obtain ⟨m, hm, hmq⟩ := hcase.resolve_left fun hc => hqp hc.1
      obtain ⟨h1, h2⟩ := h.ids m id q hm hmq
      rw [hR.other q hqp]
      refine ⟨h1, fun q' hq' => ?_⟩
      by_cases hqfd : (w.ht q).fd = fd
      · rw [hqfd, Function.update_self] at hq'
        cases hq'
        rw [hpro]
        exact hok.ids m id q hm hmq (.inr (.inl hqfd))
      · rw [Function.update_of_ne hqfd] at hq'
        by_cases hq'p : q' = p
        · subst hq'p
          rw [hpro]
          exact hok.ids m id q hm hmq (.inr (.inr hq'))
        · rw [hR.other q' hq'p]
          exact h2 q' hq'

theorem FormOk.remove {p : Slot} (h : FormOk w) (hU : PeerRemoved w p w') :
    FormOk w' := by
  have hslot : ∀ q, (w'.ht q).protocol = (w.ht q).protocol ∧ (w'.ht q).fd = (w.ht q).fd := by
    intro q
    by_cases hq : q = p
    · subst hq
      rw [hU.slot]
      exact ⟨rfl, rfl⟩
    · rw [hU.other q hq]
      exact ⟨rfl, rfl⟩
  refine h.congr (fun q => (hslot q).1) (fun q => (hslot q).2) hU.fdGen (fun fd q hq => ?_) hU.ids
    fun src x hx => .inl ?_
  · rw [hU.fdMap] at hq
    split at hq
    · cases hq
    · exact hq
  · rwa [hU.inbox] at hx

def DpInv (ctx : Ctx) : Prop := ∀ v, TableOk (ctx.workers v) ∧ FormOk (ctx.workers v)

theorem DpInv.setWorker (h : DpInv ctx) (hT : TableOk w) (hF : FormOk w) :
    DpInv (ctx.setWorker v w) := by
  intro u
  by_cases hu : u = v
  · subst hu
    rw [Ctx.setWorker_self]
    exact ⟨hT, hF⟩
  · rw [Ctx.setWorker_ne ctx w hu]
    exact h u

theorem DpInv.setWorker_of_same (h : DpInv ctx)
    (ho : ∀ q, (w.ht q).occupied = ((ctx.workers v).ht q).occupied)
    (hk : ∀ q, (w.ht q).key = ((ctx.workers v).ht q).key)
    (hr : ∀ q, (w.ht q).rbufAlloc = ((ctx.workers v).ht q).rbufAlloc)
    (hpro : ∀ q, (w.ht q).protocol = ((ctx.workers v).ht q).protocol)
    (hfd : ∀ q, (w.ht q).fd = ((ctx.workers v).ht q).fd)
    (hgen : w.fdGen = (ctx.workers v).fdGen)
    (hmap : ∀ fd q, w.fdMap fd = some q → (ctx.workers v).fdMap fd = some q)
    (hids : w.peerIdMap = (ctx.workers v).peerIdMap)
    (hx : w.xferInbox = (ctx.workers v).xferInbox) : DpInv (ctx.setWorker v w) := by
  refine h.setWorker ((h v).1.congr ho hk hr) ((h v).2.congr hpro hfd hgen hmap ?_ ?_)
  · intro m' id q hm' hq
    exact ⟨m', hids ▸ hm', hq⟩
  · intro src x hmem
    exact .inl (hx ▸ hmem)

theorem DpInv.setFwdRule (h : DpInv ctx) (v : ℕ) (key dstKey : Key) :
    DpInv (setFwdRule ctx v key dstKey) := by
  unfold HyperDerp.setFwdRule
  dsimp only
  split
  · exact h
  · next p _ =>
    split
    · exact h
    · obtain ⟨a, b, c, d, e, heq⟩ := addRule_same (ctx.workers v) p dstKey
      rw [heq]
      have hsel : ∀ {A : Type} (f : Peer → A),
          f { (ctx.workers v).ht p with
            fwdCount := a, fwd1DstFd := b, fwd1DstWorker := c, fwd1Peer := d, fwd := e } =
            f ((ctx.workers v).ht p) →
          ∀ q, f (((ctx.workers v).setPeer p { (ctx.workers v).ht p with
            fwdCount := a, fwd1DstFd := b, fwd1DstWorker := c, fwd1Peer := d, fwd := e }).ht q) =
            f ((ctx.workers v).ht q) := by
        intro A f hf q
        by_cases hq : q = p
        · subst hq
          rw [Worker.setPeer_self, hf]
        · rw [Worker.setPeer_ne _ _ hq]
      exact h.setWorker_of_same (hsel _ rfl) (hsel _ rfl) (hsel _ rfl) (hsel _ rfl) (hsel _ rfl)
        rfl (fun _ _ hq => hq) rfl rfl

theorem DpInv.addPeer (h : DpInv ctx) {fd : Fd} {key : Key}
    (hok : ∀ p, htFind (ctx.workers v) key = some p →
      AddOk (ctx.workers v) p fd proto) (peerId : ℕ) :
    DpInv (processCmdAdd ctx v fd key proto peerId) := by
  rcases processCmdAdd_spec (h v).1 fd key proto peerId with ⟨ao, heq⟩ |
    ⟨p, -, hf, -, hadd, -, hothers⟩
  · rw [heq]
    exact h.setWorker_of_same (fun _ => rfl) (fun _ => rfl) (fun _ => rfl) (fun _ => rfl)
      (fun _ => rfl) rfl (fun _ _ hq => hq) rfl rfl
  · intro u
    by_cases hu : u = v
    · subst hu
      exact ⟨hadd.tableOk (h u).1 hf, (h u).2.add (hok p hf) hadd⟩
    · exact ⟨(hothers u hu).tableOk (h u).1, (h u).2.routesOnly (hothers u hu)⟩

theorem DpInv.removePeer (h : DpInv ctx) (v : ℕ) (key : Key) :
    DpInv (processCmdRemove ctx v key).1 := by
  cases hp : htLookup (ctx.workers v) key with
  | none =>
    rw [processCmdRemove_none hp]
    exact h
  | some p =>
    obtain ⟨hrem, -, hothers⟩ := processCmdRemove_spec hp
    intro u
    by_cases hu : u = v
    · subst hu
      exact ⟨hrem.tableOk (h u).1, (h u).2.remove hrem⟩
    · exact ⟨(hothers u hu).tableOk (h u).1, (h u).2.routesOnly (hothers u hu)⟩

theorem DpInv.movePeerOut (h : DpInv ctx) (v : ℕ) (key : Key) :
    DpInv (movePeerOut ctx v key) := by
  cases hp : htLookup (ctx.workers v) key with
  | none =>
    simp only [HyperDerp.movePeerOut, hp]
    exact h
  | some p =>
    obtain ⟨hrem, hothers⟩ := movePeerOut_unregistered hp
    intro u
    by_cases hu : u = v
    · subst hu
      exact ⟨hrem.tableOk (h u).1, (h u).2.remove hrem⟩
    · rw [hothers u hu]
      exact h u

theorem DpInv.write (h : DpInv ctx) (v : ℕ) (key : Key) (data : Bytes) :
    DpInv (processCmdWrite ctx v key data) := by
  unfold processCmdWrite
  split
  · exact h
  · next p _ =>
    have heff : Effs v p (fun _ _ => True) (fun _ _ => False) ctx
        (ctx.setWorker v (allocEnqueue (ctx.workers v) p data)) := allocEnqueue_effs trivial
    intro u
    have hc := Ctx.core_worker heff.core u
    refine ⟨(h u).1.of_core hc, (h u).2.of_core hc fun src x hx => ?_⟩
    rcases heff.inbox hx with hx | ⟨hfalse, -⟩
    · exact .inl hx
    · exact hfalse.elim

theorem DpInv.cmd (h : DpInv ctx) {c : Cmd} (hok : dpStepOk ctx (.cmd v c)) :
    DpInv (processCmd ctx v c).1 := by
  cases c with
  | addPeer fd key proto peerId => exact h.addPeer hok peerId
  | removePeer key => exact h.removePeer v key
  | write key data => exact h.write v key data
  | setFwdRule key dstKey => exact h.setFwdRule v key dstKey
  | movePeerOut key => exact h.movePeerOut v key
  | stop =>
    exact h.setWorker_of_same (fun _ => rfl) (fun _ => rfl) (fun _ => rfl) (fun _ => rfl)
      (fun _ => rfl) rfl (fun _ _ hq => hq) rfl rfl

/-! ### Runs -/

theorem dpInit_dpInv (h : dpInit ctx) : DpInv ctx := by
  intro v
  rw [h v]
  refine ⟨tableOk_empty, ?_, ?_⟩
  · intro src x hx
    cases hx
  · intro m id q hm
    cases hm

theorem dpStep_dpInv {ctx' : Ctx} {l : DpStep} (h : DpInv ctx) (hok : dpStepOk ctx l)
    (hs : dpStep ctx l = some ctx') : DpInv ctx' := by
  cases l with
  | cmd v c =>
    cases hs
    exact h.cmd hok
  | dispatch v p frame =>
    simp only [dpStep] at hs
    split at hs
    · next hw =>
      cases hs
      intro u
      exact ⟨(h u).1.of_core (Ctx.core_worker (dispatchFrame_core ctx v p frame) u),
        dispatchFrame_formOk (fun a => (h a).2) hok hw u⟩
    · cases hs
  | drain v =>
    cases hs
    have hd := processXfer_drained (h v).2
    exact h.setWorker ((h v).1.of_core hd.core)
      ((h v).2.of_core hd.core fun src x hx => .inl (hd.inbox src x hx))
  | eof v fd =>
    simp only [dpStep] at hs
    split at hs
    · cases hs
    · cases hs
      refine h.setWorker_of_same (fun _ => rfl) (fun _ => rfl) (fun _ => rfl) (fun _ => rfl)
        (fun _ => rfl) rfl (fun f q hq => ?_) rfl rfl
      by_cases hf : f = fd
      · subst hf
        simp [closeFd] at hq
      · simpa [closeFd, hf] using hq
  | ioPath v q w0 =>
    cases hs
    have hsel : ∀ {A : Type} (f : Peer → A),
        f (((ctx.workers v).withIoPath q w0).ht q) = f ((ctx.workers v).ht q) →
        ∀ a, f (((ctx.workers v).withIoPath q w0).ht a) = f ((ctx.workers v).ht a) := by
      intro A f hf a
      by_cases ha : a = q
      · subst ha
        exact hf
      · simp [Worker.withIoPath, Worker.setPeer_ne _ _ ha]
    have hself : ((ctx.workers v).withIoPath q w0).ht q = { (ctx.workers v).ht q with
        send := (w0.ht q).send, rbuf := (w0.ht q).rbuf
        recvBytesWindow := (w0.ht q).recvBytesWindow
        windowStartNs := (w0.ht q).windowStartNs } := by
      simp [Worker.withIoPath]
    refine h.setWorker_of_same (hsel _ ?_) (hsel _ ?_) (hsel _ ?_) (hsel _ ?_) (hsel _ ?_) rfl
      (fun _ _ hq => hq) rfl rfl
    all_goals rw [hself]

/-- In every run that keeps clear of the combinations that are not converted,
what dispatching and draining place on a send queue is one frame of the
receiver's protocol with a valid length. -/
theorem placed_frames_wellFormed {ctx : Ctx} (h : Runs.Reach dpInit dpStep dpStepOk ctx) :
    (∀ v p frame ctx', DispatchOk ctx v p frame →
      dpStep ctx (.dispatch v p frame) = some ctx' → PlacesWellFormed ctx ctx') ∧
    ∀ v ctx', dpStep ctx (.drain v) = some ctx' → PlacesWellFormed ctx ctx' := by
  have hinv : DpInv ctx :=
    h.invariant (fun _ h0 => dpInit_dpInv h0) fun _ _ _ hi hok hs => dpStep_dpInv hi hok hs
  constructor
  · intro v p frame ctx' hok hs
    simp only [dpStep] at hs
    split at hs
    · next hw =>
      cases hs
      exact dispatchFrame_places (fun u => (hinv u).2) hok hw
    · cases hs
  · intro v ctx' hs
    cases hs
    have hd := processXfer_drained (hinv v).2
    intro u q item hitem
    by_cases hu : u = v
    · subst hu
      rw [Ctx.onWorker, Ctx.setWorker_self] at hitem ⊢
      exact hd.queue q item hitem
    · rw [Ctx.onWorker, Ctx.setWorker_ne _ _ hu] at hitem
      exact .inl hitem

/-! ### A SendPacket to an HD peer of another worker -/

theorem twoWorkers_init : dpInit twoWorkers := fun _ => rfl

def packetAcross (proto : PeerProtocol) : List DpStep :=
  [.cmd 0 (.addPeer 3 (byteKey 1) .kDerp 0), .cmd 1 (.addPeer 4 (byteKey 2) proto 0),
    .dispatch 0 (homeSlot (byteKey 1))
      (writeFrameHeader .kSendPacket 33 ++ (byteKey 2).data ++ [7])]

def drainedAcross (proto : PeerProtocol) : Option (List SendItem × PeerProtocol × List SendItem) :=
  (Runs.run dpStep twoWorkers (packetAcross proto)).bind fun ctx =>
    (dpStep ctx (.drain 1)).map fun ctx' =>
      (((ctx.workers 1).ht (homeSlot (byteKey 2))).send.queue,
        ((ctx'.workers 1).ht (homeSlot (byteKey 2))).protocol,
        ((ctx'.workers 1).ht (homeSlot (byteKey 2))).send.queue)

/-- The HD peer of worker 1 is sent a DERP frame. -/
theorem hd_peer_gets_derp_frame :
    ¬∀ ctx, Runs.Reach dpInit dpStep Runs.Any ctx →
      ∀ v ctx', dpStep ctx (.drain v) = some ctx' → PlacesWellFormed ctx ctx' := by
  intro hall
  have hrun : drainedAcross .kHd =
      some ([], .kHd, [⟨0, buildRecvPacket (byteKey 1) [7]⟩]) := by decide
  obtain ⟨ctx, hctx, hdrain⟩ := Option.bind_eq_some_iff.mp hrun
  obtain ⟨ctx', hctx', heq⟩ := Option.map_eq_some_iff.mp hdrain
  obtain ⟨hbefore, hproto, hafter⟩ : _ ∧ _ ∧ _ := by simpa only [Prod.mk.injEq] using heq
  have hp := hall ctx (Runs.reach_of_run twoWorkers_init hctx) 1 ctx' hctx' 1
    (homeSlot (byteKey 2)) ⟨0, buildRecvPacket (byteKey 1) [7]⟩
  rw [hbefore, hproto, hafter] at hp
  exact absurd hp (by decide)

theorem processCmdAdd_protocol {wid : ℕ} (h : TableOk (ctx.workers wid)) (fd : Fd) (key : Key)
    (proto : PeerProtocol) (peerId u : ℕ) (q : Slot) :
    (((processCmdAdd ctx wid fd key proto peerId).workers u).ht q).protocol = proto ∨
      (((processCmdAdd ctx wid fd key proto peerId).workers u).ht q).protocol =
        ((ctx.workers u).ht q).protocol := by
  rcases processCmdAdd_spec h fd key proto peerId with ⟨ao, heq⟩ | ⟨p, -, -, -, hadd, -, hothers⟩
  · right
    rw [heq]
    by_cases hu : u = wid
    · subst hu
      rw [Ctx.setWorker_self]
    · rw [Ctx.setWorker_ne _ _ hu]
  · by_cases hu : u = wid
    · subst hu
      by_cases hq : q = p
      · subst hq
        exact .inl (congrArg Peer.protocol hadd.slot :)
      · rw [hadd.other q hq]
        exact .inr rfl
    · obtain ⟨routes, io, heq⟩ := hothers u hu
      rw [heq]
      exact .inr rfl

theorem processCmdAdd_inbox {wid : ℕ} (h : TableOk (ctx.workers wid)) (fd : Fd) (key : Key)
    (proto : PeerProtocol) (peerId u : ℕ) (hu : u ≠ wid) :
    ((processCmdAdd ctx wid fd key proto peerId).workers u).xferInbox =
        (ctx.workers u).xferInbox ∧
      ((processCmdAdd ctx wid fd key proto peerId).workers u).peerIdMap =
        (ctx.workers u).peerIdMap := by
  rcases processCmdAdd_spec h fd key proto peerId with ⟨ao, heq⟩ | ⟨p, -, -, -, hadd, -, hothers⟩
  · rw [heq, Ctx.setWorker_ne _ _ hu]
    exact ⟨rfl, rfl⟩
  · obtain ⟨routes, io, heq⟩ := hothers u hu
    rw [heq]
    exact ⟨rfl, rfl⟩

/-- The same run with a DERP receiver. -/
theorem derp_peer_gets_derp_frame :
    ∃ ctx ctx', Runs.Reach dpInit dpStep dpStepOk ctx ∧ dpStep ctx (.drain 1) = some ctx' ∧
      ((ctx'.workers 1).ht (homeSlot (byteKey 2))).send.queue =
        [⟨0, buildRecvPacket (byteKey 1) [7]⟩] ∧ PlacesWellFormed ctx ctx' := by
  have hrun : drainedAcross .kDerp =
      some ([], .kDerp, [⟨0, buildRecvPacket (byteKey 1) [7]⟩]) := by decide
  obtain ⟨ctx, hctx, hdrain⟩ := Option.bind_eq_some_iff.mp hrun
  obtain ⟨ctx', hctx', heq⟩ := Option.map_eq_some_iff.mp hdrain
  obtain ⟨-, -, hafter⟩ : _ ∧ _ ∧ _ := by simpa only [Prod.mk.injEq] using heq
  have hreach : Runs.Reach dpInit dpStep dpStepOk ctx := by
    refine Runs.reach_run (.start twoWorkers twoWorkers_init) ?_ hctx
    have hadd : ∀ (c : Ctx) (v : ℕ) fd, (c.workers v).xferInbox = (fun _ => []) →
        (c.workers v).peerIdMap = none → ∀ p, AddOk (c.workers v) p fd .kDerp := by
      intro c v fd hx hids p
      refine ⟨fun src x hmem => ?_, fun m id q hm => ?_⟩
      · rw [hx] at hmem
        cases hmem
      · rw [hids] at hm
        cases hm
    have hT0 : TableOk (twoWorkers.workers 0) := tableOk_empty
    have hok0 : dpStepOk twoWorkers (.cmd 0 (.addPeer 3 (byteKey 1) .kDerp 0)) :=
      fun p _ => hadd twoWorkers 0 3 rfl rfl p
    refine ⟨hok0, fun c1 h1 => ?_⟩
    have hc1 : DpInv c1 := dpStep_dpInv (dpInit_dpInv twoWorkers_init) hok0 h1
    cases h1
    obtain ⟨hx1, hi1⟩ := processCmdAdd_inbox hT0 3 (byteKey 1) .kDerp 0 1 (by decide)
    have hok1 := hadd _ 1 4 hx1 hi1
    refine ⟨fun p _ => hok1 p, fun c2 h2 => ⟨?_, fun _ _ => trivial⟩⟩
    have hproto : ∀ v q, ((c2.workers v).ht q).protocol = .kDerp := by
      intro v q
      cases h2
      rcases processCmdAdd_protocol (hc1 1).1 4 (byteKey 2) .kDerp 0 v q with hq | hq
      · exact hq
      · refine hq.trans ?_
        rcases processCmdAdd_protocol hT0 3 (byteKey 1) .kDerp 0 v q with hq | hq
        · exact hq
        · exact hq
    have hno : ∀ p frame t, ¬HdFrame c2 0 p frame t := by
      intro p frame t hd
      rw [HdFrame, hproto] at hd
      cases hd.1
    exact ⟨fun _ _ q _ _ _ _ => hproto _ q, fun _ _ hd => absurd hd (hno _ _ _),
      fun _ _ _ _ hd => absurd hd (hno _ _ _), fun _ hd => absurd hd (hno _ _ _)⟩
  exact ⟨ctx, ctx', hreach, hctx', hafter, (placed_frames_wellFormed hreach).2 1 ctx' hctx'⟩

end HyperDerp
