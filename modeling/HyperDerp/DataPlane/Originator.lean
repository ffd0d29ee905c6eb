import HyperDerp.DataPlane.Commands

/-!
# Who a FleetData frame comes from (`data_plane.cc:1241-1296`, `sdk/src/client.cc:517-533`)

A FleetData frame names its destination and not its source. Each relay on the way
passes it on as it is, and the last one turns it into a MeshData frame with the
peer id of the connection that the frame arrived on.
-/

namespace HyperDerp

/-- `HdBuildFleetDataHeader` (`hd_protocol.cc:109-125`). -/
def hdBuildFleetDataHeader (dstRelayId dstPeerId payloadLen : ℕ) : Bytes :=
  hdWriteFrameHeader .kFleetData (kHdFleetDstSize + payloadLen) ++ writeU16 dstRelayId ++
    writeU16 dstPeerId

/-! ### One relay -/

/-- What a relay queues for a FleetData frame from peer `p`. -/
inductive FleetTarget (ctx : Ctx) (wid : ℕ) (p : Slot) (frame : Bytes) : Slot → Bytes → Prop
  | deliver (q : Slot) :
      hdReadFleetRelay (frame.drop kHdFrameHeaderSize) = ctx.relayId ∨
        hdReadFleetRelay (frame.drop kHdFrameHeaderSize) = 0 →
      peerById (ctx.workers wid) (hdReadFleetPeer (frame.drop kHdFrameHeaderSize)) = some q →
      FleetTarget ctx wid p frame q (meshFrame ((ctx.workers wid).ht p).peerId
        ((frame.drop kHdFrameHeaderSize).drop kHdFleetDstSize))
  | forward (q : Slot) :
      ¬ (hdReadFleetRelay (frame.drop kHdFrameHeaderSize) = ctx.relayId ∨
        hdReadFleetRelay (frame.drop kHdFrameHeaderSize) = 0) →
      peerById (ctx.workers wid)
        (ctx.relayPeerMap (hdReadFleetRelay (frame.drop kHdFrameHeaderSize))) = some q →
      FleetTarget ctx wid p frame q frame

variable {frame out : Bytes} {h : RelayHop} {q : Slot}

theorem dispatchHdFrame_fleet (h : hdReadFrameType frame = .kFleetData) (ctx : Ctx) (wid : ℕ)
    (p : Slot) :
    dispatchHdFrame ctx wid p frame =
      dispatchFleetData ctx wid p frame (frame.drop kHdFrameHeaderSize) := by
  unfold dispatchHdFrame
  dsimp only
  rw [h, if_neg (by decide), if_neg (by simp [HdFrameType.kFleetData, HdFrameType.kPing]),
    if_neg (by decide), if_pos rfl]

theorem dispatchFleetData_targets (ctx : Ctx) (wid : ℕ) (p : Slot) (frame : Bytes) :
    Effs wid p (FleetTarget ctx wid p frame) (fun _ _ => False) ctx
      (dispatchFleetData ctx wid p frame (frame.drop kHdFrameHeaderSize)) := by
  unfold dispatchFleetData
  dsimp only
  split
  · exact .refl
  split
  · next hhere =>
    split
    · exact .refl
    · next dst hdst => exact fleetEnqueue_effs (.deliver dst hhere hdst)
  · next hhere =>
    split
    · exact .refl
    · next dst hdst => exact fleetEnqueue_effs (.forward dst hhere hdst)

/-! ### Chains of relays -/

/-- A relay on the way of a frame, with the connection that the frame arrives on. Peer ids are
`uint16_t`. -/
structure RelayHop where
  ctx : Ctx
  wid : ℕ
  source : Slot
  peerId_lt : ((ctx.workers wid).ht source).peerId < 2 ^ 16

def RelayHop.peerId (h : RelayHop) : ℕ := ((h.ctx.workers h.wid).ht h.source).peerId

def RelayHop.identity (h : RelayHop) : ℕ × ℕ := (h.ctx.relayId, h.peerId)

/-- Dispatching the frame queues `out` for the peer in slot `q`. -/
def RelayHop.Sends (h : RelayHop) (frame : Bytes) (q : Slot) (out : Bytes) : Prop :=
  ∃ item ∈ (((dispatchHdFrame h.ctx h.wid h.source frame).workers h.wid).ht q).send.queue,
    item ∉ ((h.ctx.workers h.wid).ht q).send.queue ∧ item.data = out

/-- A frame goes through the relays of the list and comes out of the last one as MeshData. -/
inductive FleetDelivered (frame : Bytes) : RelayHop → List RelayHop → Bytes → Prop
  | last (h : RelayHop) (q : Slot) (out : Bytes) : h.Sends frame q out →
      hdReadFrameType out = .kMeshData → FleetDelivered frame h [] out
  | forward (h h' : RelayHop) (rest : List RelayHop) (q : Slot) (out : Bytes) :
      h.Sends frame q frame → FleetDelivered frame h' rest out →
      FleetDelivered frame h (h' :: rest) out

/-- The MeshData branch of `Client::DispatchFrame`: source and payload. -/
def sdkMeshData (frame : Bytes) : Option (ℕ × Bytes) :=
  let buf := frame.drop kHdFrameHeaderSize
  if hdReadFrameType frame = .kMeshData ∧ kHdMeshDstSize ≤ buf.length then
    some (readU16 buf 0, buf.drop kHdMeshDstSize)
  else none

def sdkTunnel {T : Type} (tunnels : ℕ → Option T) (frame : Bytes) : Option (T × Bytes) :=
  (sdkMeshData frame).bind fun d => (tunnels d.1).map fun t => (t, d.2)

def sourceSeen (last : RelayHop) (out : Bytes) : Option (ℕ × ℕ) :=
  (sdkMeshData out).map fun d => (last.ctx.relayId, d.1)

/-- The receiver sees the originator, and does not take another client that sends through the
same links for it. -/
structure KeepsOriginator (first : RelayHop) (rest : List RelayHop) (out : Bytes) : Prop where
  seen : sourceSeen (rest.getLastD first) out = some first.identity
  apart : ∀ (frame' : Bytes) (first' : RelayHop) (rest' : List RelayHop) (out' : Bytes),
    hdReadFrameType frame' = .kFleetData → FleetDelivered frame' first' rest' out' →
    first'.ctx.relayId = first.ctx.relayId → first'.peerId ≠ first.peerId →
    rest'.map RelayHop.identity = rest.map RelayHop.identity →
    ∀ T (tunnels : ℕ → Option T), (∀ a b t, tunnels a = some t → tunnels b = some t → a = b) →
      ∀ t d d', sdkTunnel tunnels out = some (t, d) → sdkTunnel tunnels out' ≠ some (t, d')

theorem sdkMeshData_meshFrame {id : ℕ} (h : id < 2 ^ 16) (body : Bytes) :
    sdkMeshData (meshFrame id body) = some (id, body) := by
  have hdrop : (meshFrame id body).drop kHdFrameHeaderSize = writeU16 id ++ body := by
    rw [meshFrame, List.append_assoc]
    exact List.drop_left' (length_hdWriteFrameHeader ..)
  have htwo : (writeU16 id).length = kHdMeshDstSize := by simp [writeU16, kHdMeshDstSize]
  unfold sdkMeshData
  dsimp only
  rw [hdrop, if_pos ⟨rfl, by rw [List.length_append, htwo]; exact Nat.le_add_right ..⟩,
    List.drop_left' htwo]
  have hread : readU16 (writeU16 id ++ body) 0 = id := by
    rw [readU16, List.drop_zero, ← kHdMeshDstSize, List.take_left' htwo, writeU16,
      BigEndian.val_bytes_of_lt h]
  rw [hread]

theorem RelayHop.Sends.target
    (hs : h.Sends frame q out) (ht : hdReadFrameType frame = .kFleetData) :
    FleetTarget h.ctx h.wid h.source frame q out := by
  obtain ⟨item, hitem, hnew, rfl⟩ := hs
  rw [dispatchHdFrame_fleet ht] at hitem
  rcases (dispatchFleetData_targets h.ctx h.wid h.source frame).queue hitem with hold | ⟨-, htarget⟩
  · exact absurd hold hnew
  · exact htarget

theorem RelayHop.Sends.last (hs : h.Sends frame q out) (ht : hdReadFrameType frame = .kFleetData)
    (hout : hdReadFrameType out = .kMeshData) :
    (hdReadFleetRelay (frame.drop kHdFrameHeaderSize) = h.ctx.relayId ∨
      hdReadFleetRelay (frame.drop kHdFrameHeaderSize) = 0) ∧
    ∃ body, sdkMeshData out = some (h.peerId, body) := by
  cases hs.target ht with
  | deliver hhere _ => exact ⟨hhere, _, sdkMeshData_meshFrame h.peerId_lt _⟩
  | forward _ _ =>
    rw [ht] at hout
    exact absurd hout (by decide)

theorem RelayHop.Sends.passed (hs : h.Sends frame q out) (ht : hdReadFrameType frame = .kFleetData)
    (hout : hdReadFrameType out = .kFleetData) :
    hdReadFleetRelay (frame.drop kHdFrameHeaderSize) ≠ h.ctx.relayId ∧
      hdReadFleetRelay (frame.drop kHdFrameHeaderSize) ≠ 0 := by
  cases hs.target ht with
  | deliver _ _ =>
    rw [show hdReadFrameType (meshFrame _ _) = HdFrameType.kMeshData from rfl] at hout
    exact absurd hout (by decide)
  | forward hhere _ => exact not_or.mp hhere

theorem FleetDelivered.last_hop {first : RelayHop} {rest : List RelayHop}
    (h : FleetDelivered frame first rest out) (ht : hdReadFrameType frame = .kFleetData) :
    (hdReadFleetRelay (frame.drop kHdFrameHeaderSize) = (rest.getLastD first).ctx.relayId ∨
      hdReadFleetRelay (frame.drop kHdFrameHeaderSize) = 0) ∧
    ∃ body, sdkMeshData out = some ((rest.getLastD first).peerId, body) := by
  induction h with
  | last h q out hs hout => exact hs.last ht hout
  | forward h h' rest q out hs _ ih => simpa only [List.getLastD_cons] using ih

theorem FleetDelivered.relay_ne {first : RelayHop} {rest : List RelayHop}
    (h : FleetDelivered frame first rest out) (ht : hdReadFrameType frame = .kFleetData)
    (hrest : rest ≠ []) : (rest.getLastD first).ctx.relayId ≠ first.ctx.relayId := by
  obtain ⟨hlast, -⟩ := h.last_hop ht
  cases h with
  | last => exact absurd rfl hrest
  | forward _ h' rest q _ hs _ =>
    obtain ⟨hne, hne0⟩ := hs.passed ht ht
    rcases hlast with hlast | hlast
    · rw [← hlast]
      exact hne
    · exact absurd hlast hne0

/-- The originator survives one relay and no more. -/
theorem keeps_originator_iff {frame out : Bytes} {first : RelayHop} {rest : List RelayHop}
    (ht : hdReadFrameType frame = .kFleetData) (h : FleetDelivered frame first rest out) :
    KeepsOriginator first rest out ↔ rest = [] := by
  obtain ⟨-, body, hout⟩ := h.last_hop ht
  constructor
  · intro hkeeps
    by_contra hne
    have hseen := hkeeps.seen
    rw [sourceSeen, hout, Option.map_some, Option.some.injEq, RelayHop.identity,
      Prod.mk.injEq] at hseen
    exact h.relay_ne ht hne hseen.1
  · rintro rfl
    constructor
    · rw [sourceSeen, hout]
      rfl
    · intro frame' first' rest' out' ht' h' hrelay hpeer hlinks T tunnels hinj t d d' hd hd'
      obtain rfl : rest' = [] := by simpa using hlinks
      obtain ⟨-, body', hout'⟩ := h'.last_hop ht'
      simp only [sdkTunnel, hout, hout', Option.bind_some, Option.map_eq_some_iff,
        Prod.mk.injEq] at hd hd'
      obtain ⟨t1, ht1, rfl, -⟩ := hd
      obtain ⟨t2, ht2, rfl, -⟩ := hd'
      exact hpeer (hinj _ _ _ ht2 ht1)

/-! ### Two clients and two relays -/

def oneWorkerRelay (id : ℕ) (toRelay : ℕ → ℕ) (peers : List (Fd × Key × ℕ)) : Ctx :=
  peers.foldl (fun ctx p => processCmdAdd ctx 0 p.1 p.2.1 .kHd p.2.2)
    { workers := fun _ => {}, numWorkers := 1, relayId := id, relayPeerMap := toRelay }

def nearRelay : Ctx :=
  oneWorkerRelay 1 (Function.update (fun _ => 0) 2 2)
    [(5, byteKey 1, 1), (6, byteKey 2, 2), (7, byteKey 3, 3)]

def farRelay : Ctx := oneWorkerRelay 2 (fun _ => 0) [(8, byteKey 5, 5), (9, byteKey 6, 6)]

def nearHop : RelayHop := ⟨nearRelay, 0, homeSlot (byteKey 1), by decide⟩
def farHop : RelayHop := ⟨farRelay, 0, homeSlot (byteKey 5), by decide⟩

def fleetFrame : Bytes := hdBuildFleetDataHeader 2 6 1 ++ [7]

theorem sends_of_queue {item : SendItem}
    (hqueue : (((dispatchHdFrame h.ctx h.wid h.source frame).workers h.wid).ht q).send.queue =
      [item]) (hempty : ((h.ctx.workers h.wid).ht q).send.queue = []) :
    h.Sends frame q item.data := by
  refine ⟨item, ?_, ?_, rfl⟩
  · rw [hqueue]
    exact List.mem_singleton_self _
  · rw [hempty]
    exact List.not_mem_nil

/-- Client 3 of relay 1 gets what client 1 sends it. -/
theorem keeps_originator_local :
    FleetDelivered (hdBuildFleetDataHeader 1 3 1 ++ [7]) nearHop [] (meshFrame 1 [7]) ∧
      KeepsOriginator nearHop [] (meshFrame 1 [7]) := by
  have hsends : nearHop.Sends (hdBuildFleetDataHeader 1 3 1 ++ [7]) (homeSlot (byteKey 3))
      (⟨0, meshFrame 1 [7]⟩ : SendItem).data :=
    sends_of_queue (by decide) (by decide)
  have hdelivered : FleetDelivered (hdBuildFleetDataHeader 1 3 1 ++ [7]) nearHop []
      (meshFrame 1 [7]) := .last _ _ _ hsends rfl
  exact ⟨hdelivered, (keeps_originator_iff (by decide) hdelivered).mpr rfl⟩

/-- What reaches client 6 of relay 2 names peer 5 of relay 2, the link. -/
theorem not_keeps_originator_two_relays :
    ¬∀ (frame : Bytes) (first : RelayHop) (rest : List RelayHop) (out : Bytes),
      hdReadFrameType frame = .kFleetData → FleetDelivered frame first rest out →
      KeepsOriginator first rest out := by
  intro hall
  have hnear : nearHop.Sends fleetFrame (homeSlot (byteKey 2))
      (⟨0, fleetFrame⟩ : SendItem).data :=
    sends_of_queue (by decide +kernel) (by decide +kernel)
  have hfar : farHop.Sends fleetFrame (homeSlot (byteKey 6))
      (⟨0, meshFrame 5 [7]⟩ : SendItem).data :=
    sends_of_queue (by decide) (by decide)
  have hdelivered : FleetDelivered fleetFrame nearHop [farHop] (meshFrame 5 [7]) :=
    .forward _ _ _ _ _ hnear (.last _ _ _ hfar rfl)
  have hseen := (hall fleetFrame nearHop [farHop] _ (by decide) hdelivered).seen
  exact absurd hseen (by decide)

end HyperDerp
