import HyperDerp.DataPlane.Forward
import Mathlib.Logic.Relation

/-!
# What dispatching one frame can do

`DispatchFrame` has eight ways to handle a frame, some of them loops over rules
or over the whole peer table. This module says once what all of them amount to:
a sequence of elementary effects (`Eff`), each queueing a buffer for a peer
(`LocalTarget`), pushing a transfer (`RemoteTarget`), writing a rule cache of the
source peer, or changing accounting. Everything else, the `core` of the context,
stays as it is.
-/

namespace HyperDerp

/-! ### The part of the state that dispatching leaves alone -/

def Peer.core (p : Peer) : Peer :=
  { p with
    send := {}, fwd1DstFd := 0, fwd1DstWorker := 0, fwd1Peer := none, fwd := fun _ => {} }

def Worker.core (w : Worker) : Worker :=
  { running := w.running, ht := fun q => (w.ht q).core, fdMap := w.fdMap
    peerIdMap := w.peerIdMap, fdGen := w.fdGen, routes := w.routes, cmdRing := w.cmdRing
    peerCount := w.peerCount }

def Ctx.core (ctx : Ctx) : Ctx := { ctx with workers := fun v => (ctx.workers v).core }

variable {ctx ctx' : Ctx} {v : ℕ} {w w' : Worker} {q : Slot} {data frame : Bytes} {item : SendItem}

theorem Ctx.core_worker (h : ctx'.core = ctx.core) (v : ℕ) :
    (ctx'.workers v).core = (ctx.workers v).core :=
  congrFun (congrArg Ctx.workers h) v

theorem Ctx.core_setWorker (h : w.core = (ctx.workers v).core) :
    (ctx.setWorker v w).core = ctx.core := by
  simp only [Ctx.core, Ctx.setWorker, Ctx.mk.injEq, and_true]
  funext u
  by_cases hu : u = v
  · subst hu
    rw [Function.update_self, h]
  · rw [Function.update_of_ne hu]

theorem Worker.core_peer (h : w'.core = w.core) (q : Slot) :
    (w'.ht q).core = (w.ht q).core :=
  congrFun (congrArg Worker.ht h) q

theorem htLookup_core (h : w'.core = w.core) (k : Key) :
    htLookup w' k = htLookup w k :=
  LinearProbe.lookup_congr peerView keyHash
    (fun a => (congrArg Peer.occupied (Worker.core_peer h a) :))
    (fun a => (congrArg Peer.key (Worker.core_peer h a) :)) k

theorem SendOnly.core {p : Slot} (h : SendOnly p w w') : w'.core = w.core := by
  obtain ⟨s, io, pf, nm, ao, ni, sp, st, rfl⟩ := h
  have hht : (fun q => ((w.setSend p s).ht q).core) = fun q => (w.ht q).core := by
    funext q
    by_cases hq : q = p
    · subst hq
      simp [Worker.setSend, Peer.core]
    · rw [w.setSend_ne s hq]
  simp only [Worker.core, hht]
  rfl

/-! ### Elementary effects -/

section

variable (wid : ℕ) (p : Slot) (PE : Slot → Bytes → Prop) (PX : ℕ → Xfer → Prop)

inductive Eff : Ctx → Ctx → Prop
  | enqueue (ctx : Ctx) (q : Slot) (data : Bytes) : PE q data →
      Eff ctx (ctx.setWorker wid (enqueueSend (ctx.workers wid) q data))
  | xfer (ctx : Ctx) (dst : ℕ) (x : Xfer) : PX dst x → Eff ctx (xferSpscPush ctx wid dst x)
  | rules (ctx : Ctx) (fwd1Peer : Option Slot) (fwd1DstFd : Fd) (fwd1DstWorker : ℤ)
      (fwd : ℕ → FwdRule) :
      Eff ctx (ctx.setWorker wid ((ctx.workers wid).setPeer p
        { (ctx.workers wid).ht p with
          fwd1Peer := fwd1Peer, fwd1DstFd := fwd1DstFd, fwd1DstWorker := fwd1DstWorker
          fwd := fwd }))
  | account (ctx : Ctx) (allocOracle : List Bool) (stats : WorkerStats) (pipe : List PipeMsg) :
      Eff ctx (ctx.setWorker wid
        { ctx.workers wid with allocOracle := allocOracle, stats := stats, pipe := pipe })

abbrev Effs : Ctx → Ctx → Prop := Relation.ReflTransGen (Eff wid p PE PX)

end

variable {wid : ℕ} {p : Slot} {PE PE' : Slot → Bytes → Prop} {PX PX' : ℕ → Xfer → Prop}

theorem xferSpscPush_core (ctx : Ctx) (wid dst : ℕ) (x : Xfer) :
    (xferSpscPush ctx wid dst x).core = ctx.core := by
  unfold xferSpscPush Ctx.onWorker
  dsimp only
  split
  · exact Ctx.core_setWorker rfl
  · split
    · rw [Ctx.core_setWorker, Ctx.core_setWorker] <;> rfl
    · exact Ctx.core_setWorker rfl

theorem Eff.core (h : Eff wid p PE PX ctx ctx') : ctx'.core = ctx.core := by
  cases h with
  | enqueue q data _ => exact Ctx.core_setWorker (enqueueSend_sendOnly _ _ _).core
  | xfer dst x _ => exact xferSpscPush_core _ _ _ _
  | rules a b c d =>
    refine Ctx.core_setWorker ?_
    simp only [Worker.core, Worker.setPeer, Worker.mk.injEq, and_true, true_and]
    funext q
    by_cases hq : q = p
    · subst hq
      simp [Peer.core]
    · rw [Function.update_of_ne hq]
  | account a b c => exact Ctx.core_setWorker rfl

theorem Effs.core (h : Effs wid p PE PX ctx ctx') : ctx'.core = ctx.core := by
  induction h with
  | refl => rfl
  | tail _ h ih => exact h.core.trans ih

/-! ### Building blocks -/

theorem setWorker_setWorker (ctx : Ctx) (v : ℕ) (a b : Worker) :
    (ctx.setWorker v a).setWorker v b = ctx.setWorker v b := by
  simp [Ctx.setWorker]

theorem setWorker_workers (ctx : Ctx) (v : ℕ) : ctx.setWorker v (ctx.workers v) = ctx := by
  simp [Ctx.setWorker]

theorem alloc_effs (ctx : Ctx) :
    Effs wid p PE PX ctx (ctx.setWorker wid (ctx.workers wid).alloc.2) := by
  unfold Worker.alloc
  split
  · rw [setWorker_workers]
  · exact .single (.account ctx _ _ _)

theorem frameAlloc_effs (ctx : Ctx) : Effs wid p PE PX ctx (frameAlloc ctx wid).2 :=
  alloc_effs ctx

theorem alloc_eq (w : Worker) : w.alloc.2 = { w with allocOracle := w.alloc.2.allocOracle } := by
  unfold Worker.alloc
  split <;> rfl

theorem enqueue_effs (h : PE q data) :
    Effs wid p PE PX ctx (ctx.setWorker wid (enqueueSend (ctx.workers wid) q data)) :=
  .single (.enqueue ctx q data h)

theorem Effs.then {f : Worker → Worker}
    (h1 : Effs wid p PE PX ctx (ctx.setWorker wid w))
    (h2 : ∀ ctx' : Ctx, ctx'.workers wid = w →
      Effs wid p PE PX ctx' (ctx'.setWorker wid (f (ctx'.workers wid)))) :
    Effs wid p PE PX ctx (ctx.setWorker wid (f w)) := by
  have h := h2 (ctx.setWorker wid w) (ctx.setWorker_self wid w)
  rw [setWorker_setWorker, Ctx.setWorker_self] at h
  exact h1.trans h

theorem allocEnqueue_effs (h : PE q data) :
    Effs wid p PE PX ctx (ctx.setWorker wid (allocEnqueue (ctx.workers wid) q data)) := by
  have ha : Effs wid p PE PX ctx _ := alloc_effs ctx
  unfold allocEnqueue
  split
  · next heq => rw [heq] at ha; exact ha
  · next w1 heq =>
    rw [heq] at ha
    exact Effs.then (f := fun w => enqueueSend w q data) ha fun _ _ => enqueue_effs h

theorem broadcastFrame_effs {proto : PeerProtocol}
    (h : ∀ q, ((ctx.workers wid).ht q).occupied = .live →
      ((ctx.workers wid).ht q).protocol = proto → PE q data) :
    Effs wid p PE PX ctx
      (ctx.setWorker wid (broadcastFrame (ctx.workers wid) p proto data)) := by
  unfold broadcastFrame
  generalize List.finRange kHtCapacity = slots
  induction slots generalizing ctx with
  | nil => rw [List.foldl_nil, setWorker_workers]
  | cons q slots ih =>
    rw [List.foldl_cons]
    split
    · exact ih h
    · next hlive =>
      split
      · exact ih h
      · next hproto =>
        have hq : PE q data := h q (by tauto) (by tauto)
        have h1 : Effs wid p PE PX ctx _ := allocEnqueue_effs hq
        have hcore := Ctx.core_worker h1.core wid
        rw [Ctx.setWorker_self] at hcore
        have h2 := @ih (ctx.setWorker wid (allocEnqueue (ctx.workers wid) q data)) (by
          rw [Ctx.setWorker_self]
          intro a ha hp
          have hpeer := Worker.core_peer hcore a
          have hocc : _ = _ := congrArg Peer.occupied hpeer
          have hpro : _ = _ := congrArg Peer.protocol hpeer
          exact h a (hocc ▸ ha) (hpro ▸ hp))
        rw [Ctx.setWorker_self, setWorker_setWorker] at h2
        exact h1.trans h2

/-! ### Where a frame can go -/

def resolveLocal (w : Worker) (rule : FwdRule) : Option Slot :=
  match rule.peer.filter fun dst => (w.ht dst).occupied = .live with
  | some dst => some dst
  | none => if rule.dstFd < 0 then htLookup w rule.key else none

def resolveRemote (w : Worker) (rule : FwdRule) : Option (ℤ × Fd) :=
  if rule.dstFd < 0 then
    (routeLookup w.routes rule.key).map fun a =>
      (((w.routes a).workerId : ℤ), (w.routes a).fd)
  else some (rule.dstWorker, rule.dstFd)

def Peer.rule1 (peer : Peer) : FwdRule :=
  ⟨peer.fwd1Peer, (peer.fwd 0).key, peer.fwd1DstFd, peer.fwd1DstWorker⟩

inductive UsesRule (peer : Peer) : FwdRule → Prop
  | single : peer.fwdCount = 1 → UsesRule peer peer.rule1
  | many (r : ℕ) : 1 < peer.fwdCount → r < peer.fwdCount → UsesRule peer (peer.fwd r)

section Targets

variable (ctx : Ctx) (wid : ℕ) (p : Slot) (frame : Bytes)

/-- Peer `p` speaks HD and the frame has type `t`. -/
def HdFrame (t : HdFrameType) : Prop :=
  ((ctx.workers wid).ht p).protocol = .kHd ∧ hdReadFrameType frame = t

/-- Peer `p` speaks DERP and the frame is a SendPacket to `k`. -/
def PacketTo (k : Key) : Prop :=
  ((ctx.workers wid).ht p).protocol ≠ .kHd ∧ readFrameType frame = .kSendPacket ∧
    ∃ h : kKeySize ≤ (frame.drop kFrameHeaderSize).length,
      k = toKey (frame.drop kFrameHeaderSize) h

/-- Every buffer that dispatching `frame` can queue on a peer of the worker. -/
inductive LocalTarget : Slot → Bytes → Prop
  | rule (rule : FwdRule) (q : Slot) : HdFrame ctx wid p frame .kData →
      UsesRule ((ctx.workers wid).ht p) rule →
      resolveLocal (ctx.workers wid) rule = some q → LocalTarget q frame
  | noRules (q : Slot) : HdFrame ctx wid p frame .kData →
      ((ctx.workers wid).ht p).fwdCount = 0 → ((ctx.workers wid).ht q).occupied = .live →
      ((ctx.workers wid).ht q).protocol = .kHd → LocalTarget q frame
  | bridged (q : Slot) (derp : Bytes) : HdFrame ctx wid p frame .kData →
      1 < ((ctx.workers wid).ht p).fwdCount → ((ctx.workers wid).ht q).occupied = .live →
      ((ctx.workers wid).ht q).protocol = .kDerp →
      bridgeHdToDerp (frame.drop kHdFrameHeaderSize) ((ctx.workers wid).ht p).key
        (kFrameHeaderSize + kKeySize + kMaxFramePayload) = some derp → LocalTarget q derp
  | pong : HdFrame ctx wid p frame .kPing →
      (frame.drop kHdFrameHeaderSize).length = kHdPingDataSize →
      LocalTarget p (hdBuildPong (frame.drop kHdFrameHeaderSize))
  | mesh (q : Slot) : HdFrame ctx wid p frame .kMeshData →
      kHdMeshDstSize ≤ (frame.drop kHdFrameHeaderSize).length →
      peerById (ctx.workers wid) (hdReadMeshDst (frame.drop kHdFrameHeaderSize)) = some q →
      LocalTarget q (meshFrame ((ctx.workers wid).ht p).peerId
        ((frame.drop kHdFrameHeaderSize).drop kHdMeshDstSize))
  | fleetLocal (q : Slot) : HdFrame ctx wid p frame .kFleetData →
      kHdFleetDstSize ≤ (frame.drop kHdFrameHeaderSize).length →
      peerById (ctx.workers wid) (hdReadFleetPeer (frame.drop kHdFrameHeaderSize)) = some q →
      LocalTarget q (meshFrame ((ctx.workers wid).ht p).peerId
        ((frame.drop kHdFrameHeaderSize).drop kHdFleetDstSize))
  | fleetRelay (q : Slot) : HdFrame ctx wid p frame .kFleetData →
      peerById (ctx.workers wid)
        (ctx.relayPeerMap (hdReadFleetRelay (frame.drop kHdFrameHeaderSize))) = some q →
      LocalTarget q frame
  | peerInfo (q : Slot) : HdFrame ctx wid p frame .kPeerInfo →
      ((ctx.workers wid).ht q).occupied = .live →
      ((ctx.workers wid).ht q).protocol = .kHd → LocalTarget q frame
  | packetHd (k : Key) (q : Slot) (hd : Bytes) : PacketTo ctx wid p frame k →
      htLookup (ctx.workers wid) k = some q → ((ctx.workers wid).ht q).protocol = .kHd →
      bridgeDerpToHd (frame.drop kFrameHeaderSize) (kHdFrameHeaderSize + kMaxFramePayload) =
        some hd → LocalTarget q hd
  | packet (k : Key) (q : Slot) : PacketTo ctx wid p frame k →
      htLookup (ctx.workers wid) k = some q → ((ctx.workers wid).ht q).protocol ≠ .kHd →
      LocalTarget q (buildRecvPacket ((ctx.workers wid).ht p).key
        ((frame.drop kFrameHeaderSize).drop kKeySize))

/-- Every transfer that dispatching `frame` can push on another worker's inbox. -/
inductive RemoteTarget : ℕ → Xfer → Prop
  | rule (rule : FwdRule) (dst : ℕ) (fd : Fd) : HdFrame ctx wid p frame .kData →
      UsesRule ((ctx.workers wid).ht p) rule → resolveLocal (ctx.workers wid) rule = none →
      resolveRemote (ctx.workers wid) rule = some ((dst : ℤ), fd) →
      RemoteTarget dst ⟨fd, frame, loadGen ctx dst fd, some (.rule rule.key false)⟩
  | mesh (dst : ℕ) (fd : Fd) : HdFrame ctx wid p frame .kMeshData →
      kHdMeshDstSize ≤ (frame.drop kHdFrameHeaderSize).length →
      meshRemote ctx wid (hdReadMeshDst (frame.drop kHdFrameHeaderSize)) = some (dst, fd) →
      RemoteTarget dst ⟨fd, meshFrame ((ctx.workers wid).ht p).peerId
        ((frame.drop kHdFrameHeaderSize).drop kHdMeshDstSize), loadGen ctx dst fd, none⟩
  | packet (k : Key) (a : Slot) : PacketTo ctx wid p frame k →
      htLookup (ctx.workers wid) k = none → routeLookup (ctx.workers wid).routes k = some a →
      RemoteTarget ((ctx.workers wid).routes a).workerId
        ⟨((ctx.workers wid).routes a).fd,
          buildRecvPacket ((ctx.workers wid).ht p).key
            ((frame.drop kFrameHeaderSize).drop kKeySize),
          loadGen ctx ((ctx.workers wid).routes a).workerId ((ctx.workers wid).routes a).fd,
          some (.packet k)⟩

end Targets

/-! ### Lookups that read the core only -/

section

variable {w w' : Worker} {ctx ctx' : Ctx}

theorem Worker.core_occupied (h : w'.core = w.core) (q : Slot) :
    (w'.ht q).occupied = (w.ht q).occupied :=
  (congrArg Peer.occupied (Worker.core_peer h q) :)

theorem Worker.core_routes (h : w'.core = w.core) : w'.routes = w.routes :=
  (congrArg Worker.routes h :)

theorem loadGen_core (h : ctx'.core = ctx.core) (dst : ℕ) (fd : Fd) :
    loadGen ctx' dst fd = loadGen ctx dst fd :=
  congrFun (congrArg Worker.fdGen (Ctx.core_worker h dst) :) fd

theorem resolveLocal_core (h : w'.core = w.core) (rule : FwdRule) :
    resolveLocal w' rule = resolveLocal w rule := by
  simp only [resolveLocal, Worker.core_occupied h, htLookup_core h]

theorem resolveRemote_core (h : w'.core = w.core) (rule : FwdRule) :
    resolveRemote w' rule = resolveRemote w rule := by
  simp only [resolveRemote, Worker.core_routes h]

end

/-! ### Effects of each forwarding function -/

theorem xferPush_effs {dstId : ℤ} {fd : Fd} {tag : Option Origin}
    (h : ∀ dst : ℕ, dstId = dst → PX dst ⟨fd, frame, loadGen ctx dst fd, tag⟩) :
    Effs wid p PE PX ctx (xferPush ctx wid dstId fd frame tag) := by
  unfold xferPush
  split
  · exact .refl
  · next hc => exact .single (.xfer ctx _ _ (h dstId.toNat (by omega)))

theorem rulesXfer_effs {ctx1 : Ctx} (h1 : Eff wid p PE PX ctx ctx1) {dstId : ℤ} {fd : Fd}
    {tag : Option Origin}
    (h : ∀ dst : ℕ, dstId = dst → PX dst ⟨fd, frame, loadGen ctx dst fd, tag⟩) :
    Effs wid p PE PX ctx (xferPush ctx1 wid dstId fd frame tag) := by
  refine Relation.ReflTransGen.head h1 (xferPush_effs fun dst hd => ?_)
  rw [loadGen_core h1.core]
  exact h dst hd

theorem rulesEnqueue_effs {w1 : Worker} (h1 : Eff wid p PE PX ctx (ctx.setWorker wid w1))
    (h : PE q data) :
    Effs wid p PE PX ctx (ctx.setWorker wid (enqueueSend w1 q data)) :=
  Effs.then (f := fun w => enqueueSend w q data) (.single h1) fun _ _ => enqueue_effs h

theorem forwardHdData1Body_effs
    (hl : ∀ q, resolveLocal (ctx.workers wid) ((ctx.workers wid).ht p).rule1 = some q →
      PE q frame)
    (hr : resolveLocal (ctx.workers wid) ((ctx.workers wid).ht p).rule1 = none →
      ∀ (dst : ℕ) fd,
        resolveRemote (ctx.workers wid) ((ctx.workers wid).ht p).rule1 = some ((dst : ℤ), fd) →
        PX dst ⟨fd, frame, loadGen ctx dst fd, some (.rule (((ctx.workers wid).ht p).fwd 0).key false)⟩) :
    Effs wid p PE PX ctx (forwardHdData1Body ctx wid p frame) := by
  unfold forwardHdData1Body
  simp only [resolveLocal, resolveRemote, Peer.rule1] at hl hr
  dsimp only
  split
  · next dst heq => exact enqueue_effs (hl dst (by simp only [heq]))
  · next heq =>
    simp only [heq] at hl hr
    split
    · next hfd =>
      have hneg : ¬((ctx.workers wid).ht p).fwd1DstFd < 0 := not_lt.mpr hfd
      simp only [hneg, ite_false, forall_const, Option.some.injEq, Prod.mk.injEq] at hr
      exact xferPush_effs fun dst hd => hr dst _ ⟨hd, rfl⟩
    · next hfd =>
      have hneg : ((ctx.workers wid).ht p).fwd1DstFd < 0 := not_le.mp hfd
      simp only [hneg, ite_true] at hl hr
      split
      · next dst hdst => exact rulesEnqueue_effs (.rules ctx _ _ _ _) (hl dst hdst)
      · next hnone =>
        split
        · exact .single (.account ctx _ _ _)
        · next r hroute =>
          exact rulesXfer_effs (.rules ctx _ _ _ _) fun dst hd =>
            hr hnone dst _ (by rw [hroute]; simp [hd])

theorem forwardRule_effs {r : ℕ}
    (hl : ∀ q, resolveLocal (ctx.workers wid) (((ctx.workers wid).ht p).fwd r) = some q →
      PE q frame)
    (hr : resolveLocal (ctx.workers wid) (((ctx.workers wid).ht p).fwd r) = none →
      ∀ (dst : ℕ) fd,
        resolveRemote (ctx.workers wid) (((ctx.workers wid).ht p).fwd r) =
          some ((dst : ℤ), fd) →
        PX dst ⟨fd, frame, loadGen ctx dst fd, some (.rule (((ctx.workers wid).ht p).fwd r).key false)⟩) :
    Effs wid p PE PX ctx (forwardRule ctx wid p frame r) := by
  unfold forwardRule
  simp only [resolveLocal, resolveRemote] at hl hr
  dsimp only
  split
  · next dst heq => exact enqueue_effs (hl dst (by simp only [heq]))
  · next heq =>
    simp only [heq] at hl hr
    split
    · next hneg =>
      simp only [hneg, ite_true] at hl hr
      split
      · next dst hdst => exact rulesEnqueue_effs (.rules ctx _ _ _ _) (hl dst hdst)
      · next hnone =>
        split
        · exact .refl
        · next a hroute =>
          split
          · exact .single (.rules ctx _ _ _ _)
          · exact rulesXfer_effs (.rules ctx _ _ _ _) fun dst hd =>
              hr hnone dst _ (by rw [hroute]; simp [hd])
    · next hneg =>
      simp only [hneg, ite_false, forall_const, Option.some.injEq, Prod.mk.injEq] at hr
      exact xferPush_effs fun dst hd => hr dst _ ⟨hd, rfl⟩

/-! ### The rule loop

Each turn rewrites the cache of its own rule only, so later rules are resolved
as they stood before the loop. -/

theorem xferSpscPush_ht (ctx : Ctx) (wid dst : ℕ) (x : Xfer) (v : ℕ) :
    ((xferSpscPush ctx wid dst x).workers v).ht = (ctx.workers v).ht := by
  have hset : ∀ (ctx : Ctx) (u : ℕ) (w : Worker), w.ht = (ctx.workers u).ht →
      ((ctx.setWorker u w).workers v).ht = (ctx.workers v).ht := by
    intro ctx u w hw
    by_cases hv : v = u
    · subst hv
      rw [Ctx.setWorker_self, hw]
    · rw [Ctx.setWorker_ne ctx w hv]
  unfold xferSpscPush Ctx.onWorker
  dsimp only
  split
  · exact hset _ _ _ rfl
  · split
    · rw [hset, hset] <;> rfl
    · exact hset _ _ _ rfl

theorem xferPush_ht (ctx : Ctx) (wid : ℕ) (dstId : ℤ) (fd : Fd) (frame : Bytes)
    (tag : Option Origin) (v : ℕ) :
    ((xferPush ctx wid dstId fd frame tag).workers v).ht = (ctx.workers v).ht := by
  unfold xferPush
  split
  · rfl
  · exact xferSpscPush_ht _ _ _ _ _

theorem enqueueSend_fwd (w : Worker) (q : Slot) (data : Bytes) (a : Slot) :
    ((enqueueSend w q data).ht a).fwd = (w.ht a).fwd := by
  rw [((enqueueSend_sendOnly w q data).peer a).1]

theorem forwardRule_fwd (ctx : Ctx) (wid : ℕ) (p : Slot) (frame : Bytes) {r r' : ℕ} (hne : r' ≠ r) :
    (((forwardRule ctx wid p frame r).workers wid).ht p).fwd r' =
      ((ctx.workers wid).ht p).fwd r' := by
  have hset : ∀ rule, (((ctx.workers wid).setFwd p r rule).ht p).fwd r' =
      ((ctx.workers wid).ht p).fwd r' := by
    intro rule
    simp [Worker.setFwd, hne]
  unfold forwardRule
  dsimp only
  split
  · rw [Ctx.setWorker_self, enqueueSend_fwd]
  · split
    · split
      · rw [Ctx.setWorker_self, enqueueSend_fwd, hset]
      · split
        · rfl
        · split
          · rw [Ctx.setWorker_self, hset]
          · rw [xferPush_ht, Ctx.setWorker_self, hset]
    · rw [xferPush_ht]

theorem frameAlloc_ht (ctx : Ctx) (wid : ℕ) :
    ((frameAlloc ctx wid).2.workers wid).ht = (ctx.workers wid).ht := by
  simp only [frameAlloc, Ctx.setWorker_self, alloc_ht]

theorem forwardRules_effs (ctx0 : Ctx) (rs : List ℕ) (hnd : rs.Nodup)
    (hl : ∀ r ∈ rs, ∀ q,
      resolveLocal (ctx0.workers wid) (((ctx0.workers wid).ht p).fwd r) = some q → PE q frame)
    (hr : ∀ r ∈ rs,
      resolveLocal (ctx0.workers wid) (((ctx0.workers wid).ht p).fwd r) = none →
      ∀ (dst : ℕ) fd,
        resolveRemote (ctx0.workers wid) (((ctx0.workers wid).ht p).fwd r) =
          some ((dst : ℤ), fd) →
        PX dst ⟨fd, frame, loadGen ctx0 dst fd, some (.rule (((ctx0.workers wid).ht p).fwd r).key false)⟩)
    (hcore : ctx.core = ctx0.core)
    (hfwd : ∀ r ∈ rs, ((ctx.workers wid).ht p).fwd r = ((ctx0.workers wid).ht p).fwd r) :
    Effs wid p PE PX ctx (forwardRules ctx wid p frame rs).2 := by
  induction rs generalizing ctx with
  | nil => exact .refl
  | cons r rs ih =>
    have ha : Effs wid p PE PX ctx _ := frameAlloc_effs ctx
    have hht := frameAlloc_ht ctx wid
    simp only [forwardRules]
    split
    · next heq => rw [heq] at ha; exact ha
    · next ctx1 heq =>
      rw [heq] at ha hht
      simp only at ha hht
      have hcore1 := ha.core.trans hcore
      have hw := Ctx.core_worker hcore1 wid
      have hf : ((ctx1.workers wid).ht p).fwd r = ((ctx0.workers wid).ht p).fwd r := by
        rw [hht]
        exact hfwd r (List.mem_cons_self ..)
      have h1 : Effs wid p PE PX ctx1 (forwardRule ctx1 wid p frame r) := by
        apply forwardRule_effs
        · intro q hq
          rw [hf, resolveLocal_core hw] at hq
          exact hl r (List.mem_cons_self ..) q hq
        · intro hn dst fd hrem
          rw [hf, resolveLocal_core hw] at hn
          rw [hf, resolveRemote_core hw] at hrem
          rw [hf, loadGen_core hcore1]
          exact hr r (List.mem_cons_self ..) hn dst fd hrem
      refine ha.trans (h1.trans (ih (List.nodup_cons.mp hnd).2
        (fun r' h => hl r' (List.mem_cons_of_mem _ h))
        (fun r' h => hr r' (List.mem_cons_of_mem _ h)) (h1.core.trans hcore1) ?_))
      intro r' h'
      have hne : r' ≠ r := by
        rintro rfl
        exact (List.nodup_cons.mp hnd).1 h'
      rw [forwardRule_fwd ctx1 wid p frame hne, hht]
      exact hfwd r' (List.mem_cons_of_mem _ h')

/-! ### The whole dispatch -/

theorem forwardHdData1_effs (hd : HdFrame ctx wid p frame .kData)
    (hone : ((ctx.workers wid).ht p).fwdCount = 1) :
    Effs wid p (LocalTarget ctx wid p frame) (RemoteTarget ctx wid p frame) ctx
      (forwardHdData1 ctx wid p frame) := by
  have ha : Effs wid p (LocalTarget ctx wid p frame) (RemoteTarget ctx wid p frame) ctx _ :=
    frameAlloc_effs ctx
  have hht := frameAlloc_ht ctx wid
  unfold forwardHdData1
  split
  · next heq => rw [heq] at ha; exact ha
  · next ctx1 heq =>
    rw [heq] at ha hht
    simp only at ha hht
    have hw := Ctx.core_worker ha.core wid
    refine ha.trans (forwardHdData1Body_effs ?_ ?_)
    · intro q hq
      rw [hht, resolveLocal_core hw] at hq
      exact .rule _ q hd (.single hone) hq
    · intro hn dst fd hrem
      rw [hht, resolveLocal_core hw] at hn
      rw [hht, resolveRemote_core hw] at hrem
      rw [hht, loadGen_core ha.core]
      exact .rule ((ctx.workers wid).ht p).rule1 dst fd hd (.single hone) hn hrem

theorem forwardHdData_effs (hd : HdFrame ctx wid p frame .kData)
    (hone : ((ctx.workers wid).ht p).fwdCount ≠ 1) :
    Effs wid p (LocalTarget ctx wid p frame) (RemoteTarget ctx wid p frame) ctx
      (forwardHdData ctx wid p frame) := by
  unfold forwardHdData
  dsimp only
  split
  · next hzero => exact broadcastFrame_effs fun q hq hp => .noRules q hd hzero hq hp
  · next hzero =>
    have hmany : 1 < ((ctx.workers wid).ht p).fwdCount := by omega
    have h1 : Effs wid p (LocalTarget ctx wid p frame) (RemoteTarget ctx wid p frame) ctx
        (forwardRules ctx wid p frame (List.range ((ctx.workers wid).ht p).fwdCount)).2 := by
      refine forwardRules_effs ctx _ List.nodup_range ?_ ?_ rfl fun _ _ => rfl
      · intro r hr q hq
        exact .rule _ q hd (.many r hmany (List.mem_range.mp hr)) hq
      · intro r hr hn dst fd hrem
        exact .rule _ dst fd hd (.many r hmany (List.mem_range.mp hr)) hn hrem
    split
    · next heq => rw [heq] at h1; exact h1
    · next ctx1 heq =>
      rw [heq] at h1
      simp only at h1
      split
      · exact h1
      · next derp hbr =>
        refine h1.trans (broadcastFrame_effs fun q hq hp => ?_)
        have hpeer := Worker.core_peer (Ctx.core_worker h1.core wid) q
        have hocc : _ = _ := congrArg Peer.occupied hpeer
        have hpro : _ = _ := congrArg Peer.protocol hpeer
        exact .bridged q derp hd hmany (hocc ▸ hq) (hpro ▸ hp) hbr

theorem peerById_core (h : w'.core = w.core) (id : ℕ) :
    peerById w' id = peerById w id := by
  have hmap : w'.peerIdMap = w.peerIdMap := (congrArg Worker.peerIdMap h :)
  simp only [peerById, hmap, Worker.core_occupied h]

theorem meshRemote_core (h : ctx'.core = ctx.core) (wid id : ℕ) :
    meshRemote ctx' wid id = meshRemote ctx wid id := by
  have hnum : ctx'.numWorkers = ctx.numWorkers := (congrArg Ctx.numWorkers h :)
  have hmap : ∀ v, (ctx'.workers v).peerIdMap = (ctx.workers v).peerIdMap := fun v =>
    (congrArg Worker.peerIdMap (Ctx.core_worker h v) :)
  have hfd : ∀ v q, ((ctx'.workers v).ht q).fd = ((ctx.workers v).ht q).fd := fun v q =>
    (congrArg Peer.fd (Worker.core_peer (Ctx.core_worker h v) q) :)
  simp only [meshRemote, hnum, hmap, hfd]

theorem dispatchMeshData_effs (hd : HdFrame ctx wid p frame .kMeshData) :
    Effs wid p (LocalTarget ctx wid p frame) (RemoteTarget ctx wid p frame) ctx
      (dispatchMeshData ctx wid p (frame.drop kHdFrameHeaderSize)) := by
  have ha : Effs wid p (LocalTarget ctx wid p frame) (RemoteTarget ctx wid p frame) ctx _ :=
    frameAlloc_effs ctx
  have hht := frameAlloc_ht ctx wid
  unfold dispatchMeshData
  split
  · exact .refl
  · next hlen =>
    split
    · next heq => rw [heq] at ha; exact ha
    · next ctx1 heq =>
      rw [heq] at ha hht
      simp only at ha hht
      have hw := Ctx.core_worker ha.core wid
      refine Relation.ReflTransGen.tail ?_ (.account _ _ _ _)
      rw [hht, peerById_core hw]
      split
      · next dst hdst =>
        exact ha.trans (enqueue_effs (.mesh dst hd (not_lt.mp hlen) hdst))
      · rw [meshRemote_core ha.core]
        split
        · next wi fd hrem =>
          refine ha.trans (xferPush_effs fun dst hdst => ?_)
          have hwi : wi = dst := by exact_mod_cast hdst
          rw [loadGen_core ha.core]
          exact .mesh dst fd hd (not_lt.mp hlen) (hwi ▸ hrem)
        · exact ha

theorem fleetEnqueue_effs (h : PE q data) :
    Effs wid p PE PX ctx (ctx.setWorker wid (fleetEnqueue (ctx.workers wid) q data)) := by
  have ha : Effs wid p PE PX ctx _ := alloc_effs ctx
  unfold fleetEnqueue
  split
  · next heq => rw [heq] at ha; exact ha
  · next w1 heq =>
    rw [heq] at ha
    have h1 : Effs wid p PE PX ctx (ctx.setWorker wid (enqueueSend w1 q data)) :=
      Effs.then (f := fun w => enqueueSend w q data) ha fun _ _ => enqueue_effs h
    exact Effs.then
      (f := fun w => { w with
        stats := { w.stats with hdFleetForwards := w.stats.hdFleetForwards + 1 } })
      h1 fun ctx' _ => .single (.account ctx' _ _ _)

theorem dispatchFleetData_effs (hd : HdFrame ctx wid p frame .kFleetData) :
    Effs wid p (LocalTarget ctx wid p frame) (RemoteTarget ctx wid p frame) ctx
      (dispatchFleetData ctx wid p frame (frame.drop kHdFrameHeaderSize)) := by
  unfold dispatchFleetData
  dsimp only
  split
  · exact .refl
  · next hlen =>
    split
    · split
      · exact .refl
      · next dst hdst => exact fleetEnqueue_effs (.fleetLocal dst hd (not_lt.mp hlen) hdst)
    · split
      · exact .refl
      · next dst hdst => exact fleetEnqueue_effs (.fleetRelay dst hd hdst)

theorem dispatchHdFrame_effs (hp : ((ctx.workers wid).ht p).protocol = .kHd) :
    Effs wid p (LocalTarget ctx wid p frame) (RemoteTarget ctx wid p frame) ctx
      (dispatchHdFrame ctx wid p frame) := by
  unfold dispatchHdFrame
  dsimp only
  split
  · next ht =>
    split
    · next hone => exact forwardHdData1_effs ⟨hp, ht⟩ hone
    · next hone => exact forwardHdData_effs ⟨hp, ht⟩ hone
  · split
    · next ht => exact allocEnqueue_effs (.pong ⟨hp, ht.1⟩ ht.2)
    · split
      · next ht => exact dispatchMeshData_effs ⟨hp, ht⟩
      · split
        · next ht => exact dispatchFleetData_effs ⟨hp, ht⟩
        · split
          · next ht =>
            split
            · exact broadcastFrame_effs fun q hq hqp => .peerInfo q ⟨hp, ht⟩ hq hqp
            · exact .refl
          · split
            · exact .single (.account ctx _ _ _)
            · exact .refl

theorem forwardLocal_effs {payload : Bytes}
    (hhd : ((ctx.workers wid).ht q).protocol = .kHd → ∀ hd,
      bridgeDerpToHd payload (kHdFrameHeaderSize + kMaxFramePayload) = some hd → PE q hd)
    (hderp : ((ctx.workers wid).ht q).protocol ≠ .kHd → PE q frame) :
    Effs wid p PE PX ctx
      (ctx.setWorker wid (forwardLocal (ctx.workers wid) q payload frame)) := by
  unfold forwardLocal
  split
  · next hp =>
    split
    · rw [setWorker_workers]
    · next hd hbr => exact allocEnqueue_effs (hhd hp hd hbr)
  · next hp => exact enqueue_effs (hderp hp)

theorem forwardMsg_effs (hp : ((ctx.workers wid).ht p).protocol ≠ .kHd) :
    Effs wid p (LocalTarget ctx wid p frame) (RemoteTarget ctx wid p frame) ctx
      (forwardMsg ctx wid (readFrameType frame) (frame.drop kFrameHeaderSize) p) := by
  have ha : Effs wid p (LocalTarget ctx wid p frame) (RemoteTarget ctx wid p frame) ctx _ :=
    frameAlloc_effs ctx
  have hht := frameAlloc_ht ctx wid
  unfold forwardMsg
  split
  · exact .refl
  · split
    · exact .single (.account ctx _ _ _)
    · next htype =>
      split
      · exact .refl
      · next hlen =>
        split
        · next heq => rw [heq] at ha; exact ha
        · next ctx1 heq =>
          rw [heq] at ha hht
          simp only at ha hht
          have hw := Ctx.core_worker ha.core wid
          have hto : PacketTo ctx wid p frame
              (toKey (frame.drop kFrameHeaderSize) (Nat.le_of_not_lt hlen)) :=
            ⟨hp, not_not.mp htype, Nat.le_of_not_lt hlen, rfl⟩
          dsimp only
          rw [htLookup_core hw]
          refine ha.trans ?_
          split
          · next dst hdst =>
            apply forwardLocal_effs
            · intro hq hd hbr
              rw [hht] at hq
              exact .packetHd _ dst hd hto hdst hq hbr
            · intro hq
              rw [hht] at hq ⊢
              exact .packet _ dst hto hdst hq
          · next hnone =>
            unfold forwardRemote
            dsimp only
            rw [Worker.core_routes hw, hht]
            split
            · exact .refl
            · next a hroute =>
              rw [loadGen_core ha.core]
              exact .single (.xfer ctx1 _ _ (.packet _ a hto hnone hroute))

theorem dispatchFrame_effs (ctx : Ctx) (wid : ℕ) (p : Slot) (frame : Bytes) :
    Effs wid p (LocalTarget ctx wid p frame) (RemoteTarget ctx wid p frame) ctx
      (dispatchFrame ctx wid p frame) := by
  unfold dispatchFrame
  split
  · next hp => exact dispatchHdFrame_effs hp
  · next hp => exact forwardMsg_effs hp

theorem dispatchFrame_core (ctx : Ctx) (wid : ℕ) (p : Slot) (frame : Bytes) :
    (dispatchFrame ctx wid p frame).core = ctx.core :=
  (dispatchFrame_effs ctx wid p frame).core

/-! ### Queues and inboxes under effects -/

theorem mem_linkAfter {q : List SendItem} {id : ℕ} {x : SendItem} (h : x ∈ linkAfter q id item) :
    x ∈ q ∨ x = item := by
  induction q with
  | nil => cases h
  | cons y q ih =>
    simp only [linkAfter] at h
    split at h
    · rcases List.mem_cons.mp h with rfl | h
      · exact .inl (List.mem_cons_self ..)
      · exact .inr (by simpa using h)
    · rcases List.mem_cons.mp h with rfl | h
      · exact .inl (List.mem_cons_self ..)
      · rcases ih h with h | h
        · exact .inl (List.mem_cons_of_mem _ h)
        · exact .inr h

theorem enqueueSend_mem {a : Slot} (h : item ∈ ((enqueueSend w q data).ht a).send.queue) :
    item ∈ (w.ht a).send.queue ∨ (a = q ∧ item.data = data) := by
  by_cases ha : a = q
  · subst ha
    rcases enqueueSend_queue w a data with ⟨hq, -⟩ | ⟨hq, -⟩
    · rw [hq] at h
      exact .inl h
    · rw [hq] at h
      unfold SendState.push at h
      dsimp only at h
      split at h
      · rcases mem_linkAfter h with h | rfl
        · exact .inl h
        · exact .inr ⟨rfl, rfl⟩
      · rw [List.mem_singleton.mp h]
        exact .inr ⟨rfl, rfl⟩
  · rw [((enqueueSend_sendOnly w q data).peer a).2 ha] at h
    exact .inl h

theorem enqueueSend_inbox (w : Worker) (q : Slot) (data : Bytes) :
    (enqueueSend w q data).xferInbox = w.xferInbox := by
  obtain ⟨s, io, pf, nm, ao, ni, sp, st, hw⟩ := enqueueSend_sendOnly w q data
  rw [hw]
  rfl

theorem setWorker_inbox {u : ℕ} (h : w.xferInbox = (ctx.workers u).xferInbox) :
    ((ctx.setWorker u w).workers v).xferInbox = (ctx.workers v).xferInbox := by
  by_cases hv : v = u
  · subst hv
    rw [Ctx.setWorker_self, h]
  · rw [Ctx.setWorker_ne _ _ hv]

theorem xferSpscPush_mem {wid dst src : ℕ} {x y : Xfer}
    (h : y ∈ ((xferSpscPush ctx wid dst x).workers v).xferInbox src) :
    y ∈ (ctx.workers v).xferInbox src ∨ (v = dst ∧ src = wid ∧ y = x) := by
  have hpush : ∀ (w : Worker), w.xferInbox = Function.update (ctx.workers dst).xferInbox wid
        ((ctx.workers dst).xferInbox wid ++ [x]) →
      y ∈ ((ctx.setWorker dst w).workers v).xferInbox src →
      y ∈ (ctx.workers v).xferInbox src ∨ (v = dst ∧ src = wid ∧ y = x) := by
    intro w hw hy
    by_cases hv : v = dst
    · subst hv
      rw [Ctx.setWorker_self, hw] at hy
      by_cases hs : src = wid
      · subst hs
        rw [Function.update_self] at hy
        rcases List.mem_append.mp hy with hy | hy
        · exact .inl hy
        · exact .inr ⟨rfl, rfl, List.mem_singleton.mp hy⟩
      · rw [Function.update_of_ne hs] at hy
        exact .inl hy
    · rw [Ctx.setWorker_ne _ _ hv] at hy
      exact .inl hy
  unfold xferSpscPush Ctx.onWorker at h
  dsimp only at h
  split at h
  · rw [setWorker_inbox] at h
    · exact .inl h
    · rfl
  · split at h
    · rw [setWorker_inbox] at h
      · exact hpush _ rfl h
      · rfl
    · exact hpush _ rfl h

theorem Eff.inbox (h : Eff wid p PE PX ctx ctx') {src : ℕ} {x : Xfer}
    (hx : x ∈ (ctx'.workers v).xferInbox src) :
    x ∈ (ctx.workers v).xferInbox src ∨ (PX v x ∧ src = wid) := by
  cases h with
  | enqueue q data _ =>
    rw [setWorker_inbox (enqueueSend_inbox _ _ _)] at hx
    exact .inl hx
  | rules a b c d =>
    rw [setWorker_inbox] at hx
    · exact .inl hx
    · rfl
  | account a b c =>
    rw [setWorker_inbox] at hx
    · exact .inl hx
    · rfl
  | xfer dst y hy =>
    rcases xferSpscPush_mem hx with hx | ⟨rfl, rfl, rfl⟩
    · exact .inl hx
    · exact .inr ⟨hy, rfl⟩

theorem Effs.inbox (h : Effs wid p PE PX ctx ctx') {src : ℕ} {x : Xfer}
    (hx : x ∈ (ctx'.workers v).xferInbox src) :
    x ∈ (ctx.workers v).xferInbox src ∨ (PX v x ∧ src = wid) := by
  induction h with
  | refl => exact .inl hx
  | tail _ hstep ih =>
    rcases hstep.inbox hx with hx | hx
    · exact ih hx
    · exact .inr hx

theorem Eff.queue (h : Eff wid p PE PX ctx ctx') (hx : item ∈ ((ctx'.workers v).ht q).send.queue) :
    item ∈ ((ctx.workers v).ht q).send.queue ∨ (v = wid ∧ PE q item.data) := by
  by_cases hv : v = wid
  · subst hv
    cases h with
    | enqueue a data ha =>
      rw [Ctx.setWorker_self] at hx
      rcases enqueueSend_mem hx with hx | ⟨rfl, rfl⟩
      · exact .inl hx
      · exact .inr ⟨rfl, ha⟩
    | rules a b c d =>
      rw [Ctx.setWorker_self] at hx
      by_cases hq : q = p
      · subst hq
        rw [Worker.setPeer_self] at hx
        exact .inl hx
      · rw [Worker.setPeer_ne _ _ hq] at hx
        exact .inl hx
    | account a b c =>
      rw [Ctx.setWorker_self] at hx
      exact .inl hx
    | xfer dst y hy =>
      rw [xferSpscPush_ht] at hx
      exact .inl hx
  · refine .inl ?_
    cases h with
    | enqueue a data ha => rwa [Ctx.setWorker_ne _ _ hv] at hx
    | rules a b c d => rwa [Ctx.setWorker_ne _ _ hv] at hx
    | account a b c => rwa [Ctx.setWorker_ne _ _ hv] at hx
    | xfer dst y hy => rwa [xferSpscPush_ht] at hx

theorem Effs.queue (h : Effs wid p PE PX ctx ctx')
    (hx : item ∈ ((ctx'.workers v).ht q).send.queue) :
    item ∈ ((ctx.workers v).ht q).send.queue ∨ (v = wid ∧ PE q item.data) := by
  induction h with
  | refl => exact .inl hx
  | tail _ hstep ih =>
    rcases hstep.queue hx with hx | hx
    · exact ih hx
    · exact .inr hx

end HyperDerp
