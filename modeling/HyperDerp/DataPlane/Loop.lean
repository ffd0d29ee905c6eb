import HyperDerp.DataPlane.Commands
import HyperDerp.DataPlane.QueueRep
import HyperDerp.DataPlane.Recv

/-!
# The worker loop in elementary steps

One pass of `WorkerRun` handles receive and send completions, commands and
transfers, and flushes pending sends. `LoopStep` cuts all of this into the calls
that touch a send queue, the receive flow control or a table, for every worker
of the context, in any order. The functions of the loop are runs of these steps
(`LoopRun`), so what holds along all runs of steps holds after each of them.
-/

namespace HyperDerp

inductive LoopStep where
  /-- `EnqueueSend` -/
  | enqueue (v : ℕ) (q : Slot) (data : Bytes)
  /-- `XferSpscPush` on the inbox of worker `dst` -/
  | push (v dst : ℕ) (x : Xfer)
  /-- `XferSpscPop` from the inbox of source `src` -/
  | take (v src : ℕ)
  | collect (v : ℕ)
  /-- a rule cache of the peer in slot `p` is written -/
  | rules (v : ℕ) (p : Slot) (fwd1Peer : Option Slot) (fwd1DstFd : Fd) (fwd1DstWorker : ℤ)
      (fwd : ℕ → FwdRule)
  | account (v : ℕ) (allocOracle : List Bool) (stats : WorkerStats) (pipe : List PipeMsg)
  | complete (v : ℕ) (cqe : Cqe)
  | pollWrite (v : ℕ) (fd : Fd)
  | flush (v : ℕ)
  | cmd (v : ℕ) (c : Cmd)
  | eof (v : ℕ) (fd : Fd)
  /-- received bytes are counted and kept for the next receive -/
  | receive (v : ℕ) (q : Slot) (rbuf : Bytes) (window start : ℕ) (inflight : ℤ) (multishot : Bool)
  | rearm (v : ℕ) (fd : Fd)
  | deferred (v : ℕ)

def loopStep (ctx : Ctx) : LoopStep → Option Ctx
  | .enqueue v q data => some (ctx.onWorker v fun w => enqueueSend w q data)
  | .push v dst x => some (xferSpscPush ctx v dst x)
  | .take v src => some (ctx.onWorker v fun w =>
      { w with xferInbox := Function.update w.xferInbox src (w.xferInbox src).tail })
  | .collect v => some (ctx.onWorker v fun w => { w with pendingSources := fun _ => false })
  | .rules v p fwd1Peer fwd1DstFd fwd1DstWorker fwd => some (ctx.onWorker v fun w =>
      w.setPeer p { w.ht p with
        fwd1Peer := fwd1Peer, fwd1DstFd := fwd1DstFd, fwd1DstWorker := fwd1DstWorker
        fwd := fwd })
  | .account v allocOracle stats pipe => some (ctx.onWorker v fun w =>
      { w with allocOracle := allocOracle, stats := stats, pipe := pipe })
  | .complete v cqe => some (ctx.onWorker v fun w => handleSendCqe w cqe)
  | .pollWrite v fd => some (ctx.onWorker v fun w => handlePollWrite w fd)
  | .flush v => some (ctx.onWorker v flushPendingSends)
  | .cmd v c => some (processCmd ctx v c).1
  | .eof v fd =>
    match (ctx.workers v).fdMap fd with
    | none => none
    | some p => some (ctx.onWorker v fun w => closeFd w fd p)
  | .receive v q rbuf window start inflight multishot => some (ctx.onWorker v fun w =>
      { w.setPeer q { w.ht q with
          rbuf := rbuf, recvBytesWindow := window, windowStartNs := start } with
        io := { w.io with recvInflight := inflight, useMultishotRecv := multishot } })
  | .rearm v fd => some (ctx.onWorker v fun w => submitRecv w fd)
  | .deferred v => some (ctx.onWorker v drainDeferredRecvs)

/-! ### The functions of the loop are runs of steps -/

def LoopRun : Ctx → Ctx → Prop :=
  Relation.ReflTransGen fun ctx ctx' => ∃ l, loopStep ctx l = some ctx'

namespace LoopRun

variable {ctx ctx' ctx'' : Ctx} {v : ℕ}

theorem refl (ctx : Ctx) : LoopRun ctx ctx := Relation.ReflTransGen.refl

theorem trans (h1 : LoopRun ctx ctx') (h2 : LoopRun ctx' ctx'') : LoopRun ctx ctx'' :=
  Relation.ReflTransGen.trans h1 h2

theorem step {l : LoopStep} (h : loopStep ctx l = some ctx') : LoopRun ctx ctx' :=
  Relation.ReflTransGen.single ⟨l, h⟩

theorem of_effs {p : Slot} {PE : Slot → Bytes → Prop} {PX : ℕ → Xfer → Prop}
    (h : Effs v p PE PX ctx ctx') : LoopRun ctx ctx' := by
  induction h with
  | refl => exact .refl ctx
  | tail _ h ih =>
    apply ih.trans
    cases h with
    | enqueue q data _ => exact .step (l := .enqueue v q data) rfl
    | xfer dst x _ => exact .step (l := .push v dst x) rfl
    | rules a b c d => exact .step (l := .rules v p a b c d) rfl
    | account a b c => exact .step (l := .account v a b c) rfl

theorem receive (ctx : Ctx) (v : ℕ) (q : Slot) (rbuf : Bytes) (window start : ℕ) (inflight : ℤ)
    (multishot : Bool) (stats : WorkerStats) (pipe : List PipeMsg) :
    LoopRun ctx (ctx.setWorker v { (ctx.workers v).setPeer q { (ctx.workers v).ht q with
        rbuf := rbuf, recvBytesWindow := window, windowStartNs := start } with
      io := { (ctx.workers v).io with recvInflight := inflight, useMultishotRecv := multishot }
      stats := stats, pipe := pipe }) := by
  have h1 : LoopRun ctx _ :=
    .step (l := .account v (ctx.workers v).allocOracle stats pipe) rfl
  apply h1.trans
  refine .step (l := .receive v q rbuf window start inflight multishot) ?_
  simp only [loopStep, Ctx.onWorker, Ctx.setWorker_self, setWorker_setWorker]
  rfl

theorem setRbuf (ctx : Ctx) (v : ℕ) (q : Slot) (rbuf : Bytes) :
    LoopRun ctx (ctx.onWorker v fun w => w.setRbuf q rbuf) :=
  receive ctx v q rbuf ((ctx.workers v).ht q).recvBytesWindow ((ctx.workers v).ht q).windowStartNs
    (ctx.workers v).io.recvInflight (ctx.workers v).io.useMultishotRecv (ctx.workers v).stats
    (ctx.workers v).pipe

theorem notify (ctx : Ctx) (v : ℕ) (p : Slot) :
    LoopRun ctx (ctx.onWorker v fun w => notifyPeerClose w p) :=
  .step (l := .account v (ctx.workers v).allocOracle (ctx.workers v).stats
    (notifyPeerClose (ctx.workers v) p).pipe) rfl

theorem dispatchFrame (ctx : Ctx) (v : ℕ) (p : Slot) (frame : Bytes) :
    LoopRun ctx (dispatchFrame ctx v p frame) :=
  of_effs (dispatchFrame_effs ctx v p frame)

theorem recvFrames (v : ℕ) (p : Slot) (proto : PeerProtocol) (n : ℕ) (ctx : Ctx) (buf : Bytes) :
    LoopRun ctx (recvFrames v p proto n ctx buf).ctx := by
  induction n generalizing ctx buf with
  | zero => exact .refl ctx
  | succ n ih =>
    simp only [HyperDerp.recvFrames]
    split
    · exact .refl ctx
    · split
      · exact notify ctx v p
      · split
        · exact .refl ctx
        · exact (dispatchFrame ctx v p _).trans (ih _ _)

theorem recvBuffer (ctx : Ctx) (v : ℕ) (p : Slot) (buf : Bytes) :
    LoopRun ctx (recvBuffer ctx v p buf).1 := by
  have hr : LoopRun ctx (if (ctx.workers v).running then
      HyperDerp.recvFrames v p ((ctx.workers v).ht p).protocol buf.length ctx buf
      else ⟨ctx, [], buf, false⟩).ctx := by
    split
    · exact recvFrames v p _ _ ctx buf
    · exact .refl ctx
  unfold HyperDerp.recvBuffer
  dsimp only
  generalize (if (ctx.workers v).running then
      HyperDerp.recvFrames v p ((ctx.workers v).ht p).protocol buf.length ctx buf
      else ⟨ctx, [], buf, false⟩ : RecvLoop) = r at hr ⊢
  split
  · exact hr
  · split
    · exact hr
    · exact hr.trans (setRbuf _ v p _)

theorem recvProvided (ctx : Ctx) (v : ℕ) (p : Slot) (buf : Bytes) :
    LoopRun ctx (recvProvided ctx v p buf).1 := by
  unfold HyperDerp.recvProvided
  dsimp only
  split
  · exact recvBuffer ctx v p buf
  · split
    · exact setRbuf ctx v p _
    · split
      · have h1 := notify ctx v p
        have h2 := setRbuf (ctx.onWorker v fun w => notifyPeerClose w p) v p []
        simp only [Ctx.onWorker, Ctx.setWorker_self, setWorker_setWorker] at h1 h2 ⊢
        exact h1.trans h2
      · split
        · exact setRbuf ctx v p _
        · exact ((dispatchFrame ctx v p _).trans (setRbuf _ v p [])).trans (recvBuffer _ v p _)

theorem rateLimit (ctx : Ctx) (v : ℕ) (p : Slot) (n now : ℕ) :
    LoopRun ctx (rateLimit ctx v p n now).2 := by
  have key : ∀ (window start : ℕ) (stats : WorkerStats), LoopRun ctx (ctx.setWorker v
      { (ctx.workers v).setPeer p { (ctx.workers v).ht p with
          recvBytesWindow := window, windowStartNs := start } with stats := stats }) :=
    fun window start stats => receive ctx v p ((ctx.workers v).ht p).rbuf window start
      (ctx.workers v).io.recvInflight (ctx.workers v).io.useMultishotRecv stats
      (ctx.workers v).pipe
  rcases rateLimit_snd ctx v p n now with h | ⟨window, start, stats, h⟩
  · rw [h]
    exact .refl ctx
  · rw [h]
    exact key window start stats

theorem returnBuf (ctx : Ctx) (v : ℕ) (cqe : RecvCqe) : LoopRun ctx (returnBuf ctx v cqe) := by
  unfold HyperDerp.returnBuf
  split
  · exact .refl ctx
  · exact .step (l := .rearm v cqe.fd) rfl

theorem closeFd {fd : Fd} {p : Slot} (h : (if validFd fd then (ctx.workers v).fdMap fd else none) =
    some p) : LoopRun ctx (ctx.onWorker v fun w => closeFd w fd p) := by
  have hm : (ctx.workers v).fdMap fd = some p := by
    split at h
    · exact h
    · cases h
  refine .step (l := .eof v fd) ?_
  simp only [loopStep, hm]

theorem countRecv (ctx : Ctx) (v n : ℕ) :
    LoopRun ctx (ctx.onWorker v fun w => countRecv w n) :=
  .step (l := .account v (ctx.workers v).allocOracle (HyperDerp.countRecv (ctx.workers v) n).stats
    (ctx.workers v).pipe) rfl

theorem handleRecvProvided (ctx : Ctx) (v : ℕ) (cqe : RecvCqe) :
    LoopRun ctx (handleRecvProvided ctx v cqe).1 := by
  unfold HyperDerp.handleRecvProvided
  dsimp only
  split
  · exact returnBuf ctx v cqe
  · next p hp =>
    split
    · split
      · exact (closeFd hp).trans (returnBuf _ v cqe)
      · exact returnBuf ctx v cqe
    · have h1 := (countRecv ctx v cqe.res.toNat).trans
        (rateLimit (ctx.onWorker v fun w => HyperDerp.countRecv w cqe.res.toNat) v p cqe.res.toNat
          cqe.now)
      split
      · next heq =>
        rw [heq] at h1
        exact h1.trans (returnBuf _ v cqe)
      · next heq =>
        rw [heq] at h1
        exact (h1.trans (recvProvided _ v p _)).trans (returnBuf _ v cqe)

theorem handleRecvSingle (ctx : Ctx) (v : ℕ) (cqe : RecvCqe) :
    LoopRun ctx (handleRecvSingle ctx v cqe).1 := by
  unfold HyperDerp.handleRecvSingle
  dsimp only
  split
  · exact .refl ctx
  · next p hp =>
    split
    · split
      · exact closeFd hp
      · exact .refl ctx
    · have h1 := countRecv ctx v cqe.res.toNat
      generalize (ctx.onWorker v fun w => HyperDerp.countRecv w cqe.res.toNat) = ctx1 at h1 ⊢
      generalize ((ctx1.workers v).ht p).rbuf ++ cqe.buf.take cqe.res.toNat = rbuf
      have h2 : LoopRun ctx1 (if (ctx1.workers v).running then
          HyperDerp.recvFrames v p ((ctx1.workers v).ht p).protocol rbuf.length ctx1 rbuf
          else ⟨ctx1, [], rbuf, false⟩ : RecvLoop).ctx := by
        split
        · exact recvFrames v p _ _ ctx1 rbuf
        · exact .refl ctx1
      generalize (if (ctx1.workers v).running then
          HyperDerp.recvFrames v p ((ctx1.workers v).ht p).protocol rbuf.length ctx1 rbuf
          else ⟨ctx1, [], rbuf, false⟩ : RecvLoop) = r at h2 ⊢
      have h3 := (h1.trans h2).trans (setRbuf _ v p r.rest)
      split
      · exact h3
      · split
        · exact h3.trans (.step (l := .rearm v cqe.fd) rfl)
        · exact h3

theorem handleRecvCqe (ctx : Ctx) (v : ℕ) (cqe : RecvCqe) :
    LoopRun ctx (handleRecvCqe ctx v cqe).1 := by
  have hio : ∀ (ctx : Ctx) inflight multishot stats, LoopRun ctx (ctx.setWorker v
      { ctx.workers v with
        io := { (ctx.workers v).io with recvInflight := inflight, useMultishotRecv := multishot }
        stats := stats }) := by
    intro ctx inflight multishot stats
    have h := receive ctx v 0 ((ctx.workers v).ht 0).rbuf ((ctx.workers v).ht 0).recvBytesWindow
      ((ctx.workers v).ht 0).windowStartNs inflight multishot stats (ctx.workers v).pipe
    simpa [Worker.setPeer] using h
  have h1 : LoopRun ctx (if cqe.more then ctx else ctx.onWorker v fun w =>
      { w with io := { w.io with
          recvInflight := if w.io.recvInflight - 1 < 0 then 0 else w.io.recvInflight - 1 } }) := by
    split
    · exact .refl ctx
    · exact hio ctx _ _ _
  unfold HyperDerp.handleRecvCqe
  dsimp only
  generalize (if cqe.more then ctx else ctx.onWorker v fun w =>
      { w with io := { w.io with
          recvInflight := if w.io.recvInflight - 1 < 0 then 0 else w.io.recvInflight - 1 } })
    = ctx1 at h1 ⊢
  have hre : ∀ w', LoopRun ctx1 (ctx1.setWorker v w') →
      LoopRun ctx1 (ctx1.setWorker v (submitRecv w' cqe.fd)) := by
    intro w' hw
    apply hw.trans
    refine .step (l := .rearm v cqe.fd) ?_
    simp only [loopStep, Ctx.onWorker, Ctx.setWorker_self, setWorker_setWorker]
  split
  · exact h1.trans (handleRecvProvided ctx1 v cqe)
  · split
    · split
      · split
        · exact h1
        · next p hp => exact h1.trans (closeFd hp)
      · split
        · exact h1.trans (hre _ (hio ctx1 _ _ _))
        · split
          · exact h1.trans (hre _ (hio ctx1 _ _ _))
          · exact h1
    · exact h1.trans (handleRecvSingle ctx1 v cqe)

end LoopRun

/-! ### Commands, field by field -/

/-- The peer id table after `ProcessCmdAdd`. -/
def idsAfterAdd (w : Worker) (ok : Bool) (protocol : PeerProtocol) (peerId : ℕ) (p : Slot) :
    Option (ℕ → Option Slot) :=
  if protocol = .kHd ∧ 0 < peerId then
    match w.peerIdMap with
    | some m => some (Function.update m peerId (some p))
    | none => if ok then some (Function.update (fun _ => none) peerId (some p)) else none
  else w.peerIdMap

def addedPeer (old : Peer) (fd : Fd) (key : Key) (protocol : PeerProtocol) (peerId : ℕ)
    (isUnix : Bool) : Peer :=
  { freshPeer old fd key with protocol := protocol, peerId := peerId, send := { noZc := isUnix } }

/-- The worker after an add on slot `p`. -/
structure AddedAt (w : Worker) (p : Slot) (fd : Fd) (key : Key) (protocol : PeerProtocol)
    (peerId : ℕ) (w' : Worker) : Prop where
  eq : ∃ isUnix ok ao routes io, w' = { w with
    ht := Function.update w.ht p (addedPeer (w.ht p) fd key protocol peerId isUnix)
    fdMap := Function.update w.fdMap fd (some p)
    fdGen := Function.update w.fdGen fd ((w.fdGen fd + 1) % 2 ^ 32)
    peerCount := w.peerCount + 1
    peerIdMap := idsAfterAdd w ok protocol peerId p
    allocOracle := ao, routes := routes, io := io }
  flow : w.io.SameFlow w'.io
  sends : ∀ f, w'.io.sends f = w.io.sends f

theorem setPeerId_ids (w : Worker) (protocol : PeerProtocol) (peerId : ℕ) (p : Slot) :
    ∃ ok ao, setPeerId w protocol peerId p =
      { w with peerIdMap := idsAfterAdd w ok protocol peerId p, allocOracle := ao } := by
  have ha := alloc_eq w
  unfold setPeerId
  split
  · next hhd =>
    split
    · next m hm =>
      refine ⟨true, w.allocOracle, ?_⟩
      rw [idsAfterAdd, if_pos hhd, hm]
    · next hm =>
      rcases hal : w.alloc with ⟨ok, w1⟩
      rw [hal] at ha
      simp only at ha
      refine ⟨ok, w1.allocOracle, ?_⟩
      rw [idsAfterAdd, if_pos hhd, hm]
      cases ok with
      | false => simpa [hm] using ha
      | true =>
        simp only
        rw [ha]
        rfl
  · next hhd => exact ⟨true, w.allocOracle, by rw [idsAfterAdd, if_neg hhd]⟩

variable {p : Slot} {key : Key} {ctx : Ctx} {wid : ℕ}

theorem registerPeer_added {w w1 : Worker} {fd : Fd} {ao : List Bool}
    (hw1 : w1 = { w with
      ht := Function.update w.ht p (freshPeer (w.ht p) fd key), allocOracle := ao })
    (protocol : PeerProtocol) (peerId : ℕ) (isUnix : Bool) :
    ∃ ok ao, registerPeer w1 p fd protocol peerId isUnix = { w with
      ht := Function.update w.ht p (addedPeer (w.ht p) fd key protocol peerId isUnix)
      fdMap := Function.update w.fdMap fd (some p)
      fdGen := Function.update w.fdGen fd ((w.fdGen fd + 1) % 2 ^ 32)
      peerCount := w.peerCount + 1
      peerIdMap := idsAfterAdd w ok protocol peerId p
      allocOracle := ao } := by
  subst hw1
  unfold registerPeer
  dsimp only [-Nat.reducePow]
  rw [Function.update_self]
  obtain ⟨ok, ao', heq⟩ := setPeerId_ids
    { ({ w with ht := Function.update w.ht p (freshPeer (w.ht p) fd key), allocOracle := ao } :
        Worker).setPeer p { freshPeer (w.ht p) fd key with
          protocol := protocol, peerId := peerId
          send := { (freshPeer (w.ht p) fd key).send with
            noZc := isUnix || (freshPeer (w.ht p) fd key).send.noZc } }
      with
      fdMap := Function.update w.fdMap fd (some p)
      fdGen := Function.update w.fdGen fd ((w.fdGen fd + 1) % 2 ^ 32)
      peerCount := w.peerCount + 1 } protocol peerId p
  refine ⟨ok, ao', heq.trans ?_⟩
  simp only [Worker.setPeer, Function.update_idem, addedPeer, freshPeer, Bool.or_false,
    -Nat.reducePow]
  rfl

theorem processCmdAdd_submits (h : TableOk (ctx.workers wid)) {fd : Fd} (hv : validFd fd = true)
    (hp : htLookup (htInsert (ctx.workers wid) fd key).2 key = some p) (protocol : PeerProtocol)
    (peerId : ℕ) : ∃ isUnix ok ao routes,
      (processCmdAdd ctx wid fd key protocol peerId).workers wid = submitRecv
        { ctx.workers wid with
          ht := Function.update (ctx.workers wid).ht p
            (addedPeer ((ctx.workers wid).ht p) fd key protocol peerId isUnix)
          fdMap := Function.update (ctx.workers wid).fdMap fd (some p)
          fdGen := Function.update (ctx.workers wid).fdGen fd
            (((ctx.workers wid).fdGen fd + 1) % 2 ^ 32)
          peerCount := (ctx.workers wid).peerCount + 1
          peerIdMap := idsAfterAdd (ctx.workers wid) ok protocol peerId p
          allocOracle := ao, routes := routes } fd := by
  obtain ⟨-, ao, hao⟩ := htInsert_lookup h hp
  obtain ⟨ok, ao', hreg⟩ := registerPeer_added hao protocol peerId (ctx.isUnix fd)
  have hb : ∃ routes, (broadcastRouteAdd (ctx.setWorker wid (registerPeer
      (htInsert (ctx.workers wid) fd key).2 p fd protocol peerId (ctx.isUnix fd))) key wid
      fd).workers wid = { registerPeer (htInsert (ctx.workers wid) fd key).2 p fd protocol
        peerId (ctx.isUnix fd) with routes := routes } := by
    simp only [broadcastRouteAdd, Ctx.setWorker_self]
    split
    · exact ⟨_, rfl⟩
    · exact ⟨_, rfl⟩
  obtain ⟨routes, hroutes⟩ := hb
  refine ⟨ctx.isUnix fd, ok, ao', routes, ?_⟩
  unfold processCmdAdd
  simp only [hv, Bool.not_true, Bool.false_eq_true, ite_false, hp, Ctx.onWorker,
    Ctx.setWorker_self]
  rw [hroutes, hreg]

theorem processCmdAdd_record (h : TableOk (ctx.workers wid)) (fd : Fd) (key : Key)
    (protocol : PeerProtocol) (peerId : ℕ) :
    (∃ ao, processCmdAdd ctx wid fd key protocol peerId =
      ctx.setWorker wid { ctx.workers wid with allocOracle := ao }) ∨
    (∃ p, validFd fd = true ∧ htFind (ctx.workers wid) key = some p ∧
      AddedAt (ctx.workers wid) p fd key protocol peerId
        ((processCmdAdd ctx wid fd key protocol peerId).workers wid) ∧
      ∀ u, u ≠ wid → ∃ routes, (processCmdAdd ctx wid fd key protocol peerId).workers u =
        { ctx.workers u with routes := routes }) := by
  rcases processCmdAdd_spec h fd key protocol peerId with hno | ⟨p, hv, hf, hp, -, -, -⟩
  · exact .inl hno
  · refine .inr ⟨p, hv, hf, ?_, fun u hu => ?_⟩
    · obtain ⟨isUnix, ok, ao, routes, hw⟩ := processCmdAdd_submits h hv hp protocol peerId
      rw [hw]
      generalize hbase : ({ ctx.workers wid with
        ht := Function.update (ctx.workers wid).ht p
          (addedPeer ((ctx.workers wid).ht p) fd key protocol peerId isUnix)
        fdMap := Function.update (ctx.workers wid).fdMap fd (some p)
        fdGen := Function.update (ctx.workers wid).fdGen fd
          (((ctx.workers wid).fdGen fd + 1) % 2 ^ 32)
        peerCount := (ctx.workers wid).peerCount + 1
        peerIdMap := idsAfterAdd (ctx.workers wid) ok protocol peerId p
        allocOracle := ao, routes := routes } : Worker) = base
      have hbio : base.io = (ctx.workers wid).io := by rw [← hbase]
      obtain ⟨io, hio⟩ := submitRecv_io base fd
      refine ⟨⟨isUnix, ok, ao, routes, io, by rw [hio, ← hbase]⟩, ?_, fun f => ?_⟩
      · rw [← hbio]
        exact Io.SameFlow.submitRecv base fd
      · rw [submitRecv_sends, hbio]
    · unfold processCmdAdd
      simp only [hv, Bool.not_true, Bool.false_eq_true, ite_false, hp, Ctx.onWorker]
      rw [Ctx.setWorker_ne _ _ hu]
      simp only [broadcastRouteAdd, Ctx.setWorker_ne _ _ hu]
      split
      · exact ⟨_, rfl⟩
      · exact ⟨_, rfl⟩

def fdMapAfterRemove (w : Worker) (p : Slot) : Fd → Option Slot :=
  if validFd (w.ht p).fd then Function.update w.fdMap (w.ht p).fd none else w.fdMap

def idsAfterRemove (w : Worker) (p : Slot) : Option (ℕ → Option Slot) :=
  if 0 < (w.ht p).peerId then
    w.peerIdMap.map fun m => Function.update m (w.ht p).peerId none
  else w.peerIdMap

/-- How `HtRemove` leaves the receive pause: resumed, or as it was while the
countdown runs or the pressure is too high. -/
def RemovePause (pressure peerCount : ℤ) (io io' : Io) : Prop :=
  io'.recvPaused = false ∨
    (io' = io ∧ (io.recvPauseCountdown ≤ 0 → sendPressureLow peerCount < pressure))

/-- The worker after the peer in slot `p` is removed. -/
structure RemovedAt (w : Worker) (p : Slot) (w' : Worker) : Prop where
  eq : ∃ peerCount routes io, w' = { w with
    ht := Function.update w.ht p (buriedPeer (w.ht p))
    fdMap := fdMapAfterRemove w p
    peerIdMap := idsAfterRemove w p
    notifMap := Function.update w.notifMap (w.ht p).fd
      (((w.ht p).send.queue.take (w.ht p).send.inflight.toNat).reverse ++ w.notifMap (w.ht p).fd)
    sendPressure := if w.sendPressure - (w.ht p).send.queued < 0 then 0
      else w.sendPressure - (w.ht p).send.queued
    peerCount := peerCount, routes := routes, io := io }
  pause : ∃ peerCount, RemovePause w'.sendPressure peerCount w.io w'.io
  oracle : w.io.sqeOracle = [] → w'.io.sqeOracle = []
  sends : ∀ f, w'.io.sends f = w.io.sends f

theorem unregisterPeer_maps (w : Worker) (p : Slot) : unregisterPeer w p =
    { w with fdMap := fdMapAfterRemove w p, peerIdMap := idsAfterRemove w p } := by
  unfold unregisterPeer fdMapAfterRemove idsAfterRemove
  dsimp only
  split <;> split <;> rfl

theorem removePeerAt_eq {w : Worker} (hp : htLookup w key = some p) :
    removePeerAt w p key =
      if (buryPeer (unregisterPeer w p) p).io.recvPaused = true ∧
        (buryPeer (unregisterPeer w p) p).io.recvPauseCountdown ≤ 0 ∧
        (buryPeer (unregisterPeer w p) p).sendPressure ≤
          sendPressureLow (buryPeer (unregisterPeer w p) p).peerCount
      then resumeRecv (buryPeer (unregisterPeer w p) p)
      else buryPeer (unregisterPeer w p) p := by
  have hp' : htLookup (unregisterPeer w p) key = some p := by
    rw [unregisterPeer_maps]
    exact hp
  simp only [removePeerAt, htRemove, hp']

theorem buryPeer_unregistered (w : Worker) (p : Slot) : buryPeer (unregisterPeer w p) p = { w with
    ht := Function.update w.ht p (buriedPeer (w.ht p))
    fdMap := fdMapAfterRemove w p
    peerIdMap := idsAfterRemove w p
    notifMap := Function.update w.notifMap (w.ht p).fd
      (((w.ht p).send.queue.take (w.ht p).send.inflight.toNat).reverse ++ w.notifMap (w.ht p).fd)
    sendPressure := if w.sendPressure - (w.ht p).send.queued < 0 then 0
      else w.sendPressure - (w.ht p).send.queued
    peerCount := if 0 < w.peerCount then w.peerCount - 1 else w.peerCount } := by
  rw [unregisterPeer_maps]
  rfl

theorem removePeerAt_removed {w : Worker} (hp : htLookup w key = some p) :
    RemovedAt w p (removePeerAt w p key) ∧
      (removePeerAt w p key).peerCount = if 0 < w.peerCount then w.peerCount - 1 else w.peerCount := by
  have hbury := buryPeer_unregistered w p
  have hbio : (buryPeer (unregisterPeer w p) p).io = w.io := by rw [hbury]
  rw [removePeerAt_eq hp]
  split
  · have hflow := Io.SameFlow.drainDeferredRecvs { buryPeer (unregisterPeer w p) p with
      io := { (buryPeer (unregisterPeer w p) p).io with recvPaused := false } }
    have hsends := drainDeferredRecvs_sends { buryPeer (unregisterPeer w p) p with
      io := { (buryPeer (unregisterPeer w p) p).io with recvPaused := false } }
    obtain ⟨io, hio⟩ := resumeRecv_io (buryPeer (unregisterPeer w p) p)
    refine ⟨⟨⟨_, w.routes, io, by rw [hio, hbury]⟩, ⟨0, .inl hflow.paused⟩, fun ho => ?_, fun f => ?_⟩,
      by rw [hio, hbury]⟩
    · apply hflow.oracle
      simp only [hbio, ho]
    · rw [← hbio]
      exact hsends f
  · next hno =>
    refine ⟨⟨⟨_, w.routes, w.io, hbury⟩, ⟨if 0 < w.peerCount then w.peerCount - 1 else w.peerCount,
      ?_⟩, fun ho => by rw [hbio]; exact ho, fun f => by rw [hbio]⟩, by rw [hbury]⟩
    unfold RemovePause
    rw [hbio] at hno ⊢
    by_cases hpz : w.io.recvPaused = true
    · refine .inr ⟨rfl, fun hc => ?_⟩
      rw [not_and, not_and] at hno
      have hlow := hno hpz hc
      rw [hbury] at hlow ⊢
      exact Int.not_le.mp hlow
    · exact .inl (by simpa using hpz)

theorem processCmdRemove_record (hp : htLookup (ctx.workers wid) key = some p) :
    RemovedAt (ctx.workers wid) p ((processCmdRemove ctx wid key).1.workers wid) ∧
      ((processCmdRemove ctx wid key).1.workers wid).peerCount =
        (if 0 < (ctx.workers wid).peerCount then (ctx.workers wid).peerCount - 1
          else (ctx.workers wid).peerCount) ∧
      ∀ u, u ≠ wid → ∃ routes, (processCmdRemove ctx wid key).1.workers u =
        { ctx.workers u with routes := routes } := by
  obtain ⟨h, hpc⟩ := removePeerAt_removed hp
  have hwk := processCmdRemove_workers hp
  refine ⟨?_, ?_, fun u hu => ?_⟩
  · rw [hwk wid, if_pos rfl]
    obtain ⟨pc, routes, io, heq⟩ := h.eq
    exact ⟨⟨pc, _, io, by rw [heq]⟩, h.pause, h.oracle, h.sends⟩
  · rw [hwk wid, if_pos rfl]
    exact hpc
  · rw [hwk u, if_neg hu]
    exact ⟨_, rfl⟩

theorem movePeerOut_record (hp : htLookup (ctx.workers wid) key = some p) :
    RemovedAt (ctx.workers wid) p ((movePeerOut ctx wid key).workers wid) ∧
      ∀ u, u ≠ wid → (movePeerOut ctx wid key).workers u = ctx.workers u := by
  obtain ⟨h, -⟩ := removePeerAt_removed hp
  refine ⟨?_, (movePeerOut_unregistered hp).2⟩
  unfold movePeerOut
  simp only [hp, Ctx.setWorker_self]
  obtain ⟨pc, routes, io, heq⟩ := h.eq
  change htRemove (unregisterPeer (ctx.workers wid) p) key = _ at heq
  refine ⟨⟨_, routes, io, by rw [heq]⟩, h.pause, h.oracle, h.sends⟩

/-! ### Tables under the steps -/

section

variable (w : Worker) (p : Slot)

theorem armPollWrite_core (fd : Fd) : (armPollWrite w p fd).core = w.core := by
  unfold armPollWrite
  dsimp only
  split
  · rfl
  · split
    · exact (SendOnly.setSend p _ _).core
    · rfl

theorem popSend_core (b : Bool) : (popSend w p b).core = w.core := by
  by_cases hq : (w.ht p).send.queue = []
  · simp only [popSend, hq]
  · exact (popSend_spec w p b hq).1.core

theorem drainSendQueue_core (b : Bool) : (drainSendQueue w p b).core = w.core := by
  have h1 := popSend_core w p b
  unfold drainSendQueue
  dsimp only
  generalize popSend w p b = w1 at h1 ⊢
  have h2 : (if 0 < (w1.ht p).send.inflight then
      w1.setSend p { (w1.ht p).send with inflight := (w1.ht p).send.inflight - 1 }
      else w1).core = w1.core := by
    split
    · exact (SendOnly.setSend p _ _).core
    · rfl
  generalize (if 0 < (w1.ht p).send.inflight then
      w1.setSend p { (w1.ht p).send with inflight := (w1.ht p).send.inflight - 1 } else w1) = w2
    at h2 ⊢
  split
  · exact ((submitNext_sendOnly w2 p).core.trans h2).trans h1
  · exact h2.trans h1

theorem sendUnsupported_core : (sendUnsupported w p).core = w.core := by
  unfold sendUnsupported
  dsimp only
  split
  · exact (submitBatch_sendOnly _ _ p).core.trans (SendOnly.setSend p _ _).core
  · exact (SendOnly.setSend p _ _).core

theorem sendShort_core (fd : Fd) (sent : ℕ) (x : SendItem) (rest : List SendItem) (b : Bool) :
    (sendShort w p fd sent x rest b).core = w.core := by
  rcases sendShort_cases w p fd sent x rest b with
    ⟨-, heq⟩ | ⟨-, nm, ao, w1, hw1, ⟨-, heq⟩ | ⟨-, heq⟩⟩
  · rw [heq, drainSendQueue_core]
    exact (SendOnly.alloc p w).core
  · have h1 : w1.core = w.core := by
      rw [hw1]
      exact (SendOnly.setSend p w _).core
    rw [heq]
    unfold dropRest
    dsimp only
    split
    · refine (submitNext_sendOnly _ p).core.trans (Eq.trans ?_ h1)
      exact (SendOnly.setSend p w1 _).core
    · exact (SendOnly.setSend p w1 _).core.trans h1
  · have h1 : w1.core = w.core := by
      rw [hw1]
      exact (SendOnly.setSend p w _).core
    obtain ⟨io, hres, -, -⟩ := resubmitRest_cases w1 p fd (x.data.drop sent)
    rw [heq, hres]
    exact (SendOnly.setSend p w1 _).core.trans h1

theorem handleSendCqe_core (cqe : Cqe) : (handleSendCqe w cqe).core = w.core := by
  have hcase := handleSendCqe_case w cqe
  generalize handleSendCqe w cqe = w' at hcase ⊢
  cases hcase with
  | ignored nm _ => rfl
  | unsupported q _ _ => exact sendUnsupported_core w q
  | retry q stats _ _ => exact (armPollWrite_core _ q cqe.fd).trans (SendOnly.setSend q _ _).core
  | done q stats pipe _ => exact drainSendQueue_core _ q cqe.more
  | short q stats item rest _ _ _ _ => exact sendShort_core _ q _ _ _ _ _

theorem handlePollWrite_core (fd : Fd) : (handlePollWrite w fd).core = w.core := by
  unfold handlePollWrite
  dsimp only
  split
  · rfl
  · next q _ =>
    have h1 : (submitBatch kPollWriteBatch
        (w.setSend q { (w.ht q).send with pollWritePending := false }) q).core = w.core :=
      (submitBatch_sendOnly _ _ q).core.trans (SendOnly.setSend q _ _).core
    split
    · exact (armPollWrite_core _ q fd).trans h1
    · exact h1

theorem flushPending_core (fd : Fd) : (flushPending w fd).core = w.core := by
  unfold flushPending
  split
  · rfl
  · split
    · rfl
    · next q _ =>
      dsimp only
      split
      · exact (SendOnly.setSend q _ _).core
      · exact (submitBatch_sendOnly _ _ q).core.trans (SendOnly.setSend q _ _).core

theorem flushPendingSends_core : (flushPendingSends w).core = w.core := by
  have key : ∀ (fds : List Fd) (w : Worker), (fds.foldl flushPending w).core = w.core := by
    intro fds
    induction fds with
    | nil => exact fun _ => rfl
    | cons f fds ih => exact fun w => (ih _).trans (flushPending_core w f)
  exact key w.pendingFds w

end

theorem loopStep_tableOk {ctx' : Ctx} {l : LoopStep} (h : ∀ v, TableOk (ctx.workers v))
    (hs : loopStep ctx l = some ctx') (v : ℕ) : TableOk (ctx'.workers v) := by
  have hset : ∀ {u : ℕ} {w : Worker}, TableOk w → TableOk ((ctx.setWorker u w).workers v) := by
    intro u w hw
    by_cases hv : v = u
    · subst hv
      rw [Ctx.setWorker_self]
      exact hw
    · rw [Ctx.setWorker_ne ctx w hv]
      exact h v
  have hcore : ∀ {u : ℕ} {w : Worker}, w.core = (ctx.workers u).core →
      TableOk ((ctx.setWorker u w).workers v) := fun hw => hset ((h _).of_core hw)
  cases l with
  | enqueue u q data =>
    cases hs
    exact hcore (enqueueSend_sendOnly _ q data).core
  | push u dst x =>
    cases hs
    exact (h v).of_core (Ctx.core_worker (xferSpscPush_core ctx u dst x) v)
  | take u src =>
    cases hs
    exact hcore rfl
  | collect u =>
    cases hs
    exact hcore rfl
  | rules u p a b c d =>
    cases hs
    refine hset ((h u).congr (fun q => ?_) (fun q => ?_) fun q => ?_) <;>
      by_cases hq : q = p <;> simp [Worker.setPeer, hq]
  | account u a b c =>
    cases hs
    exact hcore rfl
  | complete u cqe =>
    cases hs
    exact hcore (handleSendCqe_core _ cqe)
  | pollWrite u fd =>
    cases hs
    exact hcore (handlePollWrite_core _ fd)
  | flush u =>
    cases hs
    exact hcore (flushPendingSends_core _)
  | cmd u c =>
    cases hs
    cases c with
    | addPeer fd key protocol peerId =>
      rcases processCmdAdd_spec (h u) fd key protocol peerId with ⟨ao, heq⟩ |
        ⟨p, -, hf, -, hadd, -, hothers⟩
      · simp only [processCmd, heq]
        exact hcore rfl
      · by_cases hv : v = u
        · subst hv
          exact hadd.tableOk (h v) hf
        · exact (hothers v hv).tableOk (h v)
    | removePeer key =>
      cases hp : htLookup (ctx.workers u) key with
      | none =>
        simp only [processCmd, processCmdRemove_none hp]
        exact h v
      | some p =>
        obtain ⟨hrem, -, hothers⟩ := processCmdRemove_spec hp
        by_cases hv : v = u
        · subst hv
          exact hrem.tableOk (h v)
        · exact (hothers v hv).tableOk (h v)
    | write key data =>
      simp only [processCmd, processCmdWrite]
      split
      · exact h v
      · next p _ =>
        have heff : Effs u p (fun _ _ => True) (fun _ _ => False) ctx
            (ctx.setWorker u (allocEnqueue (ctx.workers u) p data)) := allocEnqueue_effs trivial
        exact (h v).of_core (Ctx.core_worker heff.core v)
    | setFwdRule key dstKey =>
      simp only [processCmd, HyperDerp.setFwdRule]
      split
      · exact h v
      · next p _ =>
        split
        · exact h v
        · obtain ⟨a, b, c, d, e, heq⟩ := addRule_same (ctx.workers u) p dstKey
          rw [heq]
          refine hset ((h u).congr (fun q => ?_) (fun q => ?_) fun q => ?_) <;>
            by_cases hq : q = p <;> simp [Worker.setPeer, hq]
    | movePeerOut key =>
      cases hp : htLookup (ctx.workers u) key with
      | none =>
        simp only [processCmd, HyperDerp.movePeerOut, hp]
        exact h v
      | some p =>
        obtain ⟨hrem, hothers⟩ := movePeerOut_unregistered hp
        by_cases hv : v = u
        · subst hv
          exact hrem.tableOk (h v)
        · simp only [processCmd, hothers v hv]
          exact h v
    | stop => exact hset ((h u).congr (fun _ => rfl) (fun _ => rfl) fun _ => rfl)
  | eof u fd =>
    simp only [loopStep] at hs
    split at hs
    · cases hs
    · cases hs
      exact hset ((h u).congr (fun _ => rfl) (fun _ => rfl) fun _ => rfl)
  | receive u q rbuf window start inflight multishot =>
    cases hs
    refine hset ((h u).congr (fun r => ?_) (fun r => ?_) fun r => ?_) <;>
      by_cases hq : r = q <;> simp [Worker.setPeer, hq]
  | rearm u fd =>
    cases hs
    obtain ⟨io, hio⟩ := submitRecv_io (ctx.workers u) fd
    exact hcore (w := submitRecv (ctx.workers u) fd) (by rw [hio]; rfl)
  | deferred u =>
    cases hs
    obtain ⟨io, hio⟩ := drainDeferredRecvs_io (ctx.workers u)
    refine hcore ?_
    rw [hio]
    rfl

end HyperDerp
