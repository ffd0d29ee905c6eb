import HyperDerp.DataPlane.Effects

/-!
# What a worker tells the control plane

A client frame puts at most one message on the pipe of its worker (`forwarded`):
for a DERP peer every frame but a SendPacket, for an HD peer the frames of a few
types. The type byte and the payload are the client's own.
-/

namespace HyperDerp

/-- The message that dispatching a frame of the peer in slot `p` puts on the pipe. -/
def forwarded (w : Worker) (p : Slot) (frame : Bytes) : Option PipeMsg :=
  if (w.ht p).protocol = .kHd then
    if hdReadFrameType frame ∈ hdControlTypes then
      some ⟨(w.ht p).fd, hdReadFrameType frame, frame.drop kHdFrameHeaderSize⟩
    else none
  else if w.running = false ∨ readFrameType frame = .kSendPacket then none
  else some ⟨(w.ht p).fd, readFrameType frame, frame.drop kFrameHeaderSize⟩

/-! ### Operations that write no message -/

def SamePipe (ctx ctx' : Ctx) : Prop := ∀ v, (ctx'.workers v).pipe = (ctx.workers v).pipe

section

variable {ctx : Ctx} {wid : ℕ}

theorem SamePipe.refl (ctx : Ctx) : SamePipe ctx ctx := fun _ => rfl

theorem SamePipe.trans {a b c : Ctx} (h1 : SamePipe a b) (h2 : SamePipe b c) : SamePipe a c :=
  fun v => (h2 v).trans (h1 v)

theorem samePipe_setWorker {w : Worker} (h : w.pipe = (ctx.workers wid).pipe) :
    SamePipe ctx (ctx.setWorker wid w) := by
  intro v
  by_cases hv : v = wid
  · subst hv
    rw [Ctx.setWorker_self, h]
  · rw [Ctx.setWorker_ne ctx w hv]

theorem SendOnly.pipe {p : Slot} {w w' : Worker} (h : SendOnly p w w') : w'.pipe = w.pipe := by
  obtain ⟨s, io, pf, nm, ao, ni, sp, st, rfl⟩ := h
  rfl

theorem enqueueSend_pipe (w : Worker) (q : Slot) (data : Bytes) :
    (enqueueSend w q data).pipe = w.pipe := (enqueueSend_sendOnly w q data).pipe

theorem alloc_pipe (w : Worker) : w.alloc.2.pipe = w.pipe := by rw [alloc_eq]

theorem allocEnqueue_pipe (w : Worker) (q : Slot) (data : Bytes) :
    (allocEnqueue w q data).pipe = w.pipe := by
  have ha := alloc_pipe w
  unfold allocEnqueue
  split
  · next w1 hal =>
    rw [hal] at ha
    exact ha
  · next w1 hal =>
    rw [hal] at ha
    rw [enqueueSend_pipe]
    exact ha

theorem broadcastFrame_pipe (w : Worker) (src : Slot) (proto : PeerProtocol) (frame : Bytes) :
    (broadcastFrame w src proto frame).pipe = w.pipe := by
  unfold broadcastFrame
  generalize List.finRange kHtCapacity = qs
  induction qs generalizing w with
  | nil => rfl
  | cons q qs ih =>
    rw [List.foldl_cons, ih]
    split
    · rfl
    · split
      · rfl
      · exact allocEnqueue_pipe w q frame

theorem frameAlloc_pipe (ctx : Ctx) (wid : ℕ) : SamePipe ctx (frameAlloc ctx wid).2 :=
  samePipe_setWorker (alloc_pipe _)

theorem xferSpscPush_pipe (ctx : Ctx) (wid dst : ℕ) (x : Xfer) :
    SamePipe ctx (xferSpscPush ctx wid dst x) := by
  unfold xferSpscPush
  dsimp only
  split
  · exact samePipe_setWorker rfl
  · split
    · refine SamePipe.trans ?_ (samePipe_setWorker rfl)
      exact samePipe_setWorker rfl
    · exact samePipe_setWorker rfl

theorem xferPush_pipe (ctx : Ctx) (wid : ℕ) (dstId : ℤ) (fd : Fd) (frame : Bytes)
    (tag : Option Origin) : SamePipe ctx (xferPush ctx wid dstId fd frame tag) := by
  unfold xferPush
  split
  · exact SamePipe.refl ctx
  · exact xferSpscPush_pipe _ _ _ _

theorem forwardHdData1_pipe (ctx : Ctx) (wid : ℕ) (p : Slot) (frame : Bytes) :
    SamePipe ctx (forwardHdData1 ctx wid p frame) := by
  have ha := frameAlloc_pipe ctx wid
  unfold forwardHdData1
  split
  · next ctx1 hal =>
    rw [hal] at ha
    exact ha
  · next ctx1 hal =>
    rw [hal] at ha
    refine ha.trans ?_
    unfold forwardHdData1Body
    dsimp only
    split
    · exact samePipe_setWorker (enqueueSend_pipe _ _ _)
    · split
      · exact xferPush_pipe _ _ _ _ _ _
      · split
        · exact samePipe_setWorker (enqueueSend_pipe _ _ _)
        · split
          · exact samePipe_setWorker rfl
          · refine SamePipe.trans ?_ (xferPush_pipe _ _ _ _ _ _)
            exact samePipe_setWorker rfl

theorem forwardRule_pipe (ctx : Ctx) (wid : ℕ) (p : Slot) (frame : Bytes) (r : ℕ) :
    SamePipe ctx (forwardRule ctx wid p frame r) := by
  unfold forwardRule
  dsimp only
  split
  · exact samePipe_setWorker (enqueueSend_pipe _ _ _)
  · split
    · split
      · exact samePipe_setWorker (enqueueSend_pipe _ _ _)
      · split
        · exact SamePipe.refl ctx
        · split
          · exact samePipe_setWorker rfl
          · refine SamePipe.trans ?_ (xferPush_pipe _ _ _ _ _ _)
            exact samePipe_setWorker rfl
    · exact xferPush_pipe _ _ _ _ _ _

theorem forwardRules_pipe (wid : ℕ) (p : Slot) (frame : Bytes) (rs : List ℕ) (ctx : Ctx) :
    SamePipe ctx (forwardRules ctx wid p frame rs).2 := by
  induction rs generalizing ctx with
  | nil => exact SamePipe.refl ctx
  | cons r rs ih =>
    have ha := frameAlloc_pipe ctx wid
    unfold forwardRules
    split
    · next ctx1 hal =>
      rw [hal] at ha
      exact ha
    · next ctx1 hal =>
      rw [hal] at ha
      exact ha.trans ((forwardRule_pipe _ _ _ _ _).trans (ih _))

theorem forwardHdData_pipe (ctx : Ctx) (wid : ℕ) (p : Slot) (frame : Bytes) :
    SamePipe ctx (forwardHdData ctx wid p frame) := by
  unfold forwardHdData
  dsimp only
  split
  · show SamePipe ctx (ctx.setWorker wid (broadcastFrame (ctx.workers wid) p .kHd frame))
    exact samePipe_setWorker (broadcastFrame_pipe _ _ _ _)
  · have hr := forwardRules_pipe wid p frame (List.range ((ctx.workers wid).ht p).fwdCount) ctx
    revert hr
    rcases forwardRules ctx wid p frame (List.range ((ctx.workers wid).ht p).fwdCount) with
      ⟨ok, ctx1⟩
    intro hr
    cases ok with
    | false => exact hr
    | true =>
      dsimp only
      split
      · exact hr
      · next derp _ =>
        refine hr.trans ?_
        show SamePipe ctx1 (ctx1.setWorker wid (broadcastFrame (ctx1.workers wid) p .kDerp derp))
        exact samePipe_setWorker (broadcastFrame_pipe _ _ _ _)

theorem dispatchMeshData_pipe (ctx : Ctx) (wid : ℕ) (p : Slot) (payload : Bytes) :
    SamePipe ctx (dispatchMeshData ctx wid p payload) := by
  have ha := frameAlloc_pipe ctx wid
  unfold dispatchMeshData
  split
  · exact SamePipe.refl ctx
  · split
    · next ctx1 hal =>
      rw [hal] at ha
      exact ha
    · next ctx1 hal =>
      rw [hal] at ha
      refine ha.trans ?_
      refine SamePipe.trans ?_ (samePipe_setWorker rfl)
      split
      · exact samePipe_setWorker (enqueueSend_pipe _ _ _)
      · split
        · exact xferPush_pipe _ _ _ _ _ _
        · exact SamePipe.refl ctx1

theorem fleetEnqueue_pipe (w : Worker) (dst : Slot) (frame : Bytes) :
    (fleetEnqueue w dst frame).pipe = w.pipe := by
  have ha := alloc_pipe w
  unfold fleetEnqueue
  split
  · next w1 hal =>
    rw [hal] at ha
    exact ha
  · next w1 hal =>
    rw [hal] at ha
    exact (enqueueSend_pipe w1 dst frame).trans ha

theorem dispatchFleetData_pipe (ctx : Ctx) (wid : ℕ) (p : Slot) (frame payload : Bytes) :
    SamePipe ctx (dispatchFleetData ctx wid p frame payload) := by
  unfold dispatchFleetData
  dsimp only
  split
  · exact SamePipe.refl ctx
  · split
    all_goals
      split
      · exact SamePipe.refl ctx
      · exact samePipe_setWorker (fleetEnqueue_pipe _ _ _)

end

/-! ### The pipe after one frame -/

theorem dispatchHdFrame_pipe (ctx : Ctx) (wid : ℕ) (p : Slot) (frame : Bytes)
    (h : hdReadFrameType frame ∉ hdControlTypes) :
    SamePipe ctx (dispatchHdFrame ctx wid p frame) := by
  unfold dispatchHdFrame
  dsimp only
  split
  · split
    · exact forwardHdData1_pipe _ _ _ _
    · exact forwardHdData_pipe _ _ _ _
  split
  · exact samePipe_setWorker (allocEnqueue_pipe _ _ _)
  split
  · exact dispatchMeshData_pipe _ _ _ _
  split
  · exact dispatchFleetData_pipe _ _ _ _ _
  split
  · split
    · show SamePipe ctx (ctx.setWorker wid (broadcastFrame (ctx.workers wid) p .kHd frame))
      exact samePipe_setWorker (broadcastFrame_pipe _ _ _ _)
    · exact SamePipe.refl ctx
  · exact SamePipe.refl ctx

theorem dispatchHdFrame_control (ctx : Ctx) (wid : ℕ) (p : Slot) (frame : Bytes)
    (h : hdReadFrameType frame ∈ hdControlTypes) :
    dispatchHdFrame ctx wid p frame = ctx.onWorker wid fun w =>
      sendToPipe w p (hdReadFrameType frame) (frame.drop kHdFrameHeaderSize) := by
  have hne : ∀ t ∈ [HdFrameType.kData, .kPing, .kMeshData, .kFleetData, .kPeerInfo],
      hdReadFrameType frame ≠ t := by
    intro t ht heq
    rw [heq] at h
    simp only [List.mem_cons, List.not_mem_nil, or_false] at ht
    rcases ht with rfl | rfl | rfl | rfl | rfl <;> exact absurd h (by decide)
  unfold dispatchHdFrame
  dsimp only
  rw [if_neg (hne _ (by simp)), if_neg fun hp => hne .kPing (by simp) hp.1,
    if_neg (hne _ (by simp)), if_neg (hne _ (by simp)), if_neg (hne _ (by simp)), if_pos h]

theorem forwardMsg_pipe (ctx : Ctx) (wid : ℕ) (payload : Bytes) (src : Slot) :
    SamePipe ctx (forwardMsg ctx wid .kSendPacket payload src) := by
  have ha := frameAlloc_pipe ctx wid
  unfold forwardMsg
  split
  · exact SamePipe.refl ctx
  · rw [if_neg (not_not.mpr rfl)]
    split
    · exact SamePipe.refl ctx
    · split
      · next ctx1 hal =>
        rw [hal] at ha
        exact ha
      · next ctx1 hal =>
        rw [hal] at ha
        refine ha.trans ?_
        dsimp only
        split
        · refine samePipe_setWorker ?_
          unfold forwardLocal
          split
          · split
            · rfl
            · exact allocEnqueue_pipe _ _ _
          · exact enqueueSend_pipe _ _ _
        · unfold forwardRemote
          dsimp only
          split
          · exact SamePipe.refl ctx1
          · exact xferSpscPush_pipe _ _ _ _

theorem dispatchFrame_pipe (ctx : Ctx) (wid : ℕ) (p : Slot) (frame : Bytes) (v : ℕ) :
    ((dispatchFrame ctx wid p frame).workers v).pipe =
      if v = wid then (ctx.workers wid).pipe ++ (forwarded (ctx.workers wid) p frame).toList
      else (ctx.workers v).pipe := by
  have hsame : ∀ {ctx'}, SamePipe ctx ctx' → forwarded (ctx.workers wid) p frame = none →
      (ctx'.workers v).pipe =
        if v = wid then (ctx.workers wid).pipe ++ (forwarded (ctx.workers wid) p frame).toList
        else (ctx.workers v).pipe := by
    intro ctx' h hf
    rw [h v, hf]
    split
    · next hv => simp [hv]
    · rfl
  have hsend : ∀ msg : PipeMsg, forwarded (ctx.workers wid) p frame = some msg →
      ((ctx.onWorker wid fun w => { w with pipe := w.pipe ++ [msg] }).workers v).pipe =
        if v = wid then (ctx.workers wid).pipe ++ (forwarded (ctx.workers wid) p frame).toList
        else (ctx.workers v).pipe := by
    intro msg hf
    rw [hf, Ctx.onWorker]
    split
    · next hv =>
      subst hv
      rw [Ctx.setWorker_self]
      rfl
    · next hv => rw [Ctx.setWorker_ne _ _ hv]
  unfold dispatchFrame
  split
  · next hp =>
    by_cases ht : hdReadFrameType frame ∈ hdControlTypes
    · rw [dispatchHdFrame_control ctx wid p frame ht]
      exact hsend _ (by rw [forwarded, if_pos hp, if_pos ht])
    · exact hsame (dispatchHdFrame_pipe ctx wid p frame ht) (by rw [forwarded, if_pos hp, if_neg ht])
  · next hp =>
    by_cases hr : (ctx.workers wid).running = false
    · refine hsame ?_ (by rw [forwarded, if_neg hp, if_pos (.inl hr)])
      rw [forwardMsg, if_pos hr]
      exact SamePipe.refl ctx
    · by_cases ht : readFrameType frame = .kSendPacket
      · rw [ht]
        exact hsame (forwardMsg_pipe ctx wid _ p) (by rw [forwarded, if_neg hp, if_pos (.inr ht)])
      · rw [forwardMsg, if_neg hr, if_pos ht]
        refine hsend _ ?_
        rw [forwarded, if_neg hp, if_neg]
        rintro (h | h) <;> contradiction

end HyperDerp
