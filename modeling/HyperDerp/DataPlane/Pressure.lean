import HyperDerp.DataPlane.Loop
import HyperDerp.DataPlane.WellFormed
import Mathlib.Algebra.Order.BigOperators.Group.Finset

/-!
# Back-pressure accounting (`types.h:75-105`, `:363-367`)

`send_pressure` is meant to count the frames queued on all peers of the worker.
It is adjusted where a frame is queued, retired, dropped or removed with its
peer, and decides when the worker stops and resumes reading. The first part says
what each step does to the numbers involved (`SameLoad`, `popSend`, `pushItem`),
the second when the count is exact, the third when a paused worker still has a
send whose completion can end the pause.
-/

namespace HyperDerp

/-! ### What a step does to the counts -/

structure SendState.SameQueue (s s' : SendState) : Prop where
  queued : s'.queued = s.queued
  queue : s'.queue = s.queue
  tail : s'.tail = s.tail

structure SameLoad (w w' : Worker) : Prop where
  send : ∀ q, (w.ht q).send.SameQueue (w'.ht q).send
  occupied : ∀ q, (w'.ht q).occupied = (w.ht q).occupied
  peerCount : w'.peerCount = w.peerCount
  pressure : w'.sendPressure = w.sendPressure
  nextItem : w'.nextItem = w.nextItem
  paused : w'.io.recvPaused = w.io.recvPaused
  countdown : w'.io.recvPauseCountdown = w.io.recvPauseCountdown

theorem SendState.SameQueue.refl (s : SendState) : s.SameQueue s := ⟨rfl, rfl, rfl⟩

theorem SendState.SameQueue.trans {s s' s'' : SendState} (h1 : s.SameQueue s')
    (h2 : s'.SameQueue s'') : s.SameQueue s'' :=
  ⟨h2.queued.trans h1.queued, h2.queue.trans h1.queue, h2.tail.trans h1.tail⟩

namespace SameLoad

variable {w w' w'' : Worker}

theorem refl (w : Worker) : SameLoad w w :=
  ⟨fun _ => .refl _, fun _ => rfl, rfl, rfl, rfl, rfl, rfl⟩

theorem trans (h1 : SameLoad w w') (h2 : SameLoad w' w'') : SameLoad w w'' where
  send q := (h1.send q).trans (h2.send q)
  occupied q := (h2.occupied q).trans (h1.occupied q)
  peerCount := h2.peerCount.trans h1.peerCount
  pressure := h2.pressure.trans h1.pressure
  nextItem := h2.nextItem.trans h1.nextItem
  paused := h2.paused.trans h1.paused
  countdown := h2.countdown.trans h1.countdown

theorem setSend {p : Slot} {s : SendState} (h : (w.ht p).send.SameQueue s) :
    SameLoad w (w.setSend p s) := by
  refine ⟨fun q => ?_, fun q => ?_, rfl, rfl, rfl, rfl, rfl⟩
  · by_cases hq : q = p
    · subst hq
      rw [Worker.setSend_self]
      exact h
    · rw [w.setSend_ne s hq]
      exact .refl _
  · by_cases hq : q = p
    · subst hq
      simp [Worker.setSend]
    · rw [w.setSend_ne s hq]

theorem io {io : Io} (h : w.io.SameFlow io) : SameLoad w { w with io := io } :=
  ⟨fun _ => .refl _, fun _ => rfl, rfl, rfl, rfl, h.paused, h.countdown⟩

theorem alloc (w : Worker) : SameLoad w w.alloc.2 := by
  rw [alloc_eq]
  exact ⟨fun _ => .refl _, fun _ => rfl, rfl, rfl, rfl, rfl, rfl⟩

theorem submitNext (w : Worker) (p : Slot) : SameLoad w (submitNext w p).2 := by
  unfold HyperDerp.submitNext
  dsimp only
  split
  · exact .refl w
  · next id _ =>
    split
    · exact .refl w
    · next item _ =>
      have hflow := Io.SameFlow.submitPeerSend w p item
        (nodeNext (w.ht p).send.queue id).isSome
      obtain ⟨ok, io, heq, -⟩ :=
        submitPeerSend_cases w p item (nodeNext (w.ht p).send.queue id).isSome
      rw [heq] at hflow ⊢
      cases ok with
      | false => exact .io hflow
      | true => exact (SameLoad.io hflow).trans (.setSend ⟨rfl, rfl, rfl⟩)

theorem submitBatch (n : ℕ) (w : Worker) (p : Slot) : SameLoad w (submitBatch n w p) := by
  induction n generalizing w with
  | zero => exact .refl w
  | succ n ih =>
    have hs := submitNext w p
    simp only [HyperDerp.submitBatch]
    split
    · split
      · next heq => rw [heq] at hs; exact hs.trans (ih _)
      · next heq => rw [heq] at hs; exact hs
    · exact .refl w

theorem kickSend (w : Worker) (p : Slot) : SameLoad w (kickSend w p) := by
  unfold HyperDerp.kickSend
  dsimp only
  split
  · have h1 : SameLoad w (w.setSend p { (w.ht p).send with pending := true }) :=
      .setSend ⟨rfl, rfl, rfl⟩
    split
    · exact h1.trans ⟨fun _ => .refl _, fun _ => rfl, rfl, rfl, rfl, rfl, rfl⟩
    · exact h1
  · split
    · exact submitNext w p
    · exact .refl w

theorem flushPending (w : Worker) (fd : Fd) : SameLoad w (flushPending w fd) := by
  unfold HyperDerp.flushPending
  split
  · exact .refl w
  · split
    · exact .refl w
    · next p _ =>
      have h1 : SameLoad w (w.setSend p { (w.ht p).send with pending := false }) :=
        .setSend ⟨rfl, rfl, rfl⟩
      dsimp only
      split
      · exact h1
      · exact h1.trans (submitBatch _ _ p)

theorem flushPendingSends (w : Worker) : SameLoad w (flushPendingSends w) := by
  have key : ∀ (fds : List Fd) (w : Worker), SameLoad w (fds.foldl HyperDerp.flushPending w) := by
    intro fds
    induction fds with
    | nil => exact .refl
    | cons f fds ih => exact fun w => (flushPending w f).trans (ih _)
  exact (key w.pendingFds w).trans
    ⟨fun _ => .refl _, fun _ => rfl, rfl, rfl, rfl, rfl, rfl⟩

theorem armPollWrite (w : Worker) (p : Slot) (fd : Fd) : SameLoad w (armPollWrite w p fd) := by
  have hflow := Io.SameFlow.prepSqe w.io (.pollOut fd)
  unfold HyperDerp.armPollWrite
  dsimp only
  split
  · exact .refl w
  · generalize prepSqe w.io (.pollOut fd) = r at hflow
    obtain ⟨ok, io⟩ := r
    cases ok with
    | false => exact .io hflow
    | true =>
      refine (SameLoad.io hflow).trans ?_
      exact .setSend ⟨rfl, rfl, rfl⟩

theorem handlePollWrite (w : Worker) (fd : Fd) : SameLoad w (handlePollWrite w fd) := by
  unfold HyperDerp.handlePollWrite
  dsimp only
  split
  · exact .refl w
  · next p _ =>
    have h1 : SameLoad w (w.setSend p { (w.ht p).send with pollWritePending := false }) :=
      .setSend ⟨rfl, rfl, rfl⟩
    have h2 := h1.trans (submitBatch kPollWriteBatch _ p)
    split
    · exact h2.trans (armPollWrite _ p fd)
    · exact h2

theorem sendRetry (w : Worker) (p : Slot) (fd : Fd) : SameLoad w (sendRetry w p fd) := by
  unfold HyperDerp.sendRetry
  dsimp only
  refine SameLoad.trans ?_ (armPollWrite _ p fd)
  exact .setSend ⟨rfl, rfl, rfl⟩

theorem sendUnsupported (w : Worker) (p : Slot) : SameLoad w (sendUnsupported w p) := by
  unfold HyperDerp.sendUnsupported
  dsimp only
  split
  · refine SameLoad.trans ?_ (submitBatch _ _ p)
    exact .setSend ⟨rfl, rfl, rfl⟩
  · exact .setSend ⟨rfl, rfl, rfl⟩

theorem drainSendQueue (w : Worker) (p : Slot) (b : Bool) :
    SameLoad (popSend w p b) (drainSendQueue w p b) := by
  unfold HyperDerp.drainSendQueue
  dsimp only
  generalize popSend w p b = w1
  have h2 : SameLoad w1 (if 0 < (w1.ht p).send.inflight then
      w1.setSend p { (w1.ht p).send with inflight := (w1.ht p).send.inflight - 1 } else w1) := by
    split
    · exact .setSend ⟨rfl, rfl, rfl⟩
    · exact .refl w1
  generalize (if 0 < (w1.ht p).send.inflight then
      w1.setSend p { (w1.ht p).send with inflight := (w1.ht p).send.inflight - 1 } else w1) = w2
    at h2 ⊢
  split
  · exact h2.trans (submitNext w2 p)
  · exact h2

end SameLoad

inductive PauseStep (pressure peerCount : ℤ) (io io' : Io) : Prop
  | running : io.recvPaused = false → io'.recvPaused = false → PauseStep pressure peerCount io io'
  | counting : io.recvPaused = true → 0 < io.recvPauseCountdown → io'.recvPaused = true →
      io'.recvPauseCountdown = io.recvPauseCountdown - 1 → PauseStep pressure peerCount io io'
  | resumed : io'.recvPaused = false → PauseStep pressure peerCount io io'
  | waiting : io.recvPaused = true → io.recvPauseCountdown ≤ 0 →
      sendPressureLow peerCount < pressure →
      io'.recvPauseCountdown = io.recvPauseCountdown → PauseStep pressure peerCount io io'

/-- Beside the queue of slot `p`, only totals change. -/
structure OthersSame (p : Slot) (w w' : Worker) : Prop where
  other : ∀ q, q ≠ p → (w.ht q).send.SameQueue (w'.ht q).send
  occupied : ∀ q, (w'.ht q).occupied = (w.ht q).occupied
  peerCount : w'.peerCount = w.peerCount

structure HeadGone (s s' : SendState) : Prop where
  queue : ∃ x, s.queue = x :: s'.queue
  tail : s'.tail = if s'.queue.isEmpty then none else s.tail

structure Retired (p : Slot) (w w' : Worker) : Prop extends OthersSame p w w' where
  gone : HeadGone (w.ht p).send (w'.ht p).send
  queued : (w'.ht p).send.queued =
    if 0 < (w.ht p).send.queued then (w.ht p).send.queued - 1 else (w.ht p).send.queued
  pressure : w'.sendPressure =
    if 0 < w.sendPressure then w.sendPressure - 1 else w.sendPressure
  nextItem : w'.nextItem = w.nextItem
  pause : PauseStep w'.sendPressure w'.peerCount w.io w'.io

structure CutShort (p : Slot) (w w' : Worker) : Prop extends OthersSame p w w' where
  gone : HeadGone (w.ht p).send (w'.ht p).send
  queued : (w'.ht p).send.queued = (w.ht p).send.queued
  pressure : w'.sendPressure = w.sendPressure
  nextItem : w'.nextItem = w.nextItem
  paused : w'.io.recvPaused = w.io.recvPaused
  countdown : w'.io.recvPauseCountdown = w.io.recvPauseCountdown

structure Replaced (p : Slot) (w w' : Worker) : Prop extends OthersSame p w w' where
  queue : ∃ x data rest, (w.ht p).send.queue = x :: rest ∧
    (w'.ht p).send.queue = ⟨w.nextItem, data⟩ :: rest ∧
    (w'.ht p).send.tail =
      some ((if rest.isEmpty then none else (w.ht p).send.tail).getD w.nextItem)
  queued : (w'.ht p).send.queued = (w.ht p).send.queued
  pressure : w'.sendPressure = w.sendPressure
  nextItem : w'.nextItem = w.nextItem + 1
  paused : w'.io.recvPaused = w.io.recvPaused
  countdown : w'.io.recvPauseCountdown = w.io.recvPauseCountdown

/-- A frame joins the queue of slot `p`. -/
structure Pushed (p : Slot) (w w' : Worker) : Prop extends OthersSame p w w' where
  queue : ∃ data, (w'.ht p).send.queue = ((w.ht p).send.push ⟨w.nextItem, data⟩).queue
  tail : (w'.ht p).send.tail = some w.nextItem
  queued : (w'.ht p).send.queued = (w.ht p).send.queued + 1
  pressure : w'.sendPressure = w.sendPressure + 1
  nextItem : w'.nextItem = w.nextItem + 1
  pause : (w'.io.recvPaused = w.io.recvPaused ∧
      w'.io.recvPauseCountdown = w.io.recvPauseCountdown) ∨
    (w'.io.recvPauseCountdown = kRecvPauseMinBatches ∧
      sendPressureHigh w'.peerCount ≤ w'.sendPressure)

variable {p : Slot} {w0 w w' w'' : Worker}

theorem OthersSame.congr (h : OthersSame p w w') (h0 : SameLoad w0 w) (hs : SameLoad w' w'') :
    OthersSame p w0 w'' where
  other q hq := ((h0.send q).trans (h.other q hq)).trans (hs.send q)
  occupied q := ((hs.occupied q).trans (h.occupied q)).trans (h0.occupied q)
  peerCount := (hs.peerCount.trans h.peerCount).trans h0.peerCount

theorem HeadGone.congr {s0 s s' s'' : SendState} (h : HeadGone s s') (h0 : s0.SameQueue s)
    (hs : s'.SameQueue s'') : HeadGone s0 s'' where
  queue := by
    obtain ⟨x, hx⟩ := h.queue
    exact ⟨x, by rw [hs.queue, ← hx, h0.queue]⟩
  tail := by rw [hs.tail, hs.queue, h.tail, h0.tail]

theorem OthersSame.setSend (w : Worker) (p : Slot) (s : SendState) :
    OthersSame p w (w.setSend p s) := by
  refine ⟨fun q hq => ?_, fun q => ?_, rfl⟩
  · rw [w.setSend_ne s hq]
    exact .refl _
  · by_cases hq : q = p
    · subst hq
      simp [Worker.setSend]
    · rw [w.setSend_ne s hq]

theorem PauseStep.congr {a b : ℤ} {io io1 io' io1' : Io} (h : PauseStep a b io io')
    (hp : io1.recvPaused = io.recvPaused) (hc : io1.recvPauseCountdown = io.recvPauseCountdown)
    (hp' : io1'.recvPaused = io'.recvPaused)
    (hc' : io1'.recvPauseCountdown = io'.recvPauseCountdown) : PauseStep a b io1 io1' := by
  cases h with
  | running h1 h2 => exact .running (hp.trans h1) (hp'.trans h2)
  | counting h1 h2 h3 h4 =>
    exact .counting (hp.trans h1) (by rw [hc]; exact h2) (hp'.trans h3) (by rw [hc', hc]; exact h4)
  | resumed h1 => exact .resumed (hp'.trans h1)
  | waiting h1 h2 h3 h4 =>
    exact .waiting (hp.trans h1) (by rw [hc]; exact h2) h3 (by rw [hc', hc]; exact h4)

theorem Retired.congr (h : Retired p w w') (h0 : SameLoad w0 w) (hs : SameLoad w' w'') :
    Retired p w0 w'' where
  toOthersSame := h.toOthersSame.congr h0 hs
  gone := h.gone.congr (h0.send p) (hs.send p)
  queued := by rw [(hs.send p).queued, ← (h0.send p).queued]; exact h.queued
  pressure := by rw [hs.pressure, ← h0.pressure]; exact h.pressure
  nextItem := (hs.nextItem.trans h.nextItem).trans h0.nextItem
  pause := by
    rw [hs.pressure, hs.peerCount]
    exact h.pause.congr h0.paused.symm h0.countdown.symm hs.paused hs.countdown

theorem CutShort.congr (h : CutShort p w w') (h0 : SameLoad w0 w) (hs : SameLoad w' w'') :
    CutShort p w0 w'' where
  toOthersSame := h.toOthersSame.congr h0 hs
  gone := h.gone.congr (h0.send p) (hs.send p)
  queued := ((hs.send p).queued.trans h.queued).trans (h0.send p).queued
  pressure := (hs.pressure.trans h.pressure).trans h0.pressure
  nextItem := (hs.nextItem.trans h.nextItem).trans h0.nextItem
  paused := (hs.paused.trans h.paused).trans h0.paused
  countdown := (hs.countdown.trans h.countdown).trans h0.countdown

theorem Replaced.congr (h : Replaced p w w') (h0 : SameLoad w0 w) : Replaced p w0 w' where
  toOthersSame := h.toOthersSame.congr h0 (.refl w')
  queue := by
    obtain ⟨x, data, rest, h1, h2, h3⟩ := h.queue
    refine ⟨x, data, rest, ?_, ?_, ?_⟩
    · rw [← (h0.send p).queue]
      exact h1
    · rw [← h0.nextItem]
      exact h2
    · rw [← h0.nextItem, ← (h0.send p).tail]
      exact h3
  queued := h.queued.trans (h0.send p).queued
  pressure := h.pressure.trans h0.pressure
  nextItem := by rw [h.nextItem, h0.nextItem]
  paused := h.paused.trans h0.paused
  countdown := h.countdown.trans h0.countdown

theorem relieveRecv_pause (w : Worker) :
    PauseStep w.sendPressure w.peerCount w.io (relieveRecv w).io := by
  unfold relieveRecv
  split
  · next hp =>
    split
    · next hc => exact .counting hp hc hp rfl
    · split
      · have hflow := Io.SameFlow.drainDeferredRecvs { w with io := { w.io with recvPaused := false } }
        exact .resumed hflow.paused
      · next hlow => exact .waiting hp (by omega) (by omega) rfl
  · next hp =>
    have hf : w.io.recvPaused = false := by simpa using hp
    exact .running hf hf

theorem popSend_retired (b : Bool) (hq : (w.ht p).send.queue ≠ []) :
    Retired p w (popSend w p b) := by
  obtain ⟨x, rest, hx⟩ := List.exists_cons_of_ne_nil hq
  unfold popSend
  simp only [hx]
  generalize hs' : { (w.ht p).send with
      queue := rest
      tail := if rest.isEmpty then none else (w.ht p).send.tail
      next := if rest.isEmpty then none else (w.ht p).send.next
      queued := if 0 < (w.ht p).send.queued then (w.ht p).send.queued - 1
        else (w.ht p).send.queued } = s'
  obtain ⟨nm, hnm⟩ : ∃ nm, (w.setSend p s').park (w.ht p).fd x b =
      { w.setSend p s' with notifMap := nm } := by
    unfold Worker.park
    split
    · exact ⟨_, rfl⟩
    · exact ⟨w.notifMap, rfl⟩
  rw [hnm]
  generalize hsp : (if 0 < ({ w.setSend p s' with notifMap := nm } : Worker).sendPressure then
    ({ w.setSend p s' with notifMap := nm } : Worker).sendPressure - 1
    else ({ w.setSend p s' with notifMap := nm } : Worker).sendPressure) = sp
  obtain ⟨io, hio⟩ := relieveRecv_io { w.setSend p s' with notifMap := nm, sendPressure := sp }
  have hpause := relieveRecv_pause { w.setSend p s' with notifMap := nm, sendPressure := sp }
  rw [hio] at hpause ⊢
  have hsame := OthersSame.setSend w p s'
  have hself : ((w.setSend p s').ht p).send = s' := Worker.setSend_self w p s'
  refine ⟨⟨hsame.other, hsame.occupied, rfl⟩, ?_, ?_, hsp.symm, rfl, hpause⟩
  · change HeadGone _ ((w.setSend p s').ht p).send
    rw [hself, ← hs']
    exact ⟨⟨x, hx⟩, rfl⟩
  · change ((w.setSend p s').ht p).send.queued = _
    rw [hself, ← hs']

/-- A short write on this completion has a buffer and no node for its remainder. -/
def CutsShort (w : Worker) (cqe : Cqe) : Prop :=
  ∃ p item rest, Completes w cqe p ∧ 0 ≤ cqe.res ∧ (w.ht p).send.queue = item :: rest ∧
    cqe.res.toNat < item.data.length ∧ w.alloc.1 = true ∧ w.alloc.2.alloc.1 = false

theorem popSend_empty (b : Bool) (hq : (w.ht p).send.queue = []) :
    popSend w p b = w := by
  simp only [popSend, hq]

theorem drainSendQueue_load (w : Worker) (p : Slot) (b : Bool) :
    SameLoad w (drainSendQueue w p b) ∨ Retired p w (drainSendQueue w p b) := by
  have hs := SameLoad.drainSendQueue w p b
  by_cases hq : (w.ht p).send.queue = []
  · rw [popSend_empty b hq] at hs
    exact .inl hs
  · exact .inr ((popSend_retired b hq).congr (.refl w) hs)

theorem sendShort_load {x : SendItem} {rest : List SendItem} (hx : (w.ht p).send.queue = x :: rest)
    (fd : Fd) (sent : ℕ) (b : Bool) :
    Retired p w (sendShort w p fd sent x rest b) ∨
    (w.alloc.1 = true ∧ w.alloc.2.alloc.1 = false ∧
      CutShort p w (sendShort w p fd sent x rest b)) ∨
    Replaced p w (sendShort w p fd sent x rest b) := by
  rcases sendShort_cases w p fd sent x rest b with
    ⟨-, heq⟩ | ⟨ha1, nm, ao, w1, hw1, ⟨ha2, heq⟩ | ⟨-, heq⟩⟩
  · rw [heq]
    have hne : (w.alloc.2.ht p).send.queue ≠ [] := by
      rw [alloc_ht, hx]
      exact List.cons_ne_nil x rest
    exact .inl ((popSend_retired b hne).congr (.alloc w) (.drainSendQueue w.alloc.2 p b))
  · refine .inr (.inl ⟨ha1, ha2, ?_⟩)
    have h1 : CutShort p w w1 := by
      subst hw1
      have hsame := OthersSame.setSend w p { (w.ht p).send with
        queue := rest, tail := if rest.isEmpty then none else (w.ht p).send.tail }
      refine ⟨⟨hsame.other, hsame.occupied, rfl⟩, ?_, ?_, rfl, rfl, rfl, rfl⟩
      · change HeadGone _ ((w.setSend p _).ht p).send
        rw [Worker.setSend_self]
        exact ⟨⟨x, hx⟩, rfl⟩
      · change ((w.setSend p _).ht p).send.queued = _
        rw [Worker.setSend_self]
    rw [heq]
    refine h1.congr (.refl w) ?_
    unfold dropRest
    dsimp only
    have hset : SameLoad w1 (w1.setSend p { (w1.ht p).send with
        inflight := (w1.ht p).send.inflight - 1 }) := .setSend ⟨rfl, rfl, rfl⟩
    have h2 : SameLoad w1 { w1.setSend p { (w1.ht p).send with
        inflight := (w1.ht p).send.inflight - 1 } with
        stats := { w1.stats with slabExhausts := w1.stats.slabExhausts + 1 } } :=
      ⟨hset.send, hset.occupied, rfl, rfl, rfl, rfl, rfl⟩
    split
    · exact h2.trans (.submitNext _ p)
    · exact h2
  · refine .inr (.inr ?_)
    obtain ⟨io, hres, hflow, -⟩ := resubmitRest_cases w1 p fd (x.data.drop sent)
    rw [heq, hres]
    subst hw1
    have hsame1 := OthersSame.setSend w p { (w.ht p).send with
        queue := rest, tail := if rest.isEmpty then none else (w.ht p).send.tail }
    generalize hw1 : { w.setSend p { (w.ht p).send with
        queue := rest, tail := if rest.isEmpty then none else (w.ht p).send.tail } with
        notifMap := nm, allocOracle := ao } = w1 at hflow ⊢
    have hs1 : (w1.ht p).send = { (w.ht p).send with
        queue := rest, tail := if rest.isEmpty then none else (w.ht p).send.tail } := by
      rw [← hw1]
      exact Worker.setSend_self w p _
    have hsame : OthersSame p w w1 := by
      rw [← hw1]
      exact ⟨hsame1.other, hsame1.occupied, rfl⟩
    have hni : w1.nextItem = w.nextItem := by rw [← hw1]; rfl
    have hsp : w1.sendPressure = w.sendPressure := by rw [← hw1]; rfl
    have hio : w1.io = w.io := by rw [← hw1]; rfl
    generalize hs2 : { (w1.ht p).send with
        queue := ⟨w1.nextItem, x.data.drop sent⟩ :: (w1.ht p).send.queue
        tail := some ((w1.ht p).send.tail.getD w1.nextItem)
        inflight := if (getSqe w1.io).1 then (w1.ht p).send.inflight
          else (w1.ht p).send.inflight - 1 } = s2
    have hsame2 := OthersSame.setSend w1 p s2
    have hself : ((w1.setSend p s2).ht p).send = s2 := Worker.setSend_self w1 p s2
    refine ⟨⟨fun q hq => (hsame.other q hq).trans (hsame2.other q hq),
      fun q => (hsame2.occupied q).trans (hsame.occupied q), hsame.peerCount⟩,
      ⟨x, x.data.drop sent, rest, hx, ?_, ?_⟩, ?_, hsp, ?_, ?_, ?_⟩
    · change ((w1.setSend p s2).ht p).send.queue = _
      rw [hself, ← hs2, hs1, hni]
    · change ((w1.setSend p s2).ht p).send.tail = _
      rw [hself, ← hs2, hs1, hni]
    · change ((w1.setSend p s2).ht p).send.queued = _
      rw [hself, ← hs2, hs1]
    · exact congrArg (· + 1) hni
    · exact hflow.paused.trans (by rw [hio])
    · exact hflow.countdown.trans (by rw [hio])

theorem handleSendCqe_load (w : Worker) (cqe : Cqe) :
    SameLoad w (handleSendCqe w cqe) ∨ (∃ p, Retired p w (handleSendCqe w cqe)) ∨
      (∃ p, Replaced p w (handleSendCqe w cqe)) ∨
      (CutsShort w cqe ∧ ∃ p, CutShort p w (handleSendCqe w cqe)) := by
  have hacc : ∀ stats pipe, SameLoad w { w with stats := stats, pipe := pipe } :=
    fun _ _ => ⟨fun _ => .refl _, fun _ => rfl, rfl, rfl, rfl, rfl, rfl⟩
  have hcase := handleSendCqe_case w cqe
  generalize handleSendCqe w cqe = w' at hcase ⊢
  cases hcase with
  | ignored nm _ => exact .inl ⟨fun _ => .refl _, fun _ => rfl, rfl, rfl, rfl, rfl, rfl⟩
  | unsupported p _ _ => exact .inl (.sendUnsupported w p)
  | retry p stats _ _ => exact .inl ((hacc stats w.pipe).trans (.sendRetry _ p cqe.fd))
  | done p stats pipe _ =>
    rcases drainSendQueue_load { w with stats := stats, pipe := pipe } p cqe.more with h | h
    · exact .inl ((hacc stats pipe).trans h)
    · exact .inr (.inl ⟨p, h.congr (hacc stats pipe) (.refl _)⟩)
  | short p stats item rest hc hres hq hlt =>
    have hal := alloc_congr w { w with stats := stats } rfl
    have hal2 := alloc_congr w.alloc.2 ({ w with stats := stats } : Worker).alloc.2 hal.2
    rcases sendShort_load (w := { w with stats := stats }) hq cqe.fd cqe.res.toNat cqe.more with
      h | ⟨h1, h2, h⟩ | h
    · exact .inr (.inl ⟨p, h.congr (hacc stats w.pipe) (.refl _)⟩)
    · refine .inr (.inr (.inr ⟨⟨p, item, rest, hc, hres, hq, hlt, ?_, ?_⟩, p, ?_⟩))
      · exact hal.1.symm.trans h1
      · exact hal2.1.symm.trans h2
      · exact h.congr (hacc stats w.pipe) (.refl _)
    · exact .inr (.inr (.inl ⟨p, h.congr (hacc stats w.pipe)⟩))

/-! ### `EnqueueSend` and the peer commands -/

theorem Pushed.congr (h : Pushed p w w') (h0 : SameLoad w0 w) :
    Pushed p w0 w' where
  toOthersSame := h.toOthersSame.congr h0 (.refl w')
  queue := by
    obtain ⟨data, hd⟩ := h.queue
    refine ⟨data, hd.trans ?_⟩
    simp only [SendState.push, (h0.send p).queue, (h0.send p).tail, h0.nextItem]
  tail := by rw [h.tail, h0.nextItem]
  queued := by rw [h.queued, (h0.send p).queued]
  pressure := by rw [h.pressure, h0.pressure]
  nextItem := by rw [h.nextItem, h0.nextItem]
  pause := by
    rw [← h0.paused, ← h0.countdown]
    exact h.pause

theorem Pushed.then_same (h : Pushed p w w') (hs : SameLoad w' w'') : Pushed p w w'' where
  toOthersSame := h.toOthersSame.congr (.refl w) hs
  queue := by
    rw [(hs.send p).queue]
    exact h.queue
  tail := (hs.send p).tail.trans h.tail
  queued := (hs.send p).queued.trans h.queued
  pressure := hs.pressure.trans h.pressure
  nextItem := hs.nextItem.trans h.nextItem
  pause := by
    rw [hs.paused, hs.countdown, hs.peerCount, hs.pressure]
    exact h.pause

theorem pushItem_pushed (w : Worker) (p : Slot) (data : Bytes) :
    Pushed p w (pushItem w p data) := by
  have hsame := OthersSame.setSend w p ((w.ht p).send.push ⟨w.nextItem, data⟩)
  have hself : ((pushItem w p data).ht p).send = (w.ht p).send.push ⟨w.nextItem, data⟩ :=
    Worker.setSend_self w p _
  refine ⟨⟨hsame.other, hsame.occupied, rfl⟩, ⟨data, ?_⟩, ?_, ?_, rfl, rfl, .inl ⟨rfl, rfl⟩⟩
  · rw [hself]
  · rw [hself]
    rfl
  · rw [hself]
    rfl

theorem enqueueSend_load (w : Worker) (p : Slot) (data : Bytes) :
    SameLoad w (enqueueSend w p data) ∨
    (¬(kMaxSendQueueDepth ≤ (w.ht p).send.queued ∨ w.alloc.1 = false) ∧
      Pushed p w (enqueueSend w p data)) := by
  have ha := SameLoad.alloc w
  unfold enqueueSend
  split
  · exact .inl ⟨fun _ => .refl _, fun _ => rfl, rfl, rfl, rfl, rfl, rfl⟩
  · next hfull =>
    rcases hal : w.alloc with ⟨ok, w1⟩
    rw [hal] at ha
    cases ok with
    | false =>
      exact .inl (ha.trans ⟨fun _ => .refl _, fun _ => rfl, rfl, rfl, rfl, rfl, rfl⟩)
    | true =>
      refine .inr ⟨fun h => h.elim hfull Bool.noConfusion, Pushed.congr ?_ ha⟩
      simp only
      have h1 := (pushItem_pushed w1 p data).then_same (.kickSend _ p)
      generalize kickSend (pushItem w1 p data) p = w2 at h1 ⊢
      unfold pauseRecv
      split
      · next hp =>
        exact ⟨⟨h1.other, h1.occupied, h1.peerCount⟩, h1.queue, h1.tail, h1.queued, h1.pressure,
          h1.nextItem, .inr ⟨rfl, hp.2⟩⟩
      · exact h1

structure LoadAdded (p : Slot) (w w' : Worker) : Prop where
  other : ∀ q, q ≠ p → w'.ht q = w.ht q
  send : (w'.ht p).send.queue = [] ∧ (w'.ht p).send.tail = none ∧ (w'.ht p).send.queued = 0
  live : (w'.ht p).occupied = .live
  pressure : w'.sendPressure = w.sendPressure
  nextItem : w'.nextItem = w.nextItem
  paused : w'.io.recvPaused = w.io.recvPaused
  countdown : w'.io.recvPauseCountdown = w.io.recvPauseCountdown

theorem AddedAt.load {fd : Fd} {key : Key} {protocol : PeerProtocol} {peerId : ℕ}
    (h : AddedAt w p fd key protocol peerId w') : LoadAdded p w w' := by
  have hflow := h.flow
  obtain ⟨isUnix, ok, ao, routes, io, rfl⟩ := h.eq
  refine ⟨fun q hq => ?_, ?_, ?_, rfl, rfl, hflow.paused, hflow.countdown⟩
  · simp [hq]
  · simp [addedPeer]
  · simp [addedPeer, freshPeer]

structure LoadRemoved (p : Slot) (w w' : Worker) : Prop where
  other : ∀ q, q ≠ p → w'.ht q = w.ht q
  send : (w'.ht p).send.queue = [] ∧ (w'.ht p).send.tail = none ∧ (w'.ht p).send.queued = 0
  dead : (w'.ht p).occupied = .tombstone
  pressure : w'.sendPressure = if w.sendPressure - (w.ht p).send.queued < 0 then 0
    else w.sendPressure - (w.ht p).send.queued
  nextItem : w'.nextItem = w.nextItem
  pause : ∃ peerCount, RemovePause w'.sendPressure peerCount w.io w'.io

theorem RemovedAt.load (h : RemovedAt w p w') : LoadRemoved p w w' := by
  have hpause := h.pause
  obtain ⟨pc, routes, io, rfl⟩ := h.eq
  refine ⟨fun q hq => ?_, ?_, ?_, rfl, rfl, hpause⟩
  · simp [hq]
  · simp [buriedPeer]
  · simp [buriedPeer]

/-! ### All steps -/

/-- What a step of the loop can do to the counts of one worker: `queue` says for
which slots frames are queued, `cut` whether a short write loses its remainder,
`add` which slots are added and `remove` which are removed. -/
inductive LoadStep (queue : Slot → Prop) (cut : Prop) (add remove : Slot → Prop)
    (w w' : Worker) : Prop
  | same : SameLoad w w' → LoadStep queue cut add remove w w'
  | pushed (p : Slot) : queue p → Pushed p w w' → LoadStep queue cut add remove w w'
  | retired (p : Slot) : Retired p w w' → LoadStep queue cut add remove w w'
  | replaced (p : Slot) : Replaced p w w' → LoadStep queue cut add remove w w'
  | cutShort (p : Slot) : cut → CutShort p w w' → LoadStep queue cut add remove w w'
  | added (p : Slot) : add p → LoadAdded p w w' → LoadStep queue cut add remove w w'
  | removed (p : Slot) : remove p → LoadRemoved p w w' → LoadStep queue cut add remove w w'

/-- Where the counter goes wrong: a push on a full ring, a frame queued for a slot
that is not live, and the add of a live key with frames in its queue. -/
def pressureOk (ctx : Ctx) : LoopStep → Prop
  | .enqueue v q _ => ((ctx.workers v).ht q).occupied = .live ∨
      kMaxSendQueueDepth ≤ ((ctx.workers v).ht q).send.queued ∨
      (ctx.workers v).alloc.1 = false
  | .push v dst _ => ((ctx.workers dst).xferInbox v).length + 1 ≠ kXferSpscSize
  | .cmd v (.addPeer fd key _ _) => validFd fd = true →
      ∀ p, htLookup (ctx.workers v) key = some p → ((ctx.workers v).ht p).send.queued = 0
  | _ => True

/-- The removal of the peer in slot `p` of worker `v`. -/
def Removes (ctx : Ctx) (l : LoopStep) (v : ℕ) (p : Slot) : Prop :=
  ∃ key, (l = .cmd v (.removePeer key) ∨ l = .cmd v (.movePeerOut key)) ∧
    htLookup (ctx.workers v) key = some p

section

variable {ctx ctx' : Ctx} {l : LoopStep}

variable {u : ℕ}

theorem setWorker_load {w' : Worker} {queue : Slot → Prop} {cut : Prop} {add remove : Slot → Prop}
    (v : ℕ) (h : v = u → LoadStep queue cut add remove (ctx.workers v) w') :
    LoadStep queue cut add remove (ctx.workers v) ((ctx.setWorker u w').workers v) := by
  by_cases hv : v = u
  · subst hv
    rw [Ctx.setWorker_self]
    exact h rfl
  · rw [Ctx.setWorker_ne ctx w' hv]
    exact .same (.refl _)

theorem xferSpscPush_load {dst : ℕ} {x : Xfer}
    (h : ((ctx.workers dst).xferInbox u).length + 1 ≠ kXferSpscSize) (v : ℕ) :
    SameLoad (ctx.workers v) ((xferSpscPush ctx u dst x).workers v) := by
  have hset : ∀ (ctx : Ctx) (a : ℕ) (w' : Worker), SameLoad (ctx.workers a) w' →
      SameLoad (ctx.workers v) ((ctx.setWorker a w').workers v) := by
    intro ctx a w' hs
    by_cases hv : v = a
    · subst hv
      rw [Ctx.setWorker_self]
      exact hs
    · rw [Ctx.setWorker_ne ctx w' hv]
      exact .refl _
  unfold xferSpscPush
  simp only [h, ite_false]
  have h1 := hset ctx dst { ctx.workers dst with
    xferInbox := Function.update (ctx.workers dst).xferInbox u
      ((ctx.workers dst).xferInbox u ++ [x])
    pendingSources := Function.update (ctx.workers dst).pendingSources u true }
    ⟨fun _ => .refl _, fun _ => rfl, rfl, rfl, rfl, rfl, rfl⟩
  split
  · refine h1.trans (hset _ u _ ?_)
    exact ⟨fun _ => .refl _, fun _ => rfl, rfl, rfl, rfl, rfl, rfl⟩
  · exact h1

theorem allocEnqueue_load {w : Worker} {p : Slot} (data : Bytes) {queue : Slot → Prop} {cut : Prop}
    {add remove : Slot → Prop} (hq : queue p) :
    LoadStep queue cut add remove w (allocEnqueue w p data) := by
  have ha := SameLoad.alloc w
  unfold allocEnqueue
  split
  · next heq =>
    rw [heq] at ha
    exact .same ha
  · next w1 heq =>
    rw [heq] at ha
    rcases enqueueSend_load w1 p data with h | ⟨-, h⟩
    · exact .same (ha.trans h)
    · exact .pushed p hq (h.congr ha)

/-- A step of the loop on worker `v`. -/
abbrev StepLoad (ctx ctx' : Ctx) (l : LoopStep) (v : ℕ) : Prop :=
  LoadStep (fun q => ((ctx.workers v).ht q).occupied = .live)
    (∃ cqe, l = .complete v cqe ∧ CutsShort (ctx.workers v) cqe)
    (fun p => ((ctx.workers v).ht p).occupied = .live → ((ctx.workers v).ht p).send.queued = 0)
    (Removes ctx l v) (ctx.workers v) (ctx'.workers v)

theorem SameLoad.of_ht {w w' : Worker} (hht : w'.ht = w.ht) (hpc : w'.peerCount = w.peerCount)
    (hsp : w'.sendPressure = w.sendPressure) (hni : w'.nextItem = w.nextItem)
    (hio : w.io.SameFlow w'.io) : SameLoad w w' := by
  refine ⟨fun q => ?_, fun q => ?_, hpc, hsp, hni, hio.paused, hio.countdown⟩
  · rw [hht]
    exact .refl _
  · rw [hht]

theorem SameLoad.setPeer (w : Worker) {p : Slot} {e : Peer} (hsend : e.send = (w.ht p).send)
    (hocc : e.occupied = (w.ht p).occupied) : SameLoad w (w.setPeer p e) := by
  refine ⟨fun q => ?_, fun q => ?_, rfl, rfl, rfl, rfl, rfl⟩
  · by_cases hq : q = p <;> simp [Worker.setPeer, hq, hsend, SendState.SameQueue.refl]
  · by_cases hq : q = p <;> simp [Worker.setPeer, hq, hocc]

theorem setWorker_same {w' : Worker} (v : ℕ) (h : SameLoad (ctx.workers u) w') :
    StepLoad ctx (ctx.setWorker u w') l v :=
  setWorker_load v fun hv => .same (hv ▸ h)

section

variable (u : ℕ) (key : Key) (v : ℕ)

theorem addPeer_load (hT : TableOk (ctx.workers u)) {fd : Fd} {protocol : PeerProtocol} {peerId : ℕ}
    (hok : pressureOk ctx (.cmd u (.addPeer fd key protocol peerId))) :
    StepLoad ctx (processCmd ctx u (.addPeer fd key protocol peerId)).1
      (.cmd u (.addPeer fd key protocol peerId)) v := by
  rcases processCmdAdd_record hT fd key protocol peerId with ⟨ao, heq⟩ |
    ⟨p, hvalid, hf, hadd, hothers⟩
  · simp only [processCmd, heq]
    exact setWorker_same v (.of_ht rfl rfl rfl rfl (.refl _))
  · by_cases hv : v = u
    · subst hv
      refine .added p (fun hlive => ?_) hadd.load
      refine hok hvalid p ?_
      rcases LinearProbe.find_some peerView keyHash hf with hh | ⟨hdead, -⟩
      · exact hT.lookup_iff.mpr hh
      · exact absurd hlive hdead
    · obtain ⟨routes, hr⟩ := hothers v hv
      unfold StepLoad
      simp only [processCmd, hr]
      exact .same (.of_ht rfl rfl rfl rfl (.refl _))

theorem removePeer_load : StepLoad ctx (processCmd ctx u (.removePeer key)).1
    (.cmd u (.removePeer key)) v := by
  cases hp : htLookup (ctx.workers u) key with
  | none =>
    simp only [processCmd, processCmdRemove_none hp]
    exact .same (.refl _)
  | some p =>
    obtain ⟨hrem, -, hothers⟩ := processCmdRemove_record hp
    by_cases hv : v = u
    · subst hv
      exact .removed p ⟨key, .inl rfl, hp⟩ hrem.load
    · obtain ⟨routes, hr⟩ := hothers v hv
      unfold StepLoad
      simp only [processCmd, hr]
      exact .same (.of_ht rfl rfl rfl rfl (.refl _))

theorem write_load (hT : TableOk (ctx.workers u)) (data : Bytes) :
    StepLoad ctx (processCmd ctx u (.write key data)).1 (.cmd u (.write key data)) v := by
  simp only [processCmd, processCmdWrite]
  split
  · exact .same (.refl _)
  · next p hp =>
    refine setWorker_load v fun hv => ?_
    subst hv
    exact allocEnqueue_load data (hT.lookup_iff.mp hp).1

theorem setFwdRule_load (dstKey : Key) : StepLoad ctx (processCmd ctx u (.setFwdRule key dstKey)).1
    (.cmd u (.setFwdRule key dstKey)) v := by
  simp only [processCmd, HyperDerp.setFwdRule]
  split
  · exact .same (.refl _)
  · next p _ =>
    split
    · exact .same (.refl _)
    · obtain ⟨a, b, c, d, e, heq⟩ := addRule_same (ctx.workers u) p dstKey
      rw [heq]
      exact setWorker_same v (.setPeer _ rfl rfl)

theorem movePeerOut_load : StepLoad ctx (processCmd ctx u (.movePeerOut key)).1
    (.cmd u (.movePeerOut key)) v := by
  cases hp : htLookup (ctx.workers u) key with
  | none =>
    simp only [processCmd, HyperDerp.movePeerOut, hp]
    exact .same (.refl _)
  | some p =>
    obtain ⟨hrem, hothers⟩ := movePeerOut_record hp
    by_cases hv : v = u
    · subst hv
      exact .removed p ⟨key, .inr rfl, hp⟩ hrem.load
    · unfold StepLoad
      simp only [processCmd, hothers v hv]
      exact .same (.refl _)

end

theorem processCmd_load (hT : ∀ v, TableOk (ctx.workers v)) {c : Cmd}
    (hok : pressureOk ctx (.cmd u c)) (v : ℕ) :
    StepLoad ctx (processCmd ctx u c).1 (.cmd u c) v := by
  cases c with
  | addPeer fd key protocol peerId => exact addPeer_load u key v (hT u) hok
  | removePeer key => exact removePeer_load u key v
  | write key data => exact write_load u key v (hT u) data
  | setFwdRule key dstKey => exact setFwdRule_load u key v dstKey
  | movePeerOut key => exact movePeerOut_load u key v
  | stop => exact setWorker_same v (.of_ht rfl rfl rfl rfl (.refl _))

theorem enqueue_load {q : Slot} {data : Bytes} (hok : pressureOk ctx (.enqueue u q data)) (v : ℕ) :
    StepLoad ctx (ctx.setWorker u (enqueueSend (ctx.workers u) q data))
      (.enqueue u q data) v := by
  refine setWorker_load v fun hv => ?_
  subst hv
  rcases enqueueSend_load (ctx.workers v) q data with h | ⟨hd, h⟩
  · exact .same h
  · exact .pushed q (hok.resolve_right hd) h

theorem complete_load (u : ℕ) (cqe : Cqe) (v : ℕ) :
    StepLoad ctx (ctx.setWorker u (handleSendCqe (ctx.workers u) cqe)) (.complete u cqe) v := by
  refine setWorker_load v fun hv => ?_
  subst hv
  rcases handleSendCqe_load (ctx.workers v) cqe with h | ⟨p, h⟩ | ⟨p, h⟩ | ⟨hc, p, h⟩
  · exact .same h
  · exact .retired p h
  · exact .replaced p h
  · exact .cutShort p ⟨cqe, rfl, hc⟩ h

theorem receive_load (w : Worker) (q : Slot) (rbuf : Bytes) (window start : ℕ) (inflight : ℤ)
    (multishot : Bool) : SameLoad w { w.setPeer q { w.ht q with
      rbuf := rbuf, recvBytesWindow := window, windowStartNs := start } with
        io := { w.io with recvInflight := inflight, useMultishotRecv := multishot } } := by
  have h := SameLoad.setPeer w (p := q)
    (e := { w.ht q with rbuf := rbuf, recvBytesWindow := window, windowStartNs := start }) rfl rfl
  exact ⟨h.send, h.occupied, rfl, rfl, rfl, rfl, rfl⟩

theorem submitRecv_load (w : Worker) (fd : Fd) : SameLoad w (submitRecv w fd) := by
  have hflow := Io.SameFlow.submitRecv w fd
  obtain ⟨io, hio⟩ := submitRecv_io w fd
  rw [hio] at hflow ⊢
  exact .of_ht rfl rfl rfl rfl hflow

theorem drainDeferredRecvs_load (w : Worker) : SameLoad w (drainDeferredRecvs w) := by
  have hflow := Io.SameFlow.drainDeferredRecvs w
  obtain ⟨io, hio⟩ := drainDeferredRecvs_io w
  rw [hio] at hflow ⊢
  exact .of_ht rfl rfl rfl rfl hflow

theorem loopStep_load (hT : ∀ v, TableOk (ctx.workers v)) (hok : pressureOk ctx l)
    (hs : loopStep ctx l = some ctx') (v : ℕ) :
    LoadStep (fun q => ((ctx.workers v).ht q).occupied = .live)
      (∃ cqe, l = .complete v cqe ∧ CutsShort (ctx.workers v) cqe)
      (fun p => ((ctx.workers v).ht p).occupied = .live → ((ctx.workers v).ht p).send.queued = 0)
      (Removes ctx l v) (ctx.workers v) (ctx'.workers v) := by
  cases l with
  | enqueue u q data =>
    cases hs
    exact enqueue_load hok v
  | push u dst x =>
    cases hs
    exact .same (xferSpscPush_load hok v)
  | take u src =>
    cases hs
    exact setWorker_same v (.of_ht rfl rfl rfl rfl (.refl _))
  | collect u =>
    cases hs
    exact setWorker_same v (.of_ht rfl rfl rfl rfl (.refl _))
  | rules u p a b c d =>
    cases hs
    exact setWorker_same v (.setPeer _ rfl rfl)
  | account u a b c =>
    cases hs
    exact setWorker_same v (.of_ht rfl rfl rfl rfl (.refl _))
  | complete u cqe =>
    cases hs
    exact complete_load u cqe v
  | pollWrite u fd =>
    cases hs
    exact setWorker_same v (.handlePollWrite _ fd)
  | flush u =>
    cases hs
    exact setWorker_same v (.flushPendingSends _)
  | cmd u c =>
    cases hs
    exact processCmd_load hT hok v
  | eof u fd =>
    simp only [loopStep] at hs
    split at hs
    · cases hs
    · cases hs
      exact setWorker_same v (.of_ht rfl rfl rfl rfl (.refl _))
  | receive u q rbuf window start inflight multishot =>
    cases hs
    exact setWorker_same v (receive_load _ q rbuf window start inflight multishot)
  | rearm u fd =>
    cases hs
    exact setWorker_same v (submitRecv_load _ fd)
  | deferred u =>
    cases hs
    exact setWorker_same v (drainDeferredRecvs_load _)

end

/-! ### The count is exact -/

structure Accounted (w : Worker) : Prop where
  load : ∀ q, ((w.ht q).send.queue.length : ℤ) ≤ (w.ht q).send.queued
  dead : ∀ q, (w.ht q).occupied ≠ .live → (w.ht q).send.queued = 0
  pressure : w.sendPressure = ∑ q, (w.ht q).send.queued

theorem sum_change {f g : Slot → ℤ} (p : Slot) (h : ∀ q, q ≠ p → g q = f q) :
    ∑ q, g q = (∑ q, f q) - f p + g p := by
  have hf := Finset.add_sum_erase Finset.univ f (Finset.mem_univ p)
  have hg := Finset.add_sum_erase Finset.univ g (Finset.mem_univ p)
  have he : ∑ q ∈ Finset.univ.erase p, g q = ∑ q ∈ Finset.univ.erase p, f q := by
    apply Finset.sum_congr rfl
    intro q hq
    exact h q (Finset.ne_of_mem_erase hq)
  rw [← hf, ← hg, he]
  omega

namespace Accounted

variable {w w' : Worker} {p : Slot}

theorem nonneg (h : Accounted w) (q : Slot) : 0 ≤ (w.ht q).send.queued := by
  have hl := h.load q
  omega

theorem le_pressure (h : Accounted w) (q : Slot) : (w.ht q).send.queued ≤ w.sendPressure := by
  rw [h.pressure]
  exact Finset.single_le_sum (f := fun q => (w.ht q).send.queued) (fun r _ => h.nonneg r)
    (Finset.mem_univ q)

theorem same (h : Accounted w) (hs : SameLoad w w') : Accounted w' where
  load q := by
    rw [(hs.send q).queue, (hs.send q).queued]
    exact h.load q
  dead q hq := by
    rw [hs.occupied] at hq
    rw [(hs.send q).queued]
    exact h.dead q hq
  pressure := by
    rw [hs.pressure, h.pressure]
    exact Finset.sum_congr rfl fun q _ => ((hs.send q).queued).symm

theorem change (h : Accounted w) (ho : ∀ q, q ≠ p → (w.ht q).send.SameQueue (w'.ht q).send)
    (hocc : ∀ q, q ≠ p → (w'.ht q).occupied = (w.ht q).occupied)
    (hload : ((w'.ht p).send.queue.length : ℤ) ≤ (w'.ht p).send.queued)
    (hdead : (w'.ht p).occupied ≠ .live → (w'.ht p).send.queued = 0)
    (hp : w'.sendPressure = w.sendPressure - (w.ht p).send.queued + (w'.ht p).send.queued) :
    Accounted w' where
  load q := by
    by_cases hq : q = p
    · rw [hq]
      exact hload
    · rw [(ho q hq).queue, (ho q hq).queued]
      exact h.load q
  dead q hd := by
    by_cases hq : q = p
    · rw [hq] at hd ⊢
      exact hdead hd
    · rw [hocc q hq] at hd
      rw [(ho q hq).queued]
      exact h.dead q hd
  pressure := by
    rw [hp, h.pressure, sum_change (f := fun q => (w.ht q).send.queued) p
      fun q hq => (ho q hq).queued]

theorem push_length_le (s : SendState) (item : SendItem) :
    (s.push item).queue.length ≤ s.queue.length + 1 := by
  have key : ∀ (q : List SendItem) (t : ℕ), (linkAfter q t item).length ≤ q.length + 1 := by
    intro q t
    induction q with
    | nil => exact Nat.zero_le _
    | cons y q ih =>
      simp only [linkAfter]
      split
      · simp
      · simp only [List.length_cons]
        omega
  unfold SendState.push
  dsimp only
  split
  · exact key _ _
  · simp

theorem pushed (h : Accounted w) (hl : (w.ht p).occupied = .live) (hs : Pushed p w w') :
    Accounted w' := by
  obtain ⟨data, hq⟩ := hs.queue
  have hlen := push_length_le (w.ht p).send ⟨w.nextItem, data⟩
  have hload := h.load p
  apply h.change hs.other (fun q _ => hs.occupied q)
  · rw [hq, hs.queued]
    omega
  · intro hd
    rw [hs.occupied] at hd
    exact absurd hl hd
  · rw [hs.pressure, hs.queued]
    omega

theorem headGone_length {s s' : SendState} (h : HeadGone s s') :
    s'.queue.length + 1 = s.queue.length := by
  obtain ⟨x, hx⟩ := h.queue
  rw [hx, List.length_cons]

theorem retired (h : Accounted w) (hs : Retired p w w') : Accounted w' := by
  have hlen := headGone_length hs.gone
  have hload := h.load p
  have hle := h.le_pressure p
  have hpos : 0 < (w.ht p).send.queued := by omega
  have hpress : 0 < w.sendPressure := by omega
  have hq := hs.queued
  have hp := hs.pressure
  rw [if_pos hpos] at hq
  rw [if_pos hpress] at hp
  apply h.change hs.other (fun q _ => hs.occupied q)
  · omega
  · intro hd
    rw [hs.occupied] at hd
    have hz := h.dead p hd
    omega
  · omega

theorem replaced (h : Accounted w) (hs : Replaced p w w') : Accounted w' := by
  obtain ⟨x, data, rest, hx, hq, -⟩ := hs.queue
  have hload := h.load p
  rw [hx] at hload
  apply h.change hs.other (fun q _ => hs.occupied q)
  · rw [hq, hs.queued]
    exact hload
  · intro hd
    rw [hs.occupied] at hd
    rw [hs.queued]
    exact h.dead p hd
  · rw [hs.pressure, hs.queued]
    omega

theorem cutShort (h : Accounted w) (hs : CutShort p w w') : Accounted w' := by
  have hlen := headGone_length hs.gone
  have hload := h.load p
  apply h.change hs.other (fun q _ => hs.occupied q)
  · rw [hs.queued]
    omega
  · intro hd
    rw [hs.occupied] at hd
    rw [hs.queued]
    exact h.dead p hd
  · rw [hs.pressure, hs.queued]
    omega

theorem added (h : Accounted w) (hz : (w.ht p).occupied = .live → (w.ht p).send.queued = 0)
    (hs : LoadAdded p w w') : Accounted w' := by
  obtain ⟨hq, -, hn⟩ := hs.send
  have hzero : (w.ht p).send.queued = 0 := by
    by_cases hl : (w.ht p).occupied = .live
    · exact hz hl
    · exact h.dead p hl
  apply h.change (p := p) (fun q hne => ?_) (fun q hne => ?_)
  · rw [hq, hn]
    exact Int.le_refl 0
  · exact fun _ => hn
  · rw [hs.pressure, hn, hzero]
    omega
  · rw [hs.other q hne]
    exact .refl _
  · rw [hs.other q hne]

theorem removed (h : Accounted w) (hs : LoadRemoved p w w') : Accounted w' := by
  obtain ⟨hq, -, hn⟩ := hs.send
  have hle := h.le_pressure p
  have hp := hs.pressure
  rw [if_neg (by omega)] at hp
  apply h.change (p := p) (fun q hne => ?_) (fun q hne => ?_)
  · rw [hq, hn]
    exact Int.le_refl 0
  · exact fun _ => hn
  · rw [hp, hn]
    omega
  · rw [hs.other q hne]
    exact .refl _
  · rw [hs.other q hne]

theorem step (h : Accounted w) {cut : Prop} {remove : Slot → Prop}
    (hs : LoadStep (fun q => (w.ht q).occupied = .live) cut
      (fun p => (w.ht p).occupied = .live → (w.ht p).send.queued = 0) remove w w') :
    Accounted w' := by
  cases hs with
  | same hs => exact h.same hs
  | pushed p hl hs => exact h.pushed hl hs
  | retired p hs => exact h.retired hs
  | replaced p hs => exact h.replaced hs
  | cutShort p _ hs => exact h.cutShort hs
  | added p hz hs => exact h.added hz hs
  | removed p _ hs => exact h.removed hs

end Accounted

def liveLoad (w : Worker) : ℤ :=
  ∑ q ∈ Finset.univ.filter fun q => (w.ht q).occupied = .live, (w.ht q).send.queued

theorem Accounted.liveLoad (h : Accounted w) : w.sendPressure = liveLoad w := by
  rw [h.pressure, HyperDerp.liveLoad, Finset.sum_filter]
  apply Finset.sum_congr rfl
  intro q _
  split
  · rfl
  · next hd => exact h.dead q hd

theorem accounted_init : Accounted {} :=
  ⟨fun _ => Int.le_refl 0, fun _ _ => rfl, by simp⟩

theorem reach_accounted {ctx : Ctx} (h : Runs.Reach dpInit loopStep pressureOk ctx) (v : ℕ) :
    TableOk (ctx.workers v) ∧ Accounted (ctx.workers v) := by
  revert v
  apply h.invariant (P := fun ctx => ∀ v, TableOk (ctx.workers v) ∧ Accounted (ctx.workers v))
  · intro ctx h0 v
    rw [h0 v]
    exact ⟨tableOk_empty, accounted_init⟩
  · intro ctx ctx' l hi hok hs v
    have hT : ∀ v, TableOk (ctx.workers v) := fun v => (hi v).1
    exact ⟨loopStep_tableOk hT hs v, (hi v).2.step (loopStep_load hT hok hs v)⟩

/-- Along every run without a push on a full ring, a frame queued for a slot that
is not live, or the add of a live key with frames queued, `send_pressure` of
every worker is the number of frames queued on its live peers. -/
theorem pressure_counts_live_queues {ctx : Ctx} (h : Runs.Reach dpInit loopStep pressureOk ctx)
    (v : ℕ) :
    (ctx.workers v).sendPressure = liveLoad (ctx.workers v) :=
  (reach_accounted h v).2.liveLoad

/-- A peer with one frame queued is added again on another descriptor. -/
def readded : List LoopStep :=
  [.cmd 0 (.addPeer 3 zeroKey .kDerp 0), .enqueue 0 (homeSlot zeroKey) [7],
    .cmd 0 (.addPeer 4 zeroKey .kDerp 0)]

/-- The frame of the re-added peer is counted forever. -/
theorem readd_leaves_pressure :
    ¬∀ ctx, Runs.Reach dpInit loopStep Runs.Any ctx →
      ∀ v, (ctx.workers v).sendPressure = liveLoad (ctx.workers v) := by
  intro hall
  have hrun : (Runs.run loopStep twoWorkers readded).map (fun ctx =>
      ((ctx.workers 0).sendPressure, liveLoad (ctx.workers 0))) = some (1, 0) := by
    decide +kernel
  obtain ⟨ctx, hctx, heq⟩ := Option.map_eq_some_iff.mp hrun
  have h := hall ctx (Runs.reach_of_run twoWorkers_init hctx) 0
  rw [Prod.mk.injEq] at heq
  omega

/-- One frame queued on a live peer is counted. -/
theorem queued_frame_counts :
    ∃ ctx, Runs.run loopStep twoWorkers (readded.take 2) = some ctx ∧
      Runs.Reach dpInit loopStep pressureOk ctx ∧
      (ctx.workers 0).sendPressure = liveLoad (ctx.workers 0) ∧ liveLoad (ctx.workers 0) = 1 := by
  have hrun : (Runs.run loopStep twoWorkers (readded.take 2)).map
      (fun ctx => liveLoad (ctx.workers 0)) = some 1 := by
    decide +kernel
  obtain ⟨ctx, hctx, hload⟩ := Option.map_eq_some_iff.mp hrun
  have hreach : Runs.Reach dpInit loopStep pressureOk ctx := by
    refine Runs.reach_run (.start twoWorkers twoWorkers_init) ?_ hctx
    refine ⟨fun _ p hp => ?_, fun c1 h1 => ⟨.inl ?_, fun _ _ => trivial⟩⟩
    · have hnone : htLookup (twoWorkers.workers 0) zeroKey = none := by decide
      rw [hnone] at hp
      cases hp
    · cases h1
      decide
  exact ⟨ctx, hctx, hreach, pressure_counts_live_queues hreach 0, hload⟩

/-! ### A way out of the pause -/

structure Resumable (w : Worker) : Prop extends Accounted w where
  link : ∀ q, (w.ht q).send.Linkage w.nextItem
  count : ∀ q, (w.ht q).send.queued ≤ (w.ht q).send.queue.length
  wait : w.io.recvPaused = true →
    0 ≤ w.io.recvPauseCountdown ∧ w.io.recvPauseCountdown < w.sendPressure

theorem sendPressureHigh_ge (peerCount : ℤ) : kPressurePerPeer ≤ sendPressureHigh peerCount := by
  unfold sendPressureHigh kSendPressureMax kPressurePerPeer
  dsimp only
  split <;> split <;> omega

theorem sendPressureLow_nonneg (peerCount : ℤ) : 0 ≤ sendPressureLow peerCount := by
  have hh := sendPressureHigh_ge peerCount
  have hd : 0 ≤ pressureResumeDiv peerCount := by
    unfold pressureResumeDiv
    split
    · omega
    · split <;> omega
  unfold kPressurePerPeer at hh
  exact Int.ediv_nonneg (by omega) hd

namespace Resumable

variable {w w' : Worker} {p : Slot}

theorem init : Resumable {} where
  toAccounted := accounted_init
  link _ := .empty rfl rfl
  count _ := Int.le_refl 0
  wait h := Bool.noConfusion h

theorem same (h : Resumable w) (hs : SameLoad w w') : Resumable w' where
  toAccounted := h.toAccounted.same hs
  link q := by
    rw [hs.nextItem]
    exact (h.link q).congr (hs.send q).queue (hs.send q).tail
  count q := by
    rw [(hs.send q).queue, (hs.send q).queued]
    exact h.count q
  wait hp := by
    rw [hs.paused] at hp
    rw [hs.countdown, hs.pressure]
    exact h.wait hp

theorem change (h : Resumable w) (ha : Accounted w')
    (ho : ∀ q, q ≠ p → (w.ht q).send.SameQueue (w'.ht q).send) (hn : w.nextItem ≤ w'.nextItem)
    (hlink : (w'.ht p).send.Linkage w'.nextItem)
    (hcount : (w'.ht p).send.queued ≤ (w'.ht p).send.queue.length)
    (hwait : w'.io.recvPaused = true →
      0 ≤ w'.io.recvPauseCountdown ∧ w'.io.recvPauseCountdown < w'.sendPressure) :
    Resumable w' where
  toAccounted := ha
  link q := by
    by_cases hq : q = p
    · rw [hq]
      exact hlink
    · exact ((h.link q).congr (ho q hq).queue (ho q hq).tail).mono hn
  count q := by
    by_cases hq : q = p
    · rw [hq]
      exact hcount
    · rw [(ho q hq).queue, (ho q hq).queued]
      exact h.count q
  wait := hwait

theorem pushed (h : Resumable w) (hl : (w.ht p).occupied = .live) (hs : Pushed p w w') :
    Resumable w' := by
  obtain ⟨data, hq⟩ := hs.queue
  have hpress := hs.pressure
  apply h.change (h.toAccounted.pushed hl hs) hs.other
  · rw [hs.nextItem]
    omega
  · rw [hs.nextItem]
    exact ((h.link p).push data).congr hq hs.tail
  · have hc := h.count p
    rw [hq, (h.link p).push_queue, List.length_append, hs.queued, List.length_singleton]
    omega
  · intro hp
    rcases hs.pause with ⟨h1, h2⟩ | ⟨h1, h2⟩
    · rw [h1] at hp
      have hw := h.wait hp
      omega
    · -- the pause starts at the high mark, far above the countdown
      have hhigh := sendPressureHigh_ge w'.peerCount
      unfold kPressurePerPeer at hhigh
      unfold kRecvPauseMinBatches at h1
      omega

theorem retired (h : Resumable w) (hs : Retired p w w') : Resumable w' := by
  obtain ⟨x, hx⟩ := hs.gone.queue
  have hlen := congrArg List.length hx
  rw [List.length_cons] at hlen
  have hload := h.load p
  have hcount := h.count p
  have hle := h.le_pressure p
  have hq := hs.queued
  have hp := hs.pressure
  rw [if_pos (by omega)] at hq hp
  apply h.change (h.toAccounted.retired hs) hs.other (Nat.le_of_eq hs.nextItem.symm)
  · rw [hs.nextItem]
    exact (h.link p).dropHead hx rfl hs.gone.tail
  · omega
  · intro hpaused
    cases hs.pause with
    | running _ h2 => exact absurd hpaused (by rw [h2]; exact Bool.false_ne_true)
    | resumed h2 => exact absurd hpaused (by rw [h2]; exact Bool.false_ne_true)
    | counting h1 h2 _ h4 =>
      have hw := h.wait h1
      omega
    | waiting h1 h2 h3 h4 =>
      have hw := h.wait h1
      have hlow := sendPressureLow_nonneg w'.peerCount
      omega

theorem replaced (h : Resumable w) (hs : Replaced p w w') : Resumable w' := by
  obtain ⟨x, data, rest, hx, hq, ht⟩ := hs.queue
  apply h.change (h.toAccounted.replaced hs) hs.other
  · rw [hs.nextItem]
    omega
  · rw [hs.nextItem]
    exact (h.link p).replaceHead hx hq ht
  · have hc := h.count p
    rw [hx] at hc
    rw [hq, hs.queued]
    exact hc
  · intro hp
    rw [hs.paused] at hp
    rw [hs.countdown, hs.pressure]
    exact h.wait hp

theorem added (h : Resumable w) (hz : (w.ht p).occupied = .live → (w.ht p).send.queued = 0)
    (hs : LoadAdded p w w') : Resumable w' := by
  obtain ⟨hq, ht, hn⟩ := hs.send
  apply h.change (p := p) (h.toAccounted.added hz hs) (fun q hne => ?_)
    (Nat.le_of_eq hs.nextItem.symm)
  · exact .empty hq ht
  · rw [hq, hn]
    exact Int.le_refl 0
  · intro hp
    rw [hs.paused] at hp
    rw [hs.countdown, hs.pressure]
    exact h.wait hp
  · rw [hs.other q hne]
    exact .refl _

theorem removed (h : Resumable w) (hs : LoadRemoved p w w')
    (hok : w.io.recvPaused = true → w.io.recvPauseCountdown ≤ 0 ∨
      w.io.recvPauseCountdown < w.sendPressure - (w.ht p).send.queued) : Resumable w' := by
  obtain ⟨hq, ht, hn⟩ := hs.send
  have hle := h.le_pressure p
  have hp := hs.pressure
  rw [if_neg (by omega)] at hp
  apply h.change (p := p) (h.toAccounted.removed hs) (fun q hne => ?_)
    (Nat.le_of_eq hs.nextItem.symm)
  · exact .empty hq ht
  · rw [hq, hn]
    exact Int.le_refl 0
  · intro hpaused
    obtain ⟨peerCount, hres | ⟨hio, hlow⟩⟩ := hs.pause
    · exact absurd hpaused (by rw [hres]; exact Bool.false_ne_true)
    · rw [hio] at hpaused ⊢
      have hw := h.wait hpaused
      have hnn := sendPressureLow_nonneg peerCount
      rcases hok hpaused with hc | hc
      · have hl := hlow hc
        omega
      · omega
  · rw [hs.other q hne]
    exact .refl _

theorem step (h : Resumable w) {remove : Slot → Prop}
    (hs : LoadStep (fun q => (w.ht q).occupied = .live) False
      (fun p => (w.ht p).occupied = .live → (w.ht p).send.queued = 0) remove w w')
    (hok : ∀ p, remove p → w.io.recvPaused = true → w.io.recvPauseCountdown ≤ 0 ∨
      w.io.recvPauseCountdown < w.sendPressure - (w.ht p).send.queued) : Resumable w' := by
  cases hs with
  | same hs => exact h.same hs
  | pushed p hl hs => exact h.pushed hl hs
  | retired p hs => exact h.retired hs
  | replaced p hs => exact h.replaced hs
  | cutShort p hc hs => exact hc.elim
  | added p hz hs => exact h.added hz hs
  | removed p hr hs => exact h.removed hs (hok p hr)

theorem exists_queue (h : Resumable w) (hp : 0 < w.sendPressure) :
    ∃ q, (w.ht q).occupied = .live ∧ (w.ht q).send.queue ≠ [] := by
  rw [h.pressure] at hp
  obtain ⟨q, -, hq⟩ : ∃ q ∈ Finset.univ, 0 < (w.ht q).send.queued := by
    by_contra hno
    push Not at hno
    have hsum := Finset.sum_nonpos hno
    omega
  refine ⟨q, ?_, fun hnil => ?_⟩
  · by_contra hd
    have hz := h.dead q hd
    omega
  · have hc := h.count q
    rw [hnil, List.length_nil] at hc
    omega

end Resumable

/-- Beside the steps that break the count, a short write that loses its remainder
leaves a frame counted that no completion takes back, and a removal during the
countdown can take away the sends it waits for. -/
def pauseOk (ctx : Ctx) (l : LoopStep) : Prop :=
  pressureOk ctx l ∧ (∀ v cqe, l = .complete v cqe → ¬CutsShort (ctx.workers v) cqe) ∧
    ∀ v p, Removes ctx l v p → (ctx.workers v).io.recvPaused = true →
      (ctx.workers v).io.recvPauseCountdown ≤ 0 ∨ (ctx.workers v).io.recvPauseCountdown <
        (ctx.workers v).sendPressure - ((ctx.workers v).ht p).send.queued

/-- Along every such run a paused worker has a live peer with a send to complete. -/
theorem paused_has_queued_send {ctx : Ctx} (h : Runs.Reach dpInit loopStep pauseOk ctx) (v : ℕ)
    (hp : (ctx.workers v).io.recvPaused = true) :
    ∃ q, ((ctx.workers v).ht q).occupied = .live ∧ ((ctx.workers v).ht q).send.queue ≠ [] := by
  have hinv : ∀ v, TableOk (ctx.workers v) ∧ Resumable (ctx.workers v) := by
    apply h.invariant (P := fun ctx => ∀ v, TableOk (ctx.workers v) ∧ Resumable (ctx.workers v))
    · intro ctx h0 v
      rw [h0 v]
      exact ⟨tableOk_empty, .init⟩
    · intro ctx ctx' l hi hok hs v
      have hT : ∀ v, TableOk (ctx.workers v) := fun v => (hi v).1
      have hstep := loopStep_load hT hok.1 hs v
      have hcut : (∃ cqe, l = .complete v cqe ∧ CutsShort (ctx.workers v) cqe) = False := by
        apply eq_false
        intro ⟨cqe, hl, hc⟩
        exact hok.2.1 v cqe hl hc
      rw [hcut] at hstep
      exact ⟨loopStep_tableOk hT hs v, (hi v).2.step hstep (hok.2.2 v)⟩
  have hw := (hinv v).2.wait hp
  exact (hinv v).2.exists_queue (by omega)

/-- A peer with as many frames queued as pause the worker. -/
def pausedByOne : List LoopStep :=
  .cmd 0 (.addPeer 3 zeroKey .kDerp 0) :: List.replicate 512 (.enqueue 0 (homeSlot zeroKey) [])

theorem pausedByOne_ok : Runs.RunOk loopStep pauseOk twoWorkers pausedByOne := by
  have hplain : ∀ ctx l, pressureOk ctx l → (∀ v cqe, l ≠ .complete v cqe) →
      (∀ v key, l ≠ .cmd v (.removePeer key) ∧ l ≠ .cmd v (.movePeerOut key)) → pauseOk ctx l := by
    intro ctx l h1 h2 h3
    refine ⟨h1, fun v cqe hl => absurd hl (h2 v cqe), fun v p hr => ?_⟩
    obtain ⟨key, hl | hl, -⟩ := hr
    · exact absurd hl (h3 v key).1
    · exact absurd hl (h3 v key).2
  refine ⟨hplain _ _ (fun _ p hp => ?_) (by simp) (by simp), fun ctx hctx => ?_⟩
  · have hnone : htLookup (twoWorkers.workers 0) zeroKey = none := by decide
    rw [hnone] at hp
    cases hp
  · apply Runs.runOk_of_kept
      (P := fun ctx => ((ctx.workers 0).ht (homeSlot zeroKey)).occupied = .live)
    · intro ctx hlive l hl
      obtain rfl := List.eq_of_mem_replicate hl
      exact hplain _ _ (.inl hlive) (by simp) (by simp)
    · intro ctx ctx' hlive l hl hs
      obtain rfl := List.eq_of_mem_replicate hl
      cases hs
      rw [Ctx.onWorker, Ctx.setWorker_self]
      rcases enqueueSend_load (ctx.workers 0) (homeSlot zeroKey) [] with h | ⟨-, h⟩
      · exact (h.occupied _).trans hlive
      · exact (h.occupied _).trans hlive
    · cases hctx
      decide

/-- The frames that pause a worker are sends it waits for. -/
theorem paused_worker_waits :
    ∃ ctx, Runs.run loopStep twoWorkers pausedByOne = some ctx ∧
      Runs.Reach dpInit loopStep pauseOk ctx ∧ (ctx.workers 0).io.recvPaused = true ∧
      ∃ q, ((ctx.workers 0).ht q).occupied = .live ∧ ((ctx.workers 0).ht q).send.queue ≠ [] := by
  have hrun : (Runs.run loopStep twoWorkers pausedByOne).map
      (fun ctx => (ctx.workers 0).io.recvPaused) = some true := by
    decide +kernel
  obtain ⟨ctx, hctx, hpaused⟩ := Option.map_eq_some_iff.mp hrun
  have hreach : Runs.Reach dpInit loopStep pauseOk ctx :=
    Runs.reach_run (.start twoWorkers twoWorkers_init) pausedByOne_ok hctx
  exact ⟨ctx, hctx, hreach, hpaused, paused_has_queued_send hreach 0 hpaused⟩

/-- When that peer is removed, the worker stays paused and no frame is left. -/
theorem removal_leaves_pause :
    ¬∀ ctx, Runs.Reach dpInit loopStep Runs.Any ctx →
      ∀ v, (ctx.workers v).io.recvPaused = true →
        ∃ q, ((ctx.workers v).ht q).occupied = .live ∧ ((ctx.workers v).ht q).send.queue ≠ [] := by
  intro hall
  have hrun : (Runs.run loopStep twoWorkers (pausedByOne ++ [LoopStep.cmd 0 (.removePeer zeroKey)])).map
      (fun ctx => ((ctx.workers 0).io.recvPaused, (ctx.workers 0).sendPressure)) =
        some (true, 0) := by
    decide +kernel
  obtain ⟨ctx, hctx, heq⟩ := Option.map_eq_some_iff.mp hrun
  rw [Prod.mk.injEq] at heq
  -- the counts stay exact, so no pressure means no frame
  have hok : Runs.RunOk loopStep pressureOk twoWorkers
      (pausedByOne ++ [LoopStep.cmd 0 (.removePeer zeroKey)]) :=
    Runs.runOk_snoc (pausedByOne_ok.mono fun _ _ h => h.1) fun _ => trivial
  obtain ⟨-, hacc⟩ := reach_accounted
    (Runs.reach_run (.start twoWorkers twoWorkers_init) hok hctx) 0
  obtain ⟨q, -, hq⟩ := hall ctx (Runs.reach_of_run twoWorkers_init hctx) 0 heq.1
  have hle := hacc.le_pressure q
  have hload := hacc.load q
  exact hq (List.length_eq_zero_iff.mp (by omega))

end HyperDerp
