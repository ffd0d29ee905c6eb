import HyperDerp.DataPlane.Tables

/-!
# Per-peer send queue (`data_plane.cc:902-1045`, `:1812-2036`)

A peer's queue is a singly linked list with a head, a tail and `send_next`, the
first node not handed to the kernel. The list is modelled by its nodes in order
and the two inner pointers by node addresses: following a pointer that is not
in the list yields nothing.

Sends, the poll that waits for a writable socket and the handlers of their
completions act on one worker.
-/

namespace HyperDerp

/-! ### Linked-list access -/

/-- The node at address `id`. -/
def nodeAt (q : List SendItem) (id : ℕ) : Option SendItem := q.find? fun x => x.id = id

/-- `node->next` of the node at address `id`. -/
def nodeNext : List SendItem → ℕ → Option ℕ
  | [], _ => none
  | x :: xs, id => if x.id = id then xs.head?.map SendItem.id else nodeNext xs id

/-- `node->next = item` at address `id`. -/
def linkAfter : List SendItem → ℕ → SendItem → List SendItem
  | [], _, _ => []
  | x :: xs, id, item => if x.id = id then [x, item] else x :: linkAfter xs id item

/-! ### Submission from `send_next` -/

def Worker.setSend (w : Worker) (p : Slot) (s : SendState) : Worker :=
  w.setPeer p { w.ht p with send := s }

/-- Submit the node at `send_next` and advance; `false` when no entry was
available. This block stands in six places of the source. -/
def submitNext (w : Worker) (p : Slot) : Bool × Worker :=
  let s := (w.ht p).send
  match s.next with
  | none => (false, w)
  | some id =>
    match nodeAt s.queue id with
    | none => (false, w)
    | some item =>
      let next := nodeNext s.queue id
      match submitPeerSend w p item next.isSome with
      | (false, w) => (false, w)
      | (true, w) => (true, w.setSend p { s with next := next, inflight := s.inflight + 1 })

/-- The submission loop, at most `n` turns. -/
def submitBatch : ℕ → Worker → Slot → Worker
  | 0, w, _ => w
  | n + 1, w, p =>
    if (w.ht p).send.next.isSome ∧ (w.ht p).send.inflight < kMaxSendsInflight then
      match submitNext w p with
      | (true, w) => submitBatch n w p
      | (false, w) => w
    else w

/-! ### `EnqueueSend` -/

/-- Append a node (`data_plane.cc:921-934`). -/
def SendState.push (s : SendState) (item : SendItem) : SendState :=
  { s with
    queue := match s.tail with
      | some t => linkAfter s.queue t item
      | none => [item]
    tail := some item.id
    queued := s.queued + 1
    next := match s.next with
      | some n => some n
      | none => some item.id }

/-- Pause receives under send pressure (`data_plane.cc:959-964`). -/
def pauseRecv (w : Worker) : Worker :=
  if w.io.recvPaused = false ∧ sendPressureHigh w.peerCount ≤ w.sendPressure then
    { w with
      io := { w.io with recvPaused := true, recvPauseCountdown := kRecvPauseMinBatches }
      stats := { w.stats with recvPauses := w.stats.recvPauses + 1 } }
  else w

/-- Start sending after an append: a first send is deferred to the end of the
batch, a running pipeline is topped up (`data_plane.cc:936-957`). -/
def kickSend (w : Worker) (p : Slot) : Worker :=
  let s := (w.ht p).send
  if s.inflight = 0 ∧ s.pending = false ∧ s.zcDraining = false then
    let w1 := w.setSend p { s with pending := true }
    if w1.pendingFds.length < kMaxCqeBatch then
      { w1 with pendingFds := w1.pendingFds ++ [(w1.ht p).fd] }
    else w1
  else if 0 < s.inflight ∧ s.inflight < kMaxSendsInflight ∧ s.next.isSome ∧
      s.zcDraining = false then (submitNext w p).2
  else w

def pushItem (w : Worker) (p : Slot) (data : Bytes) : Worker :=
  let item : SendItem := ⟨w.nextItem, data⟩
  { w.setSend p ((w.ht p).send.push item) with
    nextItem := w.nextItem + 1
    sendPressure := w.sendPressure + 1 }

/-- `EnqueueSend` (`data_plane.cc:904-965`). -/
def enqueueSend (w : Worker) (p : Slot) (data : Bytes) : Worker :=
  if kMaxSendQueueDepth ≤ (w.ht p).send.queued then
    { w with stats := { w.stats with sendQueueDrops := w.stats.sendQueueDrops + 1 } }
  else
    match w.alloc with
    | (false, w) => { w with stats := { w.stats with slabExhausts := w.stats.slabExhausts + 1 } }
    | (true, w) => pauseRecv (kickSend (pushItem w p data) p)

/-! ### `DrainSendQueue` -/

/-- Resume receives when the pressure is gone (`data_plane.cc:987-997`). -/
def relieveRecv (w : Worker) : Worker :=
  if w.io.recvPaused then
    if 0 < w.io.recvPauseCountdown then
      { w with io := { w.io with recvPauseCountdown := w.io.recvPauseCountdown - 1 } }
    else if w.sendPressure ≤ sendPressureLow w.peerCount then resumeRecv w
    else w
  else w

def Worker.park (w : Worker) (fd : Fd) (item : SendItem) (deferNotif : Bool) : Worker :=
  if deferNotif then
    { w with notifMap := Function.update w.notifMap fd (item :: w.notifMap fd) }
  else w

/-- Retire the head of the queue (`data_plane.cc:969-998`). -/
def popSend (w : Worker) (p : Slot) (deferNotif : Bool) : Worker :=
  let s := (w.ht p).send
  match s.queue with
  | [] => w
  | done :: rest =>
    let s' := { s with
      queue := rest
      tail := if rest.isEmpty then none else s.tail
      next := if rest.isEmpty then none else s.next
      queued := if 0 < s.queued then s.queued - 1 else s.queued }
    let w1 := (w.setSend p s').park (w.ht p).fd done deferNotif
    relieveRecv { w1 with
      sendPressure := if 0 < w1.sendPressure then w1.sendPressure - 1 else w1.sendPressure }

/-- `DrainSendQueue` (`data_plane.cc:967-1012`). -/
def drainSendQueue (w : Worker) (p : Slot) (deferNotif : Bool) : Worker :=
  let w1 := popSend w p deferNotif
  let s := (w1.ht p).send
  let w2 := if 0 < s.inflight then w1.setSend p { s with inflight := s.inflight - 1 } else w1
  if (w2.ht p).send.next.isSome ∧ (w2.ht p).send.inflight < kMaxSendsInflight then
    (submitNext w2 p).2
  else w2

/-! ### `FlushPendingSends` -/

def flushPending (w : Worker) (fd : Fd) : Worker :=
  if !validFd fd then w
  else
    match w.fdMap fd with
    | none => w
    | some p =>
      let s := (w.ht p).send
      let w1 := w.setSend p { s with pending := false }
      if s.next.isNone ∨ s.zcDraining = true then w1
      else submitBatch kPollWriteBatch w1 p

/-- `FlushPendingSends` (`data_plane.cc:1018-1045`). -/
def flushPendingSends (w : Worker) : Worker :=
  { w.pendingFds.foldl flushPending w with pendingFds := [] }

/-- `NotifyPeerClose` (`data_plane.cc:1570-1582`): a PeerGone frame on the pipe,
tagged with the fd. -/
def notifyPeerClose (w : Worker) (p : Slot) : Worker :=
  { w with pipe := w.pipe ++ [⟨(w.ht p).fd, FrameType.kPeerGone,
      (w.ht p).key.data ++ [PeerGoneReason.kDisconnected.toByte]⟩] }

/-! ### Completions -/

def kEagain : ℤ := 11
def kEnomem : ℤ := 12
def kEinval : ℤ := 22
def kEpipe : ℤ := 32
def kEopnotsupp : ℤ := 95
def kEconnreset : ℤ := 104
def kEnobufs : ℤ := 105
def kEnotconn : ℤ := 107

/-- A completion entry; `more` and `notif` are its `IORING_CQE_F_*` flags. -/
structure Cqe where
  fd : Fd
  res : ℤ
  more : Bool := false
  notif : Bool := false

/-- Wait for a writable socket, once (`data_plane.cc:1876-1888`, `:1905-1917`,
`:2023-2035`). -/
def armPollWrite (w : Worker) (p : Slot) (fd : Fd) : Worker :=
  let s := (w.ht p).send
  if s.pollWritePending then w
  else
    match prepSqe w.io (.pollOut fd) with
    | (true, io) => { w with io := io }.setSend p { s with pollWritePending := true }
    | (false, io) => { w with io := io }

/-- Zero copy is not supported: fall back once the pipeline has drained
(`data_plane.cc:1843-1867`). -/
def sendUnsupported (w : Worker) (p : Slot) : Worker :=
  let s := (w.ht p).send
  let inflight := s.inflight - 1
  if inflight = 0 then
    submitBatch kMaxSendsInflight.toNat
      (w.setSend p { s with noZc := true, zcDraining := false, inflight := 0
                            next := s.queue.head?.map SendItem.id }) p
  else w.setSend p { s with noZc := true, zcDraining := true, inflight := inflight }

/-- Nothing was sent: rewind `send_next` to the node after the ones still in
flight, and wait for POLLOUT (`data_plane.cc:1868-1919`). -/
def sendRetry (w : Worker) (p : Slot) (fd : Fd) : Worker :=
  let s := (w.ht p).send
  let inflight := s.inflight - 1
  let next := (s.queue.drop inflight.toNat).head?.map SendItem.id
  armPollWrite (w.setSend p { s with inflight := inflight, next := next }) p fd

/-- Unlink the partly sent head (`data_plane.cc:1951-1961`). -/
def unlinkHead (w : Worker) (p : Slot) (fd : Fd) (item : SendItem) (rest : List SendItem)
    (deferNotif : Bool) : Worker :=
  let s := (w.ht p).send
  (w.setSend p { s with queue := rest, tail := if rest.isEmpty then none else s.tail }).park
    fd item deferNotif

/-- Put the remainder in front and submit it (`data_plane.cc:1979-1991`). -/
def resubmitRest (w : Worker) (p : Slot) (fd : Fd) (data : Bytes) : Worker :=
  let s := (w.ht p).send
  let ni : SendItem := ⟨w.nextItem, data⟩
  let s' := { s with queue := ni :: s.queue, tail := some (s.tail.getD ni.id) }
  match submitSend { w.setSend p s' with nextItem := w.nextItem + 1 } fd ni false false with
  | (true, w) => w
  | (false, w) => w.setSend p { s' with inflight := s'.inflight - 1 }

/-- The remainder is lost for want of a node (`data_plane.cc:1963-1977`). -/
def dropRest (w : Worker) (p : Slot) : Worker :=
  let s := (w.ht p).send
  let w := { w.setSend p { s with inflight := s.inflight - 1 } with
    stats := { w.stats with slabExhausts := w.stats.slabExhausts + 1 } }
  if s.next.isSome ∧ s.inflight - 1 < kMaxSendsInflight then (submitNext w p).2 else w

/-- Part of the head was sent: a new node with the remainder takes its place
(`data_plane.cc:1940-1992`). -/
def sendShort (w : Worker) (p : Slot) (fd : Fd) (sent : ℕ) (item : SendItem)
    (rest : List SendItem) (deferNotif : Bool) : Worker :=
  match w.alloc with
  | (false, w) => drainSendQueue w p deferNotif
  | (true, w) =>
    match (unlinkHead w p fd item rest deferNotif).alloc with
    | (false, w) => dropRest w p
    | (true, w) => resubmitRest w p fd (item.data.drop sent)

/-- `HandleSendCqe` (`data_plane.cc:1812-1995`). -/
def handleSendCqe (w : Worker) (cqe : Cqe) : Worker :=
  let fd := cqe.fd
  if cqe.notif then
    if validFd fd then
      { w with notifMap := Function.update w.notifMap fd (w.notifMap fd).tail }
    else w
  else
    match if validFd fd then w.fdMap fd else none with
    | none =>
      if !cqe.more && validFd fd then
        { w with notifMap := Function.update w.notifMap fd [] }
      else w
    | some p =>
      if cqe.res < 0 then
        if cqe.res = -kEopnotsupp then sendUnsupported w p
        else if cqe.res = -kEagain then
          sendRetry { w with stats := { w.stats with sendEagain := w.stats.sendEagain + 1 } } p fd
        else if cqe.res = -kEnomem then sendRetry w p fd
        else
          let w1 :=
            if cqe.res = -kEpipe then
              notifyPeerClose
                { w with stats := { w.stats with sendEpipe := w.stats.sendEpipe + 1 } } p
            else if cqe.res = -kEconnreset ∨ cqe.res = -kEnotconn then
              notifyPeerClose
                { w with stats := { w.stats with sendEconnreset := w.stats.sendEconnreset + 1 } } p
            else { w with stats := { w.stats with sendOtherErr := w.stats.sendOtherErr + 1 } }
          drainSendQueue
            { w1 with stats := { w1.stats with sendDrops := w1.stats.sendDrops + 1 } } p cqe.more
      else
        let sent := cqe.res.toNat
        let w1 := { w with stats := { w.stats with sendBytes := w.stats.sendBytes + sent } }
        match (w1.ht p).send.queue with
        | item :: rest =>
          if sent < item.data.length then sendShort w1 p fd sent item rest cqe.more
          else drainSendQueue w1 p cqe.more
        | [] => drainSendQueue w1 p cqe.more

/-- `HandlePollWrite` (`data_plane.cc:1999-2036`). -/
def handlePollWrite (w : Worker) (fd : Fd) : Worker :=
  match if validFd fd then w.fdMap fd else none with
  | none => w
  | some p =>
    let w1 := submitBatch kPollWriteBatch
      (w.setSend p { (w.ht p).send with pollWritePending := false }) p
    if (w1.ht p).send.next.isSome ∧ (w1.ht p).send.inflight < kMaxSendsInflight then
      armPollWrite w1 p fd
    else w1

/-! ### What the send path can change

Every function above changes the send state of one peer and, beside it, only
submission entries, pending fds, parked nodes and accounting. -/

def SendOnly (p : Slot) (w w' : Worker) : Prop :=
  ∃ s io pendingFds notifMap allocOracle nextItem sendPressure stats,
    w' = { w.setSend p s with
      io := io, pendingFds := pendingFds, notifMap := notifMap, allocOracle := allocOracle
      nextItem := nextItem, sendPressure := sendPressure, stats := stats }

@[simp] theorem Worker.setSend_self (w : Worker) (p : Slot) (s : SendState) :
    ((w.setSend p s).ht p).send = s := by
  simp [Worker.setSend]

theorem Worker.setSend_ne (w : Worker) {p q : Slot} (s : SendState) (h : q ≠ p) :
    (w.setSend p s).ht q = w.ht q := by
  simp [Worker.setSend, Worker.setPeer_ne w _ h]

theorem SendOnly.setSend (p : Slot) (w : Worker) (s : SendState) : SendOnly p w (w.setSend p s) :=
  ⟨s, _, _, _, _, _, _, _, rfl⟩

theorem SendOnly.accounting (p : Slot) (w : Worker) (io : Io) (pendingFds : List Fd)
    (notifMap : Fd → List SendItem) (allocOracle : List Bool) (nextItem : ℕ)
    (sendPressure : ℤ) (stats : WorkerStats) :
    SendOnly p w { w with
      io := io, pendingFds := pendingFds, notifMap := notifMap, allocOracle := allocOracle
      nextItem := nextItem, sendPressure := sendPressure, stats := stats } := by
  refine ⟨(w.ht p).send, io, pendingFds, notifMap, allocOracle, nextItem, sendPressure, stats, ?_⟩
  simp only [Worker.setSend, Worker.setPeer, Function.update_eq_self]

theorem SendOnly.refl (p : Slot) (w : Worker) : SendOnly p w w :=
  SendOnly.accounting p w w.io w.pendingFds w.notifMap w.allocOracle w.nextItem
    w.sendPressure w.stats

theorem SendOnly.trans {p : Slot} {a b c : Worker} (h1 : SendOnly p a b) (h2 : SendOnly p b c) :
    SendOnly p a c := by
  obtain ⟨s1, io1, pf1, nm1, ao1, ni1, sp1, st1, rfl⟩ := h1
  obtain ⟨s2, io2, pf2, nm2, ao2, ni2, sp2, st2, rfl⟩ := h2
  refine ⟨s2, io2, pf2, nm2, ao2, ni2, sp2, st2, ?_⟩
  simp only [Worker.setSend, Worker.setPeer, Function.update_self, Function.update_idem]

theorem IoOnly.sendOnly {a b : Worker} (h : IoOnly a b) (p : Slot) : SendOnly p a b := by
  obtain ⟨io, rfl⟩ := h
  exact SendOnly.accounting p a io _ _ _ _ _ _

theorem SendOnly.peer {p : Slot} {w w' : Worker} (h : SendOnly p w w') (q : Slot) :
    w'.ht q = { w.ht q with send := (w'.ht q).send } ∧ (q ≠ p → w'.ht q = w.ht q) := by
  obtain ⟨s, io, pf, nm, ao, ni, sp, st, rfl⟩ := h
  by_cases hq : q = p
  · subst hq
    exact ⟨by simp [Worker.setSend], fun h => absurd rfl h⟩
  · have hne := w.setSend_ne s hq
    exact ⟨by simp only [hne], fun _ => hne⟩

theorem SendOnly.alloc (p : Slot) (w : Worker) : SendOnly p w w.alloc.2 := by
  unfold Worker.alloc
  split
  · exact SendOnly.refl p w
  · exact SendOnly.accounting p w _ _ _ _ _ _ _

theorem submitNext_sendOnly (w : Worker) (p : Slot) : SendOnly p w (submitNext w p).2 := by
  unfold submitNext
  dsimp only
  split
  · exact SendOnly.refl p w
  · split
    · exact SendOnly.refl p w
    · next item _ =>
      obtain ⟨ok, io, heq, -⟩ :=
        submitPeerSend_cases w p item (nodeNext (w.ht p).send.queue _).isSome
      rw [heq]
      cases ok with
      | false => exact IoOnly.sendOnly ⟨io, rfl⟩ p
      | true => exact (IoOnly.sendOnly ⟨io, rfl⟩ p).trans (SendOnly.setSend p _ _)

theorem submitBatch_sendOnly (n : ℕ) (w : Worker) (p : Slot) :
    SendOnly p w (submitBatch n w p) := by
  induction n generalizing w with
  | zero => exact SendOnly.refl p w
  | succ n ih =>
    have hs := submitNext_sendOnly w p
    simp only [submitBatch]
    split
    · split
      · next heq => rw [heq] at hs; exact hs.trans (ih _)
      · next heq => rw [heq] at hs; exact hs
    · exact SendOnly.refl p w

theorem pauseRecv_sendOnly (w : Worker) (p : Slot) : SendOnly p w (pauseRecv w) := by
  unfold pauseRecv
  split
  · exact SendOnly.accounting p w _ _ _ _ _ _ _
  · exact SendOnly.refl p w

theorem kickSend_sendOnly (w : Worker) (p : Slot) : SendOnly p w (kickSend w p) := by
  unfold kickSend
  dsimp only
  split
  · split
    · exact ⟨_, _, _, _, _, _, _, _, rfl⟩
    · exact SendOnly.setSend p _ _
  · split
    · exact submitNext_sendOnly w p
    · exact SendOnly.refl p w

theorem pushItem_sendOnly (w : Worker) (p : Slot) (data : Bytes) :
    SendOnly p w (pushItem w p data) := ⟨_, _, _, _, _, _, _, _, rfl⟩

/-! ### The queue under `EnqueueSend` -/

theorem submitNext_queue (w : Worker) (p : Slot) :
    ((submitNext w p).2.ht p).send.queue = (w.ht p).send.queue ∧
      ((submitNext w p).2.ht p).send.tail = (w.ht p).send.tail ∧
      (submitNext w p).2.stats = w.stats := by
  unfold submitNext
  dsimp only
  split
  · exact ⟨rfl, rfl, rfl⟩
  · split
    · exact ⟨rfl, rfl, rfl⟩
    · next item _ =>
      obtain ⟨ok, io, heq, -⟩ :=
        submitPeerSend_cases w p item (nodeNext (w.ht p).send.queue _).isSome
      rw [heq]
      cases ok with
      | false => exact ⟨rfl, rfl, rfl⟩
      | true => exact ⟨by simp, by simp, rfl⟩

theorem kickSend_queue (w : Worker) (p : Slot) :
    ((kickSend w p).ht p).send.queue = (w.ht p).send.queue ∧
      ((kickSend w p).ht p).send.tail = (w.ht p).send.tail ∧ (kickSend w p).stats = w.stats := by
  unfold kickSend
  dsimp only
  split
  · split
    · exact ⟨by simp, by simp, rfl⟩
    · exact ⟨by simp, by simp, rfl⟩
  · split
    · exact submitNext_queue w p
    · exact ⟨rfl, rfl, rfl⟩

def WorkerStats.drops (s : WorkerStats) : ℕ :=
  s.sendQueueDrops + s.slabExhausts + s.xferDrops + s.hdFwdNoRoute

theorem pauseRecv_queue (w : Worker) (p : Slot) :
    ((pauseRecv w).ht p).send.queue = (w.ht p).send.queue ∧
      ((pauseRecv w).ht p).send.tail = (w.ht p).send.tail ∧
      (pauseRecv w).stats.drops = w.stats.drops := by
  unfold pauseRecv
  split <;> exact ⟨rfl, rfl, rfl⟩

theorem enqueueSend_queue (w : Worker) (p : Slot) (data : Bytes) :
    (((enqueueSend w p data).ht p).send.queue = (w.ht p).send.queue ∧
      (enqueueSend w p data).stats.drops = w.stats.drops + 1 ∧
      ((enqueueSend w p data).ht p).send.tail = (w.ht p).send.tail) ∨
    (((enqueueSend w p data).ht p).send.queue =
        ((w.ht p).send.push ⟨w.nextItem, data⟩).queue ∧
      (enqueueSend w p data).stats.drops = w.stats.drops ∧
      ((enqueueSend w p data).ht p).send.tail = some w.nextItem) := by
  have hht := alloc_ht w
  unfold enqueueSend
  split
  · exact .inl ⟨rfl, by simp only [WorkerStats.drops]; omega, rfl⟩
  · have hstats : w.alloc.2.stats = w.stats ∧ w.alloc.2.nextItem = w.nextItem := by
      unfold Worker.alloc
      split <;> exact ⟨rfl, rfl⟩
    rcases ha : w.alloc with ⟨ok, w1⟩
    rw [ha] at hht hstats
    simp only at hht hstats
    cases ok with
    | false =>
      refine .inl ⟨by simp only [hht], ?_, by simp only [hht]⟩
      simp only [WorkerStats.drops, hstats.1]
      omega
    | true =>
      obtain ⟨hq1, ht1, hs1⟩ := pauseRecv_queue (kickSend (pushItem w1 p data) p) p
      obtain ⟨hq2, ht2, hs2⟩ := kickSend_queue (pushItem w1 p data) p
      refine .inr ⟨?_, ?_, ?_⟩
      · simp only
        rw [hq1, hq2]
        simp [pushItem, Worker.setSend, hht, hstats.2]
      · simp only
        rw [hs1, hs2]
        exact congrArg WorkerStats.drops hstats.1
      · simp only
        rw [ht1, ht2]
        simp [pushItem, Worker.setSend, SendState.push, hstats.2]

def SendState.Linked (s : SendState) : Prop := ∀ t ∈ s.tail, ∃ x ∈ s.queue, x.id = t

instance (s : SendState) : Decidable s.Linked :=
  inferInstanceAs (Decidable (∀ t ∈ s.tail, ∃ x ∈ s.queue, x.id = t))

theorem mem_linkAfter_self {q : List SendItem} {t : ℕ} {item : SendItem}
    (h : ∃ x ∈ q, x.id = t) : item ∈ linkAfter q t item := by
  induction q with
  | nil =>
    obtain ⟨x, hx, -⟩ := h
    cases hx
  | cons y q ih =>
    simp only [linkAfter]
    split
    · simp
    · next hne =>
      obtain ⟨x, hx, hid⟩ := h
      rcases List.mem_cons.mp hx with rfl | hx
      · exact absurd hid hne
      · exact List.mem_cons_of_mem _ (ih ⟨x, hx, hid⟩)

theorem SendState.Linked.mem_push {s : SendState} (h : s.Linked) (item : SendItem) :
    item ∈ (s.push item).queue := by
  unfold SendState.push
  dsimp only
  split
  · next t ht => exact mem_linkAfter_self (h t ht)
  · exact List.mem_singleton.mpr rfl

theorem enqueueSend_accept {w : Worker} {p : Slot} (h : (w.ht p).send.Linked) (data : Bytes) :
    ((enqueueSend w p data).ht p).send.Linked ∧
      ((enqueueSend w p data).stats.drops = w.stats.drops + 1 ∨
        ∃ item ∈ ((enqueueSend w p data).ht p).send.queue, item.data = data ∧
          item.id = w.nextItem) := by
  rcases enqueueSend_queue w p data with ⟨hq, hd, ht⟩ | ⟨hq, -, ht⟩
  · refine ⟨fun t htl => ?_, .inl hd⟩
    rw [Option.mem_def, ht] at htl
    rw [hq]
    exact h t htl
  · have hmem := h.mem_push ⟨w.nextItem, data⟩
    rw [← hq] at hmem
    refine ⟨fun t htl => ⟨_, hmem, ?_⟩, .inr ⟨_, hmem, rfl, rfl⟩⟩
    rw [Option.mem_def, ht] at htl
    cases htl
    rfl

theorem enqueueSend_sendOnly (w : Worker) (p : Slot) (data : Bytes) :
    SendOnly p w (enqueueSend w p data) := by
  have ha := SendOnly.alloc p w
  unfold enqueueSend
  split
  · exact SendOnly.accounting p w _ _ _ _ _ _ _
  · split
    · next w1 heq =>
      rw [heq] at ha
      exact ha.trans (SendOnly.accounting p w1 _ _ _ _ _ _ _)
    · next w1 heq =>
      rw [heq] at ha
      exact ((ha.trans (pushItem_sendOnly _ p data)).trans (kickSend_sendOnly _ p)).trans
        (pauseRecv_sendOnly _ p)

end HyperDerp
