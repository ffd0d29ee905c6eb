import HyperDerp.DataPlane.Placement
import HyperDerp.DataPlane.Receives
import HyperDerp.DataPlane.Transit
import HyperDerp.Lib.WholeFrames

/-!
# From the senders' sockets to a receiver's socket

DERP clients on all workers send packets to one another. What a client has sent arrives at its
worker in pieces, cut anywhere. Whatever the order in which receives, transfers between workers
and sends are handled, the socket of a receiver takes whole frames only, each of them a packet of
some sender with that sender's key and data, and those of one sender in the order they were sent.
-/

namespace HyperDerp.Conversation

abbrev Conn := ℕ × Slot

/-- The workers, the kernel's side of the receiver's socket as in `SendSys`, and what each client's
socket has brought the parser, by completion. -/
structure State where
  ctx : Ctx
  ring : List Pending := []
  done : List Done := []
  sock : Bytes := []
  chunks : Conn → List Bytes := fun _ => []

inductive Label where
  /-- `HandleRecvCqe` -/
  | recv (v : ℕ) (cqe : RecvCqe)
  /-- `XferSpscPop` and the rest of a turn of `ProcessXfer` -/
  | pop (v src : ℕ)
  /-- `HandleSendCqe` for a client other than the receiver -/
  | complete (v : ℕ) (cqe : Cqe)
  /-- `HandlePollWrite` for a client other than the receiver -/
  | pollWrite (v : ℕ) (f : Fd)
  /-- `FlushPendingSends` of a worker other than the receiver's -/
  | flush (v : ℕ)
  /-- the receiver's own send queue and socket -/
  | send (l : SendStep)

/-- `HandleRecvCqe` up to the choice of a handler. -/
def recvDone (ctx : Ctx) (v : ℕ) (cqe : RecvCqe) : Ctx :=
  if cqe.more then ctx
  else ctx.onWorker v fun w =>
    { w with io := { w.io with
        recvInflight := if w.io.recvInflight - 1 < 0 then 0 else w.io.recvInflight - 1 } }

def parses (ctx : Ctx) (v : ℕ) (cqe : RecvCqe) : Option Slot :=
  if cqe.hasBuffer = true ∧ 0 < cqe.res then
    (if validFd cqe.fd then (ctx.workers v).fdMap cqe.fd else none).filter fun a =>
      ¬Limited (recvDone ctx v cqe) v a cqe
  else none

section System

variable (wid : ℕ) (p : Slot) (fd : Fd)

/-- The workers have moved on; what was submitted on the receiver's socket joins the ring. -/
def State.goOn (s : State) (ctx : Ctx) : State :=
  { s with
    ctx := ctx
    ring := s.ring ++ (newSends fd (s.ctx.workers wid) (ctx.workers wid)).map fun x =>
      ⟨x, stalling s.done s.ring⟩ }

def State.feed (s : State) (c : Conn) (chunk : Bytes) : State :=
  { s with chunks := Function.update s.chunks c (s.chunks c ++ [chunk]) }

def State.view (s : State) : SendSys := ⟨s.ctx.workers wid, s.ring, s.done, s.sock, []⟩

def step (s : State) : Label → Option State
  | .recv v cqe =>
    let s' := s.goOn wid fd (handleRecvCqe s.ctx v cqe).1
    match parses s.ctx v cqe with
    | none => some s'
    | some a => some (s'.feed (v, a) cqe.buf)
  | .pop v src => (popXfer s.ctx v src).map (s.goOn wid fd)
  | .complete v cqe => some (s.goOn wid fd (s.ctx.onWorker v fun w => handleSendCqe w cqe))
  | .pollWrite v f => some (s.goOn wid fd (s.ctx.onWorker v fun w => handlePollWrite w f))
  | .flush v => some (s.goOn wid fd (s.ctx.onWorker v flushPendingSends))
  | .send l =>
    ((s.view wid).step p fd l).map fun t =>
      { s with ctx := s.ctx.setWorker wid t.w, ring := t.ring, done := t.done, sock := t.sock }

/-- The clients stay as they are, but for others than the receiver that close their socket; and
the kernel and the allocator behave at the receiver as in `SendSys.stepOk`. -/
def Quiet (s : State) : Label → Prop
  | .recv v cqe =>
    (cqe.hasBuffer = true ∨ (s.ctx.workers v).io.useProvidedBufs = true) ∧
    (0 < cqe.res → cqe.res = cqe.buf.length) ∧
    (v = wid → cqe.fd = fd → cqe.res ≠ 0 ∧ cqe.res ≠ -kEconnreset)
  | .pop _ _ => True
  | .complete v cqe => v = wid → cqe.fd ≠ fd
  | .pollWrite v f => v = wid → f ≠ fd
  | .flush v => v ≠ wid
  | .send l => (∀ data, l ≠ .enqueue data) ∧ (s.view wid).stepOk p l

/-- Every slot has a DERP client or none, and the receiver, in slot `p` of worker `wid` with key
`dstKey` and socket `fd`, is who the tables say. -/
structure Clients (keys : Conn → Key) (dstKey : Key) (ctx : Ctx) : Prop where
  protocol : ∀ v q, ((ctx.workers v).ht q).protocol = .kDerp
  key : ∀ v q, ((ctx.workers v).ht q).key = keys (v, q)
  running : ∀ v, (ctx.workers v).running = true
  live : ∀ v f q, (ctx.workers v).fdMap f = some q → ((ctx.workers v).ht q).occupied = .live
  found : htLookup (ctx.workers wid) dstKey = some p
  alone : ∀ q, ((ctx.workers wid).ht q).occupied = .live → ((ctx.workers wid).ht q).fd = fd → q = p
  routed : ∀ v k a, routeLookup (ctx.workers v).routes k = some a →
    ((ctx.workers v).routes a).workerId = wid → ((ctx.workers v).routes a).fd = fd → k = dstKey

/-- Nothing has been received, and nothing is under way to the receiver. -/
structure Init (keys : Conn → Key) (dstKey : Key) (s : State) : Prop where
  clients : Clients wid p fd keys dstKey s.ctx
  fresh : (s.view wid).Fresh p fd
  rbuf : ∀ v q, ((s.ctx.workers v).ht q).rbuf = []
  inbox : ∀ src, ∀ x ∈ (s.ctx.workers wid).xferInbox src, x.dstFd ≠ fd
  chunks : ∀ c, s.chunks c = []

end System

/-- What the parser makes of the data of a socket: the frames so far, and what is kept of the last
piece. After an invalid length the rest of the piece is gone. -/
def received (chunks : List Bytes) : List Bytes × Bytes :=
  Framing.feed (frameFormat .kDerp) (isValidPeerPayloadLen .kDerp) chunks

/-- The frame that the receiver with key `dst` gets for a frame of the client with key `src`. -/
def packetFor (src dst : Key) (frame : Bytes) : Option Bytes :=
  if h : readFrameType frame = .kSendPacket ∧ kKeySize ≤ (frame.drop kFrameHeaderSize).length then
    if toKey (frame.drop kFrameHeaderSize) h.2 = dst then
      some (buildRecvPacket src ((frame.drop kFrameHeaderSize).drop kKeySize))
    else none
  else none

def bySender (c : Conn) (sent : List (Conn × Bytes)) : List Bytes :=
  (sent.filter fun x => x.1 = c).map Prod.snd

/-- The socket of the receiver has taken a beginning of the packets `sent`, and of each client
these are some of the packets it sent to the receiver, in order. -/
structure Delivers (keys : Conn → Key) (dstKey : Key) (s : State) (sent : List (Conn × Bytes)) :
    Prop where
  sock : s.sock <+: (sent.map Prod.snd).flatten
  ordered : ∀ c, List.Sublist (bySender c sent)
    ((received (s.chunks c)).1.filterMap (packetFor (keys c) dstKey))

/-! ### Inboxes on the send path -/

section

variable (w : Worker) (p : Slot)

theorem sendOnly_inbox {w w' : Worker} (h : SendOnly p w w') : w'.xferInbox = w.xferInbox := by
  obtain ⟨s, io, pf, nm, ao, ni, sp, st, rfl⟩ := h
  rfl

theorem armPollWrite_inbox (f : Fd) : (armPollWrite w p f).xferInbox = w.xferInbox := by
  unfold armPollWrite
  dsimp only
  split
  · rfl
  · split <;> rfl

theorem drainSendQueue_inbox (b : Bool) : (drainSendQueue w p b).xferInbox = w.xferInbox := by
  have h1 : (popSend w p b).xferInbox = w.xferInbox := by
    by_cases hq : (w.ht p).send.queue = []
    · simp only [popSend, hq]
    · exact sendOnly_inbox p (popSend_spec w p b hq).1
  unfold drainSendQueue
  dsimp only
  generalize popSend w p b = w1 at h1 ⊢
  have h2 : (if 0 < (w1.ht p).send.inflight then
      w1.setSend p { (w1.ht p).send with inflight := (w1.ht p).send.inflight - 1 }
      else w1).xferInbox = w1.xferInbox := by
    split <;> rfl
  generalize (if 0 < (w1.ht p).send.inflight then
      w1.setSend p { (w1.ht p).send with inflight := (w1.ht p).send.inflight - 1 } else w1) = w2
    at h2 ⊢
  split
  · exact ((sendOnly_inbox p (submitNext_sendOnly w2 p)).trans h2).trans h1
  · exact h2.trans h1

theorem sendShort_inbox (f : Fd) (sent : ℕ) (x : SendItem) (rest : List SendItem) (b : Bool) :
    (sendShort w p f sent x rest b).xferInbox = w.xferInbox := by
  have ha := sendOnly_inbox p (SendOnly.alloc p w)
  rcases sendShort_cases w p f sent x rest b with
    ⟨-, heq⟩ | ⟨-, nm, ao, w1, hw1, ⟨-, heq⟩ | ⟨-, heq⟩⟩
  · rw [heq, drainSendQueue_inbox]
    exact ha
  · have h1 : w1.xferInbox = w.xferInbox := by rw [hw1]; rfl
    rw [heq]
    unfold dropRest
    dsimp only
    split
    · exact (sendOnly_inbox p (submitNext_sendOnly _ p)).trans h1
    · exact h1
  · have h1 : w1.xferInbox = w.xferInbox := by rw [hw1]; rfl
    obtain ⟨io, hres, -, -⟩ := resubmitRest_cases w1 p f (x.data.drop sent)
    rw [heq, hres]
    exact h1

theorem handleSendCqe_inbox (cqe : Cqe) : (handleSendCqe w cqe).xferInbox = w.xferInbox := by
  have hcase := handleSendCqe_case w cqe
  generalize handleSendCqe w cqe = w' at hcase ⊢
  cases hcase with
  | ignored nm _ => rfl
  | unsupported q _ _ =>
    unfold sendUnsupported
    dsimp only
    split
    · exact sendOnly_inbox q ((SendOnly.setSend q w _).trans (submitBatch_sendOnly _ _ q))
    · rfl
  | retry q stats _ _ => exact armPollWrite_inbox _ q cqe.fd
  | done q stats pipe _ => exact drainSendQueue_inbox _ q cqe.more
  | short q stats item rest _ _ _ _ => exact sendShort_inbox _ q _ _ _ _ _

theorem handlePollWrite_inbox (f : Fd) : (handlePollWrite w f).xferInbox = w.xferInbox := by
  unfold handlePollWrite
  dsimp only
  split
  · rfl
  · next q _ =>
    have h1 := sendOnly_inbox q (submitBatch_sendOnly kPollWriteBatch
      (w.setSend q { (w.ht q).send with pollWritePending := false }) q)
    split
    · exact (armPollWrite_inbox _ q f).trans h1
    · exact h1

theorem flushPendingSends_inbox : (flushPendingSends w).xferInbox = w.xferInbox := by
  have one : ∀ (w : Worker) (f : Fd), (flushPending w f).xferInbox = w.xferInbox := by
    intro w f
    unfold flushPending
    split
    · rfl
    · split
      · rfl
      · next q _ =>
        dsimp only
        split
        · rfl
        · exact sendOnly_inbox q ((SendOnly.setSend q w _).trans (submitBatch_sendOnly _ _ q))
  have key : ∀ (fds : List Fd) (w : Worker), (fds.foldl flushPending w).xferInbox = w.xferInbox := by
    intro fds
    induction fds with
    | nil => exact fun _ => rfl
    | cons f fds ih => exact fun w => (ih _).trans (one w f)
  exact key w.pendingFds w

end

/-! ### Steps that do not concern the receiver -/

section

variable {wid : ℕ} {p : Slot} {fd : Fd} {w w' w'' : Worker} {ring : List Pending}
  {done : List Done} {rem rem' : Bytes}

def towards (fd : Fd) (inbox : List Xfer) : List Bytes :=
  (inbox.filter fun x => x.dstFd = fd).map Xfer.frame

structure Still (p : Slot) (fd : Fd) (w w' : Worker) : Prop where
  send : (w'.ht p).send = (w.ht p).send
  fds : ∀ q, (w'.ht q).fd = (w.ht q).fd
  mapped : w'.fdMap fd = w.fdMap fd
  entries : ∀ f q, w'.fdMap f = some q → w.fdMap f = some q
  nextItem : w.nextItem ≤ w'.nextItem
  sends : w'.io.sends fd = w.io.sends fd

namespace Still

theorem refl (w : Worker) : Still p fd w w :=
  ⟨rfl, fun _ => rfl, rfl, fun _ _ h => h, Nat.le_refl _, rfl⟩

theorem trans (h1 : Still p fd w w') (h2 : Still p fd w' w'') : Still p fd w w'' where
  send := h2.send.trans h1.send
  fds q := (h2.fds q).trans (h1.fds q)
  mapped := h2.mapped.trans h1.mapped
  entries f q hq := h1.entries f q (h2.entries f q hq)
  nextItem := Nat.le_trans h1.nextItem h2.nextItem
  sends := h2.sends.trans h1.sends

theorem of_touches {q : Slot} {f : Fd} (h : Touches q f w w') (hq : q ≠ p) (hf : f ≠ fd) :
    Still p fd w w' where
  send := by rw [h.other p hq.symm]
  fds := h.fd_eq
  mapped := by rw [h.fdMap]
  entries f q hm := by rwa [h.fdMap] at hm
  nextItem := h.nextItem
  sends := h.sends fd hf.symm

theorem io (h : IoOnly w w') (hs : w'.io.sends fd = w.io.sends fd) : Still p fd w w' := by
  obtain ⟨io, rfl⟩ := h
  exact ⟨rfl, fun _ => rfl, rfl, fun _ _ h => h, Nat.le_refl _, hs⟩

theorem setPeer {q : Slot} {peer : Peer} (hs : peer.send = (w.ht q).send)
    (hfd : peer.fd = (w.ht q).fd) (stats : WorkerStats) (pipe : List PipeMsg)
    (allocOracle : List Bool) : Still p fd w { w.setPeer q peer with
      stats := stats, pipe := pipe, allocOracle := allocOracle } := by
  have hht : ∀ r, (w.setPeer q peer).ht r = if r = q then peer else w.ht r :=
    fun r => Function.update_apply ..
  refine ⟨?_, fun r => ?_, rfl, fun _ _ h => h, Nat.le_refl _, rfl⟩
  · simp only [hht]
    split
    · next h => rw [hs, h]
    · rfl
  · simp only [hht]
    split
    · next h => rw [hfd, h]
    · rfl

theorem account (stats : WorkerStats) (pipe : List PipeMsg) (allocOracle : List Bool) :
    Still p fd w { w with stats := stats, pipe := pipe, allocOracle := allocOracle } :=
  ⟨rfl, fun _ => rfl, rfl, fun _ _ h => h, Nat.le_refl _, rfl⟩

theorem registered (h : Still p fd w w') (hr : Registered p fd w) : Registered p fd w' where
  valid := hr.valid
  mapped := by rw [h.mapped]; exact hr.mapped
  own f q hq := by rw [h.fds]; exact hr.own f q (h.entries f q hq)

theorem good (h : Still p fd w w') (hg : Good p fd w ring done rem) :
    Good p fd w' ring done rem where
  registered := h.registered hg.registered
  nodup := by rw [h.send]; exact hg.nodup
  fresh x hx := by
    rw [h.send] at hx
    exact Nat.lt_of_lt_of_le (hg.fresh x hx) h.nextItem
  tail := by rw [h.send]; exact hg.tail
  inflight := by rw [h.send]; exact hg.inflight
  flow := by rw [h.send]; exact hg.flow
  next hr := by rw [h.send]; exact hg.next hr

end Still

end

/-! ### Who the clients are -/

structure Stays (w w' : Worker) : Prop where
  fds : ∀ q, (w'.ht q).fd = (w.ht q).fd
  occupied : ∀ q, (w'.ht q).occupied = (w.ht q).occupied
  protocol : ∀ q, (w'.ht q).protocol = (w.ht q).protocol
  key : ∀ q, (w'.ht q).key = (w.ht q).key
  running : w'.running = w.running
  routes : w'.routes = w.routes
  entries : ∀ f q, w'.fdMap f = some q → w.fdMap f = some q

def Same (ctx ctx' : Ctx) : Prop := ∀ v, Stays (ctx.workers v) (ctx'.workers v)

namespace Stays

variable {w w' w'' : Worker}

theorem refl (w : Worker) : Stays w w :=
  ⟨fun _ => rfl, fun _ => rfl, fun _ => rfl, fun _ => rfl, rfl, rfl, fun _ _ h => h⟩

theorem of_core (h : w'.core = w.core) : Stays w w' := by
  have hp := Worker.core_peer h
  refine ⟨fun q => ?_, fun q => ?_, fun q => ?_, fun q => ?_, ?_, ?_, fun f q hq => ?_⟩
  · exact (congrArg Peer.fd (hp q) :)
  · exact (congrArg Peer.occupied (hp q) :)
  · exact (congrArg Peer.protocol (hp q) :)
  · exact (congrArg Peer.key (hp q) :)
  · exact (congrArg Worker.running h :)
  · exact (congrArg Worker.routes h :)
  · have hm : w'.fdMap = w.fdMap := (congrArg Worker.fdMap h :)
    rwa [hm] at hq

theorem setPeer {q : Slot} {peer : Peer} (hfd : peer.fd = (w.ht q).fd)
    (hocc : peer.occupied = (w.ht q).occupied) (hproto : peer.protocol = (w.ht q).protocol)
    (hkey : peer.key = (w.ht q).key) (stats : WorkerStats) (pipe : List PipeMsg)
    (allocOracle : List Bool) : Stays w { w.setPeer q peer with
      stats := stats, pipe := pipe, allocOracle := allocOracle } := by
  have hht : ∀ {A : Type} (g : Peer → A), g peer = g (w.ht q) → ∀ r,
      g ((w.setPeer q peer).ht r) = g (w.ht r) := by
    intro A g hg r
    by_cases hr : r = q
    · subst hr
      rw [Worker.setPeer_self, hg]
    · rw [Worker.setPeer_ne _ _ hr]
  exact ⟨hht _ hfd, hht _ hocc, hht _ hproto, hht _ hkey, rfl, rfl, fun _ _ h => h⟩

theorem unmap (f : Fd) (pipe : List PipeMsg) :
    Stays w { w with pipe := pipe, fdMap := Function.update w.fdMap f none } := by
  refine ⟨fun _ => rfl, fun _ => rfl, fun _ => rfl, fun _ => rfl, rfl, rfl, fun g q hq => ?_⟩
  by_cases hg : g = f
  · simp [hg] at hq
  · simpa [hg] using hq

end Stays

theorem Same.of_core {ctx ctx' : Ctx} (h : ctx'.core = ctx.core) : Same ctx ctx' :=
  fun v => .of_core (Ctx.core_worker h v)

theorem Same.setWorker {ctx : Ctx} {v : ℕ} {w : Worker} (h : Stays (ctx.workers v) w) :
    Same ctx (ctx.setWorker v w) := by
  intro u
  by_cases hu : u = v
  · rw [hu, Ctx.setWorker_self]
    exact h
  · rw [Ctx.setWorker_ne _ _ hu]
    exact .refl _

section

variable {wid : ℕ} {p : Slot} {fd : Fd} {keys : Conn → Key} {dstKey : Key} {ctx ctx' ctx'' : Ctx}

theorem Clients.same (h : Clients wid p fd keys dstKey ctx) (hs : Same ctx ctx') :
    Clients wid p fd keys dstKey ctx' where
  protocol v q := by rw [(hs v).protocol]; exact h.protocol v q
  key v q := by rw [(hs v).key]; exact h.key v q
  running v := by rw [(hs v).running]; exact h.running v
  live v f q hq := by rw [(hs v).occupied]; exact h.live v f q ((hs v).entries f q hq)
  found := (LinearProbe.lookup_congr peerView keyHash (hs wid).occupied (hs wid).key _).trans h.found
  alone q hl hf := by
    rw [(hs wid).occupied] at hl
    rw [(hs wid).fds] at hf
    exact h.alone q hl hf
  routed v k a hr := by
    rw [(hs v).routes] at hr ⊢
    exact h.routed v k a hr

theorem Clients.lookup (h : Clients wid p fd keys dstKey ctx) {v : ℕ} {k : Key} {q : Slot}
    (hq : htLookup (ctx.workers v) k = some q) :
    ((ctx.workers v).ht q).occupied = .live ∧ keys (v, q) = k := by
  have hh := LinearProbe.holds_of_lookup peerView keyHash hq
  exact ⟨hh.1, (h.key v q).symm.trans hh.2⟩

end

/-! ### Where a packet is -/

/-- The packets in the receiver's queue or on its socket so far (`sent`) and those in the inboxes of
its worker (`pend`) account for what each client sent to it, but for packets that were dropped. -/
structure Ledger (wid : ℕ) (fd : Fd) (keys : Conn → Key) (dstKey : Key) (w : Worker)
    (log : Conn → List Bytes) (sent : List (Conn × Bytes)) (pend : ℕ → List (Conn × Bytes)) :
    Prop where
  inbox : ∀ src, towards fd (w.xferInbox src) = (pend src).map Prod.snd
  source : ∀ src, ∀ x ∈ pend src, x.1.1 = src
  own : pend wid = []
  ordered : ∀ c, List.Sublist (bySender c (sent ++ pend c.1))
    ((log c).filterMap (packetFor (keys c) dstKey))

theorem bySender_append (c : Conn) (xs ys : List (Conn × Bytes)) :
    bySender c (xs ++ ys) = bySender c xs ++ bySender c ys := by
  simp [bySender]

theorem bySender_sublist {c : Conn} {xs ys : List (Conn × Bytes)} (h : xs.Sublist ys) :
    (bySender c xs).Sublist (bySender c ys) :=
  (h.filter _).map _

def addLog (log : Conn → List Bytes) (c : Conn) (frames : List Bytes) : Conn → List Bytes :=
  Function.update log c (log c ++ frames)

theorem addLog_nil (log : Conn → List Bytes) (c : Conn) : addLog log c [] = log := by
  simp [addLog]

theorem addLog_addLog (log : Conn → List Bytes) (c : Conn) (xs ys : List Bytes) :
    addLog (addLog log c xs) c ys = addLog log c (xs ++ ys) := by
  simp [addLog]

theorem prefix_addLog (log : Conn → List Bytes) (c : Conn) (xs : List Bytes) (d : Conn) :
    log d <+: addLog log c xs d := by
  by_cases hd : d = c
  · simp [addLog, hd]
  · simp [addLog, hd]

section

variable (wid : ℕ) (p : Slot) (fd : Fd) (keys : Conn → Key) (dstKey : Key)

/-- The invariant, with the frames that each client's parser has yielded. -/
def Holds (ctx : Ctx) (ring : List Pending) (done : List Done) (sock : Bytes)
    (log : Conn → List Bytes) : Prop :=
  Clients wid p fd keys dstKey ctx ∧ ∃ sent pend rem,
    Ledger wid fd keys dstKey (ctx.workers wid) log sent pend ∧
    (sent.map Prod.snd).flatten = sock ++ rem ∧ Good p fd (ctx.workers wid) ring done rem

def Moves (done : List Done) (sock : Bytes) (log log' : Conn → List Bytes) (ctx ctx' : Ctx) :
    Prop :=
  ∀ ring, Holds wid p fd keys dstKey ctx ring done sock log →
    ∃ new, (ctx'.workers wid).io.sends fd = (ctx.workers wid).io.sends fd ++ new ∧
      Holds wid p fd keys dstKey ctx' (ring ++ new.map fun x => ⟨x, stalling done ring⟩) done sock log'

end

section

variable {wid : ℕ} {p : Slot} {fd : Fd} {keys : Conn → Key} {dstKey : Key}
  {ctx ctx' ctx'' : Ctx} {done : List Done} {sock : Bytes} {log log' log'' : Conn → List Bytes}

theorem Moves.trans (h1 : Moves wid p fd keys dstKey done sock log log' ctx ctx')
    (h2 : Moves wid p fd keys dstKey done sock log' log'' ctx' ctx'') :
    Moves wid p fd keys dstKey done sock log log'' ctx ctx'' := by
  intro ring hh
  obtain ⟨new1, hs1, hh1⟩ := h1 ring hh
  obtain ⟨new2, hs2, hh2⟩ := h2 _ hh1
  refine ⟨new1 ++ new2, by rw [hs2, hs1, List.append_assoc], ?_⟩
  rw [stalling_append] at hh2
  rwa [List.map_append, ← List.append_assoc]

theorem Moves.of_clients (h : Clients wid p fd keys dstKey ctx →
    Moves wid p fd keys dstKey done sock log log' ctx ctx') :
    Moves wid p fd keys dstKey done sock log log' ctx ctx' :=
  fun ring hh => h hh.1 ring hh

theorem Moves.still (hs : Same ctx ctx') (hst : Still p fd (ctx.workers wid) (ctx'.workers wid))
    (hi : ∀ src, towards fd ((ctx'.workers wid).xferInbox src) =
      towards fd ((ctx.workers wid).xferInbox src))
    (hlog : ∀ c, log c <+: log' c) : Moves wid p fd keys dstKey done sock log log' ctx ctx' := by
  rintro ring ⟨hc, sent, pend, rem, hl, hflat, hg⟩
  refine ⟨[], by simp [hst.sends], hc.same hs, sent, pend, rem, ?_, hflat, ?_⟩
  · refine { hl with inbox := fun src => ?_, ordered := fun c => ?_ }
    · rw [hi, hl.inbox]
    · exact (hl.ordered c).trans ((hlog c).sublist.filterMap _)
  · simpa using hst.good hg

variable {a : Slot} {frame : Bytes} {v : ℕ} {x : Xfer} {w : Worker} {cqe : RecvCqe} {l : SendStep}

theorem Moves.enqueue {data : Bytes} (hdata : packetFor (keys (wid, a)) dstKey frame = some data) :
    Moves wid p fd keys dstKey done sock log (addLog log (wid, a) [frame]) ctx
      (ctx.setWorker wid (enqueueSend (ctx.workers wid) p data)) := by
  rintro ring ⟨hc, sent, pend, rem, hl, hflat, hg⟩
  obtain ⟨new, hs, hg'⟩ := enqueueSend_keeps hg data
  have hsame : Same ctx (ctx.setWorker wid (enqueueSend (ctx.workers wid) p data)) :=
    .setWorker (.of_core (enqueueSend_sendOnly _ _ _).core)
  refine ⟨new, by rw [Ctx.setWorker_self, hs], hc.same hsame, ?_⟩
  rw [Ctx.setWorker_self]
  have hpack : (addLog log (wid, a) [frame] (wid, a)).filterMap (packetFor (keys (wid, a)) dstKey) =
      (log (wid, a)).filterMap (packetFor (keys (wid, a)) dstKey) ++ [data] := by
    simp [addLog, hdata]
  by_cases hd : (enqueueSend (ctx.workers wid) p data).stats.drops = (ctx.workers wid).stats.drops
  · rw [if_pos hd] at hg'
    refine ⟨sent ++ [((wid, a), data)], pend, rem ++ data, ⟨fun src => ?_, hl.source, hl.own,
      fun c => ?_⟩, by simp [hflat], hg'⟩
    · rw [enqueueSend_inbox]
      exact hl.inbox src
    · have hord := hl.ordered c
      by_cases hca : c = (wid, a)
      · subst hca
        rw [hl.own, List.append_nil] at hord ⊢
        rw [bySender_append, hpack]
        exact hord.append (by simp [bySender])
      · have hne : bySender c [((wid, a), data)] = [] := by simp [bySender, Ne.symm hca]
        rw [bySender_append, bySender_append, hne, List.append_nil, ← bySender_append]
        simpa [addLog, hca] using hord
  · rw [if_neg hd] at hg'
    refine ⟨sent, pend, rem, ⟨fun src => ?_, hl.source, hl.own, fun c => ?_⟩, hflat, hg'⟩
    · rw [enqueueSend_inbox]
      exact hl.inbox src
    · exact (hl.ordered c).trans ((prefix_addLog log _ _ c).sublist.filterMap _)

theorem towards_append (fd : Fd) (xs ys : List Xfer) :
    towards fd (xs ++ ys) = towards fd xs ++ towards fd ys := by
  simp [towards]

theorem push_still (v dst : ℕ) (x : Xfer) :
    Still p fd (ctx.workers wid) ((xferSpscPush ctx v dst x).workers wid) where
  send := by rw [xferSpscPush_ht]
  fds q := by rw [xferSpscPush_ht]
  mapped := by rw [xferSpscPush_proj Worker.fdMap fun _ _ _ _ _ _ => rfl]
  entries f q h := by rwa [xferSpscPush_proj Worker.fdMap fun _ _ _ _ _ _ => rfl] at h
  nextItem := by rw [xferSpscPush_proj Worker.nextItem fun _ _ _ _ _ _ => rfl]
  sends := by rw [xferSpscPush_io]

theorem Moves.push {dst : ℕ}
    (hdata : dst = wid → x.dstFd = fd →
      v ≠ wid ∧ packetFor (keys (v, a)) dstKey frame = some x.frame) :
    Moves wid p fd keys dstKey done sock log (addLog log (v, a) [frame]) ctx
      (xferSpscPush ctx v dst x) := by
  have hsame : Same ctx (xferSpscPush ctx v dst x) := .of_core (xferSpscPush_core _ _ _ _)
  have hgrow := prefix_addLog log (v, a) [frame]
  rcases Shards.xferSpscPush_ring ctx v dst x with ⟨-, hi⟩ | hi
  · exact .still hsame (push_still v dst x) (fun src => by rw [hi]) hgrow
  by_cases hto : dst = wid ∧ x.dstFd = fd
  · obtain ⟨rfl, hx⟩ := hto
    obtain ⟨hv, hpack⟩ := hdata rfl hx
    rintro ring ⟨hc, sent, pend, rem, hl, hflat, hg⟩
    have htowards : ∀ src, towards fd (((xferSpscPush ctx v dst x).workers dst).xferInbox src) =
        towards fd ((ctx.workers dst).xferInbox src) ++ if src = v then [x.frame] else [] := by
      intro src
      rw [hi, towards_append]
      by_cases hs : src = v
      · simp [hs, towards, hx]
      · simp [hs, towards]
    refine ⟨[], by simp [xferSpscPush_io], hc.same hsame, sent,
      Function.update pend v (pend v ++ [((v, a), x.frame)]), rem, ⟨fun src => ?_, fun src y hy => ?_,
      ?_, fun c => ?_⟩, hflat, by simpa using (push_still v dst x).good hg⟩
    · rw [htowards, hl.inbox]
      by_cases hs : src = v
      · subst hs
        simp
      · simp [hs]
    · by_cases hs : src = v
      · subst hs
        rw [Function.update_self, List.mem_append, List.mem_singleton] at hy
        rcases hy with hy | rfl
        · exact hl.source src y hy
        · rfl
      · rw [Function.update_of_ne hs] at hy
        exact hl.source src y hy
    · rw [Function.update_of_ne hv.symm]
      exact hl.own
    · have hord := hl.ordered c
      by_cases hcv : c.1 = v
      · rw [hcv, Function.update_self, ← List.append_assoc, bySender_append]
        rw [hcv] at hord
        by_cases hca : c = (v, a)
        · subst hca
          have hone : bySender (v, a) [((v, a), x.frame)] = [x.frame] := by simp [bySender]
          rw [hone, addLog, Function.update_self, List.filterMap_append, List.filterMap_cons, hpack]
          exact hord.append_right _
        · simpa [addLog, hca, bySender, Ne.symm hca] using hord
      · have hca : c ≠ (v, a) := fun h => hcv (congrArg Prod.fst h)
        simpa [addLog, hcv, hca] using hord
  · refine .still hsame (push_still v dst x) (fun src => ?_) hgrow
    rw [hi, towards_append]
    split
    · next hs =>
      have hx : x.dstFd ≠ fd := fun h => hto ⟨hs.1.symm, h⟩
      simp [towards, hx]
    · simp [towards]

theorem Moves.setWorker (hs : Stays (ctx.workers v) w)
    (hst : v = wid → Still p fd (ctx.workers v) w)
    (hi : v = wid → w.xferInbox = (ctx.workers v).xferInbox) (hlog : ∀ c, log c <+: log' c) :
    Moves wid p fd keys dstKey done sock log log' ctx (ctx.setWorker v w) := by
  refine .still (.setWorker hs) ?_ (fun src => ?_) hlog
  · by_cases hv : v = wid
    · subst hv
      rw [Ctx.setWorker_self]
      exact hst rfl
    · rw [Ctx.setWorker_ne _ _ (Ne.symm hv)]
      exact .refl _
  · by_cases hv : v = wid
    · subst hv
      rw [Ctx.setWorker_self, hi rfl]
    · rw [Ctx.setWorker_ne _ _ (Ne.symm hv)]

theorem Moves.account (stats : WorkerStats) (pipe : List PipeMsg) (allocOracle : List Bool)
    (hlog : ∀ c, log c <+: log' c) : Moves wid p fd keys dstKey done sock log log' ctx
      (ctx.setWorker v { ctx.workers v with
        stats := stats, pipe := pipe, allocOracle := allocOracle }) :=
  .setWorker (.of_core rfl) (fun _ => .account _ _ _) (fun _ => rfl) hlog

theorem Moves.enqueueOther {q : Slot} (data : Bytes)
    (hq : v = wid → q ≠ p ∧ ((ctx.workers wid).ht q).fd ≠ fd) (hlog : ∀ c, log c <+: log' c) :
    Moves wid p fd keys dstKey done sock log log' ctx
      (ctx.setWorker v (enqueueSend (ctx.workers v) q data)) := by
  refine .setWorker (.of_core (enqueueSend_sendOnly _ _ _).core) (fun hv => ?_)
    (fun _ => enqueueSend_inbox _ _ _) hlog
  subst hv
  exact .of_touches (enqueueSend_touches rfl data) (hq rfl).1 (hq rfl).2

/-! ### One frame -/

theorem Clients.other (hc : Clients wid p fd keys dstKey ctx) {k : Key} {q : Slot}
    (hq : htLookup (ctx.workers wid) k = some q) (hne : q ≠ p) :
    ((ctx.workers wid).ht q).fd ≠ fd :=
  fun hf => hne (hc.alone q (hc.lookup hq).1 hf)

theorem forwardLocal_moves {q : Slot} {k : Key} {payload : Bytes}
    (hq : htLookup (ctx.workers v) k = some q)
    (hdata : k = dstKey → packetFor (keys (v, a)) dstKey frame =
      some (buildRecvPacket (keys (v, a)) (payload.drop kKeySize))) :
    Moves wid p fd keys dstKey done sock log (addLog log (v, a) [frame]) ctx
      (ctx.setWorker v (forwardLocal (ctx.workers v) q payload
        (buildRecvPacket (keys (v, a)) (payload.drop kKeySize)))) := by
  refine .of_clients fun hc => ?_
  have hproto : ((ctx.workers v).ht q).protocol ≠ .kHd := by
    rw [hc.protocol]
    exact nofun
  unfold forwardLocal
  rw [if_neg hproto]
  by_cases hto : v = wid ∧ q = p
  · obtain ⟨rfl, rfl⟩ := hto
    have hk : k = dstKey := (hc.lookup hq).2.symm.trans (hc.lookup hc.found).2
    exact .enqueue (hdata hk)
  · refine .enqueueOther _ (fun hv => ?_) (prefix_addLog _ _ _)
    subst hv
    have hne : q ≠ p := fun h => hto ⟨rfl, h⟩
    exact ⟨hne, hc.other hq hne⟩

theorem forwardRemote_moves {k : Key} {data : Bytes} (hq : htLookup (ctx.workers v) k = none)
    (hdata : k = dstKey → packetFor (keys (v, a)) dstKey frame = some data) :
    Moves wid p fd keys dstKey done sock log (addLog log (v, a) [frame]) ctx
      (forwardRemote ctx v k data) := by
  refine .of_clients fun hc => ?_
  unfold forwardRemote
  dsimp only
  split
  · exact .still (fun _ => .refl _) (.refl _) (fun _ => rfl) (prefix_addLog _ _ _)
  · next r hr =>
    refine .push fun hw hf => ?_
    have hk := hc.routed v k r hr hw hf
    refine ⟨fun hv => ?_, hdata hk⟩
    subst hv hk
    cases hq.symm.trans hc.found

theorem dispatchFrame_moves (v : ℕ) (a : Slot) (frame : Bytes) :
    Moves wid p fd keys dstKey done sock log (addLog log (v, a) [frame]) ctx
      (dispatchFrame ctx v a frame) := by
  refine .of_clients fun hc => ?_
  have hproto : ((ctx.workers v).ht a).protocol ≠ .kHd := by
    rw [hc.protocol]
    exact nofun
  have hrun : (ctx.workers v).running ≠ false := by
    rw [hc.running]
    exact nofun
  have hgrow := prefix_addLog log (v, a) [frame]
  unfold dispatchFrame forwardMsg
  rw [if_neg hproto, if_neg hrun]
  split
  · exact .account _ _ _ hgrow
  next htype =>
  split
  · exact .still (fun _ => .refl _) (.refl _) (fun _ => rfl) hgrow
  next hlen =>
  have hdata : toKey (frame.drop kFrameHeaderSize) (Nat.le_of_not_lt hlen) = dstKey →
      packetFor (keys (v, a)) dstKey frame =
        some (buildRecvPacket (keys (v, a)) ((frame.drop kFrameHeaderSize).drop kKeySize)) := by
    intro hk
    unfold packetFor
    rw [dif_pos ⟨not_not.mp htype, Nat.le_of_not_lt hlen⟩, if_pos hk]
  have halloc : Moves wid p fd keys dstKey done sock log log ctx (frameAlloc ctx v).2 := by
    unfold frameAlloc
    dsimp only
    rw [alloc_eq]
    exact .account _ _ _ fun _ => List.prefix_refl _
  split
  · next ctx1 heq =>
    rw [heq] at halloc
    exact halloc.trans (.still (fun _ => .refl _) (.refl _) (fun _ => rfl) hgrow)
  · next ctx1 heq =>
    rw [heq] at halloc
    refine halloc.trans (.of_clients fun hc1 => ?_)
    dsimp only
    rw [hc1.key v a]
    split
    · next q hq => exact forwardLocal_moves hq hdata
    · next hq => exact forwardRemote_moves hq hdata

/-! ### One completion -/

theorem Moves.setRbuf (v : ℕ) (a : Slot) (s : Bytes) (pipe : List PipeMsg) :
    Moves wid p fd keys dstKey done sock log log ctx
      (ctx.setWorker v ({ ctx.workers v with pipe := pipe }.setRbuf a s)) :=
  .setWorker (.setPeer (by rfl) (by rfl) (by rfl) (by rfl) _ pipe _)
    (fun _ => .setPeer (by rfl) (by rfl) _ pipe _) (fun _ => rfl) fun _ => List.prefix_refl _

theorem Moves.io (h : IoOnly (ctx.workers v) w) (hs : w.io.sends fd = (ctx.workers v).io.sends fd) :
    Moves wid p fd keys dstKey done sock log log ctx (ctx.setWorker v w) := by
  refine .setWorker (.of_core (h.sendOnly 0).core) (fun _ => .io h hs) (fun _ => ?_)
    fun _ => List.prefix_refl _
  obtain ⟨io, rfl⟩ := h
  rfl

theorem recvFrames_moves (v : ℕ) (a : Slot) (proto : PeerProtocol) (n : ℕ) (ctx : Ctx)
    (log : Conn → List Bytes) (buf : Bytes) :
    Moves wid p fd keys dstKey done sock log
      (addLog log (v, a) (recvFrames v a proto n ctx buf).frames) ctx
      (recvFrames v a proto n ctx buf).ctx := by
  have hstay : ∀ ctx log, Moves wid p fd keys dstKey done sock log (addLog log (v, a) []) ctx ctx :=
    fun ctx log => .still (fun _ => .refl _) (.refl _) (fun _ => rfl) (prefix_addLog _ _ _)
  induction n generalizing ctx log buf with
  | zero => exact hstay ctx log
  | succ n ih =>
    simp only [recvFrames]
    split
    · exact hstay ctx log
    split
    · rw [addLog_nil]
      exact .account _ _ _ fun _ => List.prefix_refl _
    split
    · exact hstay ctx log
    · have h1 : Moves wid p fd keys dstKey done sock log _ ctx _ := dispatchFrame_moves v a
        (buf.take (frameHdrSize proto + readPeerPayloadLen proto buf))
      have h2 := h1.trans (ih _ _ (buf.drop (frameHdrSize proto + readPeerPayloadLen proto buf)))
      rwa [addLog_addLog] at h2

theorem recvBuffer_moves (v : ℕ) (a : Slot) (buf : Bytes) :
    Moves wid p fd keys dstKey done sock log (addLog log (v, a) (recvBuffer ctx v a buf).2) ctx
      (recvBuffer ctx v a buf).1 := by
  refine .of_clients fun hc => ?_
  have hr : Moves wid p fd keys dstKey done sock log _ ctx _ :=
    recvFrames_moves v a ((ctx.workers v).ht a).protocol buf.length ctx log buf
  unfold recvBuffer
  simp only [hc.running v, if_true]
  split
  · exact hr
  split
  · exact hr
  · exact hr.trans (.setRbuf v a _ _)

theorem recvProvided_moves (v : ℕ) (a : Slot) (buf : Bytes) :
    Moves wid p fd keys dstKey done sock log (addLog log (v, a) (recvProvided ctx v a buf).2) ctx
      (recvProvided ctx v a buf).1 := by
  unfold recvProvided
  dsimp only
  split
  · exact recvBuffer_moves v a buf
  split
  · rw [addLog_nil]
    exact .setRbuf v a _ _
  split
  · rw [addLog_nil]
    exact .setRbuf v a _ _
  split
  · rw [addLog_nil]
    exact .setRbuf v a _ _
  · rw [← List.singleton_append, ← addLog_addLog]
    exact ((dispatchFrame_moves v a _).trans (.setRbuf v a [] _)).trans (recvBuffer_moves v a _)

theorem rateLimit_moves (v : ℕ) (a : Slot) (n now : ℕ) :
    Moves wid p fd keys dstKey done sock log log ctx (rateLimit ctx v a n now).2 := by
  rcases rateLimit_snd ctx v a n now with heq | ⟨window, start, st, heq⟩
  · rw [heq]
    exact .still (fun _ => .refl _) (.refl _) (fun _ => rfl) fun _ => List.prefix_refl _
  · rw [heq]
    exact .setWorker (.setPeer (by rfl) (by rfl) (by rfl) (by rfl) st _ _)
      (fun _ => .setPeer (by rfl) (by rfl) st _ _) (fun _ => rfl) fun _ => List.prefix_refl _

theorem closeFd_moves {f : Fd} (a : Slot) (hf : v = wid → f ≠ fd) :
    Moves wid p fd keys dstKey done sock log log ctx
      (ctx.setWorker v (closeFd (ctx.workers v) f a)) := by
  refine .setWorker (.unmap f _) (fun hv => ?_) (fun _ => rfl) fun _ => List.prefix_refl _
  have hne : fd ≠ f := (hf hv).symm
  refine ⟨rfl, fun _ => rfl, ?_, fun g q hq => ?_, Nat.le_refl _, rfl⟩
  · simp [closeFd, hne]
  · exact (Stays.unmap (w := ctx.workers v) f _).entries g q hq

theorem returnBuf_moves (v : ℕ) (cqe : RecvCqe) :
    Moves wid p fd keys dstKey done sock log log ctx (returnBuf ctx v cqe) := by
  unfold returnBuf
  split
  · exact .still (fun _ => .refl _) (.refl _) (fun _ => rfl) fun _ => List.prefix_refl _
  · exact .io (submitRecv_io _ _) (submitRecv_sends _ _ _)

theorem setWorker_rbuf (h : ∀ q, (w.ht q).rbuf = ((ctx.workers v).ht q).rbuf) (u : ℕ) (q : Slot) :
    (((ctx.setWorker v w).workers u).ht q).rbuf = ((ctx.workers u).ht q).rbuf :=
  setWorker_proj (fun w => (w.ht q).rbuf) (h q) u

theorem rateLimit_rbuf (v : ℕ) (a : Slot) (n now : ℕ) (u : ℕ) (q : Slot) :
    (((rateLimit ctx v a n now).2.workers u).ht q).rbuf = ((ctx.workers u).ht q).rbuf := by
  rcases rateLimit_snd ctx v a n now with heq | ⟨window, start, st, heq⟩
  · rw [heq]
  · rw [heq]
    refine setWorker_rbuf (fun r => ?_) u q
    change (Function.update (ctx.workers v).ht a _ r).rbuf = _
    by_cases hr : r = a
    · rw [hr, Function.update_self]
    · rw [Function.update_of_ne hr]

theorem handleRecvProvided_idle
    (hclose : v = wid → cqe.fd = fd → cqe.res ≠ 0 ∧ cqe.res ≠ -kEconnreset)
    (hidle : ∀ a, (if validFd cqe.fd then (ctx.workers v).fdMap cqe.fd else none) = some a →
      0 < cqe.res → Limited ctx v a cqe) :
    Moves wid p fd keys dstKey done sock log log ctx (handleRecvProvided ctx v cqe).1 ∧
      ∀ u q, (((handleRecvProvided ctx v cqe).1.workers u).ht q).rbuf = ((ctx.workers u).ht q).rbuf := by
  have hret : ∀ ctx u q, (((returnBuf ctx v cqe).workers u).ht q).rbuf =
      ((ctx.workers u).ht q).rbuf := fun ctx u q =>
    (congrArg Peer.rbuf (Worker.core_peer (Ctx.core_worker (returnBuf_core ctx v cqe) u) q) :)
  unfold handleRecvProvided
  split
  · exact ⟨returnBuf_moves v cqe, hret ctx⟩
  next a hm =>
  split
  · split
    · next hc =>
      refine ⟨(closeFd_moves a fun hv hf => ?_).trans (returnBuf_moves v cqe), fun u q => ?_⟩
      · exact hc.elim (hclose hv hf).1 (hclose hv hf).2
      · exact (hret _ u q).trans (setWorker_rbuf (by exact fun _ => rfl) u q)
    · exact ⟨returnBuf_moves v cqe, hret ctx⟩
  next hpos =>
  have hdrop := hidle a hm (not_le.mp hpos)
  have hcount : Moves wid p fd keys dstKey done sock log log ctx
      (ctx.onWorker v fun w => countRecv w cqe.res.toNat) :=
    .account _ _ _ fun _ => List.prefix_refl _
  have hlim := hcount.trans (rateLimit_moves v a cqe.res.toNat cqe.now)
  have hbuf : ∀ u q, (((rateLimit (ctx.onWorker v fun w => countRecv w cqe.res.toNat) v a
      cqe.res.toNat cqe.now).2.workers u).ht q).rbuf = ((ctx.workers u).ht q).rbuf :=
    fun u q => (rateLimit_rbuf v a _ _ u q).trans (setWorker_rbuf (by exact fun _ => rfl) u q)
  dsimp only
  unfold Limited at hdrop
  split
  · next ctx1 heq =>
    rw [heq] at hlim hbuf
    exact ⟨hlim.trans (returnBuf_moves v cqe), fun u q => (hret ctx1 u q).trans (hbuf u q)⟩
  · next ctx1 heq =>
    rw [heq] at hdrop
    cases hdrop

theorem handleRecvProvided_moves
    (hm : (if validFd cqe.fd then (ctx.workers v).fdMap cqe.fd else none) = some a)
    (hpos : 0 < cqe.res) (hlet : ¬Limited ctx v a cqe) :
    Moves wid p fd keys dstKey done sock log
        (addLog log (v, a) (handleRecvProvided ctx v cqe).2) ctx (handleRecvProvided ctx v cqe).1 ∧
      ∀ u q, u ≠ v ∨ q ≠ a →
        (((handleRecvProvided ctx v cqe).1.workers u).ht q).rbuf = ((ctx.workers u).ht q).rbuf := by
  have hcount : Moves wid p fd keys dstKey done sock log log ctx
      (ctx.onWorker v fun w => countRecv w cqe.res.toNat) :=
    .account _ _ _ fun _ => List.prefix_refl _
  have hlim := hcount.trans (rateLimit_moves v a cqe.res.toNat cqe.now)
  have hbuf := (RecvCalm.setWorker (w := countRecv (ctx.workers v) cqe.res.toNat) rfl (.refl _)
    fun _ _ => rfl).trans (RecvCalm.rateLimit (v := v) (p := a)
      (ctx.onWorker v fun w => countRecv w cqe.res.toNat) cqe.res.toNat cqe.now)
  unfold handleRecvProvided
  rw [hm]
  dsimp only
  rw [if_neg (not_le.mpr hpos)]
  unfold Limited at hlet
  split
  · next ctx1 heq =>
    rw [heq] at hlet
    exact absurd rfl hlet
  · next ctx1 heq =>
    rw [heq] at hlim hbuf
    refine ⟨(hlim.trans (recvProvided_moves v a _)).trans (returnBuf_moves v cqe), fun u q hq => ?_⟩
    have hret := Worker.core_peer (Ctx.core_worker
      (returnBuf_core (recvProvided ctx1 v a (cqe.buf.take cqe.res.toNat)).1 v cqe) u) q
    exact (congrArg Peer.rbuf hret :).trans ((hbuf.trans (RecvCalm.recvProvided ctx1 _)).rbuf u q hq)

theorem recvDone_moves (v : ℕ) (cqe : RecvCqe) :
    Moves wid p fd keys dstKey done sock log log ctx (recvDone ctx v cqe) := by
  unfold recvDone
  split
  · exact .still (fun _ => .refl _) (.refl _) (fun _ => rfl) fun _ => List.prefix_refl _
  · exact .io ⟨_, rfl⟩ rfl

theorem recvDone_worker (ctx : Ctx) (v : ℕ) (cqe : RecvCqe) :
    IoOnly (ctx.workers v) ((recvDone ctx v cqe).workers v) := by
  unfold recvDone Ctx.onWorker
  split
  · exact .refl _
  · rw [Ctx.setWorker_self]
    exact ⟨_, rfl⟩

theorem recvDone_rbuf (ctx : Ctx) (v : ℕ) (cqe : RecvCqe) (u : ℕ) (q : Slot) :
    (((recvDone ctx v cqe).workers u).ht q).rbuf = ((ctx.workers u).ht q).rbuf := by
  unfold recvDone
  split
  · rfl
  · exact setWorker_rbuf (by exact fun _ => rfl) u q

theorem handleRecvCqe_provided (h : cqe.hasBuffer = true) (ctx : Ctx) (v : ℕ) :
    handleRecvCqe ctx v cqe = handleRecvProvided (recvDone ctx v cqe) v cqe := by
  unfold handleRecvCqe
  exact if_pos h

theorem handleRecvCqe_bare (hb : cqe.hasBuffer = false)
    (hmode : (ctx.workers v).io.useProvidedBufs = true)
    (hclose : v = wid → cqe.fd = fd → cqe.res ≠ 0 ∧ cqe.res ≠ -kEconnreset) :
    Moves wid p fd keys dstKey done sock log log ctx (handleRecvCqe ctx v cqe).1 ∧
      ∀ u q, (((handleRecvCqe ctx v cqe).1.workers u).ht q).rbuf = ((ctx.workers u).ht q).rbuf := by
  have h1 : Moves wid p fd keys dstKey done sock log log ctx _ := recvDone_moves v cqe
  have hbuf := recvDone_rbuf ctx v cqe
  have hmode1 : ((recvDone ctx v cqe).workers v).io.useProvidedBufs = true := by
    unfold recvDone Ctx.onWorker
    split
    · exact hmode
    · rw [Ctx.setWorker_self]
      exact hmode
  have heq : handleRecvCqe ctx v cqe =
      let ctx1 := recvDone ctx v cqe
      let w := ctx1.workers v
      if cqe.res = 0 ∨ cqe.res = -kEconnreset then
        match if validFd cqe.fd then w.fdMap cqe.fd else none with
        | none => (ctx1, [])
        | some p => (ctx1.setWorker v (closeFd w cqe.fd p), [])
      else if cqe.res = -kEnobufs then
        (ctx1.setWorker v (submitRecv
          { w with stats := { w.stats with recvEnobufs := w.stats.recvEnobufs + 1 } } cqe.fd), [])
      else if cqe.res = -kEinval then
        (ctx1.setWorker v (submitRecv
          { w with io := { w.io with useMultishotRecv := false } } cqe.fd), [])
      else (ctx1, []) := by
    unfold handleRecvCqe
    dsimp only
    rw [if_neg (by rw [hb]; exact nofun)]
    exact if_pos hmode1
  rw [heq]
  generalize recvDone ctx v cqe = ctx1 at h1 hbuf
  have hsub : ∀ w : Worker, w.ht = (ctx1.workers v).ht → ∀ u q,
      (((ctx1.setWorker v (submitRecv w cqe.fd)).workers u).ht q).rbuf =
        ((ctx.workers u).ht q).rbuf := by
    intro w hw u q
    refine (setWorker_rbuf (fun r => ?_) u q).trans (hbuf u q)
    obtain ⟨io, h⟩ := submitRecv_io w cqe.fd
    rw [h, ← hw]
  dsimp only
  split
  · next hc =>
    split
    · exact ⟨h1, hbuf⟩
    · next a _ =>
      refine ⟨h1.trans (closeFd_moves a fun hv hf => ?_), fun u q => ?_⟩
      · exact hc.elim (hclose hv hf).1 (hclose hv hf).2
      · exact (setWorker_rbuf (by exact fun _ => rfl) u q).trans (hbuf u q)
  split
  · have hcount : Still p fd (ctx1.workers v) { ctx1.workers v with
        stats := { (ctx1.workers v).stats with
          recvEnobufs := (ctx1.workers v).stats.recvEnobufs + 1 } } := .account _ _ _
    refine ⟨h1.trans (.setWorker (.of_core ?_) (fun _ => hcount.trans
      (.io (submitRecv_io _ _) (submitRecv_sends _ _ _))) (fun _ => ?_) fun _ => List.prefix_refl _),
      hsub _ rfl⟩
    · exact ((submitRecv_io _ _).sendOnly 0).core
    · obtain ⟨io, h⟩ := submitRecv_io { ctx1.workers v with
        stats := { (ctx1.workers v).stats with
          recvEnobufs := (ctx1.workers v).stats.recvEnobufs + 1 } } cqe.fd
      rw [h]
  split
  · refine ⟨h1.trans (.io ?_ (submitRecv_sends _ _ _)), hsub _ rfl⟩
    exact .trans ⟨_, rfl⟩ (submitRecv_io _ _)
  · exact ⟨h1, hbuf⟩

/-! ### The parsers -/

theorem received_append (chunks : List Bytes) (chunk : Bytes) :
    received (chunks ++ [chunk]) =
      ((received chunks).1 ++ (frameScan .kDerp ((received chunks).2 ++ chunk)).frames,
        if (frameScan .kDerp ((received chunks).2 ++ chunk)).stopped then []
        else (frameScan .kDerp ((received chunks).2 ++ chunk)).rest) :=
  Framing.feed_snoc _ _ chunks chunk

theorem received_pending (chunks : List Bytes) : Partial .kDerp (received chunks).2 :=
  Framing.feed_pending _ _ chunks

/-! ### Transfers and other clients' sends -/

theorem Moves.of_registered (h : Registered p fd (ctx.workers wid) →
    Moves wid p fd keys dstKey done sock log log' ctx ctx') :
    Moves wid p fd keys dstKey done sock log log' ctx ctx' := by
  intro ring hh
  obtain ⟨-, sent, pend, rem, -, -, hg⟩ := id hh
  exact h hg.registered ring hh

theorem Ledger.take {sent : List (Conn × Bytes)} {pend : ℕ → List (Conn × Bytes)}
    (h : Ledger wid fd keys dstKey w log sent pend) {src : ℕ} {rest : List Xfer}
    (hin : w.xferInbox src = x :: rest) (hx : x.dstFd = fd) :
    ∃ c, c.1 = src ∧ src ≠ wid ∧ ∃ ys, pend src = (c, x.frame) :: ys ∧
      ∀ w' : Worker, w'.xferInbox = Function.update w.xferInbox src rest →
        Ledger wid fd keys dstKey w' log (sent ++ [(c, x.frame)]) (Function.update pend src ys) ∧
          Ledger wid fd keys dstKey w' log sent (Function.update pend src ys) := by
  have htow := h.inbox src
  rw [hin] at htow
  simp only [towards, List.filter_cons, hx, decide_true, if_true, List.map_cons] at htow
  obtain ⟨⟨c, data⟩, ys, hp, hd, hys⟩ : ∃ y ys, pend src = y :: ys ∧ y.2 = x.frame ∧
      ys.map Prod.snd = towards fd rest := by
    cases hp : pend src with
    | nil => simp [hp] at htow
    | cons y ys =>
      simp only [hp, List.map_cons, List.cons.injEq] at htow
      exact ⟨y, ys, rfl, htow.1.symm, htow.2.symm⟩
  obtain rfl : data = x.frame := hd
  have hc : c.1 = src := h.source src (c, x.frame) (by rw [hp]; exact List.mem_cons_self ..)
  have hw : src ≠ wid := by
    rintro rfl
    rw [h.own] at hp
    cases hp
  refine ⟨c, hc, hw, ys, hp, fun w' hw' => ?_⟩
  have hinbox : ∀ a, towards fd (w'.xferInbox a) = (Function.update pend src ys a).map Prod.snd := by
    intro a
    rw [hw']
    by_cases ha : a = src
    · subst ha
      rw [Function.update_self, Function.update_self, hys]
    · rw [Function.update_of_ne ha, Function.update_of_ne ha, h.inbox]
  have hsource : ∀ a, ∀ y ∈ Function.update pend src ys a, y.1.1 = a := by
    intro a y hy
    by_cases ha : a = src
    · subst ha
      rw [Function.update_self] at hy
      exact h.source a y (by rw [hp]; exact List.mem_cons_of_mem _ hy)
    · rw [Function.update_of_ne ha] at hy
      exact h.source a y hy
  have hown : Function.update pend src ys wid = [] := by
    rw [Function.update_of_ne hw.symm]
    exact h.own
  -- moving the packet changes nothing for its sender, and for the others it is not there
  have hord : ∀ d, List.Sublist (bySender d (sent ++ [(c, x.frame)] ++ Function.update pend src ys d.1))
      ((log d).filterMap (packetFor (keys d) dstKey)) := by
    intro d
    have hd := h.ordered d
    by_cases hds : d.1 = src
    · rw [hds, hp] at hd
      rw [hds, Function.update_self, List.append_assoc]
      exact hd
    · have hne : bySender d [(c, x.frame)] = [] := by
        have hcd : c ≠ d := fun heq => hds (heq ▸ hc)
        simp [bySender, hcd]
      rw [Function.update_of_ne hds, bySender_append, bySender_append, hne, List.append_nil,
        ← bySender_append]
      exact hd
  refine ⟨⟨hinbox, hsource, hown, hord⟩, ⟨hinbox, hsource, hown, fun d => ?_⟩⟩
  refine (bySender_sublist ?_).trans (hord d)
  exact (List.sublist_append_left ..).append_right _

theorem xferDeliver_core (w : Worker) (x : Xfer) : (xferDeliver w x).core = w.core := by
  unfold xferDeliver
  split
  · rfl
  · exact (enqueueSend_sendOnly _ _ _).core

theorem xferDeliver_still (hr : Registered p fd w) (hx : x.dstFd ≠ fd) :
    Still p fd w (xferDeliver w x) := by
  unfold xferDeliver
  split
  · exact .refl w
  · next q hq =>
    have hfd := hr.own _ _ (xferTarget_some.mp hq).2.1
    refine .of_touches (enqueueSend_touches hfd _) ?_ hx
    rintro rfl
    exact hx (hfd.symm.trans hr.fd_eq)

theorem xferDeliver_keeps {ring : List Pending} {rem : Bytes} (hg : Good p fd w ring done rem)
    (hx : x.dstFd = fd) :
    Keeps p fd w (xferDeliver w x) ring done rem ∨
      Keeps p fd w (xferDeliver w x) ring done (rem ++ x.frame) := by
  unfold xferDeliver
  split
  · exact .inl (.refl hg)
  · next q hq =>
    have hm := (xferTarget_some.mp hq).2.1
    rw [hx, hg.registered.mapped] at hm
    cases hm
    have hk := enqueueSend_keeps hg x.frame
    split at hk
    · exact .inr hk
    · exact .inl hk

theorem popXfer_moves {src : ℕ} (h : popXfer ctx v src = some ctx') :
    Moves wid p fd keys dstKey done sock log log ctx ctx' := by
  unfold popXfer at h
  dsimp only at h
  split at h
  · cases h
  next x rest hin =>
  cases h
  by_cases hv : v = wid
  swap
  · exact .setWorker (.of_core (xferDeliver_core _ _)) (fun h => absurd h hv) (fun h => absurd h hv)
      fun _ => List.prefix_refl _
  subst hv
  refine .of_registered fun hr => ?_
  obtain ⟨w1, hw1⟩ : ∃ w1, w1 = { ctx.workers v with
      xferInbox := Function.update (ctx.workers v).xferInbox src rest } := ⟨_, rfl⟩
  have hmid : Still p fd (ctx.workers v) w1 := by
    rw [hw1]
    exact ⟨rfl, fun _ => rfl, rfl, fun _ _ h => h, Nat.le_refl _, rfl⟩
  have hinbox : (xferDeliver w1 x).xferInbox = Function.update (ctx.workers v).xferInbox src rest := by
    rw [Shards.xferDeliver_inbox, hw1]
  have hcore : (xferDeliver w1 x).core = (ctx.workers v).core := by
    rw [xferDeliver_core, hw1]
    rfl
  have hstay : Same ctx (ctx.setWorker v (xferDeliver w1 x)) := .setWorker (.of_core hcore)
  rw [← hw1]
  by_cases hx : x.dstFd = fd
  · rintro ring ⟨hc, sent, pend, rem, hl, hflat, hg⟩
    obtain ⟨c, -, -, ys, -, htake⟩ := hl.take hin hx
    obtain ⟨hsent, hdrop⟩ := htake _ hinbox
    rcases xferDeliver_keeps (hmid.good hg) hx with ⟨new, hs, hg2⟩ | ⟨new, hs, hg2⟩
    · refine ⟨new, ?_, hc.same hstay, sent, Function.update pend src ys, rem, ?_, hflat, ?_⟩
      · rw [Ctx.setWorker_self, hs, hmid.sends]
      · rwa [Ctx.setWorker_self]
      · rwa [Ctx.setWorker_self]
    · refine ⟨new, ?_, hc.same hstay, sent ++ [(c, x.frame)], Function.update pend src ys,
        rem ++ x.frame, ?_, by simp [hflat], ?_⟩
      · rw [Ctx.setWorker_self, hs, hmid.sends]
      · rwa [Ctx.setWorker_self]
      · rwa [Ctx.setWorker_self]
  · refine .still hstay ?_ (fun a => ?_) fun _ => List.prefix_refl _
    · rw [Ctx.setWorker_self]
      exact hmid.trans (xferDeliver_still (hmid.registered hr) hx)
    · rw [Ctx.setWorker_self, hinbox]
      by_cases ha : a = src
      · subst ha
        simp [hin, towards, hx]
      · simp [ha]

theorem Moves.elsewhere (hcore : w.core = (ctx.workers v).core)
    (hi : w.xferInbox = (ctx.workers v).xferInbox)
    (ht : v = wid → Registered p fd (ctx.workers v) →
      ∃ q f, q ≠ p ∧ f ≠ fd ∧ Touches q f (ctx.workers v) w) :
    Moves wid p fd keys dstKey done sock log log ctx (ctx.setWorker v w) := by
  refine .of_registered fun hr => .setWorker (.of_core hcore) (fun hv => ?_) (fun _ => hi)
    fun _ => List.prefix_refl _
  subst hv
  obtain ⟨q, f, hq, hf, ht⟩ := ht rfl hr
  exact .of_touches ht hq hf

theorem handleSendCqe_moves {cqe : Cqe} (hf : v = wid → cqe.fd ≠ fd) :
    Moves wid p fd keys dstKey done sock log log ctx
      (ctx.onWorker v fun w => handleSendCqe w cqe) := by
  refine .elsewhere (handleSendCqe_core _ _) (handleSendCqe_inbox _ _) fun hv hr => ?_
  obtain ⟨q, hq, hm⟩ := hr.other_slot (hf hv)
  exact ⟨q, cqe.fd, hq, hf hv, handleSendCqe_touches hr.own hm⟩

theorem handlePollWrite_moves {f : Fd} (hf : v = wid → f ≠ fd) :
    Moves wid p fd keys dstKey done sock log log ctx
      (ctx.onWorker v fun w => handlePollWrite w f) := by
  refine .elsewhere (handlePollWrite_core _ _) (handlePollWrite_inbox _ _) fun hv hr => ?_
  obtain ⟨q, hq, hm⟩ := hr.other_slot (hf hv)
  exact ⟨q, f, hq, hf hv, handlePollWrite_touches hr.own f hm⟩

/-! ### Steps and runs -/

theorem Moves.goOn {s : State} (h : Moves wid p fd keys dstKey s.done s.sock log log' s.ctx ctx')
    (hh : Holds wid p fd keys dstKey s.ctx s.ring s.done s.sock log) :
    Holds wid p fd keys dstKey ctx' (s.goOn wid fd ctx').ring s.done s.sock log' := by
  obtain ⟨new, hs, hh'⟩ := h s.ring hh
  have hnew : newSends fd (s.ctx.workers wid) (ctx'.workers wid) = new := by
    rw [newSends, hs, List.drop_append_of_le_length (Nat.le_refl _), List.drop_length,
      List.nil_append]
  rw [State.goOn, hnew]
  exact hh'

def State.yielded (s : State) (c : Conn) : List Bytes := (received (s.chunks c)).1

theorem yielded_feed (s : State) (c : Conn) (chunk : Bytes) : (s.feed c chunk).yielded =
    addLog s.yielded c (frameScan .kDerp ((received (s.chunks c)).2 ++ chunk)).frames := by
  funext d
  by_cases hd : d = c
  · subst hd
    simp only [State.yielded, State.feed, Function.update_self, received_append, addLog]
  · simp only [State.yielded, State.feed, addLog, Function.update_of_ne hd]

structure Inv (wid : ℕ) (p : Slot) (fd : Fd) (keys : Conn → Key) (dstKey : Key) (s : State) :
    Prop where
  holds : Holds wid p fd keys dstKey s.ctx s.ring s.done s.sock s.yielded
  rbuf : ∀ v q, ((s.ctx.workers v).ht q).rbuf = (received (s.chunks (v, q))).2

variable {s s' : State}

theorem Inv.goOn (h : Inv wid p fd keys dstKey s)
    (hm : Moves wid p fd keys dstKey s.done s.sock s.yielded s.yielded s.ctx ctx')
    (hb : ∀ u q, ((ctx'.workers u).ht q).rbuf = ((s.ctx.workers u).ht q).rbuf) :
    Inv wid p fd keys dstKey (s.goOn wid fd ctx') :=
  ⟨hm.goOn h.holds, fun v q => (hb v q).trans (h.rbuf v q)⟩

theorem setWorker_core_rbuf (hc : w.core = (ctx.workers v).core) (u : ℕ) (q : Slot) :
    (((ctx.setWorker v w).workers u).ht q).rbuf = ((ctx.workers u).ht q).rbuf :=
  setWorker_rbuf (fun q => (congrArg Peer.rbuf (Worker.core_peer hc q) :)) u q

theorem Inv.recv (h : Inv wid p fd keys dstKey s) (hp : parses s.ctx v cqe = some a)
    (hres : 0 < cqe.res → cqe.res = cqe.buf.length) :
    Inv wid p fd keys dstKey ((s.goOn wid fd (handleRecvCqe s.ctx v cqe).1).feed (v, a) cqe.buf) := by
  unfold parses at hp
  split at hp
  swap
  · cases hp
  next hdata =>
  obtain ⟨hbuf, hpos⟩ := hdata
  rw [Option.filter_eq_some_iff] at hp
  obtain ⟨hm, hlim⟩ := hp
  have hlet : ¬Limited (recvDone s.ctx v cqe) v a cqe := by simpa using hlim
  obtain ⟨hc, -⟩ := id h.holds
  have hcore : (recvDone s.ctx v cqe).core = s.ctx.core := by
    unfold recvDone
    split
    · rfl
    · exact Ctx.core_setWorker rfl
  have hfds : ((recvDone s.ctx v cqe).workers v).fdMap = (s.ctx.workers v).fdMap :=
    (congrArg Worker.fdMap (Ctx.core_worker hcore v) :)
  rw [← hfds] at hm
  obtain ⟨hmove, hothers⟩ : Moves wid p fd keys dstKey s.done s.sock s.yielded _ _ _ ∧ _ :=
    handleRecvProvided_moves hm hpos hlet
  have hatt : Attached (recvDone s.ctx v cqe) v cqe.fd a .kDerp s.ctx.peerRateLimit
      (received (s.chunks (v, a))).2 := by
    have hvalid : validFd cqe.fd = true := by
      by_contra hv
      rw [if_neg hv] at hm
      cases hm
    rw [if_pos hvalid, hfds] at hm
    exact Attached.of_core ⟨hvalid, hm, hc.live v _ a hm, hc.protocol v a, h.rbuf v a, hc.running v,
      rfl⟩ hcore
  have hne : cqe.buf ≠ [] := by
    rintro hnil
    rw [hres hpos, hnil] at hpos
    cases hpos
  obtain ⟨hframes, hrest⟩ := handleRecvProvided_scan hatt (received_pending _) rfl (hres hpos) hne hlet
  have hfirst : Moves wid p fd keys dstKey s.done s.sock s.yielded s.yielded s.ctx _ :=
    recvDone_moves v cqe
  have hall := (hfirst.trans hmove).goOn h.holds
  rw [handleRecvCqe_provided hbuf]
  constructor
  · rw [yielded_feed]
    rw [hframes] at hall
    exact hall
  · intro u q
    by_cases hca : (u, q) = (v, a)
    · cases hca
      simp only [State.feed, Function.update_self]
      exact hrest.rbuf_eq.trans (congrArg Prod.snd (received_append _ _)).symm
    · simp only [State.feed, Function.update_of_ne hca]
      refine ((hothers u q ?_).trans (recvDone_rbuf s.ctx v cqe u q)).trans (h.rbuf u q)
      by_contra hno
      rw [not_or, not_not, not_not] at hno
      exact hca (Prod.ext hno.1 hno.2)

theorem Inv.recvIdle (h : Inv wid p fd keys dstKey s) (hp : parses s.ctx v cqe = none)
    (hmode : cqe.hasBuffer = true ∨ (s.ctx.workers v).io.useProvidedBufs = true)
    (hclose : v = wid → cqe.fd = fd → cqe.res ≠ 0 ∧ cqe.res ≠ -kEconnreset) :
    Inv wid p fd keys dstKey (s.goOn wid fd (handleRecvCqe s.ctx v cqe).1) := by
  cases hbuf : cqe.hasBuffer with
  | false =>
    rw [hbuf] at hmode
    obtain ⟨hm, hb⟩ := handleRecvCqe_bare hbuf (hmode.resolve_left nofun) hclose
    exact h.goOn hm hb
  | true =>
    rw [handleRecvCqe_provided hbuf]
    have hidle : ∀ a, (if validFd cqe.fd then ((recvDone s.ctx v cqe).workers v).fdMap cqe.fd
        else none) = some a → 0 < cqe.res → Limited (recvDone s.ctx v cqe) v a cqe := by
      intro a hm hpos
      obtain ⟨io, hio⟩ := recvDone_worker s.ctx v cqe
      rw [hio] at hm
      rw [parses, if_pos ⟨hbuf, hpos⟩, Option.filter_eq_none_iff] at hp
      simpa using hp a hm
    have hfirst : Moves wid p fd keys dstKey s.done s.sock s.yielded s.yielded s.ctx _ :=
      recvDone_moves v cqe
    obtain ⟨hm, hb⟩ := handleRecvProvided_idle hclose hidle
    exact h.goOn (hfirst.trans hm) fun u q => (hb u q).trans (recvDone_rbuf s.ctx v cqe u q)

theorem step_enq {x t : SendSys} (hl : ∀ data, l ≠ .enqueue data) (e : Bytes)
    (h : x.step p fd l = some t) :
    ({ x with enq := e } : SendSys).step p fd l = some { t with enq := e } := by
  cases l with
  | enqueue data => exact absurd rfl (hl data)
  | flush => cases h; rfl
  | pollWrite => cases h; rfl
  | exec o =>
    simp only [SendSys.step] at h ⊢
    split at h
    · cases h
    cases o with
    | full => cases h; rfl
    | short n =>
      dsimp only at h ⊢
      split at h
      · next hn =>
        cases h
        rw [if_pos hn]
      · cases h
    | again r => cases h; rfl
  | complete more =>
    simp only [SendSys.step] at h ⊢
    split at h
    · cases h
    cases h
    rfl
  | notif => cases h; rfl

theorem step_worker {x t : SendSys} (hl : ∀ data, l ≠ .enqueue data) (h : x.step p fd l = some t) :
    t.w.core = x.w.core ∧ t.w.xferInbox = x.w.xferInbox := by
  cases l with
  | enqueue data => exact absurd rfl (hl data)
  | flush =>
    cases h
    exact ⟨flushPendingSends_core _, flushPendingSends_inbox _⟩
  | pollWrite =>
    cases h
    exact ⟨handlePollWrite_core _ _, handlePollWrite_inbox _ _⟩
  | exec o =>
    simp only [SendSys.step] at h
    split at h
    · cases h
    cases o with
    | full => cases h; exact ⟨rfl, rfl⟩
    | short n =>
      dsimp only at h
      split at h
      · cases h; exact ⟨rfl, rfl⟩
      · cases h
    | again r => cases h; exact ⟨rfl, rfl⟩
  | complete more =>
    simp only [SendSys.step] at h
    split at h
    · cases h
    cases h
    exact ⟨handleSendCqe_core _ _, handleSendCqe_inbox _ _⟩
  | notif =>
    cases h
    exact ⟨handleSendCqe_core _ _, handleSendCqe_inbox _ _⟩

theorem Inv.send (h : Inv wid p fd keys dstKey s) (hl : ∀ data, l ≠ .enqueue data)
    (hok : (s.view wid).stepOk p l) {t : SendSys} (ht : (s.view wid).step p fd l = some t) :
    Inv wid p fd keys dstKey { s with
      ctx := s.ctx.setWorker wid t.w, ring := t.ring, done := t.done, sock := t.sock } := by
  obtain ⟨hc, sent, pend, rem, hledger, hflat, hg⟩ := h.holds
  obtain ⟨hcore, hinbox⟩ := step_worker hl ht
  have hin : ({ s.view wid with enq := s.sock ++ rem } : SendSys).InOrder p fd := ⟨rem, rfl, hg⟩
  have hok' : ({ s.view wid with enq := s.sock ++ rem } : SendSys).stepOk p l := by
    cases l <;> exact hok
  obtain ⟨rem', henq, hg'⟩ := step_inOrder hin hok' (step_enq hl _ ht)
  refine ⟨⟨hc.same (.setWorker (.of_core hcore)), sent, pend, rem', ?_, hflat.trans henq, ?_⟩,
    fun v q => ?_⟩
  · rw [Ctx.setWorker_self]
    refine { hledger with inbox := fun src => ?_ }
    rw [hinbox]
    exact hledger.inbox src
  · rwa [Ctx.setWorker_self]
  · exact (setWorker_core_rbuf hcore v q).trans (h.rbuf v q)

theorem popXfer_rbuf {src : ℕ} (h : popXfer ctx v src = some ctx') (u : ℕ) (q : Slot) :
    ((ctx'.workers u).ht q).rbuf = ((ctx.workers u).ht q).rbuf := by
  unfold popXfer at h
  dsimp only at h
  split at h
  · cases h
  · cases h
    exact setWorker_core_rbuf (by rw [xferDeliver_core]; rfl) u q

theorem Inv.step (h : Inv wid p fd keys dstKey s) {l : Label} (hok : Quiet wid p fd s l)
    (hs : step wid p fd s l = some s') : Inv wid p fd keys dstKey s' := by
  cases l with
  | recv v cqe =>
    obtain ⟨hmode, hres, hclose⟩ := hok
    simp only [Conversation.step] at hs
    split at hs
    · next hp =>
      cases hs
      exact h.recvIdle hp hmode hclose
    · next a hp =>
      cases hs
      exact h.recv hp hres
  | pop v src =>
    obtain ⟨ctx', hpop, rfl⟩ := Option.map_eq_some_iff.1 hs
    exact h.goOn (popXfer_moves hpop) (popXfer_rbuf hpop)
  | complete v cqe =>
    cases hs
    exact h.goOn (handleSendCqe_moves hok) (setWorker_core_rbuf (handleSendCqe_core _ _))
  | pollWrite v f =>
    cases hs
    exact h.goOn (handlePollWrite_moves hok) (setWorker_core_rbuf (handlePollWrite_core _ _))
  | flush v =>
    cases hs
    exact h.goOn (.elsewhere (flushPendingSends_core _) (flushPendingSends_inbox _)
      fun hv => absurd hv hok) (setWorker_core_rbuf (flushPendingSends_core _))
  | send l =>
    obtain ⟨t, ht, rfl⟩ := Option.map_eq_some_iff.1 hs
    exact h.send hok.1 hok.2 ht

theorem Init.inv (h : Init wid p fd keys dstKey s) : Inv wid p fd keys dstKey s := by
  have hempty : ∀ c, s.yielded c = [] := fun c => by
    rw [State.yielded, h.chunks]
    rfl
  obtain ⟨rem, henq, hg⟩ := fresh_inOrder h.fresh
  refine ⟨⟨h.clients, [], fun _ => [], rem, ⟨fun src => ?_, nofun, rfl, fun c => ?_⟩, henq, hg⟩,
    fun v q => ?_⟩
  · have hnone : ((s.ctx.workers wid).xferInbox src).filter (fun x => x.dstFd = fd) = [] :=
      List.filter_eq_nil_iff.2 fun x hx => by simpa using h.inbox src x hx
    rw [towards, hnone]
    rfl
  · rw [hempty]
    exact List.Sublist.refl _
  · rw [h.rbuf, h.chunks]
    rfl

theorem reach_inv (h : Runs.Reach (Init wid p fd keys dstKey) (step wid p fd) (Quiet wid p fd) s) :
    Inv wid p fd keys dstKey s :=
  h.invariant (fun _ h0 => h0.inv) fun _ _ _ hi hok hs => hi.step hok hs

theorem Inv.delivers (h : Inv wid p fd keys dstKey s) : ∃ sent, Delivers keys dstKey s sent := by
  obtain ⟨-, sent, pend, rem, hledger, hflat, -⟩ := h.holds
  refine ⟨sent, ⟨rem, hflat.symm⟩, fun c => ?_⟩
  exact (bySender_sublist (List.sublist_append_left ..)).trans (hledger.ordered c)

/-- In every run of clients that stay, what the receiver's socket has taken is a beginning of whole
frames, each a packet of some client with that client's key and data, those of one client in the
order in which it sent them. -/
theorem delivered_in_order (h : Runs.Reach (Init wid p fd keys dstKey) (step wid p fd)
    (Quiet wid p fd) s) : ∃ sent, Delivers keys dstKey s sent :=
  (reach_inv h).delivers

end

/-! ### A packet between two workers -/

def clientOn (w : Worker) (fd : Fd) (key : Key) : Worker :=
  { w with
    ht := Function.update w.ht (homeSlot key)
      { fd := fd, key := key, occupied := .live, rbufAlloc := true }
    fdMap := Function.update w.fdMap fd (some (homeSlot key)) }

def routeToTwo : Slot → Route :=
  Function.update (fun _ => {}) (homeSlot (byteKey 2)) ⟨byteKey 2, 1, 4, .live⟩

/-- Client 1 on worker 0 and client 2 on worker 1, which worker 0 has a route to. -/
def twoClients : State where
  ctx :=
    { workers := fun v =>
        if v = 0 then
          { clientOn {} 3 (byteKey 1) with routes := routeToTwo }
        else if v = 1 then clientOn {} 4 (byteKey 2)
        else {}
      numWorkers := 2 }

def oneByteToTwo : Bytes := writeFrameHeader .kSendPacket 33 ++ (byteKey 2).data ++ [7]

def acrossTwo : List Label :=
  [.recv 0 { fd := 3, res := 20, buf := oneByteToTwo.take 20 },
    .recv 0 { fd := 3, res := 18, buf := oneByteToTwo.drop 20 },
    .pop 1 0, .send .flush]

def keysOf (s : State) (c : Conn) : Key := ((s.ctx.workers c.1).ht c.2).key

def toTwo : State → Label → Option State := step 1 (homeSlot (byteKey 2)) 4

theorem twoClients_worker (v : ℕ) :
    twoClients.ctx.workers v = { clientOn {} 3 (byteKey 1) with routes := routeToTwo } ∨
    twoClients.ctx.workers v = clientOn {} 4 (byteKey 2) ∨ twoClients.ctx.workers v = {} := by
  by_cases h0 : v = 0
  · subst h0
    exact .inl rfl
  · by_cases h1 : v = 1
    · subst h1
      exact .inr (.inl rfl)
    · simp [twoClients, h0, h1]

theorem twoClients_init : Init 1 (homeSlot (byteKey 2)) 4 (keysOf twoClients) (byteKey 2)
    twoClients := by
  refine ⟨⟨?_, fun _ _ => rfl, ?_, ?_, by decide, ?_, ?_⟩, ?_, ?_, ?_, fun _ => rfl⟩
  · intro v q
    rcases twoClients_worker v with h | h | h <;>
      simp only [h, clientOn, Function.update_apply] <;> split <;> rfl
  · intro v
    rcases twoClients_worker v with h | h | h <;> rw [h] <;> rfl
  · intro v f q hq
    rcases twoClients_worker v with h | h | h <;> rw [h] at hq ⊢
    · simp only [clientOn, Function.update_apply] at hq ⊢
      split at hq <;> simp_all
    · simp only [clientOn, Function.update_apply] at hq ⊢
      split at hq <;> simp_all
    · cases hq
  · intro q hl _
    by_contra hne
    simp [twoClients, clientOn, hne] at hl
  · intro v k a hr _ _
    have hlive := LinearProbe.holds_of_lookup routeView keyHash hr
    rcases twoClients_worker v with h | h | h <;> rw [h] at hlive
    · by_cases ha : a = homeSlot (byteKey 2)
      · subst ha
        rw [← hlive.2]
        simp [routeToTwo, routeView]
      · have hocc := hlive.1
        simp [routeToTwo, routeView, ha] at hocc
    · cases hlive.1
    · cases hlive.1
  · refine ⟨⟨by decide, by decide, ?_⟩, ?_, ?_, ?_, ?_, ?_, rfl, rfl, rfl, rfl⟩
    · intro f q hq
      have hf : f = 4 := by
        by_contra hne
        simp [State.view, twoClients, clientOn, hne] at hq
      subst hf
      have hq' : homeSlot (byteKey 2) = q := by
        simpa [State.view, twoClients, clientOn] using hq
      subst hq'
      simp [State.view, twoClients, clientOn]
    all_goals simp [State.view, twoClients, clientOn]
  · intro v q
    rcases twoClients_worker v with h | h | h <;>
      simp only [h, clientOn, Function.update_apply] <;> split <;> rfl
  · intro src x hx
    cases hx

theorem acrossTwo_quiet (s : State) (l : Label) (hl : l ∈ acrossTwo) :
    Quiet 1 (homeSlot (byteKey 2)) 4 s l := by
  simp only [acrossTwo, List.mem_cons, List.not_mem_nil, or_false] at hl
  rcases hl with rfl | rfl | rfl | rfl
  · exact ⟨.inl rfl, fun _ => by decide, fun h => by cases h⟩
  · exact ⟨.inl rfl, fun _ => by decide, fun h => by cases h⟩
  · trivial
  · exact ⟨fun _ => by simp, trivial⟩

def twoPieces (c : Conn) : List Bytes :=
  if c = (0, homeSlot (byteKey 1)) then [oneByteToTwo.take 20, oneByteToTwo.drop 20] else []

theorem across_run : ∃ s,
    Runs.Reach (Init 1 (homeSlot (byteKey 2)) 4 (keysOf twoClients) (byteKey 2)) toTwo
      (Quiet 1 (homeSlot (byteKey 2)) 4) s ∧
    s.sock = buildRecvPacket (byteKey 1) [7] ∧ s.chunks = twoPieces := by
  have hrun : ((Runs.run toTwo twoClients acrossTwo).bind fun s =>
      (toTwo s (.send (.exec .full))).map fun t => (s.ring.map Pending.stalled, t.sock)) =
      some ([false], buildRecvPacket (byteKey 1) [7]) := by decide
  have hpieces : ((Runs.run toTwo twoClients acrossTwo).bind fun s =>
      (toTwo s (.send (.exec .full))).map fun t => t.chunks) =
      some (Function.update (Function.update (fun _ => []) (0, homeSlot (byteKey 1))
        [oneByteToTwo.take 20]) (0, homeSlot (byteKey 1))
          [oneByteToTwo.take 20, oneByteToTwo.drop 20]) := rfl
  obtain ⟨s, hs, hlast⟩ := Option.bind_eq_some_iff.1 hrun
  obtain ⟨t, ht, heq⟩ := Option.map_eq_some_iff.1 hlast
  obtain ⟨hring, hsock⟩ := Prod.mk.inj heq
  rw [hs, Option.bind_some, ht, Option.map_some, Option.some_inj] at hpieces
  have hreach := Runs.reach_run (.start _ twoClients_init)
    (Runs.runOk_of_forall acrossTwo_quiet _) hs
  have hexec : Quiet 1 (homeSlot (byteKey 2)) 4 s (.send (.exec .full)) := by
    refine ⟨fun _ => by simp, fun u hu hst => ?_⟩
    have hmem : u.stalled ∈ s.ring.map Pending.stalled :=
      List.mem_map_of_mem (List.mem_of_mem_head? hu)
    rw [hring, hst] at hmem
    cases List.mem_singleton.1 hmem
  refine ⟨t, .next s t _ hreach hexec ht, hsock, ?_⟩
  rw [hpieces]
  funext c
  simp only [twoPieces, Function.update_apply]
  split <;> rfl

/-- The frame arrives at client 2, with the key of client 1. -/
theorem across_delivered : ∃ s sent, s.sock = buildRecvPacket (byteKey 1) [7] ∧
    Delivers (keysOf twoClients) (byteKey 2) s sent := by
  obtain ⟨s, hreach, hsock, -⟩ := across_run
  obtain ⟨sent, hsent⟩ := delivered_in_order hreach
  exact ⟨s, sent, hsock, hsent⟩

end HyperDerp.Conversation
