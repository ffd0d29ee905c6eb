import HyperDerp.HdBridge
import HyperDerp.Lib.LinearProbe

/-!
# Data plane types (`types.h`)

Tuning constants and the per-peer, per-worker and global state of the data
plane. A `Peer*` is the index of a slot of the worker's hash table, an fd is an
integer with `-1` for none, fixed-size arrays indexed by slot or fd are
functions, and a ring or a linked list is the list of what it holds.

Three things stand for what the source leaves to its environment. `Io.sqes` is
the list of submission entries the worker has prepared, oldest first.
`Io.sqeOracle` and `Worker.allocOracle` are the outcomes of the coming
`io_uring_get_sqe` and allocation calls; an exhausted oracle means success.
-/

namespace HyperDerp

open LinearProbe (Occ)

/-! ### Tuning constants (`types.h:17-141`) -/

def kHtCapacity : ℕ := 4096
def kCmdRingSize : ℕ := 1024
def kXferSpscSize : ℕ := 16384
def kMaxWorkers : ℕ := 32
def kMaxFd : ℤ := 65536
def kReadBufSize : ℕ := kFrameHeaderSize + kMaxFramePayload
def kMaxSendsInflight : ℤ := 16
def kPollWriteBatch : ℕ := 16
def kMaxCqeBatch : ℕ := 256
def kMaxSendQueueDepth : ℤ := 2048
def kSendPressureMax : ℤ := 32768
def kPressurePerPeer : ℤ := 512
def kRecvPauseMinBatches : ℤ := 8
def kRecvBudget : ℤ := 512
def kRecvDeferSize : ℕ := 4096
def kMaxPeerRules : ℕ := 16
def kZcThreshold : ℕ := 4096

instance : NeZero kHtCapacity := ⟨by decide⟩

/-- `SendPressureHigh` (`types.h:79-84`). -/
def sendPressureHigh (peerCount : ℤ) : ℤ :=
  let h := peerCount * kPressurePerPeer
  let h := if h < kPressurePerPeer then kPressurePerPeer else h
  if kSendPressureMax < h then kSendPressureMax else h

/-- `PressureResumeDiv` (`types.h:90-94`). -/
def pressureResumeDiv (peerCount : ℤ) : ℤ :=
  if peerCount ≤ 12 then 8 else if peerCount ≤ 24 then 6 else 4

/-- `SendPressureLow` (`types.h:97-100`). -/
def sendPressureLow (peerCount : ℤ) : ℤ :=
  sendPressureHigh peerCount / pressureResumeDiv peerCount

/-! ### Peers and routes (`types.h:164-250`) -/

abbrev Fd := ℤ

/-- A `Peer*` into the worker's hash table. -/
abbrev Slot := Fin kHtCapacity

/-- `fd >= 0 && fd < kMaxFd`: the guard before every fd-indexed array. -/
def validFd (fd : Fd) : Bool := decide (0 ≤ fd ∧ fd < kMaxFd)

inductive PeerProtocol where
  | kDerp
  | kHd
  deriving DecidableEq

/-- A queued send; `id` is the address of the node. -/
structure SendItem where
  id : ℕ
  data : Bytes
  deriving DecidableEq

structure FwdRule where
  peer : Option Slot := none
  key : Key := zeroKey
  dstFd : Fd := -1
  dstWorker : ℤ := -1
  deriving DecidableEq

/-- The send-path fields of a peer. `queue` is the chain of nodes reachable
from `send_head`; `tail` and `next` are the `send_tail` and `send_next`
pointers. -/
structure SendState where
  inflight : ℤ := 0
  queued : ℤ := 0
  pending : Bool := false
  queue : List SendItem := []
  tail : Option ℕ := none
  next : Option ℕ := none
  noZc : Bool := false
  zcDraining : Bool := false
  pollWritePending : Bool := false

structure Peer where
  fd : Fd := 0
  occupied : Occ := .empty
  protocol : PeerProtocol := .kDerp
  peerId : ℕ := 0
  fwdCount : ℕ := 0
  fwd1DstFd : Fd := 0
  fwd1DstWorker : ℤ := 0
  fwd1Peer : Option Slot := none
  fwd : ℕ → FwdRule := fun _ => { dstFd := 0, dstWorker := 0 }
  send : SendState := {}
  key : Key := zeroKey
  recvBytesWindow : ℕ := 0
  windowStartNs : ℕ := 0
  /-- whether `rbuf` is allocated -/
  rbufAlloc : Bool := false
  /-- `rbuf[0 .. rbuf_len)` -/
  rbuf : Bytes := []

structure Route where
  key : Key := zeroKey
  workerId : ℕ := 0
  fd : Fd := 0
  occupied : Occ := .empty

/-- Commands from the control plane to a worker (`types.h:151-159`). -/
inductive Cmd where
  | addPeer (fd : Fd) (key : Key) (protocol : PeerProtocol) (peerId : ℕ)
  | removePeer (key : Key)
  | write (key : Key) (data : Bytes)
  | stop
  | setFwdRule (key dstKey : Key)
  | movePeerOut (key : Key)
  deriving DecidableEq

/-- What a cross-shard frame was addressed to: the key of a SendPacket, or the
key of a forwarding rule, with whether that peer was live when the frame was
dispatched. -/
inductive Origin where
  | packet (key : Key)
  | rule (key : Key) (due : Bool)
  deriving DecidableEq

/-- Cross-shard transfer item. `tag` is ghost: no operation reads it. -/
structure Xfer where
  dstFd : Fd
  frame : Bytes
  dstGen : ℕ
  tag : Option Origin := none
  deriving DecidableEq

/-- Counters of `WorkerStats` that the modelled functions advance. -/
structure WorkerStats where
  sendDrops : ℕ := 0
  xferDrops : ℕ := 0
  slabExhausts : ℕ := 0
  recvBytes : ℕ := 0
  sendBytes : ℕ := 0
  sendEpipe : ℕ := 0
  sendEconnreset : ℕ := 0
  sendEagain : ℕ := 0
  sendOtherErr : ℕ := 0
  recvEnobufs : ℕ := 0
  sendQueueDrops : ℕ := 0
  recvPauses : ℕ := 0
  hdMeshForwards : ℕ := 0
  hdFleetForwards : ℕ := 0
  rateLimitDrops : ℕ := 0
  hdFwdNoRoute : ℕ := 0
  deriving DecidableEq

/-! ### Submission queue -/

/-- A prepared submission entry. A receive without provided buffers carries the
space it may fill; `unprepared` is an entry taken and left as it was. -/
inductive Sqe where
  | recv (fd : Fd) (space : Option ℕ)
  | send (fd : Fd) (item : ℕ) (data : Bytes) (more zc : Bool)
  | pollOut (fd : Fd)
  | unprepared
  deriving DecidableEq

structure Io where
  sqes : List Sqe := []
  sqeOracle : List Bool := []
  sqOverflow : ℕ := 0
  recvInflight : ℤ := 0
  recvDefer : List Fd := []
  recvPaused : Bool := false
  recvPauseCountdown : ℤ := 0
  useProvidedBufs : Bool := true
  useMultishotRecv : Bool := true

/-- A message on the worker's control pipe: `[4B fd][1B type][4B len][payload]`. -/
structure PipeMsg where
  fd : Fd
  type : Byte
  payload : Bytes
  deriving DecidableEq

structure Worker where
  running : Bool := true
  ht : Slot → Peer := fun _ => {}
  fdMap : Fd → Option Slot := fun _ => none
  peerIdMap : Option (ℕ → Option Slot) := none
  fdGen : Fd → ℕ := fun _ => 0
  notifMap : Fd → List SendItem := fun _ => []
  routes : Slot → Route := fun _ => {}
  cmdRing : List Cmd := []
  xferInbox : ℕ → List Xfer := fun _ => []
  pipe : List PipeMsg := []
  io : Io := {}
  sendPressure : ℤ := 0
  peerCount : ℤ := 0
  pendingFds : List Fd := []
  /-- bit `i` set: worker `i` needs a signal after this batch -/
  xferSignalPending : ℕ → Bool := fun _ => false
  /-- bit `i` set: the inbox of source `i` may hold data -/
  pendingSources : ℕ → Bool := fun _ => false
  allocOracle : List Bool := []
  nextItem : ℕ := 0
  stats : WorkerStats := {}

/-- Top-level data plane context (`types.h:412-431`). -/
structure Ctx where
  workers : ℕ → Worker
  numWorkers : ℕ
  peerRateLimit : ℕ := 0
  relayId : ℕ := 0
  relayPeerMap : ℕ → ℕ := fun _ => 0
  /-- sockets that `getsockname` reports as AF_UNIX -/
  isUnix : Fd → Bool := fun _ => false

/-- `PeerWorker` (`data_plane.cc:98-102`). -/
def peerWorker (numWorkers : ℕ) (key : Key) : ℕ := fnv1a key.data % numWorkers

def Ctx.setWorker (ctx : Ctx) (i : ℕ) (w : Worker) : Ctx :=
  { ctx with workers := Function.update ctx.workers i w }

def Worker.setPeer (w : Worker) (p : Slot) (peer : Peer) : Worker :=
  { w with ht := Function.update w.ht p peer }

@[simp] theorem Ctx.setWorker_self (ctx : Ctx) (i : ℕ) (w : Worker) :
    (ctx.setWorker i w).workers i = w := by
  simp [Ctx.setWorker]

theorem Ctx.setWorker_ne (ctx : Ctx) {i j : ℕ} (w : Worker) (h : j ≠ i) :
    (ctx.setWorker i w).workers j = ctx.workers j := by
  simp [Ctx.setWorker, h]

@[simp] theorem Ctx.setWorker_numWorkers (ctx : Ctx) (i : ℕ) (w : Worker) :
    (ctx.setWorker i w).numWorkers = ctx.numWorkers := rfl

@[simp] theorem Worker.setPeer_self (w : Worker) (p : Slot) (peer : Peer) :
    (w.setPeer p peer).ht p = peer := by
  simp [Worker.setPeer]

theorem Worker.setPeer_ne (w : Worker) {p q : Slot} (peer : Peer) (h : q ≠ p) :
    (w.setPeer p peer).ht q = w.ht q := by
  simp [Worker.setPeer, h]

end HyperDerp
