import HyperDerp.DataPlane.Effects
import HyperDerp.Lib.Framing

/-!
# Receive completions and frame reassembly (`data_plane.cc:1584-1808`)

The handlers of a receive completion. Besides the new context they return the
frames they passed to `DispatchFrame`, in order, which is what the reassembly
results are about.

Dispatching neither reads nor writes the receive buffer or the protocol of a
peer (`dispatchFrame_core`), so header size and protocol are read once.
-/

namespace HyperDerp

/-- A receive completion: the fd, the result, what the provided buffer holds
and, for the rate limiter, the clock. `hasBuffer` and `more` are its flags. -/
structure RecvCqe where
  fd : Fd
  res : ℤ
  buf : Bytes := []
  hasBuffer : Bool := true
  more : Bool := false
  now : ℕ := 0

structure RecvLoop where
  ctx : Ctx
  frames : List Bytes
  rest : Bytes
  closed : Bool

/-- Dispatch complete frames from the front of `buf`, at most `n` of them. The
loop of both receive handlers (`data_plane.cc:1670-1687`, `:1733-1757`). -/
def recvFrames (wid : ℕ) (p : Slot) (proto : PeerProtocol) : ℕ → Ctx → Bytes → RecvLoop
  | 0, ctx, buf => ⟨ctx, [], buf, false⟩
  | n + 1, ctx, buf =>
    let hdrSize := frameHdrSize proto
    if buf.length < hdrSize then ⟨ctx, [], buf, false⟩
    else
      let payloadLen := readPeerPayloadLen proto buf
      if !isValidPeerPayloadLen proto payloadLen then
        ⟨ctx.onWorker wid fun w => notifyPeerClose w p, [], buf, true⟩
      else
        let frameLen := hdrSize + payloadLen
        if buf.length < frameLen then ⟨ctx, [], buf, false⟩
        else
          let frame := buf.take frameLen
          let r := recvFrames wid p proto n (dispatchFrame ctx wid p frame) (buf.drop frameLen)
          { r with frames := frame :: r.frames }

def Worker.setRbuf (w : Worker) (p : Slot) (rbuf : Bytes) : Worker :=
  w.setPeer p { w.ht p with rbuf := rbuf }

/-- Parse straight out of the provided buffer and save the tail
(`data_plane.cc:1665-1694`). -/
def recvBuffer (ctx : Ctx) (wid : ℕ) (p : Slot) (buf : Bytes) : Ctx × List Bytes :=
  let w := ctx.workers wid
  let proto := (w.ht p).protocol
  let r := if w.running then recvFrames wid p proto buf.length ctx buf else ⟨ctx, [], buf, false⟩
  if r.closed then (r.ctx, r.frames)
  else if r.rest.isEmpty then (r.ctx, r.frames)
  else (r.ctx.onWorker wid fun w => w.setRbuf p r.rest, r.frames)

/-- Complete a partial frame first (`data_plane.cc:1621-1663`): top up the
header, then the payload. -/
def recvProvided (ctx : Ctx) (wid : ℕ) (p : Slot) (buf : Bytes) : Ctx × List Bytes :=
  let peer := (ctx.workers wid).ht p
  let hdrSize := frameHdrSize peer.protocol
  if peer.rbuf.isEmpty then recvBuffer ctx wid p buf
  else
    let rbuf := peer.rbuf ++ buf.take (hdrSize - peer.rbuf.length)
    let buf := buf.drop (hdrSize - peer.rbuf.length)
    if rbuf.length < hdrSize then (ctx.onWorker wid fun w => w.setRbuf p rbuf, [])
    else
      let payloadLen := readPeerPayloadLen peer.protocol rbuf
      if !isValidPeerPayloadLen peer.protocol payloadLen then
        (ctx.onWorker wid fun w => (notifyPeerClose w p).setRbuf p [], [])
      else
        let need := hdrSize + payloadLen - rbuf.length
        if buf.length < need then (ctx.onWorker wid fun w => w.setRbuf p (rbuf ++ buf), [])
        else
          let frame := rbuf ++ buf.take need
          let ctx := (dispatchFrame ctx wid p frame).onWorker wid fun w => w.setRbuf p []
          let r := recvBuffer ctx wid p (buf.drop need)
          (r.1, frame :: r.2)

/-- Per-peer rate limit (`data_plane.cc:1606-1619`); `true` drops the data. -/
def rateLimit (ctx : Ctx) (wid : ℕ) (p : Slot) (n now : ℕ) : Bool × Ctx :=
  if ctx.peerRateLimit = 0 then (false, ctx)
  else
    let w := ctx.workers wid
    let peer := w.ht p
    let peer :=
      if 1000000000 < (now + 2 ^ 64 - peer.windowStartNs) % 2 ^ 64 then
        { peer with recvBytesWindow := 0, windowStartNs := now }
      else peer
    let peer := { peer with recvBytesWindow := peer.recvBytesWindow + n }
    let w := w.setPeer p peer
    if ctx.peerRateLimit < peer.recvBytesWindow then
      (true, ctx.setWorker wid
        { w with stats := { w.stats with rateLimitDrops := w.stats.rateLimitDrops + 1 } })
    else (false, ctx.setWorker wid w)

/-- Give the buffer back and request the next receive (`data_plane.cc:1697-1707`). -/
def returnBuf (ctx : Ctx) (wid : ℕ) (cqe : RecvCqe) : Ctx :=
  if cqe.more then ctx else ctx.onWorker wid fun w => submitRecv w cqe.fd

def closeFd (w : Worker) (fd : Fd) (p : Slot) : Worker :=
  { notifyPeerClose w p with fdMap := Function.update w.fdMap fd none }

def countRecv (w : Worker) (n : ℕ) : Worker :=
  { w with stats := { w.stats with recvBytes := w.stats.recvBytes + n } }

/-- `HandleRecvProvided` (`data_plane.cc:1586-1708`). -/
def handleRecvProvided (ctx : Ctx) (wid : ℕ) (cqe : RecvCqe) : Ctx × List Bytes :=
  match if validFd cqe.fd then (ctx.workers wid).fdMap cqe.fd else none with
  | none => (returnBuf ctx wid cqe, [])
  | some p =>
    if cqe.res ≤ 0 then
      if cqe.res = 0 ∨ cqe.res = -kEconnreset then
        (returnBuf (ctx.onWorker wid fun w => closeFd w cqe.fd p) wid cqe, [])
      else (returnBuf ctx wid cqe, [])
    else
      let n := cqe.res.toNat
      match rateLimit (ctx.onWorker wid fun w => countRecv w n) wid p n cqe.now with
      | (true, ctx) => (returnBuf ctx wid cqe, [])
      | (false, ctx) =>
        let r := recvProvided ctx wid p (cqe.buf.take n)
        (returnBuf r.1 wid cqe, r.2)

/-- `HandleRecvSingle` (`data_plane.cc:1710-1762`): the kernel has appended to
the peer's own buffer. -/
def handleRecvSingle (ctx : Ctx) (wid : ℕ) (cqe : RecvCqe) : Ctx × List Bytes :=
  match if validFd cqe.fd then (ctx.workers wid).fdMap cqe.fd else none with
  | none => (ctx, [])
  | some p =>
    if cqe.res ≤ 0 then
      if cqe.res = 0 ∨ cqe.res = -kEconnreset then
        (ctx.onWorker wid fun w => closeFd w cqe.fd p, [])
      else (ctx, [])
    else
      let n := cqe.res.toNat
      let ctx := ctx.onWorker wid fun w => countRecv w n
      let w := ctx.workers wid
      let peer := w.ht p
      let rbuf := peer.rbuf ++ cqe.buf.take n
      let r :=
        if w.running then recvFrames wid p peer.protocol rbuf.length ctx rbuf
        else ⟨ctx, [], rbuf, false⟩
      let ctx := r.ctx.onWorker wid fun w => w.setRbuf p r.rest
      if r.closed then (ctx, r.frames)
      else if ((ctx.workers wid).ht p).occupied = .live then
        (ctx.onWorker wid fun w => submitRecv w cqe.fd, r.frames)
      else (ctx, r.frames)

/-- `HandleRecvCqe` (`data_plane.cc:1764-1808`). -/
def handleRecvCqe (ctx : Ctx) (wid : ℕ) (cqe : RecvCqe) : Ctx × List Bytes :=
  let ctx :=
    if cqe.more then ctx
    else ctx.onWorker wid fun w =>
      { w with io := { w.io with
          recvInflight := if w.io.recvInflight - 1 < 0 then 0 else w.io.recvInflight - 1 } }
  let w := ctx.workers wid
  if cqe.hasBuffer then handleRecvProvided ctx wid cqe
  else if w.io.useProvidedBufs then
    if cqe.res = 0 ∨ cqe.res = -kEconnreset then
      match if validFd cqe.fd then w.fdMap cqe.fd else none with
      | none => (ctx, [])
      | some p => (ctx.setWorker wid (closeFd w cqe.fd p), [])
    else if cqe.res = -kEnobufs then
      (ctx.setWorker wid (submitRecv
        { w with stats := { w.stats with recvEnobufs := w.stats.recvEnobufs + 1 } } cqe.fd), [])
    else if cqe.res = -kEinval then
      (ctx.setWorker wid (submitRecv
        { w with io := { w.io with useMultishotRecv := false } } cqe.fd), [])
    else (ctx, [])
  else handleRecvSingle ctx wid cqe

/-! ### The reference: frames of a stream -/

theorem readPeerPayloadLen_append (proto : PeerProtocol) (s t : Bytes)
    (h : frameHdrSize proto ≤ s.length) :
    readPeerPayloadLen proto (s ++ t) = readPeerPayloadLen proto s := by
  cases proto with
  | kDerp => exact readPayloadLen_append s t h
  | kHd => exact hdReadPayloadLen_append s t h

def frameFormat (proto : PeerProtocol) : Framing.Format Byte where
  hdr := frameHdrSize proto
  len := readPeerPayloadLen proto
  hdr_pos := by cases proto <;> decide
  len_append := readPeerPayloadLen_append proto

/-- All headers of the stream carry a valid payload length. -/
def HeadersValid (proto : PeerProtocol) (s : Bytes) : Prop :=
  Framing.HeadersOk (frameFormat proto) (fun n => isValidPeerPayloadLen proto n = true) s

theorem isValidPeerPayloadLen_le {proto : PeerProtocol} {n : ℕ}
    (h : isValidPeerPayloadLen proto n = true) : n ≤ kMaxFramePayload := by
  cases proto with
  | kDerp => exact of_decide_eq_true h
  | kHd => exact of_decide_eq_true h

theorem length_lt_kReadBufSize {proto : PeerProtocol} {s : Bytes} (hv : HeadersValid proto s)
    (hc : ¬(frameFormat proto).Complete s) : s.length < kReadBufSize := by
  have hh : frameHdrSize proto ≤ kFrameHeaderSize := by cases proto <;> decide
  unfold kReadBufSize
  by_cases hs : s.length < frameHdrSize proto
  · omega
  · have hlen := isValidPeerPayloadLen_le (hv.head _ (not_lt.mp hs))
    have hsize : s.length < (frameFormat proto).size s := by
      by_contra hge
      exact hc ⟨not_lt.mp hs, not_lt.mp hge⟩
    simp only [Framing.Format.size, frameFormat] at hsize hlen
    omega

/-- The frames of a stream up to the first header with an invalid length. -/
abbrev frameScan (proto : PeerProtocol) (s : Bytes) : Framing.Scan Byte :=
  Framing.scan (frameFormat proto) (isValidPeerPayloadLen proto) s

abbrev Partial (proto : PeerProtocol) (s : Bytes) : Prop :=
  Framing.Pending (frameFormat proto) (isValidPeerPayloadLen proto) s

/-! ### One completion -/

theorem recvFrames_scanN (wid : ℕ) (p : Slot) (proto : PeerProtocol) (n : ℕ) (ctx : Ctx)
    (buf : Bytes) :
    let r := recvFrames wid p proto n ctx buf
    let sc := Framing.scanN (frameFormat proto) (isValidPeerPayloadLen proto) n buf
    r.frames = sc.frames ∧ r.rest = sc.rest ∧ r.closed = sc.stopped ∧ r.ctx.core = ctx.core := by
  induction n generalizing ctx buf with
  | zero => exact ⟨rfl, rfl, rfl, rfl⟩
  | succ n ih =>
    have hhdr : (frameFormat proto).hdr = frameHdrSize proto := rfl
    have hlen : ∀ t, (frameFormat proto).len t = readPeerPayloadLen proto t := fun _ => rfl
    simp only [recvFrames, Framing.scanN, Framing.Format.size, hhdr, hlen, Bool.not_eq_true']
    split
    · exact ⟨rfl, rfl, rfl, rfl⟩
    split
    · exact ⟨rfl, rfl, rfl, Ctx.core_setWorker rfl⟩
    split
    · exact ⟨rfl, rfl, rfl, rfl⟩
    · obtain ⟨h1, h2, h3, h4⟩ := ih (dispatchFrame ctx wid p
        (buf.take (frameHdrSize proto + readPeerPayloadLen proto buf)))
        (buf.drop (frameHdrSize proto + readPeerPayloadLen proto buf))
      exact ⟨congrArg _ h1, h2, h3, h4.trans (dispatchFrame_core _ _ _ _)⟩

/-- The receiving side of a peer: registered under `fd`, speaking `proto`, with `rbuf`
buffered, on a running worker whose peers may send `limit` bytes a second. -/
structure Attached (ctx : Ctx) (wid : ℕ) (fd : Fd) (p : Slot) (proto : PeerProtocol) (limit : ℕ)
    (rbuf : Bytes) : Prop where
  valid : validFd fd = true
  mapped : (ctx.workers wid).fdMap fd = some p
  live : ((ctx.workers wid).ht p).occupied = .live
  protocol : ((ctx.workers wid).ht p).protocol = proto
  rbuf_eq : ((ctx.workers wid).ht p).rbuf = rbuf
  running : (ctx.workers wid).running = true
  limit_eq : ctx.peerRateLimit = limit

section

variable {ctx ctx' : Ctx} {wid : ℕ} {fd : Fd} {p : Slot} {proto : PeerProtocol} {limit : ℕ}
  {rbuf : Bytes}

theorem Attached.of_core (h : Attached ctx wid fd p proto limit rbuf) (hc : ctx'.core = ctx.core) :
    Attached ctx' wid fd p proto limit rbuf := by
  have hw := Ctx.core_worker hc wid
  have hp := Worker.core_peer hw p
  constructor
  · exact h.valid
  · exact (congrFun (congrArg Worker.fdMap hw) fd).trans h.mapped
  · exact (congrArg Peer.occupied hp).trans h.live
  · exact (congrArg Peer.protocol hp).trans h.protocol
  · exact (congrArg Peer.rbuf hp).trans h.rbuf_eq
  · exact (congrArg Worker.running hw).trans h.running
  · exact (congrArg Ctx.peerRateLimit hc).trans h.limit_eq

theorem Attached.setWorker (h : Attached ctx wid fd p proto limit rbuf) {w : Worker}
    (hmap : w.fdMap = (ctx.workers wid).fdMap) (hrun : w.running = (ctx.workers wid).running)
    (hocc : (w.ht p).occupied = ((ctx.workers wid).ht p).occupied)
    (hproto : (w.ht p).protocol = ((ctx.workers wid).ht p).protocol) {s : Bytes}
    (hs : (w.ht p).rbuf = s) : Attached (ctx.setWorker wid w) wid fd p proto limit s := by
  constructor
  · exact h.valid
  · rw [Ctx.setWorker_self, hmap]
    exact h.mapped
  · rw [Ctx.setWorker_self]
    exact hocc.trans h.live
  · rw [Ctx.setWorker_self]
    exact hproto.trans h.protocol
  · rw [Ctx.setWorker_self]
    exact hs
  · rw [Ctx.setWorker_self]
    exact hrun.trans h.running
  · exact h.limit_eq

theorem Attached.setRbuf (h : Attached ctx wid fd p proto limit rbuf) {w : Worker}
    (hw : w.core = (ctx.workers wid).core) (s : Bytes) :
    Attached (ctx.setWorker wid (w.setRbuf p s)) wid fd p proto limit s := by
  have hp := Worker.core_peer hw p
  have hset : (w.setRbuf p s).ht p = { w.ht p with rbuf := s } := Function.update_self ..
  apply h.setWorker
  · exact (congrArg Worker.fdMap hw :)
  · exact (congrArg Worker.running hw :)
  · rw [hset]
    exact (congrArg Peer.occupied hp :)
  · rw [hset]
    exact (congrArg Peer.protocol hp :)
  · rw [hset]

theorem returnBuf_core (ctx : Ctx) (wid : ℕ) (cqe : RecvCqe) :
    (returnBuf ctx wid cqe).core = ctx.core := by
  unfold returnBuf
  split
  · rfl
  · exact Ctx.core_setWorker ((submitRecv_io _ _).sendOnly 0).core

theorem recvBuffer_scan (h : Attached ctx wid fd p proto limit []) (buf : Bytes) :
    (recvBuffer ctx wid p buf).2 = (frameScan proto buf).frames ∧
      Attached (recvBuffer ctx wid p buf).1 wid fd p proto limit
        (if (frameScan proto buf).stopped then [] else (frameScan proto buf).rest) := by
  obtain ⟨h1, h2, h3, h4⟩ := recvFrames_scanN wid p proto buf.length ctx buf
  have hr := h.of_core h4
  unfold recvBuffer frameScan Framing.scan
  simp only [h.running, h.protocol, if_true]
  rw [h3]
  split
  · exact ⟨h1, hr⟩
  · split
    · next he =>
      refine ⟨h1, ?_⟩
      rw [← h2, List.isEmpty_iff.1 he]
      exact hr
    · refine ⟨h1, ?_⟩
      rw [← h2]
      exact hr.setRbuf rfl _

theorem recvProvided_scan (h : Attached ctx wid fd p proto limit rbuf) (hpart : Partial proto rbuf)
    (buf : Bytes) :
    (recvProvided ctx wid p buf).2 = (frameScan proto (rbuf ++ buf)).frames ∧
      Attached (recvProvided ctx wid p buf).1 wid fd p proto limit
        (if (frameScan proto (rbuf ++ buf)).stopped then []
          else (frameScan proto (rbuf ++ buf)).rest) := by
  have hhdr : (frameFormat proto).hdr = frameHdrSize proto := rfl
  have hplen : ∀ t, (frameFormat proto).len t = readPeerPayloadLen proto t := fun _ => rfl
  unfold recvProvided
  simp only [h.rbuf_eq, h.protocol]
  split
  · next he =>
    obtain rfl := List.isEmpty_iff.1 he
    exact recvBuffer_scan h buf
  -- `r1` is the topped-up buffer, `b1` what is left of the arrival
  have hstream : rbuf ++ buf = (rbuf ++ buf.take (frameHdrSize proto - rbuf.length)) ++
      buf.drop (frameHdrSize proto - rbuf.length) := by
    rw [List.append_assoc, List.take_append_drop]
  have hr1 : (rbuf ++ buf.take (frameHdrSize proto - rbuf.length)).length =
      rbuf.length + min (frameHdrSize proto - rbuf.length) buf.length := by
    simp only [List.length_append, List.length_take]
  have hb1 : (buf.drop (frameHdrSize proto - rbuf.length)).length =
      buf.length - (frameHdrSize proto - rbuf.length) := List.length_drop
  have hfull : frameHdrSize proto ≤ rbuf.length →
      rbuf ++ buf.take (frameHdrSize proto - rbuf.length) = rbuf := by
    intro hge
    rw [Nat.sub_eq_zero_of_le hge, List.take_zero, List.append_nil]
  rw [hstream]
  generalize rbuf ++ buf.take (frameHdrSize proto - rbuf.length) = r1 at *
  generalize buf.drop (frameHdrSize proto - rbuf.length) = b1 at *
  split
  · next hshort =>
    obtain rfl : b1 = [] := List.length_eq_zero_iff.1 (by omega)
    rw [List.append_nil, frameScan, Framing.scan_pending _ _ (.inl hshort)]
    exact ⟨rfl, h.setRbuf rfl _⟩
  next hlong =>
  have hlen1 : (frameFormat proto).hdr ≤ r1.length := not_lt.1 hlong
  have hread := (frameFormat proto).len_append r1 b1 hlen1
  have hsize := Framing.size_append (frameFormat proto) b1 hlen1
  have hlen : (r1 ++ b1).length = r1.length + b1.length := List.length_append
  split
  · next hbad =>
    rw [Bool.not_eq_true'] at hbad
    rw [frameScan, Framing.scan_bad _ _ (by omega) (by rw [hread]; exact hbad)]
    exact ⟨rfl, h.setRbuf (w := notifyPeerClose (ctx.workers wid) p) rfl []⟩
  next hok =>
  rw [Bool.not_eq_true, Bool.not_eq_false'] at hok
  have hok' : isValidPeerPayloadLen proto ((frameFormat proto).len (r1 ++ b1)) = true := by
    rw [hread]
    exact hok
  have hsum : (frameFormat proto).size r1 = frameHdrSize proto + readPeerPayloadLen proto r1 := rfl
  -- the buffered part never exceeds the frame it belongs to
  have hfit : r1.length ≤ (frameFormat proto).size r1 := by
    by_cases hge : frameHdrSize proto ≤ rbuf.length
    · rw [hfull hge]
      rcases hpart with hlt | ⟨-, hlt⟩
      · exact absurd hge (not_le.2 hlt)
      · exact hlt.le
    · omega
  split
  · next hneed =>
    have hpend : (r1 ++ b1).length < (frameFormat proto).size (r1 ++ b1) := by omega
    rw [frameScan, Framing.scan_pending _ _ (.inr ⟨hok', hpend⟩)]
    exact ⟨rfl, h.setRbuf rfl _⟩
  · next hneed =>
    have hc : (frameFormat proto).Complete (r1 ++ b1) := ⟨by omega, by omega⟩
    have htake : (r1 ++ b1).take ((frameFormat proto).size (r1 ++ b1)) =
        r1 ++ b1.take (frameHdrSize proto + readPeerPayloadLen proto r1 - r1.length) := by
      rw [hsize, List.take_append, List.take_of_length_le hfit, hsum]
    have hdrop : (r1 ++ b1).drop ((frameFormat proto).size (r1 ++ b1)) =
        b1.drop (frameHdrSize proto + readPeerPayloadLen proto r1 - r1.length) := by
      rw [hsize, List.drop_append, List.drop_of_length_le hfit, List.nil_append, hsum]
    rw [frameScan, Framing.scan_frame _ _ hok' hc, htake, hdrop]
    have hr := (h.of_core (dispatchFrame_core ctx wid p
      (r1 ++ b1.take (frameHdrSize proto + readPeerPayloadLen proto r1 - r1.length)))).setRbuf rfl []
    obtain ⟨h1, h2⟩ := recvBuffer_scan hr
      (b1.drop (frameHdrSize proto + readPeerPayloadLen proto r1 - r1.length))
    exact ⟨congrArg _ h1, h2⟩

theorem windowReset (peer : Peer) (now : ℕ) : ∃ window start,
    (if 1000000000 < (now + 2 ^ 64 - peer.windowStartNs) % 2 ^ 64 then
      { peer with recvBytesWindow := 0, windowStartNs := now } else peer) =
      { peer with recvBytesWindow := window, windowStartNs := start } := by
  split
  · exact ⟨_, _, rfl⟩
  · exact ⟨_, _, rfl⟩

theorem rateLimit_snd (ctx : Ctx) (wid : ℕ) (p : Slot) (n now : ℕ) :
    (rateLimit ctx wid p n now).2 = ctx ∨ ∃ window start st,
      (rateLimit ctx wid p n now).2 = ctx.setWorker wid
        { (ctx.workers wid).setPeer p { (ctx.workers wid).ht p with
            recvBytesWindow := window, windowStartNs := start } with stats := st } := by
  obtain ⟨window, start, h⟩ := windowReset ((ctx.workers wid).ht p) now
  by_cases h0 : ctx.peerRateLimit = 0
  · left
    simp only [rateLimit, h0, if_true]
  · right
    simp only [rateLimit, h0, if_false, -Nat.reducePow, h]
    split
    · exact ⟨_, _, _, rfl⟩
    · exact ⟨_, _, (ctx.workers wid).stats, rfl⟩

theorem rateLimit_attached (h : Attached ctx wid fd p proto limit rbuf) (n now : ℕ) :
    Attached (rateLimit ctx wid p n now).2 wid fd p proto limit rbuf := by
  rcases rateLimit_snd ctx wid p n now with heq | ⟨window, start, st, heq⟩
  · rw [heq]
    exact h
  · have hset : ∀ peer : Peer,
        ({ (ctx.workers wid).setPeer p peer with stats := st } : Worker).ht p = peer :=
      fun _ => Function.update_self ..
    rw [heq]
    refine h.setWorker ?_ ?_ ?_ ?_ ?_
    · rfl
    · rfl
    · rw [hset]
    · rw [hset]
    · rw [hset]
      exact h.rbuf_eq

def Limited (ctx : Ctx) (wid : ℕ) (p : Slot) (cqe : RecvCqe) : Prop :=
  (rateLimit (ctx.onWorker wid fun w => countRecv w cqe.res.toNat) wid p cqe.res.toNat
    cqe.now).1 = true

instance (ctx : Ctx) (wid : ℕ) (p : Slot) (cqe : RecvCqe) : Decidable (Limited ctx wid p cqe) :=
  inferInstanceAs (Decidable (_ = _))

theorem not_limited_of_zero (hlim : ctx.peerRateLimit = 0) (cqe : RecvCqe) :
    ¬Limited ctx wid p cqe := by
  have hzero : (ctx.onWorker wid fun w => countRecv w cqe.res.toNat).peerRateLimit = 0 := hlim
  unfold Limited rateLimit
  rw [if_pos hzero]
  nofun

theorem handleRecvProvided_limited (h : Attached ctx wid fd p proto limit rbuf) {cqe : RecvCqe}
    (hfd : cqe.fd = fd) (hpos : 0 < cqe.res) (hdrop : Limited ctx wid p cqe) :
    (handleRecvProvided ctx wid cqe).2 = [] ∧
      Attached (handleRecvProvided ctx wid cqe).1 wid fd p proto limit rbuf := by
  have hcount : Attached (ctx.onWorker wid fun w => countRecv w cqe.res.toNat) wid fd p proto
      limit rbuf := h.of_core (Ctx.core_setWorker rfl)
  have hlim := rateLimit_attached hcount cqe.res.toNat cqe.now
  unfold Limited at hdrop
  unfold handleRecvProvided
  subst hfd
  rw [if_pos h.valid, h.mapped]
  dsimp only
  rw [if_neg (not_le.2 hpos)]
  split
  · next ctx1 heq =>
    rw [heq] at hlim
    exact ⟨rfl, hlim.of_core (returnBuf_core _ _ _)⟩
  · next ctx1 heq =>
    rw [heq] at hdrop
    cases hdrop

theorem handleRecvProvided_scan (h : Attached ctx wid fd p proto limit rbuf)
    (hpart : Partial proto rbuf) {cqe : RecvCqe} (hfd : cqe.fd = fd)
    (hres : cqe.res = cqe.buf.length) (hne : cqe.buf ≠ []) (hdrop : ¬Limited ctx wid p cqe) :
    (handleRecvProvided ctx wid cqe).2 = (frameScan proto (rbuf ++ cqe.buf)).frames ∧
      Attached (handleRecvProvided ctx wid cqe).1 wid fd p proto limit
        (if (frameScan proto (rbuf ++ cqe.buf)).stopped then []
          else (frameScan proto (rbuf ++ cqe.buf)).rest) := by
  have hpos : 0 < cqe.buf.length := List.length_pos_iff.2 hne
  have hcount : Attached (ctx.onWorker wid fun w => countRecv w cqe.res.toNat) wid fd p proto
      limit rbuf := h.of_core (Ctx.core_setWorker rfl)
  have hlim := rateLimit_attached hcount cqe.res.toNat cqe.now
  have hbuf : cqe.buf.take cqe.res.toNat = cqe.buf := List.take_of_length_le (by omega)
  unfold Limited at hdrop
  unfold handleRecvProvided
  subst hfd
  rw [if_pos h.valid, h.mapped]
  dsimp only
  rw [if_neg (by omega)]
  split
  · next ctx1 heq =>
    rw [heq] at hdrop
    exact absurd rfl hdrop
  · next ctx1 heq =>
    rw [heq] at hlim
    rw [hbuf]
    obtain ⟨h1, h2⟩ := recvProvided_scan hlim hpart cqe.buf
    exact ⟨h1, h2.of_core (returnBuf_core _ _ _)⟩

theorem handleRecvSingle_scan (h : Attached ctx wid fd p proto limit rbuf) {cqe : RecvCqe}
    (hfd : cqe.fd = fd) (hres : cqe.res = cqe.buf.length) (hne : cqe.buf ≠ []) :
    (handleRecvSingle ctx wid cqe).2 = (frameScan proto (rbuf ++ cqe.buf)).frames ∧
      Attached (handleRecvSingle ctx wid cqe).1 wid fd p proto limit
        (frameScan proto (rbuf ++ cqe.buf)).rest := by
  have hpos : 0 < cqe.buf.length := List.length_pos_iff.2 hne
  have hcount : Attached (ctx.onWorker wid fun w => countRecv w cqe.res.toNat) wid fd p proto
      limit rbuf := h.of_core (Ctx.core_setWorker rfl)
  have hbuf : cqe.buf.take cqe.res.toNat = cqe.buf := List.take_of_length_le (by omega)
  obtain ⟨h1, h2, -, h4⟩ := recvFrames_scanN wid p proto (rbuf ++ cqe.buf).length
    (ctx.onWorker wid fun w => countRecv w cqe.res.toNat) (rbuf ++ cqe.buf)
  have hr := (hcount.of_core h4).setRbuf rfl (frameScan proto (rbuf ++ cqe.buf)).rest
  unfold handleRecvSingle
  subst hfd
  rw [if_pos h.valid, h.mapped]
  dsimp only
  rw [if_neg (by omega), hbuf, hcount.rbuf_eq, hcount.protocol, if_pos hcount.running, h2]
  split
  · exact ⟨h1, hr⟩
  · split
    · exact ⟨h1, hr.of_core (Ctx.core_setWorker ((submitRecv_io _ _).sendOnly 0).core)⟩
    · exact ⟨h1, hr⟩

end

/-! ### Valid headers, no rate limit -/

/-- The receiving side of a peer: registered under `fd`, speaking `proto`, with
`rbuf` buffered, on a running worker without rate limit. -/
structure Receiving (ctx : Ctx) (wid : ℕ) (fd : Fd) (p : Slot) (proto : PeerProtocol)
    (rbuf : Bytes) : Prop where
  valid : validFd fd = true
  mapped : (ctx.workers wid).fdMap fd = some p
  live : ((ctx.workers wid).ht p).occupied = .live
  protocol : ((ctx.workers wid).ht p).protocol = proto
  rbuf_eq : ((ctx.workers wid).ht p).rbuf = rbuf
  running : (ctx.workers wid).running = true
  noLimit : ctx.peerRateLimit = 0

section

variable {ctx : Ctx} {wid : ℕ} {fd : Fd} {p : Slot} {proto : PeerProtocol} {rbuf : Bytes}

theorem Receiving.attached (h : Receiving ctx wid fd p proto rbuf) :
    Attached ctx wid fd p proto 0 rbuf :=
  ⟨h.valid, h.mapped, h.live, h.protocol, h.rbuf_eq, h.running, h.noLimit⟩

theorem Attached.receiving (h : Attached ctx wid fd p proto 0 rbuf) :
    Receiving ctx wid fd p proto rbuf :=
  ⟨h.valid, h.mapped, h.live, h.protocol, h.rbuf_eq, h.running, h.limit_eq⟩

theorem frameScan_of_valid {s : Bytes} (hv : HeadersValid proto s) :
    frameScan proto s = ⟨(Framing.parse (frameFormat proto) s).1,
      (Framing.parse (frameFormat proto) s).2, false⟩ :=
  Framing.scan_of_headersOk _ _ hv

theorem partial_of_incomplete {s : Bytes} (hv : HeadersValid proto s)
    (hinc : ¬(frameFormat proto).Complete s) : Partial proto s := by
  by_cases hs : s.length < (frameFormat proto).hdr
  · exact .inl hs
  · exact .inr ⟨hv.head _ (not_lt.1 hs), not_le.1 fun hle => hinc ⟨not_lt.1 hs, hle⟩⟩

theorem handleRecvProvided_parse (h : Receiving ctx wid fd p proto rbuf)
    (hinc : ¬(frameFormat proto).Complete rbuf) {cqe : RecvCqe} (hfd : cqe.fd = fd)
    (hres : cqe.res = cqe.buf.length) (hne : cqe.buf ≠ [])
    (hv : HeadersValid proto (rbuf ++ cqe.buf)) :
    (handleRecvProvided ctx wid cqe).2 =
        (Framing.parse (frameFormat proto) (rbuf ++ cqe.buf)).1 ∧
      Receiving (handleRecvProvided ctx wid cqe).1 wid fd p proto
        (Framing.parse (frameFormat proto) (rbuf ++ cqe.buf)).2 := by
  have hscan := handleRecvProvided_scan h.attached (partial_of_incomplete hv.of_append hinc) hfd
    hres hne (not_limited_of_zero h.noLimit cqe)
  rw [frameScan_of_valid hv] at hscan
  exact ⟨hscan.1, hscan.2.receiving⟩

theorem handleRecvSingle_parse (h : Receiving ctx wid fd p proto rbuf) {cqe : RecvCqe}
    (hfd : cqe.fd = fd) (hres : cqe.res = cqe.buf.length) (hne : cqe.buf ≠ [])
    (hv : HeadersValid proto (rbuf ++ cqe.buf)) :
    (handleRecvSingle ctx wid cqe).2 =
        (Framing.parse (frameFormat proto) (rbuf ++ cqe.buf)).1 ∧
      Receiving (handleRecvSingle ctx wid cqe).1 wid fd p proto
        (Framing.parse (frameFormat proto) (rbuf ++ cqe.buf)).2 := by
  have hscan := handleRecvSingle_scan h.attached hfd hres hne
  rw [frameScan_of_valid hv] at hscan
  exact ⟨hscan.1, hscan.2.receiving⟩

end

/-! ### Any chunking of a stream -/

/-- Feed a list of completions to a handler and collect the dispatched frames. -/
def feed (handle : Ctx → RecvCqe → Ctx × List Bytes) (ctx : Ctx) :
    List RecvCqe → Ctx × List Bytes
  | [] => (ctx, [])
  | c :: cs =>
    let r := handle ctx c
    let rs := feed handle r.1 cs
    (rs.1, r.2 ++ rs.2)

/-- Completions that deliver data on `fd`. -/
def DataOn (fd : Fd) (c : RecvCqe) : Prop :=
  c.fd = fd ∧ c.res = c.buf.length ∧ c.buf ≠ []

def streamOf (cs : List RecvCqe) : Bytes := (cs.map RecvCqe.buf).flatten

theorem feed_parse {handle : Ctx → RecvCqe → Ctx × List Bytes} {wid : ℕ} {fd : Fd} {p : Slot}
    {proto : PeerProtocol}
    (hstep : ∀ ctx rbuf c, Receiving ctx wid fd p proto rbuf →
      ¬(frameFormat proto).Complete rbuf → DataOn fd c → HeadersValid proto (rbuf ++ c.buf) →
      (handle ctx c).2 = (Framing.parse (frameFormat proto) (rbuf ++ c.buf)).1 ∧
        Receiving (handle ctx c).1 wid fd p proto
          (Framing.parse (frameFormat proto) (rbuf ++ c.buf)).2)
    (cs : List RecvCqe) (hcs : ∀ c ∈ cs, DataOn fd c) {ctx : Ctx} {rbuf : Bytes}
    (h : Receiving ctx wid fd p proto rbuf) (hinc : ¬(frameFormat proto).Complete rbuf)
    (hv : HeadersValid proto (rbuf ++ streamOf cs)) :
    (feed handle ctx cs).2 = (Framing.parse (frameFormat proto) (rbuf ++ streamOf cs)).1 ∧
      Receiving (feed handle ctx cs).1 wid fd p proto
        (Framing.parse (frameFormat proto) (rbuf ++ streamOf cs)).2 := by
  induction cs generalizing ctx rbuf with
  | nil =>
    simp only [streamOf, List.map_nil, List.flatten_nil, List.append_nil]
    rw [Framing.parse_incomplete _ hinc]
    exact ⟨rfl, h⟩
  | cons c cs ih =>
    have hsplit : rbuf ++ streamOf (c :: cs) = (rbuf ++ c.buf) ++ streamOf cs := by
      simp [streamOf]
    rw [hsplit] at hv ⊢
    obtain ⟨h1, h2⟩ := hstep ctx rbuf c h hinc (hcs c (List.mem_cons_self ..)) hv.of_append
    obtain ⟨h3, h4⟩ := ih (fun d hd => hcs d (List.mem_cons_of_mem _ hd)) h2
      (Framing.parse_rest _ _) hv.rest_append
    rw [Framing.parse_append]
    exact ⟨by simp only [feed, h1, h3], h4⟩

/-- `frames` are the complete frames of the stream `s`, and `rbuf` is what
follows them, short of a receive buffer. -/
structure Reassembled (proto : PeerProtocol) (s : Bytes) (frames : List Bytes) (rbuf : Bytes) :
    Prop where
  frames_eq : frames = (Framing.parse (frameFormat proto) s).1
  rbuf_eq : rbuf = (Framing.parse (frameFormat proto) s).2
  flatten_eq : frames.flatten ++ rbuf = s
  rbuf_lt : rbuf.length < kReadBufSize

theorem reassembled_of_parse {proto : PeerProtocol} {s : Bytes} (hv : HeadersValid proto s) :
    Reassembled proto s (Framing.parse (frameFormat proto) s).1
      (Framing.parse (frameFormat proto) s).2 where
  frames_eq := rfl
  rbuf_eq := rfl
  flatten_eq := Framing.parse_flatten _ s
  rbuf_lt := by
    have hrest : HeadersValid proto ((Framing.parse (frameFormat proto) s).2 ++ []) := by
      apply Framing.HeadersOk.rest_append
      rwa [List.append_nil]
    rw [List.append_nil] at hrest
    exact length_lt_kReadBufSize hrest (Framing.parse_rest _ s)

theorem streamOf_append (as bs : List RecvCqe) : streamOf (as ++ bs) = streamOf as ++ streamOf bs := by
  simp [streamOf]

/-- Frame reassembly does not depend on the chunking. Whatever way a stream with
valid headers is cut into completions, after each completion both receive
handlers have dispatched exactly the complete frames received so far and hold
exactly the bytes after them, with room left in the buffer. -/
theorem reassembly_chunking_independent {ctx : Ctx} {wid : ℕ} {fd : Fd} {p : Slot}
    {proto : PeerProtocol} (h : Receiving ctx wid fd p proto []) {s : Bytes}
    (hv : HeadersValid proto s) :
    (∀ cs : List RecvCqe, (∀ c ∈ cs, DataOn fd c) → streamOf cs = s → ∀ pre, pre <+: cs →
      let r := feed (fun ctx c => handleRecvProvided ctx wid c) ctx pre
      Reassembled proto (streamOf pre) r.2 ((r.1.workers wid).ht p).rbuf) ∧
    (∀ cs : List RecvCqe, (∀ c ∈ cs, DataOn fd c) → streamOf cs = s → ∀ pre, pre <+: cs →
      let r := feed (fun ctx c => handleRecvSingle ctx wid c) ctx pre
      Reassembled proto (streamOf pre) r.2 ((r.1.workers wid).ht p).rbuf) := by
  have hinc : ¬(frameFormat proto).Complete [] := fun hc => by
    have h1 := hc.1
    have h2 := (frameFormat proto).hdr_pos
    simp only [List.length_nil] at h1
    omega
  -- headers of a received beginning of the stream are valid too
  have hpre : ∀ cs pre : List RecvCqe, streamOf cs = s → pre <+: cs →
      HeadersValid proto (streamOf pre) := by
    rintro cs pre hs ⟨post, rfl⟩
    rw [← hs, streamOf_append] at hv
    exact hv.of_append
  constructor
  · intro cs hcs hs pre hp
    have hvp := hpre cs pre hs hp
    obtain ⟨h1, h2⟩ := feed_parse
      (fun _ _ _ hr hi hd hvc => handleRecvProvided_parse hr hi hd.1 hd.2.1 hd.2.2 hvc)
      pre (fun c hc => hcs c (hp.subset hc)) h hinc hvp
    dsimp only
    rw [h1, h2.rbuf_eq]
    exact reassembled_of_parse hvp
  · intro cs hcs hs pre hp
    have hvp := hpre cs pre hs hp
    obtain ⟨h1, h2⟩ := feed_parse
      (fun _ _ _ hr _ hd hvc => handleRecvSingle_parse hr hd.1 hd.2.1 hd.2.2 hvc)
      pre (fun c hc => hcs c (hp.subset hc)) h hinc hvp
    dsimp only
    rw [h1, h2.rbuf_eq]
    exact reassembled_of_parse hvp

def onePeerCtx : Ctx where
  workers := fun _ =>
    { ht := Function.update (fun _ => {}) 0 { fd := 3, occupied := .live, rbufAlloc := true }
      fdMap := Function.update (fun _ => none) 3 (some 0) }
  numWorkers := 1

/-- A keep-alive frame with one payload byte, cut inside its header and followed
by the first byte of the next frame. -/
theorem reassembly_split_header :
    (feed (fun ctx c => handleRecvProvided ctx 0 c) onePeerCtx
      [⟨3, 2, [6, 0], true, false, 0⟩, ⟨3, 5, [0, 0, 1, 9, 6], true, true, 0⟩]).2 =
        [[6, 0, 0, 0, 1, 9]] := by
  have hv : HeadersValid .kDerp [6, 0, 0, 0, 1, 9, 6] :=
    .frame _ (by decide) (by decide) (.short _ (by decide))
  have h : Receiving onePeerCtx 0 3 0 .kDerp [] :=
    ⟨by decide, by decide, by decide, by decide, by decide, by decide, by decide⟩
  have hr := (reassembly_chunking_independent h hv).1
    [⟨3, 2, [6, 0], true, false, 0⟩, ⟨3, 5, [0, 0, 1, 9, 6], true, true, 0⟩]
    (by simp [DataOn]) (by decide) _ ⟨[], List.append_nil _⟩
  rw [hr.frames_eq]
  decide

end HyperDerp
