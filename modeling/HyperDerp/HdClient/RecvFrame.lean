import HyperDerp.HdProtocol
import HyperDerp.Lib.ByteStream

/-!
# Frames of the SDK client (`hd_client.h`, `hd_client.cc:499-578`)

The receive buffer is the list of its valid bytes (`recv_len` of them) and the
parse position. `read` and `SSL_read` behave alike here, and a read that brings
nothing may be a timeout, an error or the end of the stream.
-/

namespace HyperDerp

open ByteStream (Source)

inductive HdClientError where
  | sodiumInitFailed
  | socketFailed
  | badAddress
  | connectFailed
  | ioFailed
  | upgradeFailed
  | unexpectedFrame
  | badPayloadLength
  | enrollmentDenied
  | bufferOverflow
  deriving DecidableEq

/-- `Error<HdClientError>`. -/
structure ClientError where
  code : HdClientError
  message : String
  deriving DecidableEq

def kRecvBufSize : ℕ := 65536

/-- `recv_buf`, once it is allocated. -/
structure RecvBuf where
  bytes : Bytes
  pos : ℕ
  pos_le : pos ≤ bytes.length
  len_le : bytes.length ≤ kRecvBufSize

structure ClientFrame where
  type : HdFrameType
  payload : Bytes
  deriving DecidableEq

namespace RecvBuf

def empty : RecvBuf := ⟨[], 0, Nat.le_refl _, Nat.zero_le _⟩

def unread (b : RecvBuf) : Bytes := b.bytes.drop b.pos

@[simp] theorem unread_empty : empty.unread = [] := rfl

theorem length_unread (b : RecvBuf) : b.unread.length = b.bytes.length - b.pos :=
  List.length_drop

theorem unread_length_le (b : RecvBuf) : b.unread.length ≤ kRecvBufSize := by
  have hlen := b.len_le
  rw [length_unread]
  omega

def skip (b : RecvBuf) (n : ℕ) (h : n ≤ b.unread.length) : RecvBuf :=
  ⟨b.bytes, b.pos + n, by have := b.pos_le; rw [length_unread] at h; omega, b.len_le⟩

@[simp] theorem unread_skip (b : RecvBuf) (n : ℕ) (h : n ≤ b.unread.length) :
    (b.skip n h).unread = b.unread.drop n := by
  rw [unread, unread, skip, List.drop_drop]

/-- `memmove` of the unparsed bytes to the front, when there is something before them. -/
def compact (b : RecvBuf) : RecvBuf :=
  if 0 < b.pos then ⟨b.unread, 0, Nat.zero_le _, b.unread_length_le⟩ else b

@[simp] theorem unread_compact (b : RecvBuf) : b.compact.unread = b.unread := by
  unfold compact
  split <;> rfl

theorem bytes_compact (b : RecvBuf) : b.compact.bytes = b.unread := by
  unfold compact
  split
  · rfl
  · next h => rw [unread, Nat.eq_zero_of_not_pos h, List.drop_zero]

def space (b : RecvBuf) : ℕ := kRecvBufSize - b.bytes.length

theorem space_compact (b : RecvBuf) : b.compact.space = kRecvBufSize - b.unread.length := by
  rw [space, bytes_compact]

def fill (b : RecvBuf) (n : ℕ) (stream : Bytes) : RecvBuf :=
  ⟨b.bytes ++ stream.take (min n b.space), b.pos,
    by have := b.pos_le; rw [List.length_append]; omega,
    by
      have := b.len_le
      rw [List.length_append, List.length_take, space]
      omega⟩

@[simp] theorem unread_fill (b : RecvBuf) (n : ℕ) (stream : Bytes) :
    (b.fill n stream).unread = b.unread ++ stream.take (min n b.space) := by
  rw [unread, unread, fill, List.drop_append_of_le_length b.pos_le]

/-- What the parser finds at the front of the unparsed bytes: `none` when the frame is not
complete. -/
def nextFrame (b : RecvBuf) (bufSize : ℕ) : Option (Except ClientError (ClientFrame × RecvBuf)) :=
  let hdr := b.unread
  let plen := hdReadPayloadLen hdr
  if hdr.length < kHdFrameHeaderSize then none
  else if hdIsValidPayloadLen plen = false then
    some (.error ⟨.badPayloadLength, "invalid frame payload length"⟩)
  else if h : kHdFrameHeaderSize + plen ≤ b.unread.length then
    if bufSize < plen then some (.error ⟨.bufferOverflow, "frame payload exceeds buffer"⟩)
    else
      some (.ok (⟨hdReadFrameType hdr, (hdr.drop kHdFrameHeaderSize).take plen⟩,
        b.skip (kHdFrameHeaderSize + plen) h))
  else none

end RecvBuf

structure Received where
  result : Except ClientError ClientFrame
  buf : RecvBuf
  sock : Source Byte

/-- The loop of `HdClientRecvFrame`. -/
def recvLoop (bufSize : ℕ) (b : RecvBuf) (stream : Bytes) (reads : List ℕ) : Received :=
  match b.nextFrame bufSize with
  | some (.ok (f, b')) => ⟨.ok f, b', ⟨stream, reads⟩⟩
  | some (.error e) => ⟨.error e, b, ⟨stream, reads⟩⟩
  | none =>
    if b.compact.space = 0 then
      ⟨.error ⟨.bufferOverflow, "recv buffer full"⟩, b.compact, ⟨stream, reads⟩⟩
    else
      match reads with
      | [] => ⟨.error ⟨.ioFailed, "recv failed"⟩, b.compact, ⟨stream, []⟩⟩
      | n :: reads =>
        if n = 0 ∨ stream = [] then
          ⟨.error ⟨.ioFailed, "recv failed"⟩, b.compact, ⟨stream, reads⟩⟩
        else
          recvLoop bufSize (b.compact.fill n stream) (stream.drop (min n b.compact.space)) reads

/-- The part of the client's state that connecting and receiving use. -/
structure HdClient where
  fd : ℤ := -1
  publicKey : Key := zeroKey
  relayKey : Key := zeroKey
  connected : Bool := false
  approved : Bool := false
  host : String := ""
  port : ℕ := 0
  ssl : Bool := false
  sslCtx : Bool := false
  useTls : Bool := false
  recvBuf : Option RecvBuf := none

def HdClient.unread (c : HdClient) : Bytes := (c.recvBuf.getD .empty).unread

/-- `HdClientRecvFrame`. The buffer is allocated at the first call. -/
def hdClientRecvFrame (c : HdClient) (bufSize : ℕ) (sock : Source Byte) :
    Except ClientError ClientFrame × HdClient × Source Byte :=
  let r := recvLoop bufSize (c.recvBuf.getD .empty) sock.stream sock.reads
  (r.result, { c with recvBuf := some r.buf }, r.sock)

/-- The results of `n` calls one after the other. -/
def recvCalls (bufSize : ℕ) : ℕ → HdClient → Source Byte → List (Except ClientError ClientFrame)
  | 0, _, _ => []
  | n + 1, c, sock =>
    let r := hdClientRecvFrame c bufSize sock
    r.1 :: recvCalls bufSize n r.2.1 r.2.2

/-! ### One frame -/

def ClientFrame.encode (f : ClientFrame) : Bytes :=
  hdWriteFrameHeader f.type f.payload.length ++ f.payload

def encodeFrames (fs : List ClientFrame) : Bytes := fs.flatMap ClientFrame.encode

/-- The payload length passes `HdIsValidPayloadLen`. -/
def ClientFrame.Valid (f : ClientFrame) : Prop := hdIsValidPayloadLen f.payload.length = true

/-- The frame with its header has room in the receive buffer. -/
def ClientFrame.Fits (f : ClientFrame) : Prop :=
  kHdFrameHeaderSize + f.payload.length ≤ kRecvBufSize

instance (f : ClientFrame) : Decidable f.Valid := inferInstanceAs (Decidable (_ = _))

instance (f : ClientFrame) : Decidable f.Fits := inferInstanceAs (Decidable (_ ≤ _))

theorem ClientFrame.length_encode (f : ClientFrame) :
    f.encode.length = kHdFrameHeaderSize + f.payload.length := by
  rw [encode, List.length_append, length_hdWriteFrameHeader]

theorem ClientFrame.readLen_encode {f : ClientFrame} (hf : f.Valid) (t : Bytes) :
    hdReadPayloadLen (f.encode ++ t) = f.payload.length := by
  have hlen : f.payload.length ≤ kHdMaxFramePayload := of_decide_eq_true hf
  simp only [kHdMaxFramePayload] at hlen
  rw [encode, List.append_assoc, hdReadPayloadLen_write _ _ _ (by omega)]

theorem ClientFrame.drop_encode (f : ClientFrame) (t : Bytes) :
    (f.encode ++ t).drop kHdFrameHeaderSize = f.payload ++ t := by
  rw [encode, List.append_assoc]
  exact List.drop_left' (length_hdWriteFrameHeader ..)

namespace RecvBuf

theorem nextFrame_of_encode {b : RecvBuf} {rest tail : Bytes} {f : ClientFrame} (hf : f.Valid)
    (h : b.unread ++ rest = f.encode ++ tail) :
    (b.nextFrame kHdMaxFramePayload = none ∧ b.unread.length < f.encode.length) ∨
      ∃ b', b.nextFrame kHdMaxFramePayload = some (.ok (f, b')) ∧ b'.unread ++ rest = tail := by
  have hvalid : f.payload.length ≤ kHdMaxFramePayload := of_decide_eq_true hf
  have hsize := f.length_encode
  by_cases hhdr : b.unread.length < kHdFrameHeaderSize
  · left
    exact ⟨if_pos hhdr, by omega⟩
  · have hplen : hdReadPayloadLen b.unread = f.payload.length := by
      rw [← hdReadPayloadLen_append b.unread rest (by omega), h, f.readLen_encode hf]
    have hok : ¬ hdIsValidPayloadLen (hdReadPayloadLen b.unread) = false := by
      rw [hplen, hf]
      exact Bool.noConfusion
    unfold nextFrame
    dsimp only
    rw [if_neg hhdr, if_neg hok]
    by_cases hfit : kHdFrameHeaderSize + hdReadPayloadLen b.unread ≤ b.unread.length
    · right
      obtain ⟨more, hmore, htail⟩ : ∃ more, b.unread = f.encode ++ more ∧ tail = more ++ rest := by
        rcases List.append_eq_append_iff.mp h with ⟨more, henc, hrest⟩ | ⟨more, hunread, htail⟩
        · have hnil : more = [] := by
            have hlen := congrArg List.length henc
            rw [List.length_append] at hlen
            exact List.eq_nil_of_length_eq_zero (by omega)
          rw [hnil, List.append_nil] at henc
          rw [hnil, List.nil_append] at hrest
          exact ⟨[], by rw [List.append_nil, henc], by rw [List.nil_append, hrest]⟩
        · exact ⟨more, hunread, htail⟩
      rw [dif_pos hfit, if_neg (by omega)]
      refine ⟨b.skip _ hfit, ?_, ?_⟩
      · have hframe : (⟨hdReadFrameType b.unread, (b.unread.drop kHdFrameHeaderSize).take
            (hdReadPayloadLen b.unread)⟩ : ClientFrame) = f := by
          rw [hplen, hmore, f.drop_encode, List.take_left]
          rfl
        rw [hframe]
      · have hskip : kHdFrameHeaderSize + hdReadPayloadLen b.unread = f.encode.length := by
          rw [hplen, hsize]
        rw [unread_skip, hskip, htail, hmore, List.drop_left]
    · left
      rw [dif_neg hfit]
      exact ⟨rfl, by omega⟩

theorem nextFrame_nil {b : RecvBuf} {bufSize : ℕ} (h : b.unread = []) :
    b.nextFrame bufSize = none :=
  if_pos (by rw [h]; decide)

theorem nextFrame_ok {b b' : RecvBuf} {bufSize : ℕ} {f : ClientFrame}
    (h : b.nextFrame bufSize = some (.ok (f, b'))) :
    f.Fits ∧ f.type = hdReadFrameType b.unread := by
  have hle := b.unread_length_le
  unfold nextFrame at h
  dsimp only at h
  split at h
  · cases h
  split at h
  · cases h
  split at h
  · next hfit =>
    split at h
    · cases h
    · cases h
      refine ⟨?_, rfl⟩
      rw [ClientFrame.Fits, List.length_take, List.length_drop]
      omega
  · cases h

end RecvBuf

/-! ### One call -/

section

variable {bufSize n : ℕ} {b : RecvBuf} {stream : Bytes} {reads : List ℕ}

theorem recvLoop_ok {f : ClientFrame} {b' : RecvBuf}
    (h : b.nextFrame bufSize = some (.ok (f, b'))) :
    recvLoop bufSize b stream reads = ⟨.ok f, b', ⟨stream, reads⟩⟩ := by
  unfold recvLoop
  rw [h]

theorem recvLoop_nil (h : b.nextFrame bufSize = none) (hspace : b.compact.space ≠ 0) :
    recvLoop bufSize b stream [] =
      ⟨.error ⟨.ioFailed, "recv failed"⟩, b.compact, ⟨stream, []⟩⟩ := by
  unfold recvLoop
  rw [h]
  exact if_neg hspace

theorem recvLoop_timeout (h : b.nextFrame bufSize = none) (hspace : b.compact.space ≠ 0)
    (hnone : n = 0 ∨ stream = []) :
    recvLoop bufSize b stream (n :: reads) =
      ⟨.error ⟨.ioFailed, "recv failed"⟩, b.compact, ⟨stream, reads⟩⟩ := by
  unfold recvLoop
  rw [h]
  dsimp only
  rw [if_neg hspace, if_pos hnone]

theorem recvLoop_read (h : b.nextFrame bufSize = none) (hspace : b.compact.space ≠ 0)
    (hsome : ¬ (n = 0 ∨ stream = [])) :
    recvLoop bufSize b stream (n :: reads) =
      recvLoop bufSize (b.compact.fill n stream) (stream.drop (min n b.compact.space)) reads := by
  rw [recvLoop, h]
  dsimp only
  rw [if_neg hspace, if_neg hsome]

theorem unread_fill_append (b : RecvBuf) (n : ℕ) (stream : Bytes) :
    (b.compact.fill n stream).unread ++ stream.drop (min n b.compact.space) =
      b.unread ++ stream := by
  rw [RecvBuf.unread_fill, RecvBuf.unread_compact, List.append_assoc, List.take_append_drop]

theorem RecvBuf.nextFrame_congr (bufSize : ℕ) {b₁ b₂ : RecvBuf} (h : b₁.unread = b₂.unread) :
    (b₁.nextFrame bufSize).map (·.map fun r => (r.1, r.2.unread)) =
      (b₂.nextFrame bufSize).map (·.map fun r => (r.1, r.2.unread)) := by
  unfold nextFrame
  dsimp only
  simp only [h]
  split
  · rfl
  split
  · rfl
  split
  · split
    · rfl
    · simp only [Option.map_some, Except.map, unread_skip, h]
  · rfl

theorem RecvBuf.nextFrame_none_congr {b₁ b₂ : RecvBuf} (h : b₁.unread = b₂.unread)
    (hn : b₁.nextFrame bufSize = none) : b₂.nextFrame bufSize = none := by
  have hmap := nextFrame_congr bufSize h
  rw [hn, Option.map_none, eq_comm, Option.map_eq_none_iff] at hmap
  exact hmap

theorem RecvBuf.nextFrame_ok_congr {b₁ b₂ b' : RecvBuf} {f : ClientFrame}
    (h : b₁.unread = b₂.unread) (hn : b₁.nextFrame bufSize = some (.ok (f, b'))) :
    ∃ b'', b₂.nextFrame bufSize = some (.ok (f, b'')) ∧ b'.unread = b''.unread := by
  have hmap := nextFrame_congr bufSize h
  rw [hn] at hmap
  rcases h2 : b₂.nextFrame bufSize with _ | (e | ⟨g, b''⟩)
  · simp [h2] at hmap
  · simp [h2, Except.map] at hmap
  · simp only [h2, Option.map_some, Except.map, Option.some.injEq, Except.ok.injEq,
      Prod.mk.injEq] at hmap
    exact ⟨b'', by rw [hmap.1], hmap.2⟩

theorem RecvBuf.nextFrame_error_congr {b₁ b₂ : RecvBuf} {e : ClientError}
    (h : b₁.unread = b₂.unread) (hn : b₁.nextFrame bufSize = some (.error e)) :
    b₂.nextFrame bufSize = some (.error e) := by
  have hmap := nextFrame_congr bufSize h
  rw [hn] at hmap
  rcases h2 : b₂.nextFrame bufSize with _ | (e' | r)
  · simp [h2] at hmap
  · simp only [h2, Option.map_some, Except.map, Option.some.injEq, Except.error.injEq] at hmap
    rw [hmap]
  · simp [h2, Except.map] at hmap

def Received.seen (r : Received) : Except ClientError ClientFrame × Bytes × Source Byte :=
  (r.result, r.buf.unread, r.sock)

theorem recvLoop_congr (reads : List ℕ) {b₁ b₂ : RecvBuf} (stream : Bytes)
    (h : b₁.unread = b₂.unread) :
    (recvLoop bufSize b₁ stream reads).seen = (recvLoop bufSize b₂ stream reads).seen := by
  have hspace : b₁.compact.space = b₂.compact.space := by
    rw [RecvBuf.space_compact, RecvBuf.space_compact, h]
  induction reads generalizing b₁ b₂ stream with
  | nil =>
    unfold recvLoop
    rcases h1 : b₁.nextFrame bufSize with _ | (e | ⟨f, b'⟩)
    · rw [RecvBuf.nextFrame_none_congr h h1, hspace]
      dsimp only
      split <;> simp only [Received.seen, RecvBuf.unread_compact, h]
    · rw [RecvBuf.nextFrame_error_congr h h1]
      simp only [Received.seen, h]
    · obtain ⟨b'', h2, hunread⟩ := RecvBuf.nextFrame_ok_congr h h1
      rw [h2]
      simp only [Received.seen, hunread]
  | cons n reads ih =>
    unfold recvLoop
    rcases h1 : b₁.nextFrame bufSize with _ | (e | ⟨f, b'⟩)
    · rw [RecvBuf.nextFrame_none_congr h h1, hspace]
      dsimp only
      split
      · simp only [Received.seen, RecvBuf.unread_compact, h]
      split
      · simp only [Received.seen, RecvBuf.unread_compact, h]
      have hfill : (b₁.compact.fill n stream).unread = (b₂.compact.fill n stream).unread := by
        rw [RecvBuf.unread_fill, RecvBuf.unread_fill, RecvBuf.unread_compact,
          RecvBuf.unread_compact, h, hspace]
      apply ih _ hfill
      rw [RecvBuf.space_compact, RecvBuf.space_compact, hfill]
    · rw [RecvBuf.nextFrame_error_congr h h1]
      simp only [Received.seen, h]
    · obtain ⟨b'', h2, hunread⟩ := RecvBuf.nextFrame_ok_congr h h1
      rw [h2]
      simp only [Received.seen, hunread]

end

/-- One call on a stream that starts with a frame. The frame comes out, or the call ends at a
read that timed out, and the bytes that arrived stay in the buffer. -/
theorem recvLoop_frame {f : ClientFrame} (hf : f.Valid) (hfits : f.Fits) {tail : Bytes}
    (reads : List ℕ) (b : RecvBuf) (stream : Bytes)
    (h : b.unread ++ stream = f.encode ++ tail) {r : Received}
    (hr : recvLoop kHdMaxFramePayload b stream reads = r) :
    (r.result = .ok f ∧ r.buf.unread ++ r.sock.stream = tail ∧
        Source.Later 0 ⟨stream, reads⟩ r.sock) ∨
      (r.result = .error ⟨.ioFailed, "recv failed"⟩ ∧
        r.buf.unread ++ r.sock.stream = f.encode ++ tail ∧
        Source.Later 1 ⟨stream, reads⟩ r.sock) := by
  induction reads generalizing b stream with
  | nil =>
    rcases RecvBuf.nextFrame_of_encode hf h with ⟨hnone, hlt⟩ | ⟨b', hsome, htail⟩
    · right
      have hspace : b.compact.space ≠ 0 := by
        rw [RecvBuf.space_compact]
        rw [ClientFrame.Fits, ← f.length_encode] at hfits
        omega
      rw [recvLoop_nil hnone hspace] at hr
      subst hr
      refine ⟨rfl, by rw [RecvBuf.unread_compact, h], fun henough => ?_⟩
      -- without a coming read nothing is left to come, but the frame is not whole
      have hlen := congrArg List.length h
      rw [List.length_append, List.length_append] at hlen
      have hempty : stream.length ≤ 0 := henough
      omega
    · left
      rw [recvLoop_ok hsome] at hr
      subst hr
      exact ⟨rfl, htail, .refl _⟩
  | cons n reads ih =>
    rcases RecvBuf.nextFrame_of_encode hf h with ⟨hnone, hlt⟩ | ⟨b', hsome, htail⟩
    · have hspace : b.compact.space ≠ 0 := by
        rw [RecvBuf.space_compact]
        rw [ClientFrame.Fits, ← f.length_encode] at hfits
        omega
      have hstream : stream ≠ [] := by
        rintro rfl
        have hlen := congrArg List.length h
        rw [List.length_append, List.length_append, List.length_nil] at hlen
        omega
      by_cases hn : n = 0
      · right
        rw [recvLoop_timeout hnone hspace (.inl hn)] at hr
        subst hr hn
        exact ⟨rfl, by rw [RecvBuf.unread_compact, h], Source.later_timeout stream reads⟩
      · rw [recvLoop_read hnone hspace (by simp [hn, hstream])] at hr
        have hlater := Source.later_read reads hn hspace hstream
        rcases ih _ _ (by rw [unread_fill_append, h]) hr with ⟨hres, hrest, hmore⟩ | ⟨hres, hrest, hmore⟩
        · exact .inl ⟨hres, hrest, hlater.trans hmore⟩
        · exact .inr ⟨hres, hrest, by simpa using hlater.trans hmore⟩
    · left
      rw [recvLoop_ok hsome] at hr
      subst hr
      exact ⟨rfl, htail, .refl _⟩

end HyperDerp
