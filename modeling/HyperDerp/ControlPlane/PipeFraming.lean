import HyperDerp.ControlPlane.Frames
import HyperDerp.DataPlane.ControlPipe
import HyperDerp.Lib.Runs

/-!
# Framing on the control pipe (`control_plane.cc:656-713`, `data_plane.cc:1321-1342`,
`:1473-1492`, `:1570-1582`)

A worker writes `[4B fd][1B type][4B len][payload]` in three places; the control
thread reads what is there into a fixed buffer and cuts off complete messages. The
rest of the development takes the pipe as a list of messages; the result here is
that this is what the bytes amount to.
-/

namespace HyperDerp

/-! ### Writers -/

/-- The four bytes of an `int`, most significant first. -/
def intBytes (v : ℤ) : Bytes := BigEndian.bytes 4 (v % 2 ^ 32).toNat

def pipeEncode (fd : Fd) (type : Byte) (payload : Bytes) : Bytes :=
  intBytes fd ++ [type] ++ intBytes payload.length ++ payload

inductive PipeWrite where
  | dispatchHdFrame (fd : Fd) (type : Byte) (payload : Bytes)
  | forwardMsg (fd : Fd) (type : Byte) (payload : Bytes)
  | notifyPeerClose (fd : Fd) (key : Key)

namespace PipeWrite

def bytes : PipeWrite → Bytes
  | dispatchHdFrame fd type payload => pipeEncode fd type payload
  | forwardMsg fd type payload => pipeEncode fd type payload
  | notifyPeerClose fd key => intBytes fd ++ buildPeerGone key .kDisconnected

def msg : PipeWrite → PipeMsg
  | dispatchHdFrame fd type payload => ⟨fd, type, payload⟩
  | forwardMsg fd type payload => ⟨fd, type, payload⟩
  | notifyPeerClose fd key =>
    ⟨fd, FrameType.kPeerGone, key.data ++ [PeerGoneReason.kDisconnected.toByte]⟩

/-- What a worker can write: an fd of the table and a payload that passed the length check. -/
structure Valid (w : PipeWrite) : Prop where
  fd : validFd w.msg.fd = true
  payload : w.msg.payload.length ≤ kMaxFramePayload

theorem bytes_eq (w : PipeWrite) : w.bytes = pipeEncode w.msg.fd w.msg.type w.msg.payload := by
  cases w with
  | dispatchHdFrame fd type payload => rfl
  | forwardMsg fd type payload => rfl
  | notifyPeerClose fd key =>
    have hlen : (key.data ++ [PeerGoneReason.kDisconnected.toByte]).length = kKeySize + 1 := by
      rw [List.length_append, key.size, List.length_singleton]
    simp only [bytes, msg, pipeEncode, buildPeerGone, writeFrameHeader, hlen, List.append_assoc,
      List.cons_append, List.nil_append]
    rfl

end PipeWrite

/-! ### Reader -/

def kPipeBufSize : ℕ := 65536 + 64
def kPipeMsgHeader : ℕ := 9

/-- Four bytes shifted into an `int`. -/
def readInt (buf : Bytes) (off : ℕ) : ℤ :=
  let v := BigEndian.val ((buf.drop off).take 4)
  if v < 2 ^ 31 then v else v - 2 ^ 32

/-- The parse loop: the messages passed to `CpProcessFrame` and what stays in the buffer.
`none` when a length is negative or overflows, where the source leaves the buffer. The
first argument bounds the number of messages. -/
def pipeParse : ℕ → Bytes → Option (List PipeMsg × Bytes)
  | 0, buf => some ([], buf)
  | n + 1, buf =>
    if buf.length < kPipeMsgHeader then some ([], buf)
    else
      let plen := readInt buf 5
      if plen < 0 ∨ 2 ^ 31 ≤ kPipeMsgHeader + plen then none
      else
        let msgLen := kPipeMsgHeader + plen.toNat
        if buf.length < msgLen then some ([], buf)
        else
          (pipeParse n (buf.drop msgLen)).map fun r =>
            (⟨readInt buf 0, buf.getD 4 0, (buf.drop kPipeMsgHeader).take plen.toNat⟩ :: r.1, r.2)

structure PipeState where
  /-- bytes of the worker that the control thread has not read -/
  stream : Bytes
  /-- `rdr->buf[0 .. rdr->len)` -/
  buf : Bytes := []
  /-- calls of `CpProcessFrame` -/
  frames : List PipeMsg := []
  /-- how often the buffer was reset -/
  resets : ℕ := 0

/-- A readable event of the pipe whose `read` returns `n` bytes; 0 stands for none or an
error. A read returns no more than fits and no more than there is. -/
def pipeEvent (s : PipeState) (n : ℕ) : Option PipeState :=
  if kPipeBufSize ≤ s.buf.length then some { s with buf := [], resets := s.resets + 1 }
  else if n = 0 then some s
  else if kPipeBufSize - s.buf.length < n ∨ s.stream.length < n then none
  else
    let buf := s.buf ++ s.stream.take n
    (pipeParse buf.length buf).map fun r =>
      { s with stream := s.stream.drop n, buf := r.2, frames := s.frames ++ r.1 }

/-! ### One message -/

theorem intBytes_length (v : ℤ) : (intBytes v).length = 4 := BigEndian.length_bytes 4 _

theorem readInt_intBytes {v : ℤ} (h0 : 0 ≤ v) (h1 : v < 2 ^ 31) {buf pre post : Bytes} {off : ℕ}
    (hbuf : buf = pre ++ intBytes v ++ post) (hoff : pre.length = off) : readInt buf off = v := by
  have hfour : (buf.drop off).take 4 = intBytes v := by
    rw [hbuf, List.append_assoc, List.drop_left' hoff, List.take_left' (intBytes_length v)]
  have hval : BigEndian.val (intBytes v) = v.toNat := by
    unfold intBytes
    rw [BigEndian.val_bytes_of_lt]
    · omega
    · omega
  unfold readInt
  rw [hfour, hval]
  dsimp only
  rw [if_pos (by omega)]
  omega

theorem pipeEncode_length (fd : Fd) (type : Byte) (payload : Bytes) :
    (pipeEncode fd type payload).length = kPipeMsgHeader + payload.length := by
  unfold pipeEncode kPipeMsgHeader
  simp only [List.length_append, intBytes_length, List.length_singleton]

theorem header_of_append {buf t payload rest : Bytes} {fd : Fd} {type : Byte}
    (heq : buf ++ t = pipeEncode fd type payload ++ rest) (hlen : kPipeMsgHeader ≤ buf.length) :
    ∃ tail, buf = intBytes fd ++ [type] ++ intBytes payload.length ++ tail ∧
      tail ++ t = payload ++ rest := by
  have hh : (intBytes fd ++ [type] ++ intBytes payload.length).length = kPipeMsgHeader := by
    simp only [List.length_append, intBytes_length, List.length_singleton, kPipeMsgHeader]
  unfold pipeEncode at heq
  rw [List.append_assoc (intBytes fd ++ [type] ++ intBytes payload.length)] at heq
  rcases List.append_eq_append_iff.1 heq with ⟨e, he, ht⟩ | ⟨e, he, ht⟩
  · have hnil : e = [] := by
      rw [he, List.length_append] at hh
      exact List.eq_nil_of_length_eq_zero (by omega)
    rw [hnil, List.append_nil] at he
    rw [hnil, List.nil_append] at ht
    exact ⟨[], by rw [List.append_nil, he], ht⟩
  · exact ⟨e, he, ht.symm⟩

theorem readHeader {buf payload tail : Bytes} {fd : Fd} {type : Byte}
    (hbuf : buf = intBytes fd ++ [type] ++ intBytes payload.length ++ tail)
    (hfd : validFd fd = true) (hpay : payload.length ≤ kMaxFramePayload) :
    readInt buf 0 = fd ∧ buf.getD 4 0 = type ∧ readInt buf 5 = payload.length ∧
      buf.drop kPipeMsgHeader = tail := by
  have hmaxFd : kMaxFd < 2 ^ 31 := by decide
  have hmaxPay : (kMaxFramePayload : ℤ) < 2 ^ 31 := by decide
  have hrange := of_decide_eq_true hfd
  refine ⟨?_, ?_, ?_, ?_⟩
  · have hsplit : buf = [] ++ intBytes fd ++ ([type] ++ intBytes payload.length ++ tail) := by
      rw [hbuf, List.nil_append, List.append_assoc, List.append_assoc, List.append_assoc]
    exact readInt_intBytes hrange.1 (hrange.2.trans hmaxFd) hsplit rfl
  · rw [hbuf, List.append_assoc, List.append_assoc, List.getD_eq_getElem?_getD,
      List.getElem?_append_right (intBytes_length _).le, intBytes_length]
    rfl
  · apply readInt_intBytes (Int.natCast_nonneg _) _ hbuf
    · rw [List.length_append, intBytes_length, List.length_singleton]
    · omega
  · rw [hbuf]
    apply List.drop_left'
    simp only [List.length_append, intBytes_length, List.length_singleton, kPipeMsgHeader]

def pipeStream (ws : List PipeWrite) : Bytes := (ws.map PipeWrite.bytes).flatten

def Within (buf : Bytes) (ws : List PipeWrite) : Prop :=
  ∀ w ∈ ws.head?, buf.length < kPipeMsgHeader + w.msg.payload.length

theorem pipeParse_stream {ws : List PipeWrite} (hws : ∀ w ∈ ws, w.Valid) {n : ℕ} {buf t : Bytes}
    (heq : buf ++ t = pipeStream ws) (hn : buf.length ≤ n) :
    ∃ done rest buf', ws = done ++ rest ∧ pipeParse n buf = some (done.map PipeWrite.msg, buf') ∧
      buf' ++ t = pipeStream rest ∧ Within buf' rest := by
  induction ws generalizing n buf with
  | nil =>
    obtain ⟨rfl, rfl⟩ := List.append_eq_nil_iff.1 heq
    refine ⟨[], [], [], rfl, ?_, rfl, nofun⟩
    cases n <;> rfl
  | cons w ws ih =>
    have hstop : buf.length < kPipeMsgHeader + w.msg.payload.length → Within buf (w :: ws) := by
      intro hlt x hx
      cases hx
      exact hlt
    cases n with
    | zero =>
      refine ⟨[], w :: ws, buf, rfl, rfl, heq, hstop ?_⟩
      have hpos : 0 < kPipeMsgHeader := by decide
      omega
    | succ n =>
      by_cases hshort : buf.length < kPipeMsgHeader
      · refine ⟨[], w :: ws, buf, rfl, ?_, heq, hstop (by omega)⟩
        rw [pipeParse, if_pos hshort]
        rfl
      obtain ⟨hfd, hpay⟩ := hws w (List.mem_cons_self ..)
      have hcut := heq
      unfold pipeStream at hcut
      rw [List.map_cons, List.flatten_cons, w.bytes_eq] at hcut
      obtain ⟨tail, hbuf, htail⟩ := header_of_append hcut (not_lt.1 hshort)
      obtain ⟨hsrc, htype, hplen, hdrop⟩ := readHeader hbuf hfd hpay
      have hlen : buf.length = kPipeMsgHeader + tail.length := by
        rw [← hdrop, List.length_drop]
        omega
      have hmax : ((kPipeMsgHeader + kMaxFramePayload : ℕ) : ℤ) < 2 ^ 31 := by decide
      rw [pipeParse, if_neg hshort]
      dsimp only
      rw [hplen, if_neg (by omega), Int.toNat_natCast, hsrc, htype, hdrop]
      split
      · next hcutoff => exact ⟨[], w :: ws, buf, rfl, rfl, heq, hstop hcutoff⟩
      next hwhole =>
      have hfit : w.msg.payload.length ≤ tail.length := by omega
      have hnext : tail.drop w.msg.payload.length ++ t = pipeStream ws := by
        have h := congrArg (List.drop w.msg.payload.length) htail
        rwa [List.drop_append_of_le_length hfit, List.drop_left] at h
      have hpayload : tail.take w.msg.payload.length = w.msg.payload := by
        have h := congrArg (List.take w.msg.payload.length) htail
        rwa [List.take_append_of_le_length hfit, List.take_left] at h
      have hrest : buf.drop (kPipeMsgHeader + w.msg.payload.length) =
          tail.drop w.msg.payload.length := by
        rw [← hdrop, List.drop_drop]
      have hfuel : (tail.drop w.msg.payload.length).length ≤ n := by
        rw [List.length_drop]
        have hpos : 0 < kPipeMsgHeader := by decide
        omega
      obtain ⟨done, rest, buf', rfl, hparse, hsplit, hwithin⟩ :=
        ih (fun x hx => hws x (List.mem_cons_of_mem _ hx)) hnext hfuel
      refine ⟨w :: done, rest, buf', rfl, ?_, hsplit, hwithin⟩
      rw [hrest, hparse, hpayload]
      rfl

/-! ### Runs of the reader -/

def pipeStart (ws : List PipeWrite) : PipeState := { stream := pipeStream ws }

structure PipeInv (ws : List PipeWrite) (s : PipeState) : Prop where
  split : ∃ done rest, ws = done ++ rest ∧ s.frames = done.map PipeWrite.msg ∧
    s.buf ++ s.stream = pipeStream rest ∧ Within s.buf rest
  resets : s.resets = 0

section

variable {ws : List PipeWrite} (hws : ∀ w ∈ ws, w.Valid) {s s' : PipeState}

include hws

theorem pipeInv_room (h : PipeInv ws s) : s.buf.length < kPipeBufSize := by
  have hsize : kPipeMsgHeader + kMaxFramePayload < kPipeBufSize := by decide
  obtain ⟨done, rest, hsplit, -, hstream, hwithin⟩ := h.split
  cases rest with
  | nil =>
    rw [(List.append_eq_nil_iff.1 hstream).1]
    decide
  | cons w rest =>
    have hlt := hwithin w rfl
    have hpay := (hws w (hsplit ▸ List.mem_append_right _ (List.mem_cons_self ..))).payload
    omega

theorem pipeEvent_inv (h : PipeInv ws s) {n : ℕ} (hfit : n ≤ kPipeBufSize - s.buf.length)
    (hthere : n ≤ s.stream.length) : ∃ s', pipeEvent s n = some s' ∧ PipeInv ws s' := by
  have hroom := pipeInv_room hws h
  obtain ⟨done, rest, hsplit, hframes, hstream, -⟩ := h.split
  unfold pipeEvent
  rw [if_neg (by omega)]
  split
  · exact ⟨s, rfl, h⟩
  · rw [if_neg (by omega)]
    have heq : (s.buf ++ s.stream.take n) ++ s.stream.drop n = pipeStream rest := by
      rw [List.append_assoc, List.take_append_drop]
      exact hstream
    have hrest : ∀ w ∈ rest, w.Valid := by
      intro w hw
      apply hws
      rw [hsplit]
      exact List.mem_append_right _ hw
    obtain ⟨done', rest', buf', rfl, hparse, hnext, hwithin⟩ :=
      pipeParse_stream hrest heq (Nat.le_refl _)
    dsimp only
    rw [hparse]
    refine ⟨_, rfl, ⟨done ++ done', rest', ?_, ?_, hnext, hwithin⟩, h.resets⟩
    · rw [List.append_assoc]
      exact hsplit
    · rw [List.map_append, ← hframes]

theorem pipeEvent_some (h : PipeInv ws s) {n : ℕ} (hs : pipeEvent s n = some s') :
    PipeInv ws s' := by
  have hroom := pipeInv_room hws h
  by_cases hbad : kPipeBufSize - s.buf.length < n ∨ s.stream.length < n
  · unfold pipeEvent at hs
    rw [if_neg (by omega)] at hs
    split at hs
    · cases hs
      exact h
    · cases hs
  · obtain ⟨s1, hs1, hinv⟩ := pipeEvent_inv hws h (n := n) (by omega) (by omega)
    rw [hs] at hs1
    cases hs1
    exact hinv

theorem pipe_run_inv (h : PipeInv ws s) {reads : List ℕ}
    (hrun : Runs.run pipeEvent s reads = some s') : PipeInv ws s' := by
  induction reads generalizing s with
  | nil =>
    cases hrun
    exact h
  | cons n reads ih =>
    rw [Runs.run] at hrun
    split at hrun
    · next s1 hs1 => exact ih (pipeEvent_some hws h hs1) hrun
    · cases hrun

end

/-- However the reads cut the stream, the messages arrive in order, all of them once all
bytes have been read, the buffer is never full and each read the pipe can give succeeds. -/
structure PipeDelivers (ws : List PipeWrite) (s : PipeState) : Prop where
  order : s.frames <+: ws.map PipeWrite.msg
  all : s.stream = [] → s.frames = ws.map PipeWrite.msg
  room : s.buf.length < kPipeBufSize
  resets : s.resets = 0
  enabled : ∀ n, n ≤ kPipeBufSize - s.buf.length → n ≤ s.stream.length → (pipeEvent s n).isSome

theorem pipe_round_trip {ws : List PipeWrite} (hws : ∀ w ∈ ws, w.Valid) {reads : List ℕ}
    {s : PipeState} (hrun : Runs.run pipeEvent (pipeStart ws) reads = some s) :
    PipeDelivers ws s := by
  have hstart : PipeInv ws (pipeStart ws) := by
    refine ⟨⟨[], ws, rfl, rfl, rfl, fun w _ => ?_⟩, rfl⟩
    change 0 < kPipeMsgHeader + w.msg.payload.length
    exact Nat.lt_add_right _ (by decide)
  have hinv := pipe_run_inv hws hstart hrun
  obtain ⟨done, rest, hsplit, hframes, hstream, hwithin⟩ := hinv.split
  refine ⟨?_, ?_, pipeInv_room hws hinv, hinv.resets, ?_⟩
  · rw [hframes, hsplit, List.map_append]
    exact List.prefix_append _ _
  · intro hend
    rw [hend, List.append_nil] at hstream
    cases rest with
    | nil => rw [hframes, hsplit, List.append_nil]
    | cons w rest =>
      -- the buffer would hold the whole next message
      have hlt := hwithin w rfl
      have hlen := congrArg List.length hstream
      unfold pipeStream at hlen
      rw [List.map_cons, List.flatten_cons, List.length_append, w.bytes_eq,
        pipeEncode_length] at hlen
      omega
  · intro n hfit hthere
    obtain ⟨s1, hs1, -⟩ := pipeEvent_inv hws hinv hfit hthere
    rw [hs1]
    rfl

def twoWrites : List PipeWrite := [.forwardMsg 5 0x12 [1, 2], .notifyPeerClose 6 zeroKey]

/-- Both messages arrive when the reads cut the first header and the second payload. -/
theorem pipe_round_trip_cut :
    ∃ s, Runs.run pipeEvent (pipeStart twoWrites) [3, 30, 20] = some s ∧ PipeDelivers twoWrites s ∧
      s.frames = twoWrites.map PipeWrite.msg := by
  have hvalid : ∀ w ∈ twoWrites, w.Valid := by
    intro w hw
    simp only [twoWrites, List.mem_cons, List.not_mem_nil, or_false] at hw
    rcases hw with rfl | rfl
    · exact ⟨by decide, by decide⟩
    · exact ⟨by decide, by decide⟩
  have hrun : (Runs.run pipeEvent (pipeStart twoWrites) [3, 30, 20]).map PipeState.stream =
      some [] := by
    decide
  obtain ⟨s, hs, hend⟩ := Option.map_eq_some_iff.1 hrun
  have hdel := pipe_round_trip hvalid hs
  exact ⟨s, hs, hdel, hdel.all hend⟩

end HyperDerp
