import HyperDerp.Client.Handshake
import HyperDerp.DataPlane.Conversation

/-!
# Packets of the DERP client (`client.cc:27-75`, `:360-428`)

`ClientSendPacket` writes one frame, `ClientRecvFrame` reads one. Between two clients the relay
may drop packets; what a client reads of another one's packets is what that one sent, in order.
-/

namespace HyperDerp.DerpClient

open ByteStream (Source)

def sendPacketFrame (dstKey : Key) (data : Bytes) : Bytes :=
  writeFrameHeader .kSendPacket (kKeySize + data.length) ++ (dstKey.data ++ data)

/-- `ClientSendPacket` with what it writes when it succeeds. -/
def clientSendPacket (writeAll : Bytes → Bool) (dstKey : Key) (data : Bytes) :
    Except Failure Bytes :=
  if kMaxFramePayload < kKeySize + data.length then
    .error ⟨.bufferOverflow, "packet exceeds max frame payload"⟩
  else if writeAll (sendPacketFrame dstKey data) = false then
    .error ⟨.ioFailed, "write SendPacket failed"⟩
  else .ok (sendPacketFrame dstKey data)

/-- What `ClientRecvFrame` stores through its pointers. -/
structure RecvFrame where
  type : FrameType
  payload : Bytes
  payloadLen : ℤ
  deriving DecidableEq

/-- The `int` that the code reads with: of a length from 2^31 on it is negative, and `ReadAll`
reads nothing then. -/
def intLen (len : ℕ) : ℤ := (len : ℤ).bmod (2 ^ 32)

def clientRecvFrame (bufSize : ℤ) (sock : Source Byte) :
    Except Failure (RecvFrame × Source Byte) :=
  match sock.readAll kFrameHeaderSize with
  | none => .error ⟨.ioFailed, "read frame header failed"⟩
  | some (hdr, sock) =>
    let len := readPayloadLen hdr
    if bufSize < intLen len then .error ⟨.bufferOverflow, "frame payload exceeds buffer"⟩
    else if 0 < len then
      match sock.readAll (intLen len).toNat with
      | none => .error ⟨.ioFailed, "read frame payload failed"⟩
      | some (payload, sock) => .ok (⟨readFrameType hdr, payload, intLen len⟩, sock)
    else .ok (⟨readFrameType hdr, [], intLen len⟩, sock)

/-- The frames of at most `n` calls, up to the first that fails. -/
def recvFrames (bufSize : ℤ) : ℕ → Source Byte → List RecvFrame
  | 0, _ => []
  | n + 1, sock =>
    match clientRecvFrame bufSize sock with
    | .error _ => []
    | .ok (f, sock) => f :: recvFrames bufSize n sock

/-! ### Reading whole frames -/

def frameRead (frame : Bytes) : RecvFrame :=
  ⟨readFrameType frame, frame.drop kFrameHeaderSize, (frame.drop kFrameHeaderSize).length⟩

/-- One DERP frame with a length that the servers accept. -/
abbrev Whole (frame : Bytes) : Prop :=
  Framing.Whole (frameFormat .kDerp) (isValidPeerPayloadLen .kDerp) frame

theorem whole_frame {type : FrameType} {payload : Bytes} (h : payload.length ≤ kMaxFramePayload) :
    Whole (writeFrameHeader type payload.length ++ payload) := by
  have hframe : WellFormed .kDerp (writeFrameHeader type payload.length ++ payload) :=
    wellFormed_derp h
  exact ⟨hframe.1, hframe.2.1.symm, hframe.2.2⟩

theorem intLen_of_valid {len : ℕ} (h : len ≤ kMaxFramePayload) : intLen len = len := by
  simp only [kMaxFramePayload] at h
  unfold intLen
  rw [Int.bmod_def, Int.emod_eq_of_lt (by omega) (by omega), if_pos (by omega)]

theorem readPayloadLen_take {s : Bytes} (h : kFrameHeaderSize ≤ s.length) :
    readPayloadLen (s.take kFrameHeaderSize) = readPayloadLen s := by
  have happ := readPayloadLen_append (s.take kFrameHeaderSize) (s.drop kFrameHeaderSize)
    (by rw [List.length_take]; omega)
  rw [List.take_append_drop] at happ
  exact happ.symm

theorem readFrameType_take (s : Bytes) :
    readFrameType (s.take kFrameHeaderSize) = readFrameType s := by
  cases s <;> rfl

theorem clientRecvFrame_ok {bufSize : ℤ} {sock sock' : Source Byte} {f : RecvFrame}
    (h : clientRecvFrame bufSize sock = .ok (f, sock')) :
    kFrameHeaderSize + (intLen (readPayloadLen sock.stream)).toNat ≤ sock.stream.length ∧
    sock'.stream =
      sock.stream.drop (kFrameHeaderSize + (intLen (readPayloadLen sock.stream)).toNat) ∧
    f = ⟨readFrameType sock.stream, (sock.stream.drop kFrameHeaderSize).take
      (intLen (readPayloadLen sock.stream)).toNat, intLen (readPayloadLen sock.stream)⟩ := by
  unfold clientRecvFrame at h
  split at h
  · cases h
  next hdr sock1 hread =>
  obtain ⟨rfl, hrest, hle⟩ := Source.readAll_some hread
  rw [readPayloadLen_take hle, readFrameType_take] at h
  dsimp only at h
  split at h
  · cases h
  split at h
  · split at h
    · cases h
    next payload sock2 hread2 =>
    obtain ⟨hpayload, hrest2, hle2⟩ := Source.readAll_some hread2
    rw [hrest] at hpayload hrest2 hle2
    rw [List.length_drop] at hle2
    rw [List.drop_drop] at hrest2
    cases h
    exact ⟨by omega, hrest2, by rw [hpayload]⟩
  · next hzero =>
    have hlen : readPayloadLen sock.stream = 0 := by omega
    have hint : intLen 0 = 0 := by decide
    cases h
    rw [hlen, hint, Int.toNat_zero, Nat.add_zero]
    exact ⟨hle, hrest, rfl⟩

theorem clientRecvFrame_whole {bufSize : ℤ} {sock sock' : Source Byte} {f : RecvFrame}
    {frame rest : Bytes} (hf : Whole frame) (hs : sock.stream <+: frame ++ rest)
    (h : clientRecvFrame bufSize sock = .ok (f, sock')) :
    f = frameRead frame ∧ sock.stream = frame ++ sock'.stream := by
  have hhdr : kFrameHeaderSize ≤ frame.length := hf.hdr
  have hsize : kFrameHeaderSize + readPayloadLen frame = frame.length := hf.size
  have hvalid : readPayloadLen frame ≤ kMaxFramePayload := of_decide_eq_true hf.ok
  obtain ⟨hle, hrest, rfl⟩ := clientRecvFrame_ok h
  have hlen : readPayloadLen sock.stream = readPayloadLen frame := by
    obtain ⟨t, ht⟩ := hs
    rw [← readPayloadLen_append frame rest hhdr, ← ht, readPayloadLen_append _ t (by omega)]
  rw [hlen, intLen_of_valid hvalid, Int.toNat_natCast] at hle hrest ⊢
  rw [hsize] at hle hrest
  have hpre : frame <+: sock.stream :=
    List.prefix_of_prefix_length_le (List.prefix_append ..) hs hle
  obtain ⟨u, hu⟩ := hpre
  rw [← hu, List.drop_left] at hrest
  subst hrest
  refine ⟨?_, hu.symm⟩
  have htype : readFrameType sock.stream = readFrameType frame := by
    rw [← hu, ← readFrameType_take, List.take_append_of_le_length hhdr, readFrameType_take]
  rw [frameRead, htype, ← hu, List.drop_append_of_le_length hhdr, List.take_left' (by
    rw [List.length_drop]; omega), List.length_drop, ← hsize, Nat.add_sub_cancel_left]

theorem recvFrames_whole (bufSize : ℤ) (n : ℕ) {sock : Source Byte} {frames : List Bytes}
    (hframes : ∀ f ∈ frames, Whole f) (hs : sock.stream <+: frames.flatten) :
    recvFrames bufSize n sock <+: frames.map frameRead := by
  induction n generalizing sock frames with
  | zero => exact List.nil_prefix
  | succ n ih =>
    unfold recvFrames
    split
    · exact List.nil_prefix
    next f sock' hcall =>
    cases frames with
    | nil =>
      have hnil : sock.stream = [] := List.prefix_nil.1 hs
      have hle := (clientRecvFrame_ok hcall).1
      rw [hnil] at hle
      simp [kFrameHeaderSize] at hle
    | cons frame frames =>
      rw [List.flatten_cons] at hs
      obtain ⟨rfl, hsock⟩ := clientRecvFrame_whole (hframes _ (List.mem_cons_self ..)) hs hcall
      rw [hsock, List.prefix_append_right_inj] at hs
      exact List.cons_prefix_cons.2
        ⟨rfl, ih (fun f hf => hframes f (List.mem_cons_of_mem _ hf)) hs⟩

/-! ### From client to client -/

section

open Conversation

/-- The frames that the calls of `ClientSendPacket` for these packets have written. -/
def Wrote (writeAll : Bytes → Bool) (packets : List (Key × Bytes)) (frames : List Bytes) : Prop :=
  List.Forall₂ (fun m f => clientSendPacket writeAll m.1 m.2 = .ok f) packets frames

def addressed (dstKey : Key) (packets : List (Key × Bytes)) : List Bytes :=
  (packets.filter fun m => m.1 = dstKey).map Prod.snd

def packetRead (srcKey : Key) (data : Bytes) : RecvFrame :=
  ⟨.kRecvPacket, srcKey.data ++ data, (srcKey.data ++ data).length⟩

theorem clientSendPacket_ok {writeAll : Bytes → Bool} {dstKey : Key} {data frame : Bytes}
    (h : clientSendPacket writeAll dstKey data = .ok frame) :
    kKeySize + data.length ≤ kMaxFramePayload ∧ frame = sendPacketFrame dstKey data := by
  unfold clientSendPacket at h
  split at h
  · cases h
  split at h
  · cases h
  next hle _ =>
  cases h
  exact ⟨by omega, rfl⟩

theorem whole_sendPacket {dstKey : Key} {data : Bytes}
    (h : kKeySize + data.length ≤ kMaxFramePayload) : Whole (sendPacketFrame dstKey data) := by
  have hlen : (dstKey.data ++ data).length = kKeySize + data.length := by
    rw [List.length_append, dstKey.size]
  unfold sendPacketFrame
  rw [← hlen] at h ⊢
  exact whole_frame h

theorem buildRecvPacket_eq (srcKey : Key) (data : Bytes) : buildRecvPacket srcKey data =
    writeFrameHeader .kRecvPacket (srcKey.data ++ data).length ++ (srcKey.data ++ data) := by
  rw [List.length_append, srcKey.size, ← List.append_assoc]
  rfl

theorem whole_recvPacket {srcKey : Key} {data : Bytes}
    (h : kKeySize + data.length ≤ kMaxFramePayload) : Whole (buildRecvPacket srcKey data) := by
  rw [buildRecvPacket_eq]
  exact whole_frame (by rw [List.length_append, srcKey.size]; exact h)

theorem frameRead_recvPacket (srcKey : Key) (data : Bytes) :
    frameRead (buildRecvPacket srcKey data) = packetRead srcKey data := by
  rw [buildRecvPacket_eq, frameRead, List.drop_left' (length_writeFrameHeader ..)]
  rfl

theorem packetFor_sendPacket (srcKey dstKey key : Key) (data : Bytes) :
    packetFor srcKey key (sendPacketFrame dstKey data) =
      if dstKey = key then some (buildRecvPacket srcKey data) else none := by
  have hdrop : (sendPacketFrame dstKey data).drop kFrameHeaderSize = dstKey.data ++ data :=
    List.drop_left' (length_writeFrameHeader ..)
  have hlen : kKeySize ≤ (dstKey.data ++ data).length := by
    rw [List.length_append, dstKey.size]
    omega
  have hkey : toKey (dstKey.data ++ data) hlen = dstKey :=
    Key.ext_data (List.take_left' dstKey.size)
  simp only [packetFor, hdrop]
  rw [dif_pos ⟨rfl, hlen⟩, hkey, List.drop_left' dstKey.size]

theorem Wrote.frames {writeAll : Bytes → Bool} {packets : List (Key × Bytes)}
    {frames : List Bytes} (h : Wrote writeAll packets frames) :
    frames = packets.map (fun m => sendPacketFrame m.1 m.2) ∧
      ∀ m ∈ packets, kKeySize + m.2.length ≤ kMaxFramePayload := by
  induction h with
  | nil => exact ⟨rfl, nofun⟩
  | cons hf _ ih =>
    obtain ⟨hle, rfl⟩ := clientSendPacket_ok hf
    obtain ⟨rfl, hall⟩ := ih
    exact ⟨rfl, List.forall_mem_cons.2 ⟨hle, hall⟩⟩

theorem filterMap_packetFor (srcKey key : Key) (packets : List (Key × Bytes)) :
    (packets.map fun m => sendPacketFrame m.1 m.2).filterMap (packetFor srcKey key) =
      (addressed key packets).map (buildRecvPacket srcKey) := by
  induction packets with
  | nil => rfl
  | cons m packets ih =>
    rw [List.map_cons, List.filterMap_cons, packetFor_sendPacket, ih]
    by_cases hkey : m.1 = key <;> simp [addressed, hkey]

variable {wid : ℕ} {p : Slot} {fd : Fd} {keys : Conn → Key} {dstKey : Key}
  {s : Conversation.State}

def packetData (frame : Bytes) : Bytes := frame.drop (kFrameHeaderSize + kKeySize)

theorem packetData_recvPacket (srcKey : Key) (data : Bytes) :
    packetData (buildRecvPacket srcKey data) = data := by
  rw [packetData, buildRecvPacket, List.drop_left' (by simp [srcKey.size])]

theorem bySender_map (c : Conn) (f : Bytes → Bytes) (xs : List (Conn × Bytes)) :
    bySender c (xs.map fun x => (x.1, f x.2)) = (bySender c xs).map f := by
  induction xs with
  | nil => rfl
  | cons x xs ih =>
    by_cases hc : x.1 = c
    · simp_all [bySender]
    · simp_all [bySender]

theorem mem_bySender {x : Conn × Bytes} {xs : List (Conn × Bytes)} (h : x ∈ xs) :
    x.2 ∈ bySender x.1 xs :=
  List.mem_map_of_mem (List.mem_filter.2 ⟨h, by simp⟩)

/-- In every run of clients that stay, each of which has written packets with `ClientSendPacket`,
what the receiver reads with `ClientRecvFrame` until a call fails are packets with their senders'
keys, and those of each sender are some that it wrote to the receiver, whole and in order. However
TCP cuts the streams on both sides plays no part. -/
theorem clients_exchange_packets
    (h : Runs.Reach (Init wid p fd keys dstKey) (step wid p fd) (Quiet wid p fd) s)
    {writeAll : Conn → Bytes → Bool} {packets : Conn → List (Key × Bytes)}
    {frames : Conn → List Bytes} (hwrote : ∀ c, Wrote (writeAll c) (packets c) (frames c))
    (hcame : ∀ c, (s.chunks c).flatten <+: (frames c).flatten) (bufSize : ℤ) (n : ℕ)
    (reads : List ℕ) :
    ∃ got : List (Conn × Bytes),
      recvFrames bufSize n ⟨s.sock, reads⟩ = got.map (fun x => packetRead (keys x.1) x.2) ∧
      ∀ c, (bySender c got).Sublist (addressed dstKey (packets c)) := by
  obtain ⟨sent, hsock, hordered⟩ := (reach_inv h).delivers
  have hsent : ∀ c, (bySender c sent).Sublist
      ((addressed dstKey (packets c)).map (buildRecvPacket (keys c))) := by
    intro c
    obtain ⟨hframes, hfits⟩ := (hwrote c).frames
    have hwhole : ∀ f ∈ frames c, Whole f := by
      rw [hframes]
      intro f hf
      obtain ⟨m, hm, rfl⟩ := List.mem_map.1 hf
      exact whole_sendPacket (hfits m hm)
    have hpre : (received (s.chunks c)).1 <+: frames c :=
      Framing.feed_frames_prefix hwhole (hcame c)
    rw [← filterMap_packetFor, ← hframes]
    exact (hordered c).trans (hpre.sublist.filterMap _)
  have hpacket : ∀ x ∈ sent, Whole x.2 ∧ x.2 = buildRecvPacket (keys x.1) (packetData x.2) := by
    intro x hx
    obtain ⟨data, hdata, heq⟩ := List.mem_map.1 ((hsent x.1).mem (mem_bySender hx))
    obtain ⟨m, hm, rfl⟩ := List.mem_map.1 hdata
    have hfits := (hwrote x.1).frames.2 m (List.mem_of_mem_filter hm)
    rw [← heq, packetData_recvPacket]
    exact ⟨whole_recvPacket hfits, rfl⟩
  have hread : recvFrames bufSize n ⟨s.sock, reads⟩ <+: (sent.map Prod.snd).map frameRead :=
    recvFrames_whole bufSize n (List.forall_mem_map.2 fun x hx => (hpacket x hx).1) hsock
  refine ⟨(sent.map fun x => (x.1, packetData x.2)).take
    (recvFrames bufSize n ⟨s.sock, reads⟩).length, ?_, fun c => ?_⟩
  · have hall : (sent.map Prod.snd).map frameRead =
        (sent.map fun x => (x.1, packetData x.2)).map fun x => packetRead (keys x.1) x.2 := by
      rw [List.map_map, List.map_map]
      refine List.map_congr_left fun x hx => ?_
      change frameRead x.2 = packetRead (keys x.1) (packetData x.2)
      rw [← frameRead_recvPacket, ← (hpacket x hx).2]
    rw [List.map_take, ← hall]
    exact List.prefix_iff_eq_take.1 hread
  · have hmap := (hsent c).map packetData
    rw [List.map_map, ← bySender_map] at hmap
    have hid : packetData ∘ buildRecvPacket (keys c) = id :=
      funext fun data => packetData_recvPacket (keys c) data
    rw [hid, List.map_id] at hmap
    exact (bySender_sublist (List.take_sublist _ _)).trans hmap

/-- Client 1 has one packet for client 2, the others have none. -/
def onePacket (c : Conn) : List (Key × Bytes) :=
  if c = (0, homeSlot (byteKey 1)) then [(byteKey 2, [7])] else []

/-- Client 2 reads the packet that client 1 has sent, its frame in three pieces. -/
theorem packet_read_across : ∃ (s : Conversation.State) (got : List (Conn × Bytes)),
    recvFrames 2048 2 ⟨s.sock, [3, 10, 50]⟩ = [packetRead (byteKey 1) [7]] ∧
    recvFrames 2048 2 ⟨s.sock, [3, 10, 50]⟩ =
      got.map (fun x => packetRead (keysOf twoClients x.1) x.2) ∧
    ∀ c, (bySender c got).Sublist (addressed (byteKey 2) (onePacket c)) := by
  obtain ⟨s, hreach, hsock, hchunks⟩ := across_run
  have hwrote : ∀ c, Wrote (fun _ => true) (onePacket c)
      (if c = (0, homeSlot (byteKey 1)) then [oneByteToTwo] else []) := by
    intro c
    unfold onePacket
    split
    · exact .cons rfl .nil
    · exact .nil
  have hcame : ∀ c, (s.chunks c).flatten <+:
      (if c = (0, homeSlot (byteKey 1)) then [oneByteToTwo] else []).flatten := by
    intro c
    rw [hchunks, twoPieces]
    split <;> exact List.prefix_rfl
  obtain ⟨got, hgot, hordered⟩ := clients_exchange_packets hreach hwrote hcame 2048 2 [3, 10, 50]
  exact ⟨s, got, by rw [hsock]; decide, hgot, hordered⟩

end

end HyperDerp.DerpClient
