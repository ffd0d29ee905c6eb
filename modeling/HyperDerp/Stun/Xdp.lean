import HyperDerp.Lib.Patch
import HyperDerp.Stun.Codec

/-!
# The XDP responder (`hd_xdp.bpf.c`)

A frame is its bytes: Ethernet from 0, IPv4 from 14, UDP from 34, payload from 42.
Half words of the checksum are loaded and stored as on a little-endian host.
-/

namespace HyperDerp.Stun

open Patch

def XOR_MAPPED_ATTR_SIZE : ℕ := 12

inductive Stat where
  | stunRequests
  | stunResponses
  | passedToStack
  deriving DecidableEq

inductive Action where
  | pass (frame : Bytes)
  | tx (frame : Bytes)
  deriving DecidableEq

/-- `bpf_xdp_adjust_tail`, a helper of the kernel: it moves the end of the frame, or fails. -/
structure AdjustTail where
  run : Bytes → ℤ → Option Bytes
  length_run : ∀ {frame out : Bytes} {delta : ℤ}, run frame delta = some out →
    (out.length : ℤ) = frame.length + delta
  keeps : ∀ {frame out : Bytes} {delta : ℤ}, run frame delta = some out →
    out.take (min frame.length out.length) = frame.take (min frame.length out.length)

/-! ### Frame fields -/

def ethDest : ℕ := 0
def ethSource : ℕ := 6
def ipHdr : ℕ := 14
def ipTotLen : ℕ := 16
def ipTtl : ℕ := 22
def ipCheck : ℕ := 24
def ipSaddr : ℕ := 26
def ipDaddr : ℕ := 30
def udpSource : ℕ := 34
def udpDest : ℕ := 36
def udpLen : ℕ := 38
def udpCheck : ℕ := 40
def udpPayload : ℕ := 42

def halfWord (frame : Bytes) (off : ℕ) : ℕ :=
  (frame.getD off 0).toNat + 256 * (frame.getD (off + 1) 0).toNat

def ipChecksum (frame : Bytes) : ℕ :=
  let sum := ((List.range 10).map fun i => halfWord frame (ipHdr + 2 * i)).sum
  let sum := sum / 2 ^ 16 + sum % 2 ^ 16
  let sum := sum + sum / 2 ^ 16
  2 ^ 16 - 1 - sum % 2 ^ 16

def swapMac (frame : Bytes) : Bytes :=
  let tmp := field frame ethSource 6
  let frame := put frame ethSource (field frame ethDest 6)
  put frame ethDest tmp

def writeResponse (frame : Bytes) (clientIp clientPort txnId : Bytes) : Bytes :=
  let frame := put frame udpPayload (BigEndian.bytes 2 kStunBindingResponse)
  let frame := put frame (udpPayload + 2) (BigEndian.bytes 2 XOR_MAPPED_ATTR_SIZE)
  let frame := put frame (udpPayload + 4) (BigEndian.bytes 4 kStunMagicCookie)
  let frame := put frame (udpPayload + 8) txnId
  let attr := udpPayload + kStunHeaderSize
  let frame := put frame attr (BigEndian.bytes 2 kStunAttrXorMappedAddress)
  let frame := put frame (attr + 2) (BigEndian.bytes 2 8)
  let frame := put frame (attr + 4) [0]
  let frame := put frame (attr + 5) [kStunAddrFamilyIPv4]
  let frame := put frame (attr + 6) (xorBytes clientPort portMask)
  put frame (attr + 8) (xorBytes clientIp addrMask)

def turnHeaders (frame : Bytes) (clientIp clientPort : Bytes) : Bytes :=
  let frame := swapMac frame
  let frame := put frame ipSaddr (field frame ipDaddr 4)
  let frame := put frame ipDaddr clientIp
  let frame := put frame ipTotLen (BigEndian.bytes 2 (20 + 8 + 32))
  let frame := put frame ipTtl [64]
  let frame := put frame ipCheck [0, 0]
  let check := ipChecksum frame
  let frame := put frame ipCheck [UInt8.ofNat (check % 256), UInt8.ofNat (check / 256)]
  let frame := put frame udpSource (field frame udpDest 2)
  let frame := put frame udpDest clientPort
  let frame := put frame udpLen (BigEndian.bytes 2 (8 + 32))
  put frame udpCheck [0, 0]

def respond (frame : Bytes) : List Stat × Action :=
  if frame.length < udpPayload + 32 then ([.passedToStack], .pass frame)
  else
    let clientIp := field frame ipSaddr 4
    let clientPort := field frame udpSource 2
    let txnId := field frame (udpPayload + 8) 12
    let frame := writeResponse frame clientIp clientPort txnId
    ([.stunResponses], .tx (turnHeaders frame clientIp clientPort))

/-- The counters incremented, in order, and what becomes of the frame. -/
def handleStun (adjustTail : AdjustTail) (frame : Bytes) : List Stat × Action :=
  if frame.length < udpPayload + kStunHeaderSize then ([], .pass frame)
  else if BigEndian.val (field frame udpPayload 2) ≠ kStunBindingRequest then
    ([.passedToStack], .pass frame)
  else
    let desiredPayloadLen := kStunHeaderSize + XOR_MAPPED_ATTR_SIZE
    let delta : ℤ := desiredPayloadLen - (frame.length - udpPayload : ℕ)
    let (stats, action) :=
      if delta = 0 then respond frame
      else
        match adjustTail.run frame delta with
        | none => ([.passedToStack], .pass frame)
        | some frame => if frame.length < udpPayload then ([], .pass frame) else respond frame
    (.stunRequests :: stats, action)

/-! ### The payload of an answer -/

variable {frame out : Bytes}

@[simp] theorem length_swapMac : (swapMac frame).length = frame.length := by simp [swapMac]

@[simp] theorem length_turnHeaders {clientIp clientPort : Bytes} :
    (turnHeaders frame clientIp clientPort).length = frame.length := by
  simp [turnHeaders]

@[simp] theorem length_writeResponse {clientIp clientPort txnId : Bytes} :
    (writeResponse frame clientIp clientPort txnId).length = frame.length := by
  simp [writeResponse]

theorem turnHeaders_payload {clientIp clientPort : Bytes} {n : ℕ} (hip : clientIp.length = 4)
    (hport : clientPort.length = 2) :
    field (turnHeaders frame clientIp clientPort) udpPayload n = field frame udpPayload n := by
  unfold udpPayload
  have hlen : ∀ (p : Bytes) (off k : ℕ), (field p off k).length ≤ k := by
    intro p off k
    simp [field]
  unfold turnHeaders swapMac ethDest ethSource ipSaddr ipDaddr ipTotLen ipTtl ipCheck udpSource
    udpDest udpLen udpCheck
  dsimp only
  repeat rw [field_put_outside]
  all_goals
    left
    first
    | exact le_trans (Nat.add_le_add_left (hlen _ _ _) _) (by omega)
    | simp [hip, hport]

theorem writeResponse_payload {clientIp clientPort txnId : Bytes} (hip : clientIp.length = 4)
    (hport : clientPort.length = 2) (htxn : txnId.length = 12)
    (hframe : udpPayload + 32 ≤ frame.length) :
    field (writeResponse frame clientIp clientPort txnId) udpPayload 32 =
      BigEndian.bytes 2 kStunBindingResponse ++ BigEndian.bytes 2 XOR_MAPPED_ATTR_SIZE ++
      BigEndian.bytes 4 kStunMagicCookie ++ txnId ++ BigEndian.bytes 2 kStunAttrXorMappedAddress ++
      BigEndian.bytes 2 8 ++ [0] ++ [kStunAddrFamilyIPv4] ++ xorBytes clientPort portMask ++
      xorBytes clientIp addrMask := by
  have hxport : (xorBytes clientPort portMask).length = 2 := by
    rw [length_xorBytes] <;> simp [hport, portMask]
  have hxip : (xorBytes clientIp addrMask).length = 4 := by
    rw [length_xorBytes] <;> simp [hip, addrMask]
  have hsplit : ∀ p : Bytes, field p 42 32 = field p 42 2 ++ field p 44 2 ++ field p 46 4 ++
      field p 50 12 ++ field p 62 2 ++ field p 64 2 ++ field p 66 1 ++ field p 67 1 ++
      field p 68 2 ++ field p 70 4 := by
    intro p
    simp (disch := omega) only [field_append, Nat.reduceAdd]
  unfold udpPayload at hframe
  unfold writeResponse udpPayload kStunHeaderSize
  dsimp only
  rw [hsplit]
  simp (disch := (try simp only [length_put, BigEndian.length_bytes, hxport, hxip, htxn,
    List.length_cons, List.length_nil]) <;> omega) only [field_put, field_put_outside,
      Nat.reduceAdd]

theorem respond_tx {stats : List Stat} (h : respond frame = (stats, .tx out))
    (clientIp : NetBytes 4) (clientPort : NetBytes 2) (txnId : TxnId)
    (hip : field frame ipSaddr 4 = clientIp.val) (hport : field frame udpSource 2 = clientPort.val)
    (htxn : field frame (udpPayload + 8) 12 = txnId.val) :
    out.length = frame.length ∧
      stunBuildBindingResponse 32 txnId clientIp clientPort = some (field out udpPayload 32) := by
  unfold respond at h
  split at h
  · cases h
  · next hlen =>
    dsimp only at h
    rw [hip, hport, htxn] at h
    have hout := (Prod.mk.inj h).2
    injection hout with hout
    rw [← hout]
    constructor
    · simp
    · rw [turnHeaders_payload clientIp.property clientPort.property,
        writeResponse_payload clientIp.property clientPort.property txnId.property (by omega)]
      unfold stunBuildBindingResponse
      rw [if_neg (by decide), BigEndian.bytes_val_of_length (length_xorPort clientPort),
        BigEndian.bytes_val_of_length (length_xorAddr clientIp)]
      simp [writeStunHeader, XOR_MAPPED_ATTR_SIZE]

/-- What an answered request is answered with. -/
structure Answered (frame out : Bytes) (txnId : TxnId) (clientIp : NetBytes 4)
    (clientPort : NetBytes 2) : Prop where
  hasId : txnId.val = field frame (udpPayload + 8) 12
  fromIp : clientIp.val = field frame ipSaddr 4
  fromPort : clientPort.val = field frame udpSource 2
  length_out : out.length = udpPayload + 32
  payload : stunBuildBindingResponse 32 txnId clientIp clientPort = some (field out udpPayload 32)

theorem AdjustTail.field_run (adjustTail : AdjustTail) {delta : ℤ} {off n k : ℕ}
    (h : adjustTail.run frame delta = some out) (hn : off + n ≤ k) (hframe : k ≤ frame.length)
    (hout : k ≤ out.length) : field out off n = field frame off n := by
  have hmin : off + n ≤ min frame.length out.length := by omega
  rw [← field_take hmin, adjustTail.keeps h, field_take hmin]

theorem handleStun_tx {adjustTail : AdjustTail} {stats : List Stat}
    (h : handleStun adjustTail frame = (stats, .tx out)) :
    ∃ txnId clientIp clientPort, Answered frame out txnId clientIp clientPort := by
  unfold handleStun at h
  split at h
  · cases h
  · next hlen =>
    split at h
    · cases h
    · have h62 : 62 ≤ frame.length := not_lt.mp hlen
      have hfield : ∀ {off n}, off + n ≤ 62 → (field frame off n).length = n := fun hn =>
        length_field (le_trans hn h62)
      have htxn : (field frame (udpPayload + 8) 12).length = kStunTransactionIdSize :=
        hfield (by decide)
      have hip : (field frame ipSaddr 4).length = 4 := hfield (by decide)
      have hport : (field frame udpSource 2).length = 2 := hfield (by decide)
      refine ⟨⟨_, htxn⟩, ⟨_, hip⟩, ⟨_, hport⟩, ?_⟩
      have haction := congrArg Prod.snd h
      dsimp only at haction
      split at haction
      · next hdelta =>
        have hr : respond frame = ((respond frame).1, .tx out) := Prod.ext rfl haction
        obtain ⟨hl, hpayload⟩ := respond_tx hr ⟨_, hip⟩ ⟨_, hport⟩ ⟨_, htxn⟩ rfl rfl rfl
        have h74 : frame.length = udpPayload + 32 := by
          unfold udpPayload kStunHeaderSize XOR_MAPPED_ATTR_SIZE at *
          omega
        exact ⟨rfl, rfl, rfl, hl.trans h74, hpayload⟩
      · split at haction
        · cases haction
        · next resized hrun =>
          have h74 : resized.length = 74 := by
            have hadj := adjustTail.length_run hrun
            unfold udpPayload kStunHeaderSize XOR_MAPPED_ATTR_SIZE at *
            omega
          have hsame : ∀ {off n}, off + n ≤ 62 → field resized off n = field frame off n :=
            fun hn => adjustTail.field_run hrun hn h62 (by omega)
          split at haction
          · cases haction
          · have hr : respond resized = ((respond resized).1, .tx out) := Prod.ext rfl haction
            obtain ⟨hl, hpayload⟩ := respond_tx hr ⟨_, hip⟩ ⟨_, hport⟩ ⟨_, htxn⟩
              (hsame (by decide)) (hsame (by decide)) (hsame (by decide))
            exact ⟨rfl, rfl, rfl, hl.trans h74, hpayload⟩

/-- The parser stays inside every buffer, it reads back what the builders wrote, and the
responder's answers are the builder's. -/
theorem codec_and_responder_agree :
    (∀ (msg : StunMessage) (p : Bytes), ∃ r, (stunParse msg p.length).run p = some r) ∧
    (∀ (bufSize : ℕ) (txnId : TxnId) (clientIp : NetBytes 4) (clientPort : NetBytes 2),
      32 ≤ bufSize → ∃ built msg,
        stunBuildBindingResponse bufSize txnId clientIp clientPort = some built ∧
        (stunParse {} built.length).run built = some (true, msg) ∧
        msg.type = kStunBindingResponse ∧ msg.transactionId = txnId.val ∧
        msg.hasXorMapped = true ∧
        stunDecodeXorAddress (BigEndian.bytes 2 msg.xorMappedPort)
          (BigEndian.bytes 4 msg.xorMappedIp) = (clientPort.val, clientIp.val)) ∧
    (∀ (bufSize errorCode : ℕ) (reason : Bytes) (txnId : TxnId),
      300 ≤ errorCode ∧ errorCode ≤ 699 → reason.length ≤ 127 →
      24 + padTo4 (4 + reason.length) ≤ bufSize → ∃ built msg,
        stunBuildErrorResponse bufSize txnId errorCode reason = some built ∧
        (stunParse {} built.length).run built = some (true, msg) ∧
        msg.type = kStunBindingError ∧ msg.transactionId = txnId.val ∧ msg.hasError = true ∧
        msg.errorCode = errorCode ∧ msg.errorReasonLen = reason.length ∧
        msg.errorReason.take (msg.errorReasonLen + 1) = reason ++ [0]) ∧
    (∀ (adjustTail : AdjustTail) (frame out : Bytes) (stats : List Stat),
      handleStun adjustTail frame = (stats, .tx out) →
      ∃ txnId clientIp clientPort, Answered frame out txnId clientIp clientPort) := by
  refine ⟨stunParse_safe, ?_, ?_, ?_⟩
  · intro bufSize txnId clientIp clientPort hbuf
    exact bindingResponse_roundtrip clientIp clientPort hbuf txnId
  · intro bufSize errorCode reason txnId hcode hreason hbuf
    exact errorResponse_roundtrip hcode hreason hbuf txnId
  · intro adjustTail frame out stats h
    exact handleStun_tx h

def zeroFill : AdjustTail where
  run frame delta :=
    if (frame.length + delta : ℤ) < 0 then none
    else
      let len := (frame.length + delta : ℤ).toNat
      some (frame.take len ++ List.replicate (len - frame.length) 0)
  length_run := by
    intro frame out delta h
    split at h
    · cases h
    · rw [← Option.some.inj h, List.length_append, List.length_take, List.length_replicate]
      omega
  keeps := by
    intro frame out delta h
    split at h
    · cases h
    · rw [← Option.some.inj h, List.length_append, List.length_take, List.length_replicate,
        List.take_append_of_le_length, List.take_take]
      · congr 1
        omega
      · rw [List.length_take]
        omega

/-- A Binding Request with no attributes from 10.0.0.1, port 258. -/
def bindingRequest : Bytes :=
  List.replicate 12 7 ++ [8, 0] ++ [0x45, 0, 0, 48] ++ [0, 0, 0, 0, 64, 17, 0, 0] ++
    [10, 0, 0, 1] ++ [10, 0, 0, 2] ++ [1, 2] ++ [13, 150] ++ [0, 28, 0, 0] ++
    [0, 1, 0, 0, 0x21, 0x12, 0xA4, 0x42] ++ List.replicate 12 9

def bindingAnswer : Bytes :=
  List.replicate 12 7 ++ [8, 0] ++ [0x45, 0, 0, 60] ++ [0, 0, 0, 0, 64, 17, 0x66, 0xAF] ++
    [10, 0, 0, 2] ++ [10, 0, 0, 1] ++ [13, 150] ++ [1, 2] ++ [0, 40, 0, 0] ++
    [1, 1, 0, 12, 0x21, 0x12, 0xA4, 0x42] ++ List.replicate 12 9 ++
    [0, 0x20, 0, 8, 0, 1, 0x20, 0x10, 0x2B, 0x12, 0xA4, 0x43]

theorem handleStun_bindingRequest :
    handleStun zeroFill bindingRequest = ([.stunRequests, .stunResponses], .tx bindingAnswer) := by
  decide +kernel

theorem binding_request_answered :
    (∃ txnId clientIp clientPort, Answered bindingRequest bindingAnswer txnId clientIp clientPort) ∧
      (∃ r, (stunParse {} bindingRequest.length).run bindingRequest = some r) ∧
      (∃ built msg, stunBuildErrorResponse 64 ⟨List.replicate 12 9, rfl⟩ 420 [78, 79] = some built ∧
        (stunParse {} built.length).run built = some (true, msg) ∧ msg.errorCode = 420) := by
  obtain ⟨hsafe, -, herror, htx⟩ := codec_and_responder_agree
  refine ⟨htx zeroFill _ _ _ handleStun_bindingRequest, hsafe _ _, ?_⟩
  obtain ⟨built, msg, hbuilt, hparse, -, -, -, hcode, -⟩ := herror 64 420 [78, 79]
    ⟨List.replicate 12 9, rfl⟩ (by decide) (by decide) (by decide)
  exact ⟨built, msg, hbuilt, hparse, hcode⟩

end HyperDerp.Stun
