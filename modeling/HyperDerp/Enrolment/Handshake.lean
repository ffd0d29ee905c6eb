import HyperDerp.HdPeers.Registry
import HyperDerp.Lib.Text

/-!
# HD enrolment (`hd_handshake.cc:61-207`, `hd_peers.cc:36-58`, `:104-148`)

The handshake reads one Enroll frame and decides from it, the registry and the
enrolment policy. A socket is what the peer sends on it before it stalls or
closes, and which of our frames it takes. The results of `HdSendDenied` are
ignored by the source.
-/

namespace HyperDerp

open Text (utf8)

def kHdHmacSize : ℕ := 32
def kHdRelayExtSize : ℕ := 7
def kHdRelayMagic : Bytes := utf8 "RELAY"
def kMinEnrollPayload : ℕ := kKeySize + kHdHmacSize

/-- What enrolment uses of libsodium and of the C library. -/
structure EnrolExtern where
  /-- `crypto_auth_verify(tag, message, key) == 0`. -/
  authVerify : Bytes → Bytes → Key → Bool
  /-- `inet_aton` on a C string; the address has its first octet on top. -/
  inetAton : Bytes → Option (BitVec 32)

/-! ### Policy -/

structure HdEnrollPolicy where
  maxPeers : ℤ := 0
  allowedKeys : List Bytes := []
  requireIpRange : Bytes := []

/-- The fields of the registry that only enrolment reads. -/
structure HdEnrollConfig where
  policy : HdEnrollPolicy := {}
  relayKey : Key := zeroKey

/-- The prefix length of `ParseCidrV4`; the `int` wraps. -/
def cidrBits : Bytes → ℤ → Option ℤ
  | [], bits => some bits
  | c :: cs, bits =>
    if c < 0x30 ∨ 0x39 < c then none
    else cidrBits cs ((bits * 10 + ((c.toNat : ℤ) - 0x30)).bmod (2 ^ 32))

/-- `ParseCidrV4`: network and mask. -/
def parseCidrV4 (ext : EnrolExtern) (cidr : Bytes) : Option (BitVec 32 × BitVec 32) :=
  let slash := cidr.idxOf 0x2f
  if slash = cidr.length then none
  else
    match cidrBits (cidr.drop (slash + 1)) 0 with
    | none => none
    | some bits =>
      if bits < 0 ∨ 32 < bits then none
      else
        match ext.inetAton (cString (cidr.take slash)) with
        | none => none
        | some a =>
          let mask := if bits = 0 then 0 else BitVec.allOnes 32 <<< (32 - bits).toNat
          some (a &&& mask, mask)

/-- `pol.max_peers > 0 && reg->peer_count >= pol.max_peers`. -/
def HdEnrollPolicy.capped (pol : HdEnrollPolicy) (reg : HdPeerRegistry) : Prop :=
  0 < pol.maxPeers ∧ pol.maxPeers ≤ reg.peerCount

instance (pol : HdEnrollPolicy) (reg : HdPeerRegistry) : Decidable (pol.capped reg) :=
  inferInstanceAs (Decidable (_ ∧ _))

def keyAllowed (pol : HdEnrollPolicy) (key : Key) : Bool :=
  pol.allowedKeys.isEmpty ||
    pol.allowedKeys.any fun pat => globMatch pat (keyToCkString key) || globMatch pat (keyHex key)

def ipRefused (ext : EnrolExtern) (pol : HdEnrollPolicy) (peerIpv4 : BitVec 32) : Option Bytes :=
  if pol.requireIpRange.isEmpty ∨ peerIpv4 = 0 then none
  else
    match parseCidrV4 ext pol.requireIpRange with
    | none => some (utf8 "invalid require_ip_range")
    | some (net, mask) =>
      if peerIpv4 &&& mask ≠ net then some (utf8 "peer ip out of range") else none

def maxPeersExceeded : Bytes := utf8 "max_peers exceeded"

/-- `HdPolicyAllows`: the reject reason, or `none` when the candidate passes. -/
def hdPolicyRejects (ext : EnrolExtern) (pol : HdEnrollPolicy) (reg : HdPeerRegistry) (key : Key)
    (peerIpv4 : BitVec 32) : Option Bytes :=
  if pol.capped reg then some maxPeersExceeded
  else if !keyAllowed pol key then some (utf8 "key not in allowed_keys")
  else ipRefused ext pol peerIpv4

/-! ### Frames -/

def hdBuildApproved (key : Key) : Bytes := hdWriteFrameHeader .kApproved kKeySize ++ key.data

def hdBuildDenied (reason : Byte) (message : Bytes) : Bytes :=
  hdWriteFrameHeader .kDenied (1 + message.length) ++ [reason] ++ message

inductive HdHandshakeError where
  | IoFailed
  | UnexpectedFrame
  | BadPayloadLength
  | InvalidHmac
  | EnrollmentDenied
  deriving DecidableEq

structure HdHandshakeFailure where
  code : HdHandshakeError
  message : Bytes
  deriving DecidableEq

structure HdSocket where
  fd : Fd
  /-- What can be read before end of stream, an error or the receive timeout. -/
  input : Bytes
  /-- `WriteAll` of a frame succeeds. -/
  takes : Bytes → Bool

/-- `ReadAll`: the bytes and what is left. -/
def readAll (input : Bytes) (n : ℕ) : Option (Bytes × Bytes) :=
  if input.length < n then none else some (input.take n, input.drop n)

/-- A payload that passed the length check. -/
structure EnrollPayload where
  bytes : Bytes
  long : kMinEnrollPayload ≤ bytes.length

namespace EnrollPayload

def clientKey (p : EnrollPayload) : Key :=
  toKey p.bytes (Nat.le_trans (Nat.le_add_right kKeySize kHdHmacSize) p.long)

def hmac (p : EnrollPayload) : Bytes := (p.bytes.drop kKeySize).take kHdHmacSize

def relayId (p : EnrollPayload) : Option ℕ :=
  if kMinEnrollPayload + kHdRelayExtSize ≤ p.bytes.length ∧
      (p.bytes.drop (kMinEnrollPayload + 2)).take 5 = kHdRelayMagic then
    some (readU16 p.bytes kMinEnrollPayload)
  else none

end EnrollPayload

def readEnroll (input : Bytes) : Except HdHandshakeFailure EnrollPayload :=
  match readAll input kHdFrameHeaderSize with
  | none => .error ⟨.IoFailed, utf8 "read Enroll header failed"⟩
  | some (hdr, rest) =>
    if hdReadFrameType hdr ≠ .kEnroll then
      .error ⟨.UnexpectedFrame, utf8 "expected Enroll frame"⟩
    else if hdReadPayloadLen hdr < kMinEnrollPayload then
      .error ⟨.BadPayloadLength, utf8 "Enroll payload too short"⟩
    else if !hdIsValidPayloadLen (hdReadPayloadLen hdr) then
      .error ⟨.BadPayloadLength, utf8 "Enroll payload too long"⟩
    else
      match readAll rest (hdReadPayloadLen hdr) with
      | none => .error ⟨.IoFailed, utf8 "read Enroll payload failed"⟩
      | some (payload, _) =>
        if h : kMinEnrollPayload ≤ payload.length then .ok ⟨payload, h⟩
        else .error ⟨.BadPayloadLength, utf8 "Enroll payload too short"⟩

def hdVerifyEnrollment (ext : EnrolExtern) (cfg : HdEnrollConfig) (key : Key) (hmac : Bytes) :
    Bool :=
  ext.authVerify hmac key.data cfg.relayKey

/-! ### The handshake -/

structure HdEnrollResult where
  clientKey : Key := zeroKey
  autoApproved : Bool := false
  isRelay : Bool := false
  relayId : ℕ := 0
  deriving DecidableEq

structure HandshakeOutcome where
  reg : HdPeerRegistry
  /-- The frames written, whether or not the peer takes them. -/
  sent : List Bytes := []
  result : HdEnrollResult := {}
  error : Option HdHandshakeFailure := none

/-- `result` after step 6.5. -/
def relayResult (p : EnrollPayload) : HdEnrollResult :=
  match p.relayId with
  | none => {}
  | some id => { isRelay := true, relayId := id }

def enrolPeer (reg : HdPeerRegistry) (sock : HdSocket) (p : EnrollPayload) : HandshakeOutcome :=
  let key := p.clientKey
  let inserted := hdPeersInsert reg key sock.fd
  if reg.enrollMode = .kAutoApprove then
    let approved := (hdPeersApprove inserted key).getD inserted
    let frame := hdBuildApproved key
    if sock.takes frame then
      { reg := approved, sent := [frame]
        result := { relayResult p with clientKey := key, autoApproved := true } }
    else
      { reg := approved, sent := [frame], result := relayResult p
        error := some ⟨.IoFailed, utf8 "write Approved frame failed"⟩ }
  else { reg := inserted, result := { relayResult p with clientKey := key } }

def admitPeer (ext : EnrolExtern) (cfg : HdEnrollConfig) (reg : HdPeerRegistry) (sock : HdSocket)
    (peerIpv4 : BitVec 32) (p : EnrollPayload) : HandshakeOutcome :=
  if reg.enrollMode = .kAutoApprove then
    match hdPolicyRejects ext cfg.policy reg p.clientKey peerIpv4 with
    | some reason =>
      { reg := reg, sent := [hdBuildDenied 0x02 reason], result := relayResult p
        error := some ⟨.EnrollmentDenied, reason⟩ }
    | none => enrolPeer reg sock p
  else enrolPeer reg sock p

def hdPerformHandshake (ext : EnrolExtern) (cfg : HdEnrollConfig) (reg : HdPeerRegistry)
    (sock : HdSocket) (peerIpv4 : BitVec 32) : HandshakeOutcome :=
  match readEnroll sock.input with
  | .error e => { reg := reg, error := some e }
  | .ok p =>
    if !hdVerifyEnrollment ext cfg p.clientKey p.hmac then
      { reg := reg, sent := [hdBuildDenied 0x01 (utf8 "invalid HMAC")]
        error := some ⟨.InvalidHmac, utf8 "enrollment HMAC verification failed"⟩ }
    else if hdPeersIsDenied reg p.clientKey then
      { reg := reg, sent := [hdBuildDenied 0x03 (utf8 "revoked")]
        error := some ⟨.EnrollmentDenied, utf8 "client key revoked"⟩ }
    else admitPeer ext cfg reg sock peerIpv4 p

end HyperDerp
