import HyperDerp.Lib.ByteStream
import HyperDerp.Lib.Text
import HyperDerp.Protocol

/-!
# DERP handshake (`handshake.cc:32-250`)

The NaCl box, the nonce and the writes to the socket are parameters. The socket is
read in exact amounts, so that the outcome depends on the bytes and not on how they
are cut.
-/

namespace HyperDerp

open Text (utf8)
open ByteStream (Source)

def kBoxOverhead : ℕ := 16
def kNonceSize : ℕ := 24
def kMagic : Bytes := [0x44, 0x45, 0x52, 0x50, 0xf0, 0x9f, 0x94, 0x91]
def kServerKeyPayloadSize : ℕ := kMagic.length + kKeySize
def kMinClientInfoPayload : ℕ := kKeySize + kNonceSize
def kMaxClientInfoPayload : ℕ := 256 * 1024
def kProtocolVersion : ℤ := 2

inductive HandshakeError where
  | ioFailed
  | unexpectedFrame
  | badPayloadLength
  | encryptionFailed
  | decryptionFailed
  | allocFailed
  | sodiumInitFailed
  | badClientInfo
  deriving DecidableEq

/-- `Error<HandshakeError>`. -/
structure HandshakeFailure where
  code : HandshakeError
  message : String
  deriving DecidableEq

structure ServerKeys where
  publicKey : Key := zeroKey
  privateKey : Key := zeroKey

structure ClientInfo where
  publicKey : Key := zeroKey
  version : ℤ := kProtocolVersion
  canAckPings : Bool := false
  isProber : Bool := false
  deriving DecidableEq

/-- What accepting a client uses of libsodium and of its socket. -/
structure AcceptExtern where
  /-- All of these bytes are written. -/
  writeAll : Bytes → Bool
  /-- `randombytes_buf` of a nonce. -/
  nonce : Bytes
  /-- `crypto_box_easy` of a message under a nonce, a public and a private key. -/
  boxEasy : Bytes → Bytes → Key → Key → Option Bytes
  boxOpenEasy : Bytes → Bytes → Key → Key → Option Bytes

def buildServerKeyFrame (keys : ServerKeys) : Bytes :=
  writeFrameHeader .kServerKey kServerKeyPayloadSize ++ kMagic ++ keys.publicKey.data

def serverInfoJson : Bytes := utf8 "\x7b\"version\":2\x7d"

def buildServerInfoFrame (ext : AcceptExtern) (bufSize : ℕ) (keys : ServerKeys)
    (clientPub : Key) : Except HandshakeFailure Bytes :=
  let sealedLen := kNonceSize + serverInfoJson.length + kBoxOverhead
  if bufSize < kFrameHeaderSize + sealedLen then
    .error ⟨.badPayloadLength, "ServerInfo frame exceeds buffer"⟩
  else
    match ext.boxEasy serverInfoJson ext.nonce clientPub keys.privateKey with
    | none => .error ⟨.encryptionFailed, "crypto_box_easy failed"⟩
    | some ciphertext => .ok (writeFrameHeader .kServerInfo sealedLen ++ ext.nonce ++ ciphertext)

/-! ### Fields of the client's JSON -/

def jsonValue (json key : Bytes) : Option Bytes :=
  match Text.seek key json with
  | none => none
  | some found =>
    match Text.skipTo 0x3a (found.drop key.length) with
    | [] => none
    | _ :: value => some (value.dropWhile (· = 0x20))

/-- The value of `find_int`; the `int` wraps. -/
def jsonInt (json key : Bytes) : ℤ :=
  match jsonValue json key with
  | none => -1
  | some value =>
    (value.takeWhile Text.isDigit).foldl
      (fun val c => (val * 10 + ((c.toNat : ℤ) - 0x30)).bmod (2 ^ 32)) 0

def jsonBool (json key : Bytes) : Bool :=
  match jsonValue json key with
  | none => false
  | some value => (utf8 "true").isPrefixOf value

def parseClientInfo (ext : AcceptExtern) (payload : Bytes) (keys : ServerKeys) :
    Except HandshakeFailure ClientInfo :=
  if h : payload.length < kMinClientInfoPayload then
    .error ⟨.badClientInfo, "payload too short"⟩
  else if kMaxClientInfoPayload < payload.length then
    .error ⟨.badClientInfo, "payload too long"⟩
  else
    let pub := toKey payload (by
      rw [kMinClientInfoPayload] at h
      omega)
    let boxed := payload.drop kKeySize
    if boxed.length < kNonceSize + kBoxOverhead then
      .error ⟨.badClientInfo, "sealed data too short"⟩
    else
      match ext.boxOpenEasy (boxed.drop kNonceSize) (boxed.take kNonceSize) pub keys.privateKey with
      | none => .error ⟨.decryptionFailed, "crypto_box_open_easy failed"⟩
      | some json =>
        let ver := jsonInt json (utf8 "\"version\"")
        .ok { publicKey := pub
              version := if 0 < ver then ver else kProtocolVersion
              canAckPings := jsonBool json (utf8 "\"CanAckPings\"")
              isProber := jsonBool json (utf8 "\"IsProber\"") }

/-! ### The exchange -/

def performHandshake (ext : AcceptExtern) (keys : ServerKeys) (sock : Source Byte) :
    Except HandshakeFailure (ClientInfo × Source Byte) :=
  if ext.writeAll (buildServerKeyFrame keys) = false then
    .error ⟨.ioFailed, "write ServerKey failed"⟩
  else
    match sock.readAll kFrameHeaderSize with
    | none => .error ⟨.ioFailed, "read ClientInfo header failed"⟩
    | some (hdr, sock) =>
      let payloadLen := readPayloadLen hdr
      if readFrameType hdr ≠ .kClientInfo then
        .error ⟨.unexpectedFrame, "expected ClientInfo frame"⟩
      else if payloadLen < kMinClientInfoPayload then
        .error ⟨.badPayloadLength, "ClientInfo payload too short"⟩
      else if kMaxClientInfoPayload < payloadLen then
        .error ⟨.badPayloadLength, "ClientInfo payload too long"⟩
      else
        match sock.readAll payloadLen with
        | none => .error ⟨.ioFailed, "read ClientInfo payload failed"⟩
        | some (payload, sock) =>
          match parseClientInfo ext payload keys with
          | .error e => .error e
          | .ok info =>
            match buildServerInfoFrame ext 256 keys info.publicKey with
            | .error e => .error e
            | .ok frame =>
              if ext.writeAll frame = false then .error ⟨.ioFailed, "write ServerInfo failed"⟩
              else .ok (info, sock)

def handshakeSeen (r : Except HandshakeFailure (ClientInfo × Source Byte)) :
    Except HandshakeFailure (ClientInfo × Bytes) :=
  r.map fun p => (p.1, p.2.stream)

theorem performHandshake_congr (ext : AcceptExtern) (keys : ServerKeys) {s s' : Source Byte}
    (h : s.Prompt) (h' : s'.Prompt) (hstream : s.stream = s'.stream) :
    handshakeSeen (performHandshake ext keys s) = handshakeSeen (performHandshake ext keys s') := by
  unfold performHandshake
  split
  · rfl
  by_cases hhdr : kFrameHeaderSize ≤ s.stream.length
  · obtain ⟨reads₁, hread, hprompt⟩ := Source.readAll_eq h hhdr
    obtain ⟨reads₂, hread', hprompt'⟩ := Source.readAll_eq h' (hstream ▸ hhdr)
    rw [hread, hread', ← hstream]
    dsimp only
    rw [← hstream] at hprompt'
    split
    · rfl
    split
    · rfl
    split
    · rfl
    generalize readPayloadLen (s.stream.take kFrameHeaderSize) = payloadLen
    by_cases hpay : payloadLen ≤ (s.stream.drop kFrameHeaderSize).length
    · obtain ⟨reads₃, hread, -⟩ := Source.readAll_eq hprompt hpay
      obtain ⟨reads₄, hread', -⟩ := Source.readAll_eq hprompt' hpay
      rw [hread, hread']
      dsimp only
      split
      · rfl
      split
      · rfl
      split <;> rfl
    · have hshort : (s.stream.drop kFrameHeaderSize).length < payloadLen := Nat.not_le.mp hpay
      rw [Source.readAll_short hshort, Source.readAll_short hshort]
  · have hshort : s.stream.length < kFrameHeaderSize := Nat.not_le.mp hhdr
    rw [Source.readAll_short hshort, Source.readAll_short (hstream ▸ hshort)]

end HyperDerp
