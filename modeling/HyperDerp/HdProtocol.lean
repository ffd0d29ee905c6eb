import HyperDerp.Protocol

/-!
# HD wire protocol (`hd_protocol.h`, `hd_protocol.cc`)

The HD frame header is a type byte followed by the payload length in three
big-endian bytes. Routing-policy payloads (OpenConnection and its relatives)
have fixed layouts; the parsers check the exact length and cast the intent and
mode bytes without validating them, so those stay bytes here.
-/

namespace HyperDerp

/-! ### Wire constants (`hd_protocol.h:16-35`, `:330-352`) -/

def kHdFrameHeaderSize : ℕ := 4
def kHdMaxFramePayload : ℕ := 64 * 1024
def kHdPingDataSize : ℕ := 8
def kHdMeshDstSize : ℕ := 2
def kHdFleetDstSize : ℕ := 4
def kHdRouteEntrySize : ℕ := 3
def kHdOpenConnSize : ℕ := 14
def kHdIncomingConnSize : ℕ := 44
def kHdIncomingRespSize : ℕ := 11
def kHdIncomingResultSize : ℕ := 12
def kHdOpenResultMinSize : ℕ := 16
def kHdMaxRelayPath : ℕ := 32
def kHdMaxEndpointHint : ℕ := 128
def kHdMaxFleetIdLen : ℕ := 64

/-! ### Frame types (`hd_protocol.h:40-63`) -/

abbrev HdFrameType := Byte

namespace HdFrameType
def kData : HdFrameType := 0x01
def kPing : HdFrameType := 0x02
def kPong : HdFrameType := 0x03
def kMeshData : HdFrameType := 0x04
def kFleetData : HdFrameType := 0x05
def kEnroll : HdFrameType := 0x10
def kApproved : HdFrameType := 0x11
def kDenied : HdFrameType := 0x12
def kPeerInfo : HdFrameType := 0x20
def kPeerGone : HdFrameType := 0x21
def kRedirect : HdFrameType := 0x22
def kOpenConnection : HdFrameType := 0x23
def kOpenConnectionResult : HdFrameType := 0x24
def kIncomingConnection : HdFrameType := 0x25
def kIncomingConnResponse : HdFrameType := 0x26
def kIncomingConnResult : HdFrameType := 0x27
def kFleetOpenConnection : HdFrameType := 0x28
def kFleetOpenConnectionResult : HdFrameType := 0x29
def kRouteAnnounce : HdFrameType := 0x30
end HdFrameType

/-! ### Frame header codec (`hd_protocol.h:135-176`) -/

def hdReadFrameType (hdr : Bytes) : HdFrameType := hdr.headD 0

def hdReadPayloadLen (hdr : Bytes) : ℕ := BigEndian.val ((hdr.drop 1).take 3)

def hdWriteFrameHeader (type : HdFrameType) (payloadLen : ℕ) : Bytes :=
  type :: BigEndian.bytes 3 payloadLen

def hdIsValidPayloadLen (len : ℕ) : Bool := decide (len ≤ kHdMaxFramePayload)

@[simp] theorem length_hdWriteFrameHeader (type : HdFrameType) (n : ℕ) :
    (hdWriteFrameHeader type n).length = kHdFrameHeaderSize := by
  simp [hdWriteFrameHeader, kHdFrameHeaderSize]

theorem hdReadPayloadLen_append (s t : Bytes) (h : kHdFrameHeaderSize ≤ s.length) :
    hdReadPayloadLen (s ++ t) = hdReadPayloadLen s := by
  simp only [kHdFrameHeaderSize] at h
  simp only [hdReadPayloadLen]
  rw [List.drop_append_of_le_length (by omega),
    List.take_append_of_le_length (by simp only [List.length_drop]; omega)]

theorem hdReadPayloadLen_write (type : HdFrameType) (n : ℕ) (t : Bytes) (h : n < 2 ^ 24) :
    hdReadPayloadLen (hdWriteFrameHeader type n ++ t) = n := by
  rw [hdReadPayloadLen_append _ _ (by simp)]
  simp only [hdReadPayloadLen, hdWriteFrameHeader, List.drop_succ_cons, List.drop_zero]
  rw [List.take_of_length_le (by simp), BigEndian.val_bytes_of_lt (by omega)]

/-! ### Data-path payloads -/

/-- `ReadU16` of the two bytes at offset `off`. -/
def readU16 (p : Bytes) (off : ℕ) : ℕ := BigEndian.val ((p.drop off).take 2)

/-- `ReadU64` of the eight bytes at offset `off`. -/
def readU64 (p : Bytes) (off : ℕ) : ℕ := BigEndian.val ((p.drop off).take 8)

def writeU16 (v : ℕ) : Bytes := BigEndian.bytes 2 v
def writeU64 (v : ℕ) : Bytes := BigEndian.bytes 8 v

def hdBuildPong (data : Bytes) : Bytes :=
  hdWriteFrameHeader .kPong kHdPingDataSize ++ data.take kHdPingDataSize

def hdReadMeshDst (payload : Bytes) : ℕ := readU16 payload 0
def hdReadFleetRelay (payload : Bytes) : ℕ := readU16 payload 0
def hdReadFleetPeer (payload : Bytes) : ℕ := readU16 payload 2

/-- `HdParseRouteAnnounce` (`hd_protocol.cc:147-163`): at most `maxOut` whole
three-byte entries `(relay_id, hops)`. -/
def hdParseRouteAnnounce (payload : Bytes) (maxOut : ℕ) : List (ℕ × ℕ) :=
  (List.range (min (payload.length / kHdRouteEntrySize) maxOut)).map fun i =>
    (readU16 payload (kHdRouteEntrySize * i),
      (payload.getD (kHdRouteEntrySize * i + 2) 0).toNat)

def routeEntry (e : ℕ × ℕ) : Bytes := writeU16 e.1 ++ [UInt8.ofNat e.2]

/-- `HdBuildRouteAnnounce` (`hd_protocol.cc:127-145`). -/
def hdBuildRouteAnnounce (bufSize : ℕ) (entries : List (ℕ × ℕ)) : Option Bytes :=
  let payloadLen := entries.length * kHdRouteEntrySize
  if bufSize < kHdFrameHeaderSize + payloadLen then none
  else some (hdWriteFrameHeader .kRouteAnnounce payloadLen ++ entries.flatMap routeEntry)

/-! ### Intents, modes and deny reasons (`hd_protocol.h:65-105`)

Parsers cast the wire byte, so any byte can stand where an enumerator is meant. -/

abbrev HdIntent := Byte

namespace HdIntent
def kPreferDirect : HdIntent := 0
def kRequireDirect : HdIntent := 1
def kPreferRelay : HdIntent := 2
def kRequireRelay : HdIntent := 3
end HdIntent

abbrev HdConnMode := Byte

namespace HdConnMode
def kDenied : HdConnMode := 0
def kDirect : HdConnMode := 1
def kRelayed : HdConnMode := 2
end HdConnMode

abbrev HdDenyReason := ℕ

namespace HdDenyReason
def kNone : HdDenyReason := 0x0000
def kPolicyForbids : HdDenyReason := 0x0001
def kPeerUnreachable : HdDenyReason := 0x0003
def kTargetUnresponsive : HdDenyReason := 0x0004
def kTooManyOpenConns : HdDenyReason := 0x0005
def kFleetRoutingNotImplemented : HdDenyReason := 0x0006
def kPeerOverride : HdDenyReason := 0x0102
def kDirectCapExceeded : HdDenyReason := 0x0201
def kFederationDenied : HdDenyReason := 0x0401
def kNatIncompatible : HdDenyReason := 0x0501
end HdDenyReason

def kHdFlagAllowUpgrade : Byte := 0x01
def kHdFlagAllowDowngrade : Byte := 0x02
def kHdFlagAccept : Byte := 0x01

/-- `(flags & bit) != 0`. -/
def hasFlag (flags bit : Byte) : Bool := decide (flags &&& bit ≠ 0)

/-! ### Routing policy frames (`hd_protocol.cc:188-458`)

A builder that returns `-1` is `none`. -/

structure HdOpenConnection where
  targetPeerId : ℕ
  targetRelayId : ℕ
  intent : HdIntent
  flags : Byte
  correlationId : ℕ
  deriving DecidableEq

def hdOpenConnectionPayload (targetPeerId targetRelayId : ℕ) (intent : HdIntent) (flags : Byte)
    (correlationId : ℕ) : Bytes :=
  writeU16 targetPeerId ++ writeU16 targetRelayId ++ [intent, flags] ++ writeU64 correlationId

def hdBuildOpenConnection (targetPeerId targetRelayId : ℕ) (intent : HdIntent) (flags : Byte)
    (correlationId : ℕ) : Bytes :=
  hdWriteFrameHeader .kOpenConnection kHdOpenConnSize ++
    hdOpenConnectionPayload targetPeerId targetRelayId intent flags correlationId

def hdParseOpenConnection (payload : Bytes) : Option HdOpenConnection :=
  if payload.length ≠ kHdOpenConnSize then none
  else some
    { targetPeerId := readU16 payload 0
      targetRelayId := readU16 payload 2
      intent := payload.getD 4 0
      flags := payload.getD 5 0
      correlationId := readU64 payload 6 }

def hdOpenResultPayload (correlationId : ℕ) (mode : HdConnMode) (reason : HdDenyReason)
    (subReason : Byte) (relayPath : List ℕ) (hint : Bytes) : Bytes :=
  writeU64 correlationId ++ [mode] ++ writeU16 reason ++ [subReason] ++
    writeU16 relayPath.length ++ relayPath.flatMap writeU16 ++ writeU16 hint.length ++ hint

/-- `HdBuildOpenConnectionResult` under the given frame type. -/
def hdBuildOpenResult (type : HdFrameType) (bufSize correlationId : ℕ) (mode : HdConnMode)
    (reason : HdDenyReason) (subReason : Byte) (relayPath : List ℕ) (hint : Bytes) :
    Option Bytes :=
  let payloadLen := kHdOpenResultMinSize + relayPath.length * 2 + hint.length
  if kHdMaxRelayPath < relayPath.length then none
  else if kHdMaxEndpointHint < hint.length then none
  else if bufSize < kHdFrameHeaderSize + payloadLen then none
  else some (hdWriteFrameHeader type payloadLen ++
    hdOpenResultPayload correlationId mode reason subReason relayPath hint)

def hdBuildOpenConnectionResult : ℕ → ℕ → HdConnMode → HdDenyReason → Byte → List ℕ → Bytes →
    Option Bytes :=
  hdBuildOpenResult .kOpenConnectionResult

def hdBuildFleetOpenConnectionResult : ℕ → ℕ → HdConnMode → HdDenyReason → Byte → List ℕ →
    Bytes → Option Bytes :=
  hdBuildOpenResult .kFleetOpenConnectionResult

structure HdOpenConnectionResult where
  correlationId : ℕ
  mode : HdConnMode
  denyReason : HdDenyReason
  subReason : Byte
  relayPath : List ℕ
  endpointHint : Bytes
  deriving DecidableEq

def hdParseOpenConnectionResult (payload : Bytes) : Option HdOpenConnectionResult :=
  if payload.length < kHdOpenResultMinSize then none
  else
    let pathLen := readU16 payload 12
    let fixed := kHdOpenResultMinSize + pathLen * 2
    if kHdMaxRelayPath < pathLen then none
    else if payload.length < fixed then none
    else
      let hintLen := readU16 payload (14 + pathLen * 2)
      if kHdMaxEndpointHint < hintLen then none
      else if payload.length ≠ fixed + hintLen then none
      else some
        { correlationId := readU64 payload 0
          mode := payload.getD 8 0
          denyReason := readU16 payload 9
          subReason := payload.getD 11 0
          relayPath := (List.range pathLen).map fun i => readU16 payload (14 + i * 2)
          endpointHint := (payload.drop fixed).take hintLen }

def hdBuildIncomingConnection (initiatorKey : Key) (initiatorPeerId : ℕ) (intent : HdIntent)
    (flags : Byte) (correlationId : ℕ) : Bytes :=
  hdWriteFrameHeader .kIncomingConnection kHdIncomingConnSize ++ initiatorKey.data ++
    writeU16 initiatorPeerId ++ [intent, flags] ++ writeU64 correlationId

structure HdIncomingConnResponse where
  correlationId : ℕ
  intent : HdIntent
  flags : Byte
  accept : Byte
  deriving DecidableEq

def hdParseIncomingConnResponse (payload : Bytes) : Option HdIncomingConnResponse :=
  if payload.length ≠ kHdIncomingRespSize then none
  else some
    { correlationId := readU64 payload 0
      intent := payload.getD 8 0
      flags := payload.getD 9 0
      accept := payload.getD 10 0 }

def hdBuildIncomingConnResult (correlationId : ℕ) (mode : HdConnMode) (reason : HdDenyReason)
    (subReason : Byte) : Bytes :=
  hdWriteFrameHeader .kIncomingConnResult kHdIncomingResultSize ++ writeU64 correlationId ++
    [mode] ++ writeU16 reason ++ [subReason]

def hdBuildFleetOpenConnection (bufSize originRelayId : ℕ) (originFleetId : Bytes)
    (targetKey : Key) (innerConn : Bytes) : Option Bytes :=
  let payloadLen := 2 + 2 + originFleetId.length + kKeySize + kHdOpenConnSize
  if kHdMaxFleetIdLen < originFleetId.length then none
  else if innerConn.length ≠ kHdOpenConnSize then none
  else if bufSize < kHdFrameHeaderSize + payloadLen then none
  else some (hdWriteFrameHeader .kFleetOpenConnection payloadLen ++ writeU16 originRelayId ++
    writeU16 originFleetId.length ++ originFleetId ++ targetKey.data ++ innerConn)

/-- `originFleetId` holds the bytes that were copied; the source reads them as a
C string. -/
structure HdFleetOpenConnection where
  originRelayId : ℕ
  originFleetId : Bytes
  targetKey : Bytes
  innerConn : Bytes
  deriving DecidableEq

def hdParseFleetOpenConnection (payload : Bytes) : Option HdFleetOpenConnection :=
  if payload.length < 2 + 2 + kKeySize + kHdOpenConnSize then none
  else
    let fidLen := readU16 payload 2
    if kHdMaxFleetIdLen < fidLen then none
    else if payload.length ≠ 2 + 2 + fidLen + kKeySize + kHdOpenConnSize then none
    else some
      { originRelayId := readU16 payload 0
        originFleetId := (payload.drop 4).take fidLen
        targetKey := (payload.drop (4 + fidLen)).take kKeySize
        innerConn := (payload.drop (4 + fidLen + kKeySize)).take kHdOpenConnSize }

end HyperDerp
