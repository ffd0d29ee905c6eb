import HyperDerp.Lib.BigEndian

/-!
# DERP wire protocol (`protocol.h`, `protocol.cc`)

Constants, the 32-byte key, the 5-byte frame header (type byte, then the
payload length in four big-endian bytes) and the frame builders that the data
plane and the control plane use. A buffer the source fills and returns the
length of is the byte list of exactly that length.
-/

namespace HyperDerp

abbrev Byte := UInt8
abbrev Bytes := List Byte

/-! ### Wire constants (`protocol.h:16-42`) -/

def kKeySize : ℕ := 32
def kFrameHeaderSize : ℕ := 5
def kMaxFramePayload : ℕ := 64 * 1024
def kPingDataSize : ℕ := 8

/-- A 32-byte Curve25519 key as a value (`protocol.h:21`). -/
structure Key where
  data : Bytes
  size : data.length = kKeySize
  deriving DecidableEq

theorem Key.ext_data {a b : Key} (h : a.data = b.data) : a = b := by
  cases a
  cases b
  simp_all

/-- The all-zero key (`Key{}`). -/
def zeroKey : Key := ⟨List.replicate kKeySize 0, by simp⟩

instance : Inhabited Key := ⟨zeroKey⟩

/-- A key that differs from the all-zero key in its first byte at most. -/
def byteKey (b : Byte) : Key := ⟨b :: List.replicate 31 0, by simp [kKeySize]⟩

/-- `ToKey` (`protocol.h:24`): the first 32 bytes of a buffer that holds them. -/
def toKey (data : Bytes) (h : kKeySize ≤ data.length) : Key :=
  ⟨data.take kKeySize, by simp only [List.length_take]; omega⟩

theorem kKeySize_le {data : Bytes} (h : ¬data.length < kKeySize) : kKeySize ≤ data.length :=
  Nat.le_of_not_lt h

/-! ### Frame types (`protocol.h:54-71`)

The source casts any received byte to the enumeration, so a frame type is a
byte and the enumerators are constants. -/

abbrev FrameType := Byte

namespace FrameType
def kServerKey : FrameType := 0x01
def kClientInfo : FrameType := 0x02
def kServerInfo : FrameType := 0x03
def kSendPacket : FrameType := 0x04
def kRecvPacket : FrameType := 0x05
def kNotePreferred : FrameType := 0x07
def kPeerGone : FrameType := 0x08
def kPeerPresent : FrameType := 0x09
def kWatchConns : FrameType := 0x10
def kClosePeer : FrameType := 0x11
def kPing : FrameType := 0x12
def kPong : FrameType := 0x13
end FrameType

/-- `PeerGoneReason` (`protocol.h:74-77`). -/
inductive PeerGoneReason where
  | kDisconnected
  | kNotHere
  deriving DecidableEq

def PeerGoneReason.toByte : PeerGoneReason → Byte
  | .kDisconnected => 0x00
  | .kNotHere => 0x01

/-! ### Frame header codec (`protocol.h:81-125`) -/

def readFrameType (hdr : Bytes) : FrameType := hdr.headD 0

def readPayloadLen (hdr : Bytes) : ℕ := BigEndian.val ((hdr.drop 1).take 4)

def writeFrameHeader (type : FrameType) (payloadLen : ℕ) : Bytes :=
  type :: BigEndian.bytes 4 payloadLen

def isValidPayloadLen (len : ℕ) : Bool := decide (len ≤ kMaxFramePayload)

@[simp] theorem length_writeFrameHeader (type : FrameType) (n : ℕ) :
    (writeFrameHeader type n).length = kFrameHeaderSize := by
  simp [writeFrameHeader, kFrameHeaderSize]

theorem readPayloadLen_append (s t : Bytes) (h : kFrameHeaderSize ≤ s.length) :
    readPayloadLen (s ++ t) = readPayloadLen s := by
  simp only [kFrameHeaderSize] at h
  simp only [readPayloadLen]
  rw [List.drop_append_of_le_length (by omega),
    List.take_append_of_le_length (by simp only [List.length_drop]; omega)]

theorem readPayloadLen_write (type : FrameType) (n : ℕ) (t : Bytes) (h : n < 2 ^ 32) :
    readPayloadLen (writeFrameHeader type n ++ t) = n := by
  rw [readPayloadLen_append _ _ (by simp)]
  simp only [readPayloadLen, writeFrameHeader, List.drop_succ_cons, List.drop_zero]
  rw [List.take_of_length_le (by simp), BigEndian.val_bytes_of_lt (by omega)]

/-! ### Frame builders (`protocol.cc`) -/

def buildRecvPacket (srcKey : Key) (data : Bytes) : Bytes :=
  writeFrameHeader .kRecvPacket (kKeySize + data.length) ++ srcKey.data ++ data

def buildPeerGone (peerKey : Key) (reason : PeerGoneReason) : Bytes :=
  writeFrameHeader .kPeerGone (kKeySize + 1) ++ peerKey.data ++ [reason.toByte]

def buildPeerPresent (peerKey : Key) : Bytes :=
  writeFrameHeader .kPeerPresent kKeySize ++ peerKey.data

/-- `BuildPong` echoes eight bytes of ping data. -/
def buildPong (pingData : Bytes) : Bytes :=
  writeFrameHeader .kPong kPingDataSize ++ pingData.take kPingDataSize

/-! ### FNV-1a (`data_plane.cc:89-96`, `control_plane.cc:33-40`) -/

def fnv1a (data : Bytes) : ℕ :=
  data.foldl (fun h b => (h ^^^ b.toNat) * 16777619 % 2 ^ 32) 2166136261

end HyperDerp
