import HyperDerp.Stun.Xdp

/-!
# The XDP program (`hd_xdp.bpf.c:253-385`)

`handle_channel` and the entry point, on the frames of the responder.
-/

namespace HyperDerp.Stun

open Patch

def TURN_CHANNEL_MIN : ℕ := 0x4000
def TURN_CHANNEL_MAX : ℕ := 0x7FFF

def ethProto : ℕ := 12
def ipProtocol : ℕ := 23

inductive ProgramStat where
  | stun (s : Stat)
  | channelForwards
  deriving DecidableEq

/-- The channel number in host order, the address as it stands in the frame. -/
structure TurnChanKey where
  channel : ℕ
  srcIp : Bytes
  srcPort : Bytes
  deriving DecidableEq

structure TurnChanVal where
  peerIp : NetBytes 4
  peerPort : NetBytes 2
  peerMac : NetBytes 6
  relayIp : NetBytes 4
  relayPort : NetBytes 2

structure XdpMaps where
  turnChannels : TurnChanKey → Option TurnChanVal
  stunPort : Option ℕ

def channelHeaders (frame : Bytes) (val : TurnChanVal) : Bytes :=
  let frame := put frame ethDest val.peerMac.val
  let frame := put frame ipDaddr val.peerIp.val
  let frame := put frame ipSaddr val.relayIp.val
  let frame := put frame ipTtl [64]
  let frame := put frame ipCheck [0, 0]
  let check := ipChecksum frame
  let frame := put frame ipCheck [UInt8.ofNat (check % 256), UInt8.ofNat (check / 256)]
  let frame := put frame udpDest val.peerPort.val
  let frame := put frame udpSource val.relayPort.val
  put frame udpCheck [0, 0]

def handleChannel (maps : XdpMaps) (frame : Bytes) : List ProgramStat × Action :=
  if frame.length < udpPayload + 4 then ([], .pass frame)
  else
    let channel := BigEndian.val (field frame udpPayload 2)
    let dataLen := BigEndian.val (field frame (udpPayload + 2) 2)
    -- a uint16_t: the last three lengths are padded to 0
    let paddedLen := (dataLen + 3) / 4 * 4 % 2 ^ 16
    if frame.length < udpPayload + 4 + paddedLen then ([.stun .passedToStack], .pass frame)
    else
      match maps.turnChannels ⟨channel, field frame ipSaddr 4, field frame udpSource 2⟩ with
      | none => ([.stun .passedToStack], .pass frame)
      | some val => ([.channelForwards], .tx (channelHeaders frame val))

def isUdpFrame (frame : Bytes) : Bool :=
  udpPayload ≤ frame.length && field frame ethProto 2 = [0x08, 0x00] &&
    frame.getD ipProtocol 0 = 17 && (frame.getD ipHdr 0).toNat % 16 = 5

def hdStunTurn (adjustTail : AdjustTail) (maps : XdpMaps) (frame : Bytes) :
    List ProgramStat × Action :=
  if isUdpFrame frame = false then ([], .pass frame)
  else if maps.stunPort ≠ some (BigEndian.val (field frame udpDest 2)) then ([], .pass frame)
  else
    -- an int: less than 0 where the UDP length is less than its header
    let udpPayloadLen : ℤ := (BigEndian.val (field frame udpLen 2) : ℤ) - 8
    if udpPayloadLen < 4 ∨ (frame.length : ℤ) < udpPayload + udpPayloadLen then ([], .pass frame)
    else if (kStunHeaderSize : ℤ) ≤ udpPayloadLen ∧
        BigEndian.val (field frame (udpPayload + 4) 4) = kStunMagicCookie then
      let (stats, action) := handleStun adjustTail frame
      (stats.map .stun, action)
    else
      let firstWord := BigEndian.val (field frame udpPayload 2)
      if TURN_CHANNEL_MIN ≤ firstWord ∧ firstWord ≤ TURN_CHANNEL_MAX then handleChannel maps frame
      else ([.stun .passedToStack], .pass frame)

theorem hdStunTurn_tx {adjustTail : AdjustTail} {maps : XdpMaps} {frame out : Bytes}
    {stats : List ProgramStat} (h : hdStunTurn adjustTail maps frame = (stats, .tx out)) :
    (∃ s, handleStun adjustTail frame = (s, .tx out)) ∨
      handleChannel maps frame = (stats, .tx out) := by
  unfold hdStunTurn at h
  split at h
  · cases h
  · split at h
    · cases h
    · dsimp only at h
      split at h
      · cases h
      · split at h
        · have haction : (handleStun adjustTail frame).2 = .tx out := congrArg Prod.snd h
          left
          exact ⟨_, Prod.ext rfl haction⟩
        · split at h
          · exact Or.inr h
          · cases h

end HyperDerp.Stun
