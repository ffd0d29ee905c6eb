import HyperDerp.HdProtocol

/-!
# Frame format bridge (`hd_bridge.cc`)

Conversion between a DERP SendPacket payload and an HD Data frame, in both
directions. `none` is the source's `-1` (output buffer too small).
-/

namespace HyperDerp

/-- `BridgeDerpToHd`: strip the destination key, prepend the HD header. -/
def bridgeDerpToHd (sendPayload : Bytes) (outSize : ℕ) : Option Bytes :=
  if sendPayload.length < kKeySize then none
  else
    let dataLen := sendPayload.length - kKeySize
    if outSize < kHdFrameHeaderSize + dataLen then none
    else some (hdWriteFrameHeader .kData dataLen ++ sendPayload.drop kKeySize)

/-- `BridgeHdToDerp`: prepend the DERP header and the source key. -/
def bridgeHdToDerp (hdPayload : Bytes) (srcKey : Key) (outSize : ℕ) : Option Bytes :=
  let payloadLen := kKeySize + hdPayload.length
  if outSize < kFrameHeaderSize + payloadLen then none
  else some (writeFrameHeader .kRecvPacket payloadLen ++ srcKey.data ++ hdPayload)

end HyperDerp
