import HyperDerp.HdProtocol
import HyperDerp.Lib.CheckedBytes

/-!
# Readers of the HD routing frames (`hd_protocol.cc:127-503`)

The reader of a frame is its parser with every access to the payload spelled
out, in the source's order and at the source's offsets; it runs on a buffer of
exactly `payload_len` bytes.
-/

namespace HyperDerp

open CheckedBytes

def kHdRedirectMaxUrl : ℕ := 256

/-! ### The remaining routing frames (`hd_protocol.cc:317-384`, `:470-503`) -/

/-- `initiatorKey` holds the 32 bytes that were copied. -/
structure HdIncomingConnection where
  initiatorKey : Bytes
  initiatorPeerId : ℕ
  intent : HdIntent
  flags : Byte
  correlationId : ℕ
  deriving DecidableEq

def hdParseIncomingConnection (payload : Bytes) : Option HdIncomingConnection :=
  if payload.length ≠ kHdIncomingConnSize then none
  else some
    { initiatorKey := (payload.drop 0).take kKeySize
      initiatorPeerId := readU16 payload 32
      intent := payload.getD 34 0
      flags := payload.getD 35 0
      correlationId := readU64 payload 36 }

def hdBuildIncomingConnResponse (correlationId : ℕ) (intent : HdIntent) (flags accept : Byte) :
    Bytes :=
  hdWriteFrameHeader .kIncomingConnResponse kHdIncomingRespSize ++ writeU64 correlationId ++
    [intent, flags, accept]

structure HdIncomingConnResult where
  correlationId : ℕ
  mode : HdConnMode
  denyReason : HdDenyReason
  subReason : Byte
  deriving DecidableEq

def hdParseIncomingConnResult (payload : Bytes) : Option HdIncomingConnResult :=
  if payload.length ≠ kHdIncomingResultSize then none
  else some
    { correlationId := readU64 payload 0
      mode := payload.getD 8 0
      denyReason := readU16 payload 9
      subReason := payload.getD 11 0 }

/-- `*out_reason` and the URL bytes that `HdParseRedirect` copies. -/
structure HdRedirect where
  reason : Byte
  url : Bytes
  deriving DecidableEq

def hdBuildRedirect (reason : Byte) (targetUrl : Bytes) : Option Bytes :=
  if kHdRedirectMaxUrl < targetUrl.length then none
  else some (hdWriteFrameHeader .kRedirect (1 + targetUrl.length) ++ [reason] ++ targetUrl)

def hdParseRedirect (payload : Bytes) (outUrlSize : ℕ) : Option HdRedirect :=
  if payload.length < 1 then none
  else
    let urlLen := payload.length - 1
    if kHdRedirectMaxUrl < urlLen then none
    else if outUrlSize < urlLen + 1 then none
    else some { reason := payload.getD 0 0, url := (payload.drop 1).take urlLen }

/-! ### What each parser reads -/

def readRouteAnnounce (maxOut payloadLen : ℕ) : Reader (List (ℕ × ℕ)) :=
  go 0 (min (payloadLen / kHdRouteEntrySize) maxOut)
where
  go : ℕ → ℕ → Reader (List (ℕ × ℕ))
    | _, 0 => pure []
    | p, n + 1 => do
      let id ← word p 2
      let hops ← byte (p + 2)
      let rest ← go (p + kHdRouteEntrySize) n
      pure ((id, hops.toNat) :: rest)

def readOpenConnection (payloadLen : ℕ) : Reader (Option HdOpenConnection) :=
  if payloadLen ≠ kHdOpenConnSize then pure none
  else do
    let targetPeerId ← word 0 2
    let targetRelayId ← word 2 2
    let intent ← byte 4
    let flags ← byte 5
    let correlationId ← word 6 8
    pure (some ⟨targetPeerId, targetRelayId, intent, flags, correlationId⟩)

def readOpenConnectionResult (payloadLen : ℕ) : Reader (Option HdOpenConnectionResult) :=
  if payloadLen < kHdOpenResultMinSize then pure none
  else do
    let correlationId ← word 0 8
    let mode ← byte 8
    let denyReason ← word 9 2
    let subReason ← byte 11
    let pathLen ← word 12 2
    let fixed := kHdOpenResultMinSize + pathLen * 2
    if kHdMaxRelayPath < pathLen then pure none
    else if payloadLen < fixed then pure none
    else do
      let relayPath ← words 2 14 pathLen
      let hintLen ← word (14 + pathLen * 2) 2
      if kHdMaxEndpointHint < hintLen then pure none
      else if payloadLen ≠ fixed + hintLen then pure none
      else do
        let endpointHint ← bytes (14 + pathLen * 2 + 2) hintLen
        pure (some ⟨correlationId, mode, denyReason, subReason, relayPath, endpointHint⟩)

def readIncomingConnection (payloadLen : ℕ) : Reader (Option HdIncomingConnection) :=
  if payloadLen ≠ kHdIncomingConnSize then pure none
  else do
    let initiatorKey ← bytes 0 kKeySize
    let initiatorPeerId ← word 32 2
    let intent ← byte 34
    let flags ← byte 35
    let correlationId ← word 36 8
    pure (some ⟨initiatorKey, initiatorPeerId, intent, flags, correlationId⟩)

def readIncomingConnResponse (payloadLen : ℕ) : Reader (Option HdIncomingConnResponse) :=
  if payloadLen ≠ kHdIncomingRespSize then pure none
  else do
    let correlationId ← word 0 8
    let intent ← byte 8
    let flags ← byte 9
    let accept ← byte 10
    pure (some ⟨correlationId, intent, flags, accept⟩)

def readIncomingConnResult (payloadLen : ℕ) : Reader (Option HdIncomingConnResult) :=
  if payloadLen ≠ kHdIncomingResultSize then pure none
  else do
    let correlationId ← word 0 8
    let mode ← byte 8
    let denyReason ← word 9 2
    let subReason ← byte 11
    pure (some ⟨correlationId, mode, denyReason, subReason⟩)

def readFleetOpenConnection (payloadLen : ℕ) : Reader (Option HdFleetOpenConnection) :=
  if payloadLen < 2 + 2 + kKeySize + kHdOpenConnSize then pure none
  else do
    let originRelayId ← word 0 2
    let fidLen ← word 2 2
    if kHdMaxFleetIdLen < fidLen then pure none
    else if payloadLen ≠ 2 + 2 + fidLen + kKeySize + kHdOpenConnSize then pure none
    else do
      let originFleetId ← bytes 4 fidLen
      let targetKey ← bytes (4 + fidLen) kKeySize
      let innerConn ← bytes (4 + fidLen + kKeySize) kHdOpenConnSize
      pure (some ⟨originRelayId, originFleetId, targetKey, innerConn⟩)

def readRedirect (outUrlSize payloadLen : ℕ) : Reader (Option HdRedirect) :=
  if payloadLen < 1 then pure none
  else
    let urlLen := payloadLen - 1
    if kHdRedirectMaxUrl < urlLen then pure none
    else if outUrlSize < urlLen + 1 then pure none
    else do
      let reason ← byte 0
      let url ← bytes 1 urlLen
      pure (some ⟨reason, url⟩)

/-! ### No parser reads outside its payload -/

theorem run_readU16 {off : ℕ} {p : Bytes} (h : off + 2 ≤ p.length) :
    (word off 2).run p = some (readU16 p off) :=
  run_word h

theorem run_readU64 {off : ℕ} {p : Bytes} (h : off + 8 ≤ p.length) :
    (word off 8).run p = some (readU64 p off) :=
  run_word h

theorem readRouteAnnounce_go (n off : ℕ) (p : Bytes) (h : off + n * kHdRouteEntrySize ≤ p.length) :
    (readRouteAnnounce.go off n).run p = some ((List.range n).map fun i =>
      (readU16 p (off + kHdRouteEntrySize * i),
        (p.getD (off + kHdRouteEntrySize * i + 2) 0).toNat)) := by
  induction n generalizing off with
  | zero => rfl
  | succ n ih =>
    simp only [kHdRouteEntrySize] at h ih
    rw [readRouteAnnounce.go, run_bind (run_readU16 (by omega)), run_bind (run_byte (by omega)),
      kHdRouteEntrySize, run_bind (ih (off + 3) (by omega)), run_pure, List.range_succ_eq_map,
      List.map_cons, List.map_map]
    simp only [Nat.mul_zero, Nat.add_zero, Option.some.injEq, List.cons.injEq, true_and]
    apply List.map_congr_left
    intro i _
    have hoff : off + 3 + 3 * i = off + 3 * i.succ := by omega
    simp only [Function.comp_apply, hoff]

theorem readRouteAnnounce_inside (maxOut : ℕ) :
    Inside (readRouteAnnounce maxOut) fun p => hdParseRouteAnnounce p maxOut := by
  intro p
  have hfit : 0 + min (p.length / kHdRouteEntrySize) maxOut * kHdRouteEntrySize ≤ p.length := by
    have hdiv := Nat.div_mul_le_self p.length kHdRouteEntrySize
    have hmin := Nat.mul_le_mul_right kHdRouteEntrySize
      (Nat.min_le_left (p.length / kHdRouteEntrySize) maxOut)
    omega
  have hgo := readRouteAnnounce_go _ 0 p hfit
  simp only [Nat.zero_add] at hgo
  exact hgo

theorem readOpenConnection_inside : Inside readOpenConnection hdParseOpenConnection := by
  intro p
  unfold readOpenConnection hdParseOpenConnection
  split
  next => rfl
  next h =>
    simp only [kHdOpenConnSize, ne_eq, Decidable.not_not] at h
    rw [run_bind (run_readU16 (by omega)), run_bind (run_readU16 (by omega)),
      run_bind (run_byte (by omega)), run_bind (run_byte (by omega)),
      run_bind (run_readU64 (by omega))]
    rfl

theorem readOpenConnectionResult_inside :
    Inside readOpenConnectionResult hdParseOpenConnectionResult := by
  intro p
  unfold readOpenConnectionResult hdParseOpenConnectionResult
  split
  next => rfl
  next h =>
    simp only [kHdOpenResultMinSize, Nat.not_lt] at h
    rw [run_bind (run_readU64 (by omega)), run_bind (run_byte (by omega)),
      run_bind (run_readU16 (by omega)), run_bind (run_byte (by omega)),
      run_bind (run_readU16 (by omega))]
    dsimp only
    generalize readU16 p 12 = pathLen
    by_cases hcap : kHdMaxRelayPath < pathLen
    · rw [if_pos hcap, if_pos hcap]
      rfl
    rw [if_neg hcap, if_neg hcap]
    by_cases hfixed : p.length < kHdOpenResultMinSize + pathLen * 2
    · rw [if_pos hfixed, if_pos hfixed]
      rfl
    rw [if_neg hfixed, if_neg hfixed]
    simp only [kHdOpenResultMinSize, Nat.not_lt] at hfixed
    rw [run_bind (run_words (by omega)), run_bind (run_readU16 (by omega))]
    generalize readU16 p (14 + pathLen * 2) = hintLen
    by_cases hhint : kHdMaxEndpointHint < hintLen
    · rw [if_pos hhint, if_pos hhint]
      rfl
    rw [if_neg hhint, if_neg hhint]
    by_cases hlen : p.length ≠ kHdOpenResultMinSize + pathLen * 2 + hintLen
    · rw [if_pos hlen, if_pos hlen]
      rfl
    rw [if_neg hlen, if_neg hlen]
    simp only [kHdOpenResultMinSize, ne_eq, Decidable.not_not] at hlen
    have hoff : 14 + pathLen * 2 + 2 = kHdOpenResultMinSize + pathLen * 2 := by
      simp only [kHdOpenResultMinSize]
      omega
    rw [run_bind (run_bytes (by omega)), hoff]
    rfl

theorem readIncomingConnection_inside :
    Inside readIncomingConnection hdParseIncomingConnection := by
  intro p
  unfold readIncomingConnection hdParseIncomingConnection
  split
  next => rfl
  next h =>
    simp only [kHdIncomingConnSize, ne_eq, Decidable.not_not] at h
    rw [run_bind (run_bytes (by simp only [kKeySize]; omega)), run_bind (run_readU16 (by omega)),
      run_bind (run_byte (by omega)), run_bind (run_byte (by omega)),
      run_bind (run_readU64 (by omega))]
    rfl

theorem readIncomingConnResponse_inside :
    Inside readIncomingConnResponse hdParseIncomingConnResponse := by
  intro p
  unfold readIncomingConnResponse hdParseIncomingConnResponse
  split
  next => rfl
  next h =>
    simp only [kHdIncomingRespSize, ne_eq, Decidable.not_not] at h
    rw [run_bind (run_readU64 (by omega)), run_bind (run_byte (by omega)),
      run_bind (run_byte (by omega)), run_bind (run_byte (by omega))]
    rfl

theorem readIncomingConnResult_inside :
    Inside readIncomingConnResult hdParseIncomingConnResult := by
  intro p
  unfold readIncomingConnResult hdParseIncomingConnResult
  split
  next => rfl
  next h =>
    simp only [kHdIncomingResultSize, ne_eq, Decidable.not_not] at h
    rw [run_bind (run_readU64 (by omega)), run_bind (run_byte (by omega)),
      run_bind (run_readU16 (by omega)), run_bind (run_byte (by omega))]
    rfl

theorem readFleetOpenConnection_inside :
    Inside readFleetOpenConnection hdParseFleetOpenConnection := by
  intro p
  unfold readFleetOpenConnection hdParseFleetOpenConnection
  split
  next => rfl
  next h =>
    simp only [kKeySize, kHdOpenConnSize, Nat.not_lt] at h
    rw [run_bind (run_readU16 (by omega)), run_bind (run_readU16 (by omega))]
    dsimp only
    generalize readU16 p 2 = fidLen
    by_cases hcap : kHdMaxFleetIdLen < fidLen
    · rw [if_pos hcap, if_pos hcap]
      rfl
    rw [if_neg hcap, if_neg hcap]
    by_cases hlen : p.length ≠ 2 + 2 + fidLen + kKeySize + kHdOpenConnSize
    · rw [if_pos hlen, if_pos hlen]
      rfl
    rw [if_neg hlen, if_neg hlen]
    simp only [kKeySize, kHdOpenConnSize, ne_eq, Decidable.not_not] at hlen
    rw [run_bind (run_bytes (by omega)), run_bind (run_bytes (by simp only [kKeySize]; omega)),
      run_bind (run_bytes (by simp only [kKeySize, kHdOpenConnSize]; omega))]
    rfl

theorem readRedirect_inside (outUrlSize : ℕ) :
    Inside (readRedirect outUrlSize) fun p => hdParseRedirect p outUrlSize := by
  intro p
  unfold readRedirect hdParseRedirect
  dsimp only
  split
  next => rfl
  next h =>
    split
    next => rfl
    next =>
      split
      next => rfl
      next =>
        rw [run_bind (run_byte (by omega)), run_bind (run_bytes (by omega))]
        rfl

end HyperDerp
