import HyperDerp.HdCodec.Readers

/-!
# Round trips of the HD routing frames (`hd_protocol.cc:127-503`)

Builder and parser of a frame are written apart from each other. On the fields
within the documented bounds they invert each other, byte for byte.
-/

namespace HyperDerp

open CheckedBytes

/-! ### Round trips -/

/-- A builder, its parser and the parser's reader fit together on the fields
that `valid` allows. The builder takes the size of the output buffer. -/
structure RoundTrips {F : Type} (type : HdFrameType) (valid : F → Prop)
    (build : ℕ → F → Option Bytes) (parse : Bytes → Option F) (reader : ℕ → Reader (Option F)) : Prop where
  builds : ∀ f bufSize, valid f → kHdFrameHeaderSize + kHdMaxFramePayload ≤ bufSize →
    ∃ frame, build bufSize f = some frame
  parse_build : ∀ f bufSize frame, valid f → build bufSize f = some frame →
    hdReadFrameType frame = type ∧
    hdReadPayloadLen frame = (frame.drop kHdFrameHeaderSize).length ∧
    parse (frame.drop kHdFrameHeaderSize) = some f
  build_parse : ∀ p f bufSize, parse p = some f → kHdFrameHeaderSize + p.length ≤ bufSize →
    valid f ∧ ∃ frame, build bufSize f = some frame ∧ frame.drop kHdFrameHeaderSize = p
  inside : Inside reader parse

theorem drop_header (type : HdFrameType) (n : ℕ) (p : Bytes) :
    (hdWriteFrameHeader type n ++ p).drop kHdFrameHeaderSize = p :=
  List.drop_left' (length_hdWriteFrameHeader type n)

theorem RoundTrips.of_payload {F : Type} {valid : F → Prop} {build : ℕ → F → Option Bytes}
    {parse : Bytes → Option F} {reader : ℕ → Reader (Option F)} (type : HdFrameType)
    (payload : F → Bytes)
    (hmax : ∀ f, valid f → (payload f).length ≤ kHdMaxFramePayload)
    (hbuild : ∀ f bufSize, valid f →
      build bufSize f = some (hdWriteFrameHeader type (payload f).length ++ payload f) ∨
      bufSize < kHdFrameHeaderSize + (payload f).length ∧ build bufSize f = none)
    (hparse : ∀ f, valid f → parse (payload f) = some f)
    (hinv : ∀ p f, parse p = some f → valid f ∧ payload f = p)
    (inside : Inside reader parse) : RoundTrips type valid build parse reader where
  builds f bufSize hf hbuf := by
    have hlen := hmax f hf
    rcases hbuild f bufSize hf with h | ⟨hsmall, _⟩
    · exact ⟨_, h⟩
    · omega
  parse_build f bufSize frame hf hb := by
    rcases hbuild f bufSize hf with h | ⟨_, h⟩
    · rw [hb, Option.some.injEq] at h
      have hlen := hmax f hf
      simp only [kHdMaxFramePayload] at hlen
      rw [h, drop_header]
      exact ⟨rfl, hdReadPayloadLen_write _ _ _ (by omega), hparse f hf⟩
    · rw [hb] at h
      cases h
  build_parse p f bufSize hp hbuf := by
    obtain ⟨hf, rfl⟩ := hinv p f hp
    rcases hbuild f bufSize hf with h | ⟨hsmall, _⟩
    · exact ⟨hf, _, h, drop_header _ _ _⟩
    · omega
  inside := inside

/-! ### Reading back what was written -/

def IsU16 (v : ℕ) : Prop := v < 2 ^ 16
def IsU64 (v : ℕ) : Prop := v < 2 ^ 64

@[simp] theorem length_writeU16 (v : ℕ) : (writeU16 v).length = 2 := BigEndian.length_bytes 2 v
@[simp] theorem length_writeU64 (v : ℕ) : (writeU64 v).length = 8 := BigEndian.length_bytes 8 v

theorem isU16_read (p : Bytes) (off : ℕ) : IsU16 (readU16 p off) := by
  have hlt := BigEndian.val_lt ((p.drop off).take 2)
  have hpow : 256 ^ ((p.drop off).take 2).length ≤ 256 ^ 2 :=
    Nat.pow_le_pow_right (by decide) (by simp only [List.length_take]; omega)
  exact Nat.lt_of_lt_of_le hlt hpow

theorem isU64_read (p : Bytes) (off : ℕ) : IsU64 (readU64 p off) := by
  have hlt := BigEndian.val_lt ((p.drop off).take 8)
  have hpow : 256 ^ ((p.drop off).take 8).length ≤ 256 ^ 8 :=
    Nat.pow_le_pow_right (by decide) (by simp only [List.length_take]; omega)
  exact Nat.lt_of_lt_of_le hlt hpow

variable {off : ℕ} {p : Bytes} {f : HdIncomingConnection}

theorem drop_skip {a : Bytes} (b : Bytes) (h : a.length ≤ off) :
    (a ++ b).drop off = b.drop (off - a.length) := by
  rw [List.drop_append, List.drop_of_length_le h, List.nil_append]

@[simp] theorem readU16_skip {a : Bytes} (b : Bytes) (h : a.length ≤ off) :
    readU16 (a ++ b) off = readU16 b (off - a.length) := by
  rw [readU16, drop_skip b h, readU16]

@[simp] theorem readU64_skip {a : Bytes} (b : Bytes) (h : a.length ≤ off) :
    readU64 (a ++ b) off = readU64 b (off - a.length) := by
  rw [readU64, drop_skip b h, readU64]

@[simp] theorem readU16_cons (x : Byte) (b : Bytes) (off : ℕ) :
    readU16 (x :: b) (off + 1) = readU16 b off := rfl

@[simp] theorem readU64_cons (x : Byte) (b : Bytes) (off : ℕ) :
    readU64 (x :: b) (off + 1) = readU64 b off := rfl

@[simp] theorem readU16_write {v : ℕ} (b : Bytes) (h : IsU16 v) :
    readU16 (writeU16 v ++ b) 0 = v := by
  rw [readU16, List.drop_zero, List.take_left' (length_writeU16 v)]
  exact BigEndian.val_bytes_of_lt h

@[simp] theorem readU64_write {v : ℕ} (b : Bytes) (h : IsU64 v) :
    readU64 (writeU64 v ++ b) 0 = v := by
  rw [readU64, List.drop_zero, List.take_left' (length_writeU64 v)]
  exact BigEndian.val_bytes_of_lt (by simpa [IsU64] using h)

@[simp] theorem readU64_write_last {v : ℕ} (h : IsU64 v) : readU64 (writeU64 v) 0 = v := by
  simpa using readU64_write [] h

theorem writeU16_read (h : off + 2 ≤ p.length) :
    writeU16 (readU16 p off) = (p.drop off).take 2 :=
  field_word h

theorem writeU64_read (h : off + 8 ≤ p.length) :
    writeU64 (readU64 p off) = (p.drop off).take 8 :=
  field_word h

theorem field_two (h : off + 2 ≤ p.length) :
    [p.getD off 0, p.getD (off + 1) 0] = (p.drop off).take 2 := by
  rw [← field_append p off 1 1, ← field_byte (by omega), ← field_byte (by omega)]
  rfl

/-! ### OpenConnection -/

def OpenConnectionBounds (f : HdOpenConnection) : Prop :=
  IsU16 f.targetPeerId ∧ IsU16 f.targetRelayId ∧ IsU64 f.correlationId

def openConnectionFrame (_ : ℕ) (f : HdOpenConnection) : Option Bytes :=
  some (hdBuildOpenConnection f.targetPeerId f.targetRelayId f.intent f.flags f.correlationId)

def openConnectionPayload (f : HdOpenConnection) : Bytes :=
  hdOpenConnectionPayload f.targetPeerId f.targetRelayId f.intent f.flags f.correlationId

theorem length_openConnectionPayload (f : HdOpenConnection) :
    (openConnectionPayload f).length = kHdOpenConnSize := by
  simp [openConnectionPayload, hdOpenConnectionPayload, kHdOpenConnSize]

theorem openConnection_parse {f : HdOpenConnection} (h : OpenConnectionBounds f) :
    hdParseOpenConnection (openConnectionPayload f) = some f := by
  obtain ⟨hpeer, hrelay, hcorr⟩ := h
  simp [hdParseOpenConnection, openConnectionPayload, hdOpenConnectionPayload, kHdOpenConnSize,
    hpeer, hrelay, hcorr]

theorem openConnection_inv {f : HdOpenConnection} (h : hdParseOpenConnection p = some f) :
    OpenConnectionBounds f ∧ openConnectionPayload f = p := by
  unfold hdParseOpenConnection at h
  split at h
  next => cases h
  next hlen =>
    cases h
    simp only [kHdOpenConnSize, ne_eq, Decidable.not_not] at hlen
    refine ⟨⟨isU16_read p 0, isU16_read p 2, isU64_read p 6⟩, ?_⟩
    simp only [openConnectionPayload, hdOpenConnectionPayload]
    rw [writeU16_read (by omega), writeU16_read (by omega), writeU64_read (by omega),
      field_two (by omega), List.drop_zero, prefix_append p 2, prefix_append p 4,
      prefix_append p 6, List.take_of_length_le (by omega)]

theorem openConnection_roundTrips : RoundTrips .kOpenConnection OpenConnectionBounds
    openConnectionFrame hdParseOpenConnection readOpenConnection := by
  refine .of_payload .kOpenConnection openConnectionPayload ?_ ?_ (fun f => openConnection_parse)
    (fun p f => openConnection_inv) readOpenConnection_inside
  · intro f _
    rw [length_openConnectionPayload]
    decide
  · intro f bufSize _
    rw [length_openConnectionPayload]
    exact .inl rfl

/-! ### OpenConnectionResult and FleetOpenConnectionResult

Both frames carry one payload and are read by one parser; the second builder
only puts another type byte in front. -/

def OpenResultBounds (f : HdOpenConnectionResult) : Prop :=
  IsU64 f.correlationId ∧ IsU16 f.denyReason ∧ (∀ id ∈ f.relayPath, IsU16 id) ∧
    f.relayPath.length ≤ kHdMaxRelayPath ∧ f.endpointHint.length ≤ kHdMaxEndpointHint

def openConnectionResultFrame (bufSize : ℕ) (f : HdOpenConnectionResult) : Option Bytes :=
  hdBuildOpenConnectionResult bufSize f.correlationId f.mode f.denyReason f.subReason f.relayPath
    f.endpointHint

def fleetOpenConnectionResultFrame (bufSize : ℕ) (f : HdOpenConnectionResult) : Option Bytes :=
  hdBuildFleetOpenConnectionResult bufSize f.correlationId f.mode f.denyReason f.subReason
    f.relayPath f.endpointHint

def openResultPayload (f : HdOpenConnectionResult) : Bytes :=
  hdOpenResultPayload f.correlationId f.mode f.denyReason f.subReason f.relayPath f.endpointHint

theorem length_relayPath (path : List ℕ) : (path.flatMap writeU16).length = path.length * 2 := by
  induction path with
  | nil => rfl
  | cons id path ih =>
    simp only [List.flatMap_cons, List.length_append, length_writeU16, ih, List.length_cons]
    omega

theorem length_openResultPayload (f : HdOpenConnectionResult) :
    (openResultPayload f).length =
      kHdOpenResultMinSize + f.relayPath.length * 2 + f.endpointHint.length := by
  simp only [openResultPayload, hdOpenResultPayload, List.length_append, List.length_cons,
    List.length_nil, length_writeU16, length_writeU64, length_relayPath, kHdOpenResultMinSize]
  omega

theorem relayPath_read (path : List ℕ) (b : Bytes) (h : ∀ id ∈ path, IsU16 id) :
    ((List.range path.length).map fun i => readU16 (path.flatMap writeU16 ++ b) (i * 2)) =
      path := by
  induction path with
  | nil => rfl
  | cons id path ih =>
    have hid : IsU16 id := h id (List.mem_cons_self ..)
    have htail := ih fun z hz => h z (List.mem_cons_of_mem _ hz)
    rw [List.length_cons, List.range_succ_eq_map, List.map_cons, List.map_map, List.flatMap_cons,
      List.append_assoc, Nat.zero_mul, readU16_write _ hid]
    congr 1
    refine (List.map_congr_left ?_).trans htail
    intro i _
    have hoff : i.succ * 2 - (writeU16 id).length = i * 2 := by
      simp only [length_writeU16]
      omega
    rw [Function.comp_apply, readU16_skip _ (by simp only [length_writeU16]; omega), hoff]

def openResultFront (f : HdOpenConnectionResult) : Bytes :=
  writeU64 f.correlationId ++ [f.mode] ++ writeU16 f.denyReason ++ [f.subReason] ++
    writeU16 f.relayPath.length

theorem length_openResultFront (f : HdOpenConnectionResult) : (openResultFront f).length = 14 := by
  simp [openResultFront]

theorem openResult_parse {f : HdOpenConnectionResult} (h : OpenResultBounds f) :
    hdParseOpenConnectionResult (openResultPayload f) = some f := by
  obtain ⟨hcorr, hdeny, hpath, hpathLen, hhint⟩ := h
  have hpath16 : IsU16 f.relayPath.length := by
    simp only [kHdMaxRelayPath] at hpathLen
    simp only [IsU16]
    omega
  have hhint16 : IsU16 f.endpointHint.length := by
    simp only [kHdMaxEndpointHint] at hhint
    simp only [IsU16]
    omega
  have hlen := length_openResultPayload f
  have hfront : openResultPayload f = openResultFront f ++ (f.relayPath.flatMap writeU16 ++
      (writeU16 f.endpointHint.length ++ f.endpointHint)) := by
    simp only [openResultPayload, hdOpenResultPayload, openResultFront, List.append_assoc]
  have hsize := length_openResultFront f
  have hcount : readU16 (openResultPayload f) 12 = f.relayPath.length := by
    simp [openResultPayload, hdOpenResultPayload, hpath16]
  have hids : ((List.range f.relayPath.length).map fun i =>
      readU16 (openResultPayload f) (14 + i * 2)) = f.relayPath := by
    conv => rhs; rw [← relayPath_read f.relayPath
      (writeU16 f.endpointHint.length ++ f.endpointHint) hpath]
    apply List.map_congr_left
    intro i _
    rw [hfront, readU16_skip _ (by omega), hsize, Nat.add_sub_cancel_left]
  have hhintLen : readU16 (openResultPayload f) (14 + f.relayPath.length * 2) =
      f.endpointHint.length := by
    rw [hfront, readU16_skip _ (by omega), hsize, Nat.add_sub_cancel_left,
      readU16_skip _ (by rw [length_relayPath]), length_relayPath, Nat.sub_self,
      readU16_write _ hhint16]
  have hhintBytes : ((openResultPayload f).drop
      (kHdOpenResultMinSize + f.relayPath.length * 2)).take f.endpointHint.length =
        f.endpointHint := by
    rw [hfront, drop_skip _ (by simp only [kHdOpenResultMinSize]; omega), hsize,
      drop_skip _ (by simp only [kHdOpenResultMinSize, length_relayPath]; omega),
      length_relayPath, drop_skip _ (by simp only [kHdOpenResultMinSize, length_writeU16]; omega),
      length_writeU16]
    have hzero : kHdOpenResultMinSize + f.relayPath.length * 2 - 14 - f.relayPath.length * 2 - 2
        = 0 := by
      simp only [kHdOpenResultMinSize]
      omega
    rw [hzero, List.drop_zero, List.take_length]
  have hcorrAt : readU64 (openResultPayload f) 0 = f.correlationId := by
    simp [openResultPayload, hdOpenResultPayload, hcorr]
  have hmodeAt : (openResultPayload f).getD 8 0 = f.mode := by
    simp [openResultPayload, hdOpenResultPayload]
  have hdenyAt : readU16 (openResultPayload f) 9 = f.denyReason := by
    simp [openResultPayload, hdOpenResultPayload, hdeny]
  have hsubAt : (openResultPayload f).getD 11 0 = f.subReason := by
    simp [openResultPayload, hdOpenResultPayload, List.getElem?_append]
  unfold hdParseOpenConnectionResult
  dsimp only
  rw [hcount, hhintLen, hids, hhintBytes, hcorrAt, hmodeAt, hdenyAt, hsubAt,
    if_neg (by omega), if_neg (by omega), if_neg (by omega), if_neg (by omega),
    if_neg (by omega)]

theorem openResult_inv {f : HdOpenConnectionResult} (h : hdParseOpenConnectionResult p = some f) :
    OpenResultBounds f ∧ openResultPayload f = p := by
  unfold hdParseOpenConnectionResult at h
  dsimp only at h
  split at h
  next => cases h
  next hmin =>
    split at h
    next => cases h
    next hcap =>
      split at h
      next => cases h
      next hfixed =>
        split at h
        next => cases h
        next hhint =>
          split at h
          next => cases h
          next hlen =>
            cases h
            simp only [kHdOpenResultMinSize, Nat.not_lt, ne_eq, Decidable.not_not] at *
            have hhintSize : ((p.drop (16 + readU16 p 12 * 2)).take
                (readU16 p (14 + readU16 p 12 * 2))).length =
                  readU16 p (14 + readU16 p 12 * 2) :=
              length_field (by omega)
            refine ⟨⟨isU64_read p 0, isU16_read p 9, ?_, ?_, ?_⟩, ?_⟩
            · intro id hid
              obtain ⟨i, _, rfl⟩ := List.mem_map.mp hid
              exact isU16_read p _
            · simpa using hcap
            · rw [hhintSize]
              exact hhint
            · have hids : (List.range (readU16 p 12)).flatMap
                  (fun i => writeU16 (readU16 p (14 + i * 2))) =
                    (p.drop 14).take (readU16 p 12 * 2) := by
                rw [← field_array p 14 2]
                apply List.flatMap_congr
                intro i hi
                have hi' := List.mem_range.mp hi
                exact writeU16_read (by omega)
              have hrest : 16 + readU16 p 12 * 2 = 14 + readU16 p 12 * 2 + 2 := by omega
              simp only [openResultPayload, hdOpenResultPayload, List.length_map,
                List.length_range, hhintSize, List.flatMap_map, hids]
              rw [writeU64_read (by omega), field_byte (by omega), writeU16_read (by omega),
                field_byte (by omega), writeU16_read (by omega), writeU16_read (by omega), hrest,
                List.drop_zero, prefix_append p 8, prefix_append p 9, prefix_append p 11,
                prefix_append p 12, prefix_append p 14, prefix_append p (14 + _),
                prefix_append p (14 + _ + 2), List.take_of_length_le (by omega)]

theorem openResult_roundTrips (type : HdFrameType) : RoundTrips type OpenResultBounds
    (fun bufSize f => hdBuildOpenResult type bufSize f.correlationId f.mode f.denyReason
      f.subReason f.relayPath f.endpointHint)
    hdParseOpenConnectionResult readOpenConnectionResult := by
  refine .of_payload type openResultPayload ?_ ?_ (fun f => openResult_parse)
    (fun p f => openResult_inv) readOpenConnectionResult_inside
  · intro f ⟨_, _, _, hpath, hhint⟩
    rw [length_openResultPayload]
    simp only [kHdMaxRelayPath, kHdMaxEndpointHint] at hpath hhint
    simp only [kHdOpenResultMinSize, kHdMaxFramePayload]
    omega
  · intro f bufSize ⟨_, _, _, hpath, hhint⟩
    rw [length_openResultPayload]
    unfold hdBuildOpenResult
    dsimp only
    rw [if_neg (by omega), if_neg (by omega)]
    split
    next hsmall => exact .inr ⟨hsmall, rfl⟩
    next => exact .inl rfl

/-! ### IncomingConnection, its response and its result -/

/-- A builder that takes a `Key` applied to key bytes. -/
def withKey (data : Bytes) (build : Key → Option Bytes) : Option Bytes :=
  if h : data.length = kKeySize then build ⟨data, h⟩ else none

theorem withKey_of_size {data : Bytes} (h : data.length = kKeySize) (build : Key → Option Bytes) :
    withKey data build = build ⟨data, h⟩ :=
  dif_pos h

def IncomingConnectionBounds (f : HdIncomingConnection) : Prop :=
  f.initiatorKey.length = kKeySize ∧ IsU16 f.initiatorPeerId ∧ IsU64 f.correlationId

def incomingConnectionFrame (_ : ℕ) (f : HdIncomingConnection) : Option Bytes :=
  withKey f.initiatorKey fun key =>
    some (hdBuildIncomingConnection key f.initiatorPeerId f.intent f.flags f.correlationId)

def incomingConnectionPayload (f : HdIncomingConnection) : Bytes :=
  f.initiatorKey ++ (writeU16 f.initiatorPeerId ++ ([f.intent, f.flags] ++
    writeU64 f.correlationId))

theorem length_incomingConnectionPayload (h : f.initiatorKey.length = kKeySize) :
    (incomingConnectionPayload f).length = kHdIncomingConnSize := by
  simp [incomingConnectionPayload, h, kKeySize, kHdIncomingConnSize]

theorem incomingConnection_parse (h : IncomingConnectionBounds f) :
    hdParseIncomingConnection (incomingConnectionPayload f) = some f := by
  obtain ⟨hkey, hpeer, hcorr⟩ := h
  unfold hdParseIncomingConnection
  rw [if_neg (by rw [length_incomingConnectionPayload hkey]; simp)]
  have hcopy : ((incomingConnectionPayload f).drop 0).take kKeySize = f.initiatorKey :=
    List.take_left' hkey
  simp only [kKeySize] at hkey
  rw [hcopy]
  simp [incomingConnectionPayload, hkey, hpeer, hcorr]

theorem incomingConnection_inv (h : hdParseIncomingConnection p = some f) :
    IncomingConnectionBounds f ∧ incomingConnectionPayload f = p := by
  unfold hdParseIncomingConnection at h
  split at h
  next => cases h
  next hlen =>
    cases h
    simp only [kHdIncomingConnSize, ne_eq, Decidable.not_not] at hlen
    refine ⟨⟨length_field (by simp only [kKeySize]; omega), isU16_read p 32, isU64_read p 36⟩, ?_⟩
    simp only [incomingConnectionPayload]
    rw [writeU16_read (by omega), writeU64_read (by omega), field_two (by omega),
      field_append p 34 2 8, field_append p 32 2, List.drop_zero, kKeySize, prefix_append p 32,
      List.take_of_length_le (by omega)]

theorem incomingConnection_roundTrips : RoundTrips .kIncomingConnection
    IncomingConnectionBounds incomingConnectionFrame hdParseIncomingConnection
    readIncomingConnection := by
  refine .of_payload .kIncomingConnection incomingConnectionPayload ?_ ?_
    (fun f => incomingConnection_parse) (fun p f => incomingConnection_inv)
    readIncomingConnection_inside
  · intro f ⟨hkey, _⟩
    rw [length_incomingConnectionPayload hkey]
    decide
  · intro f bufSize ⟨hkey, _⟩
    left
    rw [length_incomingConnectionPayload hkey, incomingConnectionFrame, withKey_of_size hkey]
    simp only [hdBuildIncomingConnection, incomingConnectionPayload, List.append_assoc]

def incomingConnResponseFrame (_ : ℕ) (f : HdIncomingConnResponse) : Option Bytes :=
  some (hdBuildIncomingConnResponse f.correlationId f.intent f.flags f.accept)

def incomingConnResponsePayload (f : HdIncomingConnResponse) : Bytes :=
  writeU64 f.correlationId ++ [f.intent, f.flags, f.accept]

theorem incomingConnResponse_parse {f : HdIncomingConnResponse} (h : IsU64 f.correlationId) :
    hdParseIncomingConnResponse (incomingConnResponsePayload f) = some f := by
  simp [hdParseIncomingConnResponse, incomingConnResponsePayload, kHdIncomingRespSize, h]

theorem incomingConnResponse_inv {f : HdIncomingConnResponse}
    (h : hdParseIncomingConnResponse p = some f) :
    IsU64 f.correlationId ∧ incomingConnResponsePayload f = p := by
  unfold hdParseIncomingConnResponse at h
  split at h
  next => cases h
  next hlen =>
    cases h
    simp only [kHdIncomingRespSize, ne_eq, Decidable.not_not] at hlen
    have hthree : ([p.getD 8 0, p.getD 9 0, p.getD 10 0] : Bytes) = (p.drop 8).take 3 := by
      rw [← field_append p 8 2 1, ← field_two (by omega), ← field_byte (by omega)]
      rfl
    refine ⟨isU64_read p 0, ?_⟩
    simp only [incomingConnResponsePayload, hthree]
    rw [writeU64_read (by omega), List.drop_zero, prefix_append p 8,
      List.take_of_length_le (by omega)]

theorem incomingConnResponse_roundTrips : RoundTrips .kIncomingConnResponse
    (fun f => IsU64 f.correlationId) incomingConnResponseFrame hdParseIncomingConnResponse
    readIncomingConnResponse := by
  have hlen : ∀ f, (incomingConnResponsePayload f).length = kHdIncomingRespSize := by
    simp [incomingConnResponsePayload, kHdIncomingRespSize]
  refine .of_payload .kIncomingConnResponse incomingConnResponsePayload ?_ ?_
    (fun f => incomingConnResponse_parse) (fun p f => incomingConnResponse_inv)
    readIncomingConnResponse_inside
  · intro f _
    rw [hlen]
    decide
  · intro f bufSize _
    left
    rw [hlen]
    simp only [incomingConnResponseFrame, hdBuildIncomingConnResponse,
      incomingConnResponsePayload, List.append_assoc]

def IncomingConnResultBounds (f : HdIncomingConnResult) : Prop :=
  IsU64 f.correlationId ∧ IsU16 f.denyReason

def incomingConnResultFrame (_ : ℕ) (f : HdIncomingConnResult) : Option Bytes :=
  some (hdBuildIncomingConnResult f.correlationId f.mode f.denyReason f.subReason)

def incomingConnResultPayload (f : HdIncomingConnResult) : Bytes :=
  writeU64 f.correlationId ++ ([f.mode] ++ (writeU16 f.denyReason ++ [f.subReason]))

theorem incomingConnResult_parse {f : HdIncomingConnResult} (h : IncomingConnResultBounds f) :
    hdParseIncomingConnResult (incomingConnResultPayload f) = some f := by
  obtain ⟨hcorr, hdeny⟩ := h
  simp [hdParseIncomingConnResult, incomingConnResultPayload, kHdIncomingResultSize, hcorr, hdeny]

theorem incomingConnResult_inv {f : HdIncomingConnResult}
    (h : hdParseIncomingConnResult p = some f) :
    IncomingConnResultBounds f ∧ incomingConnResultPayload f = p := by
  unfold hdParseIncomingConnResult at h
  split at h
  next => cases h
  next hlen =>
    cases h
    simp only [kHdIncomingResultSize, ne_eq, Decidable.not_not] at hlen
    refine ⟨⟨isU64_read p 0, isU16_read p 9⟩, ?_⟩
    simp only [incomingConnResultPayload]
    rw [writeU64_read (by omega), field_byte (by omega), writeU16_read (by omega),
      field_byte (by omega), field_append p 9 2 1, field_append p 8 1, List.drop_zero,
      prefix_append p 8, List.take_of_length_le (by omega)]

theorem incomingConnResult_roundTrips : RoundTrips .kIncomingConnResult
    IncomingConnResultBounds incomingConnResultFrame hdParseIncomingConnResult
    readIncomingConnResult := by
  have hlen : ∀ f, (incomingConnResultPayload f).length = kHdIncomingResultSize := by
    simp [incomingConnResultPayload, kHdIncomingResultSize]
  refine .of_payload .kIncomingConnResult incomingConnResultPayload ?_ ?_
    (fun f => incomingConnResult_parse) (fun p f => incomingConnResult_inv)
    readIncomingConnResult_inside
  · intro f _
    rw [hlen]
    decide
  · intro f bufSize _
    left
    rw [hlen]
    simp only [incomingConnResultFrame, hdBuildIncomingConnResult, incomingConnResultPayload,
      List.append_assoc]

/-! ### FleetOpenConnection -/

def FleetOpenBounds (f : HdFleetOpenConnection) : Prop :=
  IsU16 f.originRelayId ∧ f.originFleetId.length ≤ kHdMaxFleetIdLen ∧
    f.targetKey.length = kKeySize ∧ f.innerConn.length = kHdOpenConnSize

def fleetOpenConnectionFrame (bufSize : ℕ) (f : HdFleetOpenConnection) : Option Bytes :=
  withKey f.targetKey fun key =>
    hdBuildFleetOpenConnection bufSize f.originRelayId f.originFleetId key f.innerConn

def fleetOpenPayload (f : HdFleetOpenConnection) : Bytes :=
  writeU16 f.originRelayId ++ (writeU16 f.originFleetId.length ++ (f.originFleetId ++
    (f.targetKey ++ f.innerConn)))

theorem length_fleetOpenPayload {f : HdFleetOpenConnection} (hkey : f.targetKey.length = kKeySize)
    (hinner : f.innerConn.length = kHdOpenConnSize) :
    (fleetOpenPayload f).length = 2 + 2 + f.originFleetId.length + kKeySize + kHdOpenConnSize := by
  simp only [fleetOpenPayload, List.length_append, length_writeU16, hkey, hinner]
  omega

theorem fleetOpen_parse {f : HdFleetOpenConnection} (h : FleetOpenBounds f) :
    hdParseFleetOpenConnection (fleetOpenPayload f) = some f := by
  obtain ⟨hrelay, hfleet, hkey, hinner⟩ := h
  have hfleet16 : IsU16 f.originFleetId.length := by
    simp only [kHdMaxFleetIdLen] at hfleet
    simp only [IsU16]
    omega
  have hlen := length_fleetOpenPayload hkey hinner
  have hcount : readU16 (fleetOpenPayload f) 2 = f.originFleetId.length := by
    simp [fleetOpenPayload, hfleet16]
  have hrelayAt : readU16 (fleetOpenPayload f) 0 = f.originRelayId := by
    simp [fleetOpenPayload, hrelay]
  have htail : (fleetOpenPayload f).drop 4 = f.originFleetId ++ (f.targetKey ++ f.innerConn) := by
    simp [fleetOpenPayload, drop_skip]
  have hkeyAt : (fleetOpenPayload f).drop (4 + f.originFleetId.length) =
      f.targetKey ++ f.innerConn := by
    rw [← List.drop_drop, htail, List.drop_left]
  have hinnerAt : (fleetOpenPayload f).drop (4 + f.originFleetId.length + kKeySize) =
      f.innerConn := by
    rw [← List.drop_drop, hkeyAt, List.drop_left' hkey]
  unfold hdParseFleetOpenConnection
  dsimp only
  rw [hcount, if_neg (by omega), if_neg (by omega), if_neg (by omega), hrelayAt, htail, hkeyAt,
    hinnerAt, List.take_left, List.take_left' hkey, List.take_of_length_le hinner.le]

theorem fleetOpen_inv {f : HdFleetOpenConnection} (h : hdParseFleetOpenConnection p = some f) :
    FleetOpenBounds f ∧ fleetOpenPayload f = p := by
  unfold hdParseFleetOpenConnection at h
  dsimp only at h
  split at h
  next => cases h
  next =>
    split at h
    next => cases h
    next hcap =>
      split at h
      next => cases h
      next hlen =>
        cases h
        simp only [kKeySize, kHdOpenConnSize, Nat.not_lt, ne_eq, Decidable.not_not] at *
        have hfid : ((p.drop 4).take (readU16 p 2)).length = readU16 p 2 :=
          length_field (by omega)
        refine ⟨⟨isU16_read p 0, ?_, length_field (by omega), length_field (by omega)⟩, ?_⟩
        · rw [hfid]
          exact hcap
        · simp only [fleetOpenPayload, hfid]
          rw [writeU16_read (by omega), writeU16_read (by omega),
            field_append p (4 + readU16 p 2) 32, field_append p 4 (readU16 p 2),
            field_append p 2 2, List.drop_zero, prefix_append p 2,
            List.take_of_length_le (by omega)]

theorem fleetOpen_roundTrips : RoundTrips .kFleetOpenConnection FleetOpenBounds
    fleetOpenConnectionFrame hdParseFleetOpenConnection readFleetOpenConnection := by
  refine .of_payload .kFleetOpenConnection fleetOpenPayload ?_ ?_ (fun f => fleetOpen_parse)
    (fun p f => fleetOpen_inv) readFleetOpenConnection_inside
  · intro f ⟨_, hfleet, hkey, hinner⟩
    rw [length_fleetOpenPayload hkey hinner]
    simp only [kHdMaxFleetIdLen] at hfleet
    simp only [kKeySize, kHdOpenConnSize, kHdMaxFramePayload]
    omega
  · intro f bufSize ⟨_, hfleet, hkey, hinner⟩
    rw [length_fleetOpenPayload hkey hinner, fleetOpenConnectionFrame, withKey_of_size hkey]
    unfold hdBuildFleetOpenConnection
    dsimp only
    rw [if_neg (by omega), if_neg (by omega)]
    split
    next hsmall => exact .inr ⟨hsmall, rfl⟩
    next => exact .inl (by simp only [fleetOpenPayload, List.append_assoc])

/-! ### Redirect -/

def RedirectBounds (outUrlSize : ℕ) (f : HdRedirect) : Prop :=
  f.url.length ≤ kHdRedirectMaxUrl ∧ f.url.length + 1 ≤ outUrlSize

def redirectFrame (_ : ℕ) (f : HdRedirect) : Option Bytes := hdBuildRedirect f.reason f.url

theorem redirect_parse {outUrlSize : ℕ} {f : HdRedirect} (h : RedirectBounds outUrlSize f) :
    hdParseRedirect (f.reason :: f.url) outUrlSize = some f := by
  obtain ⟨hmax, hroom⟩ := h
  unfold hdParseRedirect
  dsimp only
  rw [List.length_cons, if_neg (by omega), Nat.add_sub_cancel, if_neg (by omega),
    if_neg (by omega)]
  simp

theorem redirect_inv {outUrlSize : ℕ} {f : HdRedirect} (h : hdParseRedirect p outUrlSize = some f) :
    RedirectBounds outUrlSize f ∧ f.reason :: f.url = p := by
  unfold hdParseRedirect at h
  dsimp only at h
  cases p with
  | nil => simp at h
  | cons reason url =>
    simp only [List.length_cons, Nat.add_sub_cancel] at h
    rw [if_neg (by omega)] at h
    split at h
    next => cases h
    next hmax =>
      split at h
      next => cases h
      next hroom =>
        cases h
        simp only [RedirectBounds, List.drop_succ_cons, List.drop_zero, List.take_length,
          List.getD_cons_zero, and_true]
        omega

theorem redirect_roundTrips (outUrlSize : ℕ) : RoundTrips .kRedirect (RedirectBounds outUrlSize)
    redirectFrame (fun p => hdParseRedirect p outUrlSize) (readRedirect outUrlSize) := by
  refine .of_payload .kRedirect (fun f => f.reason :: f.url) ?_ ?_ (fun f => redirect_parse)
    (fun p f => redirect_inv) (readRedirect_inside outUrlSize)
  · intro f ⟨hmax, _⟩
    simp only [kHdRedirectMaxUrl] at hmax
    simp only [List.length_cons, kHdMaxFramePayload]
    omega
  · intro f bufSize ⟨hmax, _⟩
    left
    rw [redirectFrame, hdBuildRedirect, if_neg (by omega), List.length_cons, Nat.add_comm 1,
      List.append_assoc, List.singleton_append]

/-! ### RouteAnnounce -/

def RouteBounds (entries : List (ℕ × ℕ)) : Prop := ∀ e ∈ entries, IsU16 e.1 ∧ e.2 < 256

theorem length_routeEntries (entries : List (ℕ × ℕ)) :
    (entries.flatMap routeEntry).length = entries.length * kHdRouteEntrySize := by
  induction entries with
  | nil => rfl
  | cons e entries ih =>
    simp only [List.flatMap_cons, List.length_append, routeEntry, length_writeU16, ih,
      List.length_cons, List.length_nil, kHdRouteEntrySize]
    omega

theorem routeEntries_read (entries : List (ℕ × ℕ)) (count : ℕ) (h : RouteBounds entries)
    (hcount : count ≤ entries.length) :
    ((List.range count).map fun i =>
      (readU16 (entries.flatMap routeEntry) (kHdRouteEntrySize * i),
        ((entries.flatMap routeEntry).getD (kHdRouteEntrySize * i + 2) 0).toNat)) =
      entries.take count := by
  induction entries generalizing count with
  | nil =>
    obtain rfl : count = 0 := by simpa using hcount
    rfl
  | cons e entries ih =>
    cases count with
    | zero => rfl
    | succ count =>
      obtain ⟨hid, hhops⟩ := h e (List.mem_cons_self ..)
      have hlen : (routeEntry e).length = 3 := by simp [routeEntry]
      rw [List.range_succ_eq_map, List.map_cons, List.map_map, List.take_succ_cons,
        List.flatMap_cons]
      congr 1
      · have hhead : (routeEntry e ++ entries.flatMap routeEntry).getD 2 0 = UInt8.ofNat e.2 := by
          simp [routeEntry]
        have hbyte : (UInt8.ofNat e.2).toNat = e.2 := by
          simp only [UInt8.toNat_ofNat']
          omega
        rw [Nat.mul_zero, Nat.zero_add, hhead, hbyte, routeEntry, List.append_assoc,
          readU16_write _ hid]
      · refine (List.map_congr_left ?_).trans
          (ih count (fun z hz => h z (List.mem_cons_of_mem _ hz)) (by simpa using hcount))
        intro i _
        have hoff : kHdRouteEntrySize * i.succ = kHdRouteEntrySize * i + 3 := rfl
        simp only [Function.comp_apply, hoff]
        rw [readU16_skip _ (by omega), hlen, Nat.add_sub_cancel]
        have hbyte : (routeEntry e ++ entries.flatMap routeEntry).getD
            (kHdRouteEntrySize * i + 3 + 2) 0 =
              (entries.flatMap routeEntry).getD (kHdRouteEntrySize * i + 2) 0 := by
          rw [List.getD_eq_getElem?_getD, List.getD_eq_getElem?_getD,
            List.getElem?_append_right (by omega), hlen]
          rfl
        rw [hbyte]

theorem routeAnnounce_parse {entries : List (ℕ × ℕ)} (maxOut : ℕ) (h : RouteBounds entries) :
    hdParseRouteAnnounce (entries.flatMap routeEntry) maxOut = entries.take maxOut := by
  have hwhole : (entries.flatMap routeEntry).length / kHdRouteEntrySize = entries.length := by
    rw [length_routeEntries, Nat.mul_div_cancel _ (by decide)]
  rw [hdParseRouteAnnounce, hwhole, routeEntries_read _ _ h (Nat.min_le_left _ _)]
  rcases Nat.le_total entries.length maxOut with hle | hle
  · rw [Nat.min_eq_left hle, List.take_length, List.take_of_length_le hle]
  · rw [Nat.min_eq_right hle]

theorem routeAnnounce_inv (p : Bytes) (maxOut : ℕ) :
    RouteBounds (hdParseRouteAnnounce p maxOut) ∧
      (hdParseRouteAnnounce p maxOut).length = min (p.length / kHdRouteEntrySize) maxOut ∧
      (hdParseRouteAnnounce p maxOut).flatMap routeEntry =
        p.take (kHdRouteEntrySize * (hdParseRouteAnnounce p maxOut).length) := by
  have hcount : (hdParseRouteAnnounce p maxOut).length =
      min (p.length / kHdRouteEntrySize) maxOut := by
    simp [hdParseRouteAnnounce]
  refine ⟨?_, hcount, ?_⟩
  · intro e he
    obtain ⟨i, _, rfl⟩ := List.mem_map.mp he
    exact ⟨isU16_read p _, UInt8.toNat_lt _⟩
  · rw [hcount, hdParseRouteAnnounce, List.flatMap_map]
    generalize hn : min (p.length / kHdRouteEntrySize) maxOut = count
    have hfit : count * 3 ≤ p.length := by
      have hdiv := Nat.div_mul_le_self p.length kHdRouteEntrySize
      simp only [kHdRouteEntrySize] at hdiv hn
      omega
    have hall := field_array p 0 3 count
    rw [List.drop_zero, Nat.mul_comm] at hall
    rw [kHdRouteEntrySize, ← hall]
    apply List.flatMap_congr
    intro i hi
    have hi' := List.mem_range.mp hi
    have hoff : 0 + i * 3 = 3 * i := by omega
    simp only [routeEntry, UInt8.ofNat_toNat]
    rw [hoff, writeU16_read (by omega), field_byte (by omega), field_append]

/-- `RoundTrips` for the one parser that accepts every payload: it takes whole
entries, as many as the output arrays hold. -/
structure RouteRoundTrips : Prop where
  builds : ∀ entries bufSize,
    kHdFrameHeaderSize + entries.length * kHdRouteEntrySize ≤ bufSize →
    ∃ frame, hdBuildRouteAnnounce bufSize entries = some frame
  parse_build : ∀ entries bufSize frame maxOut, RouteBounds entries →
    hdBuildRouteAnnounce bufSize entries = some frame →
    hdParseRouteAnnounce (frame.drop kHdFrameHeaderSize) maxOut = entries.take maxOut
  build_parse : ∀ p maxOut bufSize, kHdFrameHeaderSize + p.length ≤ bufSize →
    RouteBounds (hdParseRouteAnnounce p maxOut) ∧
    (hdParseRouteAnnounce p maxOut).length = min (p.length / kHdRouteEntrySize) maxOut ∧
    ∃ frame, hdBuildRouteAnnounce bufSize (hdParseRouteAnnounce p maxOut) = some frame ∧
      frame.drop kHdFrameHeaderSize =
        p.take (kHdRouteEntrySize * (hdParseRouteAnnounce p maxOut).length)
  inside : ∀ maxOut, Inside (readRouteAnnounce maxOut) fun p => hdParseRouteAnnounce p maxOut

theorem routeAnnounce_builds {entries : List (ℕ × ℕ)} {bufSize : ℕ}
    (h : kHdFrameHeaderSize + entries.length * kHdRouteEntrySize ≤ bufSize) :
    hdBuildRouteAnnounce bufSize entries = some (hdWriteFrameHeader .kRouteAnnounce
      (entries.length * kHdRouteEntrySize) ++ entries.flatMap routeEntry) := by
  rw [hdBuildRouteAnnounce, if_neg (by omega)]

theorem routeAnnounce_roundTrips : RouteRoundTrips where
  builds entries bufSize h := ⟨_, routeAnnounce_builds h⟩
  parse_build entries bufSize frame maxOut hentries h := by
    have hfit : kHdFrameHeaderSize + entries.length * kHdRouteEntrySize ≤ bufSize := by
      by_contra hsmall
      rw [hdBuildRouteAnnounce, if_pos (by omega)] at h
      cases h
    rw [routeAnnounce_builds hfit] at h
    cases h
    rw [drop_header]
    exact routeAnnounce_parse maxOut hentries
  build_parse p maxOut bufSize hbuf := by
    obtain ⟨hbounds, hcount, hbytes⟩ := routeAnnounce_inv p maxOut
    have hfit : (hdParseRouteAnnounce p maxOut).length * kHdRouteEntrySize ≤ p.length := by
      have hdiv := Nat.div_mul_le_self p.length kHdRouteEntrySize
      have hmin := Nat.mul_le_mul_right kHdRouteEntrySize
        (Nat.min_le_left (p.length / kHdRouteEntrySize) maxOut)
      rw [hcount]
      omega
    refine ⟨hbounds, hcount, _, routeAnnounce_builds (by omega), ?_⟩
    rw [drop_header, hbytes]
  inside := readRouteAnnounce_inside

/-- Every routing frame parses back to its fields, every accepted payload is what
the builder writes for the parsed fields, and no parser leaves its payload. -/
theorem routing_frames_round_trip :
    RouteRoundTrips ∧
    RoundTrips .kOpenConnection OpenConnectionBounds openConnectionFrame
      hdParseOpenConnection readOpenConnection ∧
    RoundTrips .kOpenConnectionResult OpenResultBounds openConnectionResultFrame
      hdParseOpenConnectionResult readOpenConnectionResult ∧
    RoundTrips .kIncomingConnection IncomingConnectionBounds incomingConnectionFrame
      hdParseIncomingConnection readIncomingConnection ∧
    RoundTrips .kIncomingConnResponse (fun f => IsU64 f.correlationId) incomingConnResponseFrame
      hdParseIncomingConnResponse readIncomingConnResponse ∧
    RoundTrips .kIncomingConnResult IncomingConnResultBounds incomingConnResultFrame
      hdParseIncomingConnResult readIncomingConnResult ∧
    RoundTrips .kFleetOpenConnection FleetOpenBounds fleetOpenConnectionFrame
      hdParseFleetOpenConnection readFleetOpenConnection ∧
    RoundTrips .kFleetOpenConnectionResult OpenResultBounds fleetOpenConnectionResultFrame
      hdParseOpenConnectionResult readOpenConnectionResult ∧
    ∀ outUrlSize, RoundTrips .kRedirect (RedirectBounds outUrlSize) redirectFrame
      (fun p => hdParseRedirect p outUrlSize) (readRedirect outUrlSize) :=
  ⟨routeAnnounce_roundTrips, openConnection_roundTrips, openResult_roundTrips _,
    incomingConnection_roundTrips, incomingConnResponse_roundTrips,
    incomingConnResult_roundTrips, fleetOpen_roundTrips, openResult_roundTrips _,
    redirect_roundTrips⟩

end HyperDerp
