import HyperDerp.Lib.CheckedBytes
import HyperDerp.Protocol

/-!
# STUN codec (`stun.h`, `stun.cc`)

The parser is a reader with every access to the buffer spelled out. An integer in network
order is its bytes in memory: `htons` and `htonl` write big-endian bytes, `ntohs` and
`ntohl` read them.
-/

namespace HyperDerp.Stun

open CheckedBytes

def kStunHeaderSize : ℕ := 20
def kStunMagicCookie : ℕ := 0x2112A442
def kStunTransactionIdSize : ℕ := 12
def kStunBindingRequest : ℕ := 0x0001
def kStunBindingResponse : ℕ := 0x0101
def kStunBindingError : ℕ := 0x0111
def kStunAttrXorMappedAddress : ℕ := 0x0020
def kStunAttrUsername : ℕ := 0x0006
def kStunAttrMessageIntegrity : ℕ := 0x0008
def kStunAttrFingerprint : ℕ := 0x8028
def kStunAttrErrorCode : ℕ := 0x0009
def kStunAddrFamilyIPv4 : Byte := 0x01

structure StunMessage where
  type : ℕ := 0
  transactionId : Bytes := List.replicate kStunTransactionIdSize 0
  hasXorMapped : Bool := false
  xorMappedIp : ℕ := 0
  xorMappedPort : ℕ := 0
  hasUsername : Bool := false
  username : Bytes := List.replicate 256 0
  usernameLen : ℕ := 0
  hasIntegrity : Bool := false
  integrity : Bytes := List.replicate 20 0
  hasFingerprint : Bool := false
  fingerprint : ℕ := 0
  hasError : Bool := false
  errorCode : ℕ := 0
  errorReason : Bytes := List.replicate 128 0
  errorReasonLen : ℕ := 0

def padTo4 (len : ℕ) : ℕ := (len + 3) / 4 * 4

/-- `memcpy` of a string and its terminator to the front of a field. -/
def copyString (field s : Bytes) : Bytes := s ++ [0] ++ field.drop (s.length + 1)

/-! ### Parsing -/

def parseXorMappedAddress (val valLen : ℕ) (msg : StunMessage) : Reader StunMessage :=
  if valLen < 8 then pure msg
  else do
    let family ← byte (val + 1)
    if family ≠ kStunAddrFamilyIPv4 then pure msg
    else do
      let port ← word (val + 2) 2
      let ip ← word (val + 4) 4
      pure { msg with hasXorMapped := true, xorMappedPort := port, xorMappedIp := ip }

def parseErrorCode (val valLen : ℕ) (msg : StunMessage) : Reader StunMessage :=
  if valLen < 4 then pure msg
  else do
    let errorClass ← byte (val + 2)
    let errorNumber ← byte (val + 3)
    let msg := { msg with
      hasError := true
      errorCode := (errorClass &&& 0x07).toNat * 100 + errorNumber.toNat }
    if valLen - 4 = 0 then pure msg
    else do
      let copyLen := min (valLen - 4) 127
      let reason ← bytes (val + 4) copyLen
      pure { msg with
        errorReason := copyString msg.errorReason reason
        errorReasonLen := copyLen }

def parseUsername (val valLen : ℕ) (msg : StunMessage) : Reader StunMessage :=
  if valLen = 0 then pure msg
  else do
    let copyLen := min valLen 255
    let name ← bytes val copyLen
    pure { msg with
      username := copyString msg.username name
      usernameLen := copyLen
      hasUsername := true }

def parseAttr (attrType val attrLen : ℕ) (msg : StunMessage) : Reader StunMessage :=
  if attrType = kStunAttrXorMappedAddress then parseXorMappedAddress val attrLen msg
  else if attrType = kStunAttrUsername then parseUsername val attrLen msg
  else if attrType = kStunAttrMessageIntegrity then
    if attrLen = 20 then do
      let mac ← bytes val 20
      pure { msg with integrity := mac, hasIntegrity := true }
    else pure msg
  else if attrType = kStunAttrFingerprint then
    if attrLen = 4 then do
      let crc ← word val 4
      pure { msg with fingerprint := crc, hasFingerprint := true }
    else pure msg
  else if attrType = kStunAttrErrorCode then parseErrorCode val attrLen msg
  else pure msg

/-- The loop over the attributes between `offset` and `stop`. -/
def walkAttrs (stop offset : ℕ) (msg : StunMessage) : Reader StunMessage :=
  if offset + 4 ≤ stop then do
    let attrType ← word offset 2
    let attrLen ← word (offset + 2) 2
    if stop < offset + 4 + attrLen then pure msg
    else do
      let msg ← parseAttr attrType (offset + 4) attrLen msg
      walkAttrs stop (offset + 4 + padTo4 attrLen) msg
  else pure msg
termination_by stop - offset

/-- `StunParse` of a buffer of `len` bytes: the return value and the message left. -/
def stunParse (msg : StunMessage) (len : ℕ) : Reader (Bool × StunMessage) :=
  if len < kStunHeaderSize then pure (false, msg)
  else do
    let first ← byte 0
    if first &&& 0xC0 ≠ 0 then pure (false, msg)
    else do
      let type ← word 0 2
      let msg := { msg with type := type }
      let payloadLen ← word 2 2
      let cookie ← word 4 4
      if cookie ≠ kStunMagicCookie then pure (false, msg)
      else if len < kStunHeaderSize + payloadLen then pure (false, msg)
      else do
        let txnId ← bytes 8 kStunTransactionIdSize
        let msg ← walkAttrs (kStunHeaderSize + payloadLen) kStunHeaderSize
          { msg with transactionId := txnId }
        pure (true, msg)

/-! ### Building -/

/-- An integer of `n` bytes in network order, or a transaction id. -/
abbrev NetBytes (n : ℕ) := { bs : Bytes // bs.length = n }

abbrev TxnId := NetBytes kStunTransactionIdSize

def xorBytes (xs ys : Bytes) : Bytes := List.zipWith (· ^^^ ·) xs ys

/-- `htons(0x2112)` and `htonl(kStunMagicCookie)`. -/
def portMask : Bytes := BigEndian.bytes 2 0x2112
def addrMask : Bytes := BigEndian.bytes 4 kStunMagicCookie

def writeStunHeader (type payloadLen : ℕ) (txnId : TxnId) : Bytes :=
  BigEndian.bytes 2 type ++ BigEndian.bytes 2 payloadLen ++
    BigEndian.bytes 4 kStunMagicCookie ++ txnId.val

def stunBuildBindingResponse (bufSize : ℕ) (txnId : TxnId) (clientIp : NetBytes 4)
    (clientPort : NetBytes 2) : Option Bytes :=
  if bufSize < 32 then none
  else some (writeStunHeader kStunBindingResponse 12 txnId ++
    BigEndian.bytes 2 kStunAttrXorMappedAddress ++ BigEndian.bytes 2 8 ++
    [0x00, kStunAddrFamilyIPv4] ++
    BigEndian.bytes 2 (BigEndian.val (xorBytes clientPort.val portMask)) ++
    BigEndian.bytes 4 (BigEndian.val (xorBytes clientIp.val addrMask)))

/-- `reason` is the string up to its terminator; a null pointer is the empty one. -/
def stunBuildErrorResponse (bufSize : ℕ) (txnId : TxnId) (errorCode : ℕ) (reason : Bytes) :
    Option Bytes :=
  let attrValueLen := 4 + reason.length
  let paddedValueLen := padTo4 attrValueLen
  let attrTotal := 4 + paddedValueLen
  if bufSize < kStunHeaderSize + attrTotal then none
  else some (writeStunHeader kStunBindingError attrTotal txnId ++
    BigEndian.bytes 2 kStunAttrErrorCode ++ BigEndian.bytes 2 attrValueLen ++ [0x00, 0x00] ++
    [UInt8.ofNat (errorCode / 100), UInt8.ofNat (errorCode % 100)] ++ reason ++
    List.replicate (paddedValueLen - attrValueLen) 0)

def stunDecodeXorAddress (xorPort xorAddr : Bytes) : Bytes × Bytes :=
  (xorBytes xorPort portMask, xorBytes xorAddr addrMask)

/-! ### Every access is inside the buffer -/

variable {p : Bytes} {msg : StunMessage} {val len : ℕ}

def Safe {A : Type} (p : Bytes) (r : Reader A) : Prop := ∃ a, r.run p = some a

theorem safe_pure {A : Type} (a : A) : Safe p (pure a) := ⟨a, rfl⟩

theorem Safe.bind {A B : Type} {r : Reader A} {k : A → Reader B} (h : Safe p r)
    (hk : ∀ a, Safe p (k a)) : Safe p (r >>= k) := by
  obtain ⟨a, ha⟩ := h
  obtain ⟨b, hb⟩ := hk a
  exact ⟨b, (run_bind ha).trans hb⟩

theorem safe_byte {off : ℕ} (h : off < p.length) : Safe p (byte off) := ⟨_, run_byte h⟩

theorem safe_bytes {off n : ℕ} (h : off + n ≤ p.length) : Safe p (bytes off n) := ⟨_, run_bytes h⟩

theorem safe_word {off n : ℕ} (h : off + n ≤ p.length) : Safe p (word off n) := ⟨_, run_word h⟩

theorem parseXorMappedAddress_safe (h : val + len ≤ p.length) :
    Safe p (parseXorMappedAddress val len msg) := by
  unfold parseXorMappedAddress
  split
  · exact safe_pure msg
  · apply (safe_byte (by omega)).bind
    intro family
    split
    · exact safe_pure msg
    · apply (safe_word (by omega)).bind
      intro port
      apply (safe_word (by omega)).bind
      exact fun ip => safe_pure _

theorem parseErrorCode_safe (h : val + len ≤ p.length) : Safe p (parseErrorCode val len msg) := by
  unfold parseErrorCode
  split
  · exact safe_pure msg
  · apply (safe_byte (by omega)).bind
    intro errorClass
    apply (safe_byte (by omega)).bind
    intro errorNumber
    dsimp only
    split
    · exact safe_pure _
    · apply (safe_bytes (by omega)).bind
      exact fun reason => safe_pure _

theorem parseUsername_safe (h : val + len ≤ p.length) : Safe p (parseUsername val len msg) := by
  unfold parseUsername
  split
  · exact safe_pure msg
  · apply (safe_bytes (by omega)).bind
    exact fun name => safe_pure _

theorem parseAttr_safe (attrType : ℕ) (h : val + len ≤ p.length) :
    Safe p (parseAttr attrType val len msg) := by
  unfold parseAttr
  split
  · exact parseXorMappedAddress_safe h
  · split
    · exact parseUsername_safe h
    · split
      · split
        · apply (safe_bytes (by omega)).bind
          exact fun mac => safe_pure _
        · exact safe_pure msg
      · split
        · split
          · apply (safe_word (by omega)).bind
            exact fun crc => safe_pure _
          · exact safe_pure msg
        · split
          · exact parseErrorCode_safe h
          · exact safe_pure msg

theorem walkAttrs_safe {stop : ℕ} (hstop : stop ≤ p.length) (offset : ℕ) (msg : StunMessage) :
    Safe p (walkAttrs stop offset msg) := by
  induction hn : stop - offset using Nat.strong_induction_on generalizing offset msg with
  | _ n ih =>
    rw [walkAttrs]
    split
    · apply (safe_word (by omega)).bind
      intro attrType
      apply (safe_word (by omega)).bind
      intro attrLen
      split
      · exact safe_pure msg
      · apply (parseAttr_safe attrType (by omega)).bind
        intro msg
        exact ih _ (by omega) _ msg rfl
    · exact safe_pure msg

theorem stunParse_safe (msg : StunMessage) (p : Bytes) : Safe p (stunParse msg p.length) := by
  unfold stunParse
  split
  · exact safe_pure _
  · next hlen =>
    unfold kStunHeaderSize at hlen
    apply (safe_byte (by omega)).bind
    intro first
    split
    · exact safe_pure _
    · apply (safe_word (by omega)).bind
      intro type
      apply (safe_word (by omega)).bind
      intro payloadLen
      apply (safe_word (by omega)).bind
      intro cookie
      dsimp only
      split
      · exact safe_pure _
      · split
        · exact safe_pure _
        · next hfit =>
          apply (safe_bytes (by unfold kStunTransactionIdSize; omega)).bind
          intro txnId
          apply (walkAttrs_safe (by omega) _ _).bind
          exact fun msg => safe_pure _

/-! ### Messages of one attribute -/

theorem field_mid {a b c : Bytes} {off n : ℕ} (ha : a.length = off) (hb : b.length = n) :
    ((a ++ b ++ c).drop off).take n = b := by
  rw [List.append_assoc, List.drop_left' ha, List.take_left' hb]

theorem le_padTo4 (n : ℕ) : n ≤ padTo4 n ∧ padTo4 n ≤ n + 3 := by
  unfold padTo4
  omega

theorem length_header (type payloadLen : ℕ) (txnId : TxnId) :
    (writeStunHeader type payloadLen txnId).length = kStunHeaderSize := by
  have htxn := txnId.property
  unfold kStunTransactionIdSize at htxn
  simp [writeStunHeader, kStunHeaderSize, htxn]

def oneAttr (type attrType : ℕ) (txnId : TxnId) (value : Bytes) : Bytes :=
  writeStunHeader type (4 + padTo4 value.length) txnId ++ BigEndian.bytes 2 attrType ++
    BigEndian.bytes 2 value.length ++ value ++
    List.replicate (padTo4 value.length - value.length) 0

variable {type attrType : ℕ} {txnId : TxnId} {value : Bytes}

theorem length_oneAttr :
    (oneAttr type attrType txnId value).length = 24 + padTo4 value.length := by
  have hpad := le_padTo4 value.length
  simp only [oneAttr, List.length_append, length_header, BigEndian.length_bytes,
    List.length_replicate, kStunHeaderSize]
  omega

theorem oneAttr_value {off n : ℕ} (h : off + n ≤ value.length) :
    ((oneAttr type attrType txnId value).drop (24 + off)).take n = (value.drop off).take n := by
  have hlen : (writeStunHeader type (4 + padTo4 value.length) txnId ++
      BigEndian.bytes 2 attrType ++ BigEndian.bytes 2 value.length).length = 24 := by
    simp [length_header, kStunHeaderSize]
  unfold oneAttr
  rw [← List.drop_drop, List.append_assoc _ value, List.drop_left' hlen,
    List.drop_append_of_le_length (by omega), List.take_append_of_le_length]
  rw [List.length_drop]
  omega

theorem stunParse_oneAttr (htype : UInt8.ofNat (type / 256) &&& 0xC0 = 0) (hlt : type < 2 ^ 16)
    (hattr : attrType < 2 ^ 16) (hlen : value.length < 2 ^ 15) {msg : StunMessage}
    (hmsg : (parseAttr attrType 24 value.length
      { type := type, transactionId := txnId.val }).run (oneAttr type attrType txnId value) =
        some msg) :
    (stunParse {} (oneAttr type attrType txnId value).length).run
      (oneAttr type attrType txnId value) = some (true, msg) := by
  obtain ⟨hpad, hpad3⟩ := le_padTo4 value.length
  have htxn := txnId.property
  have hplen : (oneAttr type attrType txnId value).length = 24 + padTo4 value.length :=
    length_oneAttr
  generalize hp : oneAttr type attrType txnId value = p at hmsg hplen ⊢
  have hchunks : p = BigEndian.bytes 2 type ++ (BigEndian.bytes 2 (4 + padTo4 value.length) ++
      (BigEndian.bytes 4 kStunMagicCookie ++ (txnId.val ++ (BigEndian.bytes 2 attrType ++
        (BigEndian.bytes 2 value.length ++ (value ++
          List.replicate (padTo4 value.length - value.length) 0)))))) := by
    rw [← hp]
    simp [oneAttr, writeStunHeader]
  have hfirst : (byte 0).run p = some (UInt8.ofNat (type / 256)) := by
    rw [hchunks]
    simp [byte, ReaderT.run, BigEndian.bytes]
  have hrtype : (word 0 2).run p = some type := by
    rw [run_word (by omega), hchunks, List.drop_zero, List.take_left' (by simp),
      BigEndian.val_bytes_of_lt (by omega)]
  have hrlen : (word 2 2).run p = some (4 + padTo4 value.length) := by
    rw [run_word (by omega), hchunks, List.drop_left' (by simp), List.take_left' (by simp),
      BigEndian.val_bytes_of_lt (by omega)]
  have hrcookie : (word 4 4).run p = some kStunMagicCookie := by
    rw [run_word (by omega), hchunks, ← List.append_assoc, List.drop_left' (by simp),
      List.take_left' (by simp), BigEndian.val_bytes_of_lt (by decide)]
  have hrtxn : (bytes 8 kStunTransactionIdSize).run p = some txnId.val := by
    rw [run_bytes (by unfold kStunTransactionIdSize; omega), hchunks, ← List.append_assoc,
      ← List.append_assoc, List.drop_left' (by simp), List.take_left' htxn]
  have hhead : (BigEndian.bytes 2 type ++ BigEndian.bytes 2 (4 + padTo4 value.length) ++
      BigEndian.bytes 4 kStunMagicCookie ++ txnId.val).length = 20 := by
    simp only [List.length_append, BigEndian.length_bytes, htxn, kStunTransactionIdSize]
  have hrattr : (word 20 2).run p = some attrType := by
    rw [run_word (by omega), hchunks, ← List.append_assoc, ← List.append_assoc,
      ← List.append_assoc, List.drop_left' hhead, List.take_left' (by simp),
      BigEndian.val_bytes_of_lt (by omega)]
  have hrattrLen : (word 22 2).run p = some value.length := by
    have hhead2 : (BigEndian.bytes 2 type ++ BigEndian.bytes 2 (4 + padTo4 value.length) ++
        BigEndian.bytes 4 kStunMagicCookie ++ txnId.val ++ BigEndian.bytes 2 attrType).length =
          22 := by
      rw [List.length_append, hhead, BigEndian.length_bytes]
    rw [run_word (by omega), hchunks, ← List.append_assoc, ← List.append_assoc,
      ← List.append_assoc, ← List.append_assoc, List.drop_left' hhead2, List.take_left' (by simp),
      BigEndian.val_bytes_of_lt (by omega)]
  have hend : ∀ m : StunMessage, (walkAttrs (20 + (4 + padTo4 value.length))
      (20 + 4 + padTo4 value.length) m).run p = some m := by
    intro m
    rw [walkAttrs, if_neg (by omega), run_pure]
  have hwalk : (walkAttrs (20 + (4 + padTo4 value.length)) 20
      { type := type, transactionId := txnId.val }).run p = some msg := by
    rw [walkAttrs, if_pos (by omega), run_bind hrattr, run_bind hrattrLen, if_neg (by omega),
      run_bind hmsg, hend]
  unfold stunParse kStunHeaderSize
  rw [if_neg (by omega), run_bind hfirst, if_neg (not_not.mpr htype), run_bind hrtype,
    run_bind hrlen, run_bind hrcookie, if_neg (not_not.mpr rfl), if_neg (by omega),
    run_bind hrtxn, run_bind hwalk, run_pure]

/-! ### Round trips -/

theorem length_xorBytes {xs ys : Bytes} (h : xs.length = ys.length) :
    (xorBytes xs ys).length = xs.length := by
  rw [xorBytes, List.length_zipWith, h, Nat.min_self]

theorem xorBytes_cancel {xs ys : Bytes} (h : xs.length = ys.length) :
    xorBytes (xorBytes xs ys) ys = xs := by
  induction xs generalizing ys with
  | nil => rfl
  | cons x xs ih =>
    cases ys with
    | nil => cases h
    | cons y ys =>
      have hx : x ^^^ y ^^^ y = x := by rw [UInt8.xor_assoc, UInt8.xor_self, UInt8.xor_zero]
      have hxs := ih (Nat.succ.inj h)
      unfold xorBytes at hxs ⊢
      rw [List.zipWith_cons_cons, List.zipWith_cons_cons, hx, hxs]

def mappedValue (clientIp : NetBytes 4) (clientPort : NetBytes 2) : Bytes :=
  [0x00, kStunAddrFamilyIPv4] ++ xorBytes clientPort.val portMask ++
    xorBytes clientIp.val addrMask

section

variable (clientIp : NetBytes 4) (clientPort : NetBytes 2)

theorem length_xorPort : (xorBytes clientPort.val portMask).length = 2 := by
  rw [length_xorBytes] <;> simp [clientPort.property, portMask]

theorem length_xorAddr : (xorBytes clientIp.val addrMask).length = 4 := by
  rw [length_xorBytes] <;> simp [clientIp.property, addrMask]

theorem length_mappedValue : (mappedValue clientIp clientPort).length = 8 := by
  simp [mappedValue, length_xorPort, length_xorAddr]

theorem stunBuildBindingResponse_eq {bufSize : ℕ} (hbuf : 32 ≤ bufSize) (txnId : TxnId) :
    stunBuildBindingResponse bufSize txnId clientIp clientPort =
      some (oneAttr kStunBindingResponse kStunAttrXorMappedAddress txnId
        (mappedValue clientIp clientPort)) := by
  unfold stunBuildBindingResponse oneAttr
  rw [if_neg (by omega), BigEndian.bytes_val_of_length (length_xorPort clientPort),
    BigEndian.bytes_val_of_length (length_xorAddr clientIp), length_mappedValue]
  simp [mappedValue, padTo4]

def mappedMessage (txnId : TxnId) : StunMessage where
  type := kStunBindingResponse
  transactionId := txnId.val
  hasXorMapped := true
  xorMappedPort := BigEndian.val (xorBytes clientPort.val portMask)
  xorMappedIp := BigEndian.val (xorBytes clientIp.val addrMask)

theorem bindingResponse_roundtrip {bufSize : ℕ} (hbuf : 32 ≤ bufSize) (txnId : TxnId) :
    ∃ built msg, stunBuildBindingResponse bufSize txnId clientIp clientPort = some built ∧
      (stunParse {} built.length).run built = some (true, msg) ∧
      msg.type = kStunBindingResponse ∧ msg.transactionId = txnId.val ∧
      msg.hasXorMapped = true ∧
      stunDecodeXorAddress (BigEndian.bytes 2 msg.xorMappedPort)
        (BigEndian.bytes 4 msg.xorMappedIp) = (clientPort.val, clientIp.val) := by
  have hlen := length_mappedValue clientIp clientPort
  have hport := length_xorPort clientPort
  have haddr := length_xorAddr clientIp
  refine ⟨_, mappedMessage clientIp clientPort txnId,
    stunBuildBindingResponse_eq clientIp clientPort hbuf txnId, ?_, rfl, rfl, rfl, ?_⟩
  · apply stunParse_oneAttr
    · decide
    · decide
    · decide
    · omega
    · have hplen : (oneAttr kStunBindingResponse kStunAttrXorMappedAddress txnId
          (mappedValue clientIp clientPort)).length = 32 := by
        rw [length_oneAttr, hlen]
        rfl
      have hfield : ∀ off n, off + n ≤ 8 →
          ((oneAttr kStunBindingResponse kStunAttrXorMappedAddress txnId
            (mappedValue clientIp clientPort)).drop (24 + off)).take n =
          ((mappedValue clientIp clientPort).drop off).take n := fun off n h =>
        oneAttr_value (by omega)
      generalize oneAttr kStunBindingResponse kStunAttrXorMappedAddress txnId
        (mappedValue clientIp clientPort) = p at hplen hfield ⊢
      have hfamily : (byte 25).run p = some kStunAddrFamilyIPv4 := by
        have h1 := hfield 1 1 (by omega)
        rw [← field_byte (by omega)] at h1
        rw [run_byte (by omega)]
        exact congrArg some (List.cons.inj h1).1
      have hrport : (word 26 2).run p =
          some (BigEndian.val (xorBytes clientPort.val portMask)) := by
        have hpre : ([0x00, kStunAddrFamilyIPv4] : Bytes).length = 2 := rfl
        rw [run_word (by omega), hfield 2 2 (by omega), mappedValue, field_mid hpre hport]
      have hraddr : (word 28 4).run p =
          some (BigEndian.val (xorBytes clientIp.val addrMask)) := by
        rw [run_word (by omega), hfield 4 4 (by omega), mappedValue, List.drop_left' (by simp [hport]),
          List.take_of_length_le (by omega)]
      rw [hlen]
      unfold parseAttr parseXorMappedAddress
      rw [if_pos rfl, if_neg (by omega), run_bind hfamily, if_neg (not_not.mpr rfl),
        run_bind hrport, run_bind hraddr, run_pure]
      rfl
  · unfold stunDecodeXorAddress mappedMessage
    dsimp only
    rw [BigEndian.bytes_val_of_length hport, BigEndian.bytes_val_of_length haddr,
      xorBytes_cancel (by rw [clientPort.property]; rfl),
      xorBytes_cancel (by rw [clientIp.property]; rfl)]

end

def errorValue (errorCode : ℕ) (reason : Bytes) : Bytes :=
  [0x00, 0x00, UInt8.ofNat (errorCode / 100), UInt8.ofNat (errorCode % 100)] ++ reason

theorem length_errorValue (errorCode : ℕ) (reason : Bytes) :
    (errorValue errorCode reason).length = 4 + reason.length := by
  rw [errorValue, List.length_append]
  rfl

theorem stunBuildErrorResponse_eq {bufSize errorCode : ℕ} {reason : Bytes}
    (hbuf : 24 + padTo4 (4 + reason.length) ≤ bufSize) (txnId : TxnId) :
    stunBuildErrorResponse bufSize txnId errorCode reason =
      some (oneAttr kStunBindingError kStunAttrErrorCode txnId (errorValue errorCode reason)) := by
  unfold stunBuildErrorResponse oneAttr kStunHeaderSize
  dsimp only
  rw [if_neg (by omega), length_errorValue]
  simp [errorValue]

theorem errorClass_masked {k : ℕ} (h : k < 8) : (UInt8.ofNat k &&& 0x07).toNat = k := by
  have hall : ∀ k < 8, (UInt8.ofNat k &&& 0x07).toNat = k := by decide
  exact hall k h

def errorMessage (txnId : TxnId) (errorCode : ℕ) (reason : Bytes) : StunMessage where
  type := kStunBindingError
  transactionId := txnId.val
  hasError := true
  errorCode := errorCode
  errorReason :=
    if reason = [] then List.replicate 128 0 else copyString (List.replicate 128 0) reason
  errorReasonLen := reason.length

theorem errorMessage_reason (txnId : TxnId) (errorCode : ℕ) (reason : Bytes) :
    (errorMessage txnId errorCode reason).errorReason.take (reason.length + 1) =
      reason ++ [0] := by
  unfold errorMessage
  dsimp only
  split
  · next hnil =>
    rw [hnil]
    rfl
  · rw [copyString, List.take_left' (by simp)]

theorem errorResponse_roundtrip {bufSize errorCode : ℕ} {reason : Bytes}
    (hcode : 300 ≤ errorCode ∧ errorCode ≤ 699) (hreason : reason.length ≤ 127)
    (hbuf : 24 + padTo4 (4 + reason.length) ≤ bufSize) (txnId : TxnId) :
    ∃ built msg, stunBuildErrorResponse bufSize txnId errorCode reason = some built ∧
      (stunParse {} built.length).run built = some (true, msg) ∧
      msg.type = kStunBindingError ∧ msg.transactionId = txnId.val ∧ msg.hasError = true ∧
      msg.errorCode = errorCode ∧ msg.errorReasonLen = reason.length ∧
      msg.errorReason.take (msg.errorReasonLen + 1) = reason ++ [0] := by
  have hlen := length_errorValue errorCode reason
  obtain ⟨hpad, hpad3⟩ := le_padTo4 (errorValue errorCode reason).length
  have hclass : (UInt8.ofNat (errorCode / 100) &&& 0x07).toNat * 100 +
      (UInt8.ofNat (errorCode % 100)).toNat = errorCode := by
    rw [errorClass_masked (by omega), UInt8.toNat_ofNat']
    omega
  refine ⟨_, errorMessage txnId errorCode reason, stunBuildErrorResponse_eq hbuf txnId, ?_, rfl,
    rfl, rfl, rfl, rfl, errorMessage_reason txnId errorCode reason⟩
  apply stunParse_oneAttr
  · decide
  · decide
  · decide
  · omega
  · have hplen : (oneAttr kStunBindingError kStunAttrErrorCode txnId
        (errorValue errorCode reason)).length = 24 + padTo4 (errorValue errorCode reason).length :=
      length_oneAttr
    have hfield : ∀ off n, off + n ≤ 4 + reason.length →
        ((oneAttr kStunBindingError kStunAttrErrorCode txnId
          (errorValue errorCode reason)).drop (24 + off)).take n =
        ((errorValue errorCode reason).drop off).take n := fun off n h =>
      oneAttr_value (by omega)
    generalize oneAttr kStunBindingError kStunAttrErrorCode txnId
      (errorValue errorCode reason) = p at hplen hfield ⊢
    have hrclass : (byte 26).run p = some (UInt8.ofNat (errorCode / 100)) := by
      have h1 := hfield 2 1 (by omega)
      rw [← field_byte (by omega)] at h1
      rw [run_byte (by omega)]
      exact congrArg some (List.cons.inj h1).1
    have hrnumber : (byte 27).run p = some (UInt8.ofNat (errorCode % 100)) := by
      have h1 := hfield 3 1 (by omega)
      rw [← field_byte (by omega)] at h1
      rw [run_byte (by omega)]
      exact congrArg some (List.cons.inj h1).1
    have hrreason : (bytes 28 reason.length).run p = some reason := by
      have hpre : ([0x00, 0x00, UInt8.ofNat (errorCode / 100),
        UInt8.ofNat (errorCode % 100)] : Bytes).length = 4 := rfl
      rw [run_bytes (by omega), hfield 4 reason.length (by omega), errorValue,
        List.drop_left' hpre, List.take_length]
    have hcopy : min (4 + reason.length - 4) 127 = reason.length := by omega
    rw [hlen]
    unfold parseAttr parseErrorCode
    rw [if_neg (by decide), if_neg (by decide), if_neg (by decide), if_neg (by decide), if_pos rfl,
      if_neg (by omega), run_bind hrclass, run_bind hrnumber]
    dsimp only
    rw [hclass, hcopy]
    split
    · next hzero =>
      have hnil : reason = [] := List.eq_nil_of_length_eq_zero (by omega)
      rw [hnil, run_pure]
      rfl
    · next hsome =>
      have hne : reason ≠ [] := by
        rintro rfl
        exact hsome rfl
      rw [run_bind hrreason, run_pure, errorMessage, if_neg hne]

end HyperDerp.Stun
