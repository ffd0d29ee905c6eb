import HyperDerp.HdResolver
import HyperDerp.HdPeers
import HyperDerp.Lib.Lines
import HyperDerp.Lib.Rotation
import HyperDerp.Lib.Text

/-!
# The audit ring and its flusher (`hd_audit.cc`, `hd_audit.h`)

A call of `HdAuditRecordDecision` is the increment of the index and then one store
for each field; the calls are not ordered among themselves. A pass of `FlushOnce` is
a step for its start, one for each turn of its loop and one for its end.
-/

namespace HyperDerp

namespace HdDenyReason
def kPairForbids : HdDenyReason := 0x0002
def kIntentConflict : HdDenyReason := 0x0101
def kRegionPolicyViolation : HdDenyReason := 0x0301
end HdDenyReason

namespace Audit

open Text (utf8)

/-! ### Records -/

def kHdAuditRingSize : ℕ := 4096

@[ext]
structure HdAuditRecord where
  tsNs : ℕ := 0
  clientKey : Key := zeroKey
  targetKey : Key := zeroKey
  clientIntent : HdIntent := .kPreferDirect
  mode : HdConnMode := .kDenied
  denyReason : HdDenyReason := .kNone
  subReason : Byte := 0
  allowUpgrade : Bool := true
  allowDowngrade : Bool := true
  layerAllowed : Fin 5 → Byte := fun _ => 0

/-- What `HdAuditRecordDecision` stores. -/
def hdAuditRecord (nowNs : ℕ) (clientKey targetKey : Key) (client : HdClientView)
    (decision : HdDecision) (layerAllowed : Fin 5 → Byte) : HdAuditRecord where
  tsNs := nowNs
  clientKey := clientKey
  targetKey := targetKey
  clientIntent := client.intent
  mode := decision.mode
  denyReason := decision.denyReason
  subReason := decision.subReason
  allowUpgrade := client.allowUpgrade
  allowDowngrade := client.allowDowngrade
  layerAllowed := layerAllowed

def kStores : ℕ := 14

def storeLayer (i : Fin 5) (src slot : HdAuditRecord) : HdAuditRecord :=
  { slot with layerAllowed := Function.update slot.layerAllowed i (src.layerAllowed i) }

/-- Store `k` of a call that records `src`. -/
def store (k : ℕ) (src slot : HdAuditRecord) : HdAuditRecord :=
  match k with
  | 0 => { slot with tsNs := src.tsNs }
  | 1 => { slot with clientKey := src.clientKey }
  | 2 => { slot with targetKey := src.targetKey }
  | 3 => { slot with clientIntent := src.clientIntent }
  | 4 => { slot with mode := src.mode }
  | 5 => { slot with denyReason := src.denyReason }
  | 6 => { slot with subReason := src.subReason }
  | 7 => { slot with allowUpgrade := src.allowUpgrade }
  | 8 => { slot with allowDowngrade := src.allowDowngrade }
  | 9 => storeLayer 0 src slot
  | 10 => storeLayer 1 src slot
  | 11 => storeLayer 2 src slot
  | 12 => storeLayer 3 src slot
  | 13 => storeLayer 4 src slot
  | _ => slot

/-- A slot after the first `k` stores. -/
def stored : ℕ → HdAuditRecord → HdAuditRecord → HdAuditRecord
  | 0, _, slot => slot
  | k + 1, src, slot => store k src (stored k src slot)

/-! ### `HdAuditToJson` -/

/-- `gmtime_r` and `strftime` with the format of `FormatTs`. -/
structure Calendar where
  utc : ℕ → Bytes

def formatTs (cal : Calendar) (ns : ℕ) : Bytes :=
  let ms := ns % 1000000000 / 1000000
  cal.utc (ns / 1000000000) ++
    [0x2e, Text.digit (ms / 100), Text.digit (ms / 10 % 10), Text.digit (ms % 10), 0x5a]

def intentName (i : HdIntent) : Bytes :=
  if i = .kPreferDirect then utf8 "prefer_direct"
  else if i = .kRequireDirect then utf8 "require_direct"
  else if i = .kPreferRelay then utf8 "prefer_relay"
  else if i = .kRequireRelay then utf8 "require_relay"
  else utf8 "unknown"

def modeName (m : HdConnMode) : Bytes :=
  if m = .kDenied then utf8 "denied"
  else if m = .kDirect then utf8 "direct"
  else if m = .kRelayed then utf8 "relayed"
  else utf8 "unknown"

def denyNames : List (HdDenyReason × Bytes) :=
  [(.kNone, []), (.kPolicyForbids, utf8 "policy_forbids"), (.kPairForbids, utf8 "pair_forbids"),
    (.kPeerUnreachable, utf8 "peer_unreachable"),
    (.kTargetUnresponsive, utf8 "target_unresponsive"),
    (.kTooManyOpenConns, utf8 "too_many_open_conns"),
    (.kFleetRoutingNotImplemented, utf8 "fleet_routing_not_implemented"),
    (.kIntentConflict, utf8 "intent_conflict"), (.kPeerOverride, utf8 "peer_override"),
    (.kDirectCapExceeded, utf8 "direct_cap_exceeded"),
    (.kRegionPolicyViolation, utf8 "region_policy_violation"),
    (.kFederationDenied, utf8 "federation_denied"),
    (.kNatIncompatible, utf8 "nat_incompatible")]

def denyName (r : HdDenyReason) : Bytes :=
  match denyNames.find? fun e => decide (e.1 = r) with
  | some e => e.2
  | none => utf8 "unknown"

def allowedList (direct relayed : Bool) : Bytes :=
  [0x5b] ++ (if direct then utf8 "\"direct\"" else []) ++
    (if relayed then (if direct then utf8 "," else []) ++ utf8 "\"relayed\"" else []) ++ [0x5d]

def appendAllowed (allowed : Byte) : Bytes :=
  allowedList (hasFlag allowed kModeDirect) (hasFlag allowed kModeRelayed)

def kNames : Fin 5 → Bytes
  | 0 => utf8 "fleet"
  | 1 => utf8 "federation"
  | 2 => utf8 "relay"
  | 3 => utf8 "peer"
  | 4 => utf8 "client"

def comma (i : Fin 5) : Bytes := if i = 0 then [] else utf8 ","

def chainEntry (record : HdAuditRecord) (i : Fin 5) : Bytes :=
  comma i ++ [0x7b] ++ utf8 "\"layer\":\"" ++ kNames i ++ utf8 "\",\"allowed\":" ++
    appendAllowed (record.layerAllowed i) ++ [0x7d]

def boolName (b : Bool) : Bytes := if b then utf8 "true" else utf8 "false"

def reasonField (r : HdDenyReason) : Bytes :=
  if r ≠ .kNone then utf8 ",\"reason\":\"" ++ denyName r ++ utf8 "\"" else []

def hdAuditToJson (cal : Calendar) (record : HdAuditRecord) : Bytes :=
  [0x7b] ++ utf8 "\"ts\":\"" ++ formatTs cal record.tsNs ++ utf8 "\"" ++
    utf8 ",\"client\":\"" ++ keyToCkString record.clientKey ++ utf8 "\"" ++
    utf8 ",\"target\":\"" ++ keyToCkString record.targetKey ++ utf8 "\"" ++
    utf8 ",\"intent\":\"" ++ intentName record.clientIntent ++ utf8 "\"" ++
    utf8 ",\"decision\":\"" ++ modeName record.mode ++ utf8 "\"" ++
    reasonField record.denyReason ++
    utf8 ",\"allow_upgrade\":" ++ boolName record.allowUpgrade ++
    utf8 ",\"allow_downgrade\":" ++ boolName record.allowDowngrade ++
    utf8 ",\"chain\":[" ++ (List.finRange 5).flatMap (chainEntry record) ++ [0x5d] ++ [0x7d]

/-! ### State -/

/-- A call of `HdAuditRecordDecision` that has its number and some of its stores to do. -/
structure Writer where
  seq : ℕ
  record : HdAuditRecord
  done : ℕ

/-- The configuration of `HdAuditFlusherStart`. -/
structure HdAuditFlusher where
  maxBytes : ℕ
  keep : ℤ

/-- `keep > 0 ? keep : 10`. -/
def HdAuditFlusher.kept (f : HdAuditFlusher) : ℕ := if 0 < f.keep then f.keep.toNat else 10

/-- File 0 is the active one, file `i` has the suffix `.i`. `recorded` and `unlinked` are
history: the decisions by number, and what the unlinked files held. -/
structure State where
  slots : ℕ → HdAuditRecord := fun _ => {}
  writeIdx : ℕ := 0
  flushIdx : ℕ := 0
  writers : List Writer := []
  /-- `write_idx` and `flush_idx` as a running pass has them. -/
  pass : Option (ℕ × ℕ) := none
  files : Rotation.Files Bytes := fun _ => none
  fd : Bool := false
  currentBytes : ℕ := 0
  recorded : List HdAuditRecord := []
  unlinked : List Bytes := []

/-! ### Files -/

def rotateFiles (f : HdAuditFlusher) (s : State) : State :=
  { s with
    files := Rotation.rotate f.kept s.files
    unlinked := s.unlinked ++ (s.files f.kept).toList }

def openForAppend (ok : Bool) (s : State) : State :=
  if ok then
    let content := (s.files 0).getD []
    { s with
      files := Function.update s.files 0 (some content)
      fd := true
      currentBytes := content.length }
  else { s with fd := false }

/-- How a turn of the loop goes: whether `open` succeeds after a rotation, and after how
many bytes of the line `write` fails, if it does. -/
structure Outcome where
  opens : Bool
  fails : Option ℕ

/-- The check against `max_bytes`. -/
def rotateIfFull (f : HdAuditFlusher) (o : Outcome) (line : Bytes) (s : State) : State :=
  if 0 < f.maxBytes ∧ s.fd = true ∧ f.maxBytes < s.currentBytes + line.length then
    openForAppend o.opens (rotateFiles f { s with fd := false })
  else s

def appendActive (bytes : Bytes) (s : State) : State :=
  { s with files := Function.update s.files 0 (some ((s.files 0).getD [] ++ bytes)) }

def leave (i : ℕ) (s : State) : State := { s with pass := none, flushIdx := i }

def writeItem (w i : ℕ) (o : Outcome) (line : Bytes) (s : State) : State :=
  if s.fd = false then leave i s
  else
    match o.fails with
    | some n => leave i (appendActive (line.dropLast.take n) s)
    | none =>
      { appendActive line s with
        currentBytes := s.currentBytes + line.length
        pass := some (w, i + 1) }

/-- A turn of the loop of `FlushOnce`. -/
def flushItem (cal : Calendar) (f : HdAuditFlusher) (w i : ℕ) (o : Outcome) (s : State) : State :=
  let line := hdAuditToJson cal (s.slots (i % kHdAuditRingSize)) ++ [0x0a]
  writeItem w i o line (rotateIfFull f o line s)

/-! ### Steps -/

inductive Label
  /-- `write_idx.fetch_add(1)` of a call that records `record`. -/
  | claim (record : HdAuditRecord)
  /-- The next store of call `seq`. -/
  | store (seq : ℕ)
  | beginPass
  | item (o : Outcome)
  | endPass

def Writer.next (w : Writer) : Writer := { w with done := w.done + 1 }

def advance (writers : List Writer) (w : Writer) : List Writer :=
  let rest := writers.filter fun v => decide (v.seq ≠ w.seq)
  if w.done + 1 < kStores then rest ++ [w.next] else rest

def step (cal : Calendar) (f : HdAuditFlusher) (s : State) : Label → Option State
  | .claim record =>
    some { s with
      writeIdx := s.writeIdx + 1
      writers := s.writers ++ [⟨s.writeIdx, record, 0⟩]
      recorded := s.recorded ++ [record] }
  | .store seq =>
    match s.writers.find? fun w => decide (w.seq = seq) with
    | none => none
    | some w =>
      let slot := w.seq % kHdAuditRingSize
      some { s with
        slots := Function.update s.slots slot (store w.done w.record (s.slots slot))
        writers := advance s.writers w }
  | .beginPass =>
    match s.pass with
    | some _ => none
    | none =>
      let i := if kHdAuditRingSize < s.writeIdx - s.flushIdx then s.writeIdx - kHdAuditRingSize
        else s.flushIdx
      some { s with pass := some (s.writeIdx, i) }
  | .item o =>
    match s.pass with
    | none => none
    | some (w, i) => if i < w then some (flushItem cal f w i o s) else none
  | .endPass =>
    match s.pass with
    | none => none
    | some (w, i) => if i < w then none else some (leave i s)

/-- `HdAuditInit`, then `HdAuditFlusherStart` where there is no file yet. -/
def start : State := openForAppend true {}

end Audit

end HyperDerp
