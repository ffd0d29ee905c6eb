import HyperDerp.KeyFormat
import HyperDerp.Lib.Text

/-!
# Fleet policy bundles (`fleet_controller.cc:60-146`, `:318-477`)

A bundle is a JSON text with a signed body in base64. The scanners of the source
are kept as they are: a field is the first occurrence of its quoted name, and a
pointer into a text is the suffix that it points at. The mutexes and atomics are
left out here, `Fleet.Revocations` brings the interleavings back.
-/

namespace HyperDerp

open Text (utf8 seek skipTo isDigit digitsValue)

def kSignPublicKeyBytes : ℕ := 32
def kSignBytes : ℕ := 64

namespace Bundle

def kQuote : Byte := 0x22
def kColon : Byte := 0x3a
def kBackslash : Byte := 0x5c

/-! ### Base64 -/

def b64Val (c : Byte) : Option UInt32 :=
  if 0x41 ≤ c ∧ c ≤ 0x5a then some (c.toUInt32 - 0x41)
  else if 0x61 ≤ c ∧ c ≤ 0x7a then some (c.toUInt32 - 0x61 + 26)
  else if 0x30 ≤ c ∧ c ≤ 0x39 then some (c.toUInt32 - 0x30 + 52)
  else if c = 0x2b then some 62
  else if c = 0x2f then some 63
  else none

/-- The loop of `B64Decode`; only the low bits of `held` are ever read. -/
def b64Loop : Bytes → ℕ → UInt32 → Option Bytes
  | [], _, _ => some []
  | c :: s, bits, held =>
    if c = 0x3d then some []
    else if c = 0x0a ∨ c = 0x0d ∨ c = 0x20 then b64Loop s bits held
    else
      match b64Val c with
      | none => none
      | some v =>
        let held := held <<< 6 ||| v
        if 8 ≤ bits + 6 then
          (b64Loop s (bits - 2) held).map ((held >>> (bits - 2).toUInt32).toUInt8 :: ·)
        else b64Loop s (bits + 6) held

def b64Decode (s : Bytes) : Option Bytes := b64Loop s 0 0

/-! ### Fields of a JSON text -/

def quoted (key : Bytes) : Bytes := kQuote :: key ++ [kQuote]

/-- `FindField`: what follows the name. -/
def findField (s key : Bytes) : Option Bytes :=
  (seek (quoted key) s).map (List.drop (quoted key).length)

def stringBody : Bytes → Option Bytes
  | [] => none
  | b :: s =>
    if b = kQuote then some []
    else if b = kBackslash then
      match s with
      | [] => none
      | e :: s => (stringBody s).map fun body => b :: e :: body
    else (stringBody s).map (b :: ·)

def extractString (json key : Bytes) : Option Bytes :=
  match findField json key with
  | none => none
  | some p =>
    match skipTo kQuote p with
    | [] => none
    | _ :: start => stringBody start

/-- `strtoll` on a text that begins with a sign or a digit. -/
def strtoll : Bytes → ℤ
  | [] => 0
  | c :: s =>
    if c = 0x2d then max (-2 ^ 63) (-(digitsValue s : ℤ))
    else min (2 ^ 63 - 1) (digitsValue (c :: s) : ℤ)

def extractInt (json key : Bytes) : Option ℤ :=
  match findField json key with
  | none => none
  | some p =>
    match p.dropWhile fun c => !(c == 0x2d || isDigit c) with
    | [] => none
    | c :: s => some (strtoll (c :: s))

/-! ### Controller -/

inductive FleetApplyStatus where
  | kOk
  | kBadSignature
  | kStaleVersion
  | kFleetMismatch
  | kParseError
  | kRevoked
  deriving DecidableEq

structure FleetControllerConfig where
  signingPubkeyB64 : Bytes := []
  fleetId : Bytes := []
  deriving DecidableEq

structure FleetPolicy extends HdFleetPolicy where
  requireRelayForCrossRegion : Bool := false

/-- The controller with what it reads and writes of its registry. -/
structure FleetController where
  config : FleetControllerConfig := {}
  relayId : ℕ := 0
  fleetPolicy : FleetPolicy := {}
  appliedVersion : ℤ := 0
  selfRevoked : Bool := false
  revokedPeers : List Bytes := []

/-- `take_bool`; a name without a colon or a truth value after it leaves the default. -/
def takeBool (inner key : Bytes) (dst : Bool) : Bool :=
  match seek (quoted key) inner with
  | none => dst
  | some idx =>
    match skipTo kColon idx with
    | [] => dst
    | _ :: p =>
      let p := p.dropWhile fun c => c == 0x20 || c == 0x09
      if p.take 4 = utf8 "true" then true else if p.take 5 = utf8 "false" then false else dst

def innerPolicy (inner : Bytes) : FleetPolicy :=
  { allowDirect := takeBool inner (utf8 "allow_direct") true
    allowRelayed := takeBool inner (utf8 "allow_relayed") true
    requireRelayForCrossRegion := takeBool inner (utf8 "require_relay_for_cross_region") false }

def applyInner (fc : FleetController) (inner : Bytes) : FleetController :=
  { fc with fleetPolicy := innerPolicy inner }

def scanPeers : ℕ → Bytes → List Bytes
  | 0, _ => []
  | fuel + 1, s =>
    match seek (quoted (utf8 "peer_fingerprint")) s with
    | none => []
    | some pos =>
      match skipTo kQuote (skipTo kColon pos) with
      | [] => []
      | _ :: value =>
        match skipTo kQuote value with
        | [] => []
        | _ :: rest => value.takeWhile (fun c => decide (c ≠ kQuote)) :: scanPeers fuel rest

def revocationsTail (inner : Bytes) : Option Bytes := seek (quoted (utf8 "revocations")) inner

def revokedFingerprints (inner : Bytes) : List Bytes :=
  match revocationsTail inner with
  | none => []
  | some tail => scanPeers tail.length tail

def revokesSelf (selfId : ℕ) (inner : Bytes) : Bool :=
  match revocationsTail inner with
  | none => false
  | some tail =>
    decide (selfId ≠ 0) &&
      ((seek (utf8 "\"relay_id\":" ++ Text.decimal selfId) tail).isSome ||
        (seek (utf8 "\"relay_id\": " ++ Text.decimal selfId) tail).isSome)

def applyRevocations (fc : FleetController) (inner : Bytes) : FleetController × Bool :=
  let peers := revokedFingerprints inner
  (if peers.isEmpty then fc else { fc with revokedPeers := peers }, revokesSelf fc.relayId inner)

/-! ### `FleetControllerApplyBundle` -/

structure Outer where
  signedB64 : Bytes
  sigB64 : Bytes
  fleetId : Bytes
  version : ℤ

def parseOuter (body : Bytes) : Option Outer := do
  let signedB64 ← extractString body (utf8 "signed_body_b64")
  let sigB64 ← extractString body (utf8 "signature_b64")
  let fleetId ← extractString body (utf8 "fleet_id")
  let version ← extractInt body (utf8 "version")
  return ⟨signedB64, sigB64, fleetId, version⟩

def verifyOuter (sodium : Sodium) (config : FleetControllerConfig) (outer : Outer) :
    Except FleetApplyStatus Bytes :=
  match b64Decode outer.signedB64, b64Decode outer.sigB64 with
  | some signed, some sig =>
    match b64Decode config.signingPubkeyB64 with
    | none => .error .kBadSignature
    | some pk =>
      if pk.length ≠ kSignPublicKeyBytes then .error .kBadSignature
      else if sig.length ≠ kSignBytes then .error .kBadSignature
      else if sodium.verifyDetached sig signed pk then .ok signed
      else .error .kBadSignature
  | _, _ => .error .kParseError

def innerMatches (inner : Bytes) (outer : Outer) : Bool :=
  decide (extractString inner (utf8 "fleet_id") = some outer.fleetId) &&
    decide (extractInt inner (utf8 "version") = some outer.version)

/-- Every check on a bundle, in the order of the source. -/
def checkBundle (sodium : Sodium) (fc : FleetController) (body : Bytes) :
    Except FleetApplyStatus (Bytes × ℤ) :=
  match parseOuter body with
  | none => .error .kParseError
  | some outer =>
    if outer.fleetId ≠ fc.config.fleetId then .error .kFleetMismatch
    else if outer.version ≤ fc.appliedVersion then .error .kStaleVersion
    else
      match verifyOuter sodium fc.config outer with
      | .error status => .error status
      | .ok inner =>
        if innerMatches inner outer then .ok (inner, outer.version) else .error .kParseError

def writeBundle (fc : FleetController) (inner : Bytes) : FleetController × Bool :=
  applyRevocations (applyInner fc inner) inner

def publish (fc : FleetController) (self : Bool) (version : ℤ) :
    FleetController × FleetApplyStatus :=
  if self then ({ fc with selfRevoked := true, appliedVersion := version }, .kRevoked)
  else ({ fc with appliedVersion := version }, .kOk)

def fleetControllerApplyBundle (sodium : Sodium) (fc : FleetController) (body : Bytes) :
    FleetController × FleetApplyStatus :=
  match checkBundle sodium fc body with
  | .error status => (fc, status)
  | .ok (inner, version) =>
    let (fc, self) := writeBundle fc inner
    publish fc self version

/-! ### What a bundle can change -/

/-- The signature of the bundle verifies over `inner` under the configured key. -/
def Authentic (sodium : Sodium) (config : FleetControllerConfig) (body inner : Bytes) : Prop :=
  ∃ signedB64 sigB64 sig pk,
    extractString body (utf8 "signed_body_b64") = some signedB64 ∧
    extractString body (utf8 "signature_b64") = some sigB64 ∧
    b64Decode signedB64 = some inner ∧ b64Decode sigB64 = some sig ∧
    b64Decode config.signingPubkeyB64 = some pk ∧
    pk.length = kSignPublicKeyBytes ∧ sig.length = kSignBytes ∧
    sodium.verifyDetached sig inner pk = true

def FleetApplyStatus.applied (status : FleetApplyStatus) : Bool :=
  decide (status = .kOk) || decide (status = .kRevoked)

variable {sodium : Sodium} {fc : FleetController} {config : FleetControllerConfig}
  {body inner : Bytes} {version : ℤ} {outer : Outer} {status : FleetApplyStatus}

theorem parseOuter_some (h : parseOuter body = some outer) :
    extractString body (utf8 "signed_body_b64") = some outer.signedB64 ∧
      extractString body (utf8 "signature_b64") = some outer.sigB64 := by
  simp only [parseOuter, Option.bind_eq_bind, Option.bind_eq_some_iff, Option.pure_def,
    Option.some.injEq] at h
  obtain ⟨signedB64, hsigned, sigB64, hsig, fleetId, -, version, -, rfl⟩ := h
  exact ⟨hsigned, hsig⟩

theorem verifyOuter_ok (h : verifyOuter sodium config outer = .ok inner) :
    ∃ sig pk, b64Decode outer.signedB64 = some inner ∧ b64Decode outer.sigB64 = some sig ∧
      b64Decode config.signingPubkeyB64 = some pk ∧
      pk.length = kSignPublicKeyBytes ∧ sig.length = kSignBytes ∧
      sodium.verifyDetached sig inner pk = true := by
  unfold verifyOuter at h
  split at h
  · next signed sig hsigned hsig =>
    split at h
    · cases h
    · next pk hpk =>
      split at h
      · cases h
      · next hlen =>
        split at h
        · cases h
        · next hsize =>
          split at h
          · next hv =>
            cases h
            exact ⟨sig, pk, hsigned, hsig, hpk, not_not.1 hlen, not_not.1 hsize, hv⟩
          · cases h
  · cases h

theorem checkBundle_ok (h : checkBundle sodium fc body = .ok (inner, version)) :
    Authentic sodium fc.config body inner ∧
      extractString inner (utf8 "fleet_id") = some fc.config.fleetId ∧
      extractInt inner (utf8 "version") = some version ∧ fc.appliedVersion < version := by
  unfold checkBundle at h
  split at h
  · cases h
  · next outer houter =>
    split at h
    · cases h
    · next hfleet =>
      split at h
      · cases h
      · next hstale =>
        split at h
        · cases h
        · next signed hsigned =>
          split at h
          · next hmatch =>
            cases h
            obtain ⟨hsignedB64, hsigB64⟩ := parseOuter_some houter
            obtain ⟨sig, pk, hverified⟩ := verifyOuter_ok hsigned
            simp only [innerMatches, Bool.and_eq_true, decide_eq_true_eq] at hmatch
            rw [not_not] at hfleet
            rw [hfleet] at hmatch
            exact ⟨⟨_, _, sig, pk, hsignedB64, hsigB64, hverified⟩, hmatch.1, hmatch.2,
              not_le.1 hstale⟩
          · cases h

theorem checkBundle_error (h : checkBundle sodium fc body = .error status) :
    status.applied = false := by
  unfold checkBundle verifyOuter at h
  grind [FleetApplyStatus.applied]

theorem publish_spec (fc : FleetController) (self : Bool) (version : ℤ) :
    (publish fc self version).1.appliedVersion = version ∧
      (publish fc self version).2.applied = true := by
  cases self <;> exact ⟨rfl, rfl⟩

theorem apply_rejected (h : checkBundle sodium fc body = .error status) :
    fleetControllerApplyBundle sodium fc body = (fc, status) := by
  unfold fleetControllerApplyBundle
  rw [h]

theorem apply_accepted (h : checkBundle sodium fc body = .ok (inner, version)) :
    fleetControllerApplyBundle sodium fc body =
      publish (writeBundle fc inner).1 (writeBundle fc inner).2 version := by
  unfold fleetControllerApplyBundle
  rw [h]

theorem apply_version_le (sodium : Sodium) (fc : FleetController) (body : Bytes) :
    fc.appliedVersion ≤ (fleetControllerApplyBundle sodium fc body).1.appliedVersion := by
  cases h : checkBundle sodium fc body with
  | error status => rw [apply_rejected h]
  | ok r =>
    rw [apply_accepted h, (publish_spec ..).1]
    exact (checkBundle_ok h).2.2.2.le

/-- The controller after a sequence of offered bundles. -/
def applyBundles (sodium : Sodium) (fc : FleetController) (bodies : List Bytes) :
    FleetController :=
  bodies.foldl (fun fc body => (fleetControllerApplyBundle sodium fc body).1) fc

theorem applyBundles_version_le (sodium : Sodium) (fc : FleetController) (bodies : List Bytes) :
    fc.appliedVersion ≤ (applyBundles sodium fc bodies).appliedVersion := by
  induction bodies generalizing fc with
  | nil => exact le_rfl
  | cons body bodies ih => exact (apply_version_le sodium fc body).trans (ih _)

/-- A bundle that is signed by the fleet and newer is applied and sets the version; any other
leaves the controller as it was. No sequence of bundles lowers the version. -/
theorem bundles_atomic_monotone (sodium : Sodium) :
    (∀ fc body,
      ((fleetControllerApplyBundle sodium fc body).2.applied = true ∧
        ∃ inner version, Authentic sodium fc.config body inner ∧
          extractInt inner (utf8 "version") = some version ∧ fc.appliedVersion < version ∧
          (fleetControllerApplyBundle sodium fc body).1.appliedVersion = version) ∨
      ((fleetControllerApplyBundle sodium fc body).2.applied = false ∧
        (fleetControllerApplyBundle sodium fc body).1 = fc)) ∧
    ∀ fc bodies more, (applyBundles sodium fc bodies).appliedVersion ≤
      (applyBundles sodium fc (bodies ++ more)).appliedVersion := by
  constructor
  · intro fc body
    cases h : checkBundle sodium fc body with
    | error status =>
      right
      rw [apply_rejected h]
      exact ⟨checkBundle_error h, rfl⟩
    | ok r =>
      left
      obtain ⟨hauth, -, hversion, hnewer⟩ := checkBundle_ok h
      rw [apply_accepted h]
      obtain ⟨hset, happlied⟩ := publish_spec (writeBundle fc r.1).1 (writeBundle fc r.1).2 r.2
      exact ⟨happlied, r.1, r.2, hauth, hversion, hnewer, hset⟩
  · intro fc bodies more
    have happend : applyBundles sodium fc (bodies ++ more) =
        applyBundles sodium (applyBundles sodium fc bodies) more := List.foldl_append ..
    rw [happend]
    exact applyBundles_version_le sodium _ more

end Bundle

end HyperDerp
