import HyperDerp.HdPeers
import HyperDerp.Lib.Text

/-!
# Live-mutable configuration (`einheit_channel.cc:816-1008`)

The nine paths that `set` and `delete` accept, their validators, appliers and
defaults. A validator returns the text of its error, empty on success; an applier
that throws returns `none`.
-/

namespace HyperDerp

namespace Config

open Text (utf8 readInteger)

/-! ### Numbers of the standard library -/

/-- `std::stoi(v, &pos)`: the value and `pos`; `none` if it throws. -/
def stoi (v : Bytes) : Option (ℤ × ℕ) :=
  match readInteger v with
  | none => none
  | some (neg, n, pos) =>
    let x : ℤ := if neg then -n else n
    if -2 ^ 31 ≤ x ∧ x < 2 ^ 31 then some (x, pos) else none

/-- `std::stoull(v, &pos)`; a negative number wraps around. -/
def stoull (v : Bytes) : Option (ℕ × ℕ) :=
  match readInteger v with
  | none => none
  | some (neg, n, pos) =>
    if n < 2 ^ 64 then some (if neg then (2 ^ 64 - n) % 2 ^ 64 else n, pos) else none

inductive LogLevel where
  | trace
  | debug
  | info
  | warn
  | err
  | critical
  | off
  deriving DecidableEq

/-- The fields of the server that the appliers write, with the defaults of their structs. -/
structure Live where
  logLevel : LogLevel := .info
  enrollMode : HdEnrollMode := .kManual
  defaultMode : HdIntent := .kPreferDirect
  forbidDirect : Bool := false
  forbidRelayed : Bool := false
  maxDirectPeers : ℤ := 0
  auditRelayedTraffic : Bool := true
  localFleetId : Bytes := []
  peerRateLimit : ℕ := 0
  deriving DecidableEq

/-! ### Validators -/

def validateBool (v : Bytes) : Bytes :=
  if v = utf8 "true" ∨ v = utf8 "false" then [] else utf8 "expected true|false"

def validateIntNonNegative (v : Bytes) : Bytes :=
  match stoi v with
  | none => utf8 "expected integer"
  | some (x, pos) =>
    if pos ≠ v.length then utf8 "expected integer"
    else if x < 0 then utf8 "expected non-negative integer"
    else []

def validateUint64 (v : Bytes) : Bytes :=
  match stoull v with
  | none => utf8 "expected non-negative integer"
  | some (_, pos) => if pos ≠ v.length then utf8 "expected integer" else []

def validateAnyString (_ : Bytes) : Bytes := []

def logLevelOf (v : Bytes) : Option LogLevel :=
  if v = utf8 "trace" then some .trace
  else if v = utf8 "debug" then some .debug
  else if v = utf8 "info" then some .info
  else if v = utf8 "warn" then some .warn
  else if v = utf8 "error" then some .err
  else if v = utf8 "critical" then some .critical
  else if v = utf8 "off" then some .off
  else none

def validateLogLevel (v : Bytes) : Bytes :=
  if (logLevelOf v).isSome then [] else utf8 "expected trace|debug|info|warn|error|critical|off"

def validateEnrollMode (v : Bytes) : Bytes :=
  if v = utf8 "auto" ∨ v = utf8 "manual" then [] else utf8 "expected auto|manual"

def intentOf (v : Bytes) : Option HdIntent :=
  if v = utf8 "prefer_direct" then some .kPreferDirect
  else if v = utf8 "require_direct" then some .kRequireDirect
  else if v = utf8 "prefer_relay" then some .kPreferRelay
  else if v = utf8 "require_relay" then some .kRequireRelay
  else none

def validateIntent (v : Bytes) : Bytes :=
  if (intentOf v).isSome then []
  else utf8 "expected prefer_direct|require_direct|prefer_relay|require_relay"

/-! ### Appliers -/

def applyLogLevel (s : Live) (v : Bytes) : Live :=
  match logLevelOf v with
  | none => s
  | some level => { s with logLevel := level }

def applyEnrollMode (s : Live) (v : Bytes) : Live :=
  { s with enrollMode := if v = utf8 "auto" then .kAutoApprove else .kManual }

def applyForbidDirect (s : Live) (v : Bytes) : Live :=
  { s with forbidDirect := decide (v = utf8 "true") }

def applyForbidRelayed (s : Live) (v : Bytes) : Live :=
  { s with forbidRelayed := decide (v = utf8 "true") }

def applyMaxDirectPeers (s : Live) (v : Bytes) : Option Live :=
  (stoi v).map fun x => { s with maxDirectPeers := x.1 }

def applyAuditRelayedTraffic (s : Live) (v : Bytes) : Live :=
  { s with auditRelayedTraffic := decide (v = utf8 "true") }

def applyRelayDefaultMode (s : Live) (v : Bytes) : Live :=
  match intentOf v with
  | none => s
  | some mode => { s with defaultMode := mode }

def applyFleetId (s : Live) (v : Bytes) : Live := { s with localFleetId := v }

def applyPeerRateLimit (s : Live) (v : Bytes) : Option Live :=
  (stoull v).map fun x => { s with peerRateLimit := x.1 }

/-! ### The table -/

inductive ConfigPath where
  | logLevel
  | enrollMode
  | defaultMode
  | forbidDirect
  | forbidRelayed
  | maxDirectPeers
  | auditRelayedTraffic
  | fleetId
  | peerRateLimit
  deriving DecidableEq

def ConfigPath.all : List ConfigPath :=
  [.logLevel, .enrollMode, .defaultMode, .forbidDirect, .forbidRelayed, .maxDirectPeers,
    .auditRelayedTraffic, .fleetId, .peerRateLimit]

def ConfigPath.name : ConfigPath → Bytes
  | .logLevel => utf8 "log_level"
  | .enrollMode => utf8 "hd.enroll_mode"
  | .defaultMode => utf8 "hd.relay_policy.default_mode"
  | .forbidDirect => utf8 "hd.relay_policy.forbid_direct"
  | .forbidRelayed => utf8 "hd.relay_policy.forbid_relayed"
  | .maxDirectPeers => utf8 "hd.relay_policy.max_direct_peers"
  | .auditRelayedTraffic => utf8 "hd.relay_policy.audit_relayed_traffic"
  | .fleetId => utf8 "hd.federation.fleet_id"
  | .peerRateLimit => utf8 "peer_rate_limit"

structure ConfigPathDef where
  validate : Bytes → Bytes
  apply : Live → Bytes → Option Live
  defaultValue : Bytes

/-- `ConfigPaths().at(p)`; which paths need the registry's lock is left out. -/
def ConfigPath.row : ConfigPath → ConfigPathDef
  | .logLevel => ⟨validateLogLevel, fun s v => some (applyLogLevel s v), utf8 "info"⟩
  | .enrollMode => ⟨validateEnrollMode, fun s v => some (applyEnrollMode s v), utf8 "manual"⟩
  | .defaultMode =>
    ⟨validateIntent, fun s v => some (applyRelayDefaultMode s v), utf8 "prefer_direct"⟩
  | .forbidDirect => ⟨validateBool, fun s v => some (applyForbidDirect s v), utf8 "false"⟩
  | .forbidRelayed => ⟨validateBool, fun s v => some (applyForbidRelayed s v), utf8 "false"⟩
  | .maxDirectPeers => ⟨validateIntNonNegative, applyMaxDirectPeers, utf8 "0"⟩
  | .auditRelayedTraffic =>
    ⟨validateBool, fun s v => some (applyAuditRelayedTraffic s v), utf8 "true"⟩
  | .fleetId => ⟨validateAnyString, fun s v => some (applyFleetId s v), []⟩
  | .peerRateLimit => ⟨validateUint64, applyPeerRateLimit, utf8 "0"⟩

/-- `ConfigPaths().find(path)`. -/
def findPath (path : Bytes) : Option ConfigPath :=
  ConfigPath.all.find? fun p => decide (p.name = path)

/-! ### What a path holds -/

inductive ConfigValue where
  | level (level : LogLevel)
  | mode (mode : HdEnrollMode)
  | intent (intent : HdIntent)
  | flag (flag : Bool)
  | count (n : ℤ)
  | text (text : Bytes)
  | rate (n : ℕ)
  deriving DecidableEq

def Live.get (s : Live) : ConfigPath → ConfigValue
  | .logLevel => .level s.logLevel
  | .enrollMode => .mode s.enrollMode
  | .defaultMode => .intent s.defaultMode
  | .forbidDirect => .flag s.forbidDirect
  | .forbidRelayed => .flag s.forbidRelayed
  | .maxDirectPeers => .count s.maxDirectPeers
  | .auditRelayedTraffic => .flag s.auditRelayedTraffic
  | .fleetId => .text s.localFleetId
  | .peerRateLimit => .rate s.peerRateLimit

def ConfigPath.Accepts (p : ConfigPath) (v : Bytes) : Prop := p.row.validate v = []

instance (p : ConfigPath) (v : Bytes) : Decidable (p.Accepts v) :=
  inferInstanceAs (Decidable (_ = _))

def ConfigPath.setting (p : ConfigPath) (v : Bytes) : ConfigValue :=
  ((p.row.apply {} v).getD {}).get p

def ConfigPath.default (p : ConfigPath) : ConfigValue := p.setting p.row.defaultValue

variable {p q : ConfigPath} {path v : Bytes} {s s' : Live}

theorem ConfigPath.mem_all (p : ConfigPath) : p ∈ ConfigPath.all := by
  cases p <;> decide

theorem findPath_name (p : ConfigPath) : findPath p.name = some p := by
  cases p <;> decide

theorem findPath_some (h : findPath path = some p) : p.name = path := by
  have hp := List.find?_some h
  exact of_decide_eq_true hp

theorem name_injective (h : p.name = q.name) : p = q := by
  have hp := findPath_name p
  rw [h, findPath_name q, Option.some.injEq] at hp
  exact hp.symm

theorem Live.ext_get (h : ∀ p, s.get p = s'.get p) : s = s' := by
  have h1 := h .logLevel
  have h2 := h .enrollMode
  have h3 := h .defaultMode
  have h4 := h .forbidDirect
  have h5 := h .forbidRelayed
  have h6 := h .maxDirectPeers
  have h7 := h .auditRelayedTraffic
  have h8 := h .fleetId
  have h9 := h .peerRateLimit
  cases s
  cases s'
  simp_all [Live.get]

theorem default_accepted (p : ConfigPath) : p.Accepts p.row.defaultValue := by
  cases p <;> decide

theorem stoi_of_accepted (h : validateIntNonNegative v = []) : ∃ x, stoi v = some x := by
  unfold validateIntNonNegative at h
  split at h
  · exact absurd h (by decide)
  · next x pos heq => exact ⟨_, heq⟩

theorem stoull_of_accepted (h : validateUint64 v = []) : ∃ x, stoull v = some x := by
  unfold validateUint64 at h
  split at h
  · exact absurd h (by decide)
  · next x pos heq => exact ⟨_, heq⟩

theorem level_of_accepted (h : validateLogLevel v = []) : ∃ x, logLevelOf v = some x := by
  unfold validateLogLevel at h
  split at h
  · next hs => exact Option.isSome_iff_exists.1 hs
  · exact absurd h (by decide)

theorem intent_of_accepted (h : validateIntent v = []) : ∃ x, intentOf v = some x := by
  unfold validateIntent at h
  split at h
  · next hs => exact Option.isSome_iff_exists.1 hs
  · exact absurd h (by decide)

theorem apply_accepted (h : p.Accepts v) (s : Live) :
    ∃ s', p.row.apply s v = some s' ∧ s'.get p = p.setting v := by
  cases p with
  | logLevel =>
    obtain ⟨x, hx⟩ := level_of_accepted h
    exact ⟨_, rfl, by simp [ConfigPath.setting, ConfigPath.row, applyLogLevel, hx, Live.get]⟩
  | defaultMode =>
    obtain ⟨x, hx⟩ := intent_of_accepted h
    exact ⟨_, rfl, by simp [ConfigPath.setting, ConfigPath.row, applyRelayDefaultMode, hx, Live.get]⟩
  | maxDirectPeers =>
    obtain ⟨x, hx⟩ := stoi_of_accepted h
    exact ⟨{ s with maxDirectPeers := x.1 },
      by simp [ConfigPath.row, applyMaxDirectPeers, hx],
      by simp [ConfigPath.setting, ConfigPath.row, applyMaxDirectPeers, hx, Live.get]⟩
  | peerRateLimit =>
    obtain ⟨x, hx⟩ := stoull_of_accepted h
    exact ⟨{ s with peerRateLimit := x.1 },
      by simp [ConfigPath.row, applyPeerRateLimit, hx],
      by simp [ConfigPath.setting, ConfigPath.row, applyPeerRateLimit, hx, Live.get]⟩
  | enrollMode | forbidDirect | forbidRelayed | auditRelayedTraffic | fleetId =>
    exact ⟨_, rfl, rfl⟩

theorem apply_get_ne (h : p.row.apply s v = some s') (hq : q ≠ p) : s'.get q = s.get q := by
  have hlevel : ∀ q ≠ ConfigPath.logLevel, (applyLogLevel s v).get q = s.get q := by
    intro q hq
    unfold applyLogLevel
    split
    · rfl
    · cases q <;> first | rfl | exact absurd rfl hq
  have hmode : ∀ q ≠ ConfigPath.defaultMode, (applyRelayDefaultMode s v).get q = s.get q := by
    intro q hq
    unfold applyRelayDefaultMode
    split
    · rfl
    · cases q <;> first | rfl | exact absurd rfl hq
  cases p with
  | logLevel =>
    cases h
    exact hlevel q hq
  | defaultMode =>
    cases h
    exact hmode q hq
  | maxDirectPeers =>
    obtain ⟨x, -, rfl⟩ := Option.map_eq_some_iff.1 h
    cases q <;> first | rfl | exact absurd rfl hq
  | peerRateLimit =>
    obtain ⟨x, -, rfl⟩ := Option.map_eq_some_iff.1 h
    cases q <;> first | rfl | exact absurd rfl hq
  | enrollMode | forbidDirect | forbidRelayed | auditRelayedTraffic | fleetId =>
    cases h
    cases q <;> first | rfl | exact absurd rfl hq

end Config

end HyperDerp
