import HyperDerp.HdPeers

/-!
# Routing policy resolver (`hd_resolver.h`, `hd_resolver.cc`)

Modes are bits: 1 direct, 2 relayed. Each layer allows a set of modes and may
pin an intent; the first pin in layer order wins over the client's intent.
-/

namespace HyperDerp

def kModeDirect : Byte := 0x01
def kModeRelayed : Byte := 0x02
def kModeAny : Byte := kModeDirect ||| kModeRelayed

structure HdLayerView where
  allowed : Byte := kModeAny
  pinnedIntent : Option HdIntent := none

structure HdClientView where
  intent : HdIntent := .kPreferDirect
  allowUpgrade : Bool := true
  allowDowngrade : Bool := true
  deriving DecidableEq

def hdClientView (intent : HdIntent) (flags : Byte) : HdClientView :=
  { intent := intent
    allowUpgrade := hasFlag flags kHdFlagAllowUpgrade
    allowDowngrade := hasFlag flags kHdFlagAllowDowngrade }

structure HdDecision where
  mode : HdConnMode := .kDenied
  denyReason : HdDenyReason := .kNone
  subReason : Byte := 0
  resolvedIntent : HdIntent := .kPreferDirect
  deriving DecidableEq

def intentNeed (intent : HdIntent) : Byte :=
  if intent = .kRequireDirect then kModeDirect
  else if intent = .kRequireRelay then kModeRelayed
  else kModeAny

def intentPreferred (intent : HdIntent) : HdConnMode :=
  if intent = .kPreferDirect ∨ intent = .kRequireDirect then .kDirect else .kRelayed

/-- `HdResolve` (`hd_resolver.cc:42-134`). -/
def hdResolve (fleet federation relay peer : HdLayerView) (client : HdClientView)
    (canDirect : Bool) (targetRelayId : ℕ) : HdDecision :=
  if targetRelayId ≠ 0 then { denyReason := .kFleetRoutingNotImplemented }
  else
    let allowed := fleet.allowed &&& federation.allowed &&& relay.allowed &&& peer.allowed
    let pin := fleet.pinnedIntent <|> federation.pinnedIntent <|> relay.pinnedIntent <|>
      peer.pinnedIntent
    let effective := pin.getD client.intent
    if canDirect = false ∧ effective = .kRequireDirect then
      { denyReason := .kNatIncompatible, resolvedIntent := effective }
    else
      let allowed := if canDirect then allowed else allowed &&& ~~~kModeDirect
      let feasible := allowed &&& intentNeed effective
      if feasible = 0 then
        { denyReason := .kPolicyForbids
          subReason := if pin.isSome then UInt8.ofNat HdDenyReason.kPeerOverride else 0
          resolvedIntent := effective }
      else
        let preferred := intentPreferred effective
        let prefBit := if preferred = .kDirect then kModeDirect else kModeRelayed
        { mode :=
            if feasible &&& prefBit ≠ 0 then preferred
            else if feasible &&& kModeDirect ≠ 0 then .kDirect
            else .kRelayed
          resolvedIntent := effective }

def hdBuildRelayView (policy : HdRelayPolicy) : HdLayerView :=
  let a := if policy.forbidDirect then kModeAny &&& ~~~kModeDirect else kModeAny
  { allowed := if policy.forbidRelayed then a &&& ~~~kModeRelayed else a }

def hdBuildFleetView (policy : HdFleetPolicy) : HdLayerView :=
  let a := if policy.allowDirect then kModeAny else kModeAny &&& ~~~kModeDirect
  { allowed := if policy.allowRelayed then a else a &&& ~~~kModeRelayed }

def hdApplyPeerPolicyIntent (policy : HdPeerPolicy) (wireIntent : HdIntent) : HdIntent :=
  if policy.hasPin && policy.overrideClient then policy.pinnedIntent else wireIntent

def hdBuildPeerView (policy : HdPeerPolicy) (effectiveIntent : HdIntent) : HdLayerView :=
  let v : HdLayerView :=
    if effectiveIntent = .kRequireDirect ∨ effectiveIntent = .kRequireRelay then
      { pinnedIntent := some effectiveIntent }
    else if effectiveIntent = .kPreferRelay then { allowed := kModeRelayed }
    else {}
  if policy.hasPin && !policy.overrideClient then
    if policy.pinnedIntent = .kRequireRelay ∨ policy.pinnedIntent = .kPreferRelay then
      { v with allowed := v.allowed &&& kModeRelayed }
    else if policy.pinnedIntent = .kRequireDirect ∨ policy.pinnedIntent = .kPreferDirect then
      { v with allowed := v.allowed &&& kModeDirect }
    else v
  else v

end HyperDerp
