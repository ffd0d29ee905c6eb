import HyperDerp.HdProtocol
import HyperDerp.DataPlane.Types
import HyperDerp.Lib.FrontScan

/-!
# HD peer registry and federation policy (`hd_peers.h`, `hd_peers.cc`)

The registry is an array scanned from the front, beside it an array with the
routing policy of each slot, the denylist, the relay, fleet and federation
policies and the counter of direct tunnels. Forwarding rules and enrolment times
are left out. A `std::string` is its bytes.
-/

namespace HyperDerp

open LinearProbe (Occ)

inductive HdPeerState where
  | kPending
  | kApproved
  | kDenied
  deriving DecidableEq

inductive HdEnrollMode where
  | kManual
  | kAutoApprove
  deriving DecidableEq

def kHdMaxPeers : ℕ := 4096

structure HdPeer where
  key : Key := zeroKey
  fd : Fd := -1
  peerId : ℕ := 0
  state : HdPeerState := .kPending
  occupied : Occ := .empty

structure HdPeerPolicy where
  overrideClient : Bool := false
  hasPin : Bool := false
  pinnedIntent : HdIntent := .kPreferDirect
  auditTag : Bytes := []
  reason : Bytes := []
  deriving DecidableEq

structure HdRelayPolicy where
  forbidDirect : Bool := false
  forbidRelayed : Bool := false
  maxDirectPeers : ℤ := 0

structure HdFleetPolicy where
  allowDirect : Bool := true
  allowRelayed : Bool := true

structure HdFederationAccept where
  fleetId : Bytes
  allowedDestinations : List Bytes := []

structure HdFederationPolicy where
  localFleetId : Bytes := []
  acceptFrom : List HdFederationAccept := []
  rejectFrom : List Bytes := []

structure HdPeerRegistry where
  peers : Fin kHdMaxPeers → HdPeer := fun _ => {}
  peerCount : ℤ := 0
  enrollMode : HdEnrollMode := .kManual
  nextPeerId : ℕ := 1
  denylist : List Key := []
  policies : Fin kHdMaxPeers → HdPeerPolicy := fun _ => {}
  relayPolicy : HdRelayPolicy := {}
  fleetPolicy : HdFleetPolicy := {}
  federationPolicy : HdFederationPolicy := {}
  directInUse : ℤ := 0

/-! ### Lookups (`hd_peers.cc:162-229`) -/

def HdPeerRegistry.find (reg : HdPeerRegistry) (p : HdPeer → Bool) : Option (Fin kHdMaxPeers) :=
  (List.finRange kHdMaxPeers).find? fun i =>
    decide ((reg.peers i).occupied = .live) && p (reg.peers i)

def hdPeersLookupPolicy (reg : HdPeerRegistry) (key : Key) : Option HdPeerPolicy :=
  (reg.find fun p => decide (p.key = key)).map reg.policies

def hdPeersLookupById (reg : HdPeerRegistry) (peerId : ℕ) : Option HdPeer :=
  (reg.find fun p => decide (p.peerId = peerId)).map reg.peers

/-- `HdPeersInsert` (`hd_peers.cc:231-265`): an existing entry is left as it is;
peer ids are 16-bit and skip 0. -/
def hdPeersInsert (reg : HdPeerRegistry) (key : Key) (fd : Fd) : HdPeerRegistry :=
  if (reg.find fun p => decide (p.key = key)).isSome then reg
  else
    match (List.finRange kHdMaxPeers).find? fun i =>
        decide ((reg.peers i).occupied ≠ .live) with
    | none => reg
    | some i =>
      let next := (reg.nextPeerId + 1) % 2 ^ 16
      { reg with
        peers := Function.update reg.peers i
          { key := key
            fd := fd
            peerId := reg.nextPeerId
            state := if reg.enrollMode = .kAutoApprove then .kApproved else .kPending
            occupied := .live }
        peerCount := reg.peerCount + 1
        nextPeerId := if next = 0 then 1 else next }

/-! ### Admin operations (`hd_peers.cc:186-320`) -/

/-- `HdPeersLookup`: the slot of a registered key. -/
def hdPeersLookup (reg : HdPeerRegistry) (key : Key) : Option (Fin kHdMaxPeers) :=
  reg.find fun p => decide (p.key = key)

def HdPeerRegistry.setPeer (reg : HdPeerRegistry) (i : Fin kHdMaxPeers) (p : HdPeer) :
    HdPeerRegistry :=
  { reg with peers := Function.update reg.peers i p }

def HdPeerRegistry.setPolicy (reg : HdPeerRegistry) (i : Fin kHdMaxPeers) (pol : HdPeerPolicy) :
    HdPeerRegistry :=
  { reg with policies := Function.update reg.policies i pol }

/-- `none` when the key is not registered, as in the four functions below. -/
def hdPeersApprove (reg : HdPeerRegistry) (key : Key) : Option HdPeerRegistry :=
  (hdPeersLookup reg key).map fun i => reg.setPeer i { reg.peers i with state := .kApproved }

def hdPeersDeny (reg : HdPeerRegistry) (key : Key) : Option HdPeerRegistry :=
  (hdPeersLookup reg key).map fun i => reg.setPeer i { reg.peers i with state := .kDenied }

def hdPeersSetPolicy (reg : HdPeerRegistry) (key : Key) (policy : HdPeerPolicy) :
    Option HdPeerRegistry :=
  (hdPeersLookup reg key).map fun i => reg.setPolicy i policy

def hdPeersClearPolicy (reg : HdPeerRegistry) (key : Key) : Option HdPeerRegistry :=
  (hdPeersLookup reg key).map fun i => reg.setPolicy i {}

def HdPeerRegistry.bury (reg : HdPeerRegistry) (i : Fin kHdMaxPeers) : HdPeerRegistry :=
  { reg.setPeer i { reg.peers i with occupied := .tombstone } with
    peerCount := reg.peerCount - 1 }

def hdPeersRemove (reg : HdPeerRegistry) (key : Key) : HdPeerRegistry :=
  match hdPeersLookup reg key with
  | none => reg
  | some i => reg.bury i

def hdPeersIsDenied (reg : HdPeerRegistry) (key : Key) : Bool := decide (key ∈ reg.denylist)

def hdPeersRevoke (reg : HdPeerRegistry) (key : Key) : HdPeerRegistry :=
  hdPeersRemove
    (if hdPeersIsDenied reg key then reg else { reg with denylist := reg.denylist ++ [key] }) key

/-! ### Federation (`hd_peers.cc:21-102`, `key_format.cc:14-41`) -/

/-- `GlobMatch`: everything before the first `*` must be a prefix; without one
the strings are equal. -/
def globMatch (pattern text : Bytes) : Bool :=
  if pattern.isEmpty then true
  else
    let star := pattern.idxOf 0x2a
    if star = pattern.length then decide (pattern = text)
    else if text.length < star then false
    else decide (pattern.take star = text.take star)

def kKeyPrefixClient : Bytes := [0x63, 0x6b, 0x5f]

def hexDigit (n : Byte) : Byte := if n < 10 then 0x30 + n else 0x57 + n

def keyHex (key : Key) : Bytes := key.data.flatMap fun b => [hexDigit (b / 16), hexDigit (b % 16)]

def keyToCkString (key : Key) : Bytes := kKeyPrefixClient ++ keyHex key

/-- A `char*` as a `string_view`: the bytes before the first NUL. -/
def cString (bytes : Bytes) : Bytes := bytes.takeWhile (· ≠ 0)

def federationAccepts (origin keyStr keyHex : Bytes) : List HdFederationAccept → Bool
  | [] => false
  | rule :: rules =>
    if !globMatch rule.fleetId origin then federationAccepts origin keyStr keyHex rules
    else if rule.allowedDestinations.isEmpty then true
    else rule.allowedDestinations.any fun pat => globMatch pat keyStr || globMatch pat keyHex

def hdFederationAllows (policy : HdFederationPolicy) (origin : Bytes) (targetKey : Key) : Bool :=
  if policy.rejectFrom.any fun r => globMatch r origin then false
  else federationAccepts origin (keyToCkString targetKey) (keyHex targetKey) policy.acceptFrom

end HyperDerp
