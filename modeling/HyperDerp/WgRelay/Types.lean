import HyperDerp.Protocol
import Mathlib.Logic.Function.Basic

/-!
# State of the WireGuard relay (`wg_relay.h`)

Times are steady-clock nanoseconds. A `sockaddr_storage` is kept with its length
and family, an absent one (length zero) is `none`. An IPv6 address is its first
twelve bytes and its last four, since the code looks at nothing finer; addresses
and ports are in host byte order throughout.
-/

namespace HyperDerp

/-! ### Socket addresses -/

inductive Sockaddr
  | in4 (addr : UInt32) (port : UInt16)
  | in6 (head : BitVec 96) (tail : UInt32) (port : UInt16) (flowinfo scopeId : UInt32)
  deriving DecidableEq, Repr

def kV4Prefix : BitVec 96 := 0xffff

/-- `SockaddrEqual` on the addresses the kernel and `getaddrinfo` produce, whose
padding is zero. -/
def sockaddrEqual (a b : Sockaddr) : Bool := a = b

/-- `ExtractV4SrcHostOrder`: 0 when there is no IPv4 address. -/
def extractV4SrcHostOrder : Sockaddr → UInt32
  | .in4 addr _ => addr
  | .in6 head tail _ _ _ => if head = kV4Prefix then tail else 0

/-! ### Peers and links -/

structure WgRelayPeer where
  name : Bytes
  endpoint : Sockaddr
  endpointStr : Bytes
  pubkeyB64 : Bytes := []
  label : Bytes
  lastSeenNs : ℕ := 0
  rxBytes : ℕ := 0
  fwdBytes : ℕ := 0
  nic : Bytes := []
  endpointRelearn : ℕ := 0
  dropNoLinkPeer : ℕ := 0
  dropPubkeyMismatchPeer : ℕ := 0
  candidateEndpoint : Option Sockaddr := none
  candidateSetNs : ℕ := 0
  candidateInitSenderIndex : ℕ := 0
  candidatePartnerResponded : Bool := false
  candidateLastForwardNs : ℕ := 0
  lastRelearnNs : ℕ := 0
  deriving DecidableEq

structure WgRelayLink where
  a : Bytes
  b : Bytes
  deriving DecidableEq

def WgRelayLink.touches (l : WgRelayLink) (name : Bytes) : Bool := l.a = name || l.b = name

def WgRelayLink.joins (l : WgRelayLink) (a b : Bytes) : Bool :=
  (l.a = a && l.b = b) || (l.a = b && l.b = a)

/-! ### Counters, strikes and the fast path -/

structure WgRelayStats where
  rxPackets : ℕ := 0
  fwdPackets : ℕ := 0
  dropUnknownSrc : ℕ := 0
  dropNoLink : ℕ := 0
  dropNotWgShaped : ℕ := 0
  dropHandshakePubkeyMismatch : ℕ := 0
  dropHandshakeNoPubkeyMatch : ℕ := 0
  dropRelearnUnconfirmed : ℕ := 0

structure WgRelayDropBySrc where
  dropUnknownSrc : ℕ := 0
  dropNotWgShaped : ℕ := 0
  dropHandshakeNoPubkeyMatch : ℕ := 0
  lastSeenNs : ℕ := 0

structure WgRelayStrike where
  count : ℕ := 0
  firstStrikeNs : ℕ := 0
  totalStrikes : ℕ := 0
  deriving DecidableEq

structure WgXdpAttachment where
  iface : Bytes
  ifindex : ℕ
  deriving DecidableEq

/-- `XdpEpKey` / `struct ep_key`. -/
structure EpKey where
  ip : UInt32
  port : UInt16
  deriving DecidableEq

/-- `XdpEpVal` / `struct ep_val`. -/
structure EpVal where
  ip : UInt32
  port : UInt16
  ifindex : ℕ
  deriving DecidableEq

/-- `WgXdpCtx` with the contents of the BPF maps userspace writes. -/
structure WgXdpCtx where
  attached : Bool := false
  attachments : List WgXdpAttachment := []
  wgPeers : EpKey → Option EpVal := fun _ => none
  wgMacs : EpKey → Option Bytes := fun _ => none
  wgBlocklist : UInt32 → Option ℕ := fun _ => none

structure WgRelay where
  peers : List WgRelayPeer := []
  links : List WgRelayLink := []
  strikes : UInt32 → Option WgRelayStrike := fun _ => none
  /-- In key order, as the source iterates its `std::map`. -/
  dropBySrc : List (UInt32 × WgRelayDropBySrc) := []
  blocklist : UInt32 → Option ℕ := fun _ => none
  stats : WgRelayStats := {}
  rosterPath : Bytes := []
  /-- What `WriteRosterAtomic` last left on disk. -/
  rosterFile : Bytes := []
  xdp : WgXdpCtx := {}

/-! ### In-place updates

The source walks the peer vector and edits the first entry it is looking for. -/

def modifyFirst {α : Type} (p : α → Bool) (f : α → α) : List α → List α
  | [] => []
  | x :: xs => if p x then f x :: xs else x :: modifyFirst p f xs

theorem map_modifyFirst {α β : Type} (g : α → β) (p : α → Bool) (f : α → α)
    (h : ∀ x, g (f x) = g x) (xs : List α) : (modifyFirst p f xs).map g = xs.map g := by
  induction xs with
  | nil => rfl
  | cons x xs ih =>
    simp only [modifyFirst]
    split
    · simp [h]
    · simp [ih]

theorem modifyFirst_of_none {α : Type} {p : α → Bool} {f : α → α} {xs : List α}
    (h : ∀ x ∈ xs, p x = false) : modifyFirst p f xs = xs := by
  induction xs with
  | nil => rfl
  | cons x xs ih =>
    have hx : p x = false := h x (List.mem_cons_self ..)
    simp only [modifyFirst, hx, Bool.false_eq_true, if_false]
    rw [ih fun y hy => h y (List.mem_cons_of_mem _ hy)]

def WgRelay.modifyPeer (r : WgRelay) (name : Bytes) (f : WgRelayPeer → WgRelayPeer) : WgRelay :=
  { r with peers := modifyFirst (fun p => p.name = name) f r.peers }

def WgRelay.findPeer (r : WgRelay) (name : Bytes) : Option WgRelayPeer :=
  r.peers.find? fun p => p.name = name

end HyperDerp
