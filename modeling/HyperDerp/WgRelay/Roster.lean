import HyperDerp.WgRelay.Strikes

/-!
# Roster tables and their file (`wg_relay.cc:67-230`, `:234-425`, `:760-778`)

The name service is a parameter: `getaddrinfo` resolves a host and a numeric port,
`inetNtop6` renders an IPv6 address.
-/

namespace HyperDerp

structure Libc where
  getaddrinfo : Bytes → Bytes → Option Sockaddr
  inetNtop6 : BitVec 96 → UInt32 → Bytes

/-! ### Endpoints as text -/

def cStr (s : Bytes) : Bytes := s.takeWhile (· ≠ 0)

/-- `ParseHostPort`: split at the last colon and resolve. -/
def parseHostPort (c : Libc) (s : Bytes) : Option Sockaddr :=
  let port := (s.reverse.takeWhile (· ≠ 0x3a)).reverse
  if port.length = s.length then none
  else c.getaddrinfo (cStr (s.take (s.length - port.length - 1))) (cStr port)

def decimal (n : ℕ) : Bytes := (Nat.repr n).toUTF8.toList

def formatV4 (addr : UInt32) (port : UInt16) : Bytes :=
  let n := addr.toNat
  decimal (n / 2 ^ 24) ++ [0x2e] ++ decimal (n / 2 ^ 16 % 256) ++ [0x2e] ++
    decimal (n / 2 ^ 8 % 256) ++ [0x2e] ++ decimal (n % 256) ++ [0x3a] ++ decimal port.toNat

def formatEndpoint (c : Libc) : Sockaddr → Bytes
  | .in4 addr port => formatV4 addr port
  | .in6 head tail port _ _ =>
    if head = kV4Prefix then formatV4 tail port
    else [0x5b] ++ c.inetNtop6 head tail ++ [0x5d, 0x3a] ++ decimal port.toNat

/-! ### Peers and links (`PeerAddLocked` .. `LinkRemoveLocked`) -/

def peerAddLocked (c : Libc) (r : WgRelay) (name endpoint label : Bytes) : WgRelay × Bool :=
  if r.peers.any fun p => p.name = name then (r, false)
  else
    match parseHostPort c endpoint with
    | none => (r, false)
    | some ep =>
      let p : WgRelayPeer :=
        { name := name, endpoint := ep, endpointStr := endpoint, label := label }
      ({ r with peers := r.peers ++ [p] }, true)

def peerKnown (peers : List WgRelayPeer) (name : Bytes) : Bool := peers.any fun p => p.name = name

def peerKeyLocked (r : WgRelay) (name pubkeyB64 : Bytes) : WgRelay × Bool :=
  (r.modifyPeer name fun p => { p with pubkeyB64 := pubkeyB64 }, peerKnown r.peers name)

def peerNicLocked (r : WgRelay) (name nic : Bytes) : WgRelay × Bool :=
  (r.modifyPeer name fun p => { p with nic := nic }, peerKnown r.peers name)

def peerRemoveLocked (r : WgRelay) (name : Bytes) : WgRelay × Bool :=
  ({ r with
      links := r.links.filter fun l => !l.touches name
      peers := r.peers.eraseP fun p => p.name = name },
    peerKnown r.peers name)

def peerHasLink (links : List WgRelayLink) (name : Bytes) : Bool :=
  links.any fun l => l.touches name

/-- The codes of `LinkAddLocked`. -/
inductive WgRelayLinkAddResult
  | kWgLinkOk
  | kWgLinkUnknownPeer
  | kWgLinkSelfLink
  | kWgLinkAlreadyLinked
  | kWgLinkDuplicate
  deriving DecidableEq

def linkAddLocked (r : WgRelay) (a b : Bytes) : WgRelay × WgRelayLinkAddResult :=
  if a = b then (r, .kWgLinkSelfLink)
  else if !peerKnown r.peers a || !peerKnown r.peers b then (r, .kWgLinkUnknownPeer)
  else if r.links.any fun l => l.joins a b then (r, .kWgLinkDuplicate)
  else if peerHasLink r.links a || peerHasLink r.links b then (r, .kWgLinkAlreadyLinked)
  else ({ r with links := r.links ++ [⟨a, b⟩] }, .kWgLinkOk)

def linkRemoveLocked (r : WgRelay) (a b : Bytes) : WgRelay × Bool :=
  ({ r with links := r.links.eraseP fun l => l.joins a b }, r.links.any fun l => l.joins a b)

/-- `FindLinkPartnerLocked`; a link whose other end is unknown is passed over. -/
def findLinkPartnerLocked (r : WgRelay) (name : Bytes) : Option WgRelayPeer :=
  r.links.findSome? fun l =>
    if l.a = name then r.findPeer l.b
    else if l.b = name then r.findPeer l.a
    else none

/-! ### Roster file -/

/-- `isspace` in the C locale. -/
def isSpace (c : Byte) : Bool := c = 0x20 || (0x09 ≤ c && c ≤ 0x0d)

/-- `iss >> token`: an empty token is a failed read, after which nothing is left. -/
def readToken (s : Bytes) : Bytes × Bytes :=
  let s := s.dropWhile isSpace
  (s.takeWhile fun c => !isSpace c, s.dropWhile fun c => !isSpace c)

def kwPeer : Bytes := [0x70, 0x65, 0x65, 0x72]
def kwLink : Bytes := [0x6c, 0x69, 0x6e, 0x6b]
def kwNic : Bytes := [0x6e, 0x69, 0x63]

/-- The counts `LoadRosterFile` logs. -/
structure RosterCounts where
  peers : ℕ := 0
  links : ℕ := 0
  bad : ℕ := 0

def RosterCounts.addBad (n : RosterCounts) : RosterCounts := { n with bad := n.bad + 1 }

/-- The body of the loop of `LoadRosterFile`. -/
def loadRosterLine (c : Libc) (r : WgRelay) (n : RosterCounts) (line : Bytes) :
    WgRelay × RosterCounts :=
  if line = [] ∨ line.head? = some 0x23 then (r, n)
  else
    let (kind, rest) := readToken line
    if kind = kwPeer then
      let (name, rest) := readToken rest
      let (endpoint, rest) := readToken rest
      let (pubkey, rest) := readToken rest
      let label := rest.dropWhile (· = 0x20)
      if name = [] ∨ endpoint = [] then (r, n.addBad)
      else
        match peerAddLocked c r name endpoint label with
        | (r, true) =>
          let r := if pubkey = [] then r else (peerKeyLocked r name pubkey).1
          (r, { n with peers := n.peers + 1 })
        | (r, false) => (r, n.addBad)
    else if kind = kwLink then
      let (a, rest) := readToken rest
      let (b, _) := readToken rest
      if a = [] ∨ b = [] then (r, n.addBad)
      else
        match linkAddLocked r a b with
        | (r, .kWgLinkOk) => (r, { n with links := n.links + 1 })
        | (r, _) => (r, n.addBad)
    else if kind = kwNic then
      let (name, rest) := readToken rest
      let (iface, _) := readToken rest
      if name = [] ∨ iface = [] then (r, n.addBad)
      else
        match peerNicLocked r name iface with
        | (r, true) => (r, n)
        | (r, false) => (r, n.addBad)
    else (r, n.addBad)

def loadRosterFile (c : Libc) (r : WgRelay) (file : Bytes) : WgRelay × RosterCounts :=
  (file.splitOn 0x0a).foldl (fun st line => loadRosterLine c st.1 st.2 line) (r, {})

/-- `SerializeRoster`, after its comment lines. -/
def serializeRoster (peers : List WgRelayPeer) (links : List WgRelayLink) : Bytes :=
  (peers.flatMap fun p =>
    kwPeer ++ [0x20] ++ p.name ++ [0x20] ++ p.endpointStr ++
      (if p.pubkeyB64 = [] then []
       else [0x20] ++ p.pubkeyB64 ++ if p.label = [] then [] else [0x20] ++ p.label) ++ [0x0a]) ++
  (links.flatMap fun l => kwLink ++ [0x20] ++ l.a ++ [0x20] ++ l.b ++ [0x0a]) ++
  (peers.flatMap fun p =>
    if p.nic = [] then [] else kwNic ++ [0x20] ++ p.name ++ [0x20] ++ p.nic ++ [0x0a])

def rosterHeader : Bytes :=
  ("# wg-relay roster — managed by `wg peer add` / `wg link add`\n" ++
    "# format:\n" ++
    "#   peer <name> <ip:port> [pubkey-b64] [label]\n" ++
    "#   link <name-a> <name-b>\n" ++
    "#   nic <peer-name> <iface>\n").toUTF8.toList

/-- `PersistRosterLocked`, when the write succeeds. -/
def persistRosterLocked (r : WgRelay) : WgRelay :=
  if r.rosterPath = [] then r
  else { r with rosterFile := rosterHeader ++ serializeRoster r.peers r.links }

/-! ### Static configuration (`WgRelayStart`, `:1842-1866`) -/

/-- `WgRelayConfig::PeerEntry`; the merge does not read its `nic`. -/
structure PeerEntry where
  name : Bytes
  endpoint : Bytes
  pubkeyB64 : Bytes
  label : Bytes

structure WgRelayConfig where
  rosterPath : Bytes
  peers : List PeerEntry
  links : List WgRelayLink

def mergePeer (c : Libc) (r : WgRelay) (p : PeerEntry) : WgRelay :=
  let r := (peerRemoveLocked r p.name).1
  match peerAddLocked c r p.name p.endpoint p.label with
  | (r, true) => if p.pubkeyB64 = [] then r else (peerKeyLocked r p.name p.pubkeyB64).1
  | (r, false) => r

def mergeConfig (c : Libc) (r : WgRelay) (cfg : WgRelayConfig) : WgRelay :=
  let r := cfg.peers.foldl (mergePeer c) r
  let r := cfg.links.foldl (fun r l => (linkAddLocked r l.a l.b).1) r
  if cfg.peers = [] ∧ cfg.links = [] then r else persistRosterLocked r

end HyperDerp
