import HyperDerp.WgRelay.Xdp

/-!
# Strikes, the blocklist and the expiry sweep (`wg_relay.cc:418-465`, `:607-758`)
-/

namespace HyperDerp

/-! ### Timing constants -/

def kSecondNs : ℕ := 1000000000
def kCandidateTimeoutNs : ℕ := 30 * kSecondNs
def kRelearnCooldownNs : ℕ := 5 * kSecondNs
def kRetryForwardGapNs : ℕ := 1 * kSecondNs
def kDropBySrcMaxEntries : ℕ := 256

/-- The difference of two clock readings, a `uint64_t`. -/
def sub64 (a b : ℕ) : ℕ := if b ≤ a then a - b else 2 ^ 64 + a - b

theorem sub64_of_le {a b : ℕ} (h : b ≤ a) : sub64 a b = a - b := if_pos h

structure StrikePolicy where
  strikes : ℕ
  windowNs : ℕ
  blockNs : ℕ
  deriving DecidableEq

def kStrikePolicy : List StrikePolicy :=
  [⟨2, 60 * kSecondNs, 60 * kSecondNs⟩,
   ⟨5, 3600 * kSecondNs, 3600 * kSecondNs⟩,
   ⟨10, 86400 * kSecondNs, 86400 * kSecondNs⟩]

/-- `widest->window_ns`, the window of the last policy. -/
def kWidestWindowNs : ℕ := 86400 * kSecondNs

/-! ### Drop histogram (`RecordDropBySrcLocked`) -/

inductive WgDropClass
  | kUnknownSrc
  | kNotWgShaped
  | kHandshakeNoPubkeyMatch

def WgRelayDropBySrc.bump (s : WgRelayDropBySrc) (which : WgDropClass) (now : ℕ) :
    WgRelayDropBySrc :=
  let s := { s with lastSeenNs := now }
  match which with
  | .kUnknownSrc => { s with dropUnknownSrc := s.dropUnknownSrc + 1 }
  | .kNotWgShaped => { s with dropNotWgShaped := s.dropNotWgShaped + 1 }
  | .kHandshakeNoPubkeyMatch =>
    { s with dropHandshakeNoPubkeyMatch := s.dropHandshakeNoPubkeyMatch + 1 }

/-- `drop_by_src[ip]` with the update applied; an absent entry starts from zero. -/
def dropUpsert (ip : UInt32) (f : WgRelayDropBySrc → WgRelayDropBySrc) :
    List (UInt32 × WgRelayDropBySrc) → List (UInt32 × WgRelayDropBySrc)
  | [] => [(ip, f {})]
  | (k, s) :: m =>
    if ip = k then (k, f s) :: m
    else if ip < k then (ip, f {}) :: (k, s) :: m
    else (k, s) :: dropUpsert ip f m

def dropOldest : List (UInt32 × WgRelayDropBySrc) → Option (UInt32 × ℕ)
  | [] => none
  | (k, s) :: m =>
    match dropOldest m with
    | some (k', t) => if t < s.lastSeenNs then some (k', t) else some (k, s.lastSeenNs)
    | none => some (k, s.lastSeenNs)

def recordDropBySrcLocked (r : WgRelay) (src : Sockaddr) (which : WgDropClass) (now : ℕ) :
    WgRelay :=
  let ip := extractV4SrcHostOrder src
  if ip = 0 then r
  else
    let m :=
      if (r.dropBySrc.all fun e => e.1 ≠ ip) && kDropBySrcMaxEntries ≤ r.dropBySrc.length then
        match dropOldest r.dropBySrc with
        | some (k, _) => r.dropBySrc.filter fun e => e.1 ≠ k
        | none => r.dropBySrc
      else r.dropBySrc
    { r with dropBySrc := dropUpsert ip (fun s => s.bump which now) m }

/-! ### Strikes (`RecordStrikeLocked`) -/

/-- The record with the strike at `now` counted, before the policies are tried. -/
def WgRelayStrike.counted (s : WgRelayStrike) (now : ℕ) : WgRelayStrike :=
  let s := { s with totalStrikes := s.totalStrikes + 1 }
  let s :=
    if s.firstStrikeNs = 0 ∨ kWidestWindowNs < sub64 now s.firstStrikeNs then
      { s with count := 0, firstStrikeNs := now }
    else s
  { s with count := s.count + 1 }

def WgRelayStrike.escalates (s : WgRelayStrike) (now : ℕ) : Option StrikePolicy :=
  kStrikePolicy.find? fun pol =>
    pol.strikes ≤ s.count && sub64 now s.firstStrikeNs ≤ pol.windowNs

def recordStrikeLocked (r : WgRelay) (src : Sockaddr) (now : ℕ) : WgRelay :=
  let ip := extractV4SrcHostOrder src
  if ip = 0 then r
  else
    let s := ((r.strikes ip).getD {}).counted now
    match s.escalates now with
    | some pol =>
      let expiry := now + pol.blockNs
      let r := { r with blocklist := Function.update r.blocklist ip (some expiry) }
      let r := xdpBlocklistInsert r ip expiry
      let s := { s with count := 0, firstStrikeNs := 0 }
      { r with strikes := Function.update r.strikes ip (some s) }
    | none => { r with strikes := Function.update r.strikes ip (some s) }

/-! ### Expiry sweep (`ExpireCandidatesLocked`) -/

/-- The readings of one sweep: its own, and the later one of `RecordStrikeLocked` at the `i`-th
peer. -/
structure SweepClock where
  now : ℕ
  strike : ℕ → ℕ

def WgRelayPeer.expired (p : WgRelayPeer) (now : ℕ) : Bool :=
  p.candidateEndpoint.isSome && kCandidateTimeoutNs < sub64 now p.candidateSetNs

def WgRelayPeer.clearCandidate (p : WgRelayPeer) : WgRelayPeer :=
  { p with
    candidateEndpoint := none
    candidateSetNs := 0
    candidateLastForwardNs := 0
    candidateInitSenderIndex := 0
    candidatePartnerResponded := false }

def WgRelayPeer.swept (p : WgRelayPeer) (now : ℕ) : WgRelayPeer :=
  if p.expired now then p.clearCandidate else p

/-- What the loop does for one of the peers to the other tables; a strike has its own reading. -/
def strikeExpired (now strikeNow : ℕ) (r : WgRelay) (p : WgRelayPeer) : WgRelay :=
  match p.candidateEndpoint with
  | none => r
  | some c =>
    if kCandidateTimeoutNs < sub64 now p.candidateSetNs then
      let r := recordStrikeLocked r c strikeNow
      { r with stats :=
          { r.stats with dropRelearnUnconfirmed := r.stats.dropRelearnUnconfirmed + 1 } }
    else r

/-- The loop over the peers from the `i`-th on. -/
def strikePeers (c : SweepClock) : ℕ → List WgRelayPeer → WgRelay → WgRelay
  | _, [], r => r
  | i, p :: ps, r => strikePeers c (i + 1) ps (strikeExpired c.now (c.strike i) r p)

/-- The first strike is too old to count. One recorded in this very sweep, at a later reading than
`now`, is too: the difference wraps around. -/
def WgRelayStrike.stale (s : WgRelayStrike) (now : ℕ) : Bool :=
  s.firstStrikeNs ≠ 0 && kWidestWindowNs < sub64 now s.firstStrikeNs

def expireCandidatesLocked (r : WgRelay) (c : SweepClock) : WgRelay :=
  let r := strikePeers c 0 r.peers r
  let r := { r with peers := r.peers.map (WgRelayPeer.swept · c.now) }
  let r := { r with strikes := fun ip => (r.strikes ip).filter fun s => !s.stale c.now }
  -- blocks that have run out, first in the BPF map
  let live := fun ip => if (r.blocklist ip).any (· ≤ c.now) then none else r.xdp.wgBlocklist ip
  let r := if r.xdp.attached = false then r else { r with xdp := { r.xdp with wgBlocklist := live } }
  { r with blocklist := fun ip => (r.blocklist ip).filter fun e => c.now < e }

end HyperDerp
