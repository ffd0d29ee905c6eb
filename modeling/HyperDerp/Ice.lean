import HyperDerp.Protocol

/-!
# ICE sessions (`ice.h`, `ice.cc`)

The part of the ICE agent that a PeerInfo frame drives: finding the session of
a peer, adding the remote candidates it carries, and forming candidate pairs.
Candidate lists hold the first `local_count` and `remote_count` entries.
-/

namespace HyperDerp

def kIceMaxCandidates : ℕ := 16
def kIceMaxPairs : ℕ := 64
def kIceMaxSessions : ℕ := 256

structure IceCandidate where
  type : Byte
  ip : Bytes
  port : Bytes
  priority : ℕ

inductive IceState where
  | kNew
  | kGathering
  | kChecking
  | kConnected
  | kFailed
  | kClosed
  deriving DecidableEq

structure IceCandidatePair where
  loc : IceCandidate
  remote : IceCandidate
  priority : ℕ

structure IceSession where
  peerKey : Key := zeroKey
  state : IceState := .kNew
  localCandidates : List IceCandidate := []
  remoteCandidates : List IceCandidate := []
  pairs : List IceCandidatePair := []
  occupied : Bool := false

structure IceAgent where
  sessions : Fin kIceMaxSessions → IceSession := fun _ => {}

/-- `TypePref`: host 126, server reflexive 100, anything else 0. -/
def iceTypePref (type : Byte) : ℕ := if type = 0 then 126 else if type = 1 then 100 else 0

/-- `IceCalcPriority` at local preference 65535 and component 1. -/
def iceCalcPriority (type : Byte) : ℕ := iceTypePref type * 2 ^ 24 + 65535 * 2 ^ 8 + 255

def iceCalcPairPriority (localPrio remotePrio : ℕ) : ℕ :=
  min localPrio remotePrio * 2 ^ 32 + max localPrio remotePrio * 2 +
    if remotePrio < localPrio then 1 else 0

def iceAddRemoteCandidate (s : IceSession) (type : Byte) (ip port : Bytes) : IceSession :=
  if kIceMaxCandidates ≤ s.remoteCandidates.length then s
  else
    { s with
      remoteCandidates := s.remoteCandidates ++ [⟨type, ip, port, iceCalcPriority type⟩] }

/-- `IceParseCandidates` (`ice.cc:249-275`); `none` is the error return. -/
def iceParseCandidates (s : IceSession) (data : Bytes) : Option IceSession :=
  match data with
  | [] => none
  | count :: rest =>
    if rest.length < count.toNat * 7 then none
    else some ((List.range count.toNat).foldl
      (fun s i =>
        let c := rest.drop (i * 7)
        iceAddRemoteCandidate s (c.getD 0 0) ((c.drop 1).take 4) ((c.drop 5).take 2)) s)

/-- `IceFormPairs` (`ice.cc:98-124`): at most 64 pairs, highest priority first.
`std::sort` leaves the order of equal priorities open. -/
def iceFormPairs (s : IceSession) : IceSession :=
  let all := s.localCandidates.flatMap fun l => s.remoteCandidates.map fun r =>
    (⟨l, r, iceCalcPairPriority l.priority r.priority⟩ : IceCandidatePair)
  { s with
    pairs := (all.take kIceMaxPairs).mergeSort fun a b => decide (b.priority ≤ a.priority)
    state := .kChecking }

def iceFindSession (agent : IceAgent) (peerKey : Bytes) : Option (Fin kIceMaxSessions) :=
  (List.finRange kIceMaxSessions).find? fun i =>
    (agent.sessions i).occupied && decide ((agent.sessions i).peerKey.data = peerKey)

end HyperDerp
