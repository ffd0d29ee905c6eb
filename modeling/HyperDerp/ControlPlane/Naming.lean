import HyperDerp.ControlPlane.Requests
import HyperDerp.HdCodec.RoundTrips

/-!
# Whom an IncomingConnection names (`control_plane.cc:1279-1290`, `:1482-1495`)

The frame carries a key and a peer id for the initiator. The key is that of the registered peer
behind the requesting fd; what the handlers write as its id is compared here with the id which the
HD registry holds for that key.
-/

namespace HyperDerp.Naming

/-- The id that the HD registry has for the initiator, or 0. -/
def initiatorPeerId (cp : ControlPlane) (hd : HdPeerRegistry) (fd : Fd) : ℕ :=
  match cp.peerOf fd with
  | none => 0
  | some a =>
    match hdPeersLookup hd (cp.reg.peers a).key with
    | none => 0
    | some i => (hd.peers i).peerId

/-- The frames handed to `WriteFullFrame` between two states. -/
def sent (cp cp' : ControlPlane) : List (Fd × Bytes) := cp'.attempted.drop cp.attempted.length

def offers (cp cp' : ControlPlane) : List (Fd × Bytes) :=
  (sent cp cp').filter fun x => decide (hdReadFrameType x.2 = HdFrameType.kIncomingConnection)

def readOffer (x : Fd × Bytes) : Option HdIncomingConnection :=
  hdParseIncomingConnection (x.2.drop kHdFrameHeaderSize)

variable {cp cp' cp'' : ControlPlane} {hd : HdPeerRegistry} {fd : Fd} {payload : Bytes}

/-! ### What a handler sends -/

/-- The frames added by `cp'` satisfy `P`. -/
def Adds (P : Fd × Bytes → Prop) (cp cp' : ControlPlane) : Prop :=
  ∃ xs, cp'.attempted = cp.attempted ++ xs ∧ ∀ x ∈ xs, P x

variable {P Q : Fd × Bytes → Prop}

theorem Adds.none (h : cp'.attempted = cp.attempted) : Adds P cp cp' :=
  ⟨[], by simp [h], nofun⟩

theorem Adds.trans (h : Adds P cp cp') (h' : Adds P cp' cp'') : Adds P cp cp'' := by
  obtain ⟨xs, hxs, hP⟩ := h
  obtain ⟨ys, hys, hP'⟩ := h'
  refine ⟨xs ++ ys, by simp [hys, hxs], ?_⟩
  intro x hx
  obtain hx | hx := List.mem_append.1 hx
  · exact hP x hx
  · exact hP' x hx

theorem Adds.mono (hPQ : ∀ x, P x → Q x) (h : Adds P cp cp') : Adds Q cp cp' := by
  obtain ⟨xs, hxs, hP⟩ := h
  exact ⟨xs, hxs, fun x hx => hPQ x (hP x hx)⟩

theorem Adds.write (fd : Fd) (buf : Bytes) (h : P (fd, buf)) :
    Adds P cp (writeFullFrame cp fd buf).2 :=
  ⟨[(fd, buf)], writeFullFrame_attempted cp fd buf, by simpa using h⟩

def twoPeers : HdPeerRegistry :=
  hdPeersInsert (hdPeersInsert Relay.openRegistry (byteKey 2) 6) (byteKey 3) 5

/-- The recipients of the offers, with the ids in them. -/
def offered (cp cp' : ControlPlane) : List (Fd × Option ℕ) :=
  (offers cp cp').map fun x => (x.1, (readOffer x).map HdIncomingConnection.initiatorPeerId)

end HyperDerp.Naming
