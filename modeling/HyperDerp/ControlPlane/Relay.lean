import HyperDerp.ControlPlane.Effects
import HyperDerp.DataPlane.ControlPipe
import HyperDerp.DataPlane.Recv
import HyperDerp.Lib.Runs

/-!
# Connections of a running relay

The accept thread, the workers and the control thread side by side. A connect is
two steps: `DpAddPeer` puts an add command on a ring, `CpOnPeerConnect` registers
the key. Completions on a socket and frames put messages on a worker's pipe, the
control thread takes them off and puts commands on rings, the workers process the
commands and close sockets. The kernel gives an fd out again only after it was
closed.

Connections are numbered in the order in which they are accepted. Ghost lists
beside the pipes and rings give the connection each message and command comes
from.
-/

namespace HyperDerp

structure Relay where
  cp : ControlPlane
  count : ℕ := 0
  keyOf : ℕ → Key := fun _ => zeroKey
  fdOf : ℕ → Fd := fun _ => -1
  /-- the connection behind an open fd -/
  owner : Fd → Option ℕ := fun _ => none
  /-- added to the data plane, not yet to the control plane -/
  unregistered : List ℕ := []
  pipeTags : ℕ → List ℕ := fun _ => []
  cmdTags : ℕ → List ℕ := fun _ => []

inductive RelayStep where
  | accept (fd : Fd) (key : Key) (proto : PeerProtocol) (peerId : ℕ)
  | register (c : ℕ)
  | enrol (key : Key) (fd : Fd)
  | eof (v : ℕ) (fd : Fd)
  | error (v : ℕ) (fd : Fd)
  | frame (v : ℕ) (fd : Fd) (bytes : Bytes)
  | control (v : ℕ)
  | work (v : ℕ)
  | ioPath (v : ℕ) (q : Slot) (w0 : Worker)

namespace Relay

def worker (s : Relay) (v : ℕ) : Worker := s.cp.dataPlane.workers v

def home (s : Relay) (key : Key) : ℕ := peerWorker s.cp.dataPlane.numWorkers key

def IsOpen (s : Relay) (c : ℕ) : Prop := s.owner (s.fdOf c) = some c

instance (s : Relay) (c : ℕ) : Decidable (s.IsOpen c) := inferInstanceAs (Decidable (_ = _))

def setCtx (s : Relay) (ctx : Ctx) : Relay := { s with cp := { s.cp with dataPlane := ctx } }

/-- The tags of the rings after commands of connection `c` were appended. -/
def tagCmds (s : Relay) (ctx : Ctx) (c : ℕ) (v : ℕ) : List ℕ :=
  s.cmdTags v ++ List.replicate ((ctx.workers v).cmdRing.length - (s.worker v).cmdRing.length) c

/-- Let `cp` take the place of the control plane, its new commands tagged `c`. -/
def issue (s : Relay) (cp : ControlPlane) (c : ℕ) : Relay :=
  { s with cp := cp, cmdTags := s.tagCmds cp.dataPlane c }

/-- Worker `v` put messages of connection `c` on its pipe. -/
def post (s : Relay) (v : ℕ) (ctx : Ctx) (c : ℕ) : Relay :=
  { s.setCtx ctx with pipeTags := Function.update s.pipeTags v (s.pipeTags v ++
      List.replicate ((ctx.workers v).pipe.length - (s.worker v).pipe.length) c) }

def step (s : Relay) : RelayStep → Option Relay
  | .accept fd key proto peerId =>
    if s.owner fd = none then
      some { s.issue { s.cp with dataPlane := dpAddPeer s.cp.dataPlane fd key proto peerId }
          s.count with
        count := s.count + 1
        keyOf := Function.update s.keyOf s.count key
        fdOf := Function.update s.fdOf s.count fd
        owner := Function.update s.owner fd (some s.count)
        unregistered := s.unregistered ++ [s.count] }
    else none
  | .register c =>
    if c ∈ s.unregistered then
      some { s.issue (cpOnPeerConnect s.cp (s.keyOf c) (s.fdOf c)) c with
        unregistered := s.unregistered.erase c }
    else none
  | .enrol key fd =>
    some { s with cp := { s.cp with
      hdPeers := s.cp.hdPeers.map fun reg => hdPeersInsert reg key fd } }
  | .eof v fd =>
    match s.owner fd, (s.worker v).fdMap fd with
    | some c, some p => some (s.post v (s.cp.dataPlane.onWorker v fun w => closeFd w fd p) c)
    | _, _ => none
  | .error v fd =>
    match s.owner fd, (s.worker v).fdMap fd with
    | some c, some p => some (s.post v (s.cp.dataPlane.onWorker v fun w => notifyPeerClose w p) c)
    | _, _ => none
  | .frame v fd bytes =>
    match s.owner fd, (s.worker v).fdMap fd with
    | some c, some p => some (s.post v (dispatchFrame s.cp.dataPlane v p bytes) c)
    | _, _ => none
  | .control v =>
    match popPipe s.cp v, s.pipeTags v with
    | some cp, c :: rest =>
      some { s.issue cp c with pipeTags := Function.update s.pipeTags v rest }
    | _, _ => none
  | .work v =>
    match popCmd s.cp.dataPlane v with
    | some (ctx, closed) =>
      some { s.setCtx ctx with
        cmdTags := Function.update s.cmdTags v (s.cmdTags v).tail
        owner :=
          match closed with
          | some fd => Function.update s.owner fd none
          | none => s.owner }
    | none => none
  | .ioPath v q w0 =>
    some (s.setCtx (s.cp.dataPlane.onWorker v fun w => w.withIoPath q w0))

structure Init (s : Relay) : Prop where
  pos : 0 < s.cp.dataPlane.numWorkers
  workers : ∀ v, s.worker v = {}
  reg : s.cp.reg = {}
  watchers : s.cp.watcherFds = []
  openConns : ∀ i, (s.cp.openConns i).inUse = false
  hdPeers : ∀ hd, s.cp.hdPeers = some hd → ∀ i, (hd.peers i).occupied ≠ .live
  relays : ∀ rt, s.cp.relayTable = some rt → ∀ i, (rt.entries i).occupied = false
  owner : ∀ fd, s.owner fd = none
  unregistered : s.unregistered = []
  pipeTags : ∀ v, s.pipeTags v = []
  cmdTags : ∀ v, s.cmdTags v = []

end Relay

end HyperDerp
