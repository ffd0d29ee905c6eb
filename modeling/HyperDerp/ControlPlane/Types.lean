import HyperDerp.ControlPlane.Registry
import HyperDerp.DataPlane.Commands
import HyperDerp.HdResolver
import HyperDerp.Ice
import HyperDerp.RelayTable

/-!
# Control plane state (`control_plane.h`)

`dataPlane` is the context the control plane writes commands to. The rest of the
record follows the source; the null pointers of disabled features are `none`.

Four fields stand for the environment: `now` is the monotonic clock,
`writeOracle` gives the outcomes of the coming blocking writes (`none` for a
complete one, `some n` for an error after `n` bytes; exhausted means success),
`written` collects what was written to which socket, and `attempted` the whole
frames of these writes.
-/

namespace HyperDerp

def kCpMaxWatchers : ℕ := 64
def kCpMaxOpenConns : ℕ := 256
def kCpMaxOpenConnsPerPeer : ℤ := 16
def kCpOpenConnTimeoutNs : ℕ := 5000000000

abbrev OpenSlot := Fin kCpMaxOpenConns

structure OpenConnEntry where
  inUse : Bool := false
  correlationId : ℕ := 0
  initiatorFd : Fd := -1
  targetFd : Fd := -1
  initiatorKey : Key := zeroKey
  targetKey : Key := zeroKey
  initiatorView : HdClientView := {}
  /-- not zero: an outbound FleetOpenConnection to that relay -/
  targetRelayId : ℕ := 0
  /-- created by a FleetOpenConnection from the relay link `initiatorFd` -/
  isGatewayInbound : Bool := false
  originRelayId : ℕ := 0
  deadlineNs : ℕ := 0

structure ControlPlane where
  dataPlane : Ctx
  reg : CpRegistry := {}
  watcherFds : List Fd := []
  level2Enabled : Bool := false
  iceAgent : Option IceAgent := none
  relayTable : Option RelayTable := none
  hdPeers : Option HdPeerRegistry := none
  openConns : OpenSlot → OpenConnEntry := fun _ => {}
  openConnPerPeer : Fd → ℤ := fun _ => 0
  audit : List (Key × Key × HdClientView × HdDecision) := []
  allocOracle : List Bool := []
  now : ℕ := 0
  writeOracle : List (Option ℕ) := []
  written : List (Fd × Bytes) := []
  attempted : List (Fd × Bytes) := []

namespace ControlPlane

/-- The registered peer behind an fd (`cp->fd_map[fd]` under its guard). -/
def peerOf (cp : ControlPlane) (fd : Fd) : Option CpSlot :=
  if validFd fd then cp.reg.fdMap fd else none

def setOpenConn (cp : ControlPlane) (i : OpenSlot) (s : OpenConnEntry) : ControlPlane :=
  { cp with openConns := Function.update cp.openConns i s }

def countOpenConn (cp : ControlPlane) (fd : Fd) (d : ℤ) : ControlPlane :=
  if validFd fd then
    { cp with openConnPerPeer :=
        Function.update cp.openConnPerPeer fd (cp.openConnPerPeer fd + d) }
  else cp

end ControlPlane

/-- `WriteFullFrame` (`control_plane.cc:918-930`). -/
def writeFullFrame (cp : ControlPlane) (fd : Fd) (buf : Bytes) : Bool × ControlPlane :=
  match cp.writeOracle with
  | [] =>
    (true, { cp with
      written := cp.written ++ [(fd, buf)]
      attempted := cp.attempted ++ [(fd, buf)] })
  | none :: rest =>
    (true, { cp with
      writeOracle := rest
      written := cp.written ++ [(fd, buf)]
      attempted := cp.attempted ++ [(fd, buf)] })
  | some n :: rest =>
    (false, { cp with
      writeOracle := rest
      written := cp.written ++ [(fd, buf.take n)]
      attempted := cp.attempted ++ [(fd, buf)] })

/-- `CpSendFrame` (`control_plane.cc:153-165`): a copy of the frame as a write
command to the peer's worker. -/
def cpSendFrame (cp : ControlPlane) (key : Key) (frame : Bytes) : ControlPlane :=
  match cp.allocOracle with
  | false :: rest => { cp with allocOracle := rest }
  | true :: rest =>
    { cp with allocOracle := rest, dataPlane := dpWrite cp.dataPlane key frame }
  | [] => { cp with dataPlane := dpWrite cp.dataPlane key frame }

end HyperDerp
