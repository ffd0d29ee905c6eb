import HyperDerp.WgRelay.Forward

/-!
# Operator calls and runs of the relay (`wg_relay.cc:1235-1270`, `:1830-2021`)

Each call returns the relay and whether the operation was accepted. `WgOp` collects
what can happen to a running relay: operator calls, datagrams and the periodic
sweep of the receive loop. `RosterOp` adds the two ways `WgRelayStart` fills the
tables.
-/

namespace HyperDerp

/-! ### Operator calls -/

def wgRelayPeerAdd (c : Libc) (r : WgRelay) (name endpoint label : Bytes) : WgRelay × Bool :=
  match peerAddLocked c r name endpoint label with
  | (r, true) => (persistRosterLocked r, true)
  | (r, false) => (r, false)

def wgRelayPeerKey (r : WgRelay) (name pubkeyB64 : Bytes) : WgRelay × Bool :=
  match peerKeyLocked r name pubkeyB64 with
  | (r, true) => (persistRosterLocked r, true)
  | (r, false) => (r, false)

def wgRelayPeerNic (r : WgRelay) (name nic : Bytes) : WgRelay × Bool :=
  if nic ≠ [] ∧ r.xdp.attached = true ∧ (r.xdp.attachments.all fun a => a.iface ≠ nic) then
    (r, false)
  else
    match peerNicLocked r name nic with
    | (r, true) =>
      let r := (r.links.filter fun l => l.touches name).foldl
        (fun r l => xdpInsertLinkByNameLocked r l.a l.b) r
      (persistRosterLocked r, true)
    | (r, false) => (r, false)

def wgRelayPeerRemove (r : WgRelay) (name : Bytes) : WgRelay × Bool :=
  let removedLinks := r.links.filter fun l => l.touches name
  match peerRemoveLocked r name with
  | (r, true) =>
    let r := removedLinks.foldl (fun r l => xdpRemoveLinkByNameLocked r l.a l.b) r
    (persistRosterLocked r, true)
  | (r, false) => (r, false)

def wgRelayLinkAddDetail (r : WgRelay) (a b : Bytes) : WgRelay × WgRelayLinkAddResult :=
  match linkAddLocked r a b with
  | (r, .kWgLinkOk) => (persistRosterLocked (xdpInsertLinkByNameLocked r a b), .kWgLinkOk)
  | (r, rc) => (r, rc)

def wgRelayLinkAdd (r : WgRelay) (a b : Bytes) : WgRelay × Bool :=
  let (r, rc) := wgRelayLinkAddDetail r a b
  (r, rc = .kWgLinkOk)

def wgRelayLinkRemove (r : WgRelay) (a b : Bytes) : WgRelay × Bool :=
  match linkRemoveLocked r a b with
  | (r, true) => (persistRosterLocked (xdpRemoveLinkByNameLocked r a b), true)
  | (r, false) => (r, false)

/-! ### Runs -/

inductive WgOp
  | peerAdd (name endpoint label : Bytes)
  | peerKey (name pubkeyB64 : Bytes)
  | peerNic (name nic : Bytes)
  | peerRemove (name : Bytes)
  | linkAdd (a b : Bytes)
  | linkRemove (a b : Bytes)
  | packet (d : Datagram)
  | sweep (clock : SweepClock)

def wgStep (c : Libc) (r : WgRelay) : WgOp → WgRelay × Bool
  | .peerAdd name endpoint label => wgRelayPeerAdd c r name endpoint label
  | .peerKey name pubkeyB64 => wgRelayPeerKey r name pubkeyB64
  | .peerNic name nic => wgRelayPeerNic r name nic
  | .peerRemove name => wgRelayPeerRemove r name
  | .linkAdd a b => wgRelayLinkAdd r a b
  | .linkRemove a b => wgRelayLinkRemove r a b
  | .packet d => ((handlePacket c r d).1, true)
  | .sweep clock => (expireCandidatesLocked r clock, true)

def wgRun (c : Libc) (r : WgRelay) (ops : List WgOp) : WgRelay :=
  ops.foldl (fun r op => (wgStep c r op).1) r

/-- Loading the roster file and merging the static configuration, besides the rest. -/
inductive RosterOp
  | load (file : Bytes)
  | merge (cfg : WgRelayConfig)
  | op (o : WgOp)

def rosterStep (c : Libc) (r : WgRelay) : RosterOp → WgRelay × Bool
  | .load file => ((loadRosterFile c r file).1, true)
  | .merge cfg => (mergeConfig c r cfg, true)
  | .op o => wgStep c r o

def rosterRun (c : Libc) (r : WgRelay) (ops : List RosterOp) : WgRelay :=
  ops.foldl (fun r op => (rosterStep c r op).1) r

/-- The tables `WgRelayStart` begins to run with; there is a file to load only when a
path is configured and it can be opened. -/
def wgRelayStart (c : Libc) (cfg : WgRelayConfig) (file : Option Bytes) : WgRelay :=
  let r : WgRelay := { rosterPath := cfg.rosterPath, rosterFile := file.getD [] }
  let r :=
    match file with
    | some text => if cfg.rosterPath = [] then r else (loadRosterFile c r text).1
    | none => r
  mergeConfig c r cfg

/-- The maps after `XdpAttach` and the replay of the links. -/
def xdpStart (r : WgRelay) (attachments : List WgXdpAttachment) : WgRelay :=
  let r := { r with xdp := { attached := true, attachments := attachments } }
  r.links.foldl (fun r l => xdpInsertLinkByNameLocked r l.a l.b) r

end HyperDerp
