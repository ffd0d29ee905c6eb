import HyperDerp.HdPeers.Registry

/-!
# Sockets recorded in the HD registry (`server.cc:363-420`, `einheit_channel.cc:473-606`)

A registry entry keeps the fd it was enrolled with. Admin calls and the control
plane read the fd under the registry's lock and use it after the lock; the worker
of the key closes it when the peer is removed. No close is recorded in the
registry, and the kernel gives a closed number to the next connection.

The queue of peer commands is kept for each key, since all commands of a key go
to one worker; commands of different keys are taken in any order.
-/

namespace HyperDerp

namespace Sockets

structure Sock where
  key : Key
  serial : ℕ
  deriving DecidableEq

inductive Use where
  /-- `PeerApprove`: `HdSendApproved`, `DpAddPeer`. -/
  | approve
  /-- `PeerDeny`: `HdSendDenied`, `close`. -/
  | deny
  /-- `PeerRevoke` and a revoking fleet bundle: `DpRemovePeer`, `close`. -/
  | revoke
  /-- `PeerRedirect`: `HdSendRedirect`. -/
  | redirect
  /-- A local `OpenConnection` target: `IncomingConnection` is written. -/
  | incoming
  /-- Auto-approved enrolment: `HdSendApproved`, then `DpAddPeer`, or `close` if that failed. -/
  | autoApprove
  /-- An outgoing relay link: `DpAddPeer`. -/
  | link
  deriving DecidableEq

structure Call where
  use : Use
  key : Key
  fd : Fd

inductive DpCmd where
  | addPeer (fd : Fd)
  | removePeer
  deriving DecidableEq

structure Touch where
  use : Use
  key : Key
  sock : Option Sock

structure State where
  reg : HdPeerRegistry := {}
  socks : Fd → Option Sock := fun _ => none
  serial : Key → ℕ := fun _ => 0
  calls : List Call := []
  cmds : Key → List DpCmd := fun _ => []
  peers : Key → Option Fd := fun _ => none
  touched : List Touch := []

inductive Label where
  /-- An HD client enrols on an accepted socket. -/
  | enrol (key : Key) (fd : Fd)
  /-- An outgoing relay link is enrolled (`server.cc:1095-1115`). -/
  | dial (key : Key) (fd : Fd)
  /-- A DERP client connects. -/
  | derp (key : Key) (fd : Fd) (fits : Bool)
  | peerApprove (key : Key)
  | peerDeny (key : Key)
  | peerRevoke (key : Key)
  /-- A fleet bundle names the key as revoked (`server.cc:1176-1196`). -/
  | bundleRevoke (key : Key)
  | peerRedirect (key : Key)
  | openConnection (targetPeerId : ℕ)
  /-- The unix-socket channel changes the registry only (`ctl_channel.cc:146-194`). -/
  | ctlApprove (key : Key)
  | ctlDeny (key : Key)
  | ctlRemove (key : Key)
  /-- The fd of a call is used; whether the write succeeds and the command ring has room. -/
  | finish (n : ℕ) (sent fits : Bool)
  /-- The control plane learns that the peer disconnected. -/
  | peerGone (key : Key) (fits : Bool)
  /-- The worker takes a command; whether its table has a slot for the key. -/
  | work (key : Key) (hit : Bool)

namespace State

def connect (s : State) (key : Key) (fd : Fd) : State :=
  { s with
    socks := Function.update s.socks fd (some ⟨key, s.serial key + 1⟩)
    serial := Function.update s.serial key (s.serial key + 1) }

def close (s : State) (fd : Fd) : State :=
  { s with socks := Function.update s.socks fd none }

def call (s : State) (use : Use) (key : Key) (fd : Fd) : State :=
  { s with calls := s.calls ++ [⟨use, key, fd⟩] }

/-- `fd >= 0`: the entry has a socket. -/
def callEntry (s : State) (use : Use) (p : HdPeer) : State :=
  if 0 ≤ p.fd then s.call use p.key p.fd else s

def enqueueCmd (s : State) (key : Key) (cmd : DpCmd) (fits : Bool) : State :=
  if fits then { s with cmds := Function.update s.cmds key (s.cmds key ++ [cmd]) } else s

def touch (s : State) (c : Call) : State :=
  { s with touched := s.touched ++ [⟨c.use, c.key, s.socks c.fd⟩] }

/-- `HdPerformHandshake` from step 8 (`hd_handshake.cc:150-163`). -/
def handshake (s : State) (key : Key) (fd : Fd) : State :=
  let reg := hdPeersInsert s.reg key fd
  if s.reg.enrollMode = .kAutoApprove then
    { s with reg := (hdPeersApprove reg key).getD reg }.call .autoApprove key fd
  else { s with reg := reg }

def perform (s : State) (c : Call) (sent fits : Bool) : State :=
  match c.use with
  | .approve => (s.touch c).enqueueCmd c.key (.addPeer c.fd) fits
  | .deny => (s.touch c).close c.fd
  | .revoke => ((s.touch c).enqueueCmd c.key .removePeer fits).close c.fd
  | .redirect => s.touch c
  | .incoming => s.touch c
  | .autoApprove =>
    if sent then (s.touch c).enqueueCmd c.key (.addPeer c.fd) fits else (s.touch c).close c.fd
  | .link => (s.touch c).enqueueCmd c.key (.addPeer c.fd) fits

/-- `ProcessCmdAdd` and `ProcessCmdRemove` (`data_plane.cc:2040-2122`). -/
def processCmd (s : State) (key : Key) (hit : Bool) : DpCmd → State
  | .addPeer fd =>
    if validFd fd ∧ hit then { s with peers := Function.update s.peers key (some fd) } else s
  | .removePeer =>
    match s.peers key with
    | none => s
    | some fd =>
      if hit then
        { (if validFd fd then s.close fd else s) with peers := Function.update s.peers key none }
      else s

end State

open State

def connected (s : State) (key : Key) (fd : Fd) : Option State :=
  if 0 ≤ fd ∧ s.socks fd = none then some (s.connect key fd) else none

def onEntry (s : State) (key : Key) (use : Use) (reg : HdPeerRegistry) : State :=
  match hdPeersLookup s.reg key with
  | none => s
  | some i => { s with reg := reg }.callEntry use (s.reg.peers i)

/-- `HdPeersRevoke` also puts a key that has no entry on the denylist. -/
def bundleRevoke (s : State) (key : Key) : State :=
  match hdPeersLookup s.reg key with
  | none => { s with reg := hdPeersRevoke s.reg key }
  | some _ => onEntry s key .revoke (hdPeersRevoke s.reg key)

def openConnection (s : State) (targetPeerId : ℕ) : State :=
  match hdPeersLookupById s.reg targetPeerId with
  | none => s
  | some target => s.callEntry .incoming target

/-- A key on the denylist is turned away before the registry is touched. -/
def enrol (s : State) (key : Key) (fd : Fd) : Option State :=
  if hdPeersIsDenied s.reg key then none
  else (connected s key fd).map fun s => s.handshake key fd

def dial (s : State) (key : Key) (fd : Fd) : Option State :=
  (connected s key fd).map fun s =>
    { s with reg := hdPeersInsert s.reg key fd }.call .link key fd

def finish (s : State) (n : ℕ) (sent fits : Bool) : Option State :=
  (s.calls[n]?).map fun c => { s with calls := s.calls.eraseIdx n }.perform c sent fits

def work (s : State) (key : Key) (hit : Bool) : Option State :=
  match s.cmds key with
  | [] => none
  | cmd :: rest => some ({ s with cmds := Function.update s.cmds key rest }.processCmd key hit cmd)

def step (s : State) : Label → Option State
  | .enrol key fd => enrol s key fd
  | .dial key fd => dial s key fd
  | .derp key fd fits => (connected s key fd).map fun s => s.enqueueCmd key (.addPeer fd) fits
  | .peerApprove key => some (onEntry s key .approve ((hdPeersApprove s.reg key).getD s.reg))
  | .peerDeny key => some (onEntry s key .deny ((hdPeersDeny s.reg key).getD s.reg))
  | .peerRevoke key => some (onEntry s key .revoke (hdPeersRevoke s.reg key))
  | .bundleRevoke key => some (bundleRevoke s key)
  | .peerRedirect key => some (onEntry s key .redirect s.reg)
  | .openConnection targetPeerId => some (openConnection s targetPeerId)
  | .ctlApprove key => some { s with reg := (hdPeersApprove s.reg key).getD s.reg }
  | .ctlDeny key => some { s with reg := (hdPeersDeny s.reg key).getD s.reg }
  | .ctlRemove key => some { s with reg := hdPeersRemove s.reg key }
  | .finish n sent fits => finish s n sent fits
  | .peerGone key fits => some (s.enqueueCmd key .removePeer fits)
  | .work key hit => work s key hit

structure Init (s : State) : Prop where
  empty : ∀ i, ¬(s.reg.peers i).Live
  calls : s.calls = []
  touched : s.touched = []

/-! ### What the registry and the callers rely on -/

/-- The fd of a live entry is the open socket of its client's most recent connection. -/
def Current (s : State) : Prop :=
  ∀ i, (s.reg.peers i).Live → 0 ≤ (s.reg.peers i).fd →
    s.socks (s.reg.peers i).fd = some ⟨(s.reg.peers i).key, s.serial (s.reg.peers i).key⟩

def OwnSockets (s : State) : Prop :=
  ∀ t ∈ s.touched, ∀ sock, t.sock = some sock → sock.key = t.key

/-! ### When it does -/

def Unrecorded (s : State) (fd : Fd) : Prop :=
  ∀ i, (s.reg.peers i).Live → (s.reg.peers i).fd ≠ fd

/-- A connection of a client without an entry, on a number that no call for another client
still holds. -/
structure FreshConnection (s : State) (key : Key) (fd : Fd) : Prop where
  unregistered : hdPeersLookup s.reg key = none
  unheld : ∀ c ∈ s.calls, c.fd = fd → c.key = key

def Call.closes (c : Call) (sent : Bool) : Bool :=
  match c.use with
  | .deny | .revoke => true
  | .autoApprove => !sent
  | _ => false

/-- No socket is closed while a live entry records it, and no client connects while its key
is registered. -/
def StepOk (s : State) : Label → Prop
  | .enrol key fd | .dial key fd | .derp key fd _ => FreshConnection s key fd
  | .finish n sent _ => ∀ c, s.calls[n]? = some c → c.closes sent = true → Unrecorded s c.fd
  | .work key hit => hit = true → (s.cmds key).head? = some .removePeer →
      ∀ fd, s.peers key = some fd → Unrecorded s fd
  | _ => True

instance (s : State) (key : Key) (fd : Fd) : Decidable (FreshConnection s key fd) :=
  decidable_of_iff (hdPeersLookup s.reg key = none ∧ ∀ c ∈ s.calls, c.fd = fd → c.key = key)
    ⟨fun h => ⟨h.1, h.2⟩, fun h => ⟨h.unregistered, h.unheld⟩⟩

theorem unrecorded_iff {s : State} {fd : Fd} :
    FrontScan.first s.reg.peers (fun p => decide p.Live && decide (p.fd = fd)) = none ↔
      Unrecorded s fd := by
  simp [FrontScan.first_none, Unrecorded]

instance (s : State) (fd : Fd) : Decidable (Unrecorded s fd) := decidable_of_iff _ unrecorded_iff

instance (s : State) (l : Label) : Decidable (StepOk s l) :=
  match l with
  | .enrol key fd | .dial key fd | .derp key fd _ =>
    inferInstanceAs (Decidable (FreshConnection s key fd))
  | .finish n sent _ =>
    inferInstanceAs (Decidable (∀ c ∈ s.calls[n]?, c.closes sent = true → Unrecorded s c.fd))
  | .work key hit =>
    inferInstanceAs (Decidable (hit = true → (s.cmds key).head? = some .removePeer →
      ∀ fd ∈ s.peers key, Unrecorded s fd))
  | .peerApprove _ | .peerDeny _ | .peerRevoke _ | .bundleRevoke _ | .peerRedirect _
  | .openConnection _ | .ctlApprove _ | .ctlDeny _ | .ctlRemove _ | .peerGone _ _ =>
    inferInstanceAs (Decidable True)

/-! ### Invariant -/

structure Inv (s : State) : Prop where
  current : Current s
  /-- The fd of a call is closed or still the client's. -/
  held : ∀ c ∈ s.calls, ∀ sock, s.socks c.fd = some sock → sock.key = c.key
  own : OwnSockets s

variable {s s' : State} {key : Key} {fd : Fd} {reg : HdPeerRegistry}

def Within (reg reg' : HdPeerRegistry) : Prop :=
  ∀ i, (reg'.peers i).Live → (reg.peers i).Live ∧ (reg'.peers i).key = (reg.peers i).key ∧
    (reg'.peers i).fd = (reg.peers i).fd

theorem Within.refl (reg : HdPeerRegistry) : Within reg reg := fun _ hl => ⟨hl, rfl, rfl⟩

theorem within_setState (reg : HdPeerRegistry) (i : HdSlot) (state : HdPeerState) :
    Within reg (reg.setPeer i { reg.peers i with state := state }) := by
  intro j hl
  by_cases hj : j = i
  · subst hj
    simp only [HdPeerRegistry.setPeer, Function.update_self, HdPeer.Live] at hl ⊢
    exact ⟨hl, trivial, trivial⟩
  · simp only [HdPeerRegistry.setPeer, Function.update_of_ne hj] at hl ⊢
    exact ⟨hl, trivial, trivial⟩

theorem within_approve (reg : HdPeerRegistry) (key : Key) :
    Within reg ((hdPeersApprove reg key).getD reg) := by
  unfold hdPeersApprove
  cases hdPeersLookup reg key with
  | none => exact Within.refl reg
  | some i => exact within_setState reg i .kApproved

theorem within_deny (reg : HdPeerRegistry) (key : Key) :
    Within reg ((hdPeersDeny reg key).getD reg) := by
  unfold hdPeersDeny
  cases hdPeersLookup reg key with
  | none => exact Within.refl reg
  | some i => exact within_setState reg i .kDenied

theorem within_remove (reg : HdPeerRegistry) (key : Key) :
    Within reg (hdPeersRemove reg key) := by
  unfold hdPeersRemove
  cases hdPeersLookup reg key with
  | none => exact Within.refl reg
  | some i =>
    intro j hl
    obtain ⟨-, hsame⟩ := HdPeerRegistry.bury_live hl
    rw [hsame] at hl ⊢
    exact ⟨hl, rfl, rfl⟩

theorem within_revoke (reg : HdPeerRegistry) (key : Key) :
    Within reg (hdPeersRevoke reg key) := by
  obtain ⟨d, hd⟩ := HdPeerRegistry.hdPeersRevoke_peers reg key
  rw [hd]
  exact within_remove { reg with denylist := d } key

theorem Inv.within (h : Inv s) (hw : Within s.reg reg) : Inv { s with reg := reg } := by
  constructor
  · intro i hl hfd
    obtain ⟨hlive, hkey, hsame⟩ := hw i hl
    rw [hsame] at hfd
    dsimp only
    rw [hkey, hsame]
    exact h.current i hlive hfd
  · exact h.held
  · exact h.own

theorem Inv.call (h : Inv s) (use : Use) (hown : ∀ sock, s.socks fd = some sock → sock.key = key) :
    Inv (s.call use key fd) := by
  constructor
  · exact h.current
  · intro c hc sock hsock
    rcases List.mem_append.1 hc with hc | hc
    · exact h.held c hc sock hsock
    · rw [List.mem_singleton.1 hc] at hsock ⊢
      exact hown sock hsock
  · exact h.own

theorem Current.own (h : Current s) {i : HdSlot} (hl : (s.reg.peers i).Live)
    (hfd : 0 ≤ (s.reg.peers i).fd) {sock : Sock} (hs : s.socks (s.reg.peers i).fd = some sock) :
    sock.key = (s.reg.peers i).key := by
  rw [h i hl hfd, Option.some.injEq] at hs
  rw [← hs]

theorem Inv.callEntry (h : Inv s) (use : Use) {i : HdSlot} (hl : (s.reg.peers i).Live)
    (hw : Within s.reg reg) : Inv ({ s with reg := reg }.callEntry use (s.reg.peers i)) := by
  unfold State.callEntry
  split
  · next hfd =>
    apply (h.within hw).call
    exact fun sock hs => h.current.own hl hfd hs
  · exact h.within hw

theorem Inv.onEntry (h : Inv s) (key : Key) (use : Use) (hw : Within s.reg reg) :
    Inv (onEntry s key use reg) := by
  unfold Sockets.onEntry
  cases hl : hdPeersLookup s.reg key with
  | none => exact h
  | some i => exact h.callEntry use (HdPeerRegistry.lookup_some hl).1 hw

theorem Inv.enqueueCmd (h : Inv s) (key : Key) (cmd : DpCmd) (fits : Bool) :
    Inv (s.enqueueCmd key cmd fits) := by
  unfold State.enqueueCmd
  split
  · exact ⟨h.current, h.held, h.own⟩
  · exact h

theorem Inv.touch (h : Inv s) {c : Call}
    (hown : ∀ sock, s.socks c.fd = some sock → sock.key = c.key) : Inv (s.touch c) := by
  constructor
  · exact h.current
  · exact h.held
  · intro t ht sock hsock
    rcases List.mem_append.1 ht with ht | ht
    · exact h.own t ht sock hsock
    · rw [List.mem_singleton.1 ht] at hsock ⊢
      exact hown sock hsock

theorem Inv.close (h : Inv s) (hfree : Unrecorded s fd) : Inv (s.close fd) := by
  constructor
  · intro i hl hfd
    simp only [State.close, Function.update_of_ne (hfree i hl)]
    exact h.current i hl hfd
  · intro c hc sock hsock
    by_cases hfd : c.fd = fd
    · simp [State.close, hfd] at hsock
    · simp only [State.close, Function.update_of_ne hfd] at hsock
      exact h.held c hc sock hsock
  · exact h.own

theorem Inv.connect (h : Inv s) (hfree : s.socks fd = none) (hok : FreshConnection s key fd) :
    Inv (s.connect key fd) := by
  constructor
  · intro i hl hfd
    have hkey := HdPeerRegistry.lookup_none.1 hok.unregistered i hl
    have hopen := h.current i hl hfd
    have hne : (s.reg.peers i).fd ≠ fd := by
      intro heq
      rw [heq, hfree] at hopen
      cases hopen
    simp only [State.connect, Function.update_of_ne hne, Function.update_of_ne hkey]
    exact hopen
  · intro c hc sock hsock
    by_cases hfd : c.fd = fd
    · simp only [State.connect, hfd, Function.update_self, Option.some.injEq] at hsock
      rw [← hsock, hok.unheld c hc hfd]
    · simp only [State.connect, Function.update_of_ne hfd] at hsock
      exact h.held c hc sock hsock
  · exact h.own

theorem Inv.insert (h : Inv s) (hsock : s.socks fd = some ⟨key, s.serial key⟩) :
    Inv { s with reg := hdPeersInsert s.reg key fd } := by
  rcases HdPeerRegistry.hdPeersInsert_cases s.reg key fd with ⟨-, heq⟩ | ⟨i, -, heq⟩
  · rw [heq]
    exact h
  · rw [heq]
    refine ⟨?_, h.held, h.own⟩
    intro j hl hfd
    by_cases hj : j = i
    · subst hj
      simp only [HdPeerRegistry.enrol_self]
      exact hsock
    · simp only [HdPeerRegistry.enrol_ne s.reg hj] at hl hfd ⊢
      exact h.current j hl hfd

theorem connect_sock (s : State) (key : Key) (fd : Fd) :
    (s.connect key fd).socks fd = some ⟨key, (s.connect key fd).serial key⟩ := by
  simp [State.connect]

theorem lookupById_some {peerId : ℕ} {p : HdPeer} (h : hdPeersLookupById reg peerId = some p) :
    ∃ i, (reg.peers i).Live ∧ reg.peers i = p := by
  obtain ⟨i, hi, hp⟩ := Option.map_eq_some_iff.1 h
  have hfound := List.find?_some hi
  rw [Bool.and_eq_true, decide_eq_true_eq] at hfound
  exact ⟨i, hfound.1, hp⟩

theorem Inv.handshake (h : Inv s) (hsock : s.socks fd = some ⟨key, s.serial key⟩) :
    Inv (s.handshake key fd) := by
  have hins := h.insert hsock
  unfold State.handshake
  dsimp only
  generalize hdPeersInsert s.reg key fd = reg at hins ⊢
  split
  · apply Inv.call
    · exact hins.within (within_approve reg key)
    · intro sock hs
      rw [hsock, Option.some.injEq] at hs
      rw [← hs]
  · exact hins

theorem Inv.erase (h : Inv s) (n : ℕ) : Inv { s with calls := s.calls.eraseIdx n } := by
  constructor
  · exact h.current
  · exact fun c hc => h.held c (List.mem_of_mem_eraseIdx hc)
  · exact h.own

theorem Inv.perform (h : Inv s) {c : Call} {sent : Bool} (fits : Bool)
    (hown : ∀ sock, s.socks c.fd = some sock → sock.key = c.key)
    (hok : c.closes sent = true → Unrecorded s c.fd) : Inv (s.perform c sent fits) := by
  have ht := h.touch hown
  unfold State.perform
  unfold Call.closes at hok
  cases huse : c.use with
  | approve => exact ht.enqueueCmd _ _ _
  | deny =>
    rw [huse] at hok
    exact ht.close (hok rfl)
  | revoke =>
    rw [huse] at hok
    apply (ht.enqueueCmd c.key .removePeer fits).close
    cases fits <;> exact hok rfl
  | redirect => exact ht
  | incoming => exact ht
  | autoApprove =>
    rw [huse] at hok
    cases sent with
    | true => exact ht.enqueueCmd _ _ _
    | false => exact ht.close (hok rfl)
  | link => exact ht.enqueueCmd _ _ _

theorem Inv.processCmd (h : Inv s) {cmd : DpCmd} {hit : Bool}
    (hok : hit = true → cmd = .removePeer → ∀ fd, s.peers key = some fd → Unrecorded s fd) :
    Inv (s.processCmd key hit cmd) := by
  cases cmd with
  | addPeer fd =>
    rw [State.processCmd]
    by_cases hv : validFd fd ∧ hit
    · rw [if_pos hv]
      exact ⟨h.current, h.held, h.own⟩
    · rw [if_neg hv]
      exact h
  | removePeer =>
    rw [State.processCmd]
    cases hp : s.peers key with
    | none => exact h
    | some fd =>
      cases hit with
      | false => exact h
      | true =>
        have hc := h.close (hok rfl rfl fd hp)
        by_cases hv : validFd fd
        · simp only [if_pos hv, if_true]
          exact ⟨hc.current, hc.held, hc.own⟩
        · simp only [if_neg hv, if_true]
          exact ⟨h.current, h.held, h.own⟩

theorem connected_some (h : connected s key fd = some s') :
    s.socks fd = none ∧ s' = s.connect key fd := by
  unfold connected at h
  split at h
  · next hfree =>
    rw [Option.some.injEq] at h
    exact ⟨hfree.2, h.symm⟩
  · cases h

theorem Inv.connected (h : Inv s) (hok : FreshConnection s key fd)
    (hc : connected s key fd = some s') :
    Inv s' ∧ s'.socks fd = some ⟨key, s'.serial key⟩ := by
  obtain ⟨hfree, rfl⟩ := connected_some hc
  exact ⟨h.connect hfree hok, connect_sock s key fd⟩

theorem inv_init (h : Init s) : Inv s := by
  constructor
  · exact fun i hl => absurd hl (h.empty i)
  · intro c hc
    rw [h.calls] at hc
    cases hc
  · intro t ht
    rw [h.touched] at ht
    cases ht

theorem Inv.enrolled (h : Inv s) (hok : FreshConnection s key fd) (hs : enrol s key fd = some s') :
    Inv s' := by
  unfold enrol at hs
  split at hs
  · cases hs
  · obtain ⟨s1, hc, rfl⟩ := Option.map_eq_some_iff.1 hs
    obtain ⟨h1, hsock⟩ := h.connected hok hc
    exact h1.handshake hsock

theorem Inv.dialled (h : Inv s) (hok : FreshConnection s key fd) (hs : dial s key fd = some s') :
    Inv s' := by
  obtain ⟨s1, hc, rfl⟩ := Option.map_eq_some_iff.1 hs
  obtain ⟨h1, hsock⟩ := h.connected hok hc
  apply (h1.insert hsock).call
  intro sock hs
  rw [hsock, Option.some.injEq] at hs
  rw [← hs]

theorem Inv.finished (h : Inv s) {n : ℕ} {sent fits : Bool}
    (hok : ∀ c, s.calls[n]? = some c → c.closes sent = true → Unrecorded s c.fd)
    (hs : finish s n sent fits = some s') : Inv s' := by
  obtain ⟨c, hc, rfl⟩ := Option.map_eq_some_iff.1 hs
  apply (h.erase n).perform
  · exact h.held c (List.mem_of_getElem? hc)
  · exact hok c hc

theorem Inv.worked (h : Inv s) {hit : Bool}
    (hok : hit = true → (s.cmds key).head? = some .removePeer →
      ∀ fd, s.peers key = some fd → Unrecorded s fd)
    (hs : work s key hit = some s') : Inv s' := by
  unfold work at hs
  cases hc : s.cmds key with
  | nil =>
    rw [hc] at hs
    cases hs
  | cons cmd rest =>
    rw [hc] at hs
    dsimp only at hs
    rw [Option.some.injEq] at hs
    rw [← hs]
    have hpop : Inv { s with cmds := Function.update s.cmds key rest } :=
      ⟨h.current, h.held, h.own⟩
    apply hpop.processCmd
    intro hhit hcmd
    apply hok hhit
    rw [hc, hcmd, List.head?_cons]

theorem Inv.bundleRevoke (h : Inv s) (key : Key) : Inv (bundleRevoke s key) := by
  unfold Sockets.bundleRevoke
  split
  · exact h.within (within_revoke s.reg key)
  · exact h.onEntry key .revoke (within_revoke s.reg key)

theorem Inv.openConnection (h : Inv s) (targetPeerId : ℕ) :
    Inv (openConnection s targetPeerId) := by
  unfold Sockets.openConnection
  cases ht : hdPeersLookupById s.reg targetPeerId with
  | none => exact h
  | some target =>
    obtain ⟨i, hl, rfl⟩ := lookupById_some ht
    exact h.callEntry .incoming hl (Within.refl s.reg)

theorem inv_step {l : Label} (h : Inv s) (hok : StepOk s l) (hs : step s l = some s') :
    Inv s' := by
  cases l with
  | enrol key fd => exact h.enrolled hok hs
  | dial key fd => exact h.dialled hok hs
  | derp key fd fits =>
    obtain ⟨s1, hc, rfl⟩ := Option.map_eq_some_iff.1 hs
    exact (h.connected hok hc).1.enqueueCmd key _ fits
  | peerApprove key =>
    rw [step, Option.some.injEq] at hs
    rw [← hs]
    exact h.onEntry key .approve (within_approve s.reg key)
  | peerDeny key =>
    rw [step, Option.some.injEq] at hs
    rw [← hs]
    exact h.onEntry key .deny (within_deny s.reg key)
  | peerRevoke key =>
    rw [step, Option.some.injEq] at hs
    rw [← hs]
    exact h.onEntry key .revoke (within_revoke s.reg key)
  | bundleRevoke key =>
    rw [step, Option.some.injEq] at hs
    rw [← hs]
    exact h.bundleRevoke key
  | peerRedirect key =>
    rw [step, Option.some.injEq] at hs
    rw [← hs]
    exact h.onEntry key .redirect (Within.refl s.reg)
  | openConnection targetPeerId =>
    rw [step, Option.some.injEq] at hs
    rw [← hs]
    exact h.openConnection targetPeerId
  | ctlApprove key =>
    rw [step, Option.some.injEq] at hs
    rw [← hs]
    exact h.within (within_approve s.reg key)
  | ctlDeny key =>
    rw [step, Option.some.injEq] at hs
    rw [← hs]
    exact h.within (within_deny s.reg key)
  | ctlRemove key =>
    rw [step, Option.some.injEq] at hs
    rw [← hs]
    exact h.within (within_remove s.reg key)
  | finish n sent fits => exact h.finished hok hs
  | peerGone key fits =>
    rw [step, Option.some.injEq] at hs
    rw [← hs]
    exact h.enqueueCmd key _ fits
  | work key hit => exact h.worked hok hs

/-- The registry's fds are the clients' live connections, and no call uses another client's. -/
theorem entries_current (h : Runs.Reach Init step StepOk s) : Current s ∧ OwnSockets s := by
  have hinv : Inv s := h.invariant (fun _ h0 => inv_init h0) fun _ _ _ hs hok hstep =>
    inv_step hs hok hstep
  exact ⟨hinv.current, hinv.own⟩

theorem init_empty : Init {} := ⟨HdPeerRegistry.not_live_empty, rfl, rfl⟩

def uses (s : State) : List (Use × Key × Option Key) :=
  s.touched.map fun t => (t.use, t.key, t.sock.map Sock.key)

def revokedThenNext : List Label :=
  [.enrol (byteKey 1) 5, .peerApprove (byteKey 1), .finish 0 true true, .work (byteKey 1) true,
    .peerRevoke (byteKey 1), .finish 0 true true, .work (byteKey 1) true,
    .enrol (byteKey 2) 5, .peerRedirect (byteKey 2), .finish 0 true true]

theorem entries_current_next :
    ∃ s, (s.reg.peers 0).key = byteKey 2 ∧ (s.reg.peers 0).fd = 5 ∧
      uses s = [(.approve, byteKey 1, some (byteKey 1)), (.revoke, byteKey 1, some (byteKey 1)),
        (.redirect, byteKey 2, some (byteKey 2))] ∧ Current s ∧ OwnSockets s := by
  have hrun : (Runs.run (Runs.guarded step StepOk) {} revokedThenNext).map
      (fun s => (((s.reg.peers 0).key, (s.reg.peers 0).fd), uses s)) =
      some ((byteKey 2, (5 : Fd)), [(.approve, byteKey 1, some (byteKey 1)),
        (.revoke, byteKey 1, some (byteKey 1)), (.redirect, byteKey 2, some (byteKey 2))]) := by
    decide +kernel
  obtain ⟨s, hs, hval⟩ := Option.map_eq_some_iff.1 hrun
  simp only [Prod.mk.injEq] at hval
  obtain ⟨⟨hkey, hfd⟩, huses⟩ := hval
  exact ⟨s, hkey, hfd, huses,
    entries_current (Runs.reach_of_guarded (.start _ init_empty) hs)⟩

/-- Denying closes the socket and keeps its number, which the next client gets. -/
theorem denied_number_is_reused :
    ¬∀ s, Runs.Reach Init step Runs.Any s → Current s ∧ OwnSockets s := by
  intro hall
  have hrun : (Runs.run step {} [.enrol (byteKey 1) 5, .peerDeny (byteKey 1), .finish 0 true true,
      .enrol (byteKey 2) 5, .peerApprove (byteKey 1), .finish 0 true true]).map uses =
      some [(.deny, byteKey 1, some (byteKey 1)), (.approve, byteKey 1, some (byteKey 2))] := by
    decide +kernel
  obtain ⟨s, hs, huses⟩ := Option.map_eq_some_iff.1 hrun
  have hown := (hall s (Runs.reach_of_run init_empty hs)).2
  have hmem : (Use.approve, byteKey 1, some (byteKey 2)) ∈ uses s := by
    rw [huses]
    exact List.mem_cons_of_mem _ (List.mem_singleton_self _)
  obtain ⟨t, ht, htu⟩ := List.mem_map.1 hmem
  simp only [Prod.mk.injEq, Option.map_eq_some_iff] at htu
  obtain ⟨-, hkey, sock, hsock, hother⟩ := htu
  have heq := hown t ht sock hsock
  rw [hkey, hother] at heq
  exact absurd heq (by decide)

end Sockets

end HyperDerp
