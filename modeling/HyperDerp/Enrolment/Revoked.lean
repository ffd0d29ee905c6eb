import HyperDerp.HdPeers.Entries
import HyperDerp.HdPeers.Sockets

/-!
# Revocation against enrolment (`hd_handshake.cc:114-166`, `hd_peers.cc:294-320`)

An enrolment tests the denylist, applies the policy, inserts, approves and hands
the peer to the data plane, each under its own lock or under none. Revocations
run on the admin and fleet threads: `HdPeersRevoke` under the registry's lock,
then a `DpRemovePeer` if the entry had an fd. Any steps may come between two
steps of a task.

The commands of a key all go to its worker, in order.
-/

namespace HyperDerp

namespace Revoked

open Sockets (DpCmd)

inductive Phase where
  /-- The Enroll frame is read and its HMAC verified. -/
  | verified
  /-- The denylist check passed. -/
  | checked
  /-- The policy check passed. -/
  | admitted
  /-- The entry is inserted. -/
  | inserted
  /-- The entry is approved and the Approved frame written. -/
  | approved
  /-- A link to a seed relay is enrolled at the other end (`server.cc:1092-1101`). -/
  | dialled
  /-- The link has its entry. -/
  | linked
  /-- `PeerApprove` has released the lock. -/
  | granted
  /-- A revocation has released the lock. -/
  | evicting
  deriving DecidableEq

structure Task where
  phase : Phase
  key : Key
  fd : Fd

structure State where
  reg : HdPeerRegistry := {}
  tasks : List Task := []
  cmds : Key → List DpCmd := fun _ => []
  /-- The peer table of the key's worker. -/
  peers : Key → Option Fd := fun _ => none
  /-- How many of the key's commands were issued before its last revocation was done. -/
  owed : Key → ℕ := fun _ => 0

inductive Label where
  /-- An Enroll frame with a valid HMAC has come in. -/
  | accept (key : Key) (fd : Fd)
  | dial (key : Key) (fd : Fd)
  /-- A DERP client: `DpAddPeer` without a look at the denylist. -/
  | derp (key : Key) (fd : Fd) (fits : Bool)
  /-- The next step of a task; whether its policy check passes, its write succeeds or the
  command ring has room. -/
  | advance (n : ℕ) (ok : Bool)
  | peerApprove (key : Key)
  | peerRevoke (key : Key)
  | bundleRevoke (key : Key)
  /-- `ctl_channel.cc`: the entry is removed. -/
  | ctlRemove (key : Key)
  /-- The control plane saw the peer disconnect: `DpRemovePeer`. -/
  | peerGone (key : Key) (fits : Bool)
  /-- The worker takes a command; whether its table has a slot for the key. -/
  | work (key : Key) (hit : Bool)

namespace State

def start (s : State) (phase : Phase) (key : Key) (fd : Fd) : State :=
  { s with tasks := s.tasks ++ [⟨phase, key, fd⟩] }

def enqueue (s : State) (key : Key) (cmd : DpCmd) (fits : Bool) : State :=
  if fits then { s with cmds := Function.update s.cmds key (s.cmds key ++ [cmd]) } else s

def settle (s : State) (key : Key) : State :=
  { s with owed := Function.update s.owed key (s.cmds key).length }

def proceed (s : State) (t : Task) (ok : Bool) : State :=
  match t.phase with
  | .verified => if hdPeersIsDenied s.reg t.key then s else s.start .checked t.key t.fd
  | .checked =>
    if s.reg.enrollMode = .kAutoApprove ∧ !ok then s else s.start .admitted t.key t.fd
  | .admitted =>
    let s' := { s with reg := hdPeersInsert s.reg t.key t.fd }
    if s.reg.enrollMode = .kAutoApprove then s'.start .inserted t.key t.fd else s'
  | .inserted =>
    let s' := { s with reg := (hdPeersApprove s.reg t.key).getD s.reg }
    if ok then s'.start .approved t.key t.fd else s'
  | .dialled => { s with reg := hdPeersInsert s.reg t.key t.fd }.start .linked t.key t.fd
  | .approved | .linked | .granted => s.enqueue t.key (.addPeer t.fd) ok
  | .evicting => (s.enqueue t.key .removePeer ok).settle t.key

/-- The worker has taken the first of the key's commands. -/
def pop (s : State) (key : Key) : State :=
  { s with
    cmds := Function.update s.cmds key (s.cmds key).tail
    owed := Function.update s.owed key (s.owed key - 1) }

/-- `ProcessCmdAdd` and `ProcessCmdRemove` (`data_plane.cc:2040-2122`). -/
def processCmd (s : State) (key : Key) (hit : Bool) : DpCmd → State
  | .addPeer fd =>
    if validFd fd ∧ hit then { s with peers := Function.update s.peers key (some fd) } else s
  | .removePeer => { s with peers := Function.update s.peers key none }

end State

open State

/-- `HdPeersRevoke` and what is done after the lock. -/
def revoke (s : State) (key : Key) : State :=
  let s' := { s with reg := hdPeersRevoke s.reg key }
  match entryFd s.reg key with
  | some fd => s'.start .evicting key fd
  | none => s'.settle key

def peerApprove (s : State) (key : Key) : State :=
  let s' := { s with reg := (hdPeersApprove s.reg key).getD s.reg }
  match entryFd s.reg key with
  | some fd => s'.start .granted key fd
  | none => s'

def work (s : State) (key : Key) (hit : Bool) : Option State :=
  (s.cmds key).head?.map fun cmd => (s.pop key).processCmd key hit cmd

def step (s : State) : Label → Option State
  | .accept key fd => some (s.start .verified key fd)
  | .dial key fd => some (s.start .dialled key fd)
  | .derp key fd fits => some (s.enqueue key (.addPeer fd) fits)
  | .advance n ok =>
    (s.tasks[n]?).map fun t => { s with tasks := s.tasks.eraseIdx n }.proceed t ok
  | .peerApprove key => some (peerApprove s key)
  | .peerRevoke key => some (if hdPeersLookup s.reg key = none then s else revoke s key)
  | .bundleRevoke key => some (revoke s key)
  | .ctlRemove key => some { s with reg := hdPeersRemove s.reg key }
  | .peerGone key fits => some (s.enqueue key .removePeer fits)
  | .work key hit => work s key hit

structure Init (s : State) : Prop where
  empty : ∀ i, ¬(s.reg.peers i).Live
  idle : s.tasks = []
  queues : ∀ key, s.cmds key = []
  tables : ∀ key, s.peers key = none
  owed : ∀ key, s.owed key = 0

/-- A revocation of the key has yet to issue its `DpRemovePeer`. -/
def Evicting (s : State) (key : Key) : Prop := ∃ t ∈ s.tasks, t.phase = .evicting ∧ t.key = key

structure StaysGone (s : State) : Prop where
  registry : ∀ key, hdPeersIsDenied s.reg key = true → hdPeersLookup s.reg key = none
  /-- When all commands up to its removal are processed, the key is in no peer table. -/
  workers : ∀ key, hdPeersIsDenied s.reg key = true → ¬Evicting s key → s.owed key = 0 →
    s.peers key = none

/-! ### When it does -/

/-- The commands leave the key out of the table, whichever adds succeed. -/
def Drains : Option Fd → List DpCmd → Prop
  | peer, [] => peer = none
  | peer, .addPeer fd :: cmds => Drains (some fd) cmds ∧ Drains peer cmds
  | _, .removePeer :: cmds => Drains none cmds

def TaskOk (s : State) (ok : Bool) (t : Task) : Prop :=
  match t.phase with
  | .admitted | .dialled => hdPeersIsDenied s.reg t.key = false
  | .approved | .linked | .granted => ok = true → hdPeersIsDenied s.reg t.key = false
  | .evicting => ok = false → Drains (s.peers t.key) (s.cmds t.key)
  | _ => True

/-- No step inserts a key on the denylist or hands it to the data plane, and a revocation
issues its `DpRemovePeer` unless the commands already issued remove the key. -/
def StepOk (s : State) : Label → Prop
  | .derp key _ fits => fits = true → hdPeersIsDenied s.reg key = false
  | .advance n ok => ∀ t, s.tasks[n]? = some t → TaskOk s ok t
  | .peerRevoke key => hdPeersLookup s.reg key ≠ none → entryFd s.reg key = none →
      Drains (s.peers key) (s.cmds key)
  | .bundleRevoke key => entryFd s.reg key = none → Drains (s.peers key) (s.cmds key)
  | _ => True

/-! ### Queues -/

theorem drains_removed (peer : Option Fd) (cmds : List DpCmd) :
    Drains peer (cmds ++ [DpCmd.removePeer]) := by
  induction cmds generalizing peer with
  | nil => rfl
  | cons cmd cmds ih =>
    cases cmd with
    | addPeer fd => exact ⟨ih (some fd), ih peer⟩
    | removePeer => exact ih none

theorem drains_tail {s : State} {key : Key} {cmd : DpCmd} {cmds : List DpCmd} (hit : Bool)
    (h : Drains (s.peers key) (cmd :: cmds)) :
    Drains ((s.processCmd key hit cmd).peers key) cmds := by
  cases cmd with
  | addPeer fd =>
    rw [State.processCmd]
    split
    · simpa using h.1
    · exact h.2
  | removePeer =>
    simp only [State.processCmd, Function.update_self]
    exact h

@[simp] theorem processCmd_cmds (s : State) (key : Key) (hit : Bool) (cmd : DpCmd) :
    (s.processCmd key hit cmd).cmds = s.cmds := by
  cases cmd with
  | addPeer fd =>
    rw [State.processCmd]
    split <;> rfl
  | removePeer => rfl

@[simp] theorem processCmd_reg (s : State) (key : Key) (hit : Bool) (cmd : DpCmd) :
    (s.processCmd key hit cmd).reg = s.reg := by
  cases cmd with
  | addPeer fd =>
    rw [State.processCmd]
    split <;> rfl
  | removePeer => rfl

@[simp] theorem processCmd_tasks (s : State) (key : Key) (hit : Bool) (cmd : DpCmd) :
    (s.processCmd key hit cmd).tasks = s.tasks := by
  cases cmd with
  | addPeer fd =>
    rw [State.processCmd]
    split <;> rfl
  | removePeer => rfl

theorem processCmd_peers_ne {k key : Key} (hk : k ≠ key) (s : State) (hit : Bool) (cmd : DpCmd) :
    (s.processCmd key hit cmd).peers k = s.peers k := by
  cases cmd with
  | addPeer fd =>
    rw [State.processCmd]
    split
    · exact Function.update_of_ne hk ..
    · rfl
  | removePeer => exact Function.update_of_ne hk ..

@[simp] theorem processCmd_owed (s : State) (key : Key) (hit : Bool) (cmd : DpCmd) :
    (s.processCmd key hit cmd).owed = s.owed := by
  cases cmd with
  | addPeer fd =>
    rw [State.processCmd]
    split <;> rfl
  | removePeer => rfl

/-- The key's commands up to its removal drain, and no later one adds it. -/
structure Cleared (s : State) (key : Key) : Prop where
  drains : Drains (s.peers key) ((s.cmds key).take (s.owed key))
  later : ∀ cmd ∈ (s.cmds key).drop (s.owed key), cmd = .removePeer
  within : s.owed key ≤ (s.cmds key).length

structure Inv (s : State) : Prop where
  distinct : s.reg.KeysDistinct
  unregistered : ∀ key, hdPeersIsDenied s.reg key = true → hdPeersLookup s.reg key = none
  cleared : ∀ key, hdPeersIsDenied s.reg key = true → Evicting s key ∨ Cleared s key

variable {s s' : State} {key k : Key} {fd : Fd}

theorem Inv.staysGone (h : Inv s) : StaysGone s where
  registry := h.unregistered
  workers key hdenied hno howed := by
    rcases h.cleared key hdenied with hev | hc
    · exact absurd hev hno
    · have hdrains := hc.drains
      rw [howed, List.take_zero] at hdrains
      exact hdrains

theorem Cleared.of_queue (h : Cleared s key) (hcmds : s'.cmds key = s.cmds key)
    (hpeers : s'.peers key = s.peers key) (howed : s'.owed key = s.owed key) : Cleared s' key := by
  constructor
  · rw [hcmds, hpeers, howed]
    exact h.drains
  · rw [hcmds, howed]
    exact h.later
  · rw [hcmds, howed]
    exact h.within

theorem Cleared.snoc (h : Cleared s key) (hcmds : s'.cmds key = s.cmds key ++ [DpCmd.removePeer])
    (hpeers : s'.peers key = s.peers key) (howed : s'.owed key = s.owed key) : Cleared s' key := by
  have hle := h.within
  constructor
  · rw [hcmds, hpeers, howed, List.take_append_of_le_length hle]
    exact h.drains
  · intro cmd hcmd
    rw [hcmds, howed, List.drop_append_of_le_length hle] at hcmd
    rcases List.mem_append.1 hcmd with hcmd | hcmd
    · exact h.later cmd hcmd
    · exact List.mem_singleton.1 hcmd
  · rw [hcmds, howed, List.length_append]
    omega

theorem cleared_settle (h : Drains (s.peers key) (s.cmds key)) : Cleared (s.settle key) key := by
  constructor
  · simpa [State.settle] using h
  · simp [State.settle]
  · simp [State.settle]

theorem Cleared.worked {cmd : DpCmd} (h : Cleared s key) (hit : Bool)
    (hq : (s.cmds key).head? = some cmd) :
    Cleared ((s.pop key).processCmd key hit cmd) key := by
  obtain ⟨rest, hrest⟩ := List.head?_eq_some_iff.1 hq
  have hdrains := h.drains
  have hlater := h.later
  have hwithin := h.within
  rw [hrest] at hdrains hlater hwithin
  have hcmds : (s.pop key).cmds key = rest := by simp [State.pop, hrest]
  have howed : (s.pop key).owed key = s.owed key - 1 := by simp [State.pop]
  have hpeers : (s.pop key).peers key = s.peers key := rfl
  rcases Nat.eq_zero_or_pos (s.owed key) with hzero | hpos
  · rw [hzero] at hdrains hlater
    obtain rfl : cmd = .removePeer := hlater cmd (List.mem_cons_self ..)
    constructor
    · rw [processCmd_cmds, processCmd_owed, hcmds, howed, hzero]
      simp [State.processCmd, Drains]
    · rw [processCmd_cmds, processCmd_owed, hcmds, howed, hzero]
      exact fun c hc => hlater c (List.mem_cons_of_mem _ hc)
    · rw [processCmd_cmds, processCmd_owed, howed, hzero]
      exact Nat.zero_le _
  · obtain ⟨n, hn⟩ := Nat.exists_eq_add_of_lt hpos
    rw [Nat.zero_add] at hn
    rw [hn] at hdrains hlater hwithin
    constructor
    · rw [processCmd_cmds, processCmd_owed, hcmds, howed, hn, Nat.add_sub_cancel]
      rw [← hpeers] at hdrains
      exact drains_tail hit hdrains
    · rw [processCmd_cmds, processCmd_owed, hcmds, howed, hn, Nat.add_sub_cancel]
      exact hlater
    · rw [processCmd_cmds, processCmd_owed, hcmds, howed, hn, Nat.add_sub_cancel]
      simpa using hwithin

/-! ### Steps -/

@[simp] theorem start_reg (s : State) (phase : Phase) (key : Key) (fd : Fd) :
    (s.start phase key fd).reg = s.reg := rfl

@[simp] theorem settle_reg (s : State) (key : Key) : (s.settle key).reg = s.reg := rfl

theorem evicting_start (phase : Phase) (h : Evicting s k) : Evicting (s.start phase key fd) k := by
  obtain ⟨t, ht, hphase, hkey⟩ := h
  exact ⟨t, List.mem_append_left _ ht, hphase, hkey⟩

theorem Inv.start (h : Inv s) (phase : Phase) (key : Key) (fd : Fd) :
    Inv (s.start phase key fd) where
  distinct := h.distinct
  unregistered := h.unregistered
  cleared k hk := (h.cleared k hk).imp (evicting_start phase) fun hc => hc.of_queue rfl rfl rfl

theorem Inv.registry (h : Inv s) {reg : HdPeerRegistry} (hdistinct : reg.KeysDistinct)
    (hdeny : reg.denylist = s.reg.denylist)
    (hnone : ∀ k, hdPeersIsDenied s.reg k = true → hdPeersLookup reg k = none) :
    Inv { s with reg := reg } := by
  have hsame : ∀ k, hdPeersIsDenied reg k = hdPeersIsDenied s.reg k := by
    intro k
    rw [hdPeersIsDenied, hdPeersIsDenied, hdeny]
  constructor
  · exact hdistinct
  · intro k hk
    rw [hsame] at hk
    exact hnone k hk
  · intro k hk
    rw [hsame] at hk
    exact (h.cleared k hk).imp id fun hc => hc.of_queue rfl rfl rfl

theorem Inv.insert (h : Inv s) (hkey : hdPeersIsDenied s.reg key = false) (fd : Fd) :
    Inv { s with reg := hdPeersInsert s.reg key fd } := by
  apply h.registry (h.distinct.insert key fd) (HdPeerRegistry.insert_denylist ..)
  intro k hk
  have hne : k ≠ key := by
    rintro rfl
    rw [hk] at hkey
    cases hkey
  rw [HdPeerRegistry.lookup_insert_ne hne, h.unregistered k hk]

theorem Inv.approve (h : Inv s) (key : Key) :
    Inv { s with reg := (hdPeersApprove s.reg key).getD s.reg } := by
  have hsets := HdPeerRegistry.sets_approve s.reg key
  apply h.registry (hsets.distinct h.distinct) hsets.denylist
  intro k hk
  rw [hsets.lookup, h.unregistered k hk]

theorem Inv.remove (h : Inv s) (key : Key) : Inv { s with reg := hdPeersRemove s.reg key } := by
  apply h.registry (h.distinct.remove key) (HdPeerRegistry.remove_denylist ..)
  exact fun k hk => HdPeerRegistry.lookup_remove_none h.distinct (h.unregistered k hk) key

theorem enqueue_cmds_ne (s : State) (hk : k ≠ key) (cmd : DpCmd) (fits : Bool) :
    (s.enqueue key cmd fits).cmds k = s.cmds k := by
  unfold State.enqueue
  split
  · simp [hk]
  · rfl

@[simp] theorem enqueue_peers (s : State) (key : Key) (cmd : DpCmd) (fits : Bool) :
    (s.enqueue key cmd fits).peers = s.peers := by
  unfold State.enqueue
  split <;> rfl

@[simp] theorem enqueue_owed (s : State) (key : Key) (cmd : DpCmd) (fits : Bool) :
    (s.enqueue key cmd fits).owed = s.owed := by
  unfold State.enqueue
  split <;> rfl

@[simp] theorem enqueue_reg (s : State) (key : Key) (cmd : DpCmd) (fits : Bool) :
    (s.enqueue key cmd fits).reg = s.reg := by
  unfold State.enqueue
  split <;> rfl

@[simp] theorem enqueue_tasks (s : State) (key : Key) (cmd : DpCmd) (fits : Bool) :
    (s.enqueue key cmd fits).tasks = s.tasks := by
  unfold State.enqueue
  split <;> rfl

theorem Inv.enqueue (h : Inv s) {cmd : DpCmd} {fits : Bool}
    (hok : fits = true → cmd = .removePeer ∨ hdPeersIsDenied s.reg key = false) :
    Inv (s.enqueue key cmd fits) := by
  cases fits with
  | false => exact h
  | true =>
    refine ⟨h.distinct, h.unregistered, fun k hk => (h.cleared k hk).imp id fun hc => ?_⟩
    by_cases hkey : k = key
    · rw [hkey] at hk hc ⊢
      rcases hok rfl with hcmd | hallowed
      · exact hc.snoc (by simp [State.enqueue, hcmd]) rfl rfl
      · have hdenied : hdPeersIsDenied s.reg key = true := hk
        rw [hallowed] at hdenied
        cases hdenied
    · exact hc.of_queue (enqueue_cmds_ne s hkey cmd true) rfl rfl

theorem mem_eraseIdx_or {tasks : List Task} {n : ℕ} {t u : Task} (ht : tasks[n]? = some t)
    (hu : u ∈ tasks) : u = t ∨ u ∈ tasks.eraseIdx n := by
  induction tasks generalizing n with
  | nil => cases hu
  | cons x xs ih =>
    cases n with
    | zero =>
      simp only [List.getElem?_cons_zero, Option.some.injEq] at ht
      rw [List.eraseIdx_zero, List.tail_cons, ← ht]
      exact List.mem_cons.1 hu
    | succ n =>
      rw [List.eraseIdx_cons_succ, List.mem_cons]
      rcases List.mem_cons.1 hu with rfl | hu
      · exact .inr (.inl rfl)
      · exact (ih ht hu).imp id .inr

theorem evicting_erase {n : ℕ} {t : Task} (ht : s.tasks[n]? = some t)
    (hother : t.phase ≠ .evicting ∨ t.key ≠ k) (h : Evicting s k) :
    Evicting { s with tasks := s.tasks.eraseIdx n } k := by
  obtain ⟨u, hu, hphase, hkey⟩ := h
  rcases mem_eraseIdx_or ht hu with rfl | hu
  · rcases hother with hother | hother
    · exact absurd hphase hother
    · exact absurd hkey hother
  · exact ⟨u, hu, hphase, hkey⟩

theorem Inv.erase (h : Inv s) {n : ℕ} {t : Task} (ht : s.tasks[n]? = some t)
    (hphase : t.phase ≠ .evicting) : Inv { s with tasks := s.tasks.eraseIdx n } where
  distinct := h.distinct
  unregistered := h.unregistered
  cleared k hk := (h.cleared k hk).imp (evicting_erase ht (.inl hphase))
    fun hc => hc.of_queue rfl rfl rfl

theorem Inv.evict (h : Inv s) {n : ℕ} {t : Task} {ok : Bool} (ht : s.tasks[n]? = some t)
    (hok : ok = false → Drains (s.peers t.key) (s.cmds t.key)) :
    Inv ((State.enqueue { s with tasks := s.tasks.eraseIdx n } t.key .removePeer ok).settle
      t.key) := by
  refine ⟨by simpa [State.settle] using h.distinct, by simpa [State.settle] using h.unregistered,
    fun k hk => ?_⟩
  have hdenied : hdPeersIsDenied s.reg k = true := by simpa [State.settle] using hk
  by_cases hkey : k = t.key
  · right
    rw [hkey]
    apply cleared_settle
    cases ok with
    | false => exact hok rfl
    | true =>
      simp only [State.enqueue, if_true, Function.update_self]
      exact drains_removed ..
  · rcases h.cleared k hdenied with hev | hc
    · left
      obtain ⟨u, hu, hphase, hkeyu⟩ := evicting_erase ht (.inr (Ne.symm hkey)) hev
      exact ⟨u, by simpa [State.settle] using hu, hphase, hkeyu⟩
    · right
      apply hc.of_queue
      · simp [State.settle, enqueue_cmds_ne _ hkey]
      · simp [State.settle]
      · simp [State.settle, hkey]

theorem Inv.proceed (h : Inv s) {n : ℕ} {t : Task} {ok : Bool} (ht : s.tasks[n]? = some t)
    (hok : StepOk s (.advance n ok)) :
    Inv (State.proceed { s with tasks := s.tasks.eraseIdx n } t ok) := by
  have hcond : TaskOk s ok t := hok t ht
  unfold TaskOk at hcond
  unfold State.proceed
  cases hphase : t.phase with
  | evicting =>
    rw [hphase] at hcond
    exact h.evict ht hcond
  | verified =>
    have h1 := h.erase ht (by rw [hphase]; decide)
    dsimp only
    split
    · exact h1
    · exact h1.start ..
  | checked =>
    have h1 := h.erase ht (by rw [hphase]; decide)
    dsimp only
    split
    · exact h1
    · exact h1.start ..
  | admitted =>
    have h1 := h.erase ht (by rw [hphase]; decide)
    rw [hphase] at hcond
    have h2 := h1.insert hcond t.fd
    dsimp only at h2 ⊢
    split
    · exact h2.start ..
    · exact h2
  | inserted =>
    have h1 := h.erase ht (by rw [hphase]; decide)
    have h2 := h1.approve t.key
    dsimp only at h2 ⊢
    split
    · exact h2.start ..
    · exact h2
  | dialled =>
    have h1 := h.erase ht (by rw [hphase]; decide)
    rw [hphase] at hcond
    exact (h1.insert hcond t.fd).start ..
  | approved =>
    rw [hphase] at hcond
    exact (h.erase ht (by rw [hphase]; decide)).enqueue fun hfits => .inr (hcond hfits)
  | linked =>
    rw [hphase] at hcond
    exact (h.erase ht (by rw [hphase]; decide)).enqueue fun hfits => .inr (hcond hfits)
  | granted =>
    rw [hphase] at hcond
    exact (h.erase ht (by rw [hphase]; decide)).enqueue fun hfits => .inr (hcond hfits)

theorem Inv.granted (h : Inv s) (key : Key) : Inv (peerApprove s key) := by
  have happroved := h.approve key
  unfold peerApprove
  dsimp only
  split
  · exact happroved.start ..
  · exact happroved

theorem Inv.revoke (h : Inv s)
    (hok : entryFd s.reg key = none → Drains (s.peers key) (s.cmds key)) :
    Inv (revoke s key) := by
  have hdistinct : (hdPeersRevoke s.reg key).KeysDistinct := h.distinct.revoke key
  have hnone : ∀ k, hdPeersIsDenied (hdPeersRevoke s.reg key) k = true →
      hdPeersLookup (hdPeersRevoke s.reg key) k = none := by
    intro k hk
    rw [HdPeerRegistry.lookup_revoke]
    rcases HdPeerRegistry.denied_revoke.1 hk with rfl | hk
    · rw [HdPeerRegistry.lookup_remove_self h.distinct]
    · rw [HdPeerRegistry.lookup_remove_none h.distinct (h.unregistered k hk)]
  have hor : ∀ k, hdPeersIsDenied (hdPeersRevoke s.reg key) k = true →
      k = key ∨ hdPeersIsDenied s.reg k = true := fun k hk => HdPeerRegistry.denied_revoke.1 hk
  have hreg : (Revoked.revoke s key).reg = hdPeersRevoke s.reg key := by
    unfold Revoked.revoke
    dsimp only
    split
    · rw [start_reg]
    · rw [settle_reg]
  refine ⟨by rw [hreg]; exact hdistinct, by rw [hreg]; exact hnone, fun k hk => ?_⟩
  rw [hreg] at hk
  unfold Revoked.revoke
  dsimp only
  cases hfd : entryFd s.reg key with
  | some fd =>
    rcases hor k hk with rfl | hk
    · exact .inl ⟨_, List.mem_append_right _ (List.mem_singleton_self _), rfl, rfl⟩
    · rcases h.cleared k hk with ⟨t, ht, hev⟩ | hc
      · exact .inl ⟨t, List.mem_append_left _ ht, hev⟩
      · exact .inr (hc.of_queue rfl rfl rfl)
  | none =>
    by_cases hkey : k = key
    · rw [hkey]
      exact .inr (cleared_settle (hok hfd))
    · rcases hor k hk with rfl | hk
      · exact absurd rfl hkey
      · rcases h.cleared k hk with ⟨t, ht, hev⟩ | hc
        · left
          refine ⟨t, ?_, hev⟩
          simpa [State.settle] using ht
        · right
          apply hc.of_queue
          · simp [State.settle]
          · simp [State.settle]
          · simp [State.settle, hkey]

theorem Inv.worked (h : Inv s) {hit : Bool} (hs : work s key hit = some s') : Inv s' := by
  obtain ⟨cmd, hq, rfl⟩ := Option.map_eq_some_iff.1 hs
  refine ⟨?_, ?_, fun k hk => ?_⟩
  · rw [processCmd_reg]
    exact h.distinct
  · rw [processCmd_reg]
    exact h.unregistered
  · rw [processCmd_reg] at hk
    rcases h.cleared k hk with ⟨t, ht, hev⟩ | hc
    · left
      refine ⟨t, ?_, hev⟩
      rw [processCmd_tasks]
      exact ht
    · right
      by_cases hkey : k = key
      · rw [hkey] at hc ⊢
        exact hc.worked hit hq
      · apply hc.of_queue
        · simp [State.pop, hkey]
        · exact processCmd_peers_ne hkey ..
        · simp [State.pop, hkey]

theorem inv_init (h : Init s) : Inv s where
  distinct i _ hl _ _ := absurd hl (h.empty i)
  unregistered _ _ := HdPeerRegistry.lookup_none.2 fun i hl => absurd hl (h.empty i)
  cleared key _ := by
    right
    constructor
    · rw [h.queues]
      simpa [Drains] using h.tables key
    · rw [h.queues]
      simp
    · rw [h.owed]
      exact Nat.zero_le _

theorem inv_step {l : Label} (h : Inv s) (hok : StepOk s l) (hs : step s l = some s') :
    Inv s' := by
  cases l with
  | work key hit => exact h.worked hs
  | advance n ok =>
    obtain ⟨t, ht, rfl⟩ := Option.map_eq_some_iff.1 hs
    exact h.proceed ht hok
  | accept key fd =>
    rw [step, Option.some.injEq] at hs
    rw [← hs]
    exact h.start ..
  | dial key fd =>
    rw [step, Option.some.injEq] at hs
    rw [← hs]
    exact h.start ..
  | derp key fd fits =>
    rw [step, Option.some.injEq] at hs
    rw [← hs]
    have hcond : fits = true → hdPeersIsDenied s.reg key = false := hok
    exact h.enqueue fun hfits => .inr (hcond hfits)
  | peerApprove key =>
    rw [step, Option.some.injEq] at hs
    rw [← hs]
    exact h.granted key
  | peerRevoke key =>
    rw [step, Option.some.injEq] at hs
    rw [← hs]
    split
    next => exact h
    next hknown => exact h.revoke (hok hknown)
  | bundleRevoke key =>
    rw [step, Option.some.injEq] at hs
    rw [← hs]
    exact h.revoke hok
  | ctlRemove key =>
    rw [step, Option.some.injEq] at hs
    rw [← hs]
    exact h.remove key
  | peerGone key fits =>
    rw [step, Option.some.injEq] at hs
    rw [← hs]
    exact h.enqueue fun _ => .inl rfl

/-- A revoked key has no entry, and no peer table holds it once its removal is processed. -/
theorem revoked_stays_gone (h : Runs.Reach Init step StepOk s) : StaysGone s :=
  (h.invariant (fun _ h0 => inv_init h0) fun _ _ _ hs hok hstep => inv_step hs hok hstep).staysGone

/-! ### Runs -/

instance decidableDrains : (peer : Option Fd) → (cmds : List DpCmd) → Decidable (Drains peer cmds)
  | peer, [] => inferInstanceAs (Decidable (peer = none))
  | peer, .addPeer fd :: cmds =>
    have := decidableDrains (some fd) cmds
    have := decidableDrains peer cmds
    inferInstanceAs (Decidable (Drains (some fd) cmds ∧ Drains peer cmds))
  | _, .removePeer :: cmds => decidableDrains none cmds

instance (s : State) (ok : Bool) (t : Task) : Decidable (TaskOk s ok t) := by
  unfold TaskOk
  cases t.phase <;> infer_instance

instance (s : State) (l : Label) : Decidable (StepOk s l) :=
  match l with
  | .derp key _ fits =>
    inferInstanceAs (Decidable (fits = true → hdPeersIsDenied s.reg key = false))
  | .advance n ok => inferInstanceAs (Decidable (∀ t ∈ s.tasks[n]?, TaskOk s ok t))
  | .peerRevoke key =>
    inferInstanceAs (Decidable (hdPeersLookup s.reg key ≠ none → entryFd s.reg key = none →
      Drains (s.peers key) (s.cmds key)))
  | .bundleRevoke key =>
    inferInstanceAs (Decidable (entryFd s.reg key = none → Drains (s.peers key) (s.cmds key)))
  | .accept _ _ | .dial _ _ | .peerApprove _ | .ctlRemove _ | .peerGone _ _ | .work _ _ =>
    inferInstanceAs (Decidable True)

theorem init_empty : Init {} :=
  ⟨HdPeerRegistry.not_live_empty, rfl, fun _ => rfl, fun _ => rfl, fun _ => rfl⟩

/-- Whether the key is denied, is registered, how many commands are owed to it, and its fd in
the worker's table. -/
def standing (s : State) (key : Key) : Bool × Bool × ℕ × Option Fd :=
  (hdPeersIsDenied s.reg key, (hdPeersLookup s.reg key).isSome, s.owed key, s.peers key)

def enrolledThenRevoked : List Label :=
  [.accept (byteKey 1) 5, .advance 0 true, .advance 0 true, .advance 0 true,
    .peerApprove (byteKey 1), .advance 0 true, .work (byteKey 1) true,
    .peerRevoke (byteKey 1), .advance 0 true, .work (byteKey 1) true]

theorem revoked_stays_gone_enrolled :
    ∃ s, standing s (byteKey 1) = (true, false, 0, none) ∧ StaysGone s := by
  have hrun : (Runs.run (Runs.guarded step StepOk) {} enrolledThenRevoked).map
      (fun s => standing s (byteKey 1)) = some (true, false, 0, none) := by
    decide +kernel
  obtain ⟨s, hs, hval⟩ := Option.map_eq_some_iff.1 hrun
  exact ⟨s, hval, revoked_stays_gone (Runs.reach_of_guarded (.start _ init_empty) hs)⟩

def revokedDuringHandshake : List Label :=
  [.accept (byteKey 1) 5, .advance 0 true, .advance 0 true, .advance 0 true,
    .accept (byteKey 1) 6, .advance 0 true,
    .peerRevoke (byteKey 1), .advance 1 true, .advance 0 true, .advance 0 true]

/-- The handshake inserts the key that has just been revoked. -/
theorem handshake_reinserts :
    ¬∀ s, Runs.Reach Init step Runs.Any s → StaysGone s := by
  intro hall
  have hrun : (Runs.run step {} revokedDuringHandshake).map (fun s => standing s (byteKey 1)) =
      some (true, true, 1, none) := by
    decide +kernel
  obtain ⟨s, hs, hval⟩ := Option.map_eq_some_iff.1 hrun
  simp only [standing, Prod.mk.injEq] at hval
  obtain ⟨hdenied, hfound, -⟩ := hval
  rw [(hall s (Runs.reach_of_run init_empty hs)).registry _ hdenied] at hfound
  cases hfound

end Revoked

end HyperDerp
