import HyperDerp.ControlPlane.Reconnect

/-!
# Frames that speak for another peer

A client frame of any type but SendPacket reaches `CpProcessFrame` in the format
of the workers' own notifications. The registrations of the other peers survive
every such frame, except a PeerGone that names one of them and a NotePreferred
whose fd is still registered for one of them.
-/

namespace HyperDerp

/-! ### One client frame from end to end -/

/-- The commands on the rings of `ctx` beyond those of `ctx0`, worker by worker. -/
def newCmds (ctx0 ctx : Ctx) : List (ℕ × Cmd) :=
  (List.range ctx.numWorkers).flatMap fun u =>
    ((ctx.workers u).cmdRing.drop (ctx0.workers u).cmdRing.length).map fun cmd => (u, cmd)

def runCmds (ctx : Ctx) (cmds : List (ℕ × Cmd)) : Ctx :=
  cmds.foldl (fun ctx uc => (processCmd ctx uc.1 uc.2).1) ctx

def runIssued (ctx0 ctx : Ctx) : Ctx :=
  runCmds { ctx with workers := fun u =>
    { ctx.workers u with cmdRing := (ctx0.workers u).cmdRing } } (newCmds ctx0 ctx)

def processMsg (cp : ControlPlane) (m : PipeMsg) : ControlPlane :=
  let cp' := cpProcessFrame cp m.fd m.type m.payload
  { cp' with dataPlane := runIssued cp.dataPlane cp'.dataPlane }

/-- A frame of the client in slot `p` of worker `v`: `DispatchFrame`, the control
plane on the messages this put on the pipe, the workers on the commands of that. -/
def processClientFrame (cp : ControlPlane) (v : ℕ) (p : Slot) (frame : Bytes) : ControlPlane :=
  let ctx := dispatchFrame cp.dataPlane v p frame
  let old := (cp.dataPlane.workers v).pipe
  ((ctx.workers v).pipe.drop old.length).foldl processMsg
    { cp with dataPlane := ctx.onWorker v fun w => { w with pipe := old } }

/-- Entries of keys other than `k` are the same in both tables. -/
def SameOthers {E A : Type} {I : Type} (occ : E → LinearProbe.Occ) (key : E → Key) (val : E → A)
    (k : Key) (t t' : I → E) : Prop :=
  ∀ a, (occ (t a) = .live ∧ key (t a) ≠ k) ∨ (occ (t' a) = .live ∧ key (t' a) ≠ k) →
    val (t' a) = val (t a)

/-- The registrations of peers other than `k`, in the registry and in the workers'
tables. Send queues and rule caches are no part of a registration. -/
structure OthersKept (k : Key) (cp cp' : ControlPlane) : Prop where
  reg : SameOthers CpPeer.occupied CpPeer.key id k cp.reg.peers cp'.reg.peers
  table : ∀ u, SameOthers Peer.occupied Peer.key Peer.core k (cp.dataPlane.workers u).ht
    (cp'.dataPlane.workers u).ht

/-! ### The frames that break it -/

/-- PeerGone for another key that is registered or in its worker's table. -/
def ForgesGone (cp : ControlPlane) (k : Key) (m : PipeMsg) (gone : Key) : Prop :=
  m.type = FrameType.kPeerGone ∧ goneKey m.payload = some gone ∧ gone ≠ k ∧
    ((cpRegistryLookup cp.reg gone).isSome ∨
      (htLookup (cp.dataPlane.workers (peerWorker cp.dataPlane.numWorkers gone)) gone).isSome)

/-- NotePreferred that meets another peer behind its fd. -/
def ForgesPreferred (cp : ControlPlane) (k : Key) (m : PipeMsg) : Prop :=
  m.type = FrameType.kNotePreferred ∧ ∃ b rest a, m.payload = b :: rest ∧ cp.peerOf m.fd = some a ∧
    (cp.reg.peers a).occupied = .live ∧ (cp.reg.peers a).key ≠ k ∧ (cp.reg.peers a).preferred ≠ b

/-- The frame of the client in slot `p` touches somebody else's registration. -/
def Forges (cp : ControlPlane) (v : ℕ) (p : Slot) (frame : Bytes) : Prop :=
  ∃ m, forwarded (cp.dataPlane.workers v) p frame = some m ∧
    ((∃ gone, ForgesGone cp ((cp.dataPlane.workers v).ht p).key m gone) ∨
      ForgesPreferred cp ((cp.dataPlane.workers v).ht p).key m)

/-- A ring that takes a removal even after every watcher was notified. -/
def RingRoom (cp : ControlPlane) (k : Key) : Prop :=
  (cp.dataPlane.workers (peerWorker cp.dataPlane.numWorkers k)).cmdRing.length +
    cp.watcherFds.length + 1 < kCmdRingSize

/-! ### Tables under commands -/

section

variable {E A I : Type} {occ : E → LinearProbe.Occ} {key : E → Key} {val : E → A} {k : Key}

theorem SameOthers.trans {t t' t'' : I → E}
    (hval : ∀ e e', val e' = val e → occ e' = occ e ∧ key e' = key e)
    (h1 : SameOthers occ key val k t t') (h2 : SameOthers occ key val k t' t'') :
    SameOthers occ key val k t t'' := by
  rintro a (h | h)
  · have heq := h1 a (.inl h)
    obtain ⟨ho, hk⟩ := hval _ _ heq
    rw [← heq]
    exact h2 a (.inl (by rw [ho, hk]; exact h))
  · have heq := h2 a (.inr h)
    obtain ⟨ho, hk⟩ := hval _ _ heq
    rw [heq]
    exact h1 a (.inr (by rw [← ho, ← hk]; exact h))

end

theorem core_occ_key (e e' : Peer) (h : e'.core = e.core) :
    e'.occupied = e.occupied ∧ e'.key = e.key :=
  ⟨(congrArg Peer.occupied h :), (congrArg Peer.key h :)⟩

/-- A notification, or the removal of `g` at its worker `h`. -/
def GoneCmd (h : ℕ) (g : Key) (uc : ℕ × Cmd) : Prop :=
  uc.2.IsWrite ∨ uc = (h, .removePeer g)

theorem processCmdWrite_core (ctx : Ctx) (v : ℕ) (key : Key) (data : Bytes) :
    (processCmdWrite ctx v key data).core = ctx.core := by
  unfold processCmdWrite
  split
  · rfl
  · next p _ =>
    have heff : Effs v p (fun _ _ => True) (fun _ _ => True) ctx
        (ctx.setWorker v (allocEnqueue (ctx.workers v) p data)) := allocEnqueue_effs trivial
    exact heff.core

theorem processCmd_gone {h : ℕ} {g : Key} {uc : ℕ × Cmd} (huc : GoneCmd h g uc) (ctx : Ctx) :
    (∀ u q, (((processCmd ctx uc.1 uc.2).1.workers u).ht q).core = ((ctx.workers u).ht q).core) ∧
        (uc = (h, .removePeer g) → htLookup (ctx.workers h) g = none) ∨
      ∃ p, uc = (h, .removePeer g) ∧ htLookup (ctx.workers h) g = some p ∧
        (((processCmd ctx uc.1 uc.2).1.workers h).ht p).occupied = .tombstone ∧
        ∀ u q, ¬(u = h ∧ q = p) → ((processCmd ctx uc.1 uc.2).1.workers u).ht q =
          (ctx.workers u).ht q := by
  obtain ⟨v, cmd⟩ := uc
  rcases huc with hw | heq
  · left
    cases cmd with
    | write key data =>
      refine ⟨fun u q => ?_, fun hc => by cases hc⟩
      exact Worker.core_peer (Ctx.core_worker (processCmdWrite_core ctx v key data) u) q
    | _ => exact absurd hw id
  · cases heq
    cases hl : htLookup (ctx.workers h) g with
    | none =>
      refine .inl ⟨fun u q => ?_, fun _ => rfl⟩
      simp only [processCmd, processCmdRemove_none hl]
    | some p =>
      obtain ⟨hR, -, hother⟩ := processCmdRemove_spec hl
      refine .inr ⟨p, rfl, rfl, ?_, fun u q hne => ?_⟩
      · simp only [processCmd]
        rw [hR.slot]
        rfl
      · simp only [processCmd]
        by_cases hu : u = h
        · subst hu
          exact hR.other q fun hq => hne ⟨rfl, hq⟩
        · obtain ⟨routes, io, h⟩ := hother u hu
          rw [h]

section

variable {h : ℕ} {g : Key}

theorem htLookup_of_core {w w' : Worker} (hc : ∀ q, (w'.ht q).core = (w.ht q).core) (k : Key) :
    htLookup w' k = htLookup w k :=
  LinearProbe.lookup_congr peerView keyHash (fun q => (core_occ_key _ _ (hc q)).1)
    (fun q => (core_occ_key _ _ (hc q)).2) k

theorem runCmds_table (cmds : List (ℕ × Cmd)) (hc : ∀ uc ∈ cmds, GoneCmd h g uc) (ctx : Ctx) (u : ℕ)
    (q : Slot) :
    (((runCmds ctx cmds).workers u).ht q).core = ((ctx.workers u).ht q).core ∨
      ((ctx.workers u).ht q).occupied = .live ∧ ((ctx.workers u).ht q).key = g ∧
        (((runCmds ctx cmds).workers u).ht q).occupied = .tombstone := by
  induction cmds generalizing ctx with
  | nil => exact .inl rfl
  | cons uc cmds ih =>
    have ih1 := ih (fun x hx => hc x (List.mem_cons_of_mem _ hx)) (processCmd ctx uc.1 uc.2).1
    show (((runCmds (processCmd ctx uc.1 uc.2).1 cmds).workers u).ht q).core = _ ∨ _ ∧ _ ∧
      (((runCmds (processCmd ctx uc.1 uc.2).1 cmds).workers u).ht q).occupied = .tombstone
    rcases processCmd_gone (hc uc (List.mem_cons_self ..)) ctx with ⟨hsame, -⟩ |
      ⟨p, rfl, hl, hdead, hother⟩
    · rw [hsame u q] at ih1
      obtain ⟨ho, hk⟩ := core_occ_key _ _ (hsame u q)
      rw [ho, hk] at ih1
      exact ih1
    · by_cases hq : u = h ∧ q = p
      · obtain ⟨rfl, rfl⟩ := hq
        right
        obtain ⟨ho, hk⟩ := LinearProbe.holds_of_lookup peerView keyHash hl
        refine ⟨ho, hk, ?_⟩
        rcases ih1 with heq | ⟨hlive, -⟩
        · exact (core_occ_key _ _ heq).1.trans hdead
        · rw [hdead] at hlive
          cases hlive
      · rw [hother u q hq] at ih1
        exact ih1

theorem runCmds_absent (cmds : List (ℕ × Cmd)) (hc : ∀ uc ∈ cmds, GoneCmd h g uc) (ctx : Ctx)
    (hl : htLookup (ctx.workers h) g = none) (u : ℕ) (q : Slot) :
    (((runCmds ctx cmds).workers u).ht q).core = ((ctx.workers u).ht q).core := by
  induction cmds generalizing ctx with
  | nil => rfl
  | cons uc cmds ih =>
    rcases processCmd_gone (hc uc (List.mem_cons_self ..)) ctx with ⟨hsame, -⟩ | ⟨p, -, hl', -⟩
    · refine (ih (fun x hx => hc x (List.mem_cons_of_mem _ hx)) (processCmd ctx uc.1 uc.2).1
        ?_).trans (hsame u q)
      rw [htLookup_of_core (hsame h)]
      exact hl
    · rw [hl] at hl'
      cases hl'

theorem runCmds_removes (cmds : List (ℕ × Cmd)) (hc : ∀ uc ∈ cmds, GoneCmd h g uc) (ctx : Ctx)
    (hmem : (h, Cmd.removePeer g) ∈ cmds) {q : Slot} (hl : htLookup (ctx.workers h) g = some q) :
    (((runCmds ctx cmds).workers h).ht q).occupied ≠ .live := by
  induction cmds generalizing ctx with
  | nil => cases hmem
  | cons uc cmds ih =>
    have hrest : ∀ x ∈ cmds, GoneCmd h g x := fun x hx => hc x (List.mem_cons_of_mem _ hx)
    rcases processCmd_gone (hc uc (List.mem_cons_self ..)) ctx with ⟨hsame, hnone⟩ |
      ⟨p, -, hl', hdead, -⟩
    · rcases List.mem_cons.mp hmem with heq | hmem
      · rw [hnone heq.symm] at hl
        cases hl
      · refine ih hrest (processCmd ctx uc.1 uc.2).1 hmem ?_
        rw [htLookup_of_core (hsame h)]
        exact hl
    · rw [hl, Option.some.injEq] at hl'
      subst hl'
      intro hlive
      rcases runCmds_table cmds hrest (processCmd ctx uc.1 uc.2).1 h q with heq | ⟨hlive', -⟩
      · rw [show ((runCmds ctx (uc :: cmds)).workers h) =
          (runCmds (processCmd ctx uc.1 uc.2).1 cmds).workers h from rfl,
          (core_occ_key _ _ heq).1, hdead] at hlive
        cases hlive
      · rw [hdead] at hlive'
        cases hlive'

end

/-! ### The commands of one message -/

theorem mem_newCmds {ctx0 ctx : Ctx} {u : ℕ} {cmd : Cmd} :
    (u, cmd) ∈ newCmds ctx0 ctx ↔ u < ctx.numWorkers ∧
      cmd ∈ (ctx.workers u).cmdRing.drop (ctx0.workers u).cmdRing.length := by
  simp only [newCmds, List.mem_flatMap, List.mem_range, List.mem_map, Prod.mk.injEq]
  constructor
  · rintro ⟨a, ha, c, hc, rfl, rfl⟩
    exact ⟨ha, hc⟩
  · rintro ⟨hu, hc⟩
    exact ⟨u, hu, cmd, hc, rfl, rfl⟩

theorem Issued.new {P : Cmd → Prop} {ctx0 ctx : Ctx} (h : Issued P ctx0 ctx) {uc : ℕ × Cmd}
    (huc : uc ∈ newCmds ctx0 ctx) : P uc.2 := by
  obtain ⟨u, cmd⟩ := uc
  obtain ⟨more, hw, hp⟩ := h.worker u
  have hmem := (mem_newCmds.mp huc).2
  rw [hw] at hmem
  simp only [List.drop_left] at hmem
  exact hp cmd hmem

theorem cpSendFrame_length (cp : ControlPlane) (key : Key) (frame : Bytes) (u : ℕ) :
    ((cpSendFrame cp key frame).dataPlane.workers u).cmdRing.length ≤
      (cp.dataPlane.workers u).cmdRing.length + 1 := by
  have henq : ((dpWrite cp.dataPlane key frame).workers u).cmdRing.length ≤
      (cp.dataPlane.workers u).cmdRing.length + 1 := by
    obtain ⟨more, hw, hm⟩ := enqueueCmd_worker cp.dataPlane
      (peerWorker cp.dataPlane.numWorkers key) (.write key frame) u
    rw [dpWrite, hw]
    rcases hm with rfl | ⟨-, rfl⟩ <;> simp
  unfold cpSendFrame
  split
  · exact Nat.le_succ _
  · exact henq
  · exact henq

theorem cpNotifyWatchers_length (cp : ControlPlane) (frame : Bytes) (u : ℕ) :
    ((cpNotifyWatchers cp frame).dataPlane.workers u).cmdRing.length ≤
      (cp.dataPlane.workers u).cmdRing.length + cp.watcherFds.length := by
  unfold cpNotifyWatchers
  generalize cp.watcherFds = ws
  induction ws generalizing cp with
  | nil => exact Nat.le_refl _
  | cons wfd ws ih =>
    rw [List.foldl_cons]
    refine (ih _).trans ?_
    rw [List.length_cons]
    split
    · omega
    · split
      · omega
      · have hone := cpSendFrame_length cp (cp.reg.peers ‹_›).key frame u
        omega

theorem cpRemoveWatcher_length (cp : ControlPlane) (fd : Fd) :
    (cpRemoveWatcher cp fd).watcherFds.length ≤ cp.watcherFds.length := by
  unfold cpRemoveWatcher
  split
  · exact Nat.le_refl _
  · simp

theorem handlePeerGone_cmds (cp : ControlPlane) (fd : Fd) {payload : Bytes} {g : Key}
    (hg : goneKey payload = some g) :
    (∀ uc ∈ newCmds cp.dataPlane (handlePeerGone cp fd payload).dataPlane,
      GoneCmd (peerWorker cp.dataPlane.numWorkers g) g uc) ∧
    (0 < cp.dataPlane.numWorkers → RingRoom cp g →
      (peerWorker cp.dataPlane.numWorkers g, Cmd.removePeer g) ∈
        newCmds cp.dataPlane (handlePeerGone cp fd payload).dataPlane) := by
  unfold goneKey at hg
  unfold handlePeerGone
  split
  · next hlen => rw [dif_pos hlen] at hg; cases hg
  · next hlen =>
    rw [dif_neg hlen, Option.some.injEq] at hg
    rw [hg]
    dsimp only
    generalize hcp1 : doDisconnect { cp with reg := cpRegistryRemove cp.reg g } g fd
      .kDisconnected = cp1
    have hw : Issued Cmd.IsWrite cp.dataPlane cp1.dataPlane := by
      rw [← hcp1]
      exact doDisconnect_issued { cp with reg := cpRegistryRemove cp.reg g } g fd .kDisconnected
    have hlen1 : ∀ u, (cp1.dataPlane.workers u).cmdRing.length ≤
        (cp.dataPlane.workers u).cmdRing.length + cp.watcherFds.length := by
      intro u
      have h1 := cpRemoveWatcher_length { cp with reg := cpRegistryRemove cp.reg g } fd
      obtain ⟨ws, hws⟩ := cpRemoveWatcher_eq { cp with reg := cpRegistryRemove cp.reg g } fd
      rw [← hcp1, doDisconnect]
      rw [hws] at h1 ⊢
      refine (cpNotifyWatchers_length _ _ u).trans ?_
      exact Nat.add_le_add_left h1 _
    have hnum := hw.num
    refine ⟨fun uc huc => ?_, fun hpos hroom => ?_⟩
    · obtain ⟨u, cmd⟩ := uc
      obtain ⟨-, hmem⟩ := mem_newCmds.mp huc
      obtain ⟨more, hwk, hp⟩ := hw.worker u
      obtain ⟨last, hlast, hl⟩ := enqueueCmd_worker cp1.dataPlane
        (peerWorker cp1.dataPlane.numWorkers g) (.removePeer g) u
      change cmd ∈ (((enqueueCmd cp1.dataPlane (peerWorker cp1.dataPlane.numWorkers g)
        (.removePeer g)).workers u).cmdRing).drop _ at hmem
      rw [hlast, hwk] at hmem
      simp only [List.append_assoc, List.drop_left] at hmem
      rcases List.mem_append.mp hmem with hm | hm
      · exact .inl (hp cmd hm)
      · rcases hl with rfl | ⟨hu, rfl⟩
        · cases hm
        · rw [hnum] at hu
          rw [List.mem_singleton.mp hm, hu]
          exact .inr rfl
    · have hhome : peerWorker cp.dataPlane.numWorkers g < cp.dataPlane.numWorkers :=
        Nat.mod_lt _ hpos
      generalize hh : peerWorker cp.dataPlane.numWorkers g = h at hhome
      rw [RingRoom, hh] at hroom
      refine mem_newCmds.mpr ⟨by rw [← hnum] at hhome; exact hhome, ?_⟩
      obtain ⟨more, hwk, -⟩ := hw.worker h
      have hbound := hlen1 h
      show Cmd.removePeer g ∈ (((enqueueCmd cp1.dataPlane
        (peerWorker cp1.dataPlane.numWorkers g) (.removePeer g)).workers h).cmdRing).drop _
      rw [hnum, hh, enqueueCmd, Ctx.onWorker, Ctx.setWorker_self, if_neg (by omega), hwk]
      simp

/-! ### One message -/

section

variable {cp : ControlPlane} {k : Key} {m : PipeMsg}

theorem processMsg_reg (cp : ControlPlane) (m : PipeMsg) :
    (processMsg cp m).reg = regAfter cp m.fd m.type m.payload :=
  (cpProcessFrame_effect cp m.fd m.type m.payload).reg

theorem Issued.base {P : Cmd → Prop} {ctx0 ctx : Ctx} (h : Issued P ctx0 ctx) :
    { ctx with workers := fun u =>
      { ctx.workers u with cmdRing := (ctx0.workers u).cmdRing } } = ctx0 := by
  obtain ⟨more, rfl, -⟩ := h
  rfl

theorem processMsg_dataPlane (cp : ControlPlane) (m : PipeMsg) :
    (processMsg cp m).dataPlane = runCmds cp.dataPlane
      (newCmds cp.dataPlane (cpProcessFrame cp m.fd m.type m.payload).dataPlane) := by
  show runCmds _ _ = _
  rw [(cpProcessFrame_effect cp m.fd m.type m.payload).issued.base]

theorem runCmds_writes (cmds : List (ℕ × Cmd)) (hc : ∀ uc ∈ cmds, uc.2.IsWrite) (ctx : Ctx) :
    (runCmds ctx cmds).core = ctx.core := by
  induction cmds generalizing ctx with
  | nil => rfl
  | cons uc cmds ih =>
    refine (ih (fun x hx => hc x (List.mem_cons_of_mem _ hx)) _).trans ?_
    have hw := hc uc (List.mem_cons_self ..)
    obtain ⟨v, cmd⟩ := uc
    cases cmd with
    | write key data => exact processCmdWrite_core ctx v key data
    | _ => exact absurd hw id

theorem processMsg_core (hg : frameGone m.type m.payload = none) :
    (processMsg cp m).dataPlane.core = cp.dataPlane.core := by
  rw [processMsg_dataPlane]
  refine runCmds_writes _ (fun uc huc => ?_) _
  rcases (cpProcessFrame_effect cp m.fd m.type m.payload).issued.new huc with hw | ⟨g, hk, -⟩
  · exact hw
  · rw [hg] at hk
    cases hk

theorem cpRegistryRemove_others (r : CpRegistry) (k : Key) :
    SameOthers CpPeer.occupied CpPeer.key id k r.peers (cpRegistryRemove r k).peers := by
  cases hl : cpRegistryLookup r k with
  | none =>
    rw [cpRegistryRemove_none hl]
    exact fun _ _ => rfl
  | some a =>
    obtain ⟨p, hp, hpeers, -⟩ := cpRegistryRemove_some hl
    rw [cpRegistryLookup, ← LinearProbe.lookup_eq_seek] at hl
    obtain ⟨-, hk⟩ := LinearProbe.holds_of_lookup cpView keyHash hl
    rw [hpeers]
    rintro b (⟨-, hb⟩ | ⟨hb, -⟩)
    · have hne : b ≠ a := fun h => hb (h ▸ hk)
      rw [Function.update_of_ne hne]
    · have hne : b ≠ a := by
        rintro rfl
        rw [Function.update_self, hp] at hb
        cases hb
      rw [Function.update_of_ne hne]

theorem handlePeerGone_eq (hg : m.type = FrameType.kPeerGone) :
    cpProcessFrame cp m.fd m.type m.payload = handlePeerGone cp m.fd m.payload := by
  rw [hg]
  rfl

theorem regAfter_gone (fd : Fd) {payload : Bytes} {g : Key} (hg : goneKey payload = some g) :
    regAfter cp fd .kPeerGone payload = cpRegistryRemove (cpRegistryRemove cp.reg g) g := by
  rw [regAfter, if_neg (by decide), hg]
  rfl

theorem peerGone_others {g : Key} (ht : m.type = FrameType.kPeerGone)
    (hg : goneKey m.payload = some g)
    (hok : g = k ∨ cpRegistryLookup cp.reg g = none ∧
      htLookup (cp.dataPlane.workers (peerWorker cp.dataPlane.numWorkers g)) g = none) :
    OthersKept k cp (processMsg cp m) := by
  have hcmds := (handlePeerGone_cmds cp m.fd hg).1
  rw [← handlePeerGone_eq ht] at hcmds
  constructor
  · rw [processMsg_reg, ht, regAfter_gone _ hg]
    rcases hok with rfl | ⟨hreg, -⟩
    · exact (cpRegistryRemove_others _ _).trans (fun e e' h => by rw [id, id] at h; simp [h])
        (cpRegistryRemove_others _ _)
    · rw [cpRegistryRemove_none hreg, cpRegistryRemove_none hreg]
      exact fun _ _ => rfl
  · intro u
    rw [processMsg_dataPlane]
    rcases hok with rfl | ⟨-, htab⟩
    · intro q hq
      rcases runCmds_table _ hcmds cp.dataPlane u q with h | ⟨-, hk, hdead⟩
      · exact h
      · rcases hq with hq | hq
        · exact absurd hk hq.2
        · rw [hdead] at hq
          cases hq.1
    · exact fun q _ => runCmds_absent _ hcmds cp.dataPlane htab u q

theorem notePreferred_others (hf : ¬ForgesPreferred cp k m)
    (ht : m.type = FrameType.kNotePreferred) :
    SameOthers CpPeer.occupied CpPeer.key id k cp.reg.peers (processMsg cp m).reg.peers := by
  rw [processMsg_reg, regAfter, if_pos ht]
  unfold notePreferred handleNotePreferred
  split
  · exact fun _ _ => rfl
  · next b rest hp =>
    split
    · exact fun _ _ => rfl
    · next a ha =>
      intro c hc
      show id (Function.update cp.reg.peers a _ c) = _
      by_cases hca : c = a
      · subst hca
        rw [Function.update_self]
        by_contra hne
        have hlive : (cp.reg.peers c).occupied = .live ∧ (cp.reg.peers c).key ≠ k := by
          simpa [CpRegistry.setPeer] using hc
        refine hf ⟨ht, b, rest, c, hp, ha, hlive.1, hlive.2, fun hb => hne ?_⟩
        simp only [id, ← hb]
      · exact congrArg id (Function.update_of_ne hca _ _)

theorem processMsg_others (hclose : m.type ≠ FrameType.kClosePeer)
    (hf : ¬((∃ g, ForgesGone cp k m g) ∨ ForgesPreferred cp k m)) :
    OthersKept k cp (processMsg cp m) := by
  rw [not_or] at hf
  cases hg : frameGone m.type m.payload with
  | some g =>
    have ht : m.type = FrameType.kPeerGone ∧ goneKey m.payload = some g := by
      unfold frameGone at hg
      split at hg
      · next h => exact ⟨h.resolve_right hclose, hg⟩
      · cases hg
    refine peerGone_others ht.1 ht.2 ?_
    by_cases hk : g = k
    · exact .inl hk
    · have hno : ¬((cpRegistryLookup cp.reg g).isSome ∨ (htLookup (cp.dataPlane.workers
          (peerWorker cp.dataPlane.numWorkers g)) g).isSome) :=
        fun h => hf.1 ⟨g, ht.1, ht.2, hk, h⟩
      rw [not_or, Option.not_isSome_iff_eq_none, Option.not_isSome_iff_eq_none] at hno
      exact .inr hno
  | none =>
    refine ⟨?_, fun u q _ => Worker.core_peer (Ctx.core_worker (processMsg_core hg) u) q⟩
    by_cases ht : m.type = FrameType.kNotePreferred
    · exact notePreferred_others hf.2 ht
    · have hreg : (processMsg cp m).reg = cp.reg := by
        rw [processMsg_reg, regAfter, if_neg ht]
        split
        · rfl
        · next g hgk =>
          rw [if_neg hclose, if_neg]
          intro hgone
          rw [frameGone, if_pos (.inl hgone), hgk] at hg
          cases hg
      rw [hreg]
      exact fun _ _ => rfl

theorem forgesPreferred_breaks (hf : ForgesPreferred cp k m) :
    ¬OthersKept k cp (processMsg cp m) := by
  intro hkept
  obtain ⟨ht, b, rest, a, hp, ha, hlive, hk, hb⟩ := hf
  have heq := hkept.reg a (.inl ⟨hlive, hk⟩)
  rw [processMsg_reg, regAfter, if_pos ht] at heq
  simp only [notePreferred, handleNotePreferred, hp, ha, CpRegistry.setPeer, Function.update_self,
    id] at heq
  exact hb (congrArg CpPeer.preferred heq).symm

theorem forgesGone_breaks {g : Key} (hpos : 0 < cp.dataPlane.numWorkers) (hf : ForgesGone cp k m g)
    (hin : (cpRegistryLookup cp.reg g).isSome ∨ RingRoom cp g) :
    ¬OthersKept k cp (processMsg cp m) := by
  intro hkept
  obtain ⟨ht, hg, hk, hknown⟩ := hf
  by_cases hreg : (cpRegistryLookup cp.reg g).isSome
  · obtain ⟨a, ha⟩ := Option.isSome_iff_exists.mp hreg
    have hholds := ha
    rw [cpRegistryLookup, ← LinearProbe.lookup_eq_seek] at hholds
    obtain ⟨hlive, hkey⟩ := LinearProbe.holds_of_lookup cpView keyHash hholds
    have heq := hkept.reg a (.inl ⟨hlive, fun h => hk (hkey.symm.trans h)⟩)
    rw [processMsg_reg, ht, regAfter_gone _ hg] at heq
    -- buried by the first removal, the slot is not live after the second
    obtain ⟨p, hp, hpeers, -⟩ := cpRegistryRemove_some ha
    have hdead : ((cpRegistryRemove cp.reg g).peers a).occupied = .tombstone := by
      rw [hpeers, Function.update_self, hp]
    have hsame : (cpRegistryRemove (cpRegistryRemove cp.reg g) g).peers a = cp.reg.peers a := heq
    cases hl : cpRegistryLookup (cpRegistryRemove cp.reg g) g with
    | none =>
      rw [cpRegistryRemove_none hl] at hsame
      rw [hsame] at hdead
      exact absurd (hlive.symm.trans hdead) (by decide)
    | some b =>
      obtain ⟨p2, hp2, hpeers2, -⟩ := cpRegistryRemove_some hl
      rw [hpeers2] at hsame
      by_cases hba : a = b
      · subst hba
        rw [Function.update_self] at hsame
        rw [hsame] at hp2
        exact absurd (hlive.symm.trans hp2) (by decide)
      · rw [Function.update_of_ne hba] at hsame
        rw [hsame] at hdead
        exact absurd (hlive.symm.trans hdead) (by decide)
  · obtain ⟨q, hq⟩ := Option.isSome_iff_exists.mp (hknown.resolve_left hreg)
    obtain ⟨hlive, hkey⟩ := LinearProbe.holds_of_lookup peerView keyHash hq
    have heq := hkept.table _ q (.inl ⟨hlive, fun h => hk (hkey.symm.trans h)⟩)
    obtain ⟨hc, hmem⟩ := handlePeerGone_cmds cp m.fd hg
    have hdead := runCmds_removes _ hc cp.dataPlane (hmem hpos (hin.resolve_left hreg)) hq
    rw [processMsg_dataPlane, handlePeerGone_eq ht] at heq
    exact hdead ((core_occ_key _ _ heq).1.trans hlive)

end

/-! ### The frame -/

theorem processClientFrame_eq (cp : ControlPlane) (v : ℕ) (p : Slot) (frame : Bytes) :
    ∃ ctx, ctx.core = cp.dataPlane.core ∧ processClientFrame cp v p frame =
      match forwarded (cp.dataPlane.workers v) p frame with
      | some m => processMsg { cp with dataPlane := ctx } m
      | none => { cp with dataPlane := ctx } := by
  refine ⟨(dispatchFrame cp.dataPlane v p frame).onWorker v fun w =>
    { w with pipe := (cp.dataPlane.workers v).pipe }, ?_, ?_⟩
  · refine Eq.trans ?_ (dispatchFrame_core cp.dataPlane v p frame)
    rw [Ctx.onWorker]
    exact Ctx.core_setWorker rfl
  · have hpipe := dispatchFrame_pipe cp.dataPlane v p frame v
    rw [if_pos rfl] at hpipe
    unfold processClientFrame
    dsimp only
    rw [hpipe, List.drop_left]
    cases forwarded (cp.dataPlane.workers v) p frame <;> rfl

theorem othersKept_core {k : Key} {cp cp' : ControlPlane} {ctx : Ctx}
    (hc : ctx.core = cp.dataPlane.core) :
    OthersKept k { cp with dataPlane := ctx } cp' ↔ OthersKept k cp cp' := by
  have hsame : ∀ u, SameOthers Peer.occupied Peer.key Peer.core k (ctx.workers u).ht
      (cp'.dataPlane.workers u).ht ↔ SameOthers Peer.occupied Peer.key Peer.core k
      (cp.dataPlane.workers u).ht (cp'.dataPlane.workers u).ht := by
    intro u
    have hp := fun q => Worker.core_peer (Ctx.core_worker hc u) q
    simp only [SameOthers, hp, fun q => (core_occ_key _ _ (hp q)).1,
      fun q => (core_occ_key _ _ (hp q)).2]
  exact ⟨fun h => ⟨h.reg, fun u => (hsame u).mp (h.table u)⟩,
    fun h => ⟨h.reg, fun u => (hsame u).mpr (h.table u)⟩⟩

theorem forges_core {cp : ControlPlane} {ctx : Ctx} (hc : ctx.core = cp.dataPlane.core) {k g : Key}
    {m : PipeMsg} : ForgesGone { cp with dataPlane := ctx } k m g ↔ ForgesGone cp k m g := by
  have hnum : ctx.numWorkers = cp.dataPlane.numWorkers := (congrArg Ctx.numWorkers hc :)
  have hl : ∀ u, htLookup (ctx.workers u) g = htLookup (cp.dataPlane.workers u) g :=
    fun u => htLookup_core (Ctx.core_worker hc u) g
  simp only [ForgesGone, hnum, hl]

theorem forwarded_not_close {w : Worker} {p : Slot} {frame : Bytes} {m : PipeMsg}
    (hf : readFrameType frame ≠ .kClosePeer) (hm : forwarded w p frame = some m) :
    m.type ≠ FrameType.kClosePeer := by
  unfold forwarded at hm
  split at hm
  · split at hm
    · next ht =>
      cases hm
      intro hc
      rw [show hdReadFrameType frame = FrameType.kClosePeer from hc] at ht
      exact absurd ht (by decide)
    · cases hm
  · split at hm
    · cases hm
    · cases hm
      exact hf

theorem processCmd_num (ctx : Ctx) (v : ℕ) (cmd : Cmd) :
    (processCmd ctx v cmd).1.numWorkers = ctx.numWorkers := by
  cases cmd with
  | addPeer fd key proto id => exact processCmdAdd_numWorkers ..
  | removePeer key =>
    simp only [processCmd, processCmdRemove]
    split <;> rfl
  | write key data => exact (congrArg Ctx.numWorkers (processCmdWrite_core ctx v key data) :)
  | setFwdRule key dst =>
    simp only [processCmd, setFwdRule]
    split
    · rfl
    · split <;> rfl
  | movePeerOut key =>
    simp only [processCmd, movePeerOut]
    split <;> rfl
  | stop => rfl

namespace Relay

variable {s s' : Relay}

theorem step_num {l : RelayStep} (hs : s.step l = some s') :
    s'.cp.dataPlane.numWorkers = s.cp.dataPlane.numWorkers := by
  cases l with
  | accept fd key proto peerId => exact (step_accept hs).num
  | register c =>
    simp only [step] at hs
    split at hs
    · cases hs
      exact (doConnect_issued s.cp (s.keyOf c) (s.fdOf c)).num
    · cases hs
  | enrol key fd => cases hs; rfl
  | eof v fd =>
    simp only [step] at hs
    split at hs
    · cases hs; rfl
    · cases hs
  | error v fd =>
    simp only [step] at hs
    split at hs
    · cases hs; rfl
    · cases hs
  | frame v fd bytes =>
    simp only [step] at hs
    split at hs
    · cases hs
      exact (congrArg Ctx.numWorkers (dispatchFrame_core s.cp.dataPlane v _ bytes) :)
    · cases hs
  | control v =>
    obtain ⟨m, rest, c, tags, -, -, -, hissued, -⟩ := step_control hs
    exact hissued.num
  | work v =>
    simp only [step] at hs
    split at hs
    · next ctx closed hp =>
      cases hs
      unfold popCmd at hp
      split at hp
      · cases hp
      · rw [Option.some.injEq] at hp
        have hnum := processCmd_num (s.cp.dataPlane.onWorker v fun w => { w with cmdRing := ‹_› })
          v ‹_›
        rw [hp] at hnum
        exact hnum
    · cases hs
  | ioPath v q w0 => cases hs; rfl

theorem reach_num (h : Runs.Reach Init step Runs.Any s) : 0 < s.cp.dataPlane.numWorkers :=
  h.invariant (P := fun s => 0 < s.cp.dataPlane.numWorkers) (fun _ h0 => h0.pos)
    fun _ _ _ hi _ hs => by rw [step_num hs]; exact hi

/-- In every reachable state a client frame other than ClosePeer leaves the
registrations of all other peers as they are, unless it forges; and a forging
frame changes one of them, unless the peer is in no registry and the ring to its
worker is about to overflow. -/
theorem client_frames_keep_others (h : Runs.Reach Init step Runs.Any s) (v : ℕ) (p : Slot)
    {frame : Bytes} (hf : readFrameType frame ≠ .kClosePeer) :
    (¬Forges s.cp v p frame →
      OthersKept ((s.worker v).ht p).key s.cp (processClientFrame s.cp v p frame)) ∧
    (Forges s.cp v p frame →
      (∀ m g, forwarded (s.worker v) p frame = some m → goneKey m.payload = some g →
        (cpRegistryLookup s.cp.reg g).isSome ∨ RingRoom s.cp g) →
      ¬OthersKept ((s.worker v).ht p).key s.cp (processClientFrame s.cp v p frame)) := by
  obtain ⟨ctx, hc, heq⟩ := processClientFrame_eq s.cp v p frame
  have hnum : ctx.numWorkers = s.cp.dataPlane.numWorkers := (congrArg Ctx.numWorkers hc :)
  rw [heq]
  constructor
  · intro hno
    cases hm : forwarded (s.cp.dataPlane.workers v) p frame with
    | none =>
      exact ⟨fun _ _ => rfl, fun u q _ => Worker.core_peer (Ctx.core_worker hc u) q⟩
    | some m =>
      rw [← othersKept_core hc]
      refine processMsg_others (forwarded_not_close hf hm) fun hforge => hno ⟨m, hm, ?_⟩
      rcases hforge with ⟨g, hg⟩ | hpref
      · exact .inl ⟨g, (forges_core hc).mp hg⟩
      · exact .inr hpref
  · rintro ⟨m, hm, hforge⟩ hroom
    rw [hm, ← othersKept_core hc]
    rcases hforge with ⟨g, hg⟩ | hpref
    · refine forgesGone_breaks (by rw [hnum]; exact reach_num h) ((forges_core hc).mpr hg) ?_
      rcases hroom m g hm hg.2.1 with hreg | hring
      · exact .inl hreg
      · right
        have hrings : ∀ u, (ctx.workers u).cmdRing = (s.cp.dataPlane.workers u).cmdRing :=
          fun u => (congrArg Worker.cmdRing (Ctx.core_worker hc u) :)
        rw [RingRoom, hnum, hrings]
        exact hring
    · exact forgesPreferred_breaks hpref

/-! ### PeerGone from the wrong client -/

def twoClients : List RelayStep :=
  [.accept 5 (byteKey 1) .kDerp 0, .accept 6 (byteKey 2) .kDerp 0, .work 0, .work 0, .register 0,
    .register 1]

def forgedGone : Bytes := [0x08, 0, 0, 0, 32] ++ (byteKey 2).data

def cpHomeSlot (k : Key) : CpSlot := Fin.ofNat kCpMaxPeers (keyHash k)

/-- The second client's slot in registry and table: its state and key. -/
def secondClient (cp : ControlPlane) : List (LinearProbe.Occ × Key) :=
  [((cp.reg.peers (cpHomeSlot (byteKey 2))).occupied, (cp.reg.peers (cpHomeSlot (byteKey 2))).key),
    (((cp.dataPlane.workers 0).ht (homeSlot (byteKey 2))).occupied,
      ((cp.dataPlane.workers 0).ht (homeSlot (byteKey 2))).key)]

/-- The first client takes the second one down. -/
theorem forged_peerGone_unregisters :
    ¬∀ s, Runs.Reach Init step Runs.Any s → ∀ v p frame, readFrameType frame ≠ .kClosePeer →
      OthersKept ((s.worker v).ht p).key s.cp (processClientFrame s.cp v p frame) := by
  intro hall
  have hrun : (Runs.run step idle twoClients).map (fun s =>
      (((s.worker 0).ht (homeSlot (byteKey 1))).key, secondClient s.cp,
        secondClient (processClientFrame s.cp 0 (homeSlot (byteKey 1)) forgedGone))) =
      some (byteKey 1, [(.live, byteKey 2), (.live, byteKey 2)],
        [(.tombstone, byteKey 2), (.tombstone, byteKey 2)]) := by
    decide
  obtain ⟨s, hs, hview⟩ := Option.map_eq_some_iff.mp hrun
  simp only [secondClient, Prod.mk.injEq, List.cons.injEq, and_true] at hview
  obtain ⟨hkey, ⟨⟨hlive, hk⟩, -⟩, ⟨⟨hdead, -⟩, -⟩⟩ := hview
  have hkept := (hall s (Runs.reach_of_run idle_init hs) 0 (homeSlot (byteKey 1)) forgedGone
    (by decide)).reg (cpHomeSlot (byteKey 2)) (.inl ⟨hlive, by rw [hk, hkey]; decide⟩)
  rw [show (processClientFrame s.cp 0 (homeSlot (byteKey 1)) forgedGone).reg.peers
    (cpHomeSlot (byteKey 2)) = s.cp.reg.peers (cpHomeSlot (byteKey 2)) from hkept, hlive] at hdead
  cases hdead

def pingFrame : Bytes := [0x12, 0, 0, 0, 8, 1, 2, 3, 4, 5, 6, 7, 8]

theorem ping_keeps_others :
    ∃ s, Runs.Reach Init step Runs.Any s ∧
      secondClient s.cp = [(.live, byteKey 2), (.live, byteKey 2)] ∧
      OthersKept ((s.worker 0).ht (homeSlot (byteKey 1))).key s.cp
        (processClientFrame s.cp 0 (homeSlot (byteKey 1)) pingFrame) := by
  have hrun : (Runs.run step idle twoClients).map (fun s => (secondClient s.cp,
      (forwarded (s.worker 0) (homeSlot (byteKey 1)) pingFrame).map PipeMsg.type)) =
      some ([(.live, byteKey 2), (.live, byteKey 2)], some 0x12) := by
    decide
  obtain ⟨s, hs, hview⟩ := Option.map_eq_some_iff.mp hrun
  rw [Prod.mk.injEq] at hview
  have hreach := Runs.reach_of_run idle_init hs
  refine ⟨s, hreach, hview.1, (client_frames_keep_others hreach 0 _ (by decide)).1 ?_⟩
  rintro ⟨m, hm, hforge⟩
  have htype : m.type = 0x12 := by
    have h := hview.2
    rw [show forwarded (s.worker 0) _ _ = some m from hm, Option.map_some, Option.some.injEq] at h
    exact h
  rcases hforge with ⟨g, hg⟩ | hpref
  · exact absurd (htype.symm.trans hg.1) (by decide)
  · exact absurd (htype.symm.trans hpref.1) (by decide)

end Relay

end HyperDerp
