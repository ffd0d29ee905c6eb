import HyperDerp.ControlPlane.Frames

/-!
# What a control frame changes

Three facts that every later argument uses: the open-connection handlers leave
registry, watchers, relay table and data plane alone; the only thing any handler
does to the data plane is to append commands to rings; and the registry changes
by at most the entries of one key.
-/

namespace HyperDerp

/-! ### Commands appended to the rings -/

/-- `ctx'` is `ctx` with commands that satisfy `P` appended to the rings. -/
def Issued (P : Cmd → Prop) (ctx ctx' : Ctx) : Prop :=
  ∃ more : ℕ → List Cmd,
    ctx' = { ctx with workers := fun v =>
      { ctx.workers v with cmdRing := (ctx.workers v).cmdRing ++ more v } } ∧
    ∀ v, ∀ cmd ∈ more v, P cmd

theorem Issued.refl (P : Cmd → Prop) (ctx : Ctx) : Issued P ctx ctx :=
  ⟨fun _ => [], by simp, by simp⟩

theorem Issued.trans {P : Cmd → Prop} {a b c : Ctx} (h1 : Issued P a b) (h2 : Issued P b c) :
    Issued P a c := by
  obtain ⟨m1, rfl, hp1⟩ := h1
  obtain ⟨m2, rfl, hp2⟩ := h2
  refine ⟨fun v => m1 v ++ m2 v, ?_, fun v cmd hc => ?_⟩
  · simp only [List.append_assoc]
  · rcases List.mem_append.mp hc with hc | hc
    · exact hp1 v cmd hc
    · exact hp2 v cmd hc

theorem Issued.mono {P Q : Cmd → Prop} (hPQ : ∀ cmd, P cmd → Q cmd) {a b : Ctx}
    (h : Issued P a b) : Issued Q a b := by
  obtain ⟨more, rfl, hp⟩ := h
  exact ⟨more, rfl, fun v cmd hc => hPQ cmd (hp v cmd hc)⟩

theorem issued_enqueueCmd {P : Cmd → Prop} {cmd : Cmd} (h : P cmd) (ctx : Ctx) (wid : ℕ) :
    Issued P ctx (enqueueCmd ctx wid cmd) := by
  by_cases hfull : (ctx.workers wid).cmdRing.length + 1 = kCmdRingSize
  · have hsame : enqueueCmd ctx wid cmd = ctx := by
      rw [enqueueCmd, Ctx.onWorker, if_pos hfull, Ctx.setWorker, Function.update_eq_self]
    rw [hsame]
    exact Issued.refl P ctx
  · refine ⟨fun v => if v = wid then [cmd] else [], ?_, fun v c hc => ?_⟩
    · rw [enqueueCmd, Ctx.onWorker, if_neg hfull, Ctx.setWorker]
      congr 1
      funext v
      by_cases hv : v = wid
      · subst hv
        simp
      · simp [hv]
    · dsimp only at hc
      split at hc
      · rw [List.mem_singleton.mp hc]
        exact h
      · cases hc

def Cmd.IsWrite : Cmd → Prop
  | .write _ _ => True
  | _ => False

/-! ### Notifications -/

section

variable (cp : ControlPlane)

theorem cpSendFrame_reg (key : Key) (frame : Bytes) : (cpSendFrame cp key frame).reg = cp.reg := by
  unfold cpSendFrame
  split <;> rfl

theorem cpSendFrame_issued (key : Key) (frame : Bytes) :
    Issued Cmd.IsWrite cp.dataPlane (cpSendFrame cp key frame).dataPlane := by
  unfold cpSendFrame
  split
  · exact Issued.refl _ _
  · exact issued_enqueueCmd trivial _ _
  · exact issued_enqueueCmd trivial _ _

theorem foldl_send {α : Type} (f : ControlPlane → α → ControlPlane)
    (hf : ∀ cp x, f cp x = cp ∨ ∃ key frame, f cp x = cpSendFrame cp key frame) (xs : List α) :
    (xs.foldl f cp).reg = cp.reg ∧
      Issued Cmd.IsWrite cp.dataPlane (xs.foldl f cp).dataPlane := by
  induction xs generalizing cp with
  | nil => exact ⟨rfl, Issued.refl _ _⟩
  | cons x xs ih =>
    have h1 := ih (f cp x)
    rcases hf cp x with h | ⟨key, frame, h⟩
    · rw [h] at h1
      rw [List.foldl_cons, h]
      exact h1
    · rw [h] at h1
      rw [List.foldl_cons, h]
      exact ⟨h1.1.trans (cpSendFrame_reg cp key frame),
        (cpSendFrame_issued cp key frame).trans h1.2⟩

theorem cpNotifyWatchers_sends (frame : Bytes) :
    (cpNotifyWatchers cp frame).reg = cp.reg ∧
      Issued Cmd.IsWrite cp.dataPlane (cpNotifyWatchers cp frame).dataPlane := by
  refine foldl_send cp _ (fun cp wfd => ?_) cp.watcherFds
  split
  · exact .inl rfl
  · split
    · exact .inl rfl
    · exact .inr ⟨_, _, rfl⟩

theorem cpReply_sends (fd : Fd) (frame : Bytes) :
    cpReply cp fd frame = cp ∨ ∃ key frame', cpReply cp fd frame = cpSendFrame cp key frame' := by
  unfold cpReply
  split
  · exact .inl rfl
  · exact .inr ⟨_, _, rfl⟩

theorem doConnect_reg (key : Key) (fd : Fd) :
    (doConnect cp key fd).reg = cpRegistryInsert cp.reg key fd :=
  (cpNotifyWatchers_sends _ _).1

theorem doConnect_issued (key : Key) (fd : Fd) :
    Issued Cmd.IsWrite cp.dataPlane (doConnect cp key fd).dataPlane :=
  (cpNotifyWatchers_sends { cp with reg := cpRegistryInsert cp.reg key fd } _).2

theorem cpRemoveWatcher_eq (fd : Fd) :
    ∃ ws, cpRemoveWatcher cp fd = { cp with watcherFds := ws } := by
  unfold cpRemoveWatcher
  split
  · exact ⟨cp.watcherFds, rfl⟩
  · exact ⟨_, rfl⟩

theorem cpAddWatcher_eq (fd : Fd) : ∃ ws, cpAddWatcher cp fd = { cp with watcherFds := ws } := by
  unfold cpAddWatcher
  split
  · exact ⟨cp.watcherFds, rfl⟩
  · split
    · exact ⟨cp.watcherFds, rfl⟩
    · exact ⟨_, rfl⟩

theorem doDisconnect_reg (key : Key) (fd : Fd) (reason : PeerGoneReason) :
    (doDisconnect cp key fd reason).reg = cpRegistryRemove cp.reg key := by
  obtain ⟨ws, hws⟩ := cpRemoveWatcher_eq cp fd
  unfold doDisconnect
  rw [hws]
  exact (cpNotifyWatchers_sends _ _).1

theorem doDisconnect_issued (key : Key) (fd : Fd) (reason : PeerGoneReason) :
    Issued Cmd.IsWrite cp.dataPlane (doDisconnect cp key fd reason).dataPlane := by
  obtain ⟨ws, hws⟩ := cpRemoveWatcher_eq cp fd
  unfold doDisconnect
  rw [hws]
  exact (cpNotifyWatchers_sends { cp with watcherFds := ws, reg := cpRegistryRemove cp.reg key } _).2

theorem handleWatchConns_sends (fd : Fd) :
    (handleWatchConns cp fd).reg = cp.reg ∧
      Issued Cmd.IsWrite cp.dataPlane (handleWatchConns cp fd).dataPlane := by
  obtain ⟨ws, hws⟩ := cpAddWatcher_eq cp fd
  unfold handleWatchConns
  rw [hws]
  refine foldl_send { cp with watcherFds := ws } _ (fun cp i => ?_) _
  dsimp only
  split
  · exact .inl rfl
  · split
    · exact .inl rfl
    · exact cpReply_sends cp fd _

end

/-! ### Open connections -/

structure OpenOnly (cp cp' : ControlPlane) : Prop where
  dataPlane : cp'.dataPlane = cp.dataPlane
  reg : cp'.reg = cp.reg
  watcherFds : cp'.watcherFds = cp.watcherFds
  relayTable : cp'.relayTable = cp.relayTable

section

variable {cp : ControlPlane}

theorem OpenOnly.refl (cp : ControlPlane) : OpenOnly cp cp := ⟨rfl, rfl, rfl, rfl⟩

theorem OpenOnly.trans {a b c : ControlPlane} (h1 : OpenOnly a b) (h2 : OpenOnly b c) :
    OpenOnly a c :=
  ⟨h2.1.trans h1.1, h2.2.trans h1.2, h2.3.trans h1.3, h2.4.trans h1.4⟩

theorem openOnly_writeFullFrame (cp : ControlPlane) (fd : Fd) (buf : Bytes) :
    OpenOnly cp (writeFullFrame cp fd buf).2 := by
  unfold writeFullFrame
  split <;> exact ⟨rfl, rfl, rfl, rfl⟩

theorem openOnly_writeBuilt (cp : ControlPlane) (fd : Fd) (built : Option Bytes) :
    OpenOnly cp (writeBuilt cp fd built) := by
  cases built with
  | none => exact OpenOnly.refl cp
  | some buf => exact openOnly_writeFullFrame cp fd buf

theorem openOnly_countOpenConn (cp : ControlPlane) (fd : Fd) (d : ℤ) :
    OpenOnly cp (cp.countOpenConn fd d) := by
  unfold ControlPlane.countOpenConn
  split
  · exact ⟨rfl, rfl, rfl, rfl⟩
  · exact OpenOnly.refl cp

theorem openOnly_setOpenConn (cp : ControlPlane) (i : OpenSlot) (s : OpenConnEntry) :
    OpenOnly cp (cp.setOpenConn i s) := ⟨rfl, rfl, rfl, rfl⟩

theorem openOnly_takeSlot (cp : ControlPlane) (i : OpenSlot) (s : OpenConnEntry) (fd : Fd) :
    OpenOnly cp ((cp.setOpenConn i s).countOpenConn fd 1) :=
  (openOnly_setOpenConn cp i s).trans (openOnly_countOpenConn _ fd 1)

theorem openOnly_slotFree (cp : ControlPlane) (i : OpenSlot) :
    OpenOnly cp (openConnSlotFree cp i) := by
  unfold openConnSlotFree
  dsimp only
  split
  · exact (openOnly_countOpenConn cp _ _).trans (openOnly_setOpenConn _ _ _)
  · exact openOnly_setOpenConn _ _ _

theorem openOnly_cleanup (cp : ControlPlane) (i : OpenSlot) (mode : HdConnMode)
    (reason : HdDenyReason) (subReason : Byte) :
    OpenOnly cp (sendOpenResultAndCleanup cp i mode reason subReason) := by
  unfold sendOpenResultAndCleanup
  dsimp only
  refine OpenOnly.trans ?_ (openOnly_slotFree _ i)
  have hresult : ∀ fd built, OpenOnly cp (if 0 ≤ fd then writeBuilt cp fd built else cp) := by
    intro fd built
    split
    · exact openOnly_writeBuilt cp fd built
    · exact OpenOnly.refl cp
  split
  · exact (hresult _ _).trans (openOnly_writeFullFrame _ _ _)
  · exact hresult _ _

theorem openOnly_writeOrClean {cp1 : ControlPlane} (h : OpenOnly cp cp1) (fd : Fd) (buf : Bytes)
    (i : OpenSlot) :
    OpenOnly cp (match writeFullFrame cp1 fd buf with
      | (true, cp2) => cp2
      | (false, cp2) => sendOpenResultAndCleanup cp2 i .kDenied .kPeerUnreachable 0) := by
  have hw := h.trans (openOnly_writeFullFrame cp1 fd buf)
  revert hw
  rcases writeFullFrame cp1 fd buf with ⟨ok, cp2⟩
  intro hw
  cases ok with
  | true => exact hw
  | false => exact hw.trans (openOnly_cleanup _ _ _ _ _)

theorem openOnly_openRemote (cp : ControlPlane) (hd : HdPeerRegistry) (fd : Fd)
    (req : HdOpenConnection) (cv : HdClientView) : OpenOnly cp (openRemote cp hd fd req cv) := by
  unfold openRemote
  split
  · exact openOnly_writeBuilt _ _ _
  · dsimp only
    split
    · exact openOnly_writeBuilt _ _ _
    · split
      · exact openOnly_writeBuilt _ _ _
      · split
        · exact (openOnly_takeSlot cp _ _ fd).trans (openOnly_cleanup _ _ _ _ _)
        · exact openOnly_writeOrClean (openOnly_takeSlot cp _ _ fd) _ _ _

theorem openOnly_openLocal (cp : ControlPlane) (hd : HdPeerRegistry) (fd : Fd)
    (req : HdOpenConnection) (cv : HdClientView) : OpenOnly cp (openLocal cp hd fd req cv) := by
  unfold openLocal
  split
  · exact (openOnly_writeBuilt cp fd _).trans ⟨rfl, rfl, rfl, rfl⟩
  · split
    · exact openOnly_writeBuilt _ _ _
    · exact openOnly_writeOrClean (openOnly_takeSlot cp _ _ fd) _ _ _

theorem openOnly_openConnection (cp : ControlPlane) (fd : Fd) (payload : Bytes) :
    OpenOnly cp (cpHandleOpenConnection cp fd payload) := by
  unfold cpHandleOpenConnection
  split
  · exact OpenOnly.refl cp
  · split
    · exact OpenOnly.refl cp
    · split
      · exact openOnly_writeBuilt _ _ _
      · dsimp only
        split
        · exact openOnly_openRemote _ _ _ _ _
        · exact openOnly_openLocal _ _ _ _ _

theorem openOnly_record (cp : ControlPlane) (hd : Option HdPeerRegistry)
    (audit : List (Key × Key × HdClientView × HdDecision)) :
    OpenOnly cp { cp with hdPeers := hd, audit := audit } := ⟨rfl, rfl, rfl, rfl⟩

theorem openOnly_incomingConnResponse (cp : ControlPlane) (fd : Fd) (payload : Bytes) :
    OpenOnly cp (cpHandleIncomingConnResponse cp fd payload) := by
  unfold cpHandleIncomingConnResponse
  split
  · exact OpenOnly.refl cp
  · split
    · exact OpenOnly.refl cp
    · split
      · exact openOnly_cleanup _ _ _ _ _
      · split
        · exact OpenOnly.refl cp
        · exact (openOnly_record cp _ _).trans (openOnly_cleanup _ _ _ _ _)

theorem openOnly_fleetOpenConnection (cp : ControlPlane) (fd : Fd) (payload : Bytes) :
    OpenOnly cp (cpHandleFleetOpenConnection cp fd payload) := by
  unfold cpHandleFleetOpenConnection
  split
  · exact OpenOnly.refl cp
  · split
    · exact OpenOnly.refl cp
    · split
      · exact OpenOnly.refl cp
      · dsimp only
        split
        · exact openOnly_writeBuilt _ _ _
        · split
          · exact openOnly_writeBuilt _ _ _
          · split
            · exact openOnly_writeBuilt _ _ _
            · exact openOnly_writeOrClean (openOnly_setOpenConn cp _ _) _ _ _

theorem openOnly_fleetResult (cp : ControlPlane) (fd : Fd) (payload : Bytes) :
    OpenOnly cp (cpHandleFleetOpenConnectionResult cp fd payload) := by
  unfold cpHandleFleetOpenConnectionResult
  split
  · exact OpenOnly.refl cp
  · split
    · exact OpenOnly.refl cp
    · exact openOnly_cleanup _ _ _ _ _

end

/-! ### One frame -/

def goneKey (payload : Bytes) : Option Key :=
  if h : payload.length < kKeySize then none else some (toKey payload (kKeySize_le h))

def frameGone (type : FrameType) (payload : Bytes) : Option Key :=
  if type = .kPeerGone ∨ type = .kClosePeer then goneKey payload else none

structure FrameEffect (cp cp' : ControlPlane) (reg : CpRegistry) (P : Cmd → Prop) : Prop where
  reg : cp'.reg = reg
  issued : Issued P cp.dataPlane cp'.dataPlane

theorem OpenOnly.effect {cp cp' : ControlPlane} (h : OpenOnly cp cp') (P : Cmd → Prop) :
    FrameEffect cp cp' cp.reg P :=
  ⟨h.reg, h.dataPlane ▸ Issued.refl P _⟩

theorem issued_cpRemovePeer {P : Cmd → Prop} {ctx : Ctx} {cp : ControlPlane} {key : Key}
    (h : Issued P ctx cp.dataPlane) (hk : P (.removePeer key)) :
    Issued P ctx (cpRemovePeer cp key).dataPlane :=
  h.trans (issued_enqueueCmd hk _ _)

theorem handlePeerGone_effect (cp : ControlPlane) (fd : Fd) (payload : Bytes) :
    FrameEffect cp (handlePeerGone cp fd payload)
      (match goneKey payload with
        | some k => cpRegistryRemove (cpRegistryRemove cp.reg k) k
        | none => cp.reg)
      (fun cmd => cmd.IsWrite ∨ ∃ k, goneKey payload = some k ∧ cmd = .removePeer k) := by
  unfold handlePeerGone goneKey
  split
  · exact ⟨rfl, Issued.refl _ _⟩
  · next hlen =>
    refine ⟨doDisconnect_reg _ _ _ _, issued_cpRemovePeer ?_ (.inr ⟨_, rfl, rfl⟩)⟩
    exact (doDisconnect_issued { cp with reg := cpRegistryRemove cp.reg _ } _ _ _).mono
      fun _ h => .inl h

theorem handleClosePeer_effect (cp : ControlPlane) (payload : Bytes) :
    FrameEffect cp (handleClosePeer cp payload)
      (match goneKey payload with
        | some k => cpRegistryRemove cp.reg k
        | none => cp.reg)
      (fun cmd => cmd.IsWrite ∨ ∃ k, goneKey payload = some k ∧ cmd = .removePeer k) := by
  unfold handleClosePeer goneKey
  split
  · exact ⟨rfl, Issued.refl _ _⟩
  · next hlen =>
    dsimp only
    split
    · next hnone => exact ⟨(cpRegistryRemove_none hnone).symm, Issued.refl _ _⟩
    · refine ⟨doDisconnect_reg _ _ _ _, ?_⟩
      exact (issued_cpRemovePeer (Issued.refl _ _) (.inr ⟨_, rfl, rfl⟩)).trans
        ((doDisconnect_issued _ _ _ _).mono fun _ h => .inl h)

theorem handlePing_effect (cp : ControlPlane) (fd : Fd) (payload : Bytes) :
    FrameEffect cp (handlePing cp fd payload) cp.reg Cmd.IsWrite := by
  unfold handlePing
  split
  · exact ⟨rfl, Issued.refl _ _⟩
  · rcases cpReply_sends cp fd (buildPong payload) with h | ⟨key, frame, h⟩
    · rw [h]
      exact ⟨rfl, Issued.refl _ _⟩
    · rw [h]
      exact ⟨cpSendFrame_reg _ _ _, cpSendFrame_issued _ _ _⟩

def notePreferred (cp : ControlPlane) (fd : Fd) (payload : Bytes) : CpRegistry :=
  (handleNotePreferred cp fd payload).reg

theorem handleNotePreferred_effect (cp : ControlPlane) (fd : Fd) (payload : Bytes) :
    FrameEffect cp (handleNotePreferred cp fd payload) (notePreferred cp fd payload)
      Cmd.IsWrite := by
  refine ⟨rfl, ?_⟩
  unfold handleNotePreferred
  split
  · exact Issued.refl _ _
  · split <;> exact Issued.refl _ _

theorem cpHandleRouteAnnounce_effect (cp : ControlPlane) (fd : Fd) (payload : Bytes) :
    FrameEffect cp (cpHandleRouteAnnounce cp fd payload) cp.reg Cmd.IsWrite := by
  unfold cpHandleRouteAnnounce
  split
  · exact ⟨rfl, Issued.refl _ _⟩
  · dsimp only
    split <;> exact ⟨rfl, Issued.refl _ _⟩

theorem cpHandleHdPeerInfo_effect (cp : ControlPlane) (payload : Bytes) :
    FrameEffect cp (cpHandleHdPeerInfo cp payload) cp.reg Cmd.IsWrite := by
  unfold cpHandleHdPeerInfo
  repeat' split
  all_goals exact ⟨rfl, Issued.refl _ _⟩

def regAfter (cp : ControlPlane) (fd : Fd) (type : FrameType) (payload : Bytes) : CpRegistry :=
  if type = .kNotePreferred then notePreferred cp fd payload
  else
    match goneKey payload with
    | none => cp.reg
    | some k =>
      if type = .kClosePeer then cpRegistryRemove cp.reg k
      else if type = .kPeerGone then cpRegistryRemove (cpRegistryRemove cp.reg k) k
      else cp.reg

def MayIssue (type : FrameType) (payload : Bytes) (cmd : Cmd) : Prop :=
  cmd.IsWrite ∨ ∃ k, frameGone type payload = some k ∧ cmd = .removePeer k

theorem cpProcessFrame_effect (cp : ControlPlane) (fd : Fd) (type : FrameType) (payload : Bytes) :
    FrameEffect cp (cpProcessFrame cp fd type payload) (regAfter cp fd type payload)
      (MayIssue type payload) := by
  have lift : ∀ {cp' : ControlPlane}, type ≠ .kNotePreferred → type ≠ .kClosePeer →
      type ≠ .kPeerGone → FrameEffect cp cp' cp.reg Cmd.IsWrite →
      FrameEffect cp cp' (regAfter cp fd type payload) (MayIssue type payload) := by
    intro cp' h1 h2 h3 h
    refine ⟨?_, h.issued.mono fun _ hw => .inl hw⟩
    rw [h.reg, regAfter, if_neg h1]
    split
    · rfl
    · rw [if_neg h2, if_neg h3]
  have branch : ∀ {p : Prop} [Decidable p] {a b : ControlPlane},
      (p → FrameEffect cp a (regAfter cp fd type payload) (MayIssue type payload)) →
      (¬p → FrameEffect cp b (regAfter cp fd type payload) (MayIssue type payload)) →
      FrameEffect cp (if p then a else b) (regAfter cp fd type payload) (MayIssue type payload) :=
    fun ha hb => iteInduction (motive := fun cp' => FrameEffect cp cp' _ _) ha hb
  unfold cpProcessFrame
  refine branch (fun h => ?_) fun _ => ?_
  · subst h
    exact lift (by decide) (by decide) (by decide) (cpHandleHdPeerInfo_effect _ _)
  refine branch (fun h => ?_) fun _ => ?_
  · subst h
    exact lift (by decide) (by decide) (by decide) (cpHandleRouteAnnounce_effect _ _ _)
  refine branch (fun h => ?_) fun _ => ?_
  · subst h
    exact lift (by decide) (by decide) (by decide) ((openOnly_openConnection _ _ _).effect _)
  refine branch (fun h => ?_) fun _ => ?_
  · subst h
    exact lift (by decide) (by decide) (by decide) ((openOnly_incomingConnResponse _ _ _).effect _)
  refine branch (fun h => ?_) fun _ => ?_
  · subst h
    exact lift (by decide) (by decide) (by decide) ((openOnly_fleetOpenConnection _ _ _).effect _)
  refine branch (fun h => ?_) fun _ => ?_
  · subst h
    exact lift (by decide) (by decide) (by decide) ((openOnly_fleetResult _ _ _).effect _)
  refine branch (fun h => ?_) fun _ => ?_
  · subst h
    exact lift (by decide) (by decide) (by decide)
      ⟨(handleWatchConns_sends cp fd).1, (handleWatchConns_sends cp fd).2⟩
  refine branch (fun h => ?_) fun _ => ?_
  · subst h
    exact lift (by decide) (by decide) (by decide) (handlePing_effect _ _ _)
  refine branch (fun h => ?_) fun h1 => ?_
  · subst h
    refine ⟨rfl, (handleNotePreferred_effect cp fd payload).issued.mono fun _ hw => .inl hw⟩
  refine branch (fun h => ?_) fun h2 => ?_
  · subst h
    refine ⟨?_, (handleClosePeer_effect cp payload).issued.mono fun cmd hc => ?_⟩
    · rw [(handleClosePeer_effect cp payload).reg, regAfter, if_neg (by decide)]
      cases goneKey payload <;> rfl
    · rcases hc with hc | hc
      · exact .inl hc
      · rw [MayIssue, frameGone, if_pos (.inr rfl)]
        exact .inr hc
  refine branch (fun h => ?_) fun h3 => ?_
  · subst h
    refine ⟨?_, (handlePeerGone_effect cp fd payload).issued.mono fun cmd hc => ?_⟩
    · rw [(handlePeerGone_effect cp fd payload).reg, regAfter, if_neg (by decide)]
      cases goneKey payload <;> rfl
    · rcases hc with hc | hc
      · exact .inl hc
      · rw [MayIssue, frameGone, if_pos (.inl rfl)]
        exact .inr hc
  · exact lift h1 h2 h3 ⟨rfl, Issued.refl _ _⟩

end HyperDerp
