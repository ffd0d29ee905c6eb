import HyperDerp.ControlPlane.Reconnect

/-!
# Who may open connections

The open-connection handlers do not look at who sent the frame. A request takes
a slot whenever its target can be reached, so the sender is entitled exactly when
some other reason would have refused the request anyway. `CpHandleRouteAnnounce`
does look up the sending relay.
-/

namespace HyperDerp

/-! ### Senders -/

def ApprovedHd (cp : ControlPlane) (fd : Fd) : Prop :=
  ∃ hd, cp.hdPeers = some hd ∧ ∃ i, (hd.peers i).occupied = .live ∧
    (hd.peers i).state = .kApproved ∧ (hd.peers i).fd = fd

def RelayLink (cp : ControlPlane) (fd : Fd) : Prop :=
  ∃ rt, cp.relayTable = some rt ∧ ∃ i, (rt.entries i).occupied = true ∧ (rt.entries i).fd = fd

/-- Frame types that `CpProcessFrame` gives to HD handlers. -/
def hdHandled : List Byte :=
  [HdFrameType.kPeerInfo, HdFrameType.kRouteAnnounce, HdFrameType.kOpenConnection,
    HdFrameType.kIncomingConnResponse, HdFrameType.kFleetOpenConnection,
    HdFrameType.kFleetOpenConnectionResult]

/-! ### What a handler did -/

def OpensSlot (cp cp' : ControlPlane) : Prop :=
  ∃ i, (cp.openConns i).inUse = false ∧ (cp'.openConns i).inUse = true

/-- Something was written to a socket other than `fd`. -/
def WritesElsewhere (fd : Fd) (cp cp' : ControlPlane) : Prop :=
  ∃ x ∈ cp'.written.drop cp.written.length, x.1 ≠ fd

/-- Connections are opened for entitled senders only, and no frame of a DERP
connection reaches an HD handler. -/
structure Honoured (cp : ControlPlane) (proto : PeerProtocol) (m : PipeMsg) : Prop where
  derp : proto = .kDerp → m.type ∉ hdHandled
  opens : m.type = HdFrameType.kOpenConnection →
    OpensSlot cp (cpProcessFrame cp m.fd m.type m.payload) → ApprovedHd cp m.fd
  fleet : m.type = HdFrameType.kFleetOpenConnection →
    OpensSlot cp (cpProcessFrame cp m.fd m.type m.payload) ∨
      WritesElsewhere m.fd cp (cpProcessFrame cp m.fd m.type m.payload) → RelayLink cp m.fd

/-! ### Requests that nothing refuses -/

def WriteOk (cp : ControlPlane) : Prop := ∀ n, cp.writeOracle.head? ≠ some (some n)

def FreeSlot (cp : ControlPlane) : Prop := ∃ i, (cp.openConns i).inUse = false

def localTarget (hd : HdPeerRegistry) (peerId : ℕ) : Option HdPeer :=
  (hdPeersLookupById hd peerId).filter fun t => decide (0 ≤ t.fd)

/-- A known relay with a link, and an envelope that can be built. -/
def RemoteReachable (cp : ControlPlane) (hd : HdPeerRegistry) (relayId : ℕ) : Prop :=
  ∃ rt e, cp.relayTable = some rt ∧ relayTableLookup rt relayId = some e ∧ 0 ≤ e.fd ∧
    hd.federationPolicy.localFleetId.length ≤ kHdMaxFleetIdLen

/-- An OpenConnection that is well formed, under the cap of its fd, with a target
in reach, a free slot and a working socket. -/
def OpenServed (cp : ControlPlane) (fd : Fd) (payload : Bytes) : Prop :=
  ∃ req hd, hdParseOpenConnection payload = some req ∧ cp.hdPeers = some hd ∧
    ¬(validFd fd = true ∧ kCpMaxOpenConnsPerPeer ≤ cp.openConnPerPeer fd) ∧
    (if req.targetRelayId ≠ 0 then RemoteReachable cp hd req.targetRelayId
      else (localTarget hd req.targetPeerId).isSome) ∧
    FreeSlot cp ∧ WriteOk cp

/-- A FleetOpenConnection that is well formed, with a local target its claimed
origin may reach, a free slot, and a working socket or one of another peer. -/
def FleetServed (cp : ControlPlane) (fd : Fd) (payload : Bytes) : Prop :=
  ∃ env hd inner target, hdParseFleetOpenConnection payload = some env ∧ cp.hdPeers = some hd ∧
    hdParseOpenConnection env.innerConn = some inner ∧
    localTarget hd inner.targetPeerId = some target ∧
    hdFederationAllows hd.federationPolicy (cString env.originFleetId) target.key = true ∧
    FreeSlot cp ∧ (WriteOk cp ∨ target.fd ≠ fd)

/-! ### Slots and sockets under the helpers -/

section

variable (cp : ControlPlane)

theorem writeFullFrame_openConns (fd : Fd) (buf : Bytes) :
    (writeFullFrame cp fd buf).2.openConns = cp.openConns := by
  unfold writeFullFrame
  split <;> rfl

theorem writeFullFrame_written (fd : Fd) (buf : Bytes) :
    ∃ b, (writeFullFrame cp fd buf).2.written = cp.written ++ [(fd, b)] := by
  unfold writeFullFrame
  split <;> exact ⟨_, rfl⟩

theorem writeFullFrame_ok (fd : Fd) (buf : Bytes) :
    (writeFullFrame cp fd buf).1 = true ↔ WriteOk cp := by
  unfold writeFullFrame WriteOk
  split
  · next h => simp [h]
  · next h => simp [h]
  · next h => simp [h]

theorem writeBuilt_openConns (fd : Fd) (built : Option Bytes) :
    (writeBuilt cp fd built).openConns = cp.openConns := by
  cases built with
  | none => rfl
  | some buf => exact writeFullFrame_openConns cp fd buf

theorem writeBuilt_written (fd : Fd) (built : Option Bytes) :
    ∃ new, (writeBuilt cp fd built).written = cp.written ++ new ∧ ∀ x ∈ new, x.1 = fd := by
  cases built with
  | none => exact ⟨[], by simp [writeBuilt], by simp⟩
  | some buf =>
    obtain ⟨b, h⟩ := writeFullFrame_written cp fd buf
    exact ⟨[(fd, b)], h, by simp⟩

theorem countOpenConn_openConns (fd : Fd) (d : ℤ) :
    (cp.countOpenConn fd d).openConns = cp.openConns := by
  unfold ControlPlane.countOpenConn
  split <;> rfl

theorem countOpenConn_written (fd : Fd) (d : ℤ) :
    (cp.countOpenConn fd d).written = cp.written := by
  unfold ControlPlane.countOpenConn
  split <;> rfl

theorem countOpenConn_writeOracle (fd : Fd) (d : ℤ) :
    (cp.countOpenConn fd d).writeOracle = cp.writeOracle := by
  unfold ControlPlane.countOpenConn
  split <;> rfl

theorem openConnSlotFree_openConns (i : OpenSlot) :
    (openConnSlotFree cp i).openConns = Function.update cp.openConns i {} := by
  unfold openConnSlotFree
  dsimp only
  split
  · show Function.update (cp.countOpenConn _ _).openConns i _ = _
    rw [countOpenConn_openConns]
  · rfl

theorem openConnSlotFree_written (i : OpenSlot) :
    (openConnSlotFree cp i).written = cp.written := by
  unfold openConnSlotFree
  dsimp only
  split
  · exact countOpenConn_written cp _ _
  · rfl

theorem cleanup_denied (i : OpenSlot) (reason : HdDenyReason) (sub : Byte) :
    (sendOpenResultAndCleanup cp i .kDenied reason sub).openConns =
        Function.update cp.openConns i {} ∧
      ∃ new, (sendOpenResultAndCleanup cp i .kDenied reason sub).written = cp.written ++ new ∧
        ∀ x ∈ new, x.1 = (cp.openConns i).initiatorFd := by
  have hno : ¬(HdConnMode.kDenied ≠ .kDenied ∧ 0 ≤ (cp.openConns i).targetFd ∧
      (cp.openConns i).targetRelayId = 0 ∧ (cp.openConns i).isGatewayInbound = false) :=
    fun h => h.1 rfl
  unfold sendOpenResultAndCleanup
  dsimp only
  rw [if_neg hno, openConnSlotFree_openConns, openConnSlotFree_written]
  generalize (if (cp.openConns i).isGatewayInbound = true then _ else _) = built
  split
  · exact ⟨by rw [writeBuilt_openConns], writeBuilt_written cp _ built⟩
  · exact ⟨rfl, [], by simp, by simp⟩

theorem openConnSlotAlloc_some {i : OpenSlot} (h : openConnSlotAlloc cp = some i) :
    (cp.openConns i).inUse = false := by
  have := List.find?_some h
  simpa using this

theorem openConnSlotAlloc_isSome : (openConnSlotAlloc cp).isSome ↔ FreeSlot cp := by
  simp [openConnSlotAlloc, FreeSlot]

end

section

variable {cp : ControlPlane}

theorem not_opensSlot_of_eq {cp' : ControlPlane} (h : cp'.openConns = cp.openConns) :
    ¬OpensSlot cp cp' := by
  rintro ⟨i, h0, h1⟩
  rw [h, h0] at h1
  cases h1

theorem takeSlot_opens {cp1 : ControlPlane} {i : OpenSlot} (fd : Fd) (buf : Bytes)
    (hfree : (cp.openConns i).inUse = false) (hi : (cp1.openConns i).inUse = true)
    (h1 : ∀ j, j ≠ i → cp1.openConns j = cp.openConns j) (hor : cp1.writeOracle = cp.writeOracle) :
    OpensSlot cp (match writeFullFrame cp1 fd buf with
      | (true, cp2) => cp2
      | (false, cp2) => sendOpenResultAndCleanup cp2 i .kDenied .kPeerUnreachable 0) ↔
      WriteOk cp := by
  have hok : (writeFullFrame cp1 fd buf).1 = true ↔ WriteOk cp := by
    rw [writeFullFrame_ok, WriteOk, WriteOk, hor]
  have hconns := writeFullFrame_openConns cp1 fd buf
  revert hok hconns
  rcases writeFullFrame cp1 fd buf with ⟨ok, cp2⟩
  intro hok hconns
  dsimp only at hok hconns
  rw [← hok]
  cases ok with
  | true =>
    refine ⟨fun _ => rfl, fun _ => ⟨i, hfree, ?_⟩⟩
    show (cp2.openConns i).inUse = true
    rw [hconns]
    exact hi
  | false =>
    refine ⟨?_, fun h => by cases h⟩
    rintro ⟨j, hj, hj'⟩
    have hfreed := (cleanup_denied cp2 i .kPeerUnreachable 0).1
    change ((sendOpenResultAndCleanup cp2 i .kDenied .kPeerUnreachable 0).openConns j).inUse =
      true at hj'
    rw [hfreed] at hj'
    by_cases hji : j = i
    · subst hji
      rw [Function.update_self] at hj'
      cases hj'
    · rw [Function.update_of_ne hji, hconns, h1 j hji, hj] at hj'
      cases hj'

theorem taken_openConns (cp : ControlPlane) (i : OpenSlot) (e : OpenConnEntry) (fd : Fd) (d : ℤ) :
    ((cp.setOpenConn i e).countOpenConn fd d).openConns i = e ∧
      ∀ j, j ≠ i → ((cp.setOpenConn i e).countOpenConn fd d).openConns j = cp.openConns j := by
  rw [countOpenConn_openConns]
  exact ⟨Function.update_self .., fun j hj => Function.update_of_ne hj _ _⟩

theorem length_hdOpenConnectionPayload (peerId relayId : ℕ) (intent : HdIntent) (flags : Byte)
    (corr : ℕ) : (hdOpenConnectionPayload peerId relayId intent flags corr).length =
      kHdOpenConnSize := by
  simp [hdOpenConnectionPayload, kHdOpenConnSize, writeU16, writeU64]

theorem hdBuildFleetOpenConnection_isSome (relayId : ℕ) (fleetId : Bytes) (key : Key)
    {inner : Bytes} (h : inner.length = kHdOpenConnSize) :
    (hdBuildFleetOpenConnection 256 relayId fleetId key inner).isSome ↔
      fleetId.length ≤ kHdMaxFleetIdLen := by
  unfold hdBuildFleetOpenConnection
  dsimp only
  by_cases hlt : kHdMaxFleetIdLen < fleetId.length
  · rw [if_pos hlt]
    exact ⟨fun hc => (by cases hc), fun hc => absurd hc (Nat.not_le_of_lt hlt)⟩
  · have hsize : ¬256 < kHdFrameHeaderSize +
        (2 + 2 + fleetId.length + kKeySize + kHdOpenConnSize) := by
      simp only [kHdMaxFleetIdLen, kHdFrameHeaderSize, kKeySize, kHdOpenConnSize] at hlt ⊢
      omega
    rw [if_neg hlt, if_neg (not_not_intro h), if_neg hsize]
    exact ⟨fun _ => Nat.le_of_not_lt hlt, fun _ => rfl⟩

theorem openRemote_opens (hd : HdPeerRegistry) (fd : Fd) (req : HdOpenConnection)
    (cv : HdClientView) : OpensSlot cp (openRemote cp hd fd req cv) ↔
      RemoteReachable cp hd req.targetRelayId ∧ FreeSlot cp ∧ WriteOk cp := by
  have hdeny : ∀ reason, ¬OpensSlot cp (denyOpen cp fd req.correlationId reason) :=
    fun reason => not_opensSlot_of_eq (writeBuilt_openConns cp fd _)
  unfold openRemote RemoteReachable
  cases hrt : cp.relayTable with
  | none => exact ⟨fun h => absurd h (hdeny _), by rintro ⟨⟨rt, e, h, -⟩, -⟩; cases h⟩
  | some rt =>
    dsimp only
    cases hl : relayTableLookup rt req.targetRelayId with
    | none =>
      rw [Option.map_none, Option.getD_none, if_pos (by decide)]
      refine ⟨fun h => absurd h (hdeny _), ?_⟩
      rintro ⟨⟨rt', e, h, h2, -⟩, -⟩
      cases h
      rw [hl] at h2
      cases h2
    | some e =>
      rw [Option.map_some, Option.getD_some]
      by_cases hfd : e.fd < 0
      · rw [if_pos hfd]
        refine ⟨fun h => absurd h (hdeny _), ?_⟩
        rintro ⟨⟨rt', e', h, h2, h3, -⟩, -⟩
        cases h
        rw [hl] at h2
        cases h2
        exact absurd hfd (Int.not_lt.mpr h3)
      · rw [if_neg hfd]
        have hfree := openConnSlotAlloc_isSome cp
        cases hal : openConnSlotAlloc cp with
        | none =>
          rw [hal] at hfree
          exact ⟨fun h => absurd h (hdeny _), fun h => by cases hfree.mpr h.2.1⟩
        | some i =>
          rw [hal] at hfree
          dsimp only
          have hsome := hdBuildFleetOpenConnection_isSome rt.selfId
            hd.federationPolicy.localFleetId zeroKey (length_hdOpenConnectionPayload
              req.targetPeerId 0 cv.intent (clientFlags cv) req.correlationId)
          split
          · next hnone =>
            rw [hnone] at hsome
            refine ⟨fun h => ?_, ?_⟩
            · obtain ⟨j, hj, hj'⟩ := h
              rw [(cleanup_denied _ i _ _).1, countOpenConn_openConns] at hj'
              by_cases hji : j = i
              · subst hji
                rw [Function.update_self] at hj'
                cases hj'
              · rw [Function.update_of_ne hji] at hj'
                change (Function.update cp.openConns i _ j).inUse = true at hj'
                rw [Function.update_of_ne hji, hj] at hj'
                cases hj'
            · rintro ⟨⟨rt', e', h, -, -, hlen⟩, -⟩
              cases hsome.mpr hlen
          · next buf hbuf =>
            rw [hbuf] at hsome
            refine Iff.trans (takeSlot_opens _ _ (openConnSlotAlloc_some cp hal) ?_ ?_ ?_) ?_
            · rw [(taken_openConns cp i _ fd 1).1]
            · exact (taken_openConns cp i _ fd 1).2
            · exact countOpenConn_writeOracle _ _ _
            · exact ⟨fun h => ⟨⟨rt, e, rfl, hl, Int.not_lt.mp hfd, hsome.mp rfl⟩, hfree.mp rfl, h⟩,
                fun h => h.2.2⟩

theorem openLocal_opens (hd : HdPeerRegistry) (fd : Fd) (req : HdOpenConnection)
    (cv : HdClientView) : OpensSlot cp (openLocal cp hd fd req cv) ↔
      (localTarget hd req.targetPeerId).isSome ∧ FreeSlot cp ∧ WriteOk cp := by
  unfold openLocal localTarget
  cases ht : (hdPeersLookupById hd req.targetPeerId).filter fun t => decide (0 ≤ t.fd) with
  | none =>
    refine ⟨fun h => absurd h (not_opensSlot_of_eq (writeBuilt_openConns cp fd _)), ?_⟩
    rintro ⟨h, -⟩
    cases h
  | some target =>
    dsimp only
    have hfree := openConnSlotAlloc_isSome cp
    cases hal : openConnSlotAlloc cp with
    | none =>
      rw [hal] at hfree
      exact ⟨fun h => absurd h (not_opensSlot_of_eq (writeBuilt_openConns cp fd _)),
        fun h => by cases hfree.mpr h.2.1⟩
    | some i =>
      rw [hal] at hfree
      refine Iff.trans (takeSlot_opens _ _ (openConnSlotAlloc_some cp hal) ?_ ?_ ?_) ?_
      · rw [(taken_openConns cp i _ fd 1).1]
      · exact (taken_openConns cp i _ fd 1).2
      · exact countOpenConn_writeOracle _ _ _
      · exact ⟨fun h => ⟨rfl, hfree.mp rfl, h⟩, fun h => h.2.2⟩

theorem openConnection_opens (fd : Fd) (payload : Bytes) :
    OpensSlot cp (cpHandleOpenConnection cp fd payload) ↔ OpenServed cp fd payload := by
  unfold cpHandleOpenConnection OpenServed
  cases hreq : hdParseOpenConnection payload with
  | none =>
    refine ⟨fun h => absurd h (not_opensSlot_of_eq rfl), ?_⟩
    rintro ⟨req, hd, h, -⟩
    cases h
  | some req =>
    dsimp only
    cases hhd : cp.hdPeers with
    | none =>
      refine ⟨fun h => absurd h (not_opensSlot_of_eq rfl), ?_⟩
      rintro ⟨req', hd, -, h, -⟩
      cases h
    | some hd =>
      dsimp only
      by_cases hcap : validFd fd = true ∧ kCpMaxOpenConnsPerPeer ≤ cp.openConnPerPeer fd
      · rw [if_pos hcap]
        refine ⟨fun h => absurd h (not_opensSlot_of_eq (writeBuilt_openConns cp fd _)), ?_⟩
        rintro ⟨req', hd', -, -, h, -⟩
        exact absurd hcap h
      · rw [if_neg hcap]
        have hboth : OpensSlot cp (if req.targetRelayId ≠ 0 then openRemote cp hd fd req
            (openClientView hd (initiatorKey cp fd) req) else openLocal cp hd fd req
            (openClientView hd (initiatorKey cp fd) req)) ↔
            (if req.targetRelayId ≠ 0 then RemoteReachable cp hd req.targetRelayId
              else (localTarget hd req.targetPeerId).isSome) ∧ FreeSlot cp ∧ WriteOk cp := by
          split
          · exact openRemote_opens hd fd req _
          · exact openLocal_opens hd fd req _
        rw [hboth]
        constructor
        · exact fun h => ⟨req, hd, rfl, rfl, hcap, h⟩
        · rintro ⟨req', hd', h1, h2, -, h⟩
          cases h1
          cases h2
          exact h

/-! ### FleetOpenConnection -/

theorem not_writesElsewhere {cp' : ControlPlane} {fd : Fd} {new : List (Fd × Bytes)}
    (h : cp'.written = cp.written ++ new) (hn : ∀ x ∈ new, x.1 = fd) :
    ¬WritesElsewhere fd cp cp' := by
  rintro ⟨x, hx, hne⟩
  rw [h, List.drop_left] at hx
  exact hne (hn x hx)

theorem takeSlot_writes {cp1 : ControlPlane} {i : OpenSlot} {fd tfd : Fd}
    (h1 : cp1.written = cp.written) (hinit : (cp1.openConns i).initiatorFd = fd) (buf : Bytes) :
    WritesElsewhere fd cp (match writeFullFrame cp1 tfd buf with
      | (true, cp2) => cp2
      | (false, cp2) => sendOpenResultAndCleanup cp2 i .kDenied .kPeerUnreachable 0) ↔
      tfd ≠ fd := by
  obtain ⟨b, hb⟩ := writeFullFrame_written cp1 tfd buf
  have hconns := writeFullFrame_openConns cp1 tfd buf
  rw [h1] at hb
  revert hb hconns
  rcases writeFullFrame cp1 tfd buf with ⟨ok, cp2⟩
  intro hb hconns
  dsimp only at hb hconns
  have hboth : ∃ new, (match (ok, cp2) with
      | (true, cp2) => cp2
      | (false, cp2) => sendOpenResultAndCleanup cp2 i .kDenied .kPeerUnreachable 0).written =
      cp.written ++ ((tfd, b) :: new) ∧ ∀ x ∈ new, x.1 = fd := by
    cases ok with
    | true => exact ⟨[], hb, by simp⟩
    | false =>
      obtain ⟨new, hnew, hx⟩ := (cleanup_denied cp2 i .kPeerUnreachable 0).2
      refine ⟨new, ?_, fun x hm => (hx x hm).trans (by rw [hconns]; exact hinit)⟩
      show (sendOpenResultAndCleanup cp2 i .kDenied .kPeerUnreachable 0).written = _
      rw [hnew, hb, List.append_assoc]
      rfl
  obtain ⟨new, hw, hx⟩ := hboth
  constructor
  · intro h heq
    refine not_writesElsewhere hw (fun x hm => ?_) h
    rcases List.mem_cons.mp hm with rfl | hm
    · exact heq
    · exact hx x hm
  · intro hne
    refine ⟨(tfd, b), ?_, hne⟩
    rw [hw, List.drop_left]
    exact List.mem_cons_self ..

theorem fleetOpenConnection_opens (fd : Fd) (payload : Bytes) :
    (OpensSlot cp (cpHandleFleetOpenConnection cp fd payload) ∨
      WritesElsewhere fd cp (cpHandleFleetOpenConnection cp fd payload)) ↔
      FleetServed cp fd payload := by
  have hnone : ¬(OpensSlot cp cp ∨ WritesElsewhere fd cp cp) := by
    rintro (h | h)
    · exact not_opensSlot_of_eq rfl h
    · exact not_writesElsewhere (List.append_nil _).symm (by simp) h
  have hdeny : ∀ corr reason, ¬(OpensSlot cp (denyFleet cp fd corr reason) ∨
      WritesElsewhere fd cp (denyFleet cp fd corr reason)) := by
    rintro corr reason (h | h)
    · exact not_opensSlot_of_eq (writeBuilt_openConns cp fd _) h
    · obtain ⟨new, hw, hx⟩ := writeBuilt_written cp fd
        (hdBuildFleetOpenConnectionResult 64 corr .kDenied reason 0 [] [])
      exact not_writesElsewhere hw hx h
  unfold cpHandleFleetOpenConnection FleetServed
  cases henv : hdParseFleetOpenConnection payload with
  | none =>
    refine ⟨fun h => absurd h hnone, ?_⟩
    rintro ⟨_, _, _, _, h, -⟩
    cases h
  | some env =>
    dsimp only
    cases hhd : cp.hdPeers with
    | none =>
      refine ⟨fun h => absurd h hnone, ?_⟩
      rintro ⟨_, _, _, _, -, h, -⟩
      cases h
    | some hd =>
      dsimp only
      cases hin : hdParseOpenConnection env.innerConn with
      | none =>
        refine ⟨fun h => absurd h hnone, ?_⟩
        rintro ⟨_, _, _, _, h1, -, h, -⟩
        cases h1
        rw [hin] at h
        cases h
      | some inner =>
        have hserved : (∃ env' hd' inner' target, some env = some env' ∧ some hd = some hd' ∧
            hdParseOpenConnection env'.innerConn = some inner' ∧
            localTarget hd' inner'.targetPeerId = some target ∧
            hdFederationAllows hd'.federationPolicy (cString env'.originFleetId) target.key =
              true ∧ FreeSlot cp ∧ (WriteOk cp ∨ target.fd ≠ fd)) ↔
            ∃ target, localTarget hd inner.targetPeerId = some target ∧
              hdFederationAllows hd.federationPolicy (cString env.originFleetId) target.key =
                true ∧ FreeSlot cp ∧ (WriteOk cp ∨ target.fd ≠ fd) := by
          constructor
          · rintro ⟨env', hd', inner', target, h1, h2, h3, h⟩
            cases h1
            cases h2
            rw [hin] at h3
            cases h3
            exact ⟨target, h⟩
          · rintro ⟨target, h⟩
            exact ⟨env, hd, inner, target, rfl, rfl, hin, h⟩
        rw [hserved]
        dsimp only
        cases ht : (hdPeersLookupById hd inner.targetPeerId).filter
            fun t => decide (0 ≤ t.fd) with
        | none =>
          refine ⟨fun h => absurd h (hdeny _ _), ?_⟩
          rintro ⟨target, h, -⟩
          rw [localTarget, ht] at h
          cases h
        | some target =>
          dsimp only
          cases hfed : hdFederationAllows hd.federationPolicy (cString env.originFleetId)
              target.key with
          | false =>
            refine ⟨fun h => absurd h (hdeny _ _), ?_⟩
            rintro ⟨target', h, h2, -⟩
            rw [localTarget, ht] at h
            cases h
            rw [hfed] at h2
            cases h2
          | true =>
            have hfree := openConnSlotAlloc_isSome cp
            rw [Bool.not_true, if_neg (by decide)]
            cases hal : openConnSlotAlloc cp with
            | none =>
              rw [hal] at hfree
              refine ⟨fun h => absurd h (hdeny _ _), ?_⟩
              rintro ⟨target', -, -, h, -⟩
              cases hfree.mpr h
            | some i =>
              rw [hal] at hfree
              dsimp only
              refine Iff.trans (or_congr (takeSlot_opens _ _ (openConnSlotAlloc_some cp hal)
                ?_ ?_ ?_) (takeSlot_writes ?_ ?_ _)) ?_
              · exact congrArg OpenConnEntry.inUse (Function.update_self i _ cp.openConns)
              · exact fun j hj => Function.update_of_ne hj _ _
              · rfl
              · rfl
              · exact congrArg OpenConnEntry.initiatorFd (Function.update_self i _ cp.openConns)
              · constructor
                · exact fun h => ⟨target, ht, hfed, hfree.mp rfl, h⟩
                · rintro ⟨target', h1, -, -, h⟩
                  rw [localTarget, ht] at h1
                  cases h1
                  exact h

/-- For every state and every frame that a worker forwards: the frame is honoured
only from an entitled sender exactly when it is no HD control frame of a DERP
connection, and a request that nothing refuses comes from an entitled sender. -/
theorem hd_frames_honoured_iff (cp : ControlPlane) (v : ℕ) (p : Slot) (frame : Bytes) :
    (∀ m, forwarded (cp.dataPlane.workers v) p frame = some m →
      Honoured cp ((cp.dataPlane.workers v).ht p).protocol m) ↔
    ∀ m, forwarded (cp.dataPlane.workers v) p frame = some m →
      (((cp.dataPlane.workers v).ht p).protocol = .kDerp → m.type ∉ hdHandled) ∧
      (m.type = HdFrameType.kOpenConnection → OpenServed cp m.fd m.payload →
        ApprovedHd cp m.fd) ∧
      (m.type = HdFrameType.kFleetOpenConnection → FleetServed cp m.fd m.payload →
        RelayLink cp m.fd) := by
  refine forall_congr' fun m => imp_congr_right fun _ => ?_
  have hopen : m.type = HdFrameType.kOpenConnection →
      cpProcessFrame cp m.fd m.type m.payload = cpHandleOpenConnection cp m.fd m.payload := by
    intro h
    rw [h]
    rfl
  have hfleet : m.type = HdFrameType.kFleetOpenConnection →
      cpProcessFrame cp m.fd m.type m.payload =
        cpHandleFleetOpenConnection cp m.fd m.payload := by
    intro h
    rw [h]
    rfl
  constructor
  · intro h
    refine ⟨h.derp, fun ht hs => h.opens ht ?_, fun ht hs => h.fleet ht ?_⟩
    · rw [hopen ht]
      exact (openConnection_opens _ _).mpr hs
    · rw [hfleet ht]
      exact (fleetOpenConnection_opens _ _).mpr hs
  · rintro ⟨hderp, ho, hf⟩
    refine ⟨hderp, fun ht hs => ho ht ?_, fun ht hs => hf ht ?_⟩
    · rw [hopen ht] at hs
      exact (openConnection_opens _ _).mp hs
    · rw [hfleet ht] at hs
      exact (fleetOpenConnection_opens _ _).mp hs

end

/-! ### A DERP client that poses as a relay -/

namespace Relay

/-- An HD registry that approves peers and accepts requests of fleet `a`. -/
def openRegistry : HdPeerRegistry :=
  { enrollMode := .kAutoApprove, federationPolicy := { acceptFrom := [{ fleetId := [0x61] }] } }

def idleHd : Relay := { idle with cp := { idle.cp with hdPeers := some openRegistry } }

theorem idleHd_init : Init idleHd := by
  constructor
  case hdPeers =>
    intro hd h i
    cases h
    exact LinearProbe.Occ.noConfusion
  case relays => intro rt h; cases h
  case pos => exact Nat.one_pos
  all_goals intros; rfl

def derpAndHd : List RelayStep :=
  [.accept 5 (byteKey 1) .kDerp 0, .work 0, .accept 6 (byteKey 2) .kHd 1, .work 0,
    .enrol (byteKey 2) 6]

/-- A DERP frame with the type and payload of a FleetOpenConnection from fleet `a`. -/
def fleetFrame : Bytes :=
  [0x28, 0, 0, 0, 51] ++ ((hdBuildFleetOpenConnection 256 7 [0x61] zeroKey
    (hdOpenConnectionPayload 1 0 0 0 9)).getD []).drop kHdFrameHeaderSize

def firstSlot : OpenSlot := ⟨0, by decide⟩

def fleetEffect (s : Relay) : Option (Byte × List Bool × List Fd) :=
  (forwarded (s.worker 0) (homeSlot (byteKey 1)) fleetFrame).map fun m =>
    (m.type, [(s.cp.openConns firstSlot).inUse,
      ((cpProcessFrame s.cp m.fd m.type m.payload).openConns firstSlot).inUse],
      (cpProcessFrame s.cp m.fd m.type m.payload).written.map Prod.fst)

/-- Without a single relay the gateway slot is taken and the local peer is written to. -/
theorem derp_client_opens_gateway_slot :
    ¬∀ s, Runs.Reach Init step Runs.Any s → ∀ v p frame m,
      forwarded (s.worker v) p frame = some m → Honoured s.cp ((s.worker v).ht p).protocol m := by
  intro hall
  have hrun : (Runs.run step idleHd derpAndHd).map (fun s => (fleetEffect s,
      s.cp.relayTable.isNone)) = some (some (0x28, [false, true], [6]), true) := by
    decide +kernel
  obtain ⟨s, hs, hview⟩ := Option.map_eq_some_iff.mp hrun
  rw [Prod.mk.injEq] at hview
  obtain ⟨m, hm, heff⟩ := Option.map_eq_some_iff.mp hview.1
  simp only [Prod.mk.injEq, List.cons.injEq, and_true] at heff
  have hlink := (hall s (Runs.reach_of_run idleHd_init hs) 0 _ _ m hm).fleet heff.1
    (.inl ⟨firstSlot, heff.2.1.1, heff.2.1.2⟩)
  obtain ⟨rt, hrt, -⟩ := hlink
  rw [hrt] at hview
  cases hview.2

end Relay

end HyperDerp
