import HyperDerp.ControlPlane.Entitlement
import HyperDerp.Lib.SlotCount

/-!
# Accounting of open connections (`control_plane.cc:945-959`, `:1075-1480`)

Each slot in use is counted for the fd that asked for it, and a client has at most
`kCpMaxOpenConnsPerPeer` of them. Local and outbound requests add to the count when
they take a slot and every release subtracts, so the count is right as long as no
inbound gateway request, which does not add, takes one.
-/

namespace HyperDerp

/-! ### Counting slots -/

def OpenConnEntry.heldBy (e : OpenConnEntry) (fd : Fd) : Bool := e.inUse && decide (e.initiatorFd = fd)

def openConnsOf (cp : ControlPlane) (fd : Fd) : ℕ :=
  (Finset.univ.filter fun i => (cp.openConns i).heldBy fd = true).card

def OpensAccounted (cp : ControlPlane) : Prop :=
  ∀ fd, validFd fd = true → cp.openConnPerPeer fd = openConnsOf cp fd ∧
    (openConnsOf cp fd : ℤ) ≤ kCpMaxOpenConnsPerPeer

section

variable {cp cp' : ControlPlane}

theorem openConnsOf_set (i : OpenSlot) (e : OpenConnEntry) (fd : Fd)
    (h : cp'.openConns = Function.update cp.openConns i e) :
    openConnsOf cp' fd + (if (cp.openConns i).heldBy fd then 1 else 0) =
      openConnsOf cp fd + if e.heldBy fd then 1 else 0 := by
  unfold openConnsOf
  rw [h]
  exact SlotCount.count_update (OpenConnEntry.heldBy · fd) cp.openConns i e

theorem countOpenConn_perPeer (cp : ControlPlane) (fd fd' : Fd) (d : ℤ) (hv : validFd fd' = true) :
    (cp.countOpenConn fd d).openConnPerPeer fd' =
      cp.openConnPerPeer fd' + if fd = fd' then d else 0 := by
  unfold ControlPlane.countOpenConn
  by_cases heq : fd = fd'
  · rw [heq, if_pos hv, if_pos rfl]
    exact Function.update_self ..
  · rw [if_neg heq, add_zero]
    split
    · exact Function.update_of_ne (Ne.symm heq) ..
    · rfl

structure SameOpens (cp cp' : ControlPlane) : Prop where
  openConns : cp'.openConns = cp.openConns
  perPeer : cp'.openConnPerPeer = cp.openConnPerPeer

namespace SameOpens

theorem refl (cp : ControlPlane) : SameOpens cp cp := ⟨rfl, rfl⟩

theorem accounted (h : SameOpens cp cp') (ha : OpensAccounted cp) : OpensAccounted cp' := by
  intro fd hv
  have hcount : openConnsOf cp' fd = openConnsOf cp fd := by
    unfold openConnsOf
    rw [h.openConns]
  rw [hcount, h.perPeer]
  exact ha fd hv

theorem write (cp : ControlPlane) (fd : Fd) (buf : Bytes) :
    SameOpens cp (writeFullFrame cp fd buf).2 := by
  unfold writeFullFrame
  split <;> exact ⟨rfl, rfl⟩

theorem built (cp : ControlPlane) (fd : Fd) (b : Option Bytes) :
    SameOpens cp (writeBuilt cp fd b) := by
  cases b with
  | none => exact refl cp
  | some buf => exact write cp fd buf

end SameOpens

/-! ### Taking and freeing a slot -/

theorem openConnSlotFree_perPeer (cp : ControlPlane) (i : OpenSlot) {fd : Fd}
    (hv : validFd fd = true) :
    (openConnSlotFree cp i).openConnPerPeer fd =
      cp.openConnPerPeer fd + if (cp.openConns i).heldBy fd then -1 else 0 := by
  unfold openConnSlotFree OpenConnEntry.heldBy ControlPlane.setOpenConn
  dsimp only
  cases huse : (cp.openConns i).inUse with
  | false =>
    rw [if_neg nofun, Bool.false_and, if_neg nofun, add_zero]
  | true =>
    rw [if_pos rfl, countOpenConn_perPeer cp _ fd (-1) hv, Bool.true_and]
    simp only [decide_eq_true_eq]

theorem OpensAccounted.free (h : OpensAccounted cp) (i : OpenSlot) :
    OpensAccounted (openConnSlotFree cp i) := by
  intro fd hv
  have hset := openConnsOf_set i {} fd (openConnSlotFree_openConns cp i)
  have hempty : ¬({} : OpenConnEntry).heldBy fd = true := nofun
  rw [if_neg hempty, Nat.add_zero] at hset
  obtain ⟨heq, hle⟩ := h fd hv
  rw [openConnSlotFree_perPeer cp i hv, heq]
  cases hheld : (cp.openConns i).heldBy fd with
  | true =>
    rw [hheld, if_pos rfl] at hset
    rw [if_pos rfl]
    omega
  | false =>
    rw [hheld, if_neg nofun] at hset
    rw [if_neg nofun]
    omega

theorem OpensAccounted.cleanup (h : OpensAccounted cp) (i : OpenSlot) (mode : HdConnMode)
    (reason : HdDenyReason) (sub : Byte) :
    OpensAccounted (sendOpenResultAndCleanup cp i mode reason sub) := by
  unfold sendOpenResultAndCleanup
  dsimp only
  apply OpensAccounted.free
  have hresult : ∀ fd built, OpensAccounted (if 0 ≤ fd then writeBuilt cp fd built else cp) := by
    intro fd built
    split
    · exact (SameOpens.built cp fd built).accounted h
    · exact h
  split
  · exact (SameOpens.write _ _ _).accounted (hresult _ _)
  · exact hresult _ _

theorem OpensAccounted.take (h : OpensAccounted cp) {i : OpenSlot}
    (hfree : (cp.openConns i).inUse = false) {fd : Fd}
    (hquota : ¬(validFd fd = true ∧ kCpMaxOpenConnsPerPeer ≤ cp.openConnPerPeer fd))
    {e : OpenConnEntry} (huse : e.inUse = true) (hfd : e.initiatorFd = fd) :
    OpensAccounted ((cp.setOpenConn i e).countOpenConn fd 1) := by
  intro fd' hv
  have hslots : ((cp.setOpenConn i e).countOpenConn fd 1).openConns =
      Function.update cp.openConns i e := countOpenConn_openConns _ fd 1
  have hset := openConnsOf_set i e fd' hslots
  have hold : (cp.openConns i).heldBy fd' = false := by
    unfold OpenConnEntry.heldBy
    rw [hfree]
    rfl
  have hnew : e.heldBy fd' = decide (fd = fd') := by
    unfold OpenConnEntry.heldBy
    rw [huse, hfd]
    rfl
  rw [hold, hnew, if_neg nofun, Nat.add_zero] at hset
  rw [countOpenConn_perPeer _ _ _ _ hv]
  obtain ⟨heq, hle⟩ := h fd' hv
  change cp.openConnPerPeer fd' + _ = _ ∧ _
  rw [heq]
  by_cases hff : fd = fd'
  · have hlt : cp.openConnPerPeer fd' < kCpMaxOpenConnsPerPeer := by
      by_contra hge
      exact hquota ⟨hff ▸ hv, hff ▸ not_lt.1 hge⟩
    rw [decide_eq_true hff, if_pos rfl] at hset
    rw [if_pos hff]
    omega
  · rw [decide_eq_false hff, if_neg nofun, Nat.add_zero] at hset
    rw [if_neg hff]
    omega

theorem OpensAccounted.writeOrClean (h : OpensAccounted cp) (fd : Fd) (buf : Bytes) (i : OpenSlot) :
    OpensAccounted (match writeFullFrame cp fd buf with
      | (true, cp2) => cp2
      | (false, cp2) => sendOpenResultAndCleanup cp2 i .kDenied .kPeerUnreachable 0) := by
  have hw := (SameOpens.write cp fd buf).accounted h
  revert hw
  rcases writeFullFrame cp fd buf with ⟨ok, cp2⟩
  intro hw
  cases ok with
  | true => exact hw
  | false => exact hw.cleanup i _ _ _

/-! ### One lemma for each handler -/

theorem OpensAccounted.openRemote (h : OpensAccounted cp) (hd : HdPeerRegistry) {fd : Fd}
    (hquota : ¬(validFd fd = true ∧ kCpMaxOpenConnsPerPeer ≤ cp.openConnPerPeer fd))
    (req : HdOpenConnection) (cv : HdClientView) :
    OpensAccounted (openRemote cp hd fd req cv) := by
  unfold HyperDerp.openRemote
  split
  · exact (SameOpens.built _ _ _).accounted h
  dsimp only
  split
  · exact (SameOpens.built _ _ _).accounted h
  split
  · exact (SameOpens.built _ _ _).accounted h
  next i hi =>
  split
  · apply OpensAccounted.cleanup
    exact h.take (openConnSlotAlloc_some cp hi) hquota rfl rfl
  · apply OpensAccounted.writeOrClean
    exact h.take (openConnSlotAlloc_some cp hi) hquota rfl rfl

theorem OpensAccounted.openLocal (h : OpensAccounted cp) (hd : HdPeerRegistry) {fd : Fd}
    (hquota : ¬(validFd fd = true ∧ kCpMaxOpenConnsPerPeer ≤ cp.openConnPerPeer fd))
    (req : HdOpenConnection) (cv : HdClientView) :
    OpensAccounted (openLocal cp hd fd req cv) := by
  unfold HyperDerp.openLocal
  split
  · have hdeny := (SameOpens.built cp fd
      (hdBuildOpenConnectionResult 64 req.correlationId .kDenied .kPeerUnreachable 0 [] [])).accounted h
    exact SameOpens.accounted ⟨rfl, rfl⟩ hdeny
  split
  · exact (SameOpens.built _ _ _).accounted h
  next i hi =>
  apply OpensAccounted.writeOrClean
  exact h.take (openConnSlotAlloc_some cp hi) hquota rfl rfl

theorem OpensAccounted.openConnection (h : OpensAccounted cp) (fd : Fd) (payload : Bytes) :
    OpensAccounted (cpHandleOpenConnection cp fd payload) := by
  unfold cpHandleOpenConnection
  split
  · exact h
  split
  · exact h
  split
  · exact (SameOpens.built _ _ _).accounted h
  next hquota =>
  dsimp only
  split
  · exact h.openRemote _ hquota _ _
  · exact h.openLocal _ hquota _ _

theorem OpensAccounted.incomingConnResponse (h : OpensAccounted cp) (fd : Fd) (payload : Bytes) :
    OpensAccounted (cpHandleIncomingConnResponse cp fd payload) := by
  unfold cpHandleIncomingConnResponse
  split
  · exact h
  split
  · exact h
  split
  · exact h.cleanup _ _ _ _
  split
  · exact h
  · apply OpensAccounted.cleanup
    refine SameOpens.accounted ?_ h
    exact ⟨rfl, rfl⟩

theorem OpensAccounted.fleetResult (h : OpensAccounted cp) (fd : Fd) (payload : Bytes) :
    OpensAccounted (cpHandleFleetOpenConnectionResult cp fd payload) := by
  unfold cpHandleFleetOpenConnectionResult
  split
  · exact h
  split
  · exact h
  · exact h.cleanup _ _ _ _

/-- A FleetOpenConnection that takes a slot: well formed, with a local target its claimed
origin may reach, and a slot free. -/
def TakesGatewaySlot (cp : ControlPlane) (payload : Bytes) : Prop :=
  ∃ env hd inner target, hdParseFleetOpenConnection payload = some env ∧ cp.hdPeers = some hd ∧
    hdParseOpenConnection env.innerConn = some inner ∧
    localTarget hd inner.targetPeerId = some target ∧
    hdFederationAllows hd.federationPolicy (cString env.originFleetId) target.key = true ∧
    FreeSlot cp

theorem OpensAccounted.fleetOpenConnection (h : OpensAccounted cp) (fd : Fd) {payload : Bytes}
    (hnot : ¬TakesGatewaySlot cp payload) :
    OpensAccounted (cpHandleFleetOpenConnection cp fd payload) := by
  unfold cpHandleFleetOpenConnection
  split
  · exact h
  next env henv =>
  split
  · exact h
  next hd hhd =>
  split
  · exact h
  next inner hinner =>
  dsimp only
  split
  · exact (SameOpens.built _ _ _).accounted h
  next target htarget =>
  split
  · exact (SameOpens.built _ _ _).accounted h
  next hfed =>
  split
  · exact (SameOpens.built _ _ _).accounted h
  next i hi =>
  rw [Bool.not_eq_true', Bool.not_eq_false] at hfed
  exact (hnot ⟨env, hd, inner, target, henv, hhd, hinner, htarget, hfed, i,
    openConnSlotAlloc_some cp hi⟩).elim

theorem OpensAccounted.scan (h : OpensAccounted cp) : OpensAccounted (scanOpenConnTimeouts cp) := by
  unfold scanOpenConnTimeouts
  generalize List.finRange kCpMaxOpenConns = slots
  generalize cp.now = now
  -- one slot after the other
  induction slots generalizing cp with
  | nil => exact h
  | cons i slots ih =>
    rw [List.foldl_cons]
    apply ih
    dsimp only
    split
    · exact h
    split
    · exact h
    · exact h.cleanup i _ _ _

end

/-! ### Runs -/

namespace Accounting

/-- The frames that take and free slots, the timer, and everything else the control plane
does in between, which touches neither slots nor counts. -/
inductive Op where
  | openConnection (fd : Fd) (payload : Bytes)
  | fleetOpenConnection (fd : Fd) (payload : Bytes)
  | incomingConnResponse (fd : Fd) (payload : Bytes)
  | fleetOpenConnectionResult (fd : Fd) (payload : Bytes)
  | scan
  | elsewhere (cp : ControlPlane)

def step (cp : ControlPlane) : Op → Option ControlPlane
  | .openConnection fd payload => some (cpHandleOpenConnection cp fd payload)
  | .fleetOpenConnection fd payload => some (cpHandleFleetOpenConnection cp fd payload)
  | .incomingConnResponse fd payload => some (cpHandleIncomingConnResponse cp fd payload)
  | .fleetOpenConnectionResult fd payload => some (cpHandleFleetOpenConnectionResult cp fd payload)
  | .scan => some (scanOpenConnTimeouts cp)
  | .elsewhere cp' =>
    some { cp' with openConns := cp.openConns, openConnPerPeer := cp.openConnPerPeer }

structure Init (cp : ControlPlane) : Prop where
  free : ∀ i, (cp.openConns i).inUse = false
  zero : ∀ fd, cp.openConnPerPeer fd = 0

/-- The step is not a gateway request that takes a slot. -/
def noGateway (cp : ControlPlane) : Op → Prop
  | .fleetOpenConnection _ payload => ¬TakesGatewaySlot cp payload
  | _ => True

theorem Init.accounted {cp : ControlPlane} (h : Init cp) : OpensAccounted cp := by
  intro fd _
  have hnone : openConnsOf cp fd = 0 := by
    unfold openConnsOf
    rw [Finset.card_eq_zero, Finset.filter_eq_empty_iff]
    intro i _
    unfold OpenConnEntry.heldBy
    rw [h.free i]
    nofun
  rw [h.zero fd, hnone]
  exact ⟨rfl, by decide⟩

theorem step_accounted {cp cp' : ControlPlane} (h : OpensAccounted cp) {op : Op}
    (hok : noGateway cp op) (hs : step cp op = some cp') : OpensAccounted cp' := by
  cases op with
  | openConnection fd payload =>
    cases hs
    exact h.openConnection fd payload
  | fleetOpenConnection fd payload =>
    cases hs
    exact h.fleetOpenConnection fd hok
  | incomingConnResponse fd payload =>
    cases hs
    exact h.incomingConnResponse fd payload
  | fleetOpenConnectionResult fd payload =>
    cases hs
    exact h.fleetResult fd payload
  | scan =>
    rw [step, Option.some.injEq] at hs
    rw [← hs]
    exact h.scan
  | elsewhere cp1 =>
    cases hs
    exact SameOpens.accounted ⟨rfl, rfl⟩ h

structure SlotsCounted (cp : ControlPlane) (fd : Fd) : Prop where
  counted : cp.openConnPerPeer fd = openConnsOf cp fd
  nonneg : 0 ≤ cp.openConnPerPeer fd
  quota : (openConnsOf cp fd : ℤ) ≤ kCpMaxOpenConnsPerPeer

theorem slots_counted {cp : ControlPlane} (h : Runs.Reach Init step noGateway cp) (fd : Fd)
    (hv : validFd fd = true) : SlotsCounted cp fd := by
  have hacc : OpensAccounted cp := h.invariant (fun _ h0 => h0.accounted)
    fun _ _ _ ha hok hs => step_accounted ha hok hs
  obtain ⟨heq, hle⟩ := hacc fd hv
  refine ⟨heq, ?_, hle⟩
  rw [heq]
  exact Int.natCast_nonneg _

/-! A local peer on fd 6, and a relay link on fd 5 that asks for it. -/

def gatewayCp : ControlPlane :=
  { Relay.idle.cp with hdPeers := some (hdPeersInsert Relay.openRegistry (byteKey 2) 6) }

def gatewayRequest : Bytes := Relay.fleetFrame.drop 5

def gatewayDeclined : List Op :=
  [.fleetOpenConnection 5 gatewayRequest, .incomingConnResponse 6 (writeU64 9 ++ [0, 0, 0])]

theorem gatewayCp_init : Init gatewayCp := ⟨fun _ => rfl, fun _ => rfl⟩

/-- The slot was not counted when it was taken, but is when it is freed. -/
theorem gateway_release_counts_below_zero :
    ¬∀ cp, Runs.Reach Init step Runs.Any cp → ∀ fd, validFd fd = true → SlotsCounted cp fd := by
  intro hall
  have hrun : (Runs.run step gatewayCp gatewayDeclined).map (fun cp => cp.openConnPerPeer 5) =
      some (-1) := by
    decide +kernel
  obtain ⟨cp, hcp, hneg⟩ := Option.map_eq_some_iff.1 hrun
  have hcount := (hall cp (Runs.reach_of_run gatewayCp_init hcp) 5 (by decide)).nonneg
  rw [hneg] at hcount
  exact absurd hcount (by decide)

def localRequests : List Op :=
  [.openConnection 5 (hdOpenConnectionPayload 1 0 0 0 9),
    .openConnection 5 (hdOpenConnectionPayload 1 0 0 0 10),
    .incomingConnResponse 6 (writeU64 9 ++ [0, 0, 0])]

theorem slots_counted_one :
    ∃ cp, Runs.Reach Init step noGateway cp ∧ cp.openConnPerPeer 5 = 1 ∧ SlotsCounted cp 5 := by
  have hrun : (Runs.run step gatewayCp localRequests).map (fun cp => cp.openConnPerPeer 5) =
      some 1 := by
    decide +kernel
  obtain ⟨cp, hcp, hone⟩ := Option.map_eq_some_iff.1 hrun
  have hreach : Runs.Reach Init step noGateway cp := by
    apply Runs.reach_run (.start _ gatewayCp_init) _ hcp
    apply Runs.runOk_of_forall
    intro s l hl
    simp only [localRequests, List.mem_cons, List.not_mem_nil, or_false] at hl
    rcases hl with rfl | rfl | rfl <;> trivial
  exact ⟨cp, hreach, hone, slots_counted hreach 5 (by decide)⟩

end Accounting

end HyperDerp
