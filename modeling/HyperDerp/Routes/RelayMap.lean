import HyperDerp.DataPlane.RuleStores
import HyperDerp.Enrolment.Modes
import HyperDerp.Fleet.Seeds
import HyperDerp.HdPeers.PeerIds
import HyperDerp.Routes.Attribution

/-!
# `relay_peer_map` (`server.cc:405-418`, `server.cc:1115-1137`, `data_plane.cc:1277-1296`)

The data plane does not read the relay table. It forwards FleetData to the peer
whose id `relay_peer_map` has for the destination, and only an enrolment and the
seed thread write to the map. A route that is learned from an announcement, and a
key that comes back as another relay, change the one without the other.
-/

namespace HyperDerp

namespace RelayMap

structure State where
  reg : HdPeerRegistry
  table : RelayTable
  ctx : Ctx
  /-- relay id that each key last connected with, 0 for a client -/
  role : Key → ℕ

def mapRelay (ctx : Ctx) (relayId pid : ℕ) : Ctx :=
  { ctx with relayPeerMap := Function.update ctx.relayPeerMap relayId pid }

/-- `HandleConnection` after an automatic approval; a client has relay id 0. -/
def State.enrol (s : State) (key : Key) (fd : Fd) (relayId : ℕ) : State :=
  let reg := Enrolment.autoReg s.reg key fd
  let ctx := dpAddPeer s.ctx fd key .kHd (seedPeerId reg key)
  let s := { s with reg := reg, ctx := ctx, role := Function.update s.role key relayId }
  if 0 < relayId then
    { s with
      table := relayTableAdd s.table relayId fd key
      ctx :=
        match hdPeersLookup reg key with
        | none => ctx
        | some i => mapRelay ctx relayId (reg.peers i).peerId }
  else s

/-- The `idx`-th seed has enrolled. -/
def State.seed (s : State) (key : Key) (fd : Fd) (idx : ℕ) : State :=
  let reg := hdPeersInsert s.reg key fd
  let pid := seedPeerId reg key
  let ctx := dpAddPeer s.ctx fd key .kHd pid
  let id := seedRelayId s.ctx.relayId idx
  { reg := reg
    table := relayTableAdd s.table id fd key
    ctx := if 0 < pid then mapRelay ctx id pid else ctx
    role := Function.update s.role key id }

inductive Op where
  | enrol (key : Key) (fd : Fd) (relayId : ℕ)
  | seed (key : Key) (fd : Fd) (idx : ℕ)
  /-- a RouteAnnounce arrives on `fd` -/
  | announce (fd : Fd) (payload : Bytes)
  | disconnect (key : Key)
  /-- a worker takes its next command -/
  | cmd (v : ℕ)

def step (s : State) : Op → Option State
  | .enrol key fd relayId => some (s.enrol key fd relayId)
  | .seed key fd idx => some (s.seed key fd idx)
  | .announce fd payload => some { s with table := HyperDerp.announce s.table fd payload }
  | .disconnect key => some { s with ctx := dpRemovePeer s.ctx key }
  | .cmd v => (popCmd s.ctx v).map fun r => { s with ctx := r.1 }

structure Init (s : State) : Prop where
  reg : PeerIds.Init s.reg
  table : ∀ i, (s.table.entries i).occupied = false
  workers : ∀ v, ∃ oracle, s.ctx.workers v = { allocOracle := oracle }
  map : s.ctx.relayPeerMap = fun _ => 0

/-- The commands that were issued have been processed. -/
def State.Settled (s : State) : Prop := ∀ v < s.ctx.numWorkers, (s.ctx.workers v).cmdRing = []

/-- The neighbour that is the next hop to relay `d`. -/
def State.neighbour (s : State) (d : ℕ) : Option RelayEntry :=
  ((relayTableLookup s.table d).bind fun e => relayTableLookup s.table e.nextHop).filter
    fun n => decide n.Direct

/-- The neighbour's peer on worker `v`, if it is connected there, and as that relay. -/
def State.nextPeer (s : State) (v d : ℕ) : Option Slot :=
  (s.neighbour d).bind fun n =>
    if s.role n.key = n.relayId then htLookup (s.ctx.workers v) n.key else none

/-- The map has the id of the next hop, and FleetData goes to the next hop or nowhere. -/
structure State.Follows (s : State) : Prop where
  map : ∀ d, d ≠ s.ctx.relayId → s.ctx.relayPeerMap d =
    match s.neighbour d with
    | none => 0
    | some n => seedPeerId s.reg n.key
  fleet : ∀ v p frame payload, kHdFleetDstSize ≤ payload.length →
    hdReadFleetRelay payload ≠ s.ctx.relayId → hdReadFleetRelay payload ≠ 0 →
    dispatchFleetData s.ctx v p frame payload =
      match s.nextPeer v (hdReadFleetRelay payload) with
      | none => s.ctx
      | some q => s.ctx.setWorker v (fleetEnqueue (s.ctx.workers v) q frame)

/-! ### Which steps keep them together -/

def NoNews (rt : RelayTable) (e : ℕ × ℕ) : Prop :=
  e.1 = 0 ∨ e.1 = rt.selfId ∨ 255 ≤ (e.2 + 1) % 256 ∨
    (∃ x, relayTableLookup rt e.1 = some x ∧ x.hops ≤ (e.2 + 1) % 256) ∨
    relayTableLookup rt e.1 = none ∧ (rt.find fun x => !x.occupied) = none

/-- The key comes as `relayId`, or as a client: there is an entry for it, with an id of its own,
it is not in the table as another relay, and a relay finds room there. -/
structure JoinOk (s : State) (key : Key) (fd : Fd) (relayId : ℕ) : Prop where
  known : ¬Enrolment.NoRoom s.reg key
  fresh : PeerIds.FreshId s.reg (.insert key fd)
  only : ∀ d e, relayTableLookup s.table d = some e → e.key = key → d = relayId
  room : 0 < relayId → s.table.byId relayId ≠ none ∨ (s.table.find fun e => !e.occupied) ≠ none

/-- No announcement makes or shortens a route, each key is one relay that fits into registry and
table, and there is memory for the id tables. -/
def StepOk (s : State) : Op → Prop
  | .enrol key fd relayId => JoinOk s key fd relayId
  | .seed key fd idx =>
    seedRelayId s.ctx.relayId idx ≠ 0 ∧ JoinOk s key fd (seedRelayId s.ctx.relayId idx)
  | .announce fd payload => announceSource s.table fd = 0 ∨
      ∀ e ∈ hdParseRouteAnnounce payload 256, NoNews s.table e
  | .disconnect _ => True
  | .cmd v => (s.ctx.workers v).peerIdMap ≠ none ∨
      ∀ ok ∈ (s.ctx.workers v).allocOracle, ok = true

/-! ### The id of a key -/

section Ids

variable {reg : HdPeerRegistry} {key k : Key} {fd : Fd}

theorem seedPeerId_some (h : seedPeerId reg k ≠ 0) :
    ∃ i, hdPeersLookup reg k = some i ∧ (reg.peers i).peerId = seedPeerId reg k := by
  unfold seedPeerId at h ⊢
  split at h
  · next i hi =>
    rw [hi]
    exact ⟨i, rfl, rfl⟩
  · exact absurd rfl h

theorem key_of_id (hids : PeerIds.IdsInv reg) (h : seedPeerId reg k ≠ 0)
    (heq : seedPeerId reg key = seedPeerId reg k) : key = k := by
  obtain ⟨i, hi, hpi⟩ := seedPeerId_some h
  rw [← heq] at h
  obtain ⟨j, hj, hpj⟩ := seedPeerId_some h
  obtain ⟨hli, hki⟩ := HdPeerRegistry.lookup_some hi
  obtain ⟨hlj, hkj⟩ := HdPeerRegistry.lookup_some hj
  have hij := hids.distinct j i hlj hli (by rw [hpi, hpj, heq])
  rw [← hkj, ← hki, hij]

structure Extends (reg : HdPeerRegistry) (key : Key) (reg' : HdPeerRegistry) : Prop where
  ids : PeerIds.IdsInv reg'
  kept : ∀ k, seedPeerId reg k ≠ 0 → seedPeerId reg' k = seedPeerId reg k
  known : seedPeerId reg' key ≠ 0

theorem insert_extends (hids : PeerIds.IdsInv reg) (hroom : ¬Enrolment.NoRoom reg key)
    (hfresh : PeerIds.FreshId reg (.insert key fd)) :
    Extends reg key (hdPeersInsert reg key fd) := by
  refine ⟨hids.insert hfresh, ?_, ?_⟩
  · intro k hk
    rcases HdPeerRegistry.hdPeersInsert_cases reg key fd with ⟨-, heq⟩ | ⟨i, ht, heq⟩
    · rw [heq]
    · obtain ⟨j, hj, -⟩ := seedPeerId_some hk
      have hne : k ≠ key := by
        rintro rfl
        rw [ht.1] at hj
        cases hj
      have hji : j ≠ i := by
        intro hji
        rw [hji] at hj
        exact HdPeerRegistry.freeSlot_some ht.2 (HdPeerRegistry.lookup_some hj).1
      unfold seedPeerId
      rw [heq, HdPeerRegistry.lookup_enrol_ne ht hne, hj]
      dsimp only
      rw [HdPeerRegistry.enrol_ne reg hji]
  · rcases Enrolment.room_cases reg key with ⟨i, hl⟩ | ⟨i, ht⟩ | hfull
    · rw [HdPeerRegistry.hdPeersInsert_known hl, seedPeerId_of_lookup hl]
      exact hids.nonzero i (HdPeerRegistry.lookup_some hl).1
    · rw [HdPeerRegistry.hdPeersInsert_takes ht,
        seedPeerId_of_lookup (HdPeerRegistry.lookup_enrol_self ht fd), HdPeerRegistry.enrol_self]
      exact hids.next
    · exact absurd hfull hroom

theorem setsState_extends {reg' reg'' : HdPeerRegistry} (h : Extends reg key reg')
    (hset : HdPeerRegistry.SetsState reg' reg'') : Extends reg key reg'' := by
  obtain rfl | ⟨i, state, rfl⟩ := hset
  · exact h
  have hid : ∀ j, ((reg'.setPeer i { reg'.peers i with state := state }).peers j).peerId =
      (reg'.peers j).peerId := by
    intro j
    by_cases hj : j = i <;> simp [HdPeerRegistry.setPeer, hj]
  have hlive : ∀ j, ((reg'.setPeer i { reg'.peers i with state := state }).peers j).Live ↔
      (reg'.peers j).Live := by
    intro j
    by_cases hj : j = i <;> simp [HdPeerRegistry.setPeer, HdPeer.Live, hj]
  have hsame : ∀ k, seedPeerId (reg'.setPeer i { reg'.peers i with state := state }) k =
      seedPeerId reg' k := by
    intro k
    unfold seedPeerId
    rw [HdPeerRegistry.lookup_setState]
    cases hdPeersLookup reg' k with
    | none => rfl
    | some j => exact hid j
  refine ⟨⟨?_, ?_, h.ids.next⟩, fun k hk => (hsame k).trans (h.kept k hk), ?_⟩
  · intro a b ha hb hab
    rw [hid, hid] at hab
    exact h.ids.distinct a b ((hlive a).1 ha) ((hlive b).1 hb) hab
  · intro a ha
    rw [hid]
    exact h.ids.nonzero a ((hlive a).1 ha)
  · rw [hsame]
    exact h.known

theorem auto_extends (hids : PeerIds.IdsInv reg) (hroom : ¬Enrolment.NoRoom reg key)
    (hfresh : PeerIds.FreshId reg (.insert key fd)) :
    Extends reg key (Enrolment.autoReg reg key fd) :=
  setsState_extends (insert_extends hids hroom hfresh) (HdPeerRegistry.sets_approve _ key)

end Ids

/-! ### The id tables of the workers -/

/-- The live peers have the ids of their keys, and the id table has these peers. -/
structure PeersOk (reg : HdPeerRegistry) (w : Worker) : Prop where
  table : TableOk w
  ids : ∀ q, (w.ht q).occupied = .live →
    (w.ht q).peerId ≠ 0 ∧ seedPeerId reg (w.ht q).key = (w.ht q).peerId
  found : ∀ q, (w.ht q).occupied = .live →
    ∃ m, w.peerIdMap = some m ∧ m (w.ht q).peerId = some q
  held : ∀ m i q, w.peerIdMap = some m → m i = some q →
    (w.ht q).occupied = .live ∧ (w.ht q).peerId = i

namespace PeersOk

variable {reg reg' : HdPeerRegistry} {w w' : Worker} {key : Key} {p q : Slot}

theorem congr (h : PeersOk reg w) (hht : w'.ht = w.ht) (hm : w'.peerIdMap = w.peerIdMap) :
    PeersOk reg w' where
  table := h.table.congr (fun q => by rw [hht]) (fun q => by rw [hht]) fun q => by rw [hht]
  ids := by
    rw [hht]
    exact h.ids
  found := by
    rw [hht, hm]
    exact h.found
  held := by
    rw [hht, hm]
    exact h.held

theorem mono (h : PeersOk reg w) (hreg : Extends reg key reg') : PeersOk reg' w where
  table := h.table
  ids q hl := by
    obtain ⟨hne, hid⟩ := h.ids q hl
    refine ⟨hne, ?_⟩
    rw [hreg.kept _ (by rw [hid]; exact hne), hid]
  found := h.found
  held := h.held

theorem peerById_eq (h : PeersOk reg w) (hids : PeerIds.IdsInv reg) (hid : seedPeerId reg key ≠ 0) :
    peerById w (seedPeerId reg key) = htLookup w key := by
  unfold peerById
  rw [if_pos (Nat.pos_of_ne_zero hid)]
  cases hl : htLookup w key with
  | some q =>
    obtain ⟨hlive, rfl⟩ := h.table.lookup_iff.1 hl
    obtain ⟨m, hm, hq⟩ := h.found q hlive
    rw [hm, (h.ids q hlive).2, Option.bind_some, hq]
    exact Option.filter_eq_some_iff.2 ⟨rfl, decide_eq_true hlive⟩
  | none =>
    rw [Option.filter_eq_none_iff]
    intro q hq
    obtain ⟨m, hm, hmq⟩ := Option.bind_eq_some_iff.1 hq
    obtain ⟨hlive, hpid⟩ := h.held m _ q hm hmq
    have hk : (w.ht q).key = key := by
      apply key_of_id hids hid
      rw [(h.ids q hlive).2, hpid]
    rw [h.table.lookup_iff.2 ⟨hlive, hk⟩] at hl
    cases hl

theorem added (h : PeersOk reg w) (hids : PeerIds.IdsInv reg) (hT : TableOk w') {fd : Fd} {pid : ℕ}
    (hpid : seedPeerId reg key = pid) (hne0 : pid ≠ 0) (hadd : AddedAt w p fd key .kHd pid w')
    (hp : htFind w key = some p) (hm : w'.peerIdMap.isSome = true) : PeersOk reg w' := by
  obtain ⟨isUnix, ok, ao, routes, io, heq⟩ := hadd.eq
  have hself : w'.ht p = addedPeer (w.ht p) fd key .kHd pid isUnix := by
    rw [heq]
    exact Function.update_self ..
  have hother : ∀ q, q ≠ p → w'.ht q = w.ht q := by
    intro q hq
    rw [heq]
    exact Function.update_of_ne hq ..
  have hmap : w'.peerIdMap = idsAfterAdd w ok .kHd pid p := by rw [heq]
  -- a slot that is live already is the key's own, under the same id
  have hold : (w.ht p).occupied = .live → (w.ht p).peerId = pid := by
    intro hl
    rcases LinearProbe.find_some peerView keyHash hp with hh | ⟨hdead, -⟩
    · rw [← (h.ids p hl).2, ← hpid, show (w.ht p).key = key from hh.2]
    · exact absurd hl hdead
  have hne : ∀ q, q ≠ p → (w.ht q).occupied = .live → (w.ht q).peerId ≠ pid := by
    intro q hq hl heqid
    have hk : (w.ht q).key = key := by
      apply key_of_id hids
      · rw [hpid]
        exact hne0
      · rw [(h.ids q hl).2, heqid, hpid]
    have hf : htFind w key = some q :=
      LinearProbe.find_of_holds peerView keyHash h.table.inv ⟨hl, hk⟩
    rw [hf] at hp
    exact hq (Option.some.inj hp)
  refine ⟨hT, fun q hl => ?_, fun q hl => ?_, fun m i q hm' hq => ?_⟩
  · by_cases hq : q = p
    · rw [hq, hself]
      exact ⟨hne0, hpid⟩
    · rw [hother q hq] at hl ⊢
      exact h.ids q hl
  · by_cases hq : q = p
    · obtain ⟨m, hm'⟩ := Option.isSome_iff_exists.1 hm
      refine ⟨m, hm', ?_⟩
      rw [hmap] at hm'
      rw [hq, hself]
      exact Assigned.idsAfterAdd_self (Nat.pos_of_ne_zero hne0) hm'
    · rw [hother q hq] at hl ⊢
      obtain ⟨m, hm0, hmq⟩ := h.found q hl
      rw [hmap]
      exact Assigned.idsAfterAdd_other hm0 hmq fun _ => hne q hq hl
  · rw [hmap] at hm'
    rcases Indexed.idsAfterAdd_entry hm' hq with ⟨hi, rfl, -⟩ | ⟨m0, hm0, hq0⟩
    · rw [hself]
      exact ⟨rfl, hi.symm⟩
    · obtain ⟨hl, hqi⟩ := h.held m0 i q hm0 hq0
      by_cases hqp : q = p
      · rw [hqp] at hl hqi
        rw [hqp, hself]
        exact ⟨rfl, (hold hl).symm.trans hqi⟩
      · rw [hother q hqp]
        exact ⟨hl, hqi⟩

theorem removed (h : PeersOk reg w) (hids : PeerIds.IdsInv reg) (hT : TableOk w')
    (hrem : RemovedAt w p w') (hp : (w.ht p).occupied = .live) : PeersOk reg w' := by
  obtain ⟨peerCount, routes, io, heq⟩ := hrem.eq
  have hmap : w'.peerIdMap = idsAfterRemove w p := by rw [heq]
  have hkept : ∀ q, (w'.ht q).occupied = .live → q ≠ p ∧ w'.ht q = w.ht q := by
    intro q hl
    rw [heq] at hl ⊢
    dsimp only at hl ⊢
    by_cases hq : q = p
    · rw [hq, Function.update_self] at hl
      cases hl
    · exact ⟨hq, Function.update_of_ne hq ..⟩
  have hpid : 0 < (w.ht p).peerId := Nat.pos_of_ne_zero (h.ids p hp).1
  refine ⟨hT, fun q hl => ?_, fun q hl => ?_, fun m i q hm hq => ?_⟩
  · obtain ⟨-, hq⟩ := hkept q hl
    rw [hq] at hl ⊢
    exact h.ids q hl
  · obtain ⟨hne, hq⟩ := hkept q hl
    rw [hq] at hl ⊢
    obtain ⟨m, hm, hmq⟩ := h.found q hl
    rw [hmap]
    refine Assigned.idsAfterRemove_other hm hmq fun he => hne ?_
    have hk : (w.ht q).key = (w.ht p).key := by
      apply key_of_id hids
      · rw [(h.ids p hp).2]
        exact (h.ids p hp).1
      · rw [(h.ids q hl).2, (h.ids p hp).2, he]
    exact h.table.inv.unique _ q p ⟨hl, hk⟩ ⟨hp, rfl⟩
  · rw [hmap, idsAfterRemove, if_pos hpid] at hm
    obtain ⟨m0, hm0, rfl⟩ := Option.map_eq_some_iff.1 hm
    by_cases hi : i = (w.ht p).peerId
    · rw [hi, Function.update_self] at hq
      cases hq
    · rw [Function.update_of_ne hi] at hq
      obtain ⟨hl, hid⟩ := h.held m0 i q hm0 hq
      have hqp : q ≠ p := by
        rintro rfl
        exact hi hid.symm
      have hsame : w'.ht q = w.ht q := by
        rw [heq]
        exact Function.update_of_ne hqp ..
      rw [hsame]
      exact ⟨hl, hid⟩

end PeersOk

/-! ### The invariant -/

def CmdOk (reg : HdPeerRegistry) : Cmd → Prop
  | .addPeer _ key protocol pid => protocol = .kHd ∧ pid ≠ 0 ∧ seedPeerId reg key = pid
  | .removePeer _ => True
  | _ => False

structure Inv (s : State) : Prop where
  ids : PeerIds.IdsInv s.reg
  cmds : ∀ v, ∀ c ∈ (s.ctx.workers v).cmdRing, CmdOk s.reg c
  peers : ∀ v, PeersOk s.reg (s.ctx.workers v)
  routes : ∀ d e, relayTableLookup s.table d = some e →
    e.Direct ∧ seedPeerId s.reg e.key ≠ 0 ∧ s.role e.key = d
  map : ∀ d, s.ctx.relayPeerMap d =
    match relayTableLookup s.table d with
    | none => 0
    | some e => seedPeerId s.reg e.key

variable {s s' : State}

theorem inv_init (h : Init s) : Inv s := by
  have hnone : ∀ d, relayTableLookup s.table d = none := by
    intro d
    cases hl : relayTableLookup s.table d with
    | none => rfl
    | some e =>
      obtain ⟨i, -, hi, hocc, -⟩ := RelayTable.lookup_some hl
      rw [← hi, h.table i] at hocc
      cases hocc
  refine ⟨PeerIds.inv_init h.reg, fun v c hc => ?_, fun v => ?_, fun d e he => ?_, fun d => ?_⟩
  · obtain ⟨oracle, hw⟩ := h.workers v
    rw [hw] at hc
    cases hc
  · obtain ⟨oracle, hw⟩ := h.workers v
    rw [hw]
    constructor
    · exact tableOk_empty.congr (fun _ => rfl) (fun _ => rfl) fun _ => rfl
    · exact fun q hl => LinearProbe.Occ.noConfusion hl
    · exact fun q hl => LinearProbe.Occ.noConfusion hl
    · nofun
  · rw [hnone] at he
    cases he
  · rw [hnone, h.map]

variable {reg : HdPeerRegistry} {key : Key} {ctx : Ctx} {fd : Fd} {rt : RelayTable}

theorem CmdOk.mono {reg' : HdPeerRegistry} {c : Cmd} (h : CmdOk reg c)
    (hreg : Extends reg key reg') : CmdOk reg' c := by
  cases c with
  | addPeer fd k protocol pid =>
    obtain ⟨hproto, hne, hid⟩ := h
    exact ⟨hproto, hne, (hreg.kept k (by rw [hid]; exact hne)).trans hid⟩
  | removePeer => trivial
  | write => cases h
  | setFwdRule => cases h
  | movePeerOut => cases h
  | stop => cases h

theorem enqueueCmd_ok (hcmds : ∀ v, ∀ c ∈ (ctx.workers v).cmdRing, CmdOk reg c)
    (hpeers : ∀ v, PeersOk reg (ctx.workers v)) {c : Cmd} (hc : CmdOk reg c) (u v : ℕ) :
    (∀ c' ∈ ((enqueueCmd ctx u c).workers v).cmdRing, CmdOk reg c') ∧
      PeersOk reg ((enqueueCmd ctx u c).workers v) := by
  obtain ⟨more, hmore, hcases⟩ := enqueueCmd_worker ctx u c v
  rw [hmore]
  constructor
  · intro c' hc'
    rcases List.mem_append.1 hc' with hc' | hc'
    · exact hcmds v c' hc'
    · rcases hcases with rfl | ⟨-, rfl⟩
      · cases hc'
      · rw [List.mem_singleton.1 hc']
        exact hc
  · exact (hpeers v).congr rfl rfl

/-- A key has come as `relayId`. -/
structure Joins (s : State) (key : Key) (fd : Fd) (relayId : ℕ) (s' : State) : Prop where
  reg : Extends s.reg key s'.reg
  workers : s'.ctx.workers = (dpAddPeer s.ctx fd key .kHd (seedPeerId s'.reg key)).workers
  table : s'.table = relayTableAdd s.table relayId fd key
  map : s'.ctx.relayPeerMap = if relayId = 0 then s.ctx.relayPeerMap
    else Function.update s.ctx.relayPeerMap relayId (seedPeerId s'.reg key)
  role : s'.role = Function.update s.role key relayId

theorem enrol_joins (h : Inv s) {relayId : ℕ} (hok : JoinOk s key fd relayId) :
    Joins s key fd relayId (s.enrol key fd relayId) := by
  have hext := auto_extends h.ids hok.known hok.fresh
  unfold State.enrol
  dsimp only
  generalize Enrolment.autoReg s.reg key fd = reg at hext ⊢
  obtain ⟨i, hi, hpid⟩ := seedPeerId_some hext.known
  by_cases hrelay : 0 < relayId
  · rw [if_pos hrelay]
    refine ⟨hext, ?_, rfl, ?_, rfl⟩
    · dsimp only
      rw [hi]
      rfl
    · dsimp only
      rw [hi, if_neg (by omega)]
      dsimp only
      rw [hpid]
      rfl
  · have hzero : relayId = 0 := by omega
    rw [if_neg hrelay]
    refine ⟨hext, rfl, ?_, ?_, rfl⟩
    · rw [hzero, relayTableAdd, if_pos rfl]
    · rw [if_pos hzero]
      rfl

theorem seed_joins (h : Inv s) {idx : ℕ} (hid : seedRelayId s.ctx.relayId idx ≠ 0)
    (hok : JoinOk s key fd (seedRelayId s.ctx.relayId idx)) :
    Joins s key fd (seedRelayId s.ctx.relayId idx) (s.seed key fd idx) := by
  have hext := insert_extends h.ids hok.known hok.fresh
  unfold State.seed
  dsimp only
  generalize hdPeersInsert s.reg key fd = reg at hext ⊢
  refine ⟨hext, ?_, rfl, ?_, rfl⟩
  · dsimp only
    rw [if_pos (Nat.pos_of_ne_zero hext.known)]
    rfl
  · dsimp only
    rw [if_pos (Nat.pos_of_ne_zero hext.known), if_neg hid]
    rfl

theorem add_lookup {id : ℕ}
    (hroom : 0 < id → rt.byId id ≠ none ∨ (rt.find fun e => !e.occupied) ≠ none) (fd : Fd)
    (key : Key) (d : ℕ) :
    relayTableLookup (relayTableAdd rt id fd key) d =
      if d = id ∧ id ≠ 0 then some ⟨id, fd, key, 1, id, true⟩ else relayTableLookup rt d := by
  by_cases hid : id = 0
  · rw [relayTableAdd, if_pos hid, if_neg fun hd => hd.2 hid]
  · obtain ⟨i, hi⟩ := RelayTable.add_puts hid (hroom (by omega)) fd key
    rw [hi.lookup]
    simp [hid]

theorem Inv.joins (h : Inv s) {relayId : ℕ} (hok : JoinOk s key fd relayId)
    (hj : Joins s key fd relayId s') : Inv s' := by
  have hworkers := enqueueCmd_ok (fun v c hc => (h.cmds v c hc).mono hj.reg)
    (fun v => (h.peers v).mono hj.reg) (c := .addPeer fd key .kHd (seedPeerId s'.reg key))
    ⟨rfl, hj.reg.known, rfl⟩ (peerWorker s.ctx.numWorkers key)
  have hlookup := add_lookup hok.room fd key
  have hkey : ∀ d e, relayTableLookup s.table d = some e → d ≠ relayId → e.key ≠ key :=
    fun d e he hd hk => hd (hok.only d e he hk)
  refine ⟨hj.reg.ids, fun v c hc => ?_, fun v => ?_, fun d e he => ?_, fun d => ?_⟩
  · rw [hj.workers] at hc
    exact (hworkers v).1 c hc
  · rw [hj.workers]
    exact (hworkers v).2
  · rw [hj.table, hlookup] at he
    split at he
    · next hd =>
      rw [← Option.some.inj he, hj.role]
      refine ⟨⟨rfl, rfl, rfl⟩, hj.reg.known, ?_⟩
      rw [Function.update_self, hd.1]
    · obtain ⟨hdir, hid, hrole⟩ := h.routes d e he
      refine ⟨hdir, by rw [hj.reg.kept _ hid]; exact hid, ?_⟩
      rw [hj.role]
      by_cases hk : e.key = key
      · rw [hk, Function.update_self, hok.only d e he hk]
      · rw [Function.update_of_ne hk, hrole]
  · have hold : s.ctx.relayPeerMap d = match relayTableLookup s.table d with
        | none => 0
        | some e => seedPeerId s'.reg e.key := by
      rw [h.map d]
      cases he : relayTableLookup s.table d with
      | none => rfl
      | some e => exact (hj.reg.kept _ (h.routes d e he).2.1).symm
    rw [hj.map, hj.table, hlookup]
    by_cases hzero : relayId = 0
    · rw [if_pos hzero, if_neg fun hd => hd.2 hzero]
      exact hold
    · rw [if_neg hzero]
      by_cases hd : d = relayId
      · rw [hd, Function.update_self, if_pos ⟨rfl, hzero⟩]
      · rw [Function.update_of_ne hd, if_neg fun hb => hd hb.1]
        exact hold

/-! ### The other steps -/

theorem announceRoute_noNews {e : ℕ × ℕ} (h : NoNews rt e) (src : ℕ) (fd : Fd) :
    announceRoute src fd rt e = rt := by
  unfold announceRoute
  dsimp only
  split
  · rfl
  next hself =>
  split
  · rfl
  next hhops =>
  unfold relayTableUpdateRoute
  split
  · rfl
  next hid =>
  rw [not_or] at hid
  rcases h with h | h | h | ⟨x, hx, hle⟩ | ⟨hx, hfull⟩
  · exact absurd h hid.1
  · exact absurd h hself
  · exact absurd h hhops
  · obtain ⟨i, hi, hxi, -, -⟩ := RelayTable.lookup_some hx
    rw [hi]
    dsimp only
    rw [hxi, if_neg (by omega)]
  · rw [relayTableLookup, Option.map_eq_none_iff] at hx
    rw [hx, hfull]

theorem announce_noNews {payload : Bytes}
    (h : announceSource rt fd = 0 ∨ ∀ e ∈ hdParseRouteAnnounce payload 256, NoNews rt e) :
    announce rt fd payload = rt := by
  unfold announce
  split
  · rfl
  next hsrc =>
  have hnews := h.resolve_left hsrc
  generalize hdParseRouteAnnounce payload 256 = es at hnews
  induction es with
  | nil => rfl
  | cons e es ih =>
    rw [List.foldl_cons, announceRoute_noNews (hnews e (List.mem_cons_self ..))]
    exact ih fun e' he' => hnews e' (List.mem_cons_of_mem _ he')

theorem processCmdRemove_relayPeerMap (ctx : Ctx) (v : ℕ) (key : Key) :
    (processCmdRemove ctx v key).1.relayPeerMap = ctx.relayPeerMap := by
  unfold processCmdRemove
  dsimp only
  split <;> rfl

theorem canHold_of_added {v : ℕ} (hT : TableOk (ctx.workers v))
    {protocol : PeerProtocol} {pid : ℕ} {p : Slot} (hv : validFd fd = true)
    (hadd : AddedAt (ctx.workers v) p fd key protocol pid
      ((processCmdAdd ctx v fd key protocol pid).workers v)) : CanHold (ctx.workers v) key := by
  rcases processCmdAdd_effect hT hv key protocol pid with ⟨-, ao, heq⟩ | ⟨hh, -⟩
  · obtain ⟨isUnix, ok, ao', routes, io, hrec⟩ := hadd.eq
    rw [heq, Ctx.setWorker_self] at hrec
    have hcount : (ctx.workers v).peerCount = (ctx.workers v).peerCount + 1 :=
      (congrArg Worker.peerCount hrec :)
    omega
  · exact hh

theorem add_peers (hids : PeerIds.IdsInv reg)
    (h : ∀ u, PeersOk reg (ctx.workers u)) {v : ℕ} {pid : ℕ} (hne : pid ≠ 0)
    (hid : seedPeerId reg key = pid) (hmem : (ctx.workers v).peerIdMap ≠ none ∨
      ∀ ok ∈ (ctx.workers v).allocOracle, ok = true) (u : ℕ) :
    PeersOk reg ((processCmdAdd ctx v fd key .kHd pid).workers u) := by
  have hT := (h v).table
  have hT' := loopStep_tableOk (l := .cmd v (.addPeer fd key .kHd pid))
    (fun u => (h u).table) rfl u
  simp only [processCmd] at hT'
  rcases processCmdAdd_record hT fd key .kHd pid with ⟨ao, heq⟩ | ⟨p, hv, hf, hadd, hothers⟩
  · rw [heq]
    by_cases hu : u = v
    · subst hu
      rw [Ctx.setWorker_self]
      exact (h u).congr rfl rfl
    · rw [Ctx.setWorker_ne _ _ hu]
      exact h u
  · by_cases hu : u = v
    · subst hu
      have hsome : ((processCmdAdd ctx u fd key .kHd pid).workers u).peerIdMap.isSome = true := by
        rcases hmem with hm | hmem
        · obtain ⟨isUnix, ok, ao, routes, io, heq⟩ := hadd.eq
          obtain ⟨m, hm⟩ := Option.ne_none_iff_exists'.1 hm
          rw [heq]
          dsimp only
          rw [idsAfterAdd, if_pos ⟨rfl, Nat.pos_of_ne_zero hne⟩, hm]
          rfl
        · exact processCmdAdd_ids hT hv (canHold_of_added hT hv hadd) hmem (Nat.pos_of_ne_zero hne)
      exact (h u).added hids hT' hid hne hadd hf hsome
    · obtain ⟨routes, hr⟩ := hothers u hu
      rw [hr]
      exact (h u).congr rfl rfl

theorem remove_peers (hids : PeerIds.IdsInv reg) (h : ∀ u, PeersOk reg (ctx.workers u)) (v : ℕ)
    (key : Key) (u : ℕ) :
    PeersOk reg ((processCmdRemove ctx v key).1.workers u) := by
  have hT' := loopStep_tableOk (l := .cmd v (.removePeer key)) (fun u => (h u).table) rfl u
  simp only [processCmd] at hT'
  cases hp : htLookup (ctx.workers v) key with
  | none =>
    rw [processCmdRemove_none hp]
    exact h u
  | some p =>
    obtain ⟨hrem, -, hothers⟩ := processCmdRemove_record hp
    by_cases hu : u = v
    · subst hu
      exact (h u).removed hids hT' hrem ((h u).table.lookup_iff.1 hp).1
    · obtain ⟨routes, hr⟩ := hothers u hu
      rw [hr]
      exact (h u).congr rfl rfl

theorem Inv.pop (h : Inv s) {v : ℕ} {r : Ctx × Option Fd} (hok : StepOk s (.cmd v))
    (hp : popCmd s.ctx v = some r) : Inv { s with ctx := r.1 } := by
  unfold popCmd at hp
  split at hp
  · cases hp
  next c rest hring =>
  have hc := h.cmds v c (by rw [hring]; exact List.mem_cons_self)
  generalize hctx : s.ctx.onWorker v (fun w => { w with cmdRing := rest }) = ctx at hp
  have hself : ctx.workers v = { s.ctx.workers v with cmdRing := rest } := by
    rw [← hctx, Ctx.onWorker, Ctx.setWorker_self]
  have hother : ∀ u, u ≠ v → ctx.workers u = s.ctx.workers u := by
    intro u hu
    rw [← hctx, Ctx.onWorker, Ctx.setWorker_ne _ _ hu]
  have hmap : ctx.relayPeerMap = s.ctx.relayPeerMap := by
    rw [← hctx]
    rfl
  have hpeers : ∀ u, PeersOk s.reg (ctx.workers u) := by
    intro u
    by_cases hu : u = v
    · rw [hu, hself]
      exact (h.peers v).congr rfl rfl
    · rw [hother u hu]
      exact h.peers u
  have hmem : (ctx.workers v).peerIdMap ≠ none ∨
      ∀ ok ∈ (ctx.workers v).allocOracle, ok = true := by
    rw [hself]
    exact hok
  have hcmds : ∀ u, ∀ c' ∈ (ctx.workers u).cmdRing, CmdOk s.reg c' := by
    intro u c' hc'
    by_cases hu : u = v
    · rw [hu, hself] at hc'
      exact h.cmds v c' (by rw [hring]; exact List.mem_cons_of_mem _ hc')
    · rw [hother u hu] at hc'
      exact h.cmds u c' hc'
  -- a command changes the peers of the workers, and not their rings nor the map
  have hall : (∀ u, PeersOk s.reg ((processCmd ctx v c).1.workers u)) ∧
      (∀ u, ((processCmd ctx v c).1.workers u).cmdRing = (ctx.workers u).cmdRing) ∧
      (processCmd ctx v c).1.relayPeerMap = ctx.relayPeerMap := by
    cases c with
    | addPeer fd key protocol pid =>
      obtain ⟨rfl, hne, hid⟩ := hc
      exact ⟨add_peers h.ids hpeers hne hid hmem,
        (RuleStores.processCmdAdd_frame (hpeers v).table fd key .kHd pid).ring,
        processCmdAdd_relayPeerMap ctx v fd key .kHd pid⟩
    | removePeer key =>
      exact ⟨remove_peers h.ids hpeers v key, (RuleStores.processCmdRemove_frame ctx v key).ring,
        processCmdRemove_relayPeerMap ctx v key⟩
    | write => cases hc
    | setFwdRule => cases hc
    | movePeerOut => cases hc
    | stop => cases hc
  cases hp
  obtain ⟨hpeers', hring', hmap'⟩ := hall
  refine ⟨h.ids, fun u c' hc' => ?_, hpeers', h.routes, fun d => ?_⟩
  · rw [hring'] at hc'
    exact hcmds u c' hc'
  · dsimp only
    rw [hmap', hmap]
    exact h.map d

theorem inv_step (h : Inv s) {op : Op} (hok : StepOk s op) (hs : step s op = some s') : Inv s' := by
  cases op with
  | enrol key fd relayId =>
    rw [← Option.some.inj hs]
    exact h.joins hok (enrol_joins h hok)
  | seed key fd idx =>
    obtain ⟨hid, hjoin⟩ := hok
    rw [← Option.some.inj hs]
    exact h.joins hjoin (seed_joins h hid hjoin)
  | announce fd payload =>
    rw [← Option.some.inj hs, announce_noNews hok]
    exact h
  | disconnect key =>
    have hworkers := enqueueCmd_ok h.cmds h.peers (c := .removePeer key) trivial
      (peerWorker s.ctx.numWorkers key)
    rw [← Option.some.inj hs]
    have hmap : (dpRemovePeer s.ctx key).relayPeerMap = s.ctx.relayPeerMap := rfl
    refine ⟨h.ids, fun v => (hworkers v).1, fun v => (hworkers v).2, h.routes, fun d => ?_⟩
    dsimp only
    rw [hmap]
    exact h.map d
  | cmd v =>
    obtain ⟨r, hr, rfl⟩ := Option.map_eq_some_iff.1 hs
    exact h.pop hok hr

/-! ### Map and table -/

theorem Inv.neighbour (h : Inv s) (d : ℕ) : s.neighbour d = relayTableLookup s.table d := by
  unfold State.neighbour
  cases he : relayTableLookup s.table d with
  | none => rfl
  | some e =>
    obtain ⟨hdir, -, -⟩ := h.routes d e he
    obtain ⟨-, -, -, -, hid⟩ := RelayTable.lookup_some he
    rw [Option.bind_some, hdir.2.2, hid, he]
    exact Option.filter_eq_some_iff.2 ⟨rfl, decide_eq_true hdir⟩

theorem dispatchFleetData_relay {payload : Bytes} (hlen : kHdFleetDstSize ≤ payload.length)
    (hown : hdReadFleetRelay payload ≠ ctx.relayId) (hzero : hdReadFleetRelay payload ≠ 0) (v : ℕ)
    (p : Slot) (frame : Bytes) :
    dispatchFleetData ctx v p frame payload =
      match peerById (ctx.workers v) (ctx.relayPeerMap (hdReadFleetRelay payload)) with
      | none => ctx
      | some q => ctx.setWorker v (fleetEnqueue (ctx.workers v) q frame) := by
  have hfits : ¬payload.length < kHdFleetDstSize := by omega
  have hother := not_or.2 ⟨hown, hzero⟩
  cases h : peerById (ctx.workers v) (ctx.relayPeerMap (hdReadFleetRelay payload)) with
  | none => simp only [dispatchFleetData, if_neg hfits, if_neg hother, h]
  | some q => simp only [dispatchFleetData, if_neg hfits, if_neg hother, h]

theorem Inv.follows (h : Inv s) : s.Follows := by
  constructor
  · intro d _
    rw [h.neighbour, h.map]
  · intro v p frame payload hlen hown hzero
    rw [dispatchFleetData_relay hlen hown hzero, h.map]
    unfold State.nextPeer
    rw [h.neighbour]
    cases he : relayTableLookup s.table (hdReadFleetRelay payload) with
    | none => rfl
    | some e =>
      obtain ⟨-, hid, hrole⟩ := h.routes _ e he
      obtain ⟨-, -, -, -, hrelay⟩ := RelayTable.lookup_some he
      dsimp only
      rw [(h.peers v).peerById_eq h.ids hid, Option.bind_some, if_pos (hrole.trans hrelay.symm)]

theorem inv_reach (h : Runs.Reach Init step StepOk s) : Inv s :=
  h.invariant (P := Inv) (fun _ h0 => inv_init h0) fun _ _ _ hi hok hs => inv_step hi hok hs

/-- In every state of a run without such steps the map follows the table. -/
theorem relay_map_follows (h : Runs.Reach Init step StepOk s) : s.Follows :=
  (inv_reach h).follows

/-! ### A relay behind a neighbour -/

def start : State :=
  ⟨{}, { selfId := 1 }, { workers := fun _ => {}, numWorkers := 1, relayId := 1 }, fun _ => 0⟩

theorem start_init : Init start :=
  ⟨⟨fun _ => HdPeerRegistry.not_live_empty _, rfl⟩, fun _ => rfl, fun _ => ⟨[], rfl⟩, rfl⟩

def announced : List Op :=
  [.enrol (byteKey 5) 7 5, .cmd 0, .announce 7 (routeEntry (9, 1))]

theorem announced_route_not_in_map :
    ¬∀ s, Runs.Reach Init step Runs.Any s → s.Settled → s.Follows := by
  intro hall
  have hrun : (Runs.run step start announced).map (fun s =>
      ((s.ctx.numWorkers, (s.ctx.workers 0).cmdRing.length), s.ctx.relayId, s.ctx.relayPeerMap 9,
        (s.neighbour 9).map fun n => seedPeerId s.reg n.key)) =
      some ((1, 0), 1, 0, some 1) := by
    decide +kernel
  obtain ⟨s, hs, hval⟩ := Option.map_eq_some_iff.1 hrun
  rw [Prod.mk.injEq, Prod.mk.injEq, Prod.mk.injEq, Prod.mk.injEq] at hval
  obtain ⟨⟨hnum, hring⟩, hown, hmap, hnext⟩ := hval
  have hsettled : s.Settled := by
    intro v hv
    have hzero : v = 0 := by omega
    rw [hzero]
    exact List.length_eq_zero_iff.1 hring
  have hf := (hall s (Runs.reach_of_run start_init hs) hsettled).map 9 (by omega)
  obtain ⟨n, hn, hpid⟩ := Option.map_eq_some_iff.1 hnext
  rw [hn, hmap] at hf
  dsimp only at hf
  omega

theorem start_joinOk (key : Key) (fd : Fd) (relayId : ℕ) : JoinOk start key fd relayId := by
  have htake : HdPeerRegistry.Takes start.reg key 0 := HdPeerRegistry.takes_empty _ key
  have hnone : ∀ d, relayTableLookup start.table d = none := by
    intro d
    cases hl : relayTableLookup start.table d with
    | none => rfl
    | some e =>
      obtain ⟨i, -, hi, hocc, -⟩ := RelayTable.lookup_some hl
      rw [← hi] at hocc
      cases hocc
  have hfree : (start.table.find fun e => !e.occupied) ≠ none := by decide +kernel
  refine ⟨fun hfull => ?_, fun i _ j hj => ?_, fun d e he => ?_, fun _ => .inr hfree⟩
  · have hslot := htake.2
    rw [hfull.2] at hslot
    cases hslot
  · exact absurd hj (HdPeerRegistry.not_live_empty j)
  · rw [hnone] at he
    cases he

/-! Two relays enrol. -/

theorem first_free (i : HdSlot) (hi : i ≠ 0) :
    ¬((Enrolment.autoReg start.reg (byteKey 5) 7).peers i).Live := by
  have htake : HdPeerRegistry.Takes start.reg (byteKey 5) 0 := HdPeerRegistry.takes_empty _ _
  rw [Enrolment.autoReg_new htake]
  unfold HdPeerRegistry.setPeer
  dsimp only
  rw [Function.update_of_ne hi, HdPeerRegistry.enrol_ne _ hi]
  exact HdPeerRegistry.not_live_empty i

theorem second_joinOk {s : State} (h : Inv s)
    (hreg : s.reg = Enrolment.autoReg start.reg (byteKey 5) 7)
    (hrole : s.role (byteKey 6) = 0) (hnone : relayTableLookup s.table 0 = none)
    (hfree : (s.table.find fun e => !e.occupied) ≠ none) :
    JoinOk s (byteKey 6) 8 6 := by
  have hroom : (Enrolment.autoReg start.reg (byteKey 5) 7).freeSlot ≠ none := by decide +kernel
  have hids : ((Enrolment.autoReg start.reg (byteKey 5) 7).peers 0).peerId = 1 ∧
      (Enrolment.autoReg start.reg (byteKey 5) 7).nextPeerId = 2 := by decide +kernel
  refine ⟨fun hfull => ?_, fun i _ j hj => ?_, fun d e he hkey => ?_, fun _ => .inr hfree⟩
  · exact hroom (hreg ▸ hfull.2)
  · rw [hreg] at hj ⊢
    by_cases hzero : j = 0
    · rw [hzero, hids.1, hids.2]
      decide
    · exact absurd hj (first_free j hzero)
  · -- the key has come as no relay yet, and no route leads to relay 0
    have hd := (h.routes d e he).2.2
    rw [hkey, hrole] at hd
    rw [← hd, hnone] at he
    cases he

def isQuiet (s : State) : Op → Bool
  | .cmd v => (s.ctx.workers v).allocOracle.isEmpty
  | .disconnect _ => true
  | _ => false

theorem reach_quiet {s : State} (h : Runs.Reach (fun s => Runs.Reach Init step StepOk s) step
    (fun s op => isQuiet s op = true) s) : Runs.Reach Init step StepOk s := by
  induction h with
  | start s h => exact h
  | next s s' op _ hquiet hs ih =>
    refine .next s s' op ih ?_ hs
    cases op with
    | cmd v =>
      rw [isQuiet, List.isEmpty_iff] at hquiet
      right
      rw [hquiet]
      nofun
    | disconnect key => trivial
    | enrol | seed | announce => cases hquiet

theorem enrol_kept (s : State) (key : Key) (fd : Fd) (relayId : ℕ) :
    (s.enrol key fd relayId).reg = Enrolment.autoReg s.reg key fd ∧
      (s.enrol key fd relayId).role = Function.update s.role key relayId := by
  unfold State.enrol
  dsimp only
  generalize Enrolment.autoReg s.reg key fd = reg
  split <;> exact ⟨rfl, rfl⟩

theorem first_reach : Runs.Reach Init step StepOk (start.enrol (byteKey 5) 7 5) :=
  .next start _ (.enrol (byteKey 5) 7 5) (.start _ start_init) (start_joinOk _ _ _) rfl

theorem second_reach : Runs.Reach Init step StepOk
    ((start.enrol (byteKey 5) 7 5).enrol (byteKey 6) 8 6) := by
  refine .next _ _ (.enrol (byteKey 6) 8 6) first_reach ?_ rfl
  have htable : (relayTableLookup (start.enrol (byteKey 5) 7 5).table 0).isNone = true ∧
      ((start.enrol (byteKey 5) 7 5).table.find fun e => !e.occupied) ≠ none := by
    decide +kernel
  apply second_joinOk (inv_reach first_reach) (enrol_kept ..).1
  · rw [(enrol_kept ..).2]
    exact Function.update_of_ne (by decide) ..
  · exact Option.isNone_iff_eq_none.1 htable.1
  · exact htable.2

/-- The worker takes both in, and the first one disconnects; the map still has both. -/
theorem relay_map_follows_two : ∃ s : State, s.Follows ∧
    (s.ctx.relayPeerMap 5, s.ctx.relayPeerMap 6) = (1, 2) ∧
      ((s.nextPeer 0 5).isSome, (s.nextPeer 0 6).isSome) = (false, true) := by
  have hrun : (Runs.run (Runs.guarded step fun s op => isQuiet s op = true)
      ((start.enrol (byteKey 5) 7 5).enrol (byteKey 6) 8 6)
      [.cmd 0, .cmd 0, .disconnect (byteKey 5), .cmd 0]).map (fun s =>
      ((s.ctx.relayPeerMap 5, s.ctx.relayPeerMap 6),
        ((s.nextPeer 0 5).isSome, (s.nextPeer 0 6).isSome))) = some ((1, 2), (false, true)) := by
    decide +kernel
  obtain ⟨s, hs, hval⟩ := Option.map_eq_some_iff.1 hrun
  obtain ⟨hmap, hpeer⟩ := Prod.mk.inj hval
  have hreach := reach_quiet (Runs.reach_of_guarded (.start _ second_reach) hs)
  exact ⟨s, relay_map_follows hreach, hmap, hpeer⟩

end RelayMap

end HyperDerp
