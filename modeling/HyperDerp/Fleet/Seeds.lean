import HyperDerp.DataPlane.CrossShard
import HyperDerp.HdPeers.Registry
import HyperDerp.Routes.Table

/-!
# Seed relays (`server.cc:1029-1146`)

At startup a thread connects to the configured seed relays one after the other.
It enters each connection in four places: the peer registry, the worker of the
key, the relay table and `relay_peer_map`. The key is the server's own, the same
for all seeds, and the relay id is guessed from the position in the list.
-/

namespace HyperDerp

structure SeedSys where
  reg : HdPeerRegistry
  ctx : Ctx
  table : RelayTable
  /-- the fd of each seed still to come, `none` for one that does not enrol -/
  todo : List (Option Fd)
  idx : ℕ := 0
  /-- fd and relay id of the seeds so far -/
  registered : List (Fd × ℕ) := []

/-- The guess at the relay id of the `idx`-th seed, a `uint16_t`. -/
def seedRelayId (own idx : ℕ) : ℕ :=
  let id := (idx + 1) % 2 ^ 16
  if id = own then (id + 1) % 2 ^ 16 else id

/-- The id of the entry that `HdPeersInsert` returned, 0 without one. -/
def seedPeerId (reg : HdPeerRegistry) (key : Key) : ℕ :=
  match hdPeersLookup reg key with
  | some i => (reg.peers i).peerId
  | none => 0

def seedTurn (own : ℕ) (key : Key) (s : SeedSys) : Option SeedSys :=
  match s.todo with
  | [] => none
  | none :: rest => some { s with todo := rest, idx := s.idx + 1 }
  | some fd :: rest =>
    let reg := hdPeersInsert s.reg key fd
    let pid := seedPeerId reg key
    let ctx := dpAddPeer s.ctx fd key .kHd pid
    let id := seedRelayId own (s.idx + 1)
    some {
      reg := reg
      ctx :=
        if 0 < pid then { ctx with relayPeerMap := Function.update ctx.relayPeerMap id pid }
        else ctx
      table := relayTableAdd s.table id fd key
      todo := rest
      idx := s.idx + 1
      registered := s.registered ++ [(fd, id)] }

inductive SeedStep where
  | seed
  | cmd (v : ℕ)

/-- The thread takes its next seed, or a worker its next command. -/
def seedStep (own : ℕ) (key : Key) (s : SeedSys) : SeedStep → Option SeedSys
  | .seed => seedTurn own key s
  | .cmd v => (popCmd s.ctx v).map fun r => { s with ctx := r.1 }

/-- The thread starts: every seed will enrol, on a descriptor of its own, nobody else has the
server's key, and there is room for one more peer and relay. -/
structure SeedStart (key : Key) (fds : List Fd) (s : SeedSys) : Prop where
  todo : s.todo = fds.map some
  idx : s.idx = 0
  registered : s.registered = []
  nodup : fds.Nodup
  valid : ∀ fd ∈ fds, validFd fd = true
  free : ∀ v q, ((s.ctx.workers v).ht q).occupied = .live → ((s.ctx.workers v).ht q).fd ∉ fds
  rings : ∀ v, (s.ctx.workers v).cmdRing = []
  tables : ∀ v, TableOk (s.ctx.workers v)
  unknown : hdPeersLookup s.reg key = none
  slot : s.reg.freeSlot.isSome = true
  nextPeerId : 0 < s.reg.nextPeerId
  room : CanHold (s.ctx.workers (peerWorker s.ctx.numWorkers key)) key
  memory : ∀ ok ∈ (s.ctx.workers (peerWorker s.ctx.numWorkers key)).allocOracle, ok = true
  relays : (s.table.find fun e => !e.occupied).isSome = true

/-- The thread is done and the workers have processed its commands. -/
def SeedSys.Done (s : SeedSys) : Prop := s.todo = [] ∧ ∀ v, (s.ctx.workers v).cmdRing = []

/-- The seeds have different ids, and each connection is a live peer that `relay_peer_map` leads to. -/
structure SeedsUsable (own : ℕ) (s : SeedSys) : Prop where
  distinct : (s.registered.map Prod.snd).Nodup
  other : ∀ r ∈ s.registered, r.2 ≠ own
  entry : ∀ r ∈ s.registered, ∃ e, relayTableLookup s.table r.2 = some e ∧ e.fd = r.1
  peer : ∀ r ∈ s.registered, ∃ v q, ((s.ctx.workers v).ht q).occupied = .live ∧
    ((s.ctx.workers v).ht q).fd = r.1 ∧
    peerById (s.ctx.workers v) (s.ctx.relayPeerMap r.2) = some q

/-! ### One key, one peer -/

structure SeedInv (key : Key) (fds : List Fd) (home : ℕ) (s : SeedSys) : Prop where
  worker : peerWorker s.ctx.numWorkers key = home
  tables : ∀ v, TableOk (s.ctx.workers v)
  cmds : ∀ v, ∀ c ∈ (s.ctx.workers v).cmdRing,
    v = home ∧ ∃ fd pid, c = .addPeer fd key .kHd pid
  owner : ∀ v q, ((s.ctx.workers v).ht q).occupied = .live → ((s.ctx.workers v).ht q).fd ∈ fds →
    v = home ∧ ((s.ctx.workers v).ht q).key = key
  fds : s.registered.map Prod.fst ++ s.todo.filterMap id = fds

variable {key : Key} {fds : List Fd} {s s' : SeedSys} {own home : ℕ} {fd : Fd}

theorem SeedStart.inv (h : SeedStart key fds s) :
    SeedInv key fds (peerWorker s.ctx.numWorkers key) s where
  worker := rfl
  tables := h.tables
  cmds v c hc := by
    rw [h.rings] at hc
    cases hc
  owner v q hl hfd := absurd hfd (h.free v q hl)
  fds := by
    rw [h.registered, h.todo]
    simp

theorem SeedInv.turn (h : SeedInv key fds home s) (hs : seedTurn own key s = some s') :
    SeedInv key fds home s' := by
  have hfds := h.fds
  unfold seedTurn at hs
  split at hs
  · cases hs
  · next rest htodo =>
    cases hs
    rw [htodo] at hfds
    exact ⟨h.worker, h.tables, h.cmds, h.owner, hfds⟩
  · next fd rest htodo =>
    have hw : ∀ u, ∃ more, s'.ctx.workers u =
        { s.ctx.workers u with cmdRing := (s.ctx.workers u).cmdRing ++ more } ∧
        (more = [] ∨ u = home ∧ ∃ pid, more = [.addPeer fd key .kHd pid]) := by
      intro u
      obtain ⟨more, hmore, hc⟩ := enqueueCmd_worker s.ctx (peerWorker s.ctx.numWorkers key)
        (.addPeer fd key .kHd (seedPeerId (hdPeersInsert s.reg key fd) key)) u
      refine ⟨more, ?_, hc.imp_right fun hc => ⟨hc.1.trans h.worker, _, hc.2⟩⟩
      rw [← hmore, ← Option.some.inj hs]
      dsimp only
      split <;> rfl
    have hnum : s'.ctx.numWorkers = s.ctx.numWorkers := by
      rw [← Option.some.inj hs]
      dsimp only
      split <;> rfl
    refine ⟨by rw [hnum]; exact h.worker, fun v => ?_, fun v c hc => ?_, fun v q hl hfd => ?_, ?_⟩
    · obtain ⟨more, hmore, -⟩ := hw v
      rw [hmore]
      exact (h.tables v).congr (fun _ => rfl) (fun _ => rfl) (fun _ => rfl)
    · obtain ⟨more, hmore, hcases⟩ := hw v
      rw [hmore] at hc
      rcases List.mem_append.mp hc with hc | hc
      · exact h.cmds v c hc
      · rcases hcases with rfl | ⟨hv, pid, rfl⟩
        · cases hc
        · exact ⟨hv, fd, pid, List.mem_singleton.mp hc⟩
    · obtain ⟨more, hmore, -⟩ := hw v
      rw [hmore] at hl hfd ⊢
      exact h.owner v q hl hfd
    · rw [← Option.some.inj hs]
      rw [htodo] at hfds
      simpa using hfds

theorem SeedInv.add (h : SeedInv key fds home s) (fd : Fd) (pid : ℕ) :
    SeedInv key fds home { s with ctx := processCmdAdd s.ctx home fd key .kHd pid } := by
  have hnum := processCmdAdd_numWorkers s.ctx home fd key .kHd pid
  have htables := loopStep_tableOk (l := .cmd home (.addPeer fd key .kHd pid)) h.tables rfl
  refine ⟨by rw [hnum]; exact h.worker, htables, fun v c hc => ?_, fun v q hl hfd => ?_, h.fds⟩
  · rw [processCmdAdd_cmdRing (h.tables home)] at hc
    exact h.cmds v c hc
  · rcases processCmdAdd_record (h.tables home) fd key .kHd pid with ⟨ao, heq⟩ |
      ⟨p, -, -, hadd, hothers⟩
    · rw [heq, setWorker_proj Worker.ht (by rfl)] at hl hfd ⊢
      exact h.owner v q hl hfd
    · by_cases hv : v = home
      · subst hv
        obtain ⟨isUnix, ok, ao, routes, io, heq⟩ := hadd.eq
        by_cases hq : q = p
        · refine ⟨rfl, ?_⟩
          rw [hq, heq]
          dsimp only
          rw [Function.update_self]
          rfl
        · have hht : ((processCmdAdd s.ctx v fd key .kHd pid).workers v).ht q =
              (s.ctx.workers v).ht q := by
            rw [heq]
            exact Function.update_of_ne hq _ _
          rw [hht] at hl hfd ⊢
          exact h.owner v q hl hfd
      · obtain ⟨routes, hr⟩ := hothers v hv
        rw [hr] at hl hfd ⊢
        exact h.owner v q hl hfd

theorem SeedInv.pop {v : ℕ} {r : Ctx × Option Fd} (h : SeedInv key fds home s)
    (hp : popCmd s.ctx v = some r) :
    SeedInv key fds home { s with ctx := r.1 } := by
  unfold popCmd at hp
  split at hp
  · cases hp
  · next c rest hring =>
    cases hp
    obtain ⟨rfl, fd, pid, rfl⟩ := h.cmds v c (by rw [hring]; exact List.mem_cons_self)
    have hht : ∀ u, ((s.ctx.setWorker v { s.ctx.workers v with cmdRing := rest }).workers u).ht =
        (s.ctx.workers u).ht := setWorker_proj Worker.ht rfl
    have hpopped : SeedInv key fds v { s with
        ctx := s.ctx.onWorker v fun w => { w with cmdRing := rest } } := by
      refine ⟨h.worker, fun u => ?_, fun u c hc => ?_, fun u q => ?_, h.fds⟩
      · exact (h.tables u).congr (fun q => by rw [Ctx.onWorker, hht])
          (fun q => by rw [Ctx.onWorker, hht]) (fun q => by rw [Ctx.onWorker, hht])
      · by_cases hu : u = v
        · subst hu
          rw [Ctx.onWorker, Ctx.setWorker_self] at hc
          exact h.cmds u c (by rw [hring]; exact List.mem_cons_of_mem _ hc)
        · rw [Ctx.onWorker, Ctx.setWorker_ne _ _ hu] at hc
          exact h.cmds u c hc
      · rw [Ctx.onWorker, hht]
        exact h.owner u q
    exact hpopped.add fd pid

theorem seedStep_inv {l : SeedStep} (h : SeedInv key fds home s)
    (hs : seedStep own key s l = some s') :
    SeedInv key fds home s' := by
  cases l with
  | seed => exact h.turn hs
  | cmd v =>
    obtain ⟨r, hr, rfl⟩ := Option.map_eq_some_iff.mp hs
    exact h.pop hr

theorem SeedInv.few (h : SeedInv key fds home s) (hnd : fds.Nodup) (hdone : s.Done)
    (hok : SeedsUsable own s) :
    fds.length ≤ 1 := by
  have hregs := h.fds
  rw [hdone.1, List.filterMap_nil, List.append_nil] at hregs
  have hone : ∀ a ∈ fds, ∀ b ∈ fds, a = b := by
    intro a ha b hb
    have hpeer : ∀ fd ∈ fds, ∃ q, ((s.ctx.workers home).ht q).occupied = .live ∧
        ((s.ctx.workers home).ht q).fd = fd ∧ ((s.ctx.workers home).ht q).key = key := by
      intro fd hfd
      have hmem := hfd
      rw [← hregs] at hmem
      obtain ⟨r, hr, rfl⟩ := List.mem_map.mp hmem
      obtain ⟨v, q, hl, hq, -⟩ := hok.peer r hr
      obtain ⟨rfl, hk⟩ := h.owner v q hl (by rw [hq]; exact hfd)
      exact ⟨q, hl, hq, hk⟩
    obtain ⟨p, hpl, rfl, hpk⟩ := hpeer a ha
    obtain ⟨q, hql, rfl, hqk⟩ := hpeer b hb
    -- one slot holds the key
    rw [(h.tables home).inv.unique key p q ⟨hpl, hpk⟩ ⟨hql, hqk⟩]
  cases fds with
  | nil => exact Nat.zero_le 1
  | cons a rest =>
    cases rest with
    | nil => exact Nat.le_refl 1
    | cons b rest =>
      have hab := hone a List.mem_cons_self b (List.mem_cons_of_mem _ List.mem_cons_self)
      rw [hab] at hnd
      exact absurd List.mem_cons_self (List.nodup_cons.mp hnd).1

/-! ### One seed -/

theorem setPeerId_isSome {w : Worker} (hmem : ∀ ok ∈ w.allocOracle, ok = true) {id : ℕ}
    (hpos : 0 < id) (p : Slot) : (setPeerId w .kHd id p).peerIdMap.isSome = true := by
  obtain ⟨hok, -⟩ := alloc_of_memory hmem
  unfold setPeerId
  rw [if_pos ⟨rfl, hpos⟩]
  split
  · rfl
  · rcases hal : w.alloc with ⟨ok, w1⟩
    rw [hal] at hok
    dsimp only at hok
    subst hok
    rfl

theorem htInsert_memory {w : Worker} (hmem : ∀ ok ∈ w.allocOracle, ok = true) (fd : Fd)
    (key : Key) : ∀ ok ∈ (htInsert w fd key).2.allocOracle, ok = true := by
  obtain ⟨-, hmem1⟩ := alloc_of_memory hmem
  rcases htInsert_cases w fd key with ⟨-, heq⟩ | ⟨a, w1, -, -, hal, heq⟩ | ⟨a, w1, -, -, hw, heq⟩
  · rw [heq]
    exact hmem
  · have hw1 : w.alloc.2 = w1 := by rw [hal]
    rw [heq, ← hw1]
    exact hmem1
  · rw [heq]
    rcases hw with rfl | hal
    · exact hmem
    · have hw1 : w.alloc.2 = w1 := by rw [hal]
      rw [hw1] at hmem1
      exact hmem1

theorem registerPeer_isSome {w : Worker} (hmem : ∀ ok ∈ w.allocOracle, ok = true) {id : ℕ}
    (hpos : 0 < id) (p : Slot) (fd : Fd) (isUnix : Bool) :
    (registerPeer w p fd .kHd id isUnix).peerIdMap.isSome = true := by
  unfold registerPeer
  apply setPeerId_isSome _ hpos
  exact hmem

theorem processCmdAdd_ids {ctx : Ctx} {pid : ℕ} (hT : TableOk (ctx.workers home))
    (hv : validFd fd = true) (hroom : CanHold (ctx.workers home) key)
    (hmem : ∀ ok ∈ (ctx.workers home).allocOracle, ok = true) (hpos : 0 < pid) :
    ((processCmdAdd ctx home fd key .kHd pid).workers home).peerIdMap.isSome = true := by
  obtain ⟨p, hp⟩ := htInsert_holds hT hroom fd
  obtain ⟨io, hw⟩ := processCmdAdd_workers .kHd pid hv hp home
  rw [hw, if_pos rfl]
  exact registerPeer_isSome (htInsert_memory hmem fd key) hpos p fd _

theorem processCmdAdd_byId {ctx : Ctx} {pid : ℕ} (hT : TableOk (ctx.workers home))
    (hv : validFd fd = true) (hroom : CanHold (ctx.workers home) key)
    (hmem : ∀ ok ∈ (ctx.workers home).allocOracle, ok = true) (hpos : 0 < pid) :
    ∃ q, (((processCmdAdd ctx home fd key .kHd pid).workers home).ht q).occupied = .live ∧
      (((processCmdAdd ctx home fd key .kHd pid).workers home).ht q).fd = fd ∧
      peerById ((processCmdAdd ctx home fd key .kHd pid).workers home) pid = some q := by
  have hids := processCmdAdd_ids hT hv hroom hmem hpos
  rcases processCmdAdd_effect hT hv key .kHd pid with ⟨hno, -⟩ | ⟨-, p, -, hadd⟩
  · exact absurd hroom hno
  · generalize (processCmdAdd ctx home fd key .kHd pid).workers home = w' at hids hadd ⊢
    obtain ⟨isUnix, ok, ao, routes, io, heq⟩ := hadd.eq
    have hself : w'.ht p = addedPeer ((ctx.workers home).ht p) fd key .kHd pid isUnix := by
      rw [heq]
      exact Function.update_self ..
    obtain ⟨m, hm⟩ := Option.isSome_iff_exists.mp hids
    have hmp : m pid = some p := by
      rw [heq] at hm
      exact Assigned.idsAfterAdd_self hpos hm
    refine ⟨p, by rw [hself]; rfl, by rw [hself]; rfl, ?_⟩
    rw [peerById, if_pos hpos, hm, Option.bind_some, hmp]
    exact Option.filter_eq_some_iff.mpr ⟨rfl, by rw [hself]; rfl⟩

theorem processCmdAdd_relayPeerMap (ctx : Ctx) (wid : ℕ) (fd : Fd) (key : Key)
    (proto : PeerProtocol) (peerId : ℕ) :
    (processCmdAdd ctx wid fd key proto peerId).relayPeerMap = ctx.relayPeerMap := by
  unfold processCmdAdd
  dsimp only
  split
  · rfl
  · split <;> rfl

structure OneTurn (own : ℕ) (key : Key) (fd : Fd) (s0 s : SeedSys) : Prop where
  todo : s.todo = []
  registered : s.registered = [(fd, seedRelayId own 1)]
  table : s.table = relayTableAdd s0.table (seedRelayId own 1) fd key
  num : s.ctx.numWorkers = s0.ctx.numWorkers
  relayPeerMap : s.ctx.relayPeerMap (seedRelayId own 1) = s0.reg.nextPeerId
  worker : ∀ u, s.ctx.workers u = { s0.ctx.workers u with
    cmdRing := if u = peerWorker s0.ctx.numWorkers key then
      [.addPeer fd key .kHd s0.reg.nextPeerId] else [] }

theorem seedPeerId_of_lookup {reg : HdPeerRegistry} {i : HdSlot}
    (h : hdPeersLookup reg key = some i) : seedPeerId reg key = (reg.peers i).peerId := by
  unfold seedPeerId
  rw [h]

theorem SeedStart.turn {s0 : SeedSys} (h : SeedStart key [fd] s0)
    (hs : seedTurn own key s0 = some s) : OneTurn own key fd s0 s := by
  obtain ⟨i, hi⟩ := Option.isSome_iff_exists.mp h.slot
  have hpid : seedPeerId (hdPeersInsert s0.reg key fd) key = s0.reg.nextPeerId := by
    have ht : s0.reg.Takes key i := ⟨h.unknown, hi⟩
    have hself := congrArg HdPeer.peerId (s0.reg.enrol_self i key fd)
    rw [HdPeerRegistry.hdPeersInsert_takes ht,
      seedPeerId_of_lookup (HdPeerRegistry.lookup_enrol_self ht fd)]
    exact hself
  have hring : ∀ u, (dpAddPeer s0.ctx fd key .kHd s0.reg.nextPeerId).workers u =
      { s0.ctx.workers u with cmdRing := if u = peerWorker s0.ctx.numWorkers key then
        [.addPeer fd key .kHd s0.reg.nextPeerId] else [] } := by
    intro u
    have hroom : (s0.ctx.workers (peerWorker s0.ctx.numWorkers key)).cmdRing.length + 1 ≠
        kCmdRingSize := by
      rw [h.rings]
      decide
    rw [dpAddPeer, enqueueCmd_room hroom, h.rings, List.nil_append]
    by_cases hhome : u = peerWorker s0.ctx.numWorkers key
    · subst hhome
      rw [Ctx.setWorker_self, if_pos rfl]
    · rw [Ctx.setWorker_ne _ _ hhome, if_neg hhome, ← h.rings u]
  unfold seedTurn at hs
  rw [h.todo, h.idx] at hs
  simp only [List.map_cons, List.map_nil, hpid, if_pos h.nextPeerId, h.registered,
    zero_add, Option.some.injEq] at hs
  subst hs
  exact ⟨rfl, rfl, rfl, rfl, Function.update_self .., hring⟩

structure Known (fd : Fd) (id : ℕ) (s : SeedSys) : Prop where
  todo : s.todo = []
  registered : s.registered = [(fd, id)]
  rings : ∀ v, (s.ctx.workers v).cmdRing = []
  entry : ∃ e, relayTableLookup s.table id = some e ∧ e.fd = fd
  peer : ∃ v q, ((s.ctx.workers v).ht q).occupied = .live ∧ ((s.ctx.workers v).ht q).fd = fd ∧
    peerById (s.ctx.workers v) (s.ctx.relayPeerMap id) = some q

theorem seedRelayId_one : seedRelayId own 1 ≠ own ∧ seedRelayId own 1 ≠ 0 := by
  unfold seedRelayId
  dsimp only
  split <;> omega

theorem OneTurn.pop {s0 : SeedSys} (h : SeedStart key [fd] s0) (ht : OneTurn own key fd s0 s)
    {v : ℕ} {r : Ctx × Option Fd} (hp : popCmd s.ctx v = some r) :
    Known fd (seedRelayId own 1) { s with ctx := r.1 } := by
  have hring := congrArg Worker.cmdRing (ht.worker v)
  dsimp only at hring
  by_cases hv : v = peerWorker s0.ctx.numWorkers key
  · rw [if_pos hv] at hring
    unfold popCmd at hp
    rw [hring] at hp
    dsimp only at hp
    cases hp
    -- without its command the worker is as it was at the start
    have hw : ∀ u, ((s.ctx.onWorker v fun w => { w with cmdRing := [] }).workers u) =
        s0.ctx.workers u := by
      intro u
      have hu := ht.worker u
      by_cases huv : u = v
      · subst huv
        rw [Ctx.onWorker, Ctx.setWorker_self, hu, ← h.rings u]
      · rw [Ctx.onWorker, Ctx.setWorker_ne _ _ huv, hu, if_neg fun he => huv (he.trans hv.symm),
          ← h.rings u]
    have hmap : (s.ctx.onWorker v fun w => { w with cmdRing := [] }).relayPeerMap =
      s.ctx.relayPeerMap := rfl
    generalize (s.ctx.onWorker v fun w => { w with cmdRing := [] }) = c at hw hmap ⊢
    subst hv
    have hT : TableOk (c.workers (peerWorker s0.ctx.numWorkers key)) := by
      rw [hw]
      exact h.tables _
    have hvalid := h.valid fd List.mem_cons_self
    refine ⟨ht.todo, ht.registered, fun u => ?_, ?_, ?_⟩
    · exact (processCmdAdd_cmdRing hT fd key .kHd _ u).trans (by rw [hw, h.rings])
    · obtain ⟨i, hi⟩ := RelayTable.add_puts (@seedRelayId_one own).2
        (.inr (Option.isSome_iff_ne_none.mp h.relays)) fd key
      exact ⟨_, by rw [ht.table]; exact hi.lookup_self, rfl⟩
    · obtain ⟨q, hl, hfd, hq⟩ := processCmdAdd_byId hT hvalid (by rw [hw]; exact h.room)
        (by rw [hw]; exact h.memory) h.nextPeerId
      refine ⟨_, q, hl, hfd, ?_⟩
      dsimp only [processCmd]
      rw [processCmdAdd_relayPeerMap, hmap, ht.relayPeerMap]
      exact hq
  · rw [if_neg hv] at hring
    unfold popCmd at hp
    rw [hring] at hp
    cases hp

theorem Known.usable (h : Known fd (seedRelayId own 1) s) :
    SeedsUsable own s where
  distinct := by
    rw [h.registered]
    exact List.nodup_singleton _
  other r hr := by
    rw [h.registered, List.mem_singleton] at hr
    subst hr
    exact seedRelayId_one.1
  entry r hr := by
    rw [h.registered, List.mem_singleton] at hr
    subst hr
    exact h.entry
  peer r hr := by
    rw [h.registered, List.mem_singleton] at hr
    subst hr
    exact h.peer

inductive OneSeed (own : ℕ) (key : Key) (fd : Fd) (s : SeedSys) : Prop
  | waits (h : SeedStart key [fd] s)
  | turned (s0 : SeedSys) (h0 : SeedStart key [fd] s0) (h : OneTurn own key fd s0 s)
  | known (h : Known fd (seedRelayId own 1) s)

theorem OneSeed.step {l : SeedStep}
    (h : OneSeed own key fd s) (hs : seedStep own key s l = some s') : OneSeed own key fd s' := by
  have hidle : s.todo = [] → seedTurn own key s = none := by
    intro htodo
    unfold seedTurn
    rw [htodo]
  have hempty : ∀ v, (s.ctx.workers v).cmdRing = [] → popCmd s.ctx v = none := by
    intro v hv
    unfold popCmd
    rw [hv]
  cases l with
  | seed =>
    replace hs : seedTurn own key s = some s' := hs
    cases h with
    | waits h => exact .turned s h (h.turn hs)
    | turned s0 h0 h => rw [hidle h.todo] at hs; cases hs
    | known h => rw [hidle h.todo] at hs; cases hs
  | cmd v =>
    obtain ⟨r, hr, rfl⟩ := Option.map_eq_some_iff.mp hs
    cases h with
    | waits h => rw [hempty v (h.rings v)] at hr; cases hr
    | turned s0 h0 h => exact .known (h.pop h0 hr)
    | known h => rw [hempty v (h.rings v)] at hr; cases hr

theorem OneSeed.usable (h : OneSeed own key fd s) (hdone : s.Done) : SeedsUsable own s := by
  cases h with
  | waits h =>
    have htodo := h.todo
    rw [hdone.1] at htodo
    cases htodo
  | turned s0 h0 h =>
    have hring := congrArg Worker.cmdRing (h.worker (peerWorker s0.ctx.numWorkers key))
    dsimp only at hring
    rw [if_pos rfl, hdone.2] at hring
    cases hring
  | known h => exact h.usable

/-- All seeds end up usable exactly if there is at most one. -/
theorem seeds_usable_iff {own : ℕ} {key : Key} {fds : List Fd} {s : SeedSys}
    (h : Runs.Reach (SeedStart key fds) (seedStep own key) Runs.Any s) (hdone : s.Done) :
    SeedsUsable own s ↔ fds.length ≤ 1 := by
  obtain ⟨hnd, home, hinv⟩ : fds.Nodup ∧ ∃ home, SeedInv key fds home s := by
    apply Runs.Reach.invariant _ _ h
    · exact fun s hs => ⟨hs.nodup, _, hs.inv⟩
    · exact fun s s' l ih _ hs => ⟨ih.1, ih.2.imp fun home hi => seedStep_inv hi hs⟩
  refine ⟨hinv.few hnd hdone, fun hle => ?_⟩
  match fds, hle with
  | [], _ =>
    have hregs := hinv.fds
    rw [hdone.1, List.filterMap_nil, List.append_nil, List.map_eq_nil_iff] at hregs
    constructor <;> simp [hregs]
  | [fd], _ =>
    have hone : OneSeed own key fd s :=
      h.invariant (fun s hs => .waits hs) fun s s' l ih _ hs => ih.step hs
    exact hone.usable hdone

def beforeSeeds (fds : List Fd) : SeedSys where
  reg := {}
  ctx := twoWorkers
  table := {}
  todo := fds.map some

theorem beforeSeeds_start (hnd : fds.Nodup) (hvalid : ∀ fd ∈ fds, validFd fd = true) :
    SeedStart (byteKey 9) fds (beforeSeeds fds) where
  todo := rfl
  idx := rfl
  registered := rfl
  nodup := hnd
  valid := hvalid
  free v q hl := by cases hl
  rings _ := rfl
  tables _ := tableOk_empty
  unknown := by
    change hdPeersLookup {} (byteKey 9) = none
    decide +kernel
  slot := by
    change (HdPeerRegistry.freeSlot {}).isSome = true
    decide +kernel
  nextPeerId := Nat.one_pos
  room := by
    refine ⟨homeSlot (byteKey 9), ?_, .inr rfl⟩
    change htFind {} (byteKey 9) = some (homeSlot (byteKey 9))
    decide
  memory ok hok := by cases hok
  relays := by
    change (RelayTable.find {} fun e => !e.occupied).isSome = true
    decide +kernel

theorem beforeSeeds_inv (h0 : SeedStart (byteKey 9) fds (beforeSeeds fds)) {ls : List SeedStep}
    (h : Runs.run (seedStep 1 (byteKey 9)) (beforeSeeds fds) ls = some s) :
    SeedInv (byteKey 9) fds 0 s := by
  have hhome : peerWorker (beforeSeeds fds).ctx.numWorkers (byteKey 9) = 0 := by
    change peerWorker 2 (byteKey 9) = 0
    decide
  have hinv := h0.inv
  rw [hhome] at hinv
  have hreach : Runs.Reach (· = beforeSeeds fds) (seedStep 1 (byteKey 9)) Runs.Any s :=
    Runs.reach_of_run rfl h
  apply Runs.Reach.invariant _ _ hreach
  · rintro _ rfl
    exact hinv
  · exact fun s s' l ih _ hs => seedStep_inv ih hs

theorem beforeSeeds_done (h0 : SeedStart (byteKey 9) fds (beforeSeeds fds)) {ls : List SeedStep}
    (h : Runs.run (seedStep 1 (byteKey 9)) (beforeSeeds fds) ls = some s) (htodo : s.todo = [])
    (hring : (s.ctx.workers 0).cmdRing.length = 0) : s.Done := by
  have hinv := beforeSeeds_inv h0 h
  refine ⟨htodo, fun v => ?_⟩
  by_cases hv : v = 0
  · rw [hv]
    exact List.eq_nil_of_length_eq_zero hring
  · exact List.eq_nil_iff_forall_not_mem.mpr fun c hc => hv (hinv.cmds v c hc).1

/-- One seed of relay 1. -/
theorem one_seed_usable :
    ∃ s, Runs.run (seedStep 1 (byteKey 9)) (beforeSeeds [3]) [.seed, .cmd 0] = some s ∧
      s.Done ∧ SeedsUsable 1 s := by
  have h0 : SeedStart (byteKey 9) [3] (beforeSeeds [3]) :=
    beforeSeeds_start (by decide) (by decide)
  have hrun : (Runs.run (seedStep 1 (byteKey 9)) (beforeSeeds [3]) [.seed, .cmd 0]).map
      (fun s => (s.todo, (s.ctx.workers 0).cmdRing.length)) = some ([], 0) := by
    decide +kernel
  obtain ⟨s, hs, heq⟩ := Option.map_eq_some_iff.mp hrun
  rw [Prod.mk.injEq] at heq
  have hdone := beforeSeeds_done h0 hs heq.1 heq.2
  exact ⟨s, hs, hdone, (seeds_usable_iff (Runs.reach_of_run h0 hs) hdone).mpr (by decide)⟩

/-- Two seeds share the server's key, and one replaces the other. -/
theorem not_two_seeds_usable :
    ¬∀ (own : ℕ) (key : Key) (fds : List Fd) (s : SeedSys), 1 ≤ own →
      Runs.Reach (SeedStart key fds) (seedStep own key) Runs.Any s → s.Done →
      SeedsUsable own s := by
  intro hall
  have h0 : SeedStart (byteKey 9) [3, 4] (beforeSeeds [3, 4]) :=
    beforeSeeds_start (by decide) (by decide)
  have hrun : (Runs.run (seedStep 1 (byteKey 9)) (beforeSeeds [3, 4])
      [.seed, .seed, .cmd 0, .cmd 0]).map
      (fun s => (s.todo, (s.ctx.workers 0).cmdRing.length)) = some ([], 0) := by
    decide +kernel
  obtain ⟨s, hs, heq⟩ := Option.map_eq_some_iff.mp hrun
  rw [Prod.mk.injEq] at heq
  have hdone := beforeSeeds_done h0 hs heq.1 heq.2
  have hinv := beforeSeeds_inv h0 hs
  exact absurd (hinv.few (by decide) hdone
    (hall 1 _ _ _ (Nat.le_refl 1) (Runs.reach_of_run h0 hs) hdone)) (by decide)

end HyperDerp
