import HyperDerp.DataPlane.Indices
import HyperDerp.DataPlane.Originator
import HyperDerp.DataPlane.Placement
import HyperDerp.DataPlane.Shards

/-!
# MeshData and FleetData across workers (`data_plane.cc:1184-1296`)

Peers are spread over the workers by key, and each worker has its own id table. A
MeshData frame is looked up in the worker's own table and then in those of the
others; a FleetData frame is looked up in the worker's own table only, both when
it is for a local peer and when it goes out over a relay link.
-/

namespace HyperDerp

/-! ### Peers on their workers -/

/-- Every peer with an id is in the id table of its worker, and ids are the peer's own. -/
structure Assigned (ctx : Ctx) : Prop where
  indexed : ∀ v, Indexed (ctx.workers v)
  found : ∀ v q, ((ctx.workers v).ht q).occupied = .live → 0 < ((ctx.workers v).ht q).peerId →
    ∃ m, (ctx.workers v).peerIdMap = some m ∧ m ((ctx.workers v).ht q).peerId = some q
  unique : ∀ v v' q q', ((ctx.workers v).ht q).occupied = .live →
    ((ctx.workers v').ht q').occupied = .live →
    ((ctx.workers v).ht q).peerId = ((ctx.workers v').ht q').peerId →
    0 < ((ctx.workers v).ht q).peerId → v = v'
  shard : ∀ v q, ((ctx.workers v).ht q).occupied = .live → v < ctx.numWorkers

structure AssignOk (ctx : Ctx) (l : ℕ × Cmd) : Prop where
  fresh : freshAdd ctx l
  worker : l.1 < ctx.numWorkers
  ids : ∀ fd key protocol peerId, l.2 = .addPeer fd key protocol peerId → 0 < peerId →
    protocol = .kHd ∧
      (∀ v q, ((ctx.workers v).ht q).occupied = .live → ((ctx.workers v).ht q).peerId ≠ peerId) ∧
      ((processCmdAdd ctx l.1 fd key protocol peerId).workers l.1).peerIdMap.isSome = true

structure PeerAt (ctx : Ctx) (v : ℕ) (q : Slot) (id : ℕ) : Prop where
  live : ((ctx.workers v).ht q).occupied = .live
  peerId : ((ctx.workers v).ht q).peerId = id
  pos : 0 < id

namespace Assigned

variable {ctx ctx' : Ctx}

theorem init (h : dpInit ctx) : Assigned ctx := by
  have hdead : ∀ v q, ((ctx.workers v).ht q).occupied ≠ .live := by
    intro v q
    rw [h v]
    exact LinearProbe.Occ.noConfusion
  refine ⟨fun v => ?_, fun v q hl => absurd hl (hdead v q), fun v _ q _ hl => absurd hl (hdead v q),
    fun v q hl => absurd hl (hdead v q)⟩
  rw [h v]
  exact .init

theorem same (h : Assigned ctx) (hi : ∀ v, Indexed (ctx'.workers v))
    (ho : ∀ v q, ((ctx'.workers v).ht q).occupied = ((ctx.workers v).ht q).occupied)
    (hp : ∀ v q, ((ctx'.workers v).ht q).peerId = ((ctx.workers v).ht q).peerId)
    (hm : ∀ v, (ctx'.workers v).peerIdMap = (ctx.workers v).peerIdMap)
    (hn : ctx'.numWorkers = ctx.numWorkers) : Assigned ctx' where
  indexed := hi
  found v q hl hpos := by
    rw [ho] at hl
    rw [hp] at hpos ⊢
    rw [hm]
    exact h.found v q hl hpos
  unique v v' q q' hl hl' he hpos := by
    rw [ho] at hl hl'
    rw [hp] at he hpos
    rw [hp] at he
    exact h.unique v v' q q' hl hl' he hpos
  shard v q hl := by
    rw [ho] at hl
    rw [hn]
    exact h.shard v q hl

theorem idsAfterAdd_self {w : Worker} {ok : Bool} {id : ℕ} {p : Slot} {m : ℕ → Option Slot}
    (hpos : 0 < id) (hm : idsAfterAdd w ok .kHd id p = some m) : m id = some p := by
  rw [idsAfterAdd, if_pos ⟨rfl, hpos⟩] at hm
  split at hm
  · rw [← Option.some.inj hm, Function.update_self]
  · split at hm
    · rw [← Option.some.inj hm, Function.update_self]
    · cases hm

theorem idsAfterAdd_other {w : Worker} {ok : Bool} {protocol : PeerProtocol} {id i : ℕ}
    {p q : Slot} {m : ℕ → Option Slot} (hm : w.peerIdMap = some m) (hq : m i = some q)
    (hne : 0 < id → i ≠ id) :
    ∃ m', idsAfterAdd w ok protocol id p = some m' ∧ m' i = some q := by
  rw [idsAfterAdd, hm]
  split
  · next hid => exact ⟨_, rfl, by rw [Function.update_of_ne (hne hid.2), hq]⟩
  · exact ⟨m, rfl, hq⟩

theorem idsAfterRemove_other {w : Worker} {p q : Slot} {m : ℕ → Option Slot} {i : ℕ}
    (hm : w.peerIdMap = some m) (hq : m i = some q) (hne : i ≠ (w.ht p).peerId) :
    ∃ m', idsAfterRemove w p = some m' ∧ m' i = some q := by
  rw [idsAfterRemove, hm]
  split
  · exact ⟨_, rfl, (Function.update_of_ne hne _ _).trans hq⟩
  · exact ⟨m, rfl, hq⟩

theorem added (h : Assigned ctx) {u : ℕ} {p : Slot} {fd : Fd} {key : Key} {protocol : PeerProtocol}
    {peerId : ℕ} (hi : ∀ v, Indexed (ctx'.workers v)) (hn : ctx'.numWorkers = ctx.numWorkers)
    (hadd : AddedAt (ctx.workers u) p fd key protocol peerId (ctx'.workers u))
    (hothers : ∀ v, v ≠ u → ∃ routes, ctx'.workers v = { ctx.workers v with routes := routes })
    (hdead : ((ctx.workers u).ht p).occupied ≠ .live) (hu : u < ctx.numWorkers)
    (hids : 0 < peerId → protocol = .kHd ∧
      (∀ v q, ((ctx.workers v).ht q).occupied = .live → ((ctx.workers v).ht q).peerId ≠ peerId) ∧
      (ctx'.workers u).peerIdMap.isSome = true) : Assigned ctx' := by
  obtain ⟨isUnix, ok, ao, routes, io, heq⟩ := hadd.eq
  have hself : ((ctx'.workers u).ht p).peerId = peerId := by
    rw [heq]
    dsimp only
    rw [Function.update_self]
    rfl
  have hkeep : ∀ v q, ¬(v = u ∧ q = p) → (ctx'.workers v).ht q = (ctx.workers v).ht q := by
    intro v q hne
    by_cases hv : v = u
    · subst hv
      rw [heq]
      exact Function.update_of_ne (fun he => hne ⟨rfl, he⟩) _ _
    · obtain ⟨r, hr⟩ := hothers v hv
      rw [hr]
  have hold : ∀ v q, ((ctx.workers v).ht q).occupied = .live → ¬(v = u ∧ q = p) := by
    rintro v q hl ⟨rfl, rfl⟩
    exact hdead hl
  refine ⟨hi, fun v q hl hpos => ?_, fun v v' q q' hl hl' he hpos => ?_, fun v q hl => ?_⟩
  · by_cases hnew : v = u ∧ q = p
    · obtain ⟨rfl, rfl⟩ := hnew
      rw [hself] at hpos ⊢
      obtain ⟨rfl, -, hsome⟩ := hids hpos
      obtain ⟨m, hm⟩ := Option.isSome_iff_exists.mp hsome
      refine ⟨m, hm, ?_⟩
      rw [heq] at hm
      exact idsAfterAdd_self hpos hm
    · rw [hkeep v q hnew] at hl hpos ⊢
      obtain ⟨m, hm, hq⟩ := h.found v q hl hpos
      by_cases hv : v = u
      · subst hv
        rw [heq]
        exact idsAfterAdd_other hm hq fun hid => (hids hid).2.1 v q hl
      · obtain ⟨r, hr⟩ := hothers v hv
        rw [hr]
        exact ⟨m, hm, hq⟩
  · by_cases hnew : v = u ∧ q = p
    · by_cases hnew' : v' = u ∧ q' = p
      · exact hnew.1.trans hnew'.1.symm
      · rw [hnew.1, hnew.2, hself] at he hpos
        rw [hkeep v' q' hnew'] at hl' he
        exact absurd he.symm ((hids hpos).2.1 v' q' hl')
    · rw [hkeep v q hnew] at hl he hpos
      by_cases hnew' : v' = u ∧ q' = p
      · rw [hnew'.1, hnew'.2, hself] at he
        exact absurd he ((hids (he ▸ hpos)).2.1 v q hl)
      · rw [hkeep v' q' hnew'] at hl' he
        exact h.unique v v' q q' hl hl' he hpos
  · rw [hn]
    by_cases hnew : v = u ∧ q = p
    · rw [hnew.1]
      exact hu
    · rw [hkeep v q hnew] at hl
      exact h.shard v q hl

theorem removed (h : Assigned ctx) {u : ℕ} {p : Slot} (hi : ∀ v, Indexed (ctx'.workers v))
    (hn : ctx'.numWorkers = ctx.numWorkers) (hrem : RemovedAt (ctx.workers u) p (ctx'.workers u))
    (hothers : ∀ v, v ≠ u → ∃ routes, ctx'.workers v = { ctx.workers v with routes := routes })
    (hp : ((ctx.workers u).ht p).occupied = .live) : Assigned ctx' := by
  obtain ⟨peerCount, routes, io, heq⟩ := hrem.eq
  have hkeep : ∀ v q, ((ctx'.workers v).ht q).occupied = .live →
      ¬(v = u ∧ q = p) ∧ (ctx'.workers v).ht q = (ctx.workers v).ht q := by
    intro v q hl
    by_cases hv : v = u
    · subst hv
      by_cases hq : q = p
      · subst hq
        rw [heq] at hl
        dsimp only at hl
        rw [Function.update_self] at hl
        cases hl
      · refine ⟨fun hb => hq hb.2, ?_⟩
        rw [heq]
        exact Function.update_of_ne hq _ _
    · obtain ⟨r, hr⟩ := hothers v hv
      rw [hr]
      exact ⟨fun hb => hv hb.1, rfl⟩
  refine ⟨hi, fun v q hl hpos => ?_, fun v v' q q' hl hl' he hpos => ?_, fun v q hl => ?_⟩
  · obtain ⟨hne, hq⟩ := hkeep v q hl
    rw [hq] at hl hpos ⊢
    obtain ⟨m, hm, hmq⟩ := h.found v q hl hpos
    by_cases hv : v = u
    · subst hv
      rw [heq]
      refine idsAfterRemove_other hm hmq fun he => hne ⟨rfl, ?_⟩
      -- the id table tells two peers with one id apart
      obtain ⟨m', hm', hmp⟩ := h.found v p hp (he ▸ hpos)
      rw [hm] at hm'
      obtain rfl := Option.some.inj hm'
      rw [he, hmp] at hmq
      exact (Option.some.inj hmq).symm
    · obtain ⟨r, hr⟩ := hothers v hv
      rw [hr]
      exact ⟨m, hm, hmq⟩
  · obtain ⟨-, hq⟩ := hkeep v q hl
    obtain ⟨-, hq'⟩ := hkeep v' q' hl'
    rw [hq] at hl he hpos
    rw [hq'] at hl' he
    exact h.unique v v' q q' hl hl' he hpos
  · obtain ⟨-, hq⟩ := hkeep v q hl
    rw [hq] at hl
    rw [hn]
    exact h.shard v q hl

theorem setFwdRule_ids (ctx : Ctx) (u : ℕ) (key dstKey : Key) :
    (setFwdRule ctx u key dstKey).numWorkers = ctx.numWorkers ∧
      ∀ v, ((setFwdRule ctx u key dstKey).workers v).peerIdMap = (ctx.workers v).peerIdMap ∧
        ∀ q, (((setFwdRule ctx u key dstKey).workers v).ht q).peerId =
          ((ctx.workers v).ht q).peerId := by
  unfold setFwdRule
  dsimp only
  split
  · exact ⟨rfl, fun v => ⟨rfl, fun q => rfl⟩⟩
  · next p _ =>
    split
    · exact ⟨rfl, fun v => ⟨rfl, fun q => rfl⟩⟩
    · obtain ⟨a, b, c, d, e, heq⟩ := addRule_same (ctx.workers u) p dstKey
      refine ⟨rfl, fun v => ⟨setWorker_proj Worker.peerIdMap (by rfl) v, fun q => ?_⟩⟩
      refine setWorker_proj (fun w => (w.ht q).peerId) ?_ v
      by_cases hq : q = p
      · subst hq
        rw [Worker.setPeer_self, heq]
      · rw [Worker.setPeer_ne _ _ hq]

theorem step (h : Assigned ctx) {l : ℕ × Cmd} (hok : AssignOk ctx l)
    (hs : peerCmdStep ctx l = some ctx') : Assigned ctx' := by
  have hi := peerCmdStep_indexed h.indexed hok.fresh hs
  obtain ⟨u, c⟩ := l
  cases c with
  | write | movePeerOut | stop => cases hs
  | addPeer fd key protocol peerId =>
    cases hs
    simp only [processCmd] at hi ⊢
    have hn := processCmdAdd_numWorkers ctx u fd key protocol peerId
    rcases processCmdAdd_record (h.indexed u).toTableOk fd key protocol peerId with ⟨ao, heq⟩ |
      ⟨p, hvalid, hf, hadd, hothers⟩
    · rw [heq] at hi hn ⊢
      exact h.same hi (fun v q => setWorker_proj (fun w => (w.ht q).occupied) (by rfl) v)
        (fun v q => setWorker_proj (fun w => (w.ht q).peerId) (by rfl) v)
        (fun v => setWorker_proj Worker.peerIdMap (by rfl) v) hn
    · refine h.added hi hn hadd hothers ?_ hok.worker (hok.ids fd key protocol peerId rfl)
      rcases LinearProbe.find_some peerView keyHash hf with hh | ⟨hdead, -⟩
      · have hnone := (hok.fresh fd key protocol peerId rfl hvalid).1
        rw [(h.indexed u).lookup_iff.mpr hh] at hnone
        cases hnone
      · exact hdead
  | removePeer key =>
    cases hs
    simp only [processCmd] at hi ⊢
    cases hp : htLookup (ctx.workers u) key with
    | none =>
      rw [processCmdRemove_none hp]
      exact h
    | some p =>
      obtain ⟨hrem, -, hothers⟩ := processCmdRemove_record hp
      refine h.removed hi ?_ hrem hothers ((h.indexed u).lookup_iff.mp hp).1
      simp only [processCmdRemove, hp]
      rfl
  | setFwdRule key dstKey =>
    cases hs
    simp only [processCmd] at hi ⊢
    obtain ⟨hn, hsame⟩ := setFwdRule_ids ctx u key dstKey
    exact h.same hi (Shards.setFwdRule_same ctx u key dstKey).occ (fun v => (hsame v).2)
      (fun v => (hsame v).1) hn

end Assigned

/-! ### Lookups by peer id -/

section Lookups

variable {ctx : Ctx} {wid v id : ℕ} {q : Slot}

theorem PeerAt.entry (h : Assigned ctx) (hq : PeerAt ctx v q id) :
    ∃ m, (ctx.workers v).peerIdMap = some m ∧ m id = some q := by
  have hf := h.found v q hq.live (by rw [hq.peerId]; exact hq.pos)
  rwa [hq.peerId] at hf

theorem PeerAt.of_entry (h : Assigned ctx) {m : ℕ → Option Slot}
    (hm : (ctx.workers v).peerIdMap = some m) (hq : m id = some q) : PeerAt ctx v q id :=
  have hids := (h.indexed v).ids m id q hm hq
  ⟨hids.1, hids.2, (h.indexed v).pos m id q hm hq⟩

theorem PeerAt.worker_eq (h : Assigned ctx) {v' : ℕ} {q' : Slot} (hq : PeerAt ctx v q id)
    (hq' : PeerAt ctx v' q' id) : v = v' :=
  h.unique v v' q q' hq.live hq'.live (hq.peerId.trans hq'.peerId.symm)
    (by rw [hq.peerId]; exact hq.pos)

theorem peerById_eq_some_iff (h : Assigned ctx) :
    peerById (ctx.workers v) id = some q ↔ PeerAt ctx v q id := by
  constructor
  · intro hid
    obtain ⟨m, hm, hq⟩ := peerById_some hid
    exact .of_entry h hm hq
  · intro hq
    obtain ⟨m, hm, hmq⟩ := hq.entry h
    rw [peerById, if_pos hq.pos, hm, Option.bind_some, hmq]
    exact Option.filter_eq_some_iff.mpr ⟨rfl, by simpa using hq.live⟩

theorem peerById_other (h : Assigned ctx) (hq : PeerAt ctx v q id) (hv : v ≠ wid) :
    peerById (ctx.workers wid) id = none := by
  cases hid : peerById (ctx.workers wid) id with
  | none => rfl
  | some q' => exact absurd (hq.worker_eq h ((peerById_eq_some_iff h).mp hid)) hv

theorem meshRemote_eq (h : Assigned ctx) (hq : PeerAt ctx v q id) (hv : v ≠ wid) :
    meshRemote ctx wid id = some (v, ((ctx.workers v).ht q).fd) := by
  obtain ⟨m, hm, hmq⟩ := hq.entry h
  cases hr : meshRemote ctx wid id with
  | none =>
    have hnone := List.findSome?_eq_none_iff.mp hr v (List.mem_range.mpr (h.shard v q hq.live))
    simp [hv, hm, hmq] at hnone
  | some r =>
    obtain ⟨v', fd⟩ := r
    obtain ⟨m', q', hm', hmq', rfl⟩ := meshRemote_some hr
    obtain rfl := hq.worker_eq h (.of_entry h hm' hmq')
    rw [hm] at hm'
    obtain rfl := Option.some.inj hm'
    rw [hmq] at hmq'
    rw [Option.some.inj hmq']

end Lookups

/-! ### What dispatching places -/

section Dispatch

variable {ctx : Ctx} {wid : ℕ} {p : Slot} {payload : Bytes} {q : Slot}

theorem dispatchHdFrame_mesh {frame : Bytes} (h : hdReadFrameType frame = .kMeshData) (ctx : Ctx)
    (wid : ℕ) (p : Slot) :
    dispatchHdFrame ctx wid p frame = dispatchMeshData ctx wid p (frame.drop kHdFrameHeaderSize) := by
  unfold dispatchHdFrame
  dsimp only
  rw [h, if_neg (by decide), if_neg (by simp [HdFrameType.kMeshData, HdFrameType.kPing]),
    if_pos rfl]

theorem dispatchMeshData_local (hlen : kHdMeshDstSize ≤ payload.length)
    (hq : peerById (ctx.workers wid) (hdReadMeshDst payload) = some q) :
    Places wid [.queue q (meshFrame ((ctx.workers wid).ht p).peerId (payload.drop kHdMeshDstSize))]
      ctx (dispatchMeshData ctx wid p payload) := by
  intro ds hr
  obtain ⟨hok, halloc⟩ := frameAlloc_places hr
  have hcore := Ctx.core_worker (frameAlloc_core ctx wid) wid
  have hht := frameAlloc_ht ctx wid
  unfold dispatchMeshData
  rw [if_neg (by omega)]
  generalize frameAlloc ctx wid = r at hok halloc hcore hht ⊢
  obtain ⟨ok, ctx1⟩ := r
  dsimp only at hok halloc hcore hht
  subst hok
  dsimp only
  rw [peerById_core hcore, hq, hht]
  exact ((halloc.trans (enqueueSend_places wid ctx1 q _)).trans (stats_places wid _ fun st =>
    { st with hdMeshForwards := st.hdMeshForwards + 1 })) ds hr

theorem dispatchMeshData_remote {v : ℕ} {fd : Fd} (hlen : kHdMeshDstSize ≤ payload.length)
    (hnone : peerById (ctx.workers wid) (hdReadMeshDst payload) = none)
    (hrem : meshRemote ctx wid (hdReadMeshDst payload) = some (v, fd)) (hv : v ≠ wid)
    (hlt : v < ctx.numWorkers) :
    Places wid [.ring v ⟨fd, meshFrame ((ctx.workers wid).ht p).peerId
        (payload.drop kHdMeshDstSize), loadGen ctx v fd, none⟩]
      ctx (dispatchMeshData ctx wid p payload) := by
  intro ds hr
  obtain ⟨hok, halloc⟩ := frameAlloc_places hr
  have hcore := frameAlloc_core ctx wid
  have hht := frameAlloc_ht ctx wid
  unfold dispatchMeshData
  rw [if_neg (by omega)]
  generalize frameAlloc ctx wid = r at hok halloc hcore hht ⊢
  obtain ⟨ok, ctx1⟩ := r
  dsimp only at hok halloc hcore hht
  subst hok
  dsimp only
  have hnum : ctx1.numWorkers = ctx.numWorkers := (congrArg Ctx.numWorkers hcore :)
  rw [peerById_core (Ctx.core_worker hcore wid), hnone, meshRemote_core hcore, hrem, hht]
  dsimp only
  rw [xferPush, if_neg (by omega), Int.toNat_natCast, loadGen_core hcore]
  exact ((halloc.trans (xferSpscPush_places wid ctx1 v _)).trans (stats_places wid _ fun st =>
    { st with hdMeshForwards := st.hdMeshForwards + 1 })) ds hr

theorem dispatchMeshData_other {A : Type} (ctx : Ctx) (p : Slot) (payload : Bytes)
    (f : Worker → A)
    (hf : ∀ (w : Worker) inbox sources stats pressure signals, f { w with
      xferInbox := inbox, pendingSources := sources, stats := stats, sendPressure := pressure
      xferSignalPending := signals } = f w) {v : ℕ} (hv : v ≠ wid) :
    f ((dispatchMeshData ctx wid p payload).workers v) = f (ctx.workers v) := by
  have halloc : (frameAlloc ctx wid).2.workers v = ctx.workers v := Ctx.setWorker_ne _ _ hv
  unfold dispatchMeshData
  split
  · rfl
  · generalize frameAlloc ctx wid = r at halloc ⊢
    obtain ⟨ok, ctx1⟩ := r
    dsimp only at halloc
    cases ok with
    | false => rw [← halloc]
    | true =>
      dsimp only
      rw [Ctx.onWorker, Ctx.setWorker_ne _ _ hv]
      split
      · rw [Ctx.setWorker_ne _ _ hv, halloc]
      · split
        · rw [xferPush]
          split
          · rw [halloc]
          · rw [xferSpscPush_proj f hf, halloc]
        · rw [halloc]

theorem fleetEnqueue_places (wid : ℕ) (ctx : Ctx) (q : Slot) (data : Bytes) :
    Places wid [.queue q data] ctx
      (ctx.setWorker wid (fleetEnqueue (ctx.workers wid) q data)) := by
  intro ds hr
  obtain ⟨hok, halloc⟩ := frameAlloc_places hr
  rw [frameAlloc] at hok halloc
  have hsend := (enqueueSend_places wid (ctx.setWorker wid (ctx.workers wid).alloc.2) q data).trans
    (stats_places wid _ fun st => { st with hdFleetForwards := st.hdFleetForwards + 1 })
  rw [Ctx.setWorker_self, setWorker_setWorker, Ctx.onWorker, Ctx.setWorker_self,
    setWorker_setWorker] at hsend
  rw [fleetEnqueue]
  rcases hal : (ctx.workers wid).alloc with ⟨ok, w1⟩
  rw [hal] at hok halloc hsend
  dsimp only at hok halloc hsend
  subst hok
  exact (halloc.trans hsend) ds hr

end Dispatch

/-! ### Delivery -/

/-- The live peer that a frame is addressed to, or whose relay link it goes out on, and what this
peer is to be sent. -/
inductive Routed (ctx : Ctx) (wid : ℕ) (p : Slot) (frame : Bytes) : ℕ → Slot → Bytes → Prop
  | mesh (v : ℕ) (q : Slot) : hdReadFrameType frame = .kMeshData →
      kHdMeshDstSize ≤ (frame.drop kHdFrameHeaderSize).length →
      PeerAt ctx v q (hdReadMeshDst (frame.drop kHdFrameHeaderSize)) →
      Routed ctx wid p frame v q (meshFrame ((ctx.workers wid).ht p).peerId
        ((frame.drop kHdFrameHeaderSize).drop kHdMeshDstSize))
  | fleetLocal (v : ℕ) (q : Slot) : hdReadFrameType frame = .kFleetData →
      kHdFleetDstSize ≤ (frame.drop kHdFrameHeaderSize).length →
      hdReadFleetRelay (frame.drop kHdFrameHeaderSize) = ctx.relayId ∨
        hdReadFleetRelay (frame.drop kHdFrameHeaderSize) = 0 →
      PeerAt ctx v q (hdReadFleetPeer (frame.drop kHdFrameHeaderSize)) →
      Routed ctx wid p frame v q (meshFrame ((ctx.workers wid).ht p).peerId
        ((frame.drop kHdFrameHeaderSize).drop kHdFleetDstSize))
  | fleetRelay (v : ℕ) (q : Slot) : hdReadFrameType frame = .kFleetData →
      kHdFleetDstSize ≤ (frame.drop kHdFrameHeaderSize).length →
      ¬(hdReadFleetRelay (frame.drop kHdFrameHeaderSize) = ctx.relayId ∨
        hdReadFleetRelay (frame.drop kHdFrameHeaderSize) = 0) →
      PeerAt ctx v q (ctx.relayPeerMap (hdReadFleetRelay (frame.drop kHdFrameHeaderSize))) →
      Routed ctx wid p frame v q frame

/-- The buffer is at the end of the peer's queue, or of the ring to the peer's worker, which
queues it for the peer. -/
def Delivered (wid v : ℕ) (q : Slot) (out : Bytes) (ctx ctx' : Ctx) : Prop :=
  (v = wid ∧ queuedData (ctx'.workers v) q = queuedData (ctx.workers v) q ++ [out]) ∨
  (v ≠ wid ∧ ∃ x, (ctx'.workers v).xferInbox wid = (ctx.workers v).xferInbox wid ++ [x] ∧
    queuedData (xferDeliver (ctx'.workers v) x) q = queuedData (ctx'.workers v) q ++ [out])

/-- Nothing else makes worker `wid` or `v` drop a frame for slot `q` of `v`. -/
structure Unhindered (ctx : Ctx) (wid v : ℕ) (q : Slot) : Prop where
  memory : ∀ u, u = wid ∨ u = v → ∀ ok ∈ (ctx.workers u).allocOracle, ok = true
  link : ∀ u, u = wid ∨ u = v →
    ∀ a, ((ctx.workers u).ht a).send.Linkage (ctx.workers u).nextItem
  queue : ((ctx.workers v).ht q).send.queued < kMaxSendQueueDepth
  ring : ((ctx.workers v).xferInbox wid).length + 1 < kXferSpscSize

section Delivery

variable {ctx : Ctx} {wid v : ℕ} {p q : Slot} {frame out : Bytes}

theorem Unhindered.local_room (h : Unhindered ctx wid wid q) (data : Bytes) :
    Room wid [.queue q data] ctx where
  memory := h.memory wid (.inl rfl)
  link := h.link wid (.inl rfl)
  queue a ha := by
    by_cases hq : q = a
    · subst hq
      have hroom := h.queue
      simp
      omega
    · simp [hq] at ha
  ring u hu := by simp at hu

theorem Unhindered.ring_room (h : Unhindered ctx wid v q) (x : Xfer) :
    Room wid [.ring v x] ctx where
  memory := h.memory wid (.inl rfl)
  link := h.link wid (.inl rfl)
  queue a ha := by simp at ha
  ring u hu := by
    by_cases hv : v = u
    · subst hv
      simpa using h.ring
    · simp [hv] at hu

theorem Delivered.of_queue {ctx' : Ctx} (h : Placed wid [.queue q out] ctx ctx') :
    Delivered wid wid q out ctx ctx' :=
  .inl ⟨rfl, by simpa using h.queue wid q⟩

theorem Delivered.worker_eq (h : Delivered wid v q out ctx ctx) : v = wid := by
  rcases h with ⟨hv, -⟩ | ⟨-, x, hx, -⟩
  · exact hv
  · simp at hx

theorem mesh_delivered (hA : Assigned ctx) (hs : Unhindered ctx wid v q)
    (ht : hdReadFrameType frame = .kMeshData)
    (hlen : kHdMeshDstSize ≤ (frame.drop kHdFrameHeaderSize).length)
    (hq : PeerAt ctx v q (hdReadMeshDst (frame.drop kHdFrameHeaderSize))) :
    Delivered wid v q (meshFrame ((ctx.workers wid).ht p).peerId
      ((frame.drop kHdFrameHeaderSize).drop kHdMeshDstSize)) ctx
      (dispatchHdFrame ctx wid p frame) := by
  rw [dispatchHdFrame_mesh ht]
  generalize frame.drop kHdFrameHeaderSize = payload at hlen hq ⊢
  by_cases hv : v = wid
  · subst hv
    exact .of_queue ((dispatchMeshData_local hlen ((peerById_eq_some_iff hA).mpr hq)).placed
      (hs.local_room _))
  · have hplaced := (dispatchMeshData_remote (p := p) hlen (peerById_other hA hq hv)
      (meshRemote_eq hA hq hv) hv (hA.shard v q hq.live)).placed (hs.ring_room _)
    refine .inr ⟨hv, ⟨_, _, _, _⟩, by simpa using hplaced.ring v wid, ?_⟩
    have hother := dispatchMeshData_other ctx p payload
      (fun w => (w.ht, w.fdMap, w.fdGen, w.nextItem, w.allocOracle)) (fun _ _ _ _ _ _ => rfl) hv
    generalize dispatchMeshData ctx wid p payload = ctx' at hother ⊢
    simp only [Prod.mk.injEq] at hother
    obtain ⟨hht, hmap, hgen, hnext, hmem⟩ := hother
    have hI := hA.indexed v
    have htarget : xferTarget (ctx'.workers v) ⟨((ctx.workers v).ht q).fd,
        meshFrame ((ctx.workers wid).ht p).peerId (payload.drop kHdMeshDstSize),
        loadGen ctx v ((ctx.workers v).ht q).fd, none⟩ = some q :=
      xferTarget_some.mpr ⟨hI.valid q hq.live, by rw [hmap]; exact hI.reached q hq.live,
        by rw [hgen]; rfl⟩
    have henq := enqueueSend_enqueued (w := ctx'.workers v) (p := q)
      (by rw [hht]; exact hs.queue) (by rw [hmem]; exact hs.memory v (.inr rfl))
      (by rw [hht, hnext]; exact hs.link v (.inr rfl))
      (meshFrame ((ctx.workers wid).ht p).peerId (payload.drop kHdMeshDstSize))
    rw [xferDeliver, htarget]
    simpa using henq.queuedData q

theorem fleet_delivered_iff (hA : Assigned ctx) (hr : Routed ctx wid p frame v q out)
    (ht : hdReadFrameType frame = .kFleetData) (hs : Unhindered ctx wid v q) :
    Delivered wid v q out ctx (dispatchHdFrame ctx wid p frame) ↔ v = wid := by
  rw [dispatchHdFrame_fleet ht]
  constructor
  · intro hd
    by_contra hv
    suffices h : dispatchFleetData ctx wid p frame (frame.drop kHdFrameHeaderSize) = ctx by
      rw [h] at hd
      exact hv hd.worker_eq
    unfold dispatchFleetData
    dsimp only
    cases hr with
    | mesh ht' =>
      rw [ht'] at ht
      exact absurd ht (by decide)
    | fleetLocal _ hlen hhere hq =>
      rw [if_neg (by omega), if_pos hhere, peerById_other hA hq hv]
    | fleetRelay _ hlen hhere hq =>
      rw [if_neg (by omega), if_neg hhere, peerById_other hA hq hv]
  · rintro rfl
    refine .of_queue (Places.placed ?_ (hs.local_room _))
    unfold dispatchFleetData
    dsimp only
    cases hr with
    | mesh ht' =>
      rw [ht'] at ht
      exact absurd ht (by decide)
    | fleetLocal _ hlen hhere hq =>
      rw [if_neg (by omega), if_pos hhere, (peerById_eq_some_iff hA).mpr hq]
      exact fleetEnqueue_places _ _ _ _
    | fleetRelay _ hlen hhere hq =>
      rw [if_neg (by omega), if_neg hhere, (peerById_eq_some_iff hA).mpr hq]
      exact fleetEnqueue_places _ _ _ _

/-- A frame for a live peer reaches it on any worker if it is MeshData, and on the worker that
it arrived on if it is FleetData. -/
theorem routed_delivered_iff (hA : Assigned ctx) (hr : Routed ctx wid p frame v q out)
    (hs : Unhindered ctx wid v q) :
    Delivered wid v q out ctx (dispatchHdFrame ctx wid p frame) ↔
      hdReadFrameType frame = .kMeshData ∨ v = wid := by
  by_cases ht : hdReadFrameType frame = .kFleetData
  · rw [fleet_delivered_iff hA hr ht hs, or_iff_right]
    rw [ht]
    decide
  · cases hr with
    | mesh ht' hlen hq => exact ⟨fun _ => .inl ht', fun _ => mesh_delivered hA hs ht' hlen hq⟩
    | fleetLocal ht' => exact absurd ht' ht
    | fleetRelay ht' => exact absurd ht' ht

end Delivery

/-! ### Two peers on two workers -/

theorem AssignOk.of_unused {ctx : Ctx} (h : Assigned ctx) {u : ℕ} {fd : Fd} {key : Key}
    {peerId : ℕ} (hu : u < ctx.numWorkers) (hkey : htLookup (ctx.workers u) key = none)
    (hfd : (ctx.workers u).fdMap fd = none)
    (hid : ∀ v < ctx.numWorkers, ((ctx.workers v).peerIdMap.bind fun m => m peerId) = none)
    (hsome : ((processCmdAdd ctx u fd key .kHd peerId).workers u).peerIdMap.isSome = true) :
    AssignOk ctx (u, .addPeer fd key .kHd peerId) where
  fresh fd' key' protocol' peerId' heq _ := by
    cases heq
    refine ⟨hkey, fun _ q hq he => ?_⟩
    have hreach := (h.indexed u).reached q hq
    rw [he, hfd] at hreach
    cases hreach
  worker := hu
  ids fd' key' protocol' peerId' heq hpos := by
    cases heq
    refine ⟨rfl, fun v q hl he => ?_, hsome⟩
    obtain ⟨m, hm, hmq⟩ := h.found v q hl (he ▸ hpos)
    have hnone := hid v (h.shard v q hl)
    rw [hm, Option.bind_some, ← he, hmq] at hnone
    cases hnone

def onePeerEach : Ctx :=
  processCmdAdd (processCmdAdd twoWorkers 0 3 (byteKey 1) .kHd 1) 1 4 (byteKey 2) .kHd 2

theorem onePeerEach_assigned : Assigned onePeerEach ∧ Idle onePeerEach := by
  have h0 : Assigned twoWorkers := .init twoWorkers_init
  have h1 : Assigned (processCmdAdd twoWorkers 0 3 (byteKey 1) .kHd 1) :=
    h0.step (l := (0, .addPeer 3 (byteKey 1) .kHd 1)) (.of_unused h0 (by decide)
      (by decide) rfl (by decide) (by decide)) rfl
  have hi : Idle twoWorkers := fun _ _ => ⟨rfl, rfl, rfl⟩
  refine ⟨?_, (hi.add (h0.indexed 0).toTableOk _ _ _ _).add (h1.indexed 1).toTableOk _ _ _ _⟩
  exact h1.step (l := (1, .addPeer 4 (byteKey 2) .kHd 2)) (.of_unused h1 (by decide)
    (by decide) (by decide) (by decide) (by decide)) rfl

theorem onePeerEach_unhindered : Unhindered onePeerEach 0 1 (homeSlot (byteKey 2)) where
  memory u hu := by
    have hnil : (onePeerEach.workers 0).allocOracle = [] ∧
        (onePeerEach.workers 1).allocOracle = [] := by decide
    rcases hu with rfl | rfl
    · simp [hnil.1]
    · simp [hnil.2]
  link u _ a := .empty (onePeerEach_assigned.2 u a).1 (onePeerEach_assigned.2 u a).2.1
  queue := by
    rw [(onePeerEach_assigned.2 1 _).2.2]
    decide
  ring := by decide

theorem peerTwo : PeerAt onePeerEach 1 (homeSlot (byteKey 2)) 2 :=
  ⟨by decide, by decide, by decide⟩

def meshToTwo : Bytes := hdWriteFrameHeader .kMeshData 3 ++ writeU16 2 ++ [7]

def fleetToTwo : Bytes := hdBuildFleetDataHeader 0 2 1 ++ [7]

theorem mesh_across_delivered :
    Delivered 0 1 (homeSlot (byteKey 2)) (meshFrame 1 [7]) onePeerEach
      (dispatchHdFrame onePeerEach 0 (homeSlot (byteKey 1)) meshToTwo) := by
  have hid : ((onePeerEach.workers 0).ht (homeSlot (byteKey 1))).peerId = 1 := by decide
  have hr : Routed onePeerEach 0 (homeSlot (byteKey 1)) meshToTwo 1 (homeSlot (byteKey 2)) _ :=
    .mesh 1 _ (by decide) (by decide) peerTwo
  rw [hid] at hr
  exact (routed_delivered_iff onePeerEach_assigned.1 hr onePeerEach_unhindered).mpr
    (.inl (by decide))

/-- FleetData for a peer of another worker is dropped. -/
theorem not_fleet_across_delivered :
    ¬∀ (ctx : Ctx) (wid v : ℕ) (p q : Slot) (frame out : Bytes), Assigned ctx →
      Routed ctx wid p frame v q out → Unhindered ctx wid v q →
      Delivered wid v q out ctx (dispatchHdFrame ctx wid p frame) := by
  intro hall
  have hr : Routed onePeerEach 0 (homeSlot (byteKey 1)) fleetToTwo 1 (homeSlot (byteKey 2)) _ :=
    .fleetLocal 1 _ (by decide) (by decide) (.inr (by decide)) peerTwo
  have hd := hall _ _ _ _ _ _ _ onePeerEach_assigned.1 hr onePeerEach_unhindered
  exact absurd ((fleet_delivered_iff onePeerEach_assigned.1 hr (by decide)
    onePeerEach_unhindered).mp hd) (by decide)

end HyperDerp
