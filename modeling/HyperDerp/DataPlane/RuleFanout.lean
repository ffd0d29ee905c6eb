import HyperDerp.DataPlane.Placement
import HyperDerp.DataPlane.Shards

/-!
# Data frames along forwarding rules (`data_plane.cc:1119-1158`, `:1369-1443`)

A peer with one rule has a path of its own, with caches of its own, beside the
loop over any number of rules. Both place one copy for each rule whose
destination the worker knows; with two or more rules the DERP peers of the shard
get the frame too, bridged.
-/

namespace HyperDerp

/-! ### The copies -/

def copyTo (ctx : Ctx) (wid : ℕ) (frame : Bytes) (key : Key) : Option Copy :=
  match htLookup (ctx.workers wid) key with
  | some q => some (.queue q frame)
  | none => (routeLookup (ctx.workers wid).routes key).map fun a =>
    let rt := (ctx.workers wid).routes a
    .ring rt.workerId ⟨rt.fd, frame, loadGen ctx rt.workerId rt.fd, some (.rule key false)⟩

/-- One copy for each of the listed rules of peer `p` whose destination is registered. -/
def copiesAlong (ctx : Ctx) (wid : ℕ) (p : Slot) (frame : Bytes) (rs : List ℕ) : List Copy :=
  rs.filterMap fun r => copyTo ctx wid frame (((ctx.workers wid).ht p).fwd r).key

def ruleCopies (ctx : Ctx) (wid : ℕ) (p : Slot) (frame : Bytes) : List Copy :=
  copiesAlong ctx wid p frame (List.range ((ctx.workers wid).ht p).fwdCount)

def broadcastCopies (w : Worker) (src : Slot) (proto : PeerProtocol) (frame : Bytes)
    (slots : List Slot) : List Copy :=
  (slots.filter fun q =>
    decide ((w.ht q).occupied = .live ∧ q ≠ src ∧ (w.ht q).protocol = proto)).map (.queue · frame)

/-- The DERP frames that go beside the copies of two or more rules. -/
def bridgedCopies (ctx : Ctx) (wid : ℕ) (p : Slot) (frame : Bytes) : List Copy :=
  let src := (ctx.workers wid).ht p
  if 1 < src.fwdCount then
    match bridgeHdToDerp (frame.drop kHdFrameHeaderSize) src.key
        (kFrameHeaderSize + kKeySize + kMaxFramePayload) with
    | none => []
    | some derp =>
      broadcastCopies (ctx.workers wid) p .kDerp derp (List.finRange kHtCapacity)
  else []

structure Unresolved (peer : Peer) : Prop where
  fwd1Peer : peer.fwd1Peer = none
  fwd1DstFd : peer.fwd1DstFd < 0
  rule : ∀ r < peer.fwdCount, (peer.fwd r).peer = none ∧ (peer.fwd r).dstFd < 0

/-- The route of a key that is not on the worker leads to another worker. -/
def RoutesLead (ctx : Ctx) (wid : ℕ) : Prop :=
  ∀ key a, htLookup (ctx.workers wid) key = none →
    routeLookup (ctx.workers wid).routes key = some a →
    ((ctx.workers wid).routes a).workerId ≠ wid ∧
      ((ctx.workers wid).routes a).workerId < ctx.numWorkers ∧
      0 ≤ ((ctx.workers wid).routes a).fd

section

variable {ctx ctx' : Ctx} {wid : ℕ} {p : Slot} {frame : Bytes} {key : Key}

theorem copyTo_core (h : ctx'.core = ctx.core) (wid : ℕ) (frame : Bytes) (key : Key) :
    copyTo ctx' wid frame key = copyTo ctx wid frame key := by
  have hw := Ctx.core_worker h wid
  simp only [copyTo, htLookup_core hw, Worker.core_routes hw, loadGen_core h]

theorem RoutesLead.core (hl : RoutesLead ctx wid) (h : ctx'.core = ctx.core) :
    RoutesLead ctx' wid := by
  have hw := Ctx.core_worker h wid
  have hnum : ctx'.numWorkers = ctx.numWorkers := (congrArg Ctx.numWorkers h :)
  intro key a hnone hroute
  rw [htLookup_core hw] at hnone
  rw [Worker.core_routes hw] at hroute ⊢
  rw [hnum]
  exact hl key a hnone hroute

theorem copyTo_live {s : Shards} (hT : s.Tables) {c : Copy}
    (h : copyTo s.ctx wid frame key = some c) :
    (∃ q, c = .queue q frame ∧ s.Live wid q key) ∨
      ∃ v x q, c = .ring v x ∧ v ≠ wid ∧ x.frame = frame ∧ s.Live v q key ∧
        ((s.ctx.workers v).ht q).fd = x.dstFd := by
  unfold copyTo at h
  split at h
  · next q hq =>
    cases h
    exact .inl ⟨q, rfl, (hT.table wid).lookup_iff.mp hq⟩
  · next hnone =>
    obtain ⟨a, ha, rfl⟩ := Option.map_eq_some_iff.mp h
    obtain ⟨q, hq, hfd⟩ := hT.route wid key _ _ (Shards.routeMap_of_lookup ha)
    refine .inr ⟨_, _, q, rfl, fun he => ?_, rfl, hq, hfd⟩
    rw [he] at hq
    rw [(hT.table wid).lookup_iff.mpr hq] at hnone
    cases hnone

theorem Shards.Tables.routesLead {s : Shards} (hT : s.Tables) (wid : ℕ) :
    RoutesLead s.ctx wid := by
  intro key a hnone ha
  obtain ⟨q, hq, hfd⟩ := hT.route wid key _ _ (Shards.routeMap_of_lookup ha)
  refine ⟨fun he => ?_, ?_, ?_⟩
  · rw [he] at hq
    rw [(hT.table wid).lookup_iff.mpr hq] at hnone
    cases hnone
  · rw [hT.home _ _ _ hq]
    exact Nat.mod_lt _ hT.pos
  · have hv := hT.valid _ _ _ hq
    rw [hfd, validFd, decide_eq_true_eq] at hv
    exact hv.1

/-! ### One rule -/

theorem cacheEnqueue_places (wid : ℕ) (ctx : Ctx) {peer : Peer} (q : Slot) (data : Bytes)
    (hsend : peer.send = ((ctx.workers wid).ht p).send)
    (hocc : peer.occupied = ((ctx.workers wid).ht p).occupied) :
    Places wid [.queue q data] ctx
      (ctx.setWorker wid (enqueueSend ((ctx.workers wid).setPeer p peer) q data)) := by
  have h := (setPeer_places wid ctx hsend hocc).trans (enqueueSend_places wid _ q data)
  rwa [Ctx.setWorker_self, setWorker_setWorker] at h

theorem cachePush_places (hl : RoutesLead ctx wid) {a : Slot}
    (hnone : htLookup (ctx.workers wid) key = none)
    (ha : routeLookup (ctx.workers wid).routes key = some a) {peer : Peer}
    (hsend : peer.send = ((ctx.workers wid).ht p).send)
    (hocc : peer.occupied = ((ctx.workers wid).ht p).occupied) (frame : Bytes) :
    Places wid (copyTo ctx wid frame key).toList ctx
      (xferPush (ctx.setWorker wid ((ctx.workers wid).setPeer p peer)) wid
        ((ctx.workers wid).routes a).workerId ((ctx.workers wid).routes a).fd frame
        (some (.rule key false))) := by
  obtain ⟨hne, hlt, -⟩ := hl key a hnone ha
  have hgen : ∀ v fd, loadGen (ctx.setWorker wid ((ctx.workers wid).setPeer p peer)) v fd =
      loadGen ctx v fd := fun v fd => by
    rw [loadGen, setWorker_proj Worker.fdGen (by rfl)]
    rfl
  rw [copyTo, hnone, ha, xferPush, Ctx.setWorker_numWorkers, if_neg (by omega), Int.toNat_natCast,
    hgen]
  exact (setPeer_places wid ctx hsend hocc).trans (xferSpscPush_places wid _ _ _)

variable (frame) in
theorem forwardRule_places (hl : RoutesLead ctx wid) {r : ℕ}
    (hpeer : (((ctx.workers wid).ht p).fwd r).peer = none)
    (hfd : (((ctx.workers wid).ht p).fwd r).dstFd < 0) :
    Places wid (copyTo ctx wid frame (((ctx.workers wid).ht p).fwd r).key).toList ctx
      (forwardRule ctx wid p frame r) := by
  unfold forwardRule
  dsimp only
  rw [hpeer, Option.filter_none]
  dsimp only
  rw [if_pos hfd]
  split
  · next q hq =>
    rw [copyTo, hq]
    exact cacheEnqueue_places wid ctx q frame rfl rfl
  · next hnone =>
    split
    · next ha =>
      rw [copyTo, hnone, ha]
      exact .refl wid ctx
    · next a ha =>
      rw [if_neg (not_lt.mpr (hl _ a hnone ha).2.2)]
      exact cachePush_places hl hnone ha (by rfl) (by rfl) frame

variable (frame) in
theorem forwardHdData1Body_places (hl : RoutesLead ctx wid)
    (hpeer : ((ctx.workers wid).ht p).fwd1Peer = none)
    (hfd : ((ctx.workers wid).ht p).fwd1DstFd < 0) :
    Places wid (copyTo ctx wid frame (((ctx.workers wid).ht p).fwd 0).key).toList ctx
      (forwardHdData1Body ctx wid p frame) := by
  unfold forwardHdData1Body
  dsimp only
  rw [hpeer, Option.filter_none]
  dsimp only
  rw [if_neg (not_le.mpr hfd)]
  split
  · next q hq =>
    rw [copyTo, hq]
    exact cacheEnqueue_places wid ctx q frame rfl rfl
  · next hnone =>
    split
    · next ha =>
      rw [copyTo, hnone, ha]
      exact stats_places wid ctx fun st => { st with hdFwdNoRoute := st.hdFwdNoRoute + 1 }
    · next a ha => exact cachePush_places hl hnone ha (by rfl) (by rfl) frame

/-! ### All rules -/

theorem forwardRule_core (ctx : Ctx) (wid : ℕ) (p : Slot) (frame : Bytes) (r : ℕ) :
    (forwardRule ctx wid p frame r).core = ctx.core :=
  Effs.core (forwardRule_effs (fun _ _ => trivial) (fun _ _ _ _ => trivial) :
    Effs wid p (fun _ _ => True) (fun _ _ => True) ctx _)

theorem forwardRules_places {ctx0 : Ctx} (hl : RoutesLead ctx0 wid) (rs : List ℕ)
    (hnd : rs.Nodup) (hrule : ∀ r ∈ rs, (((ctx0.workers wid).ht p).fwd r).peer = none ∧
      (((ctx0.workers wid).ht p).fwd r).dstFd < 0) {ctx : Ctx} (hcore : ctx.core = ctx0.core)
    (hfwd : ∀ r ∈ rs, ((ctx.workers wid).ht p).fwd r = ((ctx0.workers wid).ht p).fwd r)
    {ds : List Copy} (hr : Room wid (copiesAlong ctx0 wid p frame rs ++ ds) ctx) :
    (forwardRules ctx wid p frame rs).1 = true ∧
      Placed wid (copiesAlong ctx0 wid p frame rs) ctx (forwardRules ctx wid p frame rs).2 ∧
      Room wid ds (forwardRules ctx wid p frame rs).2 ∧
      (forwardRules ctx wid p frame rs).2.core = ctx0.core := by
  induction rs generalizing ctx with
  | nil => exact ⟨rfl, .refl wid ctx, hr, hcore⟩
  | cons r rs ih =>
    obtain ⟨hok, halloc⟩ := frameAlloc_places hr
    have hcore1 := (frameAlloc_core ctx wid).trans hcore
    have hht := frameAlloc_ht ctx wid
    rw [forwardRules]
    generalize frameAlloc ctx wid = res at hok halloc hcore1 hht ⊢
    obtain ⟨ok, ctx1⟩ := res
    dsimp only at hok halloc hcore1 hht
    subst hok
    dsimp only
    have hf : ((ctx1.workers wid).ht p).fwd r = ((ctx0.workers wid).ht p).fwd r := by
      rw [hht]
      exact hfwd r List.mem_cons_self
    have hone := forwardRule_places (p := p) frame (hl.core hcore1) (r := r)
      (by rw [hf]; exact (hrule r List.mem_cons_self).1)
      (by rw [hf]; exact (hrule r List.mem_cons_self).2)
    rw [copyTo_core hcore1, hf] at hone
    have hsplit : copiesAlong ctx0 wid p frame (r :: rs) =
        [] ++ (copyTo ctx0 wid frame (((ctx0.workers wid).ht p).fwd r).key).toList ++
          copiesAlong ctx0 wid p frame rs := by
      rw [copiesAlong, List.filterMap_cons, List.nil_append]
      cases copyTo ctx0 wid frame (((ctx0.workers wid).ht p).fwd r).key <;> rfl
    rw [hsplit, List.append_assoc] at hr
    obtain ⟨hp1, hr1⟩ := (halloc.trans hone) _ hr
    have hrest : ∀ r' ∈ rs, (((forwardRule ctx1 wid p frame r).workers wid).ht p).fwd r' =
        ((ctx0.workers wid).ht p).fwd r' := by
      intro r' h'
      have hne : r' ≠ r := by
        rintro rfl
        exact (List.nodup_cons.mp hnd).1 h'
      rw [forwardRule_fwd ctx1 wid p frame hne, hht]
      exact hfwd r' (List.mem_cons_of_mem _ h')
    obtain ⟨h1, h2, h3, h4⟩ := ih (List.nodup_cons.mp hnd).2
      (fun r' h => hrule r' (List.mem_cons_of_mem _ h))
      ((forwardRule_core ctx1 wid p frame r).trans hcore1) hrest hr1
    rw [hsplit]
    exact ⟨h1, hp1.trans h2, h3, h4⟩

theorem broadcastCopies_core {w w' : Worker} (h : w'.core = w.core) (src : Slot)
    (proto : PeerProtocol) (frame : Bytes) (slots : List Slot) :
    broadcastCopies w' src proto frame slots = broadcastCopies w src proto frame slots := by
  have hpro : ∀ q, (w'.ht q).protocol = (w.ht q).protocol := fun q =>
    (congrArg Peer.protocol (Worker.core_peer h q) :)
  simp only [broadcastCopies, Worker.core_occupied h, hpro]

theorem broadcastFrame_places (wid : ℕ) (ctx : Ctx) (p : Slot) (proto : PeerProtocol)
    (frame : Bytes) :
    Places wid (broadcastCopies (ctx.workers wid) p proto frame (List.finRange kHtCapacity)) ctx
      (ctx.onWorker wid fun w => broadcastFrame w p proto frame) := by
  unfold broadcastFrame Ctx.onWorker
  dsimp only
  generalize List.finRange kHtCapacity = slots
  induction slots generalizing ctx with
  | nil =>
    rw [List.foldl_nil, setWorker_workers]
    exact .refl wid ctx
  | cons q slots ih =>
    rw [List.foldl_cons, broadcastCopies, List.filter_cons]
    by_cases hq : ((ctx.workers wid).ht q).occupied = .live ∧ q ≠ p ∧
        ((ctx.workers wid).ht q).protocol = proto
    · rw [if_pos (decide_eq_true hq), if_neg (by tauto), if_neg (by tauto), List.map_cons]
      have h1 := allocEnqueue_places wid ctx q frame
      have h2 := ih (ctx.setWorker wid (allocEnqueue (ctx.workers wid) q frame))
      rw [Ctx.setWorker_self, setWorker_setWorker] at h2
      have hcore := Ctx.core_worker (Effs.core (allocEnqueue_effs trivial :
        Effs wid p (fun _ _ => True) (fun _ _ => True) ctx
          (ctx.setWorker wid (allocEnqueue (ctx.workers wid) q frame)))) wid
      rw [Ctx.setWorker_self] at hcore
      have hsame : broadcastCopies (allocEnqueue (ctx.workers wid) q frame) p proto frame slots =
          broadcastCopies (ctx.workers wid) p proto frame slots :=
        broadcastCopies_core hcore _ _ _ _
      rw [hsame] at h2
      exact h1.trans h2
    · have hskip : (if ((ctx.workers wid).ht q).occupied ≠ .live ∨ q = p then ctx.workers wid
          else if ((ctx.workers wid).ht q).protocol ≠ proto then ctx.workers wid
          else allocEnqueue (ctx.workers wid) q frame) = ctx.workers wid := by
        split
        · rfl
        · rw [if_pos (by tauto)]
      rw [hskip, if_neg (by simpa using hq)]
      exact ih ctx

/-! ### The whole fan-out -/

theorem dispatchHdFrame_data (h : hdReadFrameType frame = .kData) :
    dispatchHdFrame ctx wid p frame =
      if ((ctx.workers wid).ht p).fwdCount = 1 then forwardHdData1 ctx wid p frame
      else forwardHdData ctx wid p frame := by
  unfold dispatchHdFrame
  dsimp only
  rw [if_pos h]

theorem ruleCopies_one (h : ((ctx.workers wid).ht p).fwdCount = 1) :
    ruleCopies ctx wid p frame =
      (copyTo ctx wid frame (((ctx.workers wid).ht p).fwd 0).key).toList := by
  rw [ruleCopies, h, copiesAlong, List.range_one, List.filterMap_cons]
  cases copyTo ctx wid frame (((ctx.workers wid).ht p).fwd 0).key <;> rfl

variable (frame) in
theorem forwardHdData1_places (hl : RoutesLead ctx wid)
    (hu : Unresolved ((ctx.workers wid).ht p)) :
    Places wid (copyTo ctx wid frame (((ctx.workers wid).ht p).fwd 0).key).toList ctx
      (forwardHdData1 ctx wid p frame) := by
  intro ds hr
  obtain ⟨hok, halloc⟩ := frameAlloc_places hr
  have hcore := frameAlloc_core ctx wid
  have hht := frameAlloc_ht ctx wid
  unfold forwardHdData1
  generalize frameAlloc ctx wid = res at hok halloc hcore hht ⊢
  obtain ⟨ok, ctx1⟩ := res
  dsimp only at hok halloc hcore hht
  subst hok
  dsimp only
  have hbody := forwardHdData1Body_places (p := p) frame (hl.core hcore)
    (by rw [hht]; exact hu.fwd1Peer) (by rw [hht]; exact hu.fwd1DstFd)
  rw [copyTo_core hcore, hht] at hbody
  exact (halloc.trans hbody) ds hr

theorem forwardHdData_places (hl : RoutesLead ctx wid) (hu : Unresolved ((ctx.workers wid).ht p))
    (hn : 1 < ((ctx.workers wid).ht p).fwdCount) :
    Places wid (ruleCopies ctx wid p frame ++ bridgedCopies ctx wid p frame) ctx
      (forwardHdData ctx wid p frame) := by
  intro ds hr
  rw [List.append_assoc] at hr
  obtain ⟨hok, hplaced, hroom, hcore⟩ := forwardRules_places hl
    (List.range ((ctx.workers wid).ht p).fwdCount) List.nodup_range
    (fun r hr => hu.rule r (List.mem_range.mp hr)) rfl (fun _ _ => rfl) hr
  unfold forwardHdData
  dsimp only
  rw [if_neg (by omega)]
  generalize forwardRules ctx wid p frame (List.range ((ctx.workers wid).ht p).fwdCount) = res
    at hok hplaced hroom hcore ⊢
  obtain ⟨ok, ctx1⟩ := res
  dsimp only at hok hplaced hroom hcore
  subst hok
  dsimp only
  have hbridge : bridgedCopies ctx wid p frame =
      match bridgeHdToDerp (frame.drop kHdFrameHeaderSize) ((ctx.workers wid).ht p).key
        (kFrameHeaderSize + kKeySize + kMaxFramePayload) with
      | none => []
      | some derp =>
        broadcastCopies (ctx1.workers wid) p .kDerp derp (List.finRange kHtCapacity) := by
    rw [bridgedCopies, if_pos hn]
    simp only [broadcastCopies_core (Ctx.core_worker hcore wid)]
  rw [hbridge] at hroom ⊢
  cases hb : bridgeHdToDerp (frame.drop kHdFrameHeaderSize) ((ctx.workers wid).ht p).key
      (kFrameHeaderSize + kKeySize + kMaxFramePayload) with
  | none =>
    rw [hb] at hroom
    rw [List.append_nil]
    exact ⟨hplaced, hroom⟩
  | some derp =>
    rw [hb] at hroom
    obtain ⟨h1, h2⟩ := broadcastFrame_places wid ctx1 p .kDerp derp ds hroom
    exact ⟨hplaced.trans h1, h2⟩

/-- A Data frame of a peer with rules is copied once for each rule whose destination is
registered and, if there are two or more rules, once for each other DERP peer of the shard; so it
goes to the rules' destinations only, if and only if nothing is bridged. The loop over a single rule
places what the path for a single rule places. -/
theorem data_fanout (hd : hdReadFrameType frame = .kData)
    (hn : 1 ≤ ((ctx.workers wid).ht p).fwdCount) (hu : Unresolved ((ctx.workers wid).ht p))
    (hl : RoutesLead ctx wid)
    (hr : Room wid (ruleCopies ctx wid p frame ++ bridgedCopies ctx wid p frame) ctx) :
    Placed wid (ruleCopies ctx wid p frame ++ bridgedCopies ctx wid p frame) ctx
        (dispatchHdFrame ctx wid p frame) ∧
      (Placed wid (ruleCopies ctx wid p frame) ctx (dispatchHdFrame ctx wid p frame) ↔
        bridgedCopies ctx wid p frame = []) ∧
      (((ctx.workers wid).ht p).fwdCount = 1 →
        Placed wid (ruleCopies ctx wid p frame) ctx
          (dispatchHdFrame ctx wid p frame) ∧
        Placed wid (ruleCopies ctx wid p frame) ctx
          (forwardRules ctx wid p frame (List.range 1)).2) := by
  rw [dispatchHdFrame_data hd]
  by_cases hone : ((ctx.workers wid).ht p).fwdCount = 1
  · have hbridge : bridgedCopies ctx wid p frame = [] := by
      rw [bridgedCopies, if_neg (by omega)]
    rw [hbridge, List.append_nil] at hr ⊢
    rw [eq_self, iff_true]
    have hdata : Placed wid (ruleCopies ctx wid p frame) ctx (forwardHdData1 ctx wid p frame) := by
      have h1 := forwardHdData1_places frame hl hu
      rw [← ruleCopies_one hone] at h1
      exact h1.placed hr
    rw [if_pos hone]
    refine ⟨hdata, hdata, fun _ => ⟨hdata, ?_⟩⟩
    rw [← List.append_nil (ruleCopies ctx wid p frame), ruleCopies] at hr
    have hloop := (forwardRules_places hl (List.range ((ctx.workers wid).ht p).fwdCount)
      List.nodup_range (fun r hr => hu.rule r (List.mem_range.mp hr)) rfl (fun _ _ => rfl) hr).2.1
    rw [ruleCopies]
    rwa [hone] at hloop ⊢
  · rw [if_neg hone]
    have hall := (forwardHdData_places hl hu (by omega)).placed hr
    exact ⟨hall, hall.append_iff, fun h => absurd h hone⟩

end

/-! ### Two rules and a DERP peer -/

def settingUp (_ : Shards) : ShardStep → Prop
  | .add .. | .setRule .. => True
  | _ => False

theorem reach_settingUp {s : Shards} (h : Runs.Reach Shards.Init Shards.step settingUp s) :
    s.Tables ∧ Idle s.ctx := by
  apply h.invariant (P := fun s => s.Tables ∧ Idle s.ctx)
  · intro s h0
    refine ⟨h0.tables, fun v q => ?_⟩
    rw [h0.workers]
    exact ⟨rfl, rfl, rfl⟩
  · intro s s' l hi hok hs
    refine ⟨Shards.step_tables hi.1 hs, ?_⟩
    cases l with
    | add fd key proto peerId =>
      simp only [Shards.step, Option.ite_none_right_eq_some, Option.some.injEq] at hs
      obtain ⟨-, rfl⟩ := hs
      exact hi.2.add (hi.1.table _) fd key proto peerId
    | setRule key dstKey =>
      simp only [Shards.step, Option.ite_none_right_eq_some, Option.some.injEq] at hs
      obtain ⟨-, rfl⟩ := hs
      exact hi.2.setFwdRule _ key dstKey
    | remove | packet | data1 | load | push | pop | eof | ioPath => cases hok

theorem Idle.room {ctx : Ctx} (h : Idle ctx) {wid : ℕ} {cs : List Copy}
    (hmem : (ctx.workers wid).allocOracle = [])
    (hqueue : ∀ q, (Copy.forQueue q cs).length ≤ 2048)
    (hring : ∀ v, Copy.forRing v cs ≠ [] → ((ctx.workers v).xferInbox wid).length +
      (Copy.forRing v cs).length < kXferSpscSize) : Room wid cs ctx where
  memory ok hok := by
    rw [hmem] at hok
    cases hok
  link q := .empty (h wid q).1 (h wid q).2.1
  queue q _ := by
    have hq := hqueue q
    rw [(h wid q).2.2]
    unfold kMaxSendQueueDepth
    omega
  ring := hring

/-- HD peer 1 has rules to peers 3 and 2, which come later, and so does DERP peer 5. Peer 2 is on
the other worker. -/
def twoRules : List ShardStep :=
  [.add 3 (byteKey 1) .kHd 1, .setRule (byteKey 1) (byteKey 3), .setRule (byteKey 1) (byteKey 2),
    .add 4 (byteKey 3) .kHd 3, .add 5 (byteKey 2) .kHd 2, .add 6 (byteKey 5) .kDerp 0]

def dataFrame : Bytes := hdWriteFrameHeader .kData 1 ++ [7]

def fanoutMeets (s : Shards) : List Copy × List Copy × ℕ × Bool × Bool :=
  let peer := (s.ctx.workers 0).ht (homeSlot (byteKey 1))
  (ruleCopies s.ctx 0 (homeSlot (byteKey 1)) dataFrame,
    bridgedCopies s.ctx 0 (homeSlot (byteKey 1)) dataFrame, peer.fwdCount,
    decide (peer.fwd1Peer = none ∧ peer.fwd1DstFd < 0 ∧
      ∀ r < peer.fwdCount, (peer.fwd r).peer = none ∧ (peer.fwd r).dstFd < 0),
    decide ((s.ctx.workers 0).allocOracle = [] ∧ (s.ctx.workers 1).xferInbox 0 = []))

/-- The copies for the two destinations, and the bridged one. -/
def toTwo : List Copy :=
  [.queue (homeSlot (byteKey 3)) dataFrame,
    .ring 1 ⟨5, dataFrame, 1, some (.rule (byteKey 2) false)⟩]

def toDerp : List Copy := [.queue (homeSlot (byteKey 5)) (buildRecvPacket (byteKey 1) [7])]

theorem twoRules_ready : ∃ s, Runs.run Shards.step { ctx := twoWorkers } twoRules = some s ∧
    ruleCopies s.ctx 0 (homeSlot (byteKey 1)) dataFrame = toTwo ∧
    bridgedCopies s.ctx 0 (homeSlot (byteKey 1)) dataFrame = toDerp ∧
    ((s.ctx.workers 0).ht (homeSlot (byteKey 1))).fwdCount = 2 ∧
    Unresolved ((s.ctx.workers 0).ht (homeSlot (byteKey 1))) ∧ RoutesLead s.ctx 0 ∧
    Room 0 (toTwo ++ toDerp) s.ctx := by
  have hrun : (Runs.run Shards.step { ctx := twoWorkers } twoRules).map fanoutMeets =
      some (toTwo, toDerp, 2, true, true) := by
    decide +kernel
  obtain ⟨s, hs, hmeets⟩ := Option.map_eq_some_iff.mp hrun
  simp only [fanoutMeets, Prod.mk.injEq, decide_eq_true_eq] at hmeets
  obtain ⟨hrules, hbridged, hcount, ⟨hpeer, hfd, hrule⟩, hmem, hinbox⟩ := hmeets
  have hinit : Shards.Init { ctx := twoWorkers } := ⟨fun _ => rfl, by decide, fun _ => rfl⟩
  have hok : Runs.RunOk Shards.step settingUp { ctx := twoWorkers } twoRules :=
    Runs.runOk_of_forall (by simp [twoRules, settingUp]) _
  obtain ⟨hT, hidle⟩ := reach_settingUp (Runs.reach_run (.start _ hinit) hok hs)
  refine ⟨s, hs, hrules, hbridged, hcount, ⟨hpeer, hfd, hrule⟩, hT.routesLead 0,
    hidle.room hmem (fun q => ?_) fun v hv => ?_⟩
  · refine (List.length_filterMap_le _ _).trans ?_
    simp [toTwo, toDerp]
  · by_cases h1 : 1 = v
    · subst h1
      rw [hinbox]
      decide
    · simp [toTwo, toDerp, h1] at hv

theorem two_rules_fan_out :
    ∃ s, Runs.run Shards.step { ctx := twoWorkers } twoRules = some s ∧
      Placed 0 (toTwo ++ toDerp) s.ctx
        (dispatchHdFrame s.ctx 0 (homeSlot (byteKey 1)) dataFrame) := by
  obtain ⟨s, hs, hrules, hbridged, hcount, hu, hl, hr⟩ := twoRules_ready
  rw [← hrules, ← hbridged] at hr
  have h := (data_fanout (by decide) (by omega) hu hl hr).1
  rw [hrules, hbridged] at h
  exact ⟨s, hs, h⟩

/-- The DERP peer, which no rule names, gets a copy. -/
theorem not_rules_only :
    ¬∀ (ctx : Ctx) (wid : ℕ) (p : Slot) (frame : Bytes), hdReadFrameType frame = .kData →
      1 ≤ ((ctx.workers wid).ht p).fwdCount → Unresolved ((ctx.workers wid).ht p) →
      RoutesLead ctx wid →
      Room wid (ruleCopies ctx wid p frame ++ bridgedCopies ctx wid p frame) ctx →
      Placed wid (ruleCopies ctx wid p frame) ctx (dispatchHdFrame ctx wid p frame) := by
  intro hall
  obtain ⟨s, -, hrules, hbridged, hcount, hu, hl, hr⟩ := twoRules_ready
  rw [← hrules, ← hbridged] at hr
  have hdata : hdReadFrameType dataFrame = .kData := by decide
  have honly := (hall s.ctx 0 (homeSlot (byteKey 1)) dataFrame hdata (by omega) hu hl hr).queue 0
    (homeSlot (byteKey 5))
  have hboth := ((forwardHdData_places hl hu (by omega)).placed hr).queue 0 (homeSlot (byteKey 5))
  rw [dispatchHdFrame_data hdata, if_neg (by omega), hboth, if_pos rfl, if_pos rfl, hrules,
    hbridged, List.append_cancel_left_eq] at honly
  exact absurd honly (by decide)

end HyperDerp
