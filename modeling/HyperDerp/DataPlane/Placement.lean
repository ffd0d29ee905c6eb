import HyperDerp.DataPlane.Pressure

/-!
# Where dispatching puts copies of a frame

While memory lasts and there is room on the queues and rings concerned, what a
worker does with a frame comes down to the list of copies it places: each goes
to the end of a send queue of the worker or of its ring to another worker.
-/

namespace HyperDerp

/-! ### Copies -/

inductive Copy where
  | queue (q : Slot) (data : Bytes)
  | ring (dst : ℕ) (x : Xfer)
  deriving DecidableEq

namespace Copy

def onQueue (q : Slot) : Copy → Option Bytes
  | queue q' data => if q' = q then some data else none
  | ring .. => none

def onRing (v : ℕ) : Copy → Option Xfer
  | ring dst x => if dst = v then some x else none
  | queue .. => none

/-- The copies of the list for a queue and for a ring, in order. -/
def forQueue (q : Slot) (cs : List Copy) : List Bytes := cs.filterMap (onQueue q)
def forRing (v : ℕ) (cs : List Copy) : List Xfer := cs.filterMap (onRing v)

variable {q a : Slot} {v u : ℕ} {cs ds : List Copy} {data : Bytes} {x : Xfer}

@[simp] theorem forQueue_nil : forQueue q [] = [] := rfl
@[simp] theorem forRing_nil : forRing v [] = [] := rfl

@[simp] theorem forQueue_append : forQueue q (cs ++ ds) = forQueue q cs ++ forQueue q ds :=
  List.filterMap_append ..

@[simp] theorem forRing_append : forRing v (cs ++ ds) = forRing v cs ++ forRing v ds :=
  List.filterMap_append ..

@[simp] theorem forQueue_queue :
    forQueue a (queue q data :: cs) = (if q = a then [data] else []) ++ forQueue a cs := by
  by_cases h : q = a <;> simp [forQueue, onQueue, h]

@[simp] theorem forQueue_ring : forQueue a (ring v x :: cs) = forQueue a cs := rfl

@[simp] theorem forRing_queue : forRing v (queue q data :: cs) = forRing v cs := rfl

@[simp] theorem forRing_ring :
    forRing u (ring v x :: cs) = (if v = u then [x] else []) ++ forRing u cs := by
  by_cases h : v = u <;> simp [forRing, onRing, h]

end Copy

def queuedData (w : Worker) (q : Slot) : List Bytes := (w.ht q).send.queue.map SendItem.data

/-- Worker `wid` has placed the copies. -/
structure Placed (wid : ℕ) (cs : List Copy) (ctx ctx' : Ctx) : Prop where
  queue : ∀ v q, queuedData (ctx'.workers v) q =
    queuedData (ctx.workers v) q ++ if v = wid then Copy.forQueue q cs else []
  ring : ∀ v src, (ctx'.workers v).xferInbox src =
    (ctx.workers v).xferInbox src ++ if src = wid then Copy.forRing v cs else []

theorem Placed.append_iff {wid : ℕ} {cs ds : List Copy} {ctx ctx' : Ctx}
    (h : Placed wid (cs ++ ds) ctx ctx') : Placed wid cs ctx ctx' ↔ ds = [] := by
  constructor
  · intro hcs
    have hqueue : ∀ q, Copy.forQueue q ds = [] := by
      intro q
      have hq := h.queue wid q
      rw [hcs.queue wid q, if_pos rfl, if_pos rfl, Copy.forQueue_append] at hq
      simpa using hq
    have hring : ∀ v, Copy.forRing v ds = [] := by
      intro v
      have hv := h.ring v wid
      rw [hcs.ring v wid, if_pos rfl, if_pos rfl, Copy.forRing_append] at hv
      simpa using hv
    cases ds with
    | nil => rfl
    | cons d ds =>
      cases d with
      | queue q data =>
        have hq := hqueue q
        simp at hq
      | ring v x =>
        have hv := hring v
        simp at hv
  · rintro rfl
    rwa [List.append_nil] at h

/-- Memory for everything, sound queues, and room for the copies where they go. -/
structure Room (wid : ℕ) (cs : List Copy) (ctx : Ctx) : Prop where
  memory : ∀ ok ∈ (ctx.workers wid).allocOracle, ok = true
  link : ∀ q, ((ctx.workers wid).ht q).send.Linkage (ctx.workers wid).nextItem
  queue : ∀ q, Copy.forQueue q cs ≠ [] →
    ((ctx.workers wid).ht q).send.queued + (Copy.forQueue q cs).length ≤ kMaxSendQueueDepth
  ring : ∀ v, Copy.forRing v cs ≠ [] →
    ((ctx.workers v).xferInbox wid).length + (Copy.forRing v cs).length < kXferSpscSize

def Places (wid : ℕ) (cs : List Copy) (ctx ctx' : Ctx) : Prop :=
  ∀ ds, Room wid (cs ++ ds) ctx → Placed wid cs ctx ctx' ∧ Room wid ds ctx'

variable {wid : ℕ} {cs ds : List Copy} {ctx ctx1 ctx2 : Ctx}

theorem Placed.refl (wid : ℕ) (ctx : Ctx) : Placed wid [] ctx ctx := by
  constructor <;> simp

theorem Placed.trans (h1 : Placed wid cs ctx ctx1) (h2 : Placed wid ds ctx1 ctx2) :
    Placed wid (cs ++ ds) ctx ctx2 where
  queue v q := by
    rw [h2.queue, h1.queue, List.append_assoc]
    split <;> simp
  ring v src := by
    rw [h2.ring, h1.ring, List.append_assoc]
    split <;> simp

theorem Places.refl (wid : ℕ) (ctx : Ctx) : Places wid [] ctx ctx :=
  fun _ hr => ⟨.refl wid ctx, hr⟩

theorem Places.trans (h1 : Places wid cs ctx ctx1) (h2 : Places wid ds ctx1 ctx2) :
    Places wid (cs ++ ds) ctx ctx2 := by
  intro es hr
  rw [List.append_assoc] at hr
  obtain ⟨hp1, hr1⟩ := h1 _ hr
  obtain ⟨hp2, hr2⟩ := h2 _ hr1
  exact ⟨hp1.trans hp2, hr2⟩

theorem Places.placed (h : Places wid cs ctx ctx1) (hr : Room wid cs ctx) :
    Placed wid cs ctx ctx1 :=
  (h [] (by rwa [List.append_nil])).1

/-! ### One copy on a queue -/

theorem submitNext_allocOracle (w : Worker) (p : Slot) :
    (submitNext w p).2.allocOracle = w.allocOracle := by
  unfold submitNext
  dsimp only
  split
  · rfl
  split
  · rfl
  · next item _ =>
    obtain ⟨ok, io, heq, -⟩ := submitPeerSend_cases w p item (nodeNext (w.ht p).send.queue _).isSome
    rw [heq]
    cases ok <;> rfl

theorem kickSend_allocOracle (w : Worker) (p : Slot) :
    (kickSend w p).allocOracle = w.allocOracle := by
  unfold kickSend
  dsimp only
  split
  · split <;> rfl
  split
  · exact submitNext_allocOracle w p
  · rfl

theorem pauseRecv_ht (w : Worker) : (pauseRecv w).ht = w.ht := by
  unfold pauseRecv
  split <;> rfl

theorem pauseRecv_nextItem (w : Worker) : (pauseRecv w).nextItem = w.nextItem := by
  unfold pauseRecv
  split <;> rfl

theorem pauseRecv_allocOracle (w : Worker) : (pauseRecv w).allocOracle = w.allocOracle := by
  unfold pauseRecv
  split <;> rfl

theorem alloc_of_memory {w : Worker} (h : ∀ ok ∈ w.allocOracle, ok = true) :
    w.alloc.1 = true ∧ ∀ ok ∈ w.alloc.2.allocOracle, ok = true := by
  unfold Worker.alloc
  split
  · exact ⟨rfl, h⟩
  · next b rest ha =>
    rw [ha] at h
    exact ⟨h b List.mem_cons_self, fun ok hok => h ok (List.mem_cons_of_mem b hok)⟩

structure Enqueued (p : Slot) (data : Bytes) (w w' : Worker) : Prop where
  queue : (w'.ht p).send.queue = (w.ht p).send.queue ++ [⟨w.nextItem, data⟩]
  queued : (w'.ht p).send.queued = (w.ht p).send.queued + 1
  other : ∀ q, q ≠ p → (w.ht q).send.SameQueue (w'.ht q).send
  link : ∀ q, (w'.ht q).send.Linkage w'.nextItem
  memory : ∀ ok ∈ w'.allocOracle, ok = true

theorem enqueueSend_enqueued {w : Worker} {p : Slot}
    (hroom : (w.ht p).send.queued < kMaxSendQueueDepth) (hmem : ∀ ok ∈ w.allocOracle, ok = true)
    (hlink : ∀ q, (w.ht q).send.Linkage w.nextItem) (data : Bytes) :
    Enqueued p data w (enqueueSend w p data) := by
  obtain ⟨hok, hmem1⟩ := alloc_of_memory hmem
  have hsame := SameLoad.alloc w
  unfold enqueueSend
  rw [if_neg (by omega)]
  rcases hal : w.alloc with ⟨ok, w1⟩
  rw [hal] at hok hmem1 hsame
  dsimp only at hok hmem1 hsame
  subst hok
  dsimp only
  have hpush := (pushItem_pushed w1 p data).then_same (.kickSend _ p)
  obtain ⟨hq, -, -⟩ := kickSend_queue (pushItem w1 p data) p
  have hao := kickSend_allocOracle (pushItem w1 p data) p
  have hself : ((pushItem w1 p data).ht p).send = (w1.ht p).send.push ⟨w1.nextItem, data⟩ :=
    Worker.setSend_self w1 p _
  generalize kickSend (pushItem w1 p data) p = w2 at hpush hq hao
  have hqueue : (w2.ht p).send.queue = (w.ht p).send.queue ++ [⟨w.nextItem, data⟩] := by
    rw [hq, hself, SendState.Linkage.push_queue (n := w1.nextItem), (hsame.send p).queue,
      hsame.nextItem]
    rw [hsame.nextItem]
    exact (hlink p).congr (hsame.send p).queue (hsame.send p).tail
  have hnext : w2.nextItem = w.nextItem + 1 := by rw [hpush.nextItem, hsame.nextItem]
  constructor
  · rw [pauseRecv_ht, hqueue]
  · rw [pauseRecv_ht, hpush.queued, (hsame.send p).queued]
  · intro q hne
    rw [pauseRecv_ht]
    exact (hsame.send q).trans (hpush.other q hne)
  · intro q
    rw [pauseRecv_ht, pauseRecv_nextItem, hnext]
    by_cases hqp : q = p
    · subst hqp
      refine ((hlink q).push data).congr ?_ ?_
      · rw [hqueue, (hlink q).push_queue]
      · rw [hpush.tail, hsame.nextItem]
        rfl
    · have ho := (hsame.send q).trans (hpush.other q hqp)
      exact ((hlink q).congr ho.queue ho.tail).mono (Nat.le_succ _)
  · rw [pauseRecv_allocOracle, hao]
    exact hmem1

/-! ### Elementary placements -/

theorem setWorker_placed {w : Worker} (hr : Room wid (cs ++ ds) ctx)
    (hcs : ∀ v, Copy.forRing v cs = [])
    (hdata : ∀ q, queuedData w q = queuedData (ctx.workers wid) q ++ Copy.forQueue q cs)
    (hqueued : ∀ q, (w.ht q).send.queued =
      ((ctx.workers wid).ht q).send.queued + (Copy.forQueue q cs).length)
    (hlink : ∀ q, (w.ht q).send.Linkage w.nextItem) (hmem : ∀ ok ∈ w.allocOracle, ok = true)
    (hinbox : w.xferInbox = (ctx.workers wid).xferInbox) :
    Placed wid cs ctx (ctx.setWorker wid w) ∧ Room wid ds (ctx.setWorker wid w) := by
  refine ⟨⟨fun v q => ?_, fun v src => ?_⟩, ⟨?_, fun q => ?_, fun q hne => ?_, fun v hne => ?_⟩⟩
  · by_cases hv : v = wid
    · subst hv
      rw [Ctx.setWorker_self, if_pos rfl]
      exact hdata q
    · rw [Ctx.setWorker_ne _ _ hv, if_neg hv, List.append_nil]
  · rw [setWorker_inbox hinbox, hcs v, ite_self, List.append_nil]
  · rw [Ctx.setWorker_self]
    exact hmem
  · rw [Ctx.setWorker_self]
    exact hlink q
  · have hroom := hr.queue q (by simp [hne])
    rw [Copy.forQueue_append, List.length_append] at hroom
    have hq := hqueued q
    rw [Ctx.setWorker_self]
    omega
  · have hroom := hr.ring v (by simp [hne])
    rw [Copy.forRing_append, hcs v, List.nil_append] at hroom
    rw [setWorker_inbox hinbox]
    exact hroom

theorem Enqueued.queuedData {w w' : Worker} {p : Slot} {data : Bytes} (h : Enqueued p data w w')
    (q : Slot) : queuedData w' q = queuedData w q ++ Copy.forQueue q [.queue p data] := by
  rw [HyperDerp.queuedData, HyperDerp.queuedData, Copy.forQueue_queue, Copy.forQueue_nil,
    List.append_nil]
  by_cases hq : p = q
  · subst hq
    simp [h.queue]
  · rw [(h.other q (Ne.symm hq)).queue, if_neg hq, List.append_nil]

theorem enqueueSend_places (wid : ℕ) (ctx : Ctx) (p : Slot) (data : Bytes) :
    Places wid [.queue p data] ctx (ctx.setWorker wid (enqueueSend (ctx.workers wid) p data)) := by
  intro ds hr
  have hroom := hr.queue p (by simp)
  have hacc := enqueueSend_enqueued (w := ctx.workers wid) (p := p)
    (by simp at hroom; omega) hr.memory hr.link data
  refine setWorker_placed hr (fun _ => rfl) hacc.queuedData (fun q => ?_) hacc.link hacc.memory
    (enqueueSend_inbox _ p data)
  by_cases hq : p = q
  · subst hq
    simp [hacc.queued]
  · simp [(hacc.other q (Ne.symm hq)).queued, hq]

theorem same_places {w : Worker} (hs : SameLoad (ctx.workers wid) w)
    (hmem : ∀ ok ∈ w.allocOracle, ok ∈ (ctx.workers wid).allocOracle)
    (hinbox : w.xferInbox = (ctx.workers wid).xferInbox) :
    Places wid [] ctx (ctx.setWorker wid w) := by
  intro ds hr
  refine setWorker_placed hr (fun _ => rfl) (fun q => ?_) (fun q => ?_) (fun q => ?_)
    (fun ok hok => hr.memory ok (hmem ok hok)) hinbox
  · simp [queuedData, (hs.send q).queue]
  · simp [(hs.send q).queued]
  · rw [hs.nextItem]
    exact (hr.link q).congr (hs.send q).queue (hs.send q).tail

theorem setPeer_places (wid : ℕ) (ctx : Ctx) {p : Slot} {peer : Peer}
    (hsend : peer.send = ((ctx.workers wid).ht p).send)
    (hocc : peer.occupied = ((ctx.workers wid).ht p).occupied) :
    Places wid [] ctx (ctx.setWorker wid ((ctx.workers wid).setPeer p peer)) := by
  refine same_places ⟨fun q => ?_, fun q => ?_, rfl, rfl, rfl, rfl, rfl⟩ (fun _ hok => hok) rfl
  · by_cases hq : q = p
    · subst hq
      rw [Worker.setPeer_self, hsend]
      exact .refl _
    · rw [Worker.setPeer_ne _ _ hq]
      exact .refl _
  · by_cases hq : q = p
    · subst hq
      rw [Worker.setPeer_self, hocc]
    · rw [Worker.setPeer_ne _ _ hq]

theorem frameAlloc_places (hr : Room wid cs ctx) :
    (frameAlloc ctx wid).1 = true ∧ Places wid [] ctx (frameAlloc ctx wid).2 := by
  refine ⟨(alloc_of_memory hr.memory).1, same_places (.alloc _) (fun ok hok => ?_) ?_⟩
  · unfold Worker.alloc at hok
    split at hok
    · exact hok
    · next b rest ha =>
      rw [ha]
      exact List.mem_cons_of_mem b hok
  · rw [alloc_eq]

theorem setWorker_proj {A : Type} (f : Worker → A) {u : ℕ} {w : Worker}
    (h : f w = f (ctx.workers u)) (v : ℕ) : f ((ctx.setWorker u w).workers v) =
      f (ctx.workers v) := by
  by_cases hv : v = u
  · subst hv
    rw [Ctx.setWorker_self, h]
  · rw [Ctx.setWorker_ne _ _ hv]

theorem processCmdAdd_cmdRing {ctx : Ctx} {wid : ℕ} (hT : TableOk (ctx.workers wid)) (fd : Fd)
    (key : Key) (proto : PeerProtocol) (peerId u : ℕ) :
    ((processCmdAdd ctx wid fd key proto peerId).workers u).cmdRing =
      (ctx.workers u).cmdRing := by
  rcases processCmdAdd_record hT fd key proto peerId with ⟨ao, heq⟩ | ⟨p, -, -, hadd, hothers⟩
  · rw [heq, setWorker_proj Worker.cmdRing (by rfl)]
  · by_cases hu : u = wid
    · subst hu
      obtain ⟨isUnix, ok, ao, routes, io, heq⟩ := hadd.eq
      rw [heq]
    · obtain ⟨routes, hr⟩ := hothers u hu
      rw [hr]

theorem xferSpscPush_proj {A : Type} (f : Worker → A)
    (hf : ∀ (w : Worker) inbox sources stats pressure signals, f { w with
      xferInbox := inbox, pendingSources := sources, stats := stats, sendPressure := pressure
      xferSignalPending := signals } = f w) (ctx : Ctx) (wid dst : ℕ) (x : Xfer) (v : ℕ) :
    f ((xferSpscPush ctx wid dst x).workers v) = f (ctx.workers v) := by
  unfold xferSpscPush Ctx.onWorker
  dsimp only
  split
  · exact setWorker_proj f (hf _ _ _ _ _ _) v
  · split
    · exact (setWorker_proj f (hf _ _ _ _ _ _) v).trans (setWorker_proj f (hf _ _ _ _ _ _) v)
    · exact setWorker_proj f (hf _ _ _ _ _ _) v

theorem xferSpscPush_inbox {dst : ℕ}
    (h : ((ctx.workers dst).xferInbox wid).length + 1 ≠ kXferSpscSize) (x : Xfer) (v src : ℕ) :
    ((xferSpscPush ctx wid dst x).workers v).xferInbox src =
      (ctx.workers v).xferInbox src ++ if v = dst ∧ src = wid then [x] else [] := by
  have hbase : ∀ w : Worker, w.xferInbox = Function.update (ctx.workers dst).xferInbox wid
        ((ctx.workers dst).xferInbox wid ++ [x]) →
      ((ctx.setWorker dst w).workers v).xferInbox src =
        (ctx.workers v).xferInbox src ++ if v = dst ∧ src = wid then [x] else [] := by
    intro w hw
    by_cases hv : v = dst
    · subst hv
      rw [Ctx.setWorker_self, hw]
      by_cases hs : src = wid
      · subst hs
        simp
      · simp [hs]
    · rw [Ctx.setWorker_ne _ _ hv]
      simp [hv]
  unfold xferSpscPush Ctx.onWorker
  dsimp only
  rw [if_neg h]
  split
  · rw [setWorker_inbox]
    · exact hbase _ rfl
    · rfl
  · exact hbase _ rfl

theorem frameAlloc_core (ctx : Ctx) (wid : ℕ) : (frameAlloc ctx wid).2.core = ctx.core :=
  Effs.core (frameAlloc_effs ctx : Effs wid 0 (fun _ _ => False) (fun _ _ => False) ctx _)

theorem xferSpscPush_places (wid : ℕ) (ctx : Ctx) (dst : ℕ) (x : Xfer) :
    Places wid [.ring dst x] ctx (xferSpscPush ctx wid dst x) := by
  intro ds hr
  have hroom := hr.ring dst (by simp)
  simp only [Copy.forRing_append, Copy.forRing_ring, if_true, Copy.forRing_nil, List.append_nil,
    List.length_append, List.length_singleton] at hroom
  have hht := xferSpscPush_ht ctx wid dst x
  have hfree : ((ctx.workers dst).xferInbox wid).length + 1 ≠ kXferSpscSize := by omega
  have hinbox := xferSpscPush_inbox hfree x
  refine ⟨⟨fun v q => ?_, fun v src => ?_⟩, ⟨?_, fun q => ?_, fun q hne => ?_, fun v hne => ?_⟩⟩
  · simp [queuedData, hht]
  · rw [hinbox]
    by_cases hs : src = wid <;> simp [hs, eq_comm]
  · rw [xferSpscPush_proj Worker.allocOracle (fun _ _ _ _ _ _ => rfl)]
    exact hr.memory
  · rw [hht, xferSpscPush_proj Worker.nextItem (fun _ _ _ _ _ _ => rfl)]
    exact hr.link q
  · rw [hht]
    simpa using hr.queue q (by simpa using hne)
  · have hv := hr.ring v (by simp [hne])
    simp only [Copy.forRing_append, Copy.forRing_ring, Copy.forRing_nil, List.append_nil,
      List.length_append] at hv
    rw [hinbox, List.length_append]
    by_cases hd : v = dst
    · subst hd
      simp only [if_true, List.length_singleton, and_self] at hv ⊢
      omega
    · rw [if_neg (Ne.symm hd)] at hv
      simpa [hd] using hv

theorem stats_places (wid : ℕ) (ctx : Ctx) (stats : WorkerStats → WorkerStats) :
    Places wid [] ctx (ctx.onWorker wid fun w => { w with stats := stats w.stats }) :=
  same_places ⟨fun _ => .refl _, fun _ => rfl, rfl, rfl, rfl, rfl, rfl⟩ (fun _ hok => hok) rfl

theorem allocEnqueue_places (wid : ℕ) (ctx : Ctx) (q : Slot) (data : Bytes) :
    Places wid [.queue q data] ctx (ctx.onWorker wid fun w => allocEnqueue w q data) := by
  intro ds hr
  obtain ⟨hok, halloc⟩ := frameAlloc_places hr
  rw [frameAlloc] at hok halloc
  have hsend := enqueueSend_places wid (ctx.setWorker wid (ctx.workers wid).alloc.2) q data
  rw [Ctx.setWorker_self, setWorker_setWorker] at hsend
  rw [Ctx.onWorker, allocEnqueue]
  rcases hal : (ctx.workers wid).alloc with ⟨ok, w1⟩
  rw [hal] at hok halloc hsend
  dsimp only at hok halloc hsend
  subst hok
  exact (halloc.trans hsend) ds hr

/-! ### Empty queues -/

def Idle (ctx : Ctx) : Prop :=
  ∀ v q, ((ctx.workers v).ht q).send.queue = [] ∧ ((ctx.workers v).ht q).send.tail = none ∧
    ((ctx.workers v).ht q).send.queued = 0

theorem Idle.add {ctx : Ctx} (h : Idle ctx) {u : ℕ} (hT : TableOk (ctx.workers u)) (fd : Fd)
    (key : Key) (protocol : PeerProtocol) (peerId : ℕ) :
    Idle (processCmdAdd ctx u fd key protocol peerId) := by
  intro v q
  rcases processCmdAdd_record hT fd key protocol peerId with ⟨ao, heq⟩ | ⟨p, -, -, hadd, hothers⟩
  · rw [heq, setWorker_proj Worker.ht (by rfl)]
    exact h v q
  · by_cases hv : v = u
    · subst hv
      have hload := hadd.load
      by_cases hq : q = p
      · rw [hq]
        exact hload.send
      · rw [hload.other q hq]
        exact h v q
    · obtain ⟨routes, hr⟩ := hothers v hv
      rw [hr]
      exact h v q

theorem Idle.setFwdRule {ctx : Ctx} (h : Idle ctx) (u : ℕ) (key dstKey : Key) :
    Idle (setFwdRule ctx u key dstKey) := by
  have hsend : ∀ v q, (((HyperDerp.setFwdRule ctx u key dstKey).workers v).ht q).send =
      ((ctx.workers v).ht q).send := by
    intro v q
    unfold HyperDerp.setFwdRule
    dsimp only
    split
    · rfl
    · next p _ =>
      split
      · rfl
      · refine setWorker_proj (fun w => (w.ht q).send) ?_ v
        obtain ⟨a, b, c, d, e, heq⟩ := addRule_same (ctx.workers u) p dstKey
        by_cases hq : q = p
        · subst hq
          rw [Worker.setPeer_self, heq]
        · rw [Worker.setPeer_ne _ _ hq]
  intro v q
  rw [hsend]
  exact h v q

end HyperDerp
