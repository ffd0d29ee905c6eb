import HyperDerp.DataPlane.Effects

/-!
# Worker commands and cross-shard inboxes (`data_plane.cc:2038-2240`)

What a worker does with the commands of the control plane and with transfers
from other workers. The ring of a source is drained item by item; an item is
delivered to the peer registered under its fd if the fd's generation is still
the one the source read.
-/

namespace HyperDerp

/-! ### `ProcessCmdAdd` -/

/-- Register the peer id for MeshData routing (`data_plane.cc:2055-2065`). -/
def setPeerId (w : Worker) (protocol : PeerProtocol) (peerId : ℕ) (p : Slot) : Worker :=
  if protocol = .kHd ∧ 0 < peerId then
    match w.peerIdMap with
    | some m => { w with peerIdMap := some (Function.update m peerId (some p)) }
    | none =>
      match w.alloc with
      | (false, w) => w
      | (true, w) =>
        { w with peerIdMap := some (Function.update (fun _ => none) peerId (some p)) }
  else w

/-- The slot's entries for the new connection (`data_plane.cc:2049-2065`). The
generation is a 32-bit counter. -/
def registerPeer (w : Worker) (p : Slot) (fd : Fd) (protocol : PeerProtocol) (peerId : ℕ)
    (isUnix : Bool) : Worker :=
  let peer := w.ht p
  let send := { peer.send with noZc := isUnix || peer.send.noZc }
  let w := w.setPeer p { peer with protocol := protocol, peerId := peerId, send := send }
  setPeerId
    { w with
      fdMap := Function.update w.fdMap fd (some p)
      fdGen := Function.update w.fdGen fd ((w.fdGen fd + 1) % 2 ^ 32)
      peerCount := w.peerCount + 1 }
    protocol peerId p

/-- `ProcessCmdAdd` (`data_plane.cc:2040-2099`). -/
def processCmdAdd (ctx : Ctx) (wid : ℕ) (fd : Fd) (key : Key) (protocol : PeerProtocol)
    (peerId : ℕ) : Ctx :=
  if !validFd fd then ctx
  else
    let w := (htInsert (ctx.workers wid) fd key).2
    match htLookup w key with
    | none => ctx.setWorker wid w
    | some p =>
      let ctx := ctx.setWorker wid (registerPeer w p fd protocol peerId (ctx.isUnix fd))
      (broadcastRouteAdd ctx key wid fd).onWorker wid fun w => submitRecv w fd

/-! ### `ProcessCmdRemove` and the other commands -/

def unregisterPeer (w : Worker) (p : Slot) : Worker :=
  let peer := w.ht p
  let w :=
    if 0 < peer.peerId then
      { w with peerIdMap := w.peerIdMap.map fun m => Function.update m peer.peerId none }
    else w
  if validFd peer.fd then { w with fdMap := Function.update w.fdMap peer.fd none } else w

/-- `ProcessCmdRemove` (`data_plane.cc:2101-2122`), with the fd it closes. -/
def processCmdRemove (ctx : Ctx) (wid : ℕ) (key : Key) : Ctx × Option Fd :=
  let w := ctx.workers wid
  match htLookup w key with
  | none => (ctx, none)
  | some p =>
    let fd := (w.ht p).fd
    (broadcastRouteRemove (ctx.setWorker wid (htRemove (unregisterPeer w p) key)) key,
      if validFd fd then some fd else none)

/-- `ProcessCmdWrite` (`data_plane.cc:2124-2140`): the data is sent as it is. -/
def processCmdWrite (ctx : Ctx) (wid : ℕ) (key : Key) (data : Bytes) : Ctx :=
  match htLookup (ctx.workers wid) key with
  | none => ctx
  | some p => ctx.onWorker wid fun w => allocEnqueue w p data

def Peer.addRule (peer : Peer) (dstKey : Key) (dst : Option Slot) (route : Option Route) : Peer :=
  let idx := peer.fwdCount
  let rule := { peer.fwd idx with key := dstKey, peer := dst }
  let rule :=
    match dst, route with
    | none, some rt => { rule with dstWorker := rt.workerId, dstFd := rt.fd }
    | _, _ => rule
  let peer := { peer with fwd := Function.update peer.fwd idx rule, fwdCount := idx + 1 }
  if idx = 0 then
    match dst with
    | some _ => { peer with fwd1Peer := dst }
    | none => { peer with
        fwd1Peer := none, fwd1DstFd := rule.dstFd, fwd1DstWorker := rule.dstWorker }
  else peer

/-- `kCmdSetFwdRule` (`data_plane.cc:2156-2184`). -/
def setFwdRule (ctx : Ctx) (wid : ℕ) (key dstKey : Key) : Ctx :=
  let w := ctx.workers wid
  match htLookup w key with
  | none => ctx
  | some p =>
    if kMaxPeerRules ≤ (w.ht p).fwdCount then ctx
    else
      ctx.setWorker wid (w.setPeer p ((w.ht p).addRule dstKey (htLookup w dstKey)
        ((routeLookup w.routes dstKey).map w.routes)))

/-- `kCmdMovePeerOut` (`data_plane.cc:2185-2206`): the peer count goes down
twice, here and in `HtRemove`; routes stay. -/
def movePeerOut (ctx : Ctx) (wid : ℕ) (key : Key) : Ctx :=
  let w := ctx.workers wid
  match htLookup w key with
  | none => ctx
  | some p =>
    let w := htRemove (unregisterPeer w p) key
    ctx.setWorker wid
      { w with peerCount := if 0 < w.peerCount then w.peerCount - 1 else w.peerCount }

def processCmd (ctx : Ctx) (wid : ℕ) : Cmd → Ctx × Option Fd
  | .addPeer fd key protocol peerId => (processCmdAdd ctx wid fd key protocol peerId, none)
  | .removePeer key => processCmdRemove ctx wid key
  | .write key data => (processCmdWrite ctx wid key data, none)
  | .setFwdRule key dstKey => (setFwdRule ctx wid key dstKey, none)
  | .movePeerOut key => (movePeerOut ctx wid key, none)
  | .stop => (ctx.onWorker wid fun w => { w with running := false }, none)

/-- One turn of `ProcessCommands`: pop and process. -/
def popCmd (ctx : Ctx) (wid : ℕ) : Option (Ctx × Option Fd) :=
  match (ctx.workers wid).cmdRing with
  | [] => none
  | cmd :: rest =>
    some (processCmd (ctx.onWorker wid fun w => { w with cmdRing := rest }) wid cmd)

/-- `EnqueueCmd` (`data_plane.cc:623-635`); a ring that stays full loses the
command. -/
def enqueueCmd (ctx : Ctx) (wid : ℕ) (cmd : Cmd) : Ctx :=
  ctx.onWorker wid fun w =>
    if w.cmdRing.length + 1 = kCmdRingSize then w else { w with cmdRing := w.cmdRing ++ [cmd] }

def dpAddPeer (ctx : Ctx) (fd : Fd) (key : Key) (protocol : PeerProtocol) (peerId : ℕ) : Ctx :=
  enqueueCmd ctx (peerWorker ctx.numWorkers key) (.addPeer fd key protocol peerId)

def dpRemovePeer (ctx : Ctx) (key : Key) : Ctx :=
  enqueueCmd ctx (peerWorker ctx.numWorkers key) (.removePeer key)

def dpWrite (ctx : Ctx) (key : Key) (data : Bytes) : Ctx :=
  enqueueCmd ctx (peerWorker ctx.numWorkers key) (.write key data)

/-! ### `ProcessXfer` -/

def xferTarget (w : Worker) (x : Xfer) : Option Slot :=
  if validFd x.dstFd then
    (w.fdMap x.dstFd).filter fun _ => x.dstGen = w.fdGen x.dstFd
  else none

/-- One item of `ProcessXfer` (`data_plane.cc:2226-2238`). -/
def xferDeliver (w : Worker) (x : Xfer) : Worker :=
  match xferTarget w x with
  | none => w
  | some p => enqueueSend w p x.frame

/-- `XferSpscPop` and delivery of the item. -/
def popXfer (ctx : Ctx) (wid src : ℕ) : Option Ctx :=
  let w := ctx.workers wid
  match w.xferInbox src with
  | [] => none
  | x :: rest =>
    some (ctx.setWorker wid
      (xferDeliver { w with xferInbox := Function.update w.xferInbox src rest } x))

/-- `ProcessXfer` (`data_plane.cc:2217-2240`): drain the inboxes marked pending. -/
def processXfer (w : Worker) : Worker :=
  (List.range kMaxWorkers).foldl
    (fun w' src =>
      if w.pendingSources src then
        (w'.xferInbox src).foldl xferDeliver
          { w' with xferInbox := Function.update w'.xferInbox src [] }
      else w')
    { w with pendingSources := fun _ => false }

variable {w w' : Worker} {fd : Fd} {ctx : Ctx} {wid : ℕ} {key : Key} {p : Slot}

theorem xferTarget_some {x : Xfer} {q : Slot} :
    xferTarget w x = some q ↔
      validFd x.dstFd = true ∧ w.fdMap x.dstFd = some q ∧ x.dstGen = w.fdGen x.dstFd := by
  unfold xferTarget
  split
  · next hv => simp [Option.filter_eq_some_iff, hv]
  · next hv => simp [hv]

/-! ### Completions -/

/-- Replace the send state and the receive buffer of one peer, with the
accounting around them, by those of `w0`: whatever completions, flushes and
reassembly do. -/
def Worker.withIoPath (w : Worker) (q : Slot) (w0 : Worker) : Worker :=
  { w.setPeer q { w.ht q with
      send := (w0.ht q).send, rbuf := (w0.ht q).rbuf
      recvBytesWindow := (w0.ht q).recvBytesWindow, windowStartNs := (w0.ht q).windowStartNs } with
    io := w0.io, pendingFds := w0.pendingFds, notifMap := w0.notifMap
    allocOracle := w0.allocOracle, nextItem := w0.nextItem, sendPressure := w0.sendPressure
    stats := w0.stats, xferSignalPending := w0.xferSignalPending }

theorem addRule_same (w : Worker) (p : Slot) (dstKey : Key) :
    ∃ fwdCount fwd1DstFd fwd1DstWorker fwd1Peer fwd, (w.ht p).addRule dstKey (htLookup w dstKey)
        ((routeLookup w.routes dstKey).map w.routes) =
      { w.ht p with
        fwdCount := fwdCount, fwd1DstFd := fwd1DstFd, fwd1DstWorker := fwd1DstWorker
        fwd1Peer := fwd1Peer, fwd := fwd } := by
  unfold Peer.addRule
  dsimp only
  split
  · split <;> exact ⟨_, _, _, _, _, rfl⟩
  · exact ⟨_, _, _, _, _, rfl⟩

/-! ### What adding and removing a peer changes, worker by worker -/

theorem processCmdAdd_invalid (hv : validFd fd = false) (ctx : Ctx) (wid : ℕ) (key : Key)
    (proto : PeerProtocol) (peerId : ℕ) : processCmdAdd ctx wid fd key proto peerId = ctx := by
  unfold processCmdAdd
  rw [hv]
  rfl

theorem processCmdAdd_unregistered (hv : validFd fd = true)
    (h : htLookup (htInsert (ctx.workers wid) fd key).2 key = none) (proto : PeerProtocol)
    (peerId : ℕ) :
    processCmdAdd ctx wid fd key proto peerId =
      ctx.setWorker wid (htInsert (ctx.workers wid) fd key).2 := by
  unfold processCmdAdd
  simp only [hv, Bool.not_true, Bool.false_eq_true, ite_false, h]

/-- Routes of worker `u` after a broadcast over `num` workers. -/
def routesAfter (num u : ℕ) (f : (Slot → Route) → Slot → Route) (routes : Slot → Route) :
    Slot → Route :=
  if u < num then f routes else routes

theorem processCmdAdd_workers (proto : PeerProtocol) (peerId : ℕ) (hv : validFd fd = true)
    (hp : htLookup (htInsert (ctx.workers wid) fd key).2 key = some p) (u : ℕ) :
    ∃ io, (processCmdAdd ctx wid fd key proto peerId).workers u =
      { (if u = wid then registerPeer (htInsert (ctx.workers wid) fd key).2 p fd proto peerId
            (ctx.isUnix fd) else ctx.workers u) with
        routes := routesAfter ctx.numWorkers u (fun r => routeSet r key wid fd)
          (if u = wid then registerPeer (htInsert (ctx.workers wid) fd key).2 p fd proto peerId
            (ctx.isUnix fd) else ctx.workers u).routes
        io := io } := by
  generalize hb : registerPeer (htInsert (ctx.workers wid) fd key).2 p fd proto peerId
    (ctx.isUnix fd) = base
  have hbroad : (broadcastRouteAdd (ctx.setWorker wid base) key wid fd).workers u =
      { (if u = wid then base else ctx.workers u) with
        routes := routesAfter ctx.numWorkers u (fun r => routeSet r key wid fd)
          (if u = wid then base else ctx.workers u).routes } := by
    have hsel : (ctx.setWorker wid base).workers u = if u = wid then base else ctx.workers u := by
      by_cases hu : u = wid
      · subst hu
        simp
      · rw [Ctx.setWorker_ne ctx base hu, if_neg hu]
    simp only [broadcastRouteAdd, Ctx.setWorker_numWorkers, hsel, routesAfter]
    split <;> rfl
  unfold processCmdAdd
  simp only [hv, Bool.not_true, Bool.false_eq_true, ite_false, hp, hb]
  by_cases hu : u = wid
  · subst hu
    rw [Ctx.onWorker, Ctx.setWorker_self]
    obtain ⟨io, hio⟩ := submitRecv_io
      ((broadcastRouteAdd (ctx.setWorker u base) key u fd).workers u) fd
    exact ⟨io, by rw [hio, hbroad]⟩
  · rw [Ctx.onWorker, Ctx.setWorker_ne _ _ hu, hbroad]
    exact ⟨_, rfl⟩

theorem processCmdAdd_numWorkers (ctx : Ctx) (wid : ℕ) (fd : Fd) (key : Key) (proto : PeerProtocol)
    (peerId : ℕ) :
    (processCmdAdd ctx wid fd key proto peerId).numWorkers = ctx.numWorkers := by
  unfold processCmdAdd
  dsimp only
  split
  · rfl
  · split <;> rfl

/-- The worker part of removing the peer in slot `p`. -/
def removePeerAt (w : Worker) (p : Slot) (key : Key) : Worker := htRemove (unregisterPeer w p) key

theorem processCmdRemove_workers (hp : htLookup (ctx.workers wid) key = some p) (u : ℕ) :
    (processCmdRemove ctx wid key).1.workers u =
      { (if u = wid then removePeerAt (ctx.workers wid) p key else ctx.workers u) with
        routes := routesAfter ctx.numWorkers u (fun r => routeRemove r key)
          (if u = wid then removePeerAt (ctx.workers wid) p key else ctx.workers u).routes } := by
  unfold processCmdRemove
  simp only [hp]
  have hsel : (ctx.setWorker wid (removePeerAt (ctx.workers wid) p key)).workers u =
      if u = wid then removePeerAt (ctx.workers wid) p key else ctx.workers u := by
    by_cases hu : u = wid
    · subst hu
      simp
    · rw [Ctx.setWorker_ne ctx _ hu, if_neg hu]
  simp only [broadcastRouteRemove, Ctx.setWorker_numWorkers, routesAfter]
  change (if u < ctx.numWorkers then
    { (ctx.setWorker wid (removePeerAt (ctx.workers wid) p key)).workers u with
      routes := routeRemove ((ctx.setWorker wid (removePeerAt (ctx.workers wid) p key)).workers
        u).routes key }
    else (ctx.setWorker wid (removePeerAt (ctx.workers wid) p key)).workers u) = _
  rw [hsel]
  split <;> rfl

theorem processCmdRemove_none (hp : htLookup (ctx.workers wid) key = none) :
    processCmdRemove ctx wid key = (ctx, none) := by
  simp only [processCmdRemove, hp]

/-! ### The command rings -/

theorem enqueueCmd_worker (ctx : Ctx) (v : ℕ) (cmd : Cmd) (u : ℕ) :
    ∃ more, (enqueueCmd ctx v cmd).workers u =
      { ctx.workers u with cmdRing := (ctx.workers u).cmdRing ++ more } ∧
      (more = [] ∨ u = v ∧ more = [cmd]) := by
  unfold enqueueCmd Ctx.onWorker
  by_cases hu : u = v
  · subst hu
    rw [Ctx.setWorker_self]
    dsimp only
    split
    · exact ⟨[], by simp, .inl rfl⟩
    · exact ⟨[cmd], rfl, .inr ⟨rfl, rfl⟩⟩
  · rw [Ctx.setWorker_ne _ _ hu]
    exact ⟨[], by simp, .inl rfl⟩

theorem enqueueCmd_room {v : ℕ}
    (h : (ctx.workers v).cmdRing.length + 1 ≠ kCmdRingSize) (cmd : Cmd) :
    enqueueCmd ctx v cmd =
      ctx.setWorker v { ctx.workers v with cmdRing := (ctx.workers v).cmdRing ++ [cmd] } := by
  unfold enqueueCmd Ctx.onWorker
  dsimp only
  rw [if_neg h]

/-! ### Tables under commands -/

/-- A sound peer table whose live peers have their receive buffer. -/
structure TableOk (w : Worker) : Prop where
  inv : HtInv w
  rbuf : ∀ q, (w.ht q).occupied = .live → (w.ht q).rbufAlloc = true

theorem TableOk.congr (h : TableOk w) (ho : ∀ q, (w'.ht q).occupied = (w.ht q).occupied)
    (hk : ∀ q, (w'.ht q).key = (w.ht q).key) (hr : ∀ q, (w'.ht q).rbufAlloc = (w.ht q).rbufAlloc) :
    TableOk w' := by
  refine ⟨h.inv.congr peerView keyHash ho hk, fun q hq => ?_⟩
  rw [hr]
  rw [ho] at hq
  exact h.rbuf q hq

theorem TableOk.of_core (h : TableOk w) (hc : w'.core = w.core) : TableOk w' :=
  h.congr (fun q => (congrArg Peer.occupied (Worker.core_peer hc q) :))
    (fun q => (congrArg Peer.key (Worker.core_peer hc q) :))
    (fun q => (congrArg Peer.rbufAlloc (Worker.core_peer hc q) :))

theorem TableOk.lookup_iff (h : TableOk w) {k : Key} {q : Slot} :
    htLookup w k = some q ↔ (w.ht q).occupied = .live ∧ (w.ht q).key = k :=
  LinearProbe.lookup_eq_some peerView keyHash h.inv k q

theorem tableOk_empty : TableOk {} :=
  ⟨LinearProbe.inv_of_not_live peerView keyHash fun _ => LinearProbe.Occ.noConfusion,
    fun _ h => by cases h⟩

theorem htInsert_worker (w : Worker) (fd : Fd) (key : Key) :
    ∃ ao, (∃ p, htFind w key = some p ∧ (htInsert w fd key).2 =
        { w with ht := Function.update w.ht p (freshPeer (w.ht p) fd key), allocOracle := ao }) ∨
      ((htInsert w fd key).2 = { w with allocOracle := ao } ∧
        ∀ p, htFind w key = some p → (w.ht p).rbufAlloc = false) := by
  have ha := alloc_eq w
  rcases htInsert_cases w fd key with ⟨hf, heq⟩ | ⟨p, w1, hf, hr, hal, heq⟩ |
    ⟨p, w1, hf, hht, hw1, heq⟩
  · refine ⟨w.allocOracle, .inr ⟨by rw [heq], fun p hp => ?_⟩⟩
    rw [hf] at hp
    cases hp
  · rw [hal] at ha
    refine ⟨w1.allocOracle, .inr ⟨by rw [heq]; exact ha, fun q hq => ?_⟩⟩
    rw [hf] at hq
    cases hq
    exact hr
  · refine ⟨w1.allocOracle, .inl ⟨p, hf, ?_⟩⟩
    rw [heq, Worker.setPeer, hht]
    rcases hw1 with rfl | hal
    · rfl
    · rw [hal] at ha
      simp only at ha
      rw [ha]

theorem htInsert_lookup (h : TableOk w) (hp : htLookup (htInsert w fd key).2 key = some p) :
    htFind w key = some p ∧ ∃ ao, (htInsert w fd key).2 =
      { w with ht := Function.update w.ht p (freshPeer (w.ht p) fd key), allocOracle := ao } := by
  obtain ⟨ao, ⟨a, hf, heq⟩ | ⟨heq, hno⟩⟩ := htInsert_worker w fd key
  · have hI : HtInv (htInsert w fd key).2 := by
      rw [heq]
      exact h.inv.insert peerView keyHash hf rfl rfl
    have hh := (LinearProbe.lookup_eq_some peerView keyHash hI key p).mp hp
    have ha : LinearProbe.Holds peerView (htInsert w fd key).2.ht key a := by
      rw [heq]
      simp [LinearProbe.Holds, peerView, freshPeer]
    have hpa : p = a := hI.unique key p a hh ha
    subst hpa
    exact ⟨hf, ao, heq⟩
  · rw [heq] at hp
    have hh : (w.ht p).occupied = .live ∧ (w.ht p).key = key := h.lookup_iff.mp hp
    have hf : htFind w key = some p := LinearProbe.find_of_holds peerView keyHash h.inv hh
    have hr := h.rbuf p hh.1
    rw [hno p hf] at hr
    cases hr

theorem htInsert_lookup_none (h : TableOk w) (hp : htLookup (htInsert w fd key).2 key = none) :
    ∃ ao, (htInsert w fd key).2 = { w with allocOracle := ao } := by
  obtain ⟨ao, ⟨a, hf, heq⟩ | ⟨heq, -⟩⟩ := htInsert_worker w fd key
  · have hI : HtInv (htInsert w fd key).2 := by
      rw [heq]
      exact h.inv.insert peerView keyHash hf rfl rfl
    have ha : LinearProbe.Holds peerView (htInsert w fd key).2.ht key a := by
      rw [heq]
      simp [LinearProbe.Holds, peerView, freshPeer]
    have hsome : htLookup (htInsert w fd key).2 key = some a :=
      (LinearProbe.lookup_eq_some peerView keyHash hI key a).mpr ha
    rw [hsome] at hp
    cases hp
  · exact ⟨ao, heq⟩

structure PeerAdded (w : Worker) (p : Slot) (fd : Fd) (key : Key) (proto : PeerProtocol)
    (peerId : ℕ) (w' : Worker) : Prop where
  slot : (w'.ht p).core =
    { (freshPeer (w.ht p) fd key).core with protocol := proto, peerId := peerId }
  other : ∀ q, q ≠ p → w'.ht q = w.ht q
  send : (w'.ht p).send.queue = [] ∧ (w'.ht p).send.tail = none
  rules : (w'.ht p).fwd1Peer = none ∧ (w'.ht p).fwd1DstFd = -1 ∧ ((w'.ht p).fwd 0).dstFd = -1
  fdMap : w'.fdMap = Function.update w.fdMap fd (some p)
  fdGen : w'.fdGen = Function.update w.fdGen fd ((w.fdGen fd + 1) % 2 ^ 32)
  ids : ∀ m' id q, w'.peerIdMap = some m' → m' id = some q →
    (q = p ∧ proto = .kHd) ∨ ∃ m, w.peerIdMap = some m ∧ m id = some q
  inbox : w'.xferInbox = w.xferInbox
  cmds : w'.cmdRing = w.cmdRing
  pipe : w'.pipe = w.pipe
  stats : w'.stats = w.stats
  running : w'.running = w.running

theorem setPeerId_worker (w : Worker) (proto : PeerProtocol) (peerId : ℕ) (p : Slot) :
    ∃ ids ao, setPeerId w proto peerId p = { w with peerIdMap := ids, allocOracle := ao } ∧
      ∀ m' id q, ids = some m' → m' id = some q →
        (q = p ∧ proto = .kHd) ∨ ∃ m, w.peerIdMap = some m ∧ m id = some q := by
  have ha := alloc_eq w
  unfold setPeerId
  split
  · next hhd =>
    have hnew : ∀ (m0 : ℕ → Option Slot) id q,
        Function.update m0 peerId (some p) id = some q →
        (q = p ∧ proto = .kHd) ∨ m0 id = some q := by
      intro m0 id q hq
      by_cases hid : id = peerId
      · subst hid
        rw [Function.update_self] at hq
        cases hq
        exact .inl ⟨rfl, hhd.1⟩
      · rw [Function.update_of_ne hid] at hq
        exact .inr hq
    split
    · next m hm =>
      refine ⟨_, w.allocOracle, rfl, fun m' id q hm' hq => ?_⟩
      cases hm'
      rcases hnew m id q hq with h | h
      · exact .inl h
      · exact .inr ⟨m, hm, h⟩
    · next hm =>
      split
      · next w1 hal =>
        rw [hal] at ha
        exact ⟨w.peerIdMap, w1.allocOracle, ha, fun m' id q hm' hq => .inr ⟨m', hm', hq⟩⟩
      · next w1 hal =>
        rw [hal] at ha
        simp only at ha
        refine ⟨_, w1.allocOracle, by rw [ha], fun m' id q hm' hq => ?_⟩
        cases hm'
        rcases hnew _ id q hq with h | h
        · exact .inl h
        · cases h
  · exact ⟨w.peerIdMap, w.allocOracle, rfl, fun m' id q hm' hq => .inr ⟨m', hm', hq⟩⟩

theorem registerPeer_registered {w1 : Worker}
    {ao : List Bool} (hw1 : w1 =
      { w with ht := Function.update w.ht p (freshPeer (w.ht p) fd key), allocOracle := ao })
    (proto : PeerProtocol) (peerId : ℕ) (isUnix : Bool) (routes : Slot → Route) (io : Io) :
    PeerAdded w p fd key proto peerId
      { registerPeer w1 p fd proto peerId isUnix with routes := routes, io := io } := by
  subst hw1
  unfold registerPeer
  dsimp only
  obtain ⟨ids, ao', heq, hids⟩ := setPeerId_worker
    { ({ w with ht := Function.update w.ht p (freshPeer (w.ht p) fd key), allocOracle := ao } :
        Worker).setPeer p { Function.update w.ht p (freshPeer (w.ht p) fd key) p with
          protocol := proto, peerId := peerId
          send := { (Function.update w.ht p (freshPeer (w.ht p) fd key) p).send with
            noZc := isUnix || (Function.update w.ht p (freshPeer (w.ht p) fd key) p).send.noZc } }
      with
      fdMap := Function.update w.fdMap fd (some p)
      fdGen := Function.update w.fdGen fd ((w.fdGen fd + 1) % 2 ^ 32)
      peerCount := w.peerCount + 1 } proto peerId p
  simp only [Worker.setPeer] at heq hids ⊢
  rw [heq]
  constructor
  case slot => simp [Peer.core]
  case other => intro q hq; simp [hq]
  case send => simp [freshPeer]
  case rules => simp [freshPeer, kMaxPeerRules]
  case ids => exact hids
  all_goals rfl

theorem registerPeer_routes (w : Worker) (p : Slot) (fd : Fd) (proto : PeerProtocol) (peerId : ℕ)
    (isUnix : Bool) : (registerPeer w p fd proto peerId isUnix).routes = w.routes := by
  unfold registerPeer
  dsimp only
  obtain ⟨ids, ao, heq, -⟩ := setPeerId_worker
    { w.setPeer p { w.ht p with
        protocol := proto, peerId := peerId
        send := { (w.ht p).send with noZc := isUnix || (w.ht p).send.noZc } } with
      fdMap := Function.update w.fdMap fd (some p)
      fdGen := Function.update w.fdGen fd ((w.fdGen fd + 1) % 2 ^ 32)
      peerCount := w.peerCount + 1 } proto peerId p
  simp only [Worker.setPeer] at heq ⊢
  rw [heq]

def RoutesOnly (w w' : Worker) : Prop := ∃ routes io, w' = { w with routes := routes, io := io }

theorem processCmdAdd_spec (h : TableOk (ctx.workers wid)) (fd : Fd) (key : Key)
    (proto : PeerProtocol) (peerId : ℕ) :
    (∃ ao, processCmdAdd ctx wid fd key proto peerId =
      ctx.setWorker wid { ctx.workers wid with allocOracle := ao }) ∨
    (∃ p, validFd fd = true ∧ htFind (ctx.workers wid) key = some p ∧
      htLookup (htInsert (ctx.workers wid) fd key).2 key = some p ∧
      PeerAdded (ctx.workers wid) p fd key proto peerId
        ((processCmdAdd ctx wid fd key proto peerId).workers wid) ∧
      (∀ u, ((processCmdAdd ctx wid fd key proto peerId).workers u).routes =
        routesAfter ctx.numWorkers u (fun r => routeSet r key wid fd) (ctx.workers u).routes) ∧
      ∀ u, u ≠ wid → RoutesOnly (ctx.workers u)
        ((processCmdAdd ctx wid fd key proto peerId).workers u)) := by
  have hsame : ctx = ctx.setWorker wid
      { ctx.workers wid with allocOracle := (ctx.workers wid).allocOracle } :=
    (setWorker_workers ctx wid).symm
  cases hv : validFd fd with
  | false =>
    refine .inl ⟨(ctx.workers wid).allocOracle, ?_⟩
    rw [processCmdAdd_invalid hv]
    exact hsame
  | true =>
    cases hp : htLookup (htInsert (ctx.workers wid) fd key).2 key with
    | none =>
      obtain ⟨ao, hao⟩ := htInsert_lookup_none h hp
      refine .inl ⟨ao, ?_⟩
      rw [processCmdAdd_unregistered hv hp, hao]
    | some p =>
      obtain ⟨hf, ao, hao⟩ := htInsert_lookup h hp
      have hwk := processCmdAdd_workers proto peerId hv hp
      refine .inr ⟨p, rfl, hf, rfl, ?_, fun u => ?_, fun u hu => ?_⟩
      · obtain ⟨io, hio⟩ := hwk wid
        rw [hio, if_pos rfl]
        exact registerPeer_registered hao proto peerId (ctx.isUnix fd) _ io
      · obtain ⟨io, hio⟩ := hwk u
        rw [hio]
        by_cases hu : u = wid
        · subst hu
          rw [if_pos rfl, registerPeer_routes, hao]
        · rw [if_neg hu]
      · obtain ⟨io, hio⟩ := hwk u
        rw [if_neg hu] at hio
        exact ⟨_, io, hio⟩

/-! ### Removal -/

structure PeerRemoved (w : Worker) (p : Slot) (w' : Worker) : Prop where
  slot : w'.ht p = buriedPeer (w.ht p)
  other : ∀ q, q ≠ p → w'.ht q = w.ht q
  fdMap : ∀ fd, w'.fdMap fd = if fd = (w.ht p).fd ∧ validFd fd = true then none else w.fdMap fd
  fdGen : w'.fdGen = w.fdGen
  ids : ∀ m' id q, w'.peerIdMap = some m' → m' id = some q →
    ∃ m, w.peerIdMap = some m ∧ m id = some q
  inbox : w'.xferInbox = w.xferInbox
  cmds : w'.cmdRing = w.cmdRing
  pipe : w'.pipe = w.pipe
  stats : w'.stats = w.stats
  running : w'.running = w.running

theorem unregisterPeer_worker (w : Worker) (p : Slot) :
    ∃ ids fdMap, unregisterPeer w p = { w with peerIdMap := ids, fdMap := fdMap } ∧
      (∀ m' id q, ids = some m' → m' id = some q → ∃ m, w.peerIdMap = some m ∧ m id = some q) ∧
      ∀ fd, fdMap fd = if fd = (w.ht p).fd ∧ validFd fd = true then none else w.fdMap fd := by
  have hids : ∀ (m' : ℕ → Option Slot) id q,
      (w.peerIdMap.map fun m => Function.update m (w.ht p).peerId none) = some m' →
      m' id = some q → ∃ m, w.peerIdMap = some m ∧ m id = some q := by
    intro m' id q hm' hq
    obtain ⟨m, hm, rfl⟩ := Option.map_eq_some_iff.mp hm'
    by_cases hid : id = (w.ht p).peerId
    · subst hid
      rw [Function.update_self] at hq
      cases hq
    · rw [Function.update_of_ne hid] at hq
      exact ⟨m, hm, hq⟩
  have hset : validFd (w.ht p).fd = true → ∀ fd, Function.update w.fdMap (w.ht p).fd none fd =
      if fd = (w.ht p).fd ∧ validFd fd = true then none else w.fdMap fd := by
    intro hv fd
    by_cases hfd : fd = (w.ht p).fd
    · subst hfd
      rw [Function.update_self, if_pos ⟨rfl, hv⟩]
    · rw [Function.update_of_ne hfd, if_neg fun h => hfd h.1]
  have hkeep : validFd (w.ht p).fd ≠ true → ∀ fd, w.fdMap fd =
      if fd = (w.ht p).fd ∧ validFd fd = true then none else w.fdMap fd := by
    intro hv fd
    rw [if_neg]
    rintro ⟨rfl, hfd⟩
    exact hv hfd
  unfold unregisterPeer
  dsimp only
  split
  · next hv =>
    split
    · exact ⟨_, _, rfl, hids, hset hv⟩
    · exact ⟨_, _, rfl, fun m' id q hm' hq => ⟨m', hm', hq⟩, hset hv⟩
  · next hv =>
    split
    · exact ⟨_, _, rfl, hids, hkeep hv⟩
    · exact ⟨_, _, rfl, fun m' id q hm' hq => ⟨m', hm', hq⟩, hkeep hv⟩

theorem removePeerAt_unregistered (hp : htLookup w key = some p) :
    PeerRemoved w p (removePeerAt w p key) := by
  obtain ⟨ids, fdMap, heq, hids, hfd⟩ := unregisterPeer_worker w p
  have hp' : htLookup (unregisterPeer w p) key = some p := by
    rw [heq]
    exact hp
  obtain ⟨io, hio⟩ := htRemove_some hp'
  have hbury : removePeerAt w p key = { buryPeer (unregisterPeer w p) p with io := io } := hio
  rw [hbury, heq]
  constructor
  case slot => simp [buryPeer]
  case other =>
    intro q hq
    simp [buryPeer, Worker.setPeer, hq]
  case fdMap => exact hfd
  case ids => exact hids
  all_goals rfl

theorem removePeerAt_routes (hp : htLookup w key = some p) :
    (removePeerAt w p key).routes = w.routes := by
  obtain ⟨ids, fdMap, heq, -, -⟩ := unregisterPeer_worker w p
  have hp' : htLookup (unregisterPeer w p) key = some p := by
    rw [heq]
    exact hp
  obtain ⟨io, hio⟩ := htRemove_some hp'
  have hbury : removePeerAt w p key = { buryPeer (unregisterPeer w p) p with io := io } := hio
  rw [hbury, heq]
  rfl

theorem movePeerOut_unregistered (hp : htLookup (ctx.workers wid) key = some p) :
    PeerRemoved (ctx.workers wid) p ((movePeerOut ctx wid key).workers wid) ∧
      ∀ u, u ≠ wid → (movePeerOut ctx wid key).workers u = ctx.workers u := by
  have h := removePeerAt_unregistered hp
  unfold movePeerOut
  simp only [hp]
  refine ⟨?_, fun u hu => Ctx.setWorker_ne ctx _ hu⟩
  rw [Ctx.setWorker_self]
  exact ⟨h.slot, h.other, h.fdMap, h.fdGen, h.ids, h.inbox, h.cmds, h.pipe, h.stats, h.running⟩

theorem processCmdRemove_spec (hp : htLookup (ctx.workers wid) key = some p) :
    PeerRemoved (ctx.workers wid) p ((processCmdRemove ctx wid key).1.workers wid) ∧
      (∀ u, ((processCmdRemove ctx wid key).1.workers u).routes =
        routesAfter ctx.numWorkers u (fun r => routeRemove r key) (ctx.workers u).routes) ∧
      ∀ u, u ≠ wid → RoutesOnly (ctx.workers u) ((processCmdRemove ctx wid key).1.workers u) := by
  have h := removePeerAt_unregistered hp
  have hwk := processCmdRemove_workers hp
  refine ⟨?_, fun u => ?_, fun u hu => ?_⟩
  · rw [hwk wid, if_pos rfl]
    exact ⟨h.slot, h.other, h.fdMap, h.fdGen, h.ids, h.inbox, h.cmds, h.pipe, h.stats, h.running⟩
  · rw [hwk u]
    by_cases hu : u = wid
    · subst hu
      rw [if_pos rfl, removePeerAt_routes hp]
    · rw [if_neg hu]
  · rw [hwk u, if_neg hu]
    exact ⟨_, _, rfl⟩

/-! ### The table stays sound -/

theorem PeerAdded.tableOk {proto : PeerProtocol} {peerId : ℕ}
    (hR : PeerAdded w p fd key proto peerId w') (h : TableOk w) (hf : htFind w key = some p) :
    TableOk w' := by
  have hocc : (w'.ht p).occupied = .live := (congrArg Peer.occupied hR.slot :)
  have hkey : (w'.ht p).key = key := (congrArg Peer.key hR.slot :)
  have hrb : (w'.ht p).rbufAlloc = true := (congrArg Peer.rbufAlloc hR.slot :)
  have hht : w'.ht = Function.update w.ht p (w'.ht p) := by
    funext q
    by_cases hq : q = p
    · subst hq
      rw [Function.update_self]
    · rw [Function.update_of_ne hq, hR.other q hq]
  constructor
  · rw [HtInv, hht]
    exact h.inv.insert peerView keyHash hf hocc hkey
  · intro q hq
    by_cases hqp : q = p
    · rw [hqp, hrb]
    · rw [hR.other q hqp] at hq ⊢
      exact h.rbuf q hq

theorem PeerRemoved.tableOk (hU : PeerRemoved w p w') (h : TableOk w) : TableOk w' := by
  have hht : w'.ht = Function.update w.ht p (buriedPeer (w.ht p)) := by
    funext q
    by_cases hq : q = p
    · subst hq
      rw [Function.update_self, hU.slot]
    · rw [Function.update_of_ne hq, hU.other q hq]
  constructor
  · rw [HtInv, hht]
    exact h.inv.bury peerView keyHash p rfl
  · intro q hq
    by_cases hqp : q = p
    · rw [hqp, hU.slot] at hq
      cases hq
    · rw [hU.other q hqp] at hq ⊢
      exact h.rbuf q hq

theorem RoutesOnly.tableOk (hR : RoutesOnly w w') (h : TableOk w) : TableOk w' := by
  obtain ⟨routes, io, rfl⟩ := hR
  exact ⟨h.inv, h.rbuf⟩

/-! ### A small system -/

def twoWorkers : Ctx := { workers := fun _ => {}, numWorkers := 2 }

def homeSlot (k : Key) : Slot := Fin.ofNat kHtCapacity (keyHash k)

end HyperDerp
