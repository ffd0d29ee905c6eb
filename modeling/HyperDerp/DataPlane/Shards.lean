import HyperDerp.DataPlane.Commands
import HyperDerp.DataPlane.Recv
import HyperDerp.Lib.Runs

/-!
# Workers running side by side

All workers of the data plane, each a thread of its own, with the forwarding of
one frame to another worker cut at the points where the threads can interleave:
finding the destination worker and fd, loading the generation of the fd, pushing
the transfer, and popping it at the destination. Adding and removing a peer,
with the broadcast to all routing tables, is one step. A worker between two of
these points holds the frame (`Held`) and does nothing else. The kernel hands
out an fd again only after it was closed.
-/

namespace HyperDerp

/-! ### Forwarding in three steps -/

/-- A frame whose destination worker and fd are known, and the generation of the
fd once it is loaded. -/
structure Held where
  dst : ℕ
  fd : Fd
  frame : Bytes
  origin : Origin
  gen : Option ℕ := none

/-- `ForwardMsg` for a SendPacket up to the route lookup (`data_plane.cc:1497-1545`). -/
def packetRoute (ctx : Ctx) (wid : ℕ) (payload : Bytes) (src : Slot) : Ctx × Option Held :=
  if (ctx.workers wid).running = false then (ctx, none)
  else if hlen : payload.length < kKeySize then (ctx, none)
  else
    match frameAlloc ctx wid with
    | (false, ctx) => (ctx, none)
    | (true, ctx) =>
      let w := ctx.workers wid
      let dstKey := toKey payload (kKeySize_le hlen)
      let frame := buildRecvPacket (w.ht src).key (payload.drop kKeySize)
      match htLookup w dstKey with
      | some dst => (ctx.setWorker wid (forwardLocal w dst payload frame), none)
      | none =>
        match routeLookup w.routes dstKey with
        | none => (ctx, none)
        | some a =>
          (ctx, some
            { dst := (w.routes a).workerId, fd := (w.routes a).fd, frame := frame
              origin := .packet dstKey })

/-- The guard of `XferPush`. -/
def holdRule (ctx : Ctx) (wid : ℕ) (dstId : ℤ) (fd : Fd) (frame : Bytes) (key : Key) :
    Option Held :=
  if dstId = wid ∨ (ctx.numWorkers : ℤ) ≤ dstId ∨ dstId < 0 then none
  else some { dst := dstId.toNat, fd := fd, frame := frame, origin := .rule key false }

/-- `ForwardHdData1` up to its call of `XferPush`. -/
def data1Route (ctx : Ctx) (wid : ℕ) (p : Slot) (frame : Bytes) : Ctx × Option Held :=
  match frameAlloc ctx wid with
  | (false, ctx) => (ctx, none)
  | (true, ctx) =>
    let w := ctx.workers wid
    let peer := w.ht p
    let key := (peer.fwd 0).key
    match peer.fwd1Peer.filter fun dst => (w.ht dst).occupied = .live with
    | some dst => (ctx.setWorker wid (enqueueSend w dst frame), none)
    | none =>
      if 0 ≤ peer.fwd1DstFd then
        (ctx, holdRule ctx wid peer.fwd1DstWorker peer.fwd1DstFd frame key)
      else
        match htLookup w key with
        | some dst => (ctx.setWorker wid (enqueueSend (w.cachePeer1 p dst) dst frame), none)
        | none =>
          match routeLookup w.routes key with
          | none =>
            (ctx.setWorker wid
              { w with stats := { w.stats with hdFwdNoRoute := w.stats.hdFwdNoRoute + 1 } }, none)
          | some r =>
            let rt := w.routes r
            (ctx.setWorker wid (w.cacheRoute1 p rt),
              holdRule ctx wid rt.workerId rt.fd frame key)

def finishHeld (wid : ℕ) : Ctx × Option Held → Ctx
  | (ctx, none) => ctx
  | (ctx, some h) =>
    xferSpscPush ctx wid h.dst ⟨h.fd, h.frame, loadGen ctx h.dst h.fd, some h.origin⟩

theorem finishHeld_packetRoute (ctx : Ctx) (wid : ℕ) (payload : Bytes) (src : Slot) :
    finishHeld wid (packetRoute ctx wid payload src) =
      forwardMsg ctx wid .kSendPacket payload src := by
  unfold packetRoute forwardMsg
  split
  · rfl
  · rw [if_neg (not_not.mpr rfl)]
    split
    · rfl
    · next hlen =>
      rcases frameAlloc ctx wid with ⟨ok, ctx1⟩
      cases ok with
      | false => rfl
      | true =>
        dsimp only
        cases htLookup (ctx1.workers wid) (toKey payload (Nat.le_of_not_lt hlen)) with
        | some dst => rfl
        | none =>
          unfold forwardRemote
          dsimp only
          cases routeLookup (ctx1.workers wid).routes (toKey payload (Nat.le_of_not_lt hlen)) with
          | none => rfl
          | some a => rfl

theorem finishHeld_holdRule (ctx : Ctx) (wid : ℕ) (dstId : ℤ) (fd : Fd) (frame : Bytes) (key : Key)
    (ctx1 : Ctx) (h : ctx1.numWorkers = ctx.numWorkers) :
    finishHeld wid (ctx1, holdRule ctx wid dstId fd frame key) =
      xferPush ctx1 wid dstId fd frame (some (.rule key false)) := by
  unfold holdRule xferPush
  rw [h]
  split <;> rfl

theorem finishHeld_data1Route (ctx : Ctx) (wid : ℕ) (p : Slot) (frame : Bytes) :
    finishHeld wid (data1Route ctx wid p frame) = forwardHdData1 ctx wid p frame := by
  unfold data1Route forwardHdData1 forwardHdData1Body
  rcases frameAlloc ctx wid with ⟨ok, ctx1⟩
  cases ok with
  | false => rfl
  | true =>
    dsimp only
    cases ((ctx1.workers wid).ht p).fwd1Peer.filter
        fun dst => ((ctx1.workers wid).ht dst).occupied = .live with
    | some dst => rfl
    | none =>
      dsimp only
      split
      · exact finishHeld_holdRule _ _ _ _ _ _ _ rfl
      · cases htLookup (ctx1.workers wid) (((ctx1.workers wid).ht p).fwd 0).key with
        | some dst => rfl
        | none =>
          dsimp only
          cases routeLookup (ctx1.workers wid).routes (((ctx1.workers wid).ht p).fwd 0).key with
          | none => rfl
          | some r => exact finishHeld_holdRule _ _ _ _ _ _ _ rfl

/-! ### The system -/

structure Shards where
  ctx : Ctx
  held : ℕ → Option Held := fun _ => none
  isOpen : Fd → Bool := fun _ => false

inductive ShardStep where
  | add (fd : Fd) (key : Key) (proto : PeerProtocol) (peerId : ℕ)
  | remove (key : Key)
  | setRule (key dstKey : Key)
  | packet (u : ℕ) (p : Slot) (payload : Bytes)
  | data1 (u : ℕ) (p : Slot) (frame : Bytes)
  | load (u : ℕ)
  | push (u : ℕ)
  | pop (v src : ℕ)
  | eof (v : ℕ) (fd : Fd)
  | ioPath (v : ℕ) (q : Slot) (w0 : Worker)

namespace Shards

/-- The worker that `PeerWorker` gives a key. -/
def home (s : Shards) (key : Key) : ℕ := peerWorker s.ctx.numWorkers key

/-- Slot `p` of worker `v` is a live peer with key `k`. -/
def Live (s : Shards) (v : ℕ) (p : Slot) (k : Key) : Prop :=
  ((s.ctx.workers v).ht p).occupied = .live ∧ ((s.ctx.workers v).ht p).key = k

instance (s : Shards) (v : ℕ) (p : Slot) (k : Key) : Decidable (s.Live v p k) :=
  inferInstanceAs (Decidable (_ ∧ _))

/-- Note on a rule's frame whether the rule's destination is live. -/
def markDue (s : Shards) (h : Held) : Held :=
  match h.origin with
  | .rule k _ => { h with
      origin := .rule k (htLookup (s.ctx.workers (s.home k)) k).isSome }
  | .packet _ => h

def step (s : Shards) : ShardStep → Option Shards
  | .add fd key proto peerId =>
    if s.held (s.home key) = none ∧ s.isOpen fd = false then
      some { s with
        ctx := processCmdAdd s.ctx (s.home key) fd key proto peerId
        isOpen := Function.update s.isOpen fd true }
    else none
  | .remove key =>
    if s.held (s.home key) = none then
      let r := processCmdRemove s.ctx (s.home key) key
      some { s with
        ctx := r.1
        isOpen :=
          match r.2 with
          | some fd => Function.update s.isOpen fd false
          | none => s.isOpen }
    else none
  | .setRule key dstKey =>
    if s.held (s.home key) = none then
      some { s with ctx := setFwdRule s.ctx (s.home key) key dstKey }
    else none
  | .packet u p payload =>
    if s.held u = none then
      let r := packetRoute s.ctx u payload p
      some { s with ctx := r.1, held := Function.update s.held u r.2 }
    else none
  | .data1 u p frame =>
    let peer := (s.ctx.workers u).ht p
    if s.held u = none ∧ peer.occupied = .live ∧ peer.protocol = .kHd ∧ peer.fwdCount = 1 then
      let r := data1Route s.ctx u p frame
      some { s with ctx := r.1, held := Function.update s.held u (r.2.map s.markDue) }
    else none
  | .load u =>
    match s.held u with
    | some ⟨dst, fd, frame, origin, none⟩ =>
      let loaded := ⟨dst, fd, frame, origin, some (loadGen s.ctx dst fd)⟩
      some { s with held := Function.update s.held u (some loaded) }
    | _ => none
  | .push u =>
    match s.held u with
    | some ⟨dst, fd, frame, origin, some gen⟩ =>
      some { s with
        ctx := xferSpscPush s.ctx u dst ⟨fd, frame, gen, some origin⟩
        held := Function.update s.held u none }
    | _ => none
  | .pop v src =>
    if s.held v = none then (popXfer s.ctx v src).map fun ctx => { s with ctx := ctx } else none
  | .eof v fd =>
    if s.held v = none then
      ((s.ctx.workers v).fdMap fd).map fun p =>
        { s with ctx := s.ctx.onWorker v fun w => closeFd w fd p }
    else none
  | .ioPath v q w0 =>
    if s.held v = none ∧ (w0.ht q).send.Linked then
      some { s with ctx := s.ctx.onWorker v fun w => w.withIoPath q w0 }
    else none

/-- Workers as `WorkerInit` leaves them, no frame under way. -/
structure Init (s : Shards) : Prop where
  workers : ∀ v, s.ctx.workers v = {}
  pos : 0 < s.ctx.numWorkers
  held : ∀ u, s.held u = none

/-! ### Steps that leave tables and routes alone -/

structure SameTables (ctx ctx' : Ctx) : Prop where
  num : ctx'.numWorkers = ctx.numWorkers
  occ : ∀ v q, ((ctx'.workers v).ht q).occupied = ((ctx.workers v).ht q).occupied
  key : ∀ v q, ((ctx'.workers v).ht q).key = ((ctx.workers v).ht q).key
  fd : ∀ v q, ((ctx'.workers v).ht q).fd = ((ctx.workers v).ht q).fd
  rbuf : ∀ v q, ((ctx'.workers v).ht q).rbufAlloc = ((ctx.workers v).ht q).rbufAlloc
  fdGen : ∀ v, (ctx'.workers v).fdGen = (ctx.workers v).fdGen
  routes : ∀ v, (ctx'.workers v).routes = (ctx.workers v).routes
  entries : ∀ v f q, (ctx'.workers v).fdMap f = some q → (ctx.workers v).fdMap f = some q

structure SameMaps (ctx ctx' : Ctx) : Prop extends SameTables ctx ctx' where
  fdMap : ∀ v, (ctx'.workers v).fdMap = (ctx.workers v).fdMap

variable {ctx : Ctx} {v wid : ℕ} {p : Slot} {routes : Slot → Route} {k key : Key} {s s' : Shards}

theorem SameMaps.of_core {ctx' : Ctx} (h : ctx'.core = ctx.core) : SameMaps ctx ctx' := by
  have hw := Ctx.core_worker h
  have hp := fun v q => Worker.core_peer (hw v) q
  have hmap : ∀ v, (ctx'.workers v).fdMap = (ctx.workers v).fdMap := fun v =>
    (congrArg Worker.fdMap (hw v) :)
  exact ⟨⟨(congrArg Ctx.numWorkers h :), fun v q => (congrArg Peer.occupied (hp v q) :),
    fun v q => (congrArg Peer.key (hp v q) :), fun v q => (congrArg Peer.fd (hp v q) :),
    fun v q => (congrArg Peer.rbufAlloc (hp v q) :), fun v => (congrArg Worker.fdGen (hw v) :),
    fun v => (congrArg Worker.routes (hw v) :), fun v f q hq => hmap v ▸ hq⟩, hmap⟩

theorem SameTables.setWorker {w : Worker}
    (hslot : (w.ht p).occupied = ((ctx.workers v).ht p).occupied ∧
      (w.ht p).key = ((ctx.workers v).ht p).key ∧ (w.ht p).fd = ((ctx.workers v).ht p).fd ∧
      (w.ht p).rbufAlloc = ((ctx.workers v).ht p).rbufAlloc)
    (hother : ∀ q, q ≠ p → w.ht q = (ctx.workers v).ht q)
    (hmap : ∀ f q, w.fdMap f = some q → (ctx.workers v).fdMap f = some q)
    (hgen : w.fdGen = (ctx.workers v).fdGen)
    (hroutes : w.routes = (ctx.workers v).routes) : SameTables ctx (ctx.setWorker v w) := by
  have hpeer : ∀ {A : Type} (f : Peer → A), f (w.ht p) = f ((ctx.workers v).ht p) →
      ∀ u q, f (((ctx.setWorker v w).workers u).ht q) = f ((ctx.workers u).ht q) := by
    intro A f hf u q
    by_cases hu : u = v
    · subst hu
      rw [Ctx.setWorker_self]
      by_cases hq : q = p
      · subst hq
        exact hf
      · rw [hother q hq]
    · rw [Ctx.setWorker_ne _ _ hu]
  have hfield : ∀ {A : Type} (f : Worker → A), f w = f (ctx.workers v) →
      ∀ u, f ((ctx.setWorker v w).workers u) = f (ctx.workers u) := by
    intro A f hf u
    by_cases hu : u = v
    · subst hu
      rw [Ctx.setWorker_self, hf]
    · rw [Ctx.setWorker_ne _ _ hu]
  refine ⟨rfl, hpeer _ hslot.1, hpeer _ hslot.2.1, hpeer _ hslot.2.2.1, hpeer _ hslot.2.2.2,
    hfield _ hgen, hfield _ hroutes, fun u f q hq => ?_⟩
  by_cases hu : u = v
  · subst hu
    rw [Ctx.setWorker_self] at hq
    exact hmap f q hq
  · rwa [Ctx.setWorker_ne _ _ hu] at hq

theorem cachePeer1_eff {PE : Slot → Bytes → Prop} {PX : ℕ → Xfer → Prop} (ctx : Ctx) (dst : Slot) :
    Eff wid p PE PX ctx (ctx.setWorker wid ((ctx.workers wid).cachePeer1 p dst)) :=
  .rules ctx (some dst) ((ctx.workers wid).ht p).fwd1DstFd ((ctx.workers wid).ht p).fwd1DstWorker _

theorem cacheRoute1_eff {PE : Slot → Bytes → Prop} {PX : ℕ → Xfer → Prop} (ctx : Ctx) (rt : Route) :
    Eff wid p PE PX ctx (ctx.setWorker wid ((ctx.workers wid).cacheRoute1 p rt)) :=
  .rules ctx ((ctx.workers wid).ht p).fwd1Peer rt.fd rt.workerId _

def packetKey (payload : Bytes) : Option Key :=
  if h : kKeySize ≤ payload.length then some (toKey payload h) else none

theorem routeMap_of_lookup {a : Slot} (h : routeLookup routes k = some a) :
    routeMap routes k = some ((routes a).workerId, (routes a).fd) := by
  have h' : LinearProbe.lookup routeView keyHash routes k = some a := h
  simp only [routeMap, LinearProbe.toMap, h', Option.map_some]

theorem packetRoute_spec (ctx : Ctx) (wid : ℕ) (payload : Bytes) (src : Slot) :
    Effs wid src
        (fun q _ => ∃ k, packetKey payload = some k ∧ htLookup (ctx.workers wid) k = some q)
        (fun _ _ => False) ctx (packetRoute ctx wid payload src).1 ∧
      ∀ h, (packetRoute ctx wid payload src).2 = some h → h.gen = none ∧
        ∃ k, h.origin = .packet k ∧ routeMap (ctx.workers wid).routes k = some (h.dst, h.fd) := by
  have ha : Effs wid src
      (fun q _ => ∃ k, packetKey payload = some k ∧ htLookup (ctx.workers wid) k = some q)
      (fun _ _ => False) ctx _ := frameAlloc_effs ctx
  unfold packetRoute
  split
  · exact ⟨.refl, fun h hh => by cases hh⟩
  · split
    · exact ⟨.refl, fun h hh => by cases hh⟩
    · next hlen =>
      rcases hf : frameAlloc ctx wid with ⟨ok, ctx1⟩
      rw [hf] at ha
      cases ok with
      | false => exact ⟨ha, fun h hh => by cases hh⟩
      | true =>
        have hkey : packetKey payload = some (toKey payload (Nat.le_of_not_lt hlen)) :=
          dif_pos (Nat.le_of_not_lt hlen)
        have hw := Ctx.core_worker ha.core wid
        dsimp only
        rw [htLookup_core hw, Worker.core_routes hw]
        split
        · next dst hdst =>
          refine ⟨ha.trans (forwardLocal_effs (fun _ _ _ => ?_) fun _ => ?_),
            fun h hh => by cases hh⟩
          · exact ⟨_, hkey, hdst⟩
          · exact ⟨_, hkey, hdst⟩
        · split
          · exact ⟨ha, fun h hh => by cases hh⟩
          · next a hroute =>
            refine ⟨ha, fun h hh => ?_⟩
            cases hh
            exact ⟨rfl, _, rfl, routeMap_of_lookup hroute⟩

/-- What `ForwardHdData1` does before its transfer, by the state of the rule. -/
inductive Data1Case (ctx : Ctx) (wid : ℕ) (p : Slot) (frame : Bytes) : Ctx × Option Held → Prop
  | noMemory (ctx1 : Ctx) : frameAlloc ctx wid = (false, ctx1) →
      Data1Case ctx wid p frame (ctx1, none)
  | cachedPeer (ctx1 : Ctx) (dst : Slot) : frameAlloc ctx wid = (true, ctx1) →
      ((ctx.workers wid).ht p).fwd1Peer = some dst →
      ((ctx.workers wid).ht dst).occupied = .live →
      Data1Case ctx wid p frame
        (ctx1.setWorker wid (enqueueSend (ctx1.workers wid) dst frame), none)
  | cachedFd (ctx1 : Ctx) : frameAlloc ctx wid = (true, ctx1) →
      (∀ dst, ((ctx.workers wid).ht p).fwd1Peer = some dst →
        ((ctx.workers wid).ht dst).occupied ≠ .live) →
      0 ≤ ((ctx.workers wid).ht p).fwd1DstFd →
      Data1Case ctx wid p frame
        (ctx1, holdRule ctx wid ((ctx.workers wid).ht p).fwd1DstWorker
          ((ctx.workers wid).ht p).fwd1DstFd frame (((ctx.workers wid).ht p).fwd 0).key)
  | foundPeer (ctx1 : Ctx) (dst : Slot) : frameAlloc ctx wid = (true, ctx1) →
      ((ctx.workers wid).ht p).fwd1DstFd < 0 →
      htLookup (ctx.workers wid) (((ctx.workers wid).ht p).fwd 0).key = some dst →
      Data1Case ctx wid p frame
        (ctx1.setWorker wid
          (enqueueSend ((ctx1.workers wid).cachePeer1 p dst) dst frame), none)
  | noRoute (ctx1 : Ctx) : frameAlloc ctx wid = (true, ctx1) →
      Data1Case ctx wid p frame
        (ctx1.setWorker wid
          { ctx1.workers wid with stats :=
            { (ctx1.workers wid).stats with
              hdFwdNoRoute := (ctx1.workers wid).stats.hdFwdNoRoute + 1 } }, none)
  | foundRoute (ctx1 : Ctx) (r : Slot) : frameAlloc ctx wid = (true, ctx1) →
      ((ctx.workers wid).ht p).fwd1DstFd < 0 →
      htLookup (ctx.workers wid) (((ctx.workers wid).ht p).fwd 0).key = none →
      routeLookup (ctx.workers wid).routes (((ctx.workers wid).ht p).fwd 0).key = some r →
      Data1Case ctx wid p frame
        (ctx1.setWorker wid
            ((ctx1.workers wid).cacheRoute1 p ((ctx.workers wid).routes r)),
          holdRule ctx wid ((ctx.workers wid).routes r).workerId ((ctx.workers wid).routes r).fd
            frame (((ctx.workers wid).ht p).fwd 0).key)

theorem frameAlloc_eq {ctx1 : Ctx} {ok : Bool} (h : frameAlloc ctx wid = (ok, ctx1)) :
    ∃ ao, ctx1 = ctx.setWorker wid { ctx.workers wid with allocOracle := ao } := by
  rw [frameAlloc, Prod.mk.injEq] at h
  exact ⟨(ctx.workers wid).alloc.2.allocOracle, by rw [← alloc_eq]; exact h.2.symm⟩

theorem data1Route_case (ctx : Ctx) (wid : ℕ) (p : Slot) (frame : Bytes) :
    Data1Case ctx wid p frame (data1Route ctx wid p frame) := by
  unfold data1Route
  rcases hf : frameAlloc ctx wid with ⟨ok, ctx1⟩
  cases ok with
  | false => exact .noMemory ctx1 hf
  | true =>
    obtain ⟨ao, hctx1⟩ := frameAlloc_eq hf
    have hht : (ctx1.workers wid).ht = (ctx.workers wid).ht := by
      rw [hctx1, Ctx.setWorker_self]
    have hroutes : (ctx1.workers wid).routes = (ctx.workers wid).routes := by
      rw [hctx1, Ctx.setWorker_self]
    have hl : ∀ k, htLookup (ctx1.workers wid) k = htLookup (ctx.workers wid) k := by
      intro k
      rw [htLookup, hht, ← htLookup]
    have hhold : ∀ a b c d, holdRule ctx1 wid a b c d = holdRule ctx wid a b c d := by
      intro a b c d
      rw [hctx1]
      rfl
    dsimp only
    split
    · next dst hdst =>
      rw [hht] at hdst
      obtain ⟨h1, h2⟩ := Option.filter_eq_some_iff.mp hdst
      exact .cachedPeer ctx1 dst hf h1 (of_decide_eq_true h2)
    · next hnone =>
      rw [hht] at hnone
      have hdead : ∀ dst, ((ctx.workers wid).ht p).fwd1Peer = some dst →
          ((ctx.workers wid).ht dst).occupied ≠ .live := by
        intro dst hdst hlive
        rw [Option.filter_eq_none_iff] at hnone
        exact hnone dst hdst (decide_eq_true hlive)
      split
      · next hfd =>
        rw [hht] at hfd ⊢
        rw [hhold]
        exact .cachedFd ctx1 hf hdead hfd
      · next hfd =>
        rw [hht] at hfd
        split
        · next dst hdst =>
          rw [hht, hl] at hdst
          exact .foundPeer ctx1 dst hf (not_le.mp hfd) hdst
        · next hlk =>
          rw [hht, hl] at hlk
          split
          · exact .noRoute ctx1 hf
          · next r hr =>
            rw [hht, hroutes] at hr
            rw [hht, hroutes, hhold]
            exact .foundRoute ctx1 r hf (not_le.mp hfd) hlk hr

theorem data1Route_effs (ctx : Ctx) (wid : ℕ) (p : Slot) (frame : Bytes) :
    Effs wid p (fun q d => d = frame ∧
        ((((ctx.workers wid).ht p).fwd1Peer = some q ∧
            ((ctx.workers wid).ht q).occupied = .live) ∨
          htLookup (ctx.workers wid) (((ctx.workers wid).ht p).fwd 0).key = some q))
      (fun _ _ => False) ctx (data1Route ctx wid p frame).1 := by
  have ha : Effs wid p (fun q d => d = frame ∧
        ((((ctx.workers wid).ht p).fwd1Peer = some q ∧
            ((ctx.workers wid).ht q).occupied = .live) ∨
          htLookup (ctx.workers wid) (((ctx.workers wid).ht p).fwd 0).key = some q))
      (fun _ _ => False) ctx _ := frameAlloc_effs ctx
  have hcase := data1Route_case ctx wid p frame
  generalize data1Route ctx wid p frame = r at hcase
  cases hcase with
  | noMemory ctx1 hf =>
    rw [hf] at ha
    exact ha
  | cachedPeer ctx1 dst hf h1 h2 =>
    rw [hf] at ha
    exact ha.tail (.enqueue ctx1 dst frame ⟨rfl, .inl ⟨h1, h2⟩⟩)
  | cachedFd ctx1 hf _ _ =>
    rw [hf] at ha
    exact ha
  | foundPeer ctx1 dst hf _ hl =>
    rw [hf] at ha
    have hq := (ha.tail (cachePeer1_eff ctx1 dst)).tail (.enqueue _ dst frame ⟨rfl, .inr hl⟩)
    rwa [setWorker_setWorker, Ctx.setWorker_self] at hq
  | noRoute ctx1 hf =>
    rw [hf] at ha
    exact ha.tail (.account ctx1 _ _ _)
  | foundRoute ctx1 r hf _ _ _ =>
    rw [hf] at ha
    exact ha.tail (cacheRoute1_eff ctx1 _)

theorem xferDeliver_core (w : Worker) (x : Xfer) : (xferDeliver w x).core = w.core := by
  unfold xferDeliver
  split
  · rfl
  · exact (enqueueSend_sendOnly _ _ _).core

theorem popXfer_core {ctx' : Ctx} {src : ℕ} (h : popXfer ctx v src = some ctx') :
    ctx'.core = ctx.core := by
  unfold popXfer at h
  dsimp only at h
  split at h
  · cases h
  · cases h
    refine Ctx.core_setWorker ?_
    exact (xferDeliver_core _ _).trans rfl

theorem SameMaps.setWorker {w : Worker} (h : SameTables ctx (ctx.setWorker v w))
    (hmap : w.fdMap = (ctx.workers v).fdMap) :
    SameMaps ctx (ctx.setWorker v w) := by
  refine ⟨h, fun u => ?_⟩
  by_cases hu : u = v
  · subst hu
    rw [Ctx.setWorker_self, hmap]
  · rw [Ctx.setWorker_ne _ _ hu]

theorem setFwdRule_same (ctx : Ctx) (wid : ℕ) (key dstKey : Key) :
    SameMaps ctx (setFwdRule ctx wid key dstKey) := by
  unfold setFwdRule
  dsimp only
  split
  · exact .of_core rfl
  · next p _ =>
    split
    · exact .of_core rfl
    · refine .setWorker (.setWorker (p := p) ?_ (fun q hq => Worker.setPeer_ne _ _ hq)
        (fun _ _ hq => hq) rfl rfl) rfl
      obtain ⟨a, b, c, d, e, heq⟩ := addRule_same (ctx.workers wid) p dstKey
      rw [Worker.setPeer_self, heq]
      exact ⟨rfl, rfl, rfl, rfl⟩

theorem withIoPath_same (ctx : Ctx) (v : ℕ) (q : Slot) (w0 : Worker) :
    SameMaps ctx (ctx.onWorker v fun w => w.withIoPath q w0) := by
  refine .setWorker (.setWorker (p := q) ?_ (fun a ha => ?_) (fun _ _ hq => hq) rfl rfl) rfl
  · simp [Worker.withIoPath]
  · simp [Worker.withIoPath, Worker.setPeer_ne _ _ ha]

theorem closeFd_same (ctx : Ctx) (v : ℕ) (fd : Fd) (p : Slot) :
    SameTables ctx (ctx.onWorker v fun w => closeFd w fd p) := by
  refine .setWorker (p := p) ⟨rfl, rfl, rfl, rfl⟩ (fun _ _ => rfl) (fun f q hq => ?_) rfl rfl
  by_cases hf : f = fd
  · subst hf
    simp [closeFd] at hq
  · simpa [closeFd, hf] using hq

/-! ### What holds in every run

Live peers sit on their home worker, on distinct open fds; the fd entry of a
live peer's fd, if there is one, is its own; a route leads to the live peer with
its key. -/

structure Tables (s : Shards) : Prop where
  pos : 0 < s.ctx.numWorkers
  table : ∀ v, TableOk (s.ctx.workers v)
  routeInv : ∀ v, RouteInv (s.ctx.workers v).routes
  home : ∀ v p k, s.Live v p k → v = s.home k
  valid : ∀ v p k, s.Live v p k → validFd ((s.ctx.workers v).ht p).fd = true
  opened : ∀ v p k, s.Live v p k → s.isOpen ((s.ctx.workers v).ht p).fd = true
  fds : ∀ v p k v' p' k', s.Live v p k → s.Live v' p' k' →
    ((s.ctx.workers v).ht p).fd = ((s.ctx.workers v').ht p').fd → v = v' ∧ p = p'
  entryOpen : ∀ v f p, (s.ctx.workers v).fdMap f = some p → s.isOpen f = true
  entryValid : ∀ v f p, (s.ctx.workers v).fdMap f = some p → validFd f = true
  entry : ∀ v p k v' q, s.Live v p k →
    (s.ctx.workers v').fdMap ((s.ctx.workers v).ht p).fd = some q → v' = v ∧ q = p
  routeNum : ∀ u k r, routeMap (s.ctx.workers u).routes k = some r → u < s.ctx.numWorkers
  route : ∀ u k v f, routeMap (s.ctx.workers u).routes k = some (v, f) →
    ∃ p, s.Live v p k ∧ ((s.ctx.workers v).ht p).fd = f

theorem Live.unique (h : s.Tables) {v' : ℕ} {p' : Slot} (hp : s.Live v p k) (hp' : s.Live v' p' k) :
    v = v' ∧ p = p' := by
  have hv : v = v' := (h.home v p k hp).trans (h.home v' p' k hp').symm
  subst hv
  exact ⟨rfl, (h.table v).inv.unique k p p' hp hp'⟩

theorem SameTables.live (h : SameTables s.ctx s'.ctx)
    : s'.Live v p k ↔ s.Live v p k := by
  rw [Live, Live, h.occ, h.key]

theorem SameTables.home (h : SameTables s.ctx s'.ctx) (k : Key) :
    s'.home k = s.home k := by
  simp only [Shards.home, h.num]

theorem Tables.same (hT : s.Tables) (h : SameTables s.ctx s'.ctx)
    (ho : ∀ f, s.isOpen f = true → s'.isOpen f = true) : s'.Tables where
  pos := by rw [h.num]; exact hT.pos
  table v := (hT.table v).congr (h.occ v) (h.key v) (h.rbuf v)
  routeInv v := by rw [h.routes]; exact hT.routeInv v
  home v p k hl := by rw [h.home]; exact hT.home v p k (h.live.mp hl)
  valid v p k hl := by rw [h.fd]; exact hT.valid v p k (h.live.mp hl)
  opened v p k hl := by rw [h.fd]; exact ho _ (hT.opened v p k (h.live.mp hl))
  fds v p k v' p' k' hl hl' hfd := by
    rw [h.fd, h.fd] at hfd
    exact hT.fds v p k v' p' k' (h.live.mp hl) (h.live.mp hl') hfd
  entryOpen v f p hm := ho f (hT.entryOpen v f p (h.entries v f p hm))
  entryValid v f p hm := hT.entryValid v f p (h.entries v f p hm)
  entry v p k v' q hl hm := by
    rw [h.fd] at hm
    exact hT.entry v p k v' q (h.live.mp hl) (h.entries _ _ _ hm)
  routeNum u k r hr := by
    rw [h.routes] at hr
    rw [h.num]
    exact hT.routeNum u k r hr
  route u k v f hr := by
    rw [h.routes] at hr
    obtain ⟨p, hl, hfd⟩ := hT.route u k v f hr
    exact ⟨p, h.live.mpr hl, by rw [h.fd]; exact hfd⟩

theorem Init.tables (h : s.Init) : s.Tables := by
  have hnl : ∀ v p k, ¬s.Live v p k := by
    intro v p k hl
    rw [Live, h.workers] at hl
    cases hl.1
  have hmap : ∀ v f p, ¬(s.ctx.workers v).fdMap f = some p := by
    intro v f p hm
    rw [h.workers] at hm
    cases hm
  have hempty := toMap_of_empty (t := (({} : Worker).routes)) routeView
    (fun r : Route => (r.workerId, r.fd)) fun _ => rfl
  have hroute : ∀ u k r, ¬routeMap (s.ctx.workers u).routes k = some r := by
    intro u k r hr
    rw [h.workers, routeMap, hempty.2] at hr
    cases hr
  exact {
    pos := h.pos
    table := fun v => by rw [h.workers]; exact tableOk_empty
    routeInv := fun v => by rw [h.workers]; exact hempty.1
    home := fun v p k hl => absurd hl (hnl v p k)
    valid := fun v p k hl => absurd hl (hnl v p k)
    opened := fun v p k hl => absurd hl (hnl v p k)
    fds := fun v p k _ _ _ hl => absurd hl (hnl v p k)
    entryOpen := fun v f p hm => absurd hm (hmap v f p)
    entryValid := fun v f p hm => absurd hm (hmap v f p)
    entry := fun v p k _ _ hl => absurd hl (hnl v p k)
    routeNum := fun u k r hr => absurd hr (hroute u k r)
    route := fun u k v f hr => absurd hr (hroute u k (v, f)) }

theorem routeMap_routeSet (hI : RouteInv routes) {fd : Fd} {r : ℕ × Fd}
    (h : routeMap (routeSet routes key wid fd) k = some r) :
    (k = key ∧ r = (wid, fd)) ∨ (k ≠ key ∧ routeMap routes k = some r) := by
  have hm := (routeStep_refines hI (.insert key (wid, fd))).2
  simp only [routeStep, mapStep] at hm
  rw [hm] at h
  split at h
  · next hfull =>
    refine .inr ⟨?_, h⟩
    rintro rfl
    rw [hfull.1] at h
    cases h
  · by_cases hk : k = key
    · subst hk
      rw [Function.update_self] at h
      cases h
      exact .inl ⟨rfl, rfl⟩
    · rw [Function.update_of_ne hk] at h
      exact .inr ⟨hk, h⟩

theorem routeMap_routeRemove (hI : RouteInv routes) {r : ℕ × Fd}
    (h : routeMap (routeRemove routes key) k = some r) :
    k ≠ key ∧ routeMap routes k = some r := by
  have hm := (routeStep_refines hI (.remove key)).2
  simp only [routeStep, mapStep] at hm
  rw [hm] at h
  by_cases hk : k = key
  · subst hk
    rw [Function.update_self] at h
    cases h
  · rw [Function.update_of_ne hk] at h
    exact ⟨hk, h⟩

structure Added (s : Shards) (p : Slot) (fd : Fd) (key : Key) (s' : Shards) : Prop where
  valid : validFd fd = true
  found : htFind (s.ctx.workers (s.home key)) key = some p
  closed : s.isOpen fd = false
  isOpen : s'.isOpen = Function.update s.isOpen fd true
  num : s'.ctx.numWorkers = s.ctx.numWorkers
  peer : ∃ proto peerId, PeerAdded (s.ctx.workers (s.home key)) p fd key proto peerId
    (s'.ctx.workers (s.home key))
  routes : ∀ u, (s'.ctx.workers u).routes =
    routesAfter s.ctx.numWorkers u (fun r => routeSet r key (s.home key) fd)
      (s.ctx.workers u).routes
  others : ∀ u, u ≠ s.home key → RoutesOnly (s.ctx.workers u) (s'.ctx.workers u)
  held : s'.held = s.held

namespace Added

variable {s s' : Shards} {p : Slot} {fd : Fd} {key : Key}

variable {u : ℕ} {q : Slot} {k : Key}

theorem ht_other (h : Added s p fd key s') (hne : ¬(u = s.home key ∧ q = p)) :
    (s'.ctx.workers u).ht q = (s.ctx.workers u).ht q := by
  obtain ⟨proto, peerId, hadd⟩ := h.peer
  by_cases hu : u = s.home key
  · subst hu
    exact hadd.other q fun hq => hne ⟨rfl, hq⟩
  · obtain ⟨routes, io, heq⟩ := h.others u hu
    rw [heq]

theorem slot (h : Added s p fd key s') :
    s'.Live (s.home key) p key ∧ ((s'.ctx.workers (s.home key)).ht p).fd = fd := by
  obtain ⟨proto, peerId, hadd⟩ := h.peer
  exact ⟨⟨(congrArg Peer.occupied hadd.slot :), (congrArg Peer.key hadd.slot :)⟩,
    (congrArg Peer.fd hadd.slot :)⟩

theorem live_cases (h : Added s p fd key s') (hl : s'.Live u q k) :
    (u = s.home key ∧ q = p ∧ k = key) ∨ (¬(u = s.home key ∧ q = p) ∧ s.Live u q k) := by
  by_cases hup : u = s.home key ∧ q = p
  · obtain ⟨rfl, rfl⟩ := hup
    exact .inl ⟨rfl, rfl, hl.2.symm.trans h.slot.1.2⟩
  · rw [Live, h.ht_other hup] at hl
    exact .inr ⟨hup, hl⟩

theorem live_slot (h : Added s p fd key s') (hl : s.Live (s.home key) p k) : k = key := by
  rcases LinearProbe.find_some peerView keyHash h.found with hh | ⟨hnl, -⟩
  · exact hl.2.symm.trans hh.2
  · exact absurd hl.1 hnl

theorem live_keep (h : Added s p fd key s') (hl : s.Live u q k) :
    s'.Live u q k := by
  by_cases hup : u = s.home key ∧ q = p
  · obtain ⟨rfl, rfl⟩ := hup
    rw [h.live_slot hl]
    exact h.slot.1
  · rw [Live, h.ht_other hup]
    exact hl

theorem fdMap (h : Added s p fd key s') (u : ℕ) (f : Fd) :
    (s'.ctx.workers u).fdMap f =
      if u = s.home key ∧ f = fd then some p else (s.ctx.workers u).fdMap f := by
  obtain ⟨proto, peerId, hadd⟩ := h.peer
  by_cases hu : u = s.home key
  · subst hu
    rw [hadd.fdMap]
    by_cases hf : f = fd
    · rw [hf, Function.update_self, if_pos ⟨rfl, rfl⟩]
    · rw [Function.update_of_ne hf, if_neg fun hc => hf hc.2]
  · obtain ⟨routes, io, heq⟩ := h.others u hu
    rw [if_neg fun hc => hu hc.1, heq]

theorem fdGen (h : Added s p fd key s') (u : ℕ) (f : Fd) :
    (s'.ctx.workers u).fdGen f =
      if u = s.home key ∧ f = fd then ((s.ctx.workers u).fdGen fd + 1) % 2 ^ 32
      else (s.ctx.workers u).fdGen f := by
  obtain ⟨proto, peerId, hadd⟩ := h.peer
  by_cases hu : u = s.home key
  · subst hu
    rw [hadd.fdGen]
    by_cases hf : f = fd
    · rw [hf, Function.update_self, if_pos ⟨rfl, rfl⟩]
    · rw [Function.update_of_ne hf, if_neg fun hc => hf hc.2]
  · obtain ⟨routes, io, heq⟩ := h.others u hu
    rw [if_neg fun hc => hu hc.1, heq]

theorem home (h : Added s p fd key s') (k : Key) : s'.home k = s.home k := by
  simp only [Shards.home, h.num]

theorem open_keep (h : Added s p fd key s') {f : Fd} (hf : s.isOpen f = true) :
    s'.isOpen f = true := by
  rw [h.isOpen]
  by_cases hfd : f = fd
  · rw [hfd, Function.update_self]
  · rwa [Function.update_of_ne hfd]

theorem fd_ne (h : Added s p fd key s') (hT : s.Tables) (hl : s.Live u q k) :
    ((s.ctx.workers u).ht q).fd ≠ fd := by
  intro hfd
  have ho := hT.opened u q k hl
  rw [hfd, h.closed] at ho
  cases ho

theorem entry_ne (h : Added s p fd key s') (hT : s.Tables) {f : Fd}
    (hm : (s.ctx.workers u).fdMap f = some q) : f ≠ fd := by
  rintro rfl
  have ho := hT.entryOpen u f q hm
  rw [h.closed] at ho
  cases ho

theorem tables (h : Added s p fd key s') (hT : s.Tables) : s'.Tables where
  pos := by rw [h.num]; exact hT.pos
  table u := by
    obtain ⟨proto, peerId, hadd⟩ := h.peer
    by_cases hu : u = s.home key
    · subst hu
      exact hadd.tableOk (hT.table _) h.found
    · exact (h.others u hu).tableOk (hT.table u)
  routeInv u := by
    rw [h.routes, routesAfter]
    split
    · exact (routeStep_refines (hT.routeInv u) (.insert key (s.home key, fd))).1
    · exact hT.routeInv u
  home u q k hl := by
    rw [h.home]
    rcases h.live_cases hl with ⟨rfl, rfl, rfl⟩ | ⟨-, hl⟩
    · rfl
    · exact hT.home u q k hl
  valid u q k hl := by
    rcases h.live_cases hl with ⟨rfl, rfl, rfl⟩ | ⟨hne, hl⟩
    · rw [h.slot.2]
      exact h.valid
    · rw [h.ht_other hne]
      exact hT.valid u q k hl
  opened u q k hl := by
    rcases h.live_cases hl with ⟨rfl, rfl, rfl⟩ | ⟨hne, hl⟩
    · rw [h.slot.2, h.isOpen, Function.update_self]
    · rw [h.ht_other hne]
      exact h.open_keep (hT.opened u q k hl)
  fds u q k u' q' k' hl hl' hfd := by
    rcases h.live_cases hl with ⟨rfl, rfl, rfl⟩ | ⟨hne, hl⟩ <;>
      rcases h.live_cases hl' with ⟨rfl, rfl, rfl⟩ | ⟨hne', hl'⟩
    · exact ⟨rfl, rfl⟩
    · rw [h.slot.2, h.ht_other hne'] at hfd
      exact absurd hfd.symm (h.fd_ne hT hl')
    · rw [h.slot.2, h.ht_other hne] at hfd
      exact absurd hfd (h.fd_ne hT hl)
    · rw [h.ht_other hne, h.ht_other hne'] at hfd
      exact hT.fds u q k u' q' k' hl hl' hfd
  entryOpen u f q hm := by
    rw [h.fdMap] at hm
    split at hm
    · next hc => rw [h.isOpen, hc.2, Function.update_self]
    · exact h.open_keep (hT.entryOpen u f q hm)
  entryValid u f q hm := by
    rw [h.fdMap] at hm
    split at hm
    · next hc => rw [hc.2, h.valid]
    · exact hT.entryValid u f q hm
  entry u q k v' q' hl hm := by
    rw [h.fdMap] at hm
    rcases h.live_cases hl with ⟨rfl, rfl, rfl⟩ | ⟨hne, hl⟩
    · rw [h.slot.2] at hm
      split at hm
      · next hc =>
        cases hm
        exact ⟨hc.1, rfl⟩
      · exact absurd rfl (h.entry_ne hT hm)
    · rw [h.ht_other hne] at hm
      split at hm
      · next hc => exact absurd hc.2 (h.fd_ne hT hl)
      · exact hT.entry u q k v' q' hl hm
  routeNum u k r hr := by
    rw [h.routes, routesAfter] at hr
    rw [h.num]
    split at hr
    · next hu => exact hu
    · exact hT.routeNum u k r hr
  route u k v f hr := by
    rw [h.routes, routesAfter] at hr
    split at hr
    · rcases routeMap_routeSet (hT.routeInv u) hr with ⟨rfl, heq⟩ | ⟨hk, hold⟩
      · cases heq
        exact ⟨p, h.slot⟩
      · obtain ⟨q, hl, hfd⟩ := hT.route u k v f hold
        have hne : ¬(v = s.home key ∧ q = p) := by
          rintro ⟨rfl, rfl⟩
          exact hk (h.live_slot hl)
        exact ⟨q, h.live_keep hl, by rw [h.ht_other hne]; exact hfd⟩
    · next hu => exact absurd (hT.routeNum u k (v, f) hr) hu

end Added

structure Removed (s : Shards) (p : Slot) (key : Key) (s' : Shards) : Prop where
  live : s.Live (s.home key) p key
  isOpen : s'.isOpen =
    Function.update s.isOpen ((s.ctx.workers (s.home key)).ht p).fd false
  num : s'.ctx.numWorkers = s.ctx.numWorkers
  peer : PeerRemoved (s.ctx.workers (s.home key)) p (s'.ctx.workers (s.home key))
  routes : ∀ u, (s'.ctx.workers u).routes =
    routesAfter s.ctx.numWorkers u (fun r => routeRemove r key) (s.ctx.workers u).routes
  others : ∀ u, u ≠ s.home key → RoutesOnly (s.ctx.workers u) (s'.ctx.workers u)
  held : s'.held = s.held

namespace Removed

variable {s s' : Shards} {p : Slot} {key : Key}

theorem ht_other (h : Removed s p key s') {u : ℕ} {q : Slot} (hne : ¬(u = s.home key ∧ q = p)) :
    (s'.ctx.workers u).ht q = (s.ctx.workers u).ht q := by
  by_cases hu : u = s.home key
  · subst hu
    exact h.peer.other q fun hq => hne ⟨rfl, hq⟩
  · obtain ⟨routes, io, heq⟩ := h.others u hu
    rw [heq]

theorem live_iff (h : Removed s p key s') {u : ℕ} {q : Slot} {k : Key} :
    s'.Live u q k ↔ ¬(u = s.home key ∧ q = p) ∧ s.Live u q k := by
  by_cases hup : u = s.home key ∧ q = p
  · refine ⟨fun hl => ?_, fun hl => absurd hup hl.1⟩
    obtain ⟨rfl, rfl⟩ := hup
    rw [Live, h.peer.slot] at hl
    cases hl.1
  · rw [Live, h.ht_other hup]
    exact ⟨fun hl => ⟨hup, hl⟩, fun hl => hl.2⟩

theorem fdMap (h : Removed s p key s') (hT : s.Tables) (u : ℕ) (f : Fd) :
    (s'.ctx.workers u).fdMap f =
      if u = s.home key ∧ f = ((s.ctx.workers (s.home key)).ht p).fd then none
      else (s.ctx.workers u).fdMap f := by
  by_cases hu : u = s.home key
  · subst hu
    rw [h.peer.fdMap]
    by_cases hf : f = ((s.ctx.workers (s.home key)).ht p).fd
    · rw [if_pos ⟨hf, hf ▸ hT.valid _ p key h.live⟩, if_pos ⟨rfl, hf⟩]
    · rw [if_neg fun hc => hf hc.1, if_neg fun hc => hf hc.2]
  · obtain ⟨routes, io, heq⟩ := h.others u hu
    rw [if_neg fun hc => hu hc.1, heq]

theorem fdGen (h : Removed s p key s') (u : ℕ) :
    (s'.ctx.workers u).fdGen = (s.ctx.workers u).fdGen := by
  by_cases hu : u = s.home key
  · subst hu
    exact h.peer.fdGen
  · obtain ⟨routes, io, heq⟩ := h.others u hu
    rw [heq]

theorem fd (h : Removed s p key s') (u : ℕ) (q : Slot) :
    ((s'.ctx.workers u).ht q).fd = ((s.ctx.workers u).ht q).fd := by
  by_cases hup : u = s.home key ∧ q = p
  · obtain ⟨rfl, rfl⟩ := hup
    rw [h.peer.slot]
    rfl
  · rw [h.ht_other hup]

theorem home (h : Removed s p key s') (k : Key) : s'.home k = s.home k := by
  simp only [Shards.home, h.num]

theorem open_keep (h : Removed s p key s') {f : Fd} (hf : s.isOpen f = true)
    (hne : f ≠ ((s.ctx.workers (s.home key)).ht p).fd) : s'.isOpen f = true := by
  rwa [h.isOpen, Function.update_of_ne hne]

theorem entries (h : Removed s p key s') (hT : s.Tables) {u : ℕ} {f : Fd} {q : Slot}
    (hm : (s'.ctx.workers u).fdMap f = some q) :
    (s.ctx.workers u).fdMap f = some q ∧ f ≠ ((s.ctx.workers (s.home key)).ht p).fd := by
  rw [h.fdMap hT] at hm
  split at hm
  · cases hm
  · next hne =>
    refine ⟨hm, ?_⟩
    rintro rfl
    exact hne ⟨(hT.entry _ p key u q h.live hm).1, rfl⟩

theorem tables (h : Removed s p key s') (hT : s.Tables) : s'.Tables where
  pos := by rw [h.num]; exact hT.pos
  table u := by
    by_cases hu : u = s.home key
    · subst hu
      exact h.peer.tableOk (hT.table _)
    · exact (h.others u hu).tableOk (hT.table u)
  routeInv u := by
    rw [h.routes, routesAfter]
    split
    · exact (routeStep_refines (hT.routeInv u) (.remove key)).1
    · exact hT.routeInv u
  home u q k hl := by
    rw [h.home]
    exact hT.home u q k (h.live_iff.mp hl).2
  valid u q k hl := by
    rw [h.fd]
    exact hT.valid u q k (h.live_iff.mp hl).2
  opened u q k hl := by
    obtain ⟨hne, hl⟩ := h.live_iff.mp hl
    rw [h.fd]
    refine h.open_keep (hT.opened u q k hl) fun hfd => hne ?_
    exact hT.fds u q k _ p key hl h.live hfd
  fds u q k u' q' k' hl hl' hfd := by
    rw [h.fd, h.fd] at hfd
    exact hT.fds u q k u' q' k' (h.live_iff.mp hl).2 (h.live_iff.mp hl').2 hfd
  entryOpen u f q hm := by
    obtain ⟨hold, hne⟩ := h.entries hT hm
    exact h.open_keep (hT.entryOpen u f q hold) hne
  entryValid u f q hm := hT.entryValid u f q (h.entries hT hm).1
  entry u q k v' q' hl hm := by
    rw [h.fd] at hm
    exact hT.entry u q k v' q' (h.live_iff.mp hl).2 (h.entries hT hm).1
  routeNum u k r hr := by
    rw [h.routes, routesAfter] at hr
    rw [h.num]
    split at hr
    · next hu => exact hu
    · exact hT.routeNum u k r hr
  route u k v f hr := by
    rw [h.routes, routesAfter] at hr
    split at hr
    · obtain ⟨hk, hold⟩ := routeMap_routeRemove (hT.routeInv u) hr
      obtain ⟨q, hl, hfd⟩ := hT.route u k v f hold
      have hne : ¬(v = s.home key ∧ q = p) := by
        rintro ⟨rfl, rfl⟩
        exact hk (hl.2.symm.trans h.live.2)
      exact ⟨q, h.live_iff.mpr ⟨hne, hl⟩, by rw [h.fd]; exact hfd⟩
    · next hu => exact absurd (hT.routeNum u k (v, f) hr) hu

end Removed

/-! ### The two steps that change tables -/

theorem step_add (hT : s.Tables) {fd : Fd} {proto : PeerProtocol} {peerId : ℕ}
    (h : s.step (.add fd key proto peerId) = some s') :
    (∃ p, Added s p fd key s') ∨
      ((∃ v ao, s'.ctx = s.ctx.setWorker v { s.ctx.workers v with allocOracle := ao }) ∧
        (∀ f, s.isOpen f = true → s'.isOpen f = true) ∧ s'.held = s.held) := by
  simp only [step] at h
  split at h
  · next hg =>
    cases h
    rcases processCmdAdd_spec (hT.table (s.home key)) fd key proto peerId with ⟨ao, heq⟩ |
      ⟨p, hv, hf, -, hadd, hroutes, hothers⟩
    · refine .inr ⟨⟨s.home key, ao, heq⟩, fun f hf => ?_, rfl⟩
      by_cases hfd : f = fd
      · simp [hfd]
      · simpa [hfd] using hf
    · refine .inl ⟨p, hv, hf, hg.2, rfl, ?_, ⟨proto, peerId, hadd⟩, hroutes, hothers, rfl⟩
      exact processCmdAdd_numWorkers _ _ _ _ _ _
  · cases h

theorem setOracle_same {ctx' : Ctx} {ao : List Bool}
    (h : ctx' = ctx.setWorker v { ctx.workers v with allocOracle := ao }) :
    ctx'.core = ctx.core ∧
      ∀ u, (ctx'.workers u).ht = (ctx.workers u).ht ∧
        (ctx'.workers u).xferInbox = (ctx.workers u).xferInbox := by
  subst h
  refine ⟨Ctx.core_setWorker rfl, fun u => ?_⟩
  by_cases hu : u = v
  · subst hu
    rw [Ctx.setWorker_self]
    exact ⟨rfl, rfl⟩
  · rw [Ctx.setWorker_ne _ _ hu]
    exact ⟨rfl, rfl⟩

theorem step_remove (hT : s.Tables) (h : s.step (.remove key) = some s') :
    s' = s ∨ ∃ p, Removed s p key s' := by
  simp only [step] at h
  split at h
  · cases h
    cases hp : htLookup (s.ctx.workers (s.home key)) key with
    | none =>
      left
      rw [processCmdRemove_none hp]
    | some p =>
      right
      have hl : s.Live (s.home key) p key := (hT.table _).lookup_iff.mp hp
      obtain ⟨hrem, hroutes, hothers⟩ := processCmdRemove_spec hp
      refine ⟨p, hl, ?_, ?_, hrem, hroutes, hothers, rfl⟩
      · simp only [processCmdRemove, hp, hT.valid _ p key hl, ite_true]
      · simp only [processCmdRemove, hp]
        rfl
  · cases h

inductive Kind (s : Shards) : ShardStep → Shards → Prop
  | added (s' : Shards) (p : Slot) (fd : Fd) (key : Key) (proto : PeerProtocol) (peerId : ℕ) :
      Added s p fd key s' → Kind s (.add fd key proto peerId) s'
  | removed (s' : Shards) (p : Slot) (key : Key) : Removed s p key s' → Kind s (.remove key) s'
  | ended (s' : Shards) (v : ℕ) (fd : Fd) : SameTables s.ctx s'.ctx → s'.isOpen = s.isOpen →
      (∀ u f, ¬(u = v ∧ f = fd) → (s'.ctx.workers u).fdMap f = (s.ctx.workers u).fdMap f) →
      Kind s (.eof v fd) s'
  | same (s' : Shards) (l : ShardStep) : SameMaps s.ctx s'.ctx →
      (∀ f, s.isOpen f = true → s'.isOpen f = true) → Kind s l s'

theorem step_kind (hT : s.Tables) {l : ShardStep} (h : s.step l = some s') :
    Kind s l s' := by
  cases l with
  | add fd key proto peerId =>
    rcases step_add hT h with ⟨p, hadd⟩ | ⟨⟨v, ao, hctx⟩, hopen, -⟩
    · exact .added s' p fd key proto peerId hadd
    · exact .same s' _ (.of_core (setOracle_same hctx).1) hopen
  | remove key =>
    rcases step_remove hT h with rfl | ⟨p, hrem⟩
    · exact .same s' _ (.of_core rfl) fun _ hf => hf
    · exact .removed s' p key hrem
  | setRule key dstKey =>
    simp only [step] at h
    split at h
    · cases h
      exact .same _ _ (setFwdRule_same _ _ _ _) fun _ hf => hf
    · cases h
  | packet u p payload =>
    simp only [step] at h
    split at h
    · cases h
      exact .same _ _ (.of_core (packetRoute_spec _ _ _ _).1.core) fun _ hf => hf
    · cases h
  | data1 u p frame =>
    simp only [step] at h
    split at h
    · cases h
      exact .same _ _ (.of_core (data1Route_effs _ _ _ _).core) fun _ hf => hf
    · cases h
  | load u =>
    simp only [step] at h
    split at h
    · cases h
      exact .same _ _ (.of_core rfl) fun _ hf => hf
    · cases h
  | push u =>
    simp only [step] at h
    split at h
    · cases h
      exact .same _ _ (.of_core (xferSpscPush_core _ _ _ _)) fun _ hf => hf
    · cases h
  | pop v src =>
    simp only [step] at h
    split at h
    · obtain ⟨ctx, hpop, rfl⟩ := Option.map_eq_some_iff.mp h
      exact .same _ _ (.of_core (popXfer_core hpop)) fun _ hf => hf
    · cases h
  | eof v fd =>
    simp only [step] at h
    split at h
    · obtain ⟨p, hp, rfl⟩ := Option.map_eq_some_iff.mp h
      refine .ended _ v fd (closeFd_same _ _ _ _) rfl fun u f hne => ?_
      by_cases hu : u = v
      · subst hu
        have hf : f ≠ fd := fun hf => hne ⟨rfl, hf⟩
        simp [Ctx.onWorker, closeFd, hf]
      · rw [Ctx.onWorker, Ctx.setWorker_ne _ _ hu]
    · cases h
  | ioPath v q w0 =>
    simp only [step] at h
    split at h
    · cases h
      exact .same _ _ (withIoPath_same _ _ _ _) fun _ hf => hf
    · cases h

theorem step_tables (hT : s.Tables) {l : ShardStep} (h : s.step l = some s') :
    s'.Tables := by
  cases step_kind hT h with
  | added s' p fd key proto peerId hadd => exact hadd.tables hT
  | removed s' p key hrem => exact hrem.tables hT
  | ended s' v fd hsame ho _ => exact hT.same hsame fun f hf => by rw [ho]; exact hf
  | same s' l hsame ho => exact hT.same hsame.toSameTables ho

end Shards

end HyperDerp
