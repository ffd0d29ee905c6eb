import HyperDerp.DataPlane.Transit

/-!
# Cached forwarding rules

A rule caches where its destination was found: a slot of the same worker, or a
worker and an fd. Nothing tells the rule when the destination goes away, and the
slot and the fd are given to other peers later. This module says what keeps a
cached destination right over all interleavings, and that then every Data frame
of a source with one rule is queued for the rule's destination or counted as
dropped.
-/

namespace HyperDerp

def Peer.ruleState (p : Peer) : Peer :=
  { fwdCount := p.fwdCount, fwd1DstFd := p.fwd1DstFd, fwd1DstWorker := p.fwd1DstWorker
    fwd1Peer := p.fwd1Peer, fwd := p.fwd }

theorem SendOnly.ruleState {p : Slot} {w w' : Worker} (h : SendOnly p w w') (q : Slot) :
    (w'.ht q).ruleState = (w.ht q).ruleState := by
  rw [(h.peer q).1]
  rfl

namespace Shards

def ruleSel : Origin → Option Key
  | .rule k _ => some k
  | .packet _ => none

def ruleKey (s : Shards) (u : ℕ) (p : Slot) : Key := (((s.ctx.workers u).ht p).fwd 0).key

/-! ### What a rule may cache -/

structure Cached (s : Shards) (u : ℕ) (p : Slot) : Prop where
  blank : ((s.ctx.workers u).ht p).fwdCount = 0 →
    ((s.ctx.workers u).ht p).fwd1Peer = none ∧ ((s.ctx.workers u).ht p).fwd1DstFd = -1 ∧
      (((s.ctx.workers u).ht p).fwd 0).dstFd = -1
  peer : ∀ d, ((s.ctx.workers u).ht p).fwd1Peer = some d →
    ((s.ctx.workers u).ht d).occupied = .live → s.Live u d (s.ruleKey u p)
  fd : 0 ≤ ((s.ctx.workers u).ht p).fwd1DstFd →
    ((s.ctx.workers u).ht p).fwd1DstWorker = (s.home (s.ruleKey u p) : ℤ) ∧
      s.home (s.ruleKey u p) ≠ u ∧
      ∀ q, (s.ctx.workers (s.home (s.ruleKey u p))).fdMap ((s.ctx.workers u).ht p).fwd1DstFd =
        some q → s.Live (s.home (s.ruleKey u p)) q (s.ruleKey u p)

def CacheOk (s : Shards) : Prop := ∀ u p k, s.Live u p k → s.Cached u p

section

variable {s s' : Shards} {u : ℕ} {p : Slot}

theorem ruleKey_of_ruleState
    (h : ((s'.ctx.workers u).ht p).ruleState = ((s.ctx.workers u).ht p).ruleState) :
    s'.ruleKey u p = s.ruleKey u p := by
  have hfwd : ((s'.ctx.workers u).ht p).fwd = ((s.ctx.workers u).ht p).fwd :=
    (congrArg Peer.fwd h :)
  simp only [ruleKey, hfwd]

theorem Cached.keep (h : s.Cached u p) (hnum : s'.ctx.numWorkers = s.ctx.numWorkers)
    (hr : ((s'.ctx.workers u).ht p).ruleState = ((s.ctx.workers u).ht p).ruleState)
    (hpeer : ∀ d, ((s.ctx.workers u).ht p).fwd1Peer = some d →
      ((s'.ctx.workers u).ht d).occupied = .live → s'.Live u d (s.ruleKey u p))
    (hfd : 0 ≤ ((s.ctx.workers u).ht p).fwd1DstFd → ∀ q,
      (s'.ctx.workers (s.home (s.ruleKey u p))).fdMap ((s.ctx.workers u).ht p).fwd1DstFd =
        some q → s'.Live (s.home (s.ruleKey u p)) q (s.ruleKey u p)) : s'.Cached u p := by
  have hcount : ((s'.ctx.workers u).ht p).fwdCount = ((s.ctx.workers u).ht p).fwdCount :=
    (congrArg Peer.fwdCount hr :)
  have h1 : ((s'.ctx.workers u).ht p).fwd1Peer = ((s.ctx.workers u).ht p).fwd1Peer :=
    (congrArg Peer.fwd1Peer hr :)
  have h2 : ((s'.ctx.workers u).ht p).fwd1DstFd = ((s.ctx.workers u).ht p).fwd1DstFd :=
    (congrArg Peer.fwd1DstFd hr :)
  have h3 : ((s'.ctx.workers u).ht p).fwd1DstWorker = ((s.ctx.workers u).ht p).fwd1DstWorker :=
    (congrArg Peer.fwd1DstWorker hr :)
  have h4 : ((s'.ctx.workers u).ht p).fwd = ((s.ctx.workers u).ht p).fwd :=
    (congrArg Peer.fwd hr :)
  have hkey := ruleKey_of_ruleState hr
  have hhome : s'.home (s.ruleKey u p) = s.home (s.ruleKey u p) := by
    simp only [Shards.home, hnum]
  constructor
  · rw [hcount, h1, h2, h4]
    exact h.blank
  · rw [h1, hkey]
    exact hpeer
  · rw [h2, h3, hkey, hhome]
    intro hpos
    exact ⟨(h.fd hpos).1, (h.fd hpos).2.1, hfd hpos⟩

theorem Cached.same (h : s.Cached u p) (hs : SameTables s.ctx s'.ctx)
    (hr : ((s'.ctx.workers u).ht p).ruleState = ((s.ctx.workers u).ht p).ruleState) :
    s'.Cached u p := by
  refine h.keep hs.num hr (fun d hd hl => ?_) fun hpos q hq => ?_
  · rw [hs.occ] at hl
    exact hs.live.mpr (h.peer d hd hl)
  · exact hs.live.mpr ((h.fd hpos).2.2 q (hs.entries _ _ _ hq))

end

/-! ### Adds and removals -/

/-- No live peer's rule for another key caches the slot or the fd that the new
peer gets. -/
def CacheAddClear (s : Shards) (fd : Fd) (key : Key) : Prop :=
  ∀ p0 u p k, htFind (s.ctx.workers (s.home key)) key = some p0 → s.Live u p k →
    s.ruleKey u p ≠ key →
    (u = s.home key → ((s.ctx.workers u).ht p).fwd1Peer ≠ some p0) ∧
      (((s.ctx.workers u).ht p).fwd1DstWorker = (s.home key : ℤ) →
        ((s.ctx.workers u).ht p).fwd1DstFd ≠ fd)

/-- No live peer's rule caches an fd, other than the connection's own, that still
leads to the peer to remove. -/
def CacheRemoveClear (s : Shards) (key : Key) : Prop :=
  ∀ p0 u p k, s.Live (s.home key) p0 key → s.Live u p k →
    ((s.ctx.workers u).ht p).fwd1DstWorker = (s.home key : ℤ) →
    (s.ctx.workers (s.home key)).fdMap ((s.ctx.workers u).ht p).fwd1DstFd = some p0 →
    ((s.ctx.workers u).ht p).fwd1DstFd = ((s.ctx.workers (s.home key)).ht p0).fd

section

variable {s s' : Shards}

theorem CacheOk.added (hC : s.CacheOk) {p0 : Slot} {fd : Fd} {key : Key} (ha : Added s p0 fd key s')
    (hclear : s.CacheAddClear fd key) : s'.CacheOk := by
  intro u p k hl
  rcases ha.live_cases hl with ⟨rfl, rfl, rfl⟩ | ⟨hne, hl⟩
  · obtain ⟨proto, peerId, hadd⟩ := ha.peer
    obtain ⟨h1, h2, h3⟩ := hadd.rules
    refine ⟨fun _ => ⟨h1, h2, h3⟩, fun d hd => ?_, fun hpos => ?_⟩
    · rw [h1] at hd
      cases hd
    · rw [h2] at hpos
      exact absurd hpos (by decide)
  · have hold := hC u p k hl
    have hht := ha.ht_other hne
    refine hold.keep ha.num (by rw [hht]) (fun d hd hlive => ?_) fun hpos q hq => ?_
    · by_cases hup : u = s.home key ∧ d = p0
      · obtain ⟨rfl, rfl⟩ := hup
        by_cases hk : s.ruleKey (s.home key) p = key
        · rw [hk]
          exact ha.slot.1
        · exact absurd hd ((hclear d _ p k ha.found hl hk).1 rfl)
      · rw [ha.ht_other hup] at hlive
        exact ha.live_keep (hold.peer d hd hlive)
    · rw [ha.fdMap] at hq
      split at hq
      · next hc =>
        cases hq
        by_cases hk : s.ruleKey u p = key
        · rw [hk]
          exact ha.slot.1
        · refine absurd hc.2 ((hclear p0 u p k ha.found hl hk).2 ?_)
          rw [← hc.1]
          exact (hold.fd hpos).1
      · exact ha.live_keep ((hold.fd hpos).2.2 q hq)

theorem CacheOk.removed (hT : s.Tables) (hC : s.CacheOk) {p0 : Slot} {key : Key}
    (hr : Removed s p0 key s') (hclear : s.CacheRemoveClear key) : s'.CacheOk := by
  intro u p k hl
  obtain ⟨hne, hl⟩ := hr.live_iff.mp hl
  have hold := hC u p k hl
  have hht := hr.ht_other hne
  refine hold.keep hr.num (by rw [hht]) (fun d hd hlive => ?_) fun hpos q hq => ?_
  · have hlive' : s'.Live u d ((s'.ctx.workers u).ht d).key := ⟨hlive, rfl⟩
    obtain ⟨hned, hld⟩ := hr.live_iff.mp hlive'
    exact hr.live_iff.mpr ⟨hned, hold.peer d hd hld.1⟩
  · obtain ⟨hq, hfd⟩ := hr.entries hT hq
    have hlq := (hold.fd hpos).2.2 q hq
    refine hr.live_iff.mpr ⟨?_, hlq⟩
    rintro ⟨hhome, rfl⟩
    rw [hhome] at hq
    exact hfd (hclear q u p k hr.live hl (by rw [← hhome]; exact (hold.fd hpos).1) hq)

end

/-! ### Steps that write a cache -/

theorem addRule_first {peer : Peer} (h : peer.fwdCount = 0) (dstKey : Key) (dst : Option Slot)
    (route : Option Route) :
    ((peer.addRule dstKey dst route).fwd 0).key = dstKey ∧
      (peer.addRule dstKey dst route).fwdCount = 1 ∧
      (peer.addRule dstKey dst route).fwd1Peer = dst ∧
      (∀ d, dst = some d → (peer.addRule dstKey dst route).fwd1DstFd = peer.fwd1DstFd) ∧
      (dst = none → route = none →
        (peer.addRule dstKey dst route).fwd1DstFd = (peer.fwd 0).dstFd) ∧
      ∀ rt, dst = none → route = some rt →
        (peer.addRule dstKey dst route).fwd1DstFd = rt.fd ∧
          (peer.addRule dstKey dst route).fwd1DstWorker = rt.workerId := by
  unfold Peer.addRule
  cases dst <;> cases route <;> simp [h]

theorem addRule_later {peer : Peer} (h : peer.fwdCount ≠ 0) (dstKey : Key) (dst : Option Slot)
    (route : Option Route) :
    (peer.addRule dstKey dst route).fwd 0 = peer.fwd 0 ∧
      (peer.addRule dstKey dst route).fwdCount ≠ 0 ∧
      (peer.addRule dstKey dst route).fwd1Peer = peer.fwd1Peer ∧
      (peer.addRule dstKey dst route).fwd1DstFd = peer.fwd1DstFd ∧
      (peer.addRule dstKey dst route).fwd1DstWorker = peer.fwd1DstWorker := by
  unfold Peer.addRule
  dsimp only
  rw [if_neg h]
  exact ⟨Function.update_of_ne (Ne.symm h) _ _, Nat.succ_ne_zero _, rfl, rfl, rfl⟩

section

variable {s s' : Shards}

variable {u : ℕ}

theorem Tables.home_of_route (hT : s.Tables) {v : ℕ} {k : Key} {f : Fd}
    (hr : routeMap (s.ctx.workers u).routes k = some (v, f)) : v = s.home k := by
  obtain ⟨p, hl, -⟩ := hT.route u k v f hr
  exact hT.home v p k hl

theorem Tables.home_ne (hT : s.Tables) {v : ℕ} {k : Key} {f : Fd}
    (hr : routeMap (s.ctx.workers u).routes k = some (v, f))
    (hn : htLookup (s.ctx.workers u) k = none) : s.home k ≠ u := by
  obtain ⟨p, hl, -⟩ := hT.route u k v f hr
  rw [← hT.home v p k hl]
  rintro rfl
  rw [(hT.table v).lookup_iff.mpr hl] at hn
  cases hn

theorem Cached.written (hT : s.Tables) (hs : SameMaps s.ctx s'.ctx) {p : Slot}
    (hcount : ((s'.ctx.workers u).ht p).fwdCount ≠ 0)
    (hpeer : ∀ d, ((s'.ctx.workers u).ht p).fwd1Peer = some d →
      ((s.ctx.workers u).ht d).occupied = .live → s.Live u d (s'.ruleKey u p))
    (hfd : 0 ≤ ((s'.ctx.workers u).ht p).fwd1DstFd →
      routeMap (s.ctx.workers u).routes (s'.ruleKey u p) =
          some (((s'.ctx.workers u).ht p).fwd1DstWorker.toNat,
            ((s'.ctx.workers u).ht p).fwd1DstFd) ∧
        0 ≤ ((s'.ctx.workers u).ht p).fwd1DstWorker ∧
        htLookup (s.ctx.workers u) (s'.ruleKey u p) = none) : s'.Cached u p := by
  refine ⟨fun h0 => absurd h0 hcount, fun d hd hl => ?_, fun hpos => ?_⟩
  · rw [hs.occ] at hl
    exact hs.live.mpr (hpeer d hd hl)
  · obtain ⟨hroute, hnn, hnone⟩ := hfd hpos
    have hhome := hT.home_of_route hroute
    rw [hs.home]
    refine ⟨by omega, hT.home_ne hroute hnone, fun q hq => ?_⟩
    rw [hs.fdMap, ← hhome] at hq
    rw [← hhome]
    exact hs.live.mpr (hT.route_leads hroute hq)

theorem setFwdRule_cases (ctx : Ctx) (wid : ℕ) (key dstKey : Key) :
    setFwdRule ctx wid key dstKey = ctx ∨
      ∃ p, htLookup (ctx.workers wid) key = some p ∧ setFwdRule ctx wid key dstKey =
        ctx.setWorker wid ((ctx.workers wid).setPeer p
          (((ctx.workers wid).ht p).addRule dstKey (htLookup (ctx.workers wid) dstKey)
            ((routeLookup (ctx.workers wid).routes dstKey).map (ctx.workers wid).routes))) := by
  unfold setFwdRule
  dsimp only
  split
  · exact .inl rfl
  · next p hp =>
    split
    · exact .inl rfl
    · exact .inr ⟨p, hp, rfl⟩

theorem CacheOk.setRule (hT : s.Tables) (hC : s.CacheOk) {key dstKey : Key} {wid : ℕ}
    (hs' : s'.ctx = setFwdRule s.ctx wid key dstKey) : s'.CacheOk := by
  have hsame : SameMaps s.ctx s'.ctx := by
    rw [hs']
    exact setFwdRule_same _ _ _ _
  rcases setFwdRule_cases s.ctx wid key dstKey with heq | ⟨p, hp, heq⟩
  · intro u q k hl
    refine (hC u q k (hsame.live.mp hl)).same hsame.toSameTables ?_
    rw [hs', heq]
  · intro u q k hl
    have hold := hC u q k (hsame.live.mp hl)
    rw [heq] at hs'
    by_cases huq : u = wid ∧ q = p
    · obtain ⟨rfl, rfl⟩ := huq
      have hslot : (s'.ctx.workers u).ht q =
          ((s.ctx.workers u).ht q).addRule dstKey (htLookup (s.ctx.workers u) dstKey)
            ((routeLookup (s.ctx.workers u).routes dstKey).map (s.ctx.workers u).routes) := by
        rw [hs', Ctx.setWorker_self, Worker.setPeer_self]
      by_cases h0 : ((s.ctx.workers u).ht q).fwdCount = 0
      · obtain ⟨hkey, hcount, hpeer, hloc, hnone, hrt⟩ := addRule_first h0 dstKey
          (htLookup (s.ctx.workers u) dstKey)
          ((routeLookup (s.ctx.workers u).routes dstKey).map (s.ctx.workers u).routes)
        rw [← hslot] at hkey hcount hpeer hloc hnone hrt
        have hk : s'.ruleKey u q = dstKey := hkey
        obtain ⟨-, hb2, hb3⟩ := hold.blank h0
        refine Cached.written hT hsame (by rw [hcount]; decide) (fun d hd hlive => ?_)
          fun hpos => ?_
        · rw [hpeer] at hd
          rw [hk]
          exact (hT.table u).lookup_iff.mp hd
        · -- only a route leaves a non-negative fd behind
          rw [hk]
          cases hl : htLookup (s.ctx.workers u) dstKey with
          | some d =>
            rw [hloc d hl, hb2] at hpos
            exact absurd hpos (by decide)
          | none =>
            cases hr : routeLookup (s.ctx.workers u).routes dstKey with
            | none =>
              rw [hnone hl (by rw [hr]; rfl), hb3] at hpos
              exact absurd hpos (by decide)
            | some a =>
              obtain ⟨hf, hw⟩ := hrt _ hl (by rw [hr]; rfl)
              rw [hf, hw]
              exact ⟨routeMap_of_lookup hr, by omega, rfl⟩
      · obtain ⟨h1, h2, h3, h4, h5⟩ := addRule_later h0 dstKey
          (htLookup (s.ctx.workers u) dstKey)
          ((routeLookup (s.ctx.workers u).routes dstKey).map (s.ctx.workers u).routes)
        rw [← hslot] at h1 h2 h3 h4 h5
        have hk : s'.ruleKey u q = s.ruleKey u q := by
          rw [ruleKey, h1]
          rfl
        refine ⟨fun hz => absurd hz h2, fun d hd hlive => ?_, fun hpos => ?_⟩
        · rw [h3] at hd
          rw [hsame.occ] at hlive
          rw [hk]
          exact hsame.live.mpr (hold.peer d hd hlive)
        · rw [h4] at hpos
          rw [h4, h5, hk, hsame.home, hsame.fdMap]
          obtain ⟨ha, hb, hc⟩ := hold.fd hpos
          exact ⟨ha, hb, fun q' hq' => hsame.live.mpr (hc q' hq')⟩
    · refine hold.same hsame.toSameTables ?_
      rw [hs']
      by_cases hu : u = wid
      · subst hu
        rw [Ctx.setWorker_self, Worker.setPeer_ne _ _ fun hq => huq ⟨rfl, hq⟩]
      · rw [Ctx.setWorker_ne _ _ hu]

/-- What `ForwardHdData1` leaves in the rule state of its source. -/
inductive Recached (ctx : Ctx) (u : ℕ) (p : Slot) (peer : Peer) : Prop
  | same : peer.ruleState = ((ctx.workers u).ht p).ruleState → Recached ctx u p peer
  | peer (dst : Slot) : ((ctx.workers u).ht p).fwd1DstFd < 0 →
      htLookup (ctx.workers u) (((ctx.workers u).ht p).fwd 0).key = some dst →
      peer.ruleState = (((ctx.workers u).cachePeer1 p dst).ht p).ruleState → Recached ctx u p peer
  | route (r : Slot) : htLookup (ctx.workers u) (((ctx.workers u).ht p).fwd 0).key = none →
      routeLookup (ctx.workers u).routes (((ctx.workers u).ht p).fwd 0).key = some r →
      peer.ruleState =
        (((ctx.workers u).cacheRoute1 p ((ctx.workers u).routes r)).ht p).ruleState →
      Recached ctx u p peer

theorem data1Route_ruleState (ctx : Ctx) (u : ℕ) (p : Slot) (frame : Bytes) :
    Recached ctx u p (((data1Route ctx u p frame).1.workers u).ht p) ∧
      ∀ a q, ¬(a = u ∧ q = p) → (((data1Route ctx u p frame).1.workers a).ht q).ruleState =
        ((ctx.workers a).ht q).ruleState := by
  have hcase := data1Route_case ctx u p frame
  generalize data1Route ctx u p frame = r at hcase
  have hother : ∀ (ctx1 : Ctx) (w : Worker) (ok : Bool), frameAlloc ctx u = (ok, ctx1) →
      (∀ q, q ≠ p → (w.ht q).ruleState = ((ctx.workers u).ht q).ruleState) →
      ∀ a q, ¬(a = u ∧ q = p) → (((ctx1.setWorker u w).workers a).ht q).ruleState =
        ((ctx.workers a).ht q).ruleState := by
    intro ctx1 w ok hf hw a q hne
    obtain ⟨ao, rfl⟩ := frameAlloc_eq hf
    by_cases ha : a = u
    · subst ha
      rw [Ctx.setWorker_self]
      exact hw q fun hq => hne ⟨rfl, hq⟩
    · rw [setWorker_setWorker, Ctx.setWorker_ne _ _ ha]
  have halloc : ∀ (ctx1 : Ctx) (ok : Bool), frameAlloc ctx u = (ok, ctx1) →
      ctx1 = ctx1.setWorker u (ctx1.workers u) ∧ (ctx1.workers u).ht = (ctx.workers u).ht := by
    intro ctx1 ok hf
    obtain ⟨ao, rfl⟩ := frameAlloc_eq hf
    rw [setWorker_workers, Ctx.setWorker_self]
    exact ⟨rfl, rfl⟩
  cases hcase with
  | noMemory ctx1 hf =>
    obtain ⟨hset, hht⟩ := halloc ctx1 false hf
    dsimp only
    refine ⟨.same (by rw [hht]), ?_⟩
    rw [hset]
    exact hother ctx1 _ false hf fun q _ => by rw [hht]
  | cachedPeer ctx1 dst hf _ _ =>
    obtain ⟨-, hht⟩ := halloc ctx1 true hf
    have hq : ∀ q, ((enqueueSend (ctx1.workers u) dst frame).ht q).ruleState =
        ((ctx.workers u).ht q).ruleState := by
      intro q
      rw [(enqueueSend_sendOnly _ _ _).ruleState, hht]
    dsimp only
    refine ⟨.same (by rw [Ctx.setWorker_self, hq]), hother ctx1 _ true hf fun q _ => hq q⟩
  | cachedFd ctx1 hf _ _ =>
    obtain ⟨hset, hht⟩ := halloc ctx1 true hf
    dsimp only
    refine ⟨.same (by rw [hht]), ?_⟩
    rw [hset]
    exact hother ctx1 _ true hf fun q _ => by rw [hht]
  | foundPeer ctx1 dst hf hfd hl =>
    obtain ⟨-, hht⟩ := halloc ctx1 true hf
    have hq : ∀ q, ((enqueueSend ((ctx1.workers u).cachePeer1 p dst) dst frame).ht q).ruleState =
        (((ctx.workers u).cachePeer1 p dst).ht q).ruleState := by
      intro q
      rw [(enqueueSend_sendOnly _ _ _).ruleState]
      simp only [Worker.cachePeer1, Worker.setPeer, hht]
    dsimp only
    refine ⟨.peer dst hfd hl (by rw [Ctx.setWorker_self, hq]), hother ctx1 _ true hf
      fun q hqp => ?_⟩
    rw [hq, Worker.cachePeer1, Worker.setPeer_ne _ _ hqp]
  | noRoute ctx1 hf =>
    obtain ⟨-, hht⟩ := halloc ctx1 true hf
    dsimp only
    refine ⟨.same (by rw [Ctx.setWorker_self, hht]), hother ctx1 _ true hf fun q _ => ?_⟩
    rw [hht]
  | foundRoute ctx1 r hf _ hl hroute =>
    obtain ⟨-, hht⟩ := halloc ctx1 true hf
    have hq : ∀ q, (((ctx1.workers u).cacheRoute1 p ((ctx.workers u).routes r)).ht q) =
        ((ctx.workers u).cacheRoute1 p ((ctx.workers u).routes r)).ht q := by
      intro q
      simp only [Worker.cacheRoute1, Worker.setPeer, hht]
    dsimp only
    refine ⟨.route r hl hroute (by rw [Ctx.setWorker_self, hq]), hother ctx1 _ true hf
      fun q hqp => ?_⟩
    rw [hq, Worker.cacheRoute1, Worker.setPeer_ne _ _ hqp]

theorem CacheOk.data1 (hT : s.Tables) (hC : s.CacheOk) {p : Slot} {frame : Bytes}
    (hone : ((s.ctx.workers u).ht p).fwdCount = 1) (hs' : s'.ctx = (data1Route s.ctx u p frame).1) :
    s'.CacheOk := by
  have hsame : SameMaps s.ctx s'.ctx := by
    rw [hs']
    exact .of_core (data1Route_effs _ _ _ _).core
  obtain ⟨hself, hother⟩ := data1Route_ruleState s.ctx u p frame
  rw [← hs'] at hself hother
  intro a q k hl
  have hold := hC a q k (hsame.live.mp hl)
  by_cases haq : a = u ∧ q = p
  · obtain ⟨rfl, rfl⟩ := haq
    cases hself with
    | same hr => exact hold.same hsame.toSameTables hr
    | peer dst hfd hlk hr =>
      have hkey : s'.ruleKey a q = s.ruleKey a q := by
        have hfwd : ((s'.ctx.workers a).ht q).fwd = _ := (congrArg Peer.fwd hr :)
        simp [ruleKey, hfwd, Worker.cachePeer1, Peer.ruleState]
      have h1 : ((s'.ctx.workers a).ht q).fwd1Peer = some dst := by
        have := congrArg Peer.fwd1Peer hr
        simpa [Peer.ruleState, Worker.cachePeer1] using this
      have h2 : ((s'.ctx.workers a).ht q).fwd1DstFd = ((s.ctx.workers a).ht q).fwd1DstFd := by
        have := congrArg Peer.fwd1DstFd hr
        simpa [Peer.ruleState, Worker.cachePeer1] using this
      have h3 : ((s'.ctx.workers a).ht q).fwdCount = ((s.ctx.workers a).ht q).fwdCount := by
        have := congrArg Peer.fwdCount hr
        simpa [Peer.ruleState, Worker.cachePeer1] using this
      refine Cached.written hT hsame (by rw [h3, hone]; decide) (fun d hd _ => ?_) fun hpos => ?_
      · rw [h1] at hd
        cases hd
        rw [hkey]
        exact (hT.table a).lookup_iff.mp hlk
      · rw [h2] at hpos
        exact absurd hpos (not_le.mpr hfd)
    | route r hlk hroute hr =>
      have hkey : s'.ruleKey a q = s.ruleKey a q := by
        have hfwd : ((s'.ctx.workers a).ht q).fwd = _ := (congrArg Peer.fwd hr :)
        simp [ruleKey, hfwd, Worker.cacheRoute1, Peer.ruleState]
      have h1 : ((s'.ctx.workers a).ht q).fwd1Peer = ((s.ctx.workers a).ht q).fwd1Peer := by
        have := congrArg Peer.fwd1Peer hr
        simpa [Peer.ruleState, Worker.cacheRoute1] using this
      have h2 : ((s'.ctx.workers a).ht q).fwd1DstFd = ((s.ctx.workers a).routes r).fd := by
        have := congrArg Peer.fwd1DstFd hr
        simpa [Peer.ruleState, Worker.cacheRoute1] using this
      have h4 : ((s'.ctx.workers a).ht q).fwd1DstWorker =
          ((s.ctx.workers a).routes r).workerId := by
        have := congrArg Peer.fwd1DstWorker hr
        simpa [Peer.ruleState, Worker.cacheRoute1] using this
      have h3 : ((s'.ctx.workers a).ht q).fwdCount = ((s.ctx.workers a).ht q).fwdCount := by
        have := congrArg Peer.fwdCount hr
        simpa [Peer.ruleState, Worker.cacheRoute1] using this
      refine Cached.written hT hsame (by rw [h3, hone]; decide) (fun d hd hlive => ?_)
        fun _ => ?_
      · rw [h1] at hd
        rw [hkey]
        exact hold.peer d hd hlive
      · rw [hkey, h2, h4]
        exact ⟨routeMap_of_lookup hroute, by omega, hlk⟩
  · exact hold.same hsame.toSameTables (hother a q haq)

end

/-! ### Steps that leave the caches alone -/

theorem allocEnqueue_sendOnly (w : Worker) (q : Slot) (data : Bytes) :
    SendOnly q w (allocEnqueue w q data) := by
  have ha := SendOnly.alloc q w
  unfold allocEnqueue
  rcases hal : w.alloc with ⟨ok, w1⟩
  rw [hal] at ha
  cases ok with
  | false => exact ha
  | true => exact ha.trans (enqueueSend_sendOnly w1 q data)

theorem forwardLocal_sendOnly (w : Worker) (dst : Slot) (payload frame : Bytes) :
    SendOnly dst w (forwardLocal w dst payload frame) := by
  unfold forwardLocal
  split
  · split
    · exact SendOnly.refl dst w
    · exact allocEnqueue_sendOnly w dst _
  · exact enqueueSend_sendOnly w dst frame

theorem ruleState_setWorker {ctx : Ctx} {v : ℕ} {w : Worker}
    (h : ∀ q, (w.ht q).ruleState = ((ctx.workers v).ht q).ruleState) (a : ℕ) (q : Slot) :
    (((ctx.setWorker v w).workers a).ht q).ruleState = ((ctx.workers a).ht q).ruleState := by
  by_cases ha : a = v
  · subst ha
    rw [Ctx.setWorker_self, h]
  · rw [Ctx.setWorker_ne _ _ ha]

theorem frameAlloc_ruleState {ctx ctx1 : Ctx} {wid : ℕ} {ok : Bool}
    (h : frameAlloc ctx wid = (ok, ctx1)) (a : ℕ) (q : Slot) :
    ((ctx1.workers a).ht q).ruleState = ((ctx.workers a).ht q).ruleState := by
  obtain ⟨ao, hctx1⟩ := frameAlloc_eq h
  rw [((setOracle_same hctx1).2 a).1]

theorem packetRoute_ruleState (ctx : Ctx) (wid : ℕ) (payload : Bytes) (src : Slot) (a : ℕ)
    (q : Slot) : (((packetRoute ctx wid payload src).1.workers a).ht q).ruleState =
      ((ctx.workers a).ht q).ruleState := by
  unfold packetRoute
  split
  · rfl
  · split
    · rfl
    · rcases hf : frameAlloc ctx wid with ⟨ok, ctx1⟩
      have ha := frameAlloc_ruleState hf a q
      cases ok with
      | false => exact ha
      | true =>
        dsimp only
        split
        · refine Eq.trans ?_ ha
          exact ruleState_setWorker (forwardLocal_sendOnly _ _ _ _).ruleState a q
        · split
          · exact ha
          · exact ha

theorem popXfer_ruleState {ctx ctx' : Ctx} {v src : ℕ} (h : popXfer ctx v src = some ctx') (a : ℕ)
    (q : Slot) :
    ((ctx'.workers a).ht q).ruleState = ((ctx.workers a).ht q).ruleState := by
  unfold popXfer at h
  dsimp only at h
  split at h
  · cases h
  · cases h
    refine ruleState_setWorker (fun q => ?_) a q
    unfold xferDeliver
    split
    · rfl
    · rw [(enqueueSend_sendOnly _ _ _).ruleState]

theorem withIoPath_ruleState (w : Worker) (q : Slot) (w0 : Worker) (a : Slot) :
    ((w.withIoPath q w0).ht a).ruleState = (w.ht a).ruleState := by
  by_cases ha : a = q
  · subst ha
    simp [Worker.withIoPath, Peer.ruleState]
  · simp [Worker.withIoPath, Worker.setPeer_ne _ _ ha]

/-! ### The condition and the invariant -/

/-- What keeps the rules of a run right. An add does not capture a rule's frame
or a rule's cache of another key; a removal leaves no second way to the peer and
no frame for it under way; the same for the end of a connection; a frame finds
memory, and its destination, when live, registered under its own fd and under
the one that the rule caches. -/
def ruleOk (s : Shards) : ShardStep → Prop
  | .add fd key _ _ => AddClear ruleSel s fd key ∧ s.CacheAddClear fd key
  | .remove key => RemoveClear ruleSel s key ∧ s.CacheRemoveClear key ∧
      ∀ f g, ¬s.Waiting (s.home key) f g (.rule key true)
  | .eof v fd => ∀ g k, ¬s.Waiting v fd g (.rule k true)
  | .data1 u p _ => (frameAlloc s.ctx u).1 = true ∧
      ∀ q, s.Live (s.home (s.ruleKey u p)) q (s.ruleKey u p) → s.home (s.ruleKey u p) ≠ u →
        (s.ctx.workers (s.home (s.ruleKey u p))).fdMap
            ((s.ctx.workers (s.home (s.ruleKey u p))).ht q).fd = some q ∧
          (0 ≤ ((s.ctx.workers u).ht p).fwd1DstFd →
            (s.ctx.workers (s.home (s.ruleKey u p))).fdMap ((s.ctx.workers u).ht p).fwd1DstFd =
              some q)
  | _ => True

def DueOk (s : Shards) : Prop :=
  ∀ v f g k, s.Waiting v f g (.rule k true) → ∃ p, s.Leads v f g p ∧ s.Live v p k

def LinkedOk (s : Shards) : Prop := ∀ v q, ((s.ctx.workers v).ht q).send.Linked

structure RuleInv (s : Shards) : Prop where
  tables : s.Tables
  cache : s.CacheOk
  keyed : Keyed ruleSel s
  due : s.DueOk
  linked : s.LinkedOk

section

variable {s s' : Shards} {l : ShardStep}

theorem step_cacheOk (hT : s.Tables) (hC : s.CacheOk) (hok : s.ruleOk l) (hs : s.step l = some s') :
    s'.CacheOk := by
  have hquiet : SameTables s.ctx s'.ctx →
      (∀ u p, ((s'.ctx.workers u).ht p).ruleState = ((s.ctx.workers u).ht p).ruleState) →
      s'.CacheOk := by
    intro hsame hr u p k hl
    exact (hC u p k (hsame.live.mp hl)).same hsame (hr u p)
  cases l with
  | add fd key proto peerId =>
    rcases step_add hT hs with ⟨p, hadd⟩ | ⟨⟨v, ao, hctx⟩, -, -⟩
    · exact hC.added hadd hok.2
    · refine hquiet (SameMaps.of_core (setOracle_same hctx).1).toSameTables fun u p => ?_
      rw [((setOracle_same hctx).2 u).1]
  | remove key =>
    rcases step_remove hT hs with rfl | ⟨p, hrem⟩
    · exact hC
    · exact hC.removed hT hrem hok.2.1
  | setRule key dstKey =>
    simp only [step] at hs
    split at hs
    · cases hs
      exact hC.setRule hT rfl
    · cases hs
  | packet u p payload =>
    simp only [step] at hs
    split at hs
    · cases hs
      exact hquiet (SameMaps.of_core (packetRoute_spec _ _ _ _).1.core).toSameTables
        (packetRoute_ruleState _ _ _ _)
    · cases hs
  | data1 u p frame =>
    simp only [step] at hs
    split at hs
    · next hg =>
      cases hs
      exact hC.data1 hT hg.2.2.2 rfl
    · cases hs
  | load u =>
    simp only [step] at hs
    split at hs
    · cases hs
      exact hquiet (SameMaps.of_core rfl).toSameTables fun _ _ => rfl
    · cases hs
  | push u =>
    simp only [step] at hs
    split at hs
    · cases hs
      refine hquiet (SameMaps.of_core (xferSpscPush_core _ _ _ _)).toSameTables fun u p => ?_
      dsimp only
      rw [xferSpscPush_ht]
    · cases hs
  | pop v src =>
    simp only [step] at hs
    split at hs
    · obtain ⟨ctx, hpop, rfl⟩ := Option.map_eq_some_iff.mp hs
      exact hquiet (SameMaps.of_core (popXfer_core hpop)).toSameTables (popXfer_ruleState hpop)
    · cases hs
  | eof v fd =>
    simp only [step] at hs
    split at hs
    · obtain ⟨p, hp, rfl⟩ := Option.map_eq_some_iff.mp hs
      exact hquiet (closeFd_same _ _ _ _) (ruleState_setWorker fun _ => rfl)
    · cases hs
  | ioPath v q w0 =>
    simp only [step] at hs
    split at hs
    · cases hs
      exact hquiet (withIoPath_same _ _ _ _).toSameTables
        (ruleState_setWorker (withIoPath_ruleState _ q w0))
    · cases hs

theorem step_keyed (hT : s.Tables) (hC : s.CacheOk) (hK : Keyed ruleSel s) (hok : s.ruleOk l)
    (hs : s.step l = some s') : Keyed ruleSel s' := by
  refine hK.step hT hs ?_ ?_ ?_
  · rintro fd key proto peerId rfl
    exact hok.1
  · rintro key rfl
    exact hok.1
  · intro v f o k p hf hsel hm
    cases hf with
    | packet u q payload v f k' hroute => cases hsel
    | cached u q frame v hpos hw =>
      cases hsel
      have hlive : s.Live u q ((s.ctx.workers u).ht q).key := by
        simp only [step] at hs
        split at hs
        · next hg => exact ⟨hg.2.1, rfl⟩
        · cases hs
      obtain ⟨h1, -, h3⟩ := (hC u q _ hlive).fd hpos
      have hv : v = s.home (s.ruleKey u q) := by
        rw [hw] at h1
        exact_mod_cast h1
      subst hv
      exact h3 p hm
    | routed u q frame v f _ _ hroute =>
      cases hsel
      exact hT.route_leads hroute hm

variable {v u : ℕ} {p : Slot} {frame : Bytes}

theorem Leads.load {f : Fd} {g g' : Option ℕ} (h : s.Leads v f g' p)
    (hg : g' = g ∨ (g' = none ∧ g = some ((s.ctx.workers v).fdGen f))) : s.Leads v f g p := by
  rcases hg with rfl | ⟨rfl, rfl⟩
  · exact h
  · refine ⟨h.1, fun n hn => ?_⟩
    cases hn
    rfl

theorem Fresh.due (hT : s.Tables) (hC : s.CacheOk)
    (hlive : ((s.ctx.workers u).ht p).occupied = .live) (hok : s.ruleOk (.data1 u p frame)) {f : Fd}
    {k : Key} (hf : Fresh s (.data1 u p frame) v f (.rule k true)) :
    ∃ q, (s.ctx.workers v).fdMap f = some q ∧ s.Live v q k := by
  have hdue : ∀ K, true = (htLookup (s.ctx.workers (s.home K)) K).isSome →
      ∃ q, s.Live (s.home K) q K := by
    intro K hK
    obtain ⟨q, hq⟩ := Option.isSome_iff_exists.mp hK.symm
    exact ⟨q, (hT.table _).lookup_iff.mp hq⟩
  generalize hl : (ShardStep.data1 u p frame) = l at hf
  generalize ho : (Origin.rule k true) = o at hf
  cases hf with
  | packet u' q payload v f k' hroute => cases hl
  | cached u' p' frame' v hpos hw =>
    cases hl
    obtain ⟨hk, hd⟩ := Origin.rule.inj ho
    subst hk
    obtain ⟨q, hq⟩ := hdue _ hd
    obtain ⟨h1, h2, -⟩ := (hC u p _ ⟨hlive, rfl⟩).fd hpos
    have hv : v = s.home (s.ruleKey u p) := by
      rw [hw] at h1
      exact_mod_cast h1
    subst hv
    exact ⟨q, (hok.2 q hq h2).2 hpos, hq⟩
  | routed u' p' frame' v f _ hnone hroute =>
    cases hl
    obtain ⟨hk, hd⟩ := Origin.rule.inj ho
    subst hk
    obtain ⟨q, hq⟩ := hdue _ hd
    obtain ⟨q', hq', hfd⟩ := hT.route u _ v f hroute
    obtain ⟨rfl, rfl⟩ := Live.unique hT hq' hq
    exact ⟨q', by rw [← hfd]; exact (hok.2 q' hq (hT.home_ne hroute hnone)).1, hq⟩

theorem step_due (hT : s.Tables) (hC : s.CacheOk) (hD : s.DueOk) (hok : s.ruleOk l)
    (hs : s.step l = some s') : s'.DueOk := by
  intro v f g k hw
  have hwait := step_waiting hT hs hw
  -- where the frame led before the step
  have hold : ∀ g', s.Waiting v f g' (.rule k true) →
      (g' = g ∨ (g' = none ∧ g = some ((s.ctx.workers v).fdGen f))) →
      ∃ p, s.Leads v f g p ∧ s.Live v p k := by
    intro g' hw' hg
    obtain ⟨p, hlead, hlive⟩ := hD v f g' k hw'
    exact ⟨p, hlead.load hg, hlive⟩
  cases step_kind hT hs with
  | added s' p0 fd key proto peerId ha =>
    rcases hwait with ⟨g', hw', hg⟩ | ⟨-, hf⟩
    · obtain ⟨p, hlead, hlive⟩ := hold g' hw' hg
      have hne : ¬(v = s.home key ∧ f = fd) := fun hc => ha.entry_ne hT hlead.1 hc.2
      refine ⟨p, ⟨?_, fun n hn => ?_⟩, ha.live_keep hlive⟩
      · rw [ha.fdMap, if_neg hne]
        exact hlead.1
      · rw [ha.fdGen, if_neg hne]
        exact hlead.2 n hn
    · cases hf
  | removed s' p0 key hr =>
    rcases hwait with ⟨g', hw', hg⟩ | ⟨-, hf⟩
    · obtain ⟨p, hlead, hlive⟩ := hold g' hw' hg
      have hne : ¬(v = s.home key ∧ p = p0) := by
        rintro ⟨rfl, rfl⟩
        rw [← hlive.2.symm.trans hr.live.2] at hok
        exact hok.2.2 f g' (by rwa [hT.home _ p k hlive] at hw')
      refine ⟨p, ⟨?_, fun n hn => ?_⟩, hr.live_iff.mpr ⟨hne, hlive⟩⟩
      · rw [hr.fdMap hT, if_neg]
        · exact hlead.1
        · rintro ⟨rfl, rfl⟩
          exact hne ⟨rfl, (hT.entry _ p0 key _ p hr.live hlead.1).2⟩
      · rw [hr.fdGen]
        exact hlead.2 n hn
    · cases hf
  | ended s' u fd hsame _ hmap =>
    rcases hwait with ⟨g', hw', hg⟩ | ⟨-, hf⟩
    · obtain ⟨p, hlead, hlive⟩ := hold g' hw' hg
      refine ⟨p, ⟨?_, fun n hn => ?_⟩, hsame.live.mpr hlive⟩
      · rw [hmap]
        · exact hlead.1
        · rintro ⟨rfl, rfl⟩
          exact hok g' k hw'
      · rw [hsame.fdGen]
        exact hlead.2 n hn
    · cases hf
  | same s' l hsame _ =>
    rcases hwait with ⟨g', hw', hg⟩ | ⟨rfl, hf⟩
    · obtain ⟨p, hlead, hlive⟩ := hold g' hw' hg
      refine ⟨p, ⟨?_, fun n hn => ?_⟩, hsame.live.mpr hlive⟩
      · rw [hsame.fdMap]
        exact hlead.1
      · rw [hsame.fdGen]
        exact hlead.2 n hn
    · have hd1 : ∃ u p frame, l = .data1 u p frame := by
        generalize ho : (Origin.rule k true) = o at hf
        cases hf with
        | packet u p payload v f k' _ => cases ho
        | cached u p frame v _ _ => exact ⟨u, p, frame, rfl⟩
        | routed u p frame v f _ _ _ => exact ⟨u, p, frame, rfl⟩
      obtain ⟨u, p, frame, rfl⟩ := hd1
      have hlive : ((s.ctx.workers u).ht p).occupied = .live := by
        simp only [step] at hs
        split at hs
        · next hg => exact hg.2.1
        · cases hs
      obtain ⟨q, hq, hlq⟩ := hf.due hT hC hlive hok
      refine ⟨q, ⟨?_, fun n hn => by cases hn⟩, hsame.live.mpr hlq⟩
      rw [hsame.fdMap]
      exact hq

/-! ### Queues stay linked -/

theorem linked_setWorker {ctx : Ctx} {w : Worker} (hL : ∀ u q, ((ctx.workers u).ht q).send.Linked)
    (hw : ∀ q, (w.ht q).send.Linked) (u : ℕ) (q : Slot) :
    (((ctx.setWorker v w).workers u).ht q).send.Linked := by
  by_cases hu : u = v
  · subst hu
    rw [Ctx.setWorker_self]
    exact hw q
  · rw [Ctx.setWorker_ne _ _ hu]
    exact hL u q

theorem enqueueSend_linked {w : Worker} (hw : ∀ q, (w.ht q).send.Linked) (p : Slot) (data : Bytes)
    (q : Slot) : ((enqueueSend w p data).ht q).send.Linked := by
  by_cases hq : q = p
  · subst hq
    exact (enqueueSend_accept (hw q) data).1
  · rw [((enqueueSend_sendOnly w p data).peer q).2 hq]
    exact hw q

theorem Effs.linked {wid : ℕ} {PE : Slot → Bytes → Prop} {PX : ℕ → Xfer → Prop} {ctx ctx' : Ctx}
    (h : Effs wid p PE PX ctx ctx') (hL : ∀ u q, ((ctx.workers u).ht q).send.Linked) (u : ℕ)
    (q : Slot) :
    ((ctx'.workers u).ht q).send.Linked := by
  induction h generalizing u q with
  | refl => exact hL u q
  | tail _ hstep ih =>
    cases hstep with
    | enqueue a data _ => exact linked_setWorker ih (enqueueSend_linked (ih wid) a data) u q
    | rules a b c d =>
      refine linked_setWorker ih (fun q => ?_) u q
      by_cases hq : q = p
      · subst hq
        rw [Worker.setPeer_self]
        exact ih wid q
      · rw [Worker.setPeer_ne _ _ hq]
        exact ih wid q
    | account a b c =>
      refine linked_setWorker ih ?_ u q
      exact ih wid
    | xfer dst x _ =>
      rw [xferSpscPush_ht]
      exact ih u q

theorem step_linked (hT : s.Tables) (hL : s.LinkedOk) (hs : s.step l = some s') : s'.LinkedOk := by
  cases l with
  | add fd key proto peerId =>
    rcases step_add hT hs with ⟨p, hadd⟩ | ⟨⟨v, ao, hctx⟩, -, -⟩
    · intro u q
      by_cases hup : u = s.home key ∧ q = p
      · obtain ⟨rfl, rfl⟩ := hup
        obtain ⟨proto, peerId, hpa⟩ := hadd.peer
        intro t ht
        rw [hpa.send.2] at ht
        cases ht
      · rw [hadd.ht_other hup]
        exact hL u q
    · intro u q
      rw [((setOracle_same hctx).2 u).1]
      exact hL u q
  | remove key =>
    rcases step_remove hT hs with rfl | ⟨p, hrem⟩
    · exact hL
    · intro u q
      by_cases hup : u = s.home key ∧ q = p
      · obtain ⟨rfl, rfl⟩ := hup
        rw [hrem.peer.slot]
        intro t ht
        cases ht
      · rw [hrem.ht_other hup]
        exact hL u q
  | setRule key dstKey =>
    simp only [step] at hs
    split at hs
    · cases hs
      intro u q
      dsimp only
      rcases setFwdRule_cases s.ctx (s.home key) key dstKey with heq | ⟨p, -, heq⟩
      · rw [heq]
        exact hL u q
      · rw [heq]
        refine linked_setWorker hL (fun q => ?_) u q
        by_cases hq : q = p
        · subst hq
          obtain ⟨a, b, c, d, e, hadd⟩ := addRule_same (s.ctx.workers (s.home key)) q dstKey
          rw [Worker.setPeer_self, hadd]
          exact hL _ q
        · rw [Worker.setPeer_ne _ _ hq]
          exact hL _ q
    · cases hs
  | packet u p payload =>
    simp only [step] at hs
    split at hs
    · cases hs
      exact Effs.linked (packetRoute_spec _ _ _ _).1 hL
    · cases hs
  | data1 u p frame =>
    simp only [step] at hs
    split at hs
    · cases hs
      exact Effs.linked (data1Route_effs _ _ _ _) hL
    · cases hs
  | load u =>
    simp only [step] at hs
    split at hs
    · cases hs
      exact hL
    · cases hs
  | push u =>
    simp only [step] at hs
    split at hs
    · cases hs
      intro u q
      dsimp only
      rw [xferSpscPush_ht]
      exact hL u q
    · cases hs
  | pop v src =>
    simp only [step] at hs
    split at hs
    · obtain ⟨ctx, hpop, rfl⟩ := Option.map_eq_some_iff.mp hs
      unfold popXfer at hpop
      dsimp only at hpop
      split at hpop
      · cases hpop
      · cases hpop
        refine linked_setWorker hL fun q => ?_
        unfold xferDeliver
        split
        · exact hL v q
        · refine enqueueSend_linked ?_ _ _ q
          exact hL v
    · cases hs
  | eof v fd =>
    simp only [step] at hs
    split at hs
    · obtain ⟨p, hp, rfl⟩ := Option.map_eq_some_iff.mp hs
      exact linked_setWorker hL (hL v)
    · cases hs
  | ioPath v q w0 =>
    simp only [step] at hs
    split at hs
    · next hg =>
      cases hs
      refine linked_setWorker hL fun a => ?_
      by_cases ha : a = q
      · subst ha
        simpa [Worker.withIoPath] using hg.2
      · simpa [Worker.withIoPath, Worker.setPeer_ne _ _ ha] using hL v a
    · cases hs

theorem step_ruleInv (h : s.RuleInv) (hok : s.ruleOk l) (hs : s.step l = some s') : s'.RuleInv :=
  ⟨step_tables h.tables hs, step_cacheOk h.tables h.cache hok hs,
    step_keyed h.tables h.cache h.keyed hok hs, step_due h.tables h.cache h.due hok hs,
    step_linked h.tables h.linked hs⟩

theorem Init.ruleInv (h : s.Init) : s.RuleInv := by
  refine ⟨h.tables, fun u p k hl => ?_, fun v f g o k p hw => absurd hw h.not_waiting,
    fun v f g k hw => absurd hw h.not_waiting, fun v q t ht => ?_⟩
  · rw [Live, h.workers] at hl
    cases hl.1
  · rw [h.workers] at ht
    cases ht

/-! ### Delivery -/

/-- A node that this step allocated carries the frame in the queue. -/
def Queued (s s' : Shards) (v : ℕ) (q : Slot) (data : Bytes) : Prop :=
  ∃ item ∈ s'.queue v q, item.data = data ∧ item.id = (s.ctx.workers v).nextItem

def Dropped (s s' : Shards) (v : ℕ) : Prop :=
  (s'.ctx.workers v).stats.drops = (s.ctx.workers v).stats.drops + 1

/-- Frames of a rule are only queued for the live peer that the rule names; and
one that was dispatched while that peer was live is queued for it or counted as
dropped, by the step that dispatches it or by the one that pops it. -/
def RuleDelivery (s s' : Shards) : ShardStep → Prop
  | .data1 u p frame =>
    (∀ v q, ∀ item ∈ s'.queue v q, item ∈ s.queue v q ∨ s'.Live v q (s.ruleKey u p)) ∧
      ∀ q, s.Live (s.home (s.ruleKey u p)) q (s.ruleKey u p) →
        s.Queued s' (s.home (s.ruleKey u p)) q frame ∨ s.Dropped s' u ∨
          ∃ h, s'.held u = some h ∧ h.frame = frame ∧ h.origin = .rule (s.ruleKey u p) true
  | .pop v src => ∀ x rest k due, (s.ctx.workers v).xferInbox src = x :: rest →
      x.tag = some (.rule k due) →
      (∀ u q, ∀ item ∈ s'.queue u q, item ∈ s.queue u q ∨ s'.Live u q k) ∧
        (due = true → ∃ q, s'.Live v q k ∧ (s.Queued s' v q x.frame ∨ s.Dropped s' v))
  | _ => True

theorem Tables.home_lt (hT : s.Tables) (k : Key) : s.home k < s.ctx.numWorkers :=
  Nat.mod_lt _ hT.pos

theorem Tables.holdRule_home (hT : s.Tables) {k : Key} (hne : s.home k ≠ u) (f : Fd)
    (frame : Bytes) : holdRule s.ctx u (s.home k : ℤ) f frame k =
      some ⟨s.home k, f, frame, .rule k false, none⟩ := by
  have hlt := hT.home_lt k
  unfold holdRule
  rw [if_neg (by omega)]
  rfl

theorem RuleInv.queued (h : s.RuleInv) {q : Slot} {w : Worker}
    (hsend : (w.ht q).send = ((s.ctx.workers u).ht q).send)
    (hnext : w.nextItem = (s.ctx.workers u).nextItem) (hstats : w.stats = (s.ctx.workers u).stats)
    (hw : s'.ctx.workers u = enqueueSend w q frame) :
    s.Queued s' u q frame ∨ s.Dropped s' u := by
  have hl : (w.ht q).send.Linked := by
    rw [hsend]
    exact h.linked u q
  rcases (enqueueSend_accept hl frame).2 with hd | ⟨item, hmem, hdata, hid⟩
  · right
    rw [Dropped, hw, hd, hstats]
  · left
    refine ⟨item, ?_, hdata, by rw [hid, hnext]⟩
    rw [queue, hw]
    exact hmem

theorem RuleInv.data1 (h : s.RuleInv) (hok : s.ruleOk (.data1 u p frame))
    (hs : s.step (.data1 u p frame) = some s') :
    RuleDelivery s s' (.data1 u p frame) := by
  have hT := h.tables
  simp only [step] at hs
  split at hs
  · next hg =>
    have hcached := h.cache u p _ ⟨hg.2.1, rfl⟩
    have hsame : SameMaps s.ctx (data1Route s.ctx u p frame).1 :=
      .of_core (data1Route_effs _ _ _ _).core
    cases hs
    constructor
    · intro v q item hi
      rcases (data1Route_effs s.ctx u p frame).queue hi with hold | ⟨rfl, -, hq⟩
      · exact .inl hold
      · refine .inr ?_
        rw [Live, hsame.occ, hsame.key]
        rcases hq with ⟨hq, hlive⟩ | hq
        · exact hcached.peer q hq hlive
        · exact (hT.table v).lookup_iff.mp hq
    · intro q hq
      have hlk : (htLookup (s.ctx.workers (s.home (s.ruleKey u p))) (s.ruleKey u p)).isSome =
          true := by
        rw [(hT.table _).lookup_iff.mpr hq]
        rfl
      have hheld : ∀ (o : Option Held) f,
          o = some ⟨s.home (s.ruleKey u p), f, frame, .rule (s.ruleKey u p) false, none⟩ →
          ∃ h, Function.update s.held u (o.map s.markDue) u = some h ∧ h.frame = frame ∧
            h.origin = .rule (s.ruleKey u p) true := by
        rintro _ f rfl
        rw [Function.update_self]
        exact ⟨_, rfl, rfl, by simp only [markDue, hlk]⟩
      have hcase := data1Route_case s.ctx u p frame
      generalize data1Route s.ctx u p frame = r at hcase
      cases hcase with
      | noMemory ctx1 hf =>
        have hmem := hok.1
        rw [hf] at hmem
        cases hmem
      | cachedPeer ctx1 dst hf h1 h2 =>
        obtain ⟨hu, rfl⟩ := Live.unique hT (hcached.peer dst h1 h2) hq
        obtain ⟨ao, hctx1⟩ := frameAlloc_eq hf
        have hw1 : ctx1.workers u = { s.ctx.workers u with allocOracle := ao } := by
          rw [hctx1, Ctx.setWorker_self]
        rw [← hu]
        refine Or.imp id .inl (h.queued (w := ctx1.workers u) ?_ ?_ ?_ (Ctx.setWorker_self ..))
        all_goals rw [hw1]
      | cachedFd ctx1 hf _ hpos =>
        obtain ⟨hw, hne, -⟩ := hcached.fd hpos
        refine .inr (.inr (hheld _ ((s.ctx.workers u).ht p).fwd1DstFd ?_))
        rw [hw]
        exact hT.holdRule_home hne _ _
      | foundPeer ctx1 dst hf _ hl =>
        obtain ⟨hu, rfl⟩ := Live.unique hT ((hT.table u).lookup_iff.mp hl) hq
        obtain ⟨ao, hctx1⟩ := frameAlloc_eq hf
        have hw1 : ctx1.workers u = { s.ctx.workers u with allocOracle := ao } := by
          rw [hctx1, Ctx.setWorker_self]
        have hsend : ((((ctx1.workers u).cachePeer1 p dst).ht dst).send) =
            ((s.ctx.workers u).ht dst).send := by
          rw [hw1]
          by_cases hdp : dst = p
          · subst hdp
            simp [Worker.cachePeer1]
          · simp [Worker.cachePeer1, Worker.setPeer_ne _ _ hdp]
        have hsame1 : ((ctx1.workers u).cachePeer1 p dst).nextItem =
            (s.ctx.workers u).nextItem ∧
            ((ctx1.workers u).cachePeer1 p dst).stats = (s.ctx.workers u).stats := by
          rw [hw1]
          exact ⟨rfl, rfl⟩
        rw [← hu]
        exact Or.imp id .inl (h.queued hsend hsame1.1 hsame1.2 (Ctx.setWorker_self ..))
      | noRoute ctx1 hf =>
        obtain ⟨ao, hctx1⟩ := frameAlloc_eq hf
        refine .inr (.inl ?_)
        rw [Dropped, Ctx.setWorker_self, hctx1, Ctx.setWorker_self]
        simp only [WorkerStats.drops]
        omega
      | foundRoute ctx1 r hf _ hnone hroute =>
        have hm := routeMap_of_lookup hroute
        have hhome := hT.home_of_route hm
        refine .inr (.inr (hheld _ ((s.ctx.workers u).routes r).fd ?_))
        rw [hhome]
        exact hT.holdRule_home (hT.home_ne hm hnone) _ _
  · cases hs

theorem RuleInv.pop (h : s.RuleInv) {src : ℕ} (hs : s.step (.pop v src) = some s') :
    RuleDelivery s s' (.pop v src) := by
  have hT := h.tables
  intro x rest k due hx htag
  simp only [step] at hs
  split at hs
  · obtain ⟨ctx, hpop, rfl⟩ := Option.map_eq_some_iff.mp hs
    have hsame := SameMaps.of_core (popXfer_core hpop)
    have hw : s.Waiting v x.dstFd (some x.dstGen) (.rule k due) :=
      .inl ⟨src, x, by rw [hx]; exact List.mem_cons_self .., rfl, rfl, htag⟩
    constructor
    · intro u q item hi
      rcases popXfer_queue hpop hx hi with hold | ⟨rfl, htgt, -⟩
      · exact .inl hold
      · obtain ⟨-, hmap, hgen⟩ := xferTarget_some.mp htgt
        have hl := h.keyed u x.dstFd (some x.dstGen) _ k q hw rfl ⟨hmap, fun n hn => by
          cases hn
          exact hgen⟩
        exact .inr (hsame.live.mpr hl)
    · rintro rfl
      obtain ⟨p, ⟨hmap, hgen⟩, hl⟩ := h.due v x.dstFd _ k hw
      refine ⟨p, hsame.live.mpr hl, ?_⟩
      have htgt : xferTarget (s.ctx.workers v) x = some p :=
        xferTarget_some.mpr ⟨hT.entryValid v _ p hmap, hmap, hgen _ rfl⟩
      unfold popXfer at hpop
      simp only [hx] at hpop
      cases hpop
      have htgt' : xferTarget { s.ctx.workers v with
          xferInbox := Function.update (s.ctx.workers v).xferInbox src rest } x = some p := htgt
      refine h.queued (w := { s.ctx.workers v with
        xferInbox := Function.update (s.ctx.workers v).xferInbox src rest }) rfl rfl rfl ?_
      dsimp only
      rw [Ctx.setWorker_self, xferDeliver, htgt']
  · cases hs

/-- In every run that meets the condition, the frames of a source with one rule
are delivered as they should be, and frames under way stay under way. -/
theorem rule_frames_reach_their_destination (h : Runs.Reach Init step ruleOk s) (hok : s.ruleOk l)
    (hs : s.step l = some s') : RuleDelivery s s' l ∧ Carries s s' l := by
  have hinv : s.RuleInv :=
    h.invariant (fun _ h0 => h0.ruleInv) fun _ _ _ hi hok hs => step_ruleInv hi hok hs
  refine ⟨?_, step_carries hinv.tables hs⟩
  cases l with
  | data1 u p frame => exact hinv.data1 hok hs
  | pop v src => exact hinv.pop hs
  | _ => trivial

end

/-! ### A cached fd after its reuse -/

def ruleAcross : List ShardStep :=
  [.add 3 (byteKey 1) .kHd 0, .add 4 (byteKey 2) .kHd 0, .setRule (byteKey 1) (byteKey 2)]

def dataAcross : ShardStep := .data1 0 (homeSlot (byteKey 1)) [1, 0, 0, 1, 7]

/-- The rule still names the fd of a peer that is gone; the fd's new owner
receives the frame. -/
theorem rule_misdelivered_after_fd_reuse :
    ¬∀ s, Runs.Reach Init step Runs.Any s → ∀ l s', s.step l = some s' →
      RuleDelivery s s' l := by
  intro hall
  have hrun : popped (ruleAcross ++ [.remove (byteKey 2), .add 4 (byteKey 4) .kHd 0, dataAcross,
      .load 0, .push 0]) (homeSlot (byteKey 4)) =
      some (1, some (.rule (byteKey 2) false), byteKey 4, [], [⟨0, [1, 0, 0, 1, 7]⟩]) := by
    decide
  obtain ⟨s, s', x, hs, hs', hx, htag, hkey, hbefore, hafter⟩ := popped_some hrun
  have hd := (hall s (Runs.reach_of_run twoShards_init hs) (.pop 1 0) s' hs' x [] (byteKey 2)
    false hx htag).1 1 (homeSlot (byteKey 4)) ⟨0, [1, 0, 0, 1, 7]⟩
    (by rw [hafter]; exact List.mem_singleton.mpr rfl)
  rw [hbefore] at hd
  rcases hd with hd | hd
  · cases hd
  · exact absurd (hkey.symm.trans hd.2) (by decide)

def NoRules (s : Shards) : Prop :=
  ∀ u p k, s.Live u p k →
    ((s.ctx.workers u).ht p).fwd1Peer = none ∧ ((s.ctx.workers u).ht p).fwd1DstFd = -1

theorem NoRules.clear {s : Shards} (h : s.NoRules) {fd : Fd} (hfd : 0 ≤ fd) (key : Key) :
    s.CacheAddClear fd key := by
  intro p0 u p k _ hl _
  obtain ⟨h1, h2⟩ := h u p k hl
  rw [h1, h2]
  refine ⟨fun _ => by simp, fun _ h => ?_⟩
  rw [← h] at hfd
  exact absurd hfd (by decide)

theorem NoRules.add {s s' : Shards} (hT : s.Tables) (h : s.NoRules) {fd : Fd} {key : Key}
    {proto : PeerProtocol} {peerId : ℕ} (hs : s.step (.add fd key proto peerId) = some s') :
    s'.NoRules := by
  intro u p k hl
  rcases step_add hT hs with ⟨p0, hadd⟩ | ⟨⟨v, ao, hctx⟩, -, -⟩
  · rcases hadd.live_cases hl with ⟨rfl, rfl, rfl⟩ | ⟨hne, hl⟩
    · obtain ⟨proto, peerId, hpa⟩ := hadd.peer
      exact ⟨hpa.rules.1, hpa.rules.2.1⟩
    · rw [hadd.ht_other hne]
      exact h u p k hl
  · have hht := ((setOracle_same hctx).2 u).1
    rw [hht]
    exact h u p k ((SameMaps.of_core (setOracle_same hctx).1).live.mp hl)

def dataMeets (s : Shards) : Bool × Key × ℕ × List (Option Slot) :=
  ((frameAlloc s.ctx 0).1, s.ruleKey 0 (homeSlot (byteKey 1)), s.home (byteKey 2),
    [htLookup (s.ctx.workers 1) (byteKey 2),
      (s.ctx.workers 1).fdMap ((s.ctx.workers 1).ht (homeSlot (byteKey 2))).fd,
      (s.ctx.workers 1).fdMap ((s.ctx.workers 0).ht (homeSlot (byteKey 1))).fwd1DstFd])

theorem dataAcross_ok {s : Shards} (hT : s.Tables)
    (h : Runs.run step twoShards ruleAcross = some s) : s.ruleOk dataAcross := by
  have hrun : (Runs.run step twoShards ruleAcross).map dataMeets =
      some (true, byteKey 2, 1, List.replicate 3 (some (homeSlot (byteKey 2)))) := by
    decide
  rw [h] at hrun
  simp only [Option.map_some, Option.some.injEq, dataMeets, Prod.mk.injEq,
    List.replicate, List.cons.injEq, and_true] at hrun
  obtain ⟨hmem, hkey, hhome, hlk, hown, hcache⟩ := hrun
  refine ⟨hmem, fun q hq _ => ?_⟩
  rw [hkey, hhome] at hq ⊢
  rw [(hT.table 1).lookup_iff.mpr hq] at hlk
  cases hlk
  exact ⟨hown, fun _ => hcache⟩

/-- Undisturbed, the destination receives the frame. -/
theorem rule_delivered_undisturbed :
    ∃ s s', Runs.Reach Init step ruleOk s ∧ s.step (.pop 1 0) = some s' ∧
      s'.queue 1 (homeSlot (byteKey 2)) = [⟨0, [1, 0, 0, 1, 7]⟩] ∧
      RuleDelivery s s' (.pop 1 0) ∧ Carries s s' (.pop 1 0) := by
  have hrun : popped (ruleAcross ++ [dataAcross, .load 0, .push 0]) (homeSlot (byteKey 2)) =
      some (1, some (.rule (byteKey 2) true), byteKey 2, [], [⟨0, [1, 0, 0, 1, 7]⟩]) := by
    decide
  obtain ⟨s, s', x, hs, hs', -, -, -, -, hafter⟩ := popped_some hrun
  have hreach : Runs.Reach Init step ruleOk s := by
    refine Runs.reach_run (.start twoShards twoShards_init) ?_ hs
    have hT0 := twoShards_init.tables
    have hw0 : ∀ v f g o, ¬twoShards.Waiting v f g o := fun v f g o => twoShards_init.not_waiting
    have hn0 : twoShards.NoRules := fun u p k hl => by cases hl.1
    refine ⟨⟨addClear_of_not_waiting hw0 _ _, hn0.clear (by decide) _⟩, fun s1 h1 => ?_⟩
    have hT1 := step_tables hT0 h1
    have hw1 : ∀ v f g o, ¬s1.Waiting v f g o := by
      intro v f g o hw
      rcases step_waiting hT0 h1 hw with ⟨g', hw, -⟩ | ⟨-, hf⟩
      · exact hw0 _ _ _ _ hw
      · cases hf
    refine ⟨⟨addClear_of_not_waiting hw1 _ _, (hn0.add hT0 h1).clear (by decide) _⟩,
      fun s2 h2 => ⟨trivial, fun s3 h3 => ⟨?_, fun s4 _ => ?_⟩⟩⟩
    · refine dataAcross_ok (step_tables (step_tables hT1 h2) h3) ?_
      simp only [ruleAcross, Runs.run, h1, h2, h3]
    · refine Runs.runOk_of_forall (fun s l hl => ?_) s4
      simp only [List.mem_cons, List.not_mem_nil, or_false] at hl
      rcases hl with rfl | rfl <;> trivial
  exact ⟨s, s', hreach, hs', hafter, rule_frames_reach_their_destination hreach trivial hs'⟩

end Shards

end HyperDerp
