import HyperDerp.DataPlane.Uring

/-!
# Peer table and routing table (`data_plane.cc:104-337`)

`HtFind`/`RouteFind` and their users are the linear-probe library at two entry
types. The index arithmetic of the source is `(h + i) & 4095` on 32-bit
numbers; the wrap at `2^32` is invisible modulo 4096.
-/

namespace HyperDerp

open LinearProbe (Occ View Holds Inv)

def peerView : View Key Peer := ⟨Peer.occupied, Peer.key⟩
def routeView : View Key Route := ⟨Route.occupied, Route.key⟩

def keyHash (k : Key) : ℕ := fnv1a k.data

/-! ### Per-worker peer table -/

def htFind (w : Worker) (key : Key) : Option Slot :=
  LinearProbe.find peerView keyHash w.ht key

def htLookup (w : Worker) (key : Key) : Option Slot :=
  LinearProbe.lookup peerView keyHash w.ht key

def Worker.alloc (w : Worker) : Bool × Worker :=
  match w.allocOracle with
  | [] => (true, w)
  | b :: rest => (b, { w with allocOracle := rest })

/-- The entry `HtInsert` leaves in the slot it was given. Protocol and the keys
of old rules are not reset. -/
def freshPeer (old : Peer) (fd : Fd) (key : Key) : Peer :=
  { old with
    fd := fd
    key := key
    rbufAlloc := true
    rbuf := []
    occupied := .live
    send := {}
    peerId := 0
    fwdCount := 0
    fwd1DstFd := -1
    fwd1DstWorker := -1
    fwd1Peer := none
    fwd := fun i =>
      if i < kMaxPeerRules then { old.fwd i with peer := none, dstWorker := -1, dstFd := -1 }
      else old.fwd i
    recvBytesWindow := 0
    windowStartNs := 0 }

/-- `HtInsert` (`data_plane.cc:155-196`); `false` is the source's `-1`. -/
def htInsert (w : Worker) (fd : Fd) (key : Key) : Bool × Worker :=
  match htFind w key with
  | none => (false, w)
  | some p =>
    match if (w.ht p).rbufAlloc then (true, w) else w.alloc with
    | (false, w) => (false, w)
    | (true, w) => (true, w.setPeer p (freshPeer (w.ht p) fd key))

/-- The entry `HtRemove` leaves behind. -/
def buriedPeer (p : Peer) : Peer :=
  { p with
    send := { p.send with
      queue := [], tail := none, next := none, inflight := 0, queued := 0, pending := false }
    rbufAlloc := false
    rbuf := []
    occupied := .tombstone }

/-- `HtRemove` up to the resumption of receives: in-flight items move to
`notif_map`, the rest are freed. -/
def buryPeer (w : Worker) (p : Slot) : Worker :=
  let peer := w.ht p
  let moved := peer.send.queue.take peer.send.inflight.toNat
  let pressure := w.sendPressure - peer.send.queued
  { w.setPeer p (buriedPeer peer) with
    notifMap := Function.update w.notifMap peer.fd (moved.reverse ++ w.notifMap peer.fd)
    sendPressure := if pressure < 0 then 0 else pressure
    peerCount := if 0 < w.peerCount then w.peerCount - 1 else w.peerCount }

/-- Leave the receive pause (`data_plane.cc:241-242`, `:993-994`). -/
def resumeRecv (w : Worker) : Worker :=
  drainDeferredRecvs { w with io := { w.io with recvPaused := false } }

/-- `HtRemove` (`data_plane.cc:201-244`). -/
def htRemove (w : Worker) (key : Key) : Worker :=
  match htLookup w key with
  | none => w
  | some p =>
    let w1 := buryPeer w p
    if w1.io.recvPaused = true ∧ w1.io.recvPauseCountdown ≤ 0 ∧
        w1.sendPressure ≤ sendPressureLow w1.peerCount then resumeRecv w1
    else w1

/-! ### Replicated routing table -/

def routeFind (routes : Slot → Route) (key : Key) : Option Slot :=
  LinearProbe.find routeView keyHash routes key

def routeLookup (routes : Slot → Route) (key : Key) : Option Slot :=
  LinearProbe.lookup routeView keyHash routes key

def routeSet (routes : Slot → Route) (key : Key) (workerId : ℕ) (fd : Fd) : Slot → Route :=
  match routeFind routes key with
  | none => routes
  | some r => Function.update routes r ⟨key, workerId, fd, .live⟩

def routeRemove (routes : Slot → Route) (key : Key) : Slot → Route :=
  match routeLookup routes key with
  | none => routes
  | some r => Function.update routes r { routes r with occupied := .tombstone }

def broadcastRouteAdd (ctx : Ctx) (key : Key) (workerId : ℕ) (fd : Fd) : Ctx :=
  { ctx with workers := fun i =>
      if i < ctx.numWorkers then
        { ctx.workers i with routes := routeSet (ctx.workers i).routes key workerId fd }
      else ctx.workers i }

def broadcastRouteRemove (ctx : Ctx) (key : Key) : Ctx :=
  { ctx with workers := fun i =>
      if i < ctx.numWorkers then
        { ctx.workers i with routes := routeRemove (ctx.workers i).routes key }
      else ctx.workers i }

/-! ### What one operation does to a table -/

abbrev HtInv (w : Worker) : Prop := Inv peerView keyHash w.ht

abbrev RouteInv (routes : Slot → Route) : Prop := Inv routeView keyHash routes

theorem alloc_ht (w : Worker) : w.alloc.2.ht = w.ht := by
  unfold Worker.alloc
  split <;> rfl

theorem htInsert_cases (w : Worker) (fd : Fd) (key : Key) :
    (htFind w key = none ∧ htInsert w fd key = (false, w)) ∨
    (∃ p w1, htFind w key = some p ∧ (w.ht p).rbufAlloc = false ∧ w.alloc = (false, w1) ∧
      htInsert w fd key = (false, w1)) ∨
    (∃ p w1, htFind w key = some p ∧ w1.ht = w.ht ∧ (w1 = w ∨ w.alloc = (true, w1)) ∧
      htInsert w fd key = (true, w1.setPeer p (freshPeer (w.ht p) fd key))) := by
  unfold htInsert
  cases hf : htFind w key with
  | none => exact .inl ⟨rfl, rfl⟩
  | some p =>
    refine .inr ?_
    have hht := alloc_ht w
    cases hr : (w.ht p).rbufAlloc with
    | true =>
      exact .inr ⟨p, w, rfl, rfl, .inl rfl, by simp only [hr, ite_true]⟩
    | false =>
      rcases ha : w.alloc with ⟨ok, w1⟩
      rw [ha] at hht
      simp only at hht
      cases ok with
      | false => exact .inl ⟨p, w1, rfl, hr, rfl, by simp [hr]⟩
      | true => exact .inr ⟨p, w1, rfl, hht, .inr rfl, by simp [hr, hht]⟩

theorem resumeRecv_io (w : Worker) : IoOnly w (resumeRecv w) :=
  IoOnly.trans ⟨_, rfl⟩ (drainDeferredRecvs_io _)

theorem htRemove_none {w : Worker} {key : Key} (h : htLookup w key = none) :
    htRemove w key = w := by
  simp only [htRemove, h]

theorem htRemove_some {w : Worker} {key : Key} {p : Slot} (h : htLookup w key = some p) :
    IoOnly (buryPeer w p) (htRemove w key) := by
  simp only [htRemove, h]
  split
  · exact resumeRecv_io _
  · exact IoOnly.refl _

/-! ### Tables as finite maps

The abstract side: a partial map from keys that holds at most `kHtCapacity`
keys; inserting a new key into a full map leaves it as it is. -/

inductive TableOp (A : Type) where
  | insert (k : Key) (v : A)
  | remove (k : Key)

def MapFull {A : Type} (m : Key → Option A) : Prop :=
  {k | (m k).isSome}.ncard = kHtCapacity

open Classical in
noncomputable def mapStep {A : Type} (m : Key → Option A) : TableOp A → Key → Option A
  | .insert k v => if m k = none ∧ MapFull m then m else Function.update m k (some v)
  | .remove k => Function.update m k none

/-- The table `t`, read by `lookup`, is the map `m`, with one live slot per key. -/
structure RefinesMap {E A : Type} (occ : E → Occ) (key : E → Key) (val : E → A)
    (t : Slot → E) (lookup : Key → Option Slot) (m : Key → Option A) : Prop where
  isSome_iff : ∀ k, (lookup k).isSome ↔ (m k).isSome
  slot : ∀ k a, lookup k = some a → occ (t a) = .live ∧ key (t a) = k ∧ m k = some (val (t a))
  unique : ∀ a b, occ (t a) = .live → occ (t b) = .live → key (t a) = key (t b) → a = b

section Refinement

variable {E A : Type} (V : View Key E) (val : E → A)

theorem refinesMap_of_inv {t : Slot → E} (hI : Inv V keyHash t) :
    RefinesMap V.occ V.key val t (LinearProbe.lookup V keyHash t)
      (LinearProbe.toMap V keyHash val t) where
  isSome_iff k := by simp [LinearProbe.toMap]
  slot k a h := by
    obtain ⟨h1, h2⟩ := (LinearProbe.lookup_eq_some V keyHash hI k a).mp h
    exact ⟨h1, h2, by simp only [LinearProbe.toMap, h, Option.map_some]⟩
  unique a b ha hb hab := hI.unique (V.key (t a)) a b ⟨ha, rfl⟩ ⟨hb, hab.symm⟩

theorem find_none_iff {t : Slot → E} (hI : Inv V keyHash t) (k : Key) :
    LinearProbe.find V keyHash t k = none ↔
      LinearProbe.toMap V keyHash val t k = none ∧
        MapFull (LinearProbe.toMap V keyHash val t) := by
  have hset : {k | (LinearProbe.toMap V keyHash val t k).isSome} =
      {k | (LinearProbe.lookup V keyHash t k).isSome} := by
    ext k
    simp [LinearProbe.toMap]
  constructor
  · intro hf
    obtain ⟨hl, hno⟩ := LinearProbe.find_none V keyHash hf
    refine ⟨?_, ?_⟩
    · simp [LinearProbe.toMap, (LinearProbe.lookup_eq_none V keyHash hI k).mpr hno]
    · rw [MapFull, hset]
      exact LinearProbe.full_card V keyHash hI hl
  · rintro ⟨hk, hfull⟩
    cases hf : LinearProbe.find V keyHash t k with
    | none => rfl
    | some a =>
      rcases LinearProbe.find_some V keyHash hf with hh | ⟨hl, -⟩
      · rw [LinearProbe.toMap, (LinearProbe.lookup_eq_some V keyHash hI k a).mpr hh] at hk
        cases hk
      · have hlt := LinearProbe.card_lt V keyHash hI hl
        rw [MapFull, hset] at hfull
        omega

end Refinement

def htStep (w : Worker) : TableOp Fd → Worker
  | .insert k fd => (htInsert w fd k).2
  | .remove k => htRemove w k

def routeStep (routes : Slot → Route) : TableOp (ℕ × Fd) → Slot → Route
  | .insert k v => routeSet routes k v.1 v.2
  | .remove k => routeRemove routes k

def AllocOk (w : Worker) : Prop := ∀ b ∈ w.allocOracle, b = true

abbrev htMap (w : Worker) : Key → Option Fd :=
  LinearProbe.toMap peerView keyHash Peer.fd w.ht

abbrev routeMap (routes : Slot → Route) : Key → Option (ℕ × Fd) :=
  LinearProbe.toMap routeView keyHash (fun r => (r.workerId, r.fd)) routes

theorem alloc_ok {w : Worker} (h : AllocOk w) : w.alloc.1 = true ∧ AllocOk w.alloc.2 := by
  unfold Worker.alloc
  split
  · exact ⟨rfl, h⟩
  · next b rest heq =>
    refine ⟨h b (by simp [heq]), fun c hc => h c ?_⟩
    rw [heq]
    exact List.mem_cons_of_mem _ hc

theorem htInsert_false {w : Worker} (ha : AllocOk w) {fd : Fd} {k : Key}
    (h : (htInsert w fd k).1 = false) : htFind w k = none := by
  rcases htInsert_cases w fd k with ⟨hf, -⟩ | ⟨p, w1, -, -, hal, -⟩ | ⟨p, w1, -, -, -, heq⟩
  · exact hf
  · have hok := (alloc_ok ha).1
    rw [hal] at hok
    cases hok
  · rw [heq] at h
    cases h

theorem IoOnly.ht_eq {a b : Worker} (h : IoOnly a b) : b.ht = a.ht := by
  obtain ⟨io, rfl⟩ := h
  rfl

theorem IoOnly.allocOracle_eq {a b : Worker} (h : IoOnly a b) : b.allocOracle = a.allocOracle := by
  obtain ⟨io, rfl⟩ := h
  rfl

theorem htStep_refines {w : Worker} (hI : HtInv w) (ha : AllocOk w) (op : TableOp Fd) :
    HtInv (htStep w op) ∧ AllocOk (htStep w op) ∧ htMap (htStep w op) = mapStep (htMap w) op := by
  cases op with
  | insert k fd =>
    have hnone := find_none_iff peerView Peer.fd hI k
    simp only [htStep, mapStep]
    rcases htInsert_cases w fd k with ⟨hf, heq⟩ | ⟨p, w1, -, -, hal, -⟩ | ⟨p, w1, hf, hht, hw1, heq⟩
    · rw [heq, if_pos (hnone.mp hf)]
      exact ⟨hI, ha, rfl⟩
    · have hok := (alloc_ok ha).1
      rw [hal] at hok
      cases hok
    · have hns : ¬(htMap w k = none ∧ MapFull (htMap w)) := by
        intro hc
        have hnf : htFind w k = none := hnone.mpr hc
        rw [hf] at hnf
        cases hnf
      rw [heq, if_neg hns]
      refine ⟨?_, ?_, ?_⟩
      · simp only [HtInv, Worker.setPeer, hht]
        exact hI.insert peerView keyHash hf rfl rfl
      · rcases hw1 with rfl | hal
        · exact ha
        · have hok := (alloc_ok ha).2
          rw [hal] at hok
          exact hok
      · simp only [htMap, Worker.setPeer, hht]
        exact LinearProbe.toMap_insert peerView keyHash Peer.fd hI hf rfl rfl
  | remove k =>
    simp only [htStep, mapStep]
    cases hl : htLookup w k with
    | none =>
      rw [htRemove_none hl]
      refine ⟨hI, ha, ?_⟩
      have hk : htMap w k = none := by simp only [htMap, LinearProbe.toMap, show
        LinearProbe.lookup peerView keyHash w.ht k = none from hl, Option.map_none]
      rw [← hk, Function.update_eq_self]
    | some p =>
      have hio := htRemove_some hl
      have hh := (LinearProbe.lookup_eq_some peerView keyHash hI k p).mp hl
      have hht : (htRemove w k).ht = Function.update w.ht p (buriedPeer (w.ht p)) := hio.ht_eq
      refine ⟨?_, ?_, ?_⟩
      · rw [HtInv, hht]
        exact hI.bury peerView keyHash p rfl
      · rw [AllocOk, hio.allocOracle_eq]
        exact ha
      · rw [htMap, hht]
        exact LinearProbe.toMap_bury peerView keyHash Peer.fd hI hh rfl

theorem routeStep_refines {routes : Slot → Route} (hI : RouteInv routes) (op : TableOp (ℕ × Fd)) :
    RouteInv (routeStep routes op) ∧
      routeMap (routeStep routes op) = mapStep (routeMap routes) op := by
  cases op with
  | insert k v =>
    have hnone := find_none_iff routeView (fun r => (r.workerId, r.fd)) hI k
    simp only [routeStep, mapStep, routeSet]
    cases hf : routeFind routes k with
    | none =>
      rw [if_pos (hnone.mp hf)]
      exact ⟨hI, rfl⟩
    | some p =>
      have hns : ¬(routeMap routes k = none ∧ MapFull (routeMap routes)) := by
        intro hc
        have hnf : routeFind routes k = none := hnone.mpr hc
        rw [hf] at hnf
        cases hnf
      rw [if_neg hns]
      exact ⟨hI.insert routeView keyHash hf rfl rfl,
        LinearProbe.toMap_insert routeView keyHash _ hI hf rfl rfl⟩
  | remove k =>
    simp only [routeStep, mapStep, routeRemove]
    cases hl : routeLookup routes k with
    | none =>
      refine ⟨hI, ?_⟩
      have hk : routeMap routes k = none := by simp only [routeMap, LinearProbe.toMap, show
        LinearProbe.lookup routeView keyHash routes k = none from hl, Option.map_none]
      rw [← hk, Function.update_eq_self]
    | some p =>
      have hh := (LinearProbe.lookup_eq_some routeView keyHash hI k p).mp hl
      exact ⟨hI.bury routeView keyHash p rfl,
        LinearProbe.toMap_bury routeView keyHash _ hI hh rfl⟩

theorem htRun_refines (ops : List (TableOp Fd)) {w : Worker} {m : Key → Option Fd}
    (hI : HtInv w) (ha : AllocOk w) (hm : htMap w = m) :
    HtInv (ops.foldl htStep w) ∧ AllocOk (ops.foldl htStep w) ∧
      htMap (ops.foldl htStep w) = ops.foldl mapStep m := by
  induction ops generalizing w m with
  | nil => exact ⟨hI, ha, hm⟩
  | cons op ops ih =>
    obtain ⟨hI', ha', hm'⟩ := htStep_refines hI ha op
    exact ih hI' ha' (by rw [hm', hm])

theorem routeRun_refines (ops : List (TableOp (ℕ × Fd))) {routes : Slot → Route}
    {m : Key → Option (ℕ × Fd)} (hI : RouteInv routes) (hm : routeMap routes = m) :
    RouteInv (ops.foldl routeStep routes) ∧
      routeMap (ops.foldl routeStep routes) = ops.foldl mapStep m := by
  induction ops generalizing routes m with
  | nil => exact ⟨hI, hm⟩
  | cons op ops ih =>
    obtain ⟨hI', hm'⟩ := routeStep_refines hI op
    exact ih hI' (by rw [hm', hm])

theorem toMap_of_empty {E A : Type} (V : View Key E) (val : E → A) {t : Slot → E}
    (h : ∀ a, V.occ (t a) = .empty) :
    Inv V keyHash t ∧ LinearProbe.toMap V keyHash val t = fun _ => none := by
  have hI : Inv V keyHash t := LinearProbe.inv_of_not_live V keyHash fun a => by rw [h a]; decide
  refine ⟨hI, ?_⟩
  funext k
  have hn := (LinearProbe.lookup_eq_none V keyHash hI k).mpr fun a ha => by
    rw [Holds, h a] at ha
    exact absurd ha.1 (by decide)
  simp only [LinearProbe.toMap, hn, Option.map_none]

/-- Peer table and routing table refine bounded finite maps: after any history
of inserts and removes from the empty table, lookups answer as the map does, the
slot found holds the key and the value of the latest insert, no key has two live
slots, and an insert fails exactly when the map is full of other keys. -/
theorem tables_refine_map (w : Worker) (hw : ∀ a, (w.ht a).occupied = .empty) (ha : AllocOk w)
    (routes : Slot → Route) (hr : ∀ a, (routes a).occupied = .empty) :
    (∀ ops : List (TableOp Fd),
      let w' := ops.foldl htStep w
      let m := ops.foldl mapStep fun _ => none
      RefinesMap Peer.occupied Peer.key Peer.fd w'.ht (htLookup w') m ∧
        ∀ fd k, (htInsert w' fd k).1 = false ↔ m k = none ∧ MapFull m) ∧
    (∀ ops : List (TableOp (ℕ × Fd)),
      let routes' := ops.foldl routeStep routes
      let m := ops.foldl mapStep fun _ => none
      RefinesMap Route.occupied Route.key (fun r => (r.workerId, r.fd)) routes'
          (routeLookup routes') m ∧
        ∀ k, routeFind routes' k = none ↔ m k = none ∧ MapFull m) := by
  constructor
  · intro ops
    obtain ⟨hI0, hm0⟩ := toMap_of_empty peerView Peer.fd hw
    obtain ⟨hI, ha', hm⟩ := htRun_refines ops hI0 ha hm0
    have hnone := find_none_iff peerView Peer.fd hI
    dsimp only
    rw [← hm]
    refine ⟨refinesMap_of_inv peerView Peer.fd hI, fun fd k => ⟨fun h => ?_, fun h => ?_⟩⟩
    · exact (hnone k).mp (htInsert_false ha' h)
    · have hf : htFind (ops.foldl htStep w) k = none := (hnone k).mpr h
      simp only [htInsert, hf]
  · intro ops
    obtain ⟨hI0, hm0⟩ := toMap_of_empty routeView (fun r : Route => (r.workerId, r.fd)) hr
    obtain ⟨hI, hm⟩ := routeRun_refines ops hI0 hm0
    dsimp only
    rw [← hm]
    exact ⟨refinesMap_of_inv routeView _ hI, fun k => find_none_iff routeView _ hI k⟩

/-- Keys that begin with two bytes; those with 0, 1 and with 33, 242 have one hash slot. -/
def clashKey (b c : Byte) : Key := ⟨b :: c :: List.replicate 30 0, by simp [kKeySize]⟩

/-- The first of two keys on one probe path leaves and comes back; the second moves meanwhile. -/
def clashingOps : List (TableOp Fd) :=
  [.insert (clashKey 0 1) 3, .insert (clashKey 33 242) 4, .remove (clashKey 0 1),
    .insert (clashKey 33 242) 5, .insert (clashKey 0 1) 6]

theorem tables_refine_map_clashing :
    RefinesMap Peer.occupied Peer.key Peer.fd (clashingOps.foldl htStep {}).ht
        (htLookup (clashingOps.foldl htStep {})) (clashingOps.foldl mapStep fun _ => none) ∧
      htMap (clashingOps.foldl htStep {}) (clashKey 0 1) = some 6 ∧
      htMap (clashingOps.foldl htStep {}) (clashKey 33 242) = some 5 := by
  have hrefines := (tables_refine_map {} (fun _ => rfl) (by simp [AllocOk]) (fun _ => {})
    fun _ => rfl).1 clashingOps
  exact ⟨hrefines.1, by decide +kernel, by decide +kernel⟩

end HyperDerp
