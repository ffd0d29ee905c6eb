import HyperDerp.DataPlane.Shards

/-!
# Frames between workers

A frame under way to another worker carries an fd and, once loaded, the
generation of that fd, and no key. This module follows such frames through all
interleavings: where they come from (`step_waiting`), and under which adds and
removals the peer that a pop delivers them to is still the one they were
addressed to (`Keyed`).
-/

namespace HyperDerp

namespace Shards

/-! ### Frames under way -/

/-- A frame from `o` is on its way to fd `f` of worker `v`, in the hands of its
source or in an inbox, with generation `g` if one is loaded. -/
def Waiting (s : Shards) (v : ℕ) (f : Fd) (g : Option ℕ) (o : Origin) : Prop :=
  (∃ src, ∃ x ∈ (s.ctx.workers v).xferInbox src,
    x.dstFd = f ∧ g = some x.dstGen ∧ x.tag = some o) ∨
  ∃ u h, s.held u = some h ∧ h.dst = v ∧ h.fd = f ∧ h.gen = g ∧ h.origin = o

/-- Fd `f` with generation `g` leads to slot `p`. -/
def Leads (s : Shards) (v : ℕ) (f : Fd) (g : Option ℕ) (p : Slot) : Prop :=
  (s.ctx.workers v).fdMap f = some p ∧ ∀ n, g = some n → n = (s.ctx.workers v).fdGen f

/-- The destination a SendPacket or a rule gives a new frame. -/
inductive Fresh (s : Shards) : ShardStep → ℕ → Fd → Origin → Prop
  | packet (u : ℕ) (p : Slot) (payload : Bytes) (v : ℕ) (f : Fd) (k : Key) :
      routeMap (s.ctx.workers u).routes k = some (v, f) →
      Fresh s (.packet u p payload) v f (.packet k)
  | cached (u : ℕ) (p : Slot) (frame : Bytes) (v : ℕ) :
      0 ≤ ((s.ctx.workers u).ht p).fwd1DstFd →
      ((s.ctx.workers u).ht p).fwd1DstWorker = (v : ℤ) →
      Fresh s (.data1 u p frame) v ((s.ctx.workers u).ht p).fwd1DstFd
        (.rule (((s.ctx.workers u).ht p).fwd 0).key
          (htLookup (s.ctx.workers (s.home (((s.ctx.workers u).ht p).fwd 0).key))
            (((s.ctx.workers u).ht p).fwd 0).key).isSome)
  | routed (u : ℕ) (p : Slot) (frame : Bytes) (v : ℕ) (f : Fd) :
      ((s.ctx.workers u).ht p).fwd1DstFd < 0 →
      htLookup (s.ctx.workers u) (((s.ctx.workers u).ht p).fwd 0).key = none →
      routeMap (s.ctx.workers u).routes (((s.ctx.workers u).ht p).fwd 0).key = some (v, f) →
      Fresh s (.data1 u p frame) v f
        (.rule (((s.ctx.workers u).ht p).fwd 0).key
          (htLookup (s.ctx.workers (s.home (((s.ctx.workers u).ht p).fwd 0).key))
            (((s.ctx.workers u).ht p).fwd 0).key).isSome)

variable {s s' : Shards} {v : ℕ} {p : Slot} {ctx ctx' : Ctx}

theorem Waiting.mono
    (hx : ∀ v src, ∀ x ∈ (s'.ctx.workers v).xferInbox src, x ∈ (s.ctx.workers v).xferInbox src)
    (hh : ∀ u h, s'.held u = some h → s.held u = some h) {f : Fd} {g : Option ℕ} {o : Origin}
    (hw : s'.Waiting v f g o) : s.Waiting v f g o := by
  rcases hw with ⟨src, x, hmem, hrest⟩ | ⟨u, h, hheld, hrest⟩
  · exact .inl ⟨src, x, hx v src x hmem, hrest⟩
  · exact .inr ⟨u, h, hh u h hheld, hrest⟩

theorem RoutesOnly.inbox {w w' : Worker} (h : RoutesOnly w w') : w'.xferInbox = w.xferInbox := by
  obtain ⟨routes, io, rfl⟩ := h
  rfl

theorem Added.inbox {fd : Fd} {key : Key} (h : Added s p fd key s') (v : ℕ) :
    (s'.ctx.workers v).xferInbox = (s.ctx.workers v).xferInbox := by
  obtain ⟨proto, peerId, hadd⟩ := h.peer
  by_cases hv : v = s.home key
  · subst hv
    exact hadd.inbox
  · exact RoutesOnly.inbox (h.others v hv)

theorem Removed.inbox {key : Key} (h : Removed s p key s') (v : ℕ) :
    (s'.ctx.workers v).xferInbox = (s.ctx.workers v).xferInbox := by
  by_cases hv : v = s.home key
  · subst hv
    exact h.peer.inbox
  · exact RoutesOnly.inbox (h.others v hv)

theorem setFwdRule_inbox (ctx : Ctx) (wid : ℕ) (key dstKey : Key) (v : ℕ) :
    ((setFwdRule ctx wid key dstKey).workers v).xferInbox = (ctx.workers v).xferInbox := by
  unfold setFwdRule
  dsimp only
  split
  · rfl
  · split
    · rfl
    · rw [setWorker_inbox]
      rfl

theorem xferDeliver_inbox (w : Worker) (x : Xfer) : (xferDeliver w x).xferInbox = w.xferInbox := by
  unfold xferDeliver
  split
  · rfl
  · exact enqueueSend_inbox _ _ _

theorem popXfer_mem {src : ℕ} (h : popXfer ctx v src = some ctx') {u a : ℕ} {x : Xfer}
    (hx : x ∈ (ctx'.workers u).xferInbox a) : x ∈ (ctx.workers u).xferInbox a := by
  unfold popXfer at h
  dsimp only at h
  split at h
  · cases h
  · next y rest heq =>
    cases h
    by_cases hu : u = v
    · subst hu
      rw [Ctx.setWorker_self, xferDeliver_inbox] at hx
      by_cases ha : a = src
      · subst ha
        rw [heq]
        exact List.mem_cons_of_mem _ (by simpa using hx)
      · simpa [ha] using hx
    · rwa [Ctx.setWorker_ne _ _ hu] at hx

theorem holdRule_some {wid : ℕ} {dstId : ℤ} {fd : Fd} {frame : Bytes} {key : Key} {h : Held}
    (hh : holdRule ctx wid dstId fd frame key = some h) :
    dstId = (h.dst : ℤ) ∧ h = ⟨h.dst, fd, frame, .rule key false, none⟩ := by
  unfold holdRule at hh
  split at hh
  · cases hh
  · next hg =>
    cases hh
    exact ⟨by simp only; omega, rfl⟩

theorem data1Route_fresh {u : ℕ} {frame : Bytes} {h : Held}
    (hr : (data1Route s.ctx u p frame).2 = some h) :
    (s.markDue h).gen = none ∧
      Fresh s (.data1 u p frame) (s.markDue h).dst (s.markDue h).fd (s.markDue h).origin := by
  have hcase := data1Route_case s.ctx u p frame
  generalize data1Route s.ctx u p frame = r at hcase hr
  cases hcase with
  | noMemory _ _ => cases hr
  | cachedPeer _ _ _ _ _ => cases hr
  | foundPeer _ _ _ _ _ => cases hr
  | noRoute _ _ => cases hr
  | cachedFd ctx1 _ _ hfd =>
    obtain ⟨hw, heq⟩ := holdRule_some hr
    rw [heq]
    exact ⟨rfl, .cached u p frame h.dst hfd hw⟩
  | foundRoute ctx1 a _ hfd hnone hroute =>
    obtain ⟨hw, heq⟩ := holdRule_some hr
    have hm := routeMap_of_lookup hroute
    rw [show ((s.ctx.workers u).routes a).workerId = h.dst by exact_mod_cast hw] at hm
    rw [heq]
    exact ⟨rfl, .routed u p frame h.dst _ hfd hnone hm⟩

/-- Where a frame that is under way after step `l` comes from: it was under way before, perhaps
without its generation, or is new. -/
def Came (s : Shards) (l : ShardStep) (v : ℕ) (f : Fd) (g : Option ℕ) (o : Origin) : Prop :=
  (∃ g', s.Waiting v f g' o ∧ (g' = g ∨ (g' = none ∧ g = some ((s.ctx.workers v).fdGen f)))) ∨
    (g = none ∧ Fresh s l v f o)

section

variable {s s' : Shards} {v : ℕ} {f : Fd} {g : Option ℕ} {o : Origin}

theorem Waiting.came (hw : s.Waiting v f g o) (l : ShardStep) : s.Came l v f g o :=
  .inl ⟨g, hw, .inl rfl⟩

variable {u : ℕ}

theorem Waiting.held_came {l : ShardStep} {taken : Option Held} {ctx : Ctx}
    (hw : Waiting { s with ctx := ctx, held := Function.update s.held u taken } v f g o)
    (hx : ∀ v src, ∀ x ∈ (ctx.workers v).xferInbox src, x ∈ (s.ctx.workers v).xferInbox src)
    (hnew : ∀ h, taken = some h → s.Came l h.dst h.fd h.gen h.origin) : s.Came l v f g o := by
  rcases hw with ⟨src, x, hmem, hrest⟩ | ⟨u', hd, hh, rfl, rfl, rfl, rfl⟩
  · exact Waiting.came (.inl ⟨src, x, hx v src x hmem, hrest⟩) l
  · dsimp only at hh
    by_cases hu : u' = u
    · rw [hu, Function.update_self] at hh
      exact hnew hd hh
    · rw [Function.update_of_ne hu] at hh
      exact Waiting.came (.inr ⟨u', hd, hh, rfl, rfl, rfl, rfl⟩) l

theorem add_waiting (hT : s.Tables) {fd : Fd} {key : Key} {proto : PeerProtocol} {peerId : ℕ}
    (h : s.step (.add fd key proto peerId) = some s') (hw : s'.Waiting v f g o) :
    s.Waiting v f g o := by
  rcases step_add hT h with ⟨p, hadd⟩ | ⟨⟨v', ao, hctx⟩, -, hheld⟩
  · refine hw.mono (fun v src x hx => ?_) fun u h hh => ?_
    · rwa [hadd.inbox] at hx
    · rwa [hadd.held] at hh
  · refine hw.mono (fun v src x hx => ?_) fun u h hh => ?_
    · rwa [((setOracle_same hctx).2 v).2] at hx
    · rwa [hheld] at hh

theorem remove_waiting (hT : s.Tables) {key : Key} (h : s.step (.remove key) = some s')
    (hw : s'.Waiting v f g o) : s.Waiting v f g o := by
  rcases step_remove hT h with rfl | ⟨p, hrem⟩
  · exact hw
  · refine hw.mono (fun v src x hx => ?_) fun u h hh => ?_
    · rwa [hrem.inbox] at hx
    · rwa [hrem.held] at hh

theorem setRule_waiting {key dstKey : Key} (h : s.step (.setRule key dstKey) = some s')
    (hw : s'.Waiting v f g o) : s.Waiting v f g o := by
  simp only [step] at h
  split at h
  · cases h
    refine Waiting.mono (fun v src x hx => ?_) (fun u h hh => ?_) hw
    · rwa [setFwdRule_inbox] at hx
    · exact hh
  · cases h

theorem packet_waiting {p : Slot} {payload : Bytes} (h : s.step (.packet u p payload) = some s')
    (hw : s'.Waiting v f g o) :
    s.Came (.packet u p payload) v f g o := by
  simp only [step] at h
  split at h
  · cases h
    obtain ⟨heff, hheld⟩ := packetRoute_spec s.ctx u payload p
    apply hw.held_came
    · intro v src x hmem
      rcases heff.inbox hmem with hmem | ⟨hf, -⟩
      · exact hmem
      · exact hf.elim
    · intro hd hh
      obtain ⟨hnone, k, hk, hroute⟩ := hheld hd hh
      rw [hk]
      exact .inr ⟨hnone, .packet u p payload hd.dst hd.fd k hroute⟩
  · cases h

theorem data1_waiting {p : Slot} {frame : Bytes} (h : s.step (.data1 u p frame) = some s')
    (hw : s'.Waiting v f g o) : s.Came (.data1 u p frame) v f g o := by
  simp only [step] at h
  split at h
  · cases h
    have heff := data1Route_effs s.ctx u p frame
    apply hw.held_came
    · intro v src x hmem
      rcases heff.inbox hmem with hmem | ⟨hf, -⟩
      · exact hmem
      · exact hf.elim
    · intro hd hh
      obtain ⟨hd0, hd0r, rfl⟩ := Option.map_eq_some_iff.mp hh
      exact .inr (data1Route_fresh hd0r)
  · cases h

theorem load_waiting (h : s.step (.load u) = some s') (hw : s'.Waiting v f g o) :
    s.Came (.load u) v f g o := by
  simp only [step] at h
  split at h
  · next dst fd frame origin hheld =>
    cases h
    have hsame : ∀ v src, ∀ x ∈ (s.ctx.workers v).xferInbox src,
        x ∈ (s.ctx.workers v).xferInbox src := fun _ _ _ hx => hx
    refine Waiting.held_came hw hsame fun hd hh => ?_
    cases hh
    exact .inl ⟨none, .inr ⟨u, _, hheld, rfl, rfl, rfl, rfl⟩, .inr ⟨rfl, rfl⟩⟩
  · cases h

theorem push_waiting (h : s.step (.push u) = some s') (hw : s'.Waiting v f g o) :
    s.Waiting v f g o := by
  simp only [step] at h
  split at h
  · next dst fd frame origin gen hheld =>
    cases h
    rcases hw with ⟨src, x, hmem, hxf, hxg, hxo⟩ | ⟨u', hd, hh, hrest⟩
    · rcases xferSpscPush_mem hmem with hmem | ⟨rfl, rfl, rfl⟩
      · exact .inl ⟨src, x, hmem, hxf, hxg, hxo⟩
      · cases hxo
        exact .inr ⟨src, _, hheld, rfl, hxf, hxg.symm, rfl⟩
    · dsimp only at hh
      by_cases hu : u' = u
      · rw [hu, Function.update_self] at hh
        cases hh
      · rw [Function.update_of_ne hu] at hh
        exact .inr ⟨u', hd, hh, hrest⟩
  · cases h

theorem pop_waiting {src : ℕ} (h : s.step (.pop u src) = some s') (hw : s'.Waiting v f g o) :
    s.Waiting v f g o := by
  simp only [step] at h
  split at h
  · obtain ⟨ctx, hpop, rfl⟩ := Option.map_eq_some_iff.mp h
    refine Waiting.mono (fun v src x hx => ?_) (fun u h hh => ?_) hw
    · exact popXfer_mem hpop hx
    · exact hh
  · cases h

theorem onWorker_waiting {w' : Worker → Worker}
    (hinbox : (w' (s.ctx.workers u)).xferInbox = (s.ctx.workers u).xferInbox)
    (hw : Waiting { s with ctx := s.ctx.onWorker u w' } v f g o) : s.Waiting v f g o := by
  refine Waiting.mono (fun v src x hx => ?_) (fun u h hh => ?_) hw
  · rw [Ctx.onWorker, setWorker_inbox] at hx
    · exact hx
    · exact hinbox
  · exact hh

theorem step_waiting (hT : s.Tables) {l : ShardStep} (h : s.step l = some s')
    (hw : s'.Waiting v f g o) :
    (∃ g', s.Waiting v f g' o ∧ (g' = g ∨ (g' = none ∧ g = some ((s.ctx.workers v).fdGen f)))) ∨
      (g = none ∧ Fresh s l v f o) := by
  cases l with
  | add fd key proto peerId => exact (add_waiting hT h hw).came _
  | remove key => exact (remove_waiting hT h hw).came _
  | setRule key dstKey => exact (setRule_waiting h hw).came _
  | packet u p payload => exact packet_waiting h hw
  | data1 u p frame => exact data1_waiting h hw
  | load u => exact load_waiting h hw
  | push u => exact (push_waiting h hw).came _
  | pop u src => exact (pop_waiting h hw).came _
  | eof u fd =>
    simp only [step] at h
    split at h
    · obtain ⟨p, hp, rfl⟩ := Option.map_eq_some_iff.mp h
      exact (onWorker_waiting rfl hw).came _
    · cases h
  | ioPath u q w0 =>
    simp only [step] at h
    split at h
    · cases h
      exact (onWorker_waiting rfl hw).came _
    · cases h

end

theorem Init.not_waiting (h : s.Init) {f : Fd} {g : Option ℕ} {o : Origin} :
    ¬s.Waiting v f g o := by
  rintro (⟨src, x, hmem, -⟩ | ⟨u, hd, hh, -⟩)
  · rw [h.workers] at hmem
    cases hmem
  · rw [h.held] at hh
    cases hh

/-! ### Frames stay under way until they are popped -/

theorem Effs.inbox_eq {wid : ℕ} {PE : Slot → Bytes → Prop}
    (h : Effs wid p PE (fun _ _ => False) ctx ctx') (v : ℕ) :
    (ctx'.workers v).xferInbox = (ctx.workers v).xferInbox := by
  induction h with
  | refl => rfl
  | tail _ hstep ih =>
    refine Eq.trans ?_ ih
    cases hstep with
    | enqueue q data _ => exact setWorker_inbox (enqueueSend_inbox _ _ _)
    | rules a b c d =>
      rw [setWorker_inbox]
      rfl
    | account a b c =>
      rw [setWorker_inbox]
      rfl
    | xfer dst x hx => exact hx.elim

theorem xferSpscPush_ring (ctx : Ctx) (wid dst : ℕ) (x : Xfer) :
    (((xferSpscPush ctx wid dst x).workers wid).stats.drops =
        (ctx.workers wid).stats.drops + 1 ∧
      ∀ v, ((xferSpscPush ctx wid dst x).workers v).xferInbox = (ctx.workers v).xferInbox) ∨
    ∀ v src, ((xferSpscPush ctx wid dst x).workers v).xferInbox src =
      (ctx.workers v).xferInbox src ++ if v = dst ∧ src = wid then [x] else [] := by
  have hpush : ∀ (w : Worker), w.xferInbox = Function.update (ctx.workers dst).xferInbox wid
        ((ctx.workers dst).xferInbox wid ++ [x]) →
      ∀ v src, ((ctx.setWorker dst w).workers v).xferInbox src =
        (ctx.workers v).xferInbox src ++ if v = dst ∧ src = wid then [x] else [] := by
    intro w hw v src
    by_cases hv : v = dst
    · subst hv
      rw [Ctx.setWorker_self, hw]
      by_cases hs : src = wid
      · subst hs
        simp
      · simp [hs]
    · rw [Ctx.setWorker_ne _ _ hv]
      simp [hv]
  unfold xferSpscPush Ctx.onWorker
  dsimp only
  split
  · refine .inl ⟨?_, fun v => ?_⟩
    · rw [Ctx.setWorker_self]
      simp only [WorkerStats.drops]
      omega
    · rw [setWorker_inbox]
      rfl
  · refine .inr fun v src => ?_
    split
    · rw [setWorker_inbox]
      · exact hpush _ rfl v src
      · rfl
    · exact hpush _ rfl v src

/-- Frames held by other workers and frames in inboxes stay where they are. -/
def Carries (s s' : Shards) : ShardStep → Prop
  | .load u => (∀ v, (s'.ctx.workers v).xferInbox = (s.ctx.workers v).xferInbox) ∧
      (∀ a, a ≠ u → s'.held a = s.held a) ∧
      ∀ h, s.held u = some h → ∃ g, s'.held u = some { h with gen := some g }
  | .push u => (∀ a, a ≠ u → s'.held a = s.held a) ∧
      ∀ h, s.held u = some h →
        (s'.ctx.workers u).stats.drops = (s.ctx.workers u).stats.drops + 1 ∨
          ∃ x, x.frame = h.frame ∧ x.tag = some h.origin ∧ ∀ v src,
            (s'.ctx.workers v).xferInbox src = (s.ctx.workers v).xferInbox src ++
              if v = h.dst ∧ src = u then [x] else []
  | .pop v src => (∀ a, s'.held a = s.held a) ∧
      ∀ w a, (s'.ctx.workers w).xferInbox a =
        if w = v ∧ a = src then ((s.ctx.workers w).xferInbox a).tail
        else (s.ctx.workers w).xferInbox a
  | .packet u _ _ | .data1 u _ _ =>
      (∀ v, (s'.ctx.workers v).xferInbox = (s.ctx.workers v).xferInbox) ∧ s.held u = none ∧
        ∀ a, a ≠ u → s'.held a = s.held a
  | _ => (∀ v, (s'.ctx.workers v).xferInbox = (s.ctx.workers v).xferInbox) ∧ s'.held = s.held

theorem popXfer_inbox {src : ℕ} (h : popXfer ctx v src = some ctx') (w a : ℕ) :
    (ctx'.workers w).xferInbox a =
      if w = v ∧ a = src then ((ctx.workers w).xferInbox a).tail
      else (ctx.workers w).xferInbox a := by
  unfold popXfer at h
  dsimp only at h
  split at h
  · cases h
  · next y rest heq =>
    cases h
    by_cases hw : w = v
    · subst hw
      rw [Ctx.setWorker_self, xferDeliver_inbox]
      by_cases ha : a = src
      · subst ha
        simp [heq]
      · simp [ha]
    · rw [Ctx.setWorker_ne _ _ hw, if_neg fun hc => hw hc.1]

theorem step_carries (hT : s.Tables) {l : ShardStep} (h : s.step l = some s') :
    Carries s s' l := by
  cases l with
  | add fd key proto peerId =>
    rcases step_add hT h with ⟨p, hadd⟩ | ⟨⟨v', ao, hctx⟩, -, hheld⟩
    · exact ⟨hadd.inbox, hadd.held⟩
    · exact ⟨fun v => ((setOracle_same hctx).2 v).2, hheld⟩
  | remove key =>
    rcases step_remove hT h with rfl | ⟨p, hrem⟩
    · exact ⟨fun _ => rfl, rfl⟩
    · exact ⟨hrem.inbox, hrem.held⟩
  | setRule key dstKey =>
    simp only [step] at h
    split at h
    · cases h
      exact ⟨setFwdRule_inbox _ _ _ _, rfl⟩
    · cases h
  | packet u p payload =>
    simp only [step] at h
    split at h
    · next hheld =>
      cases h
      exact ⟨Effs.inbox_eq (packetRoute_spec s.ctx u payload p).1, hheld,
        fun a ha => Function.update_of_ne ha _ _⟩
    · cases h
  | data1 u p frame =>
    simp only [step] at h
    split at h
    · next hg =>
      cases h
      exact ⟨Effs.inbox_eq (data1Route_effs s.ctx u p frame), hg.1,
        fun a ha => Function.update_of_ne ha _ _⟩
    · cases h
  | load u =>
    simp only [step] at h
    split at h
    · next dst fd frame origin hheld =>
      cases h
      refine ⟨fun _ => rfl, fun a ha => Function.update_of_ne ha _ _, fun hd hh => ?_⟩
      rw [hheld] at hh
      cases hh
      exact ⟨_, Function.update_self ..⟩
    · cases h
  | push u =>
    simp only [step] at h
    split at h
    · next dst fd frame origin gen hheld =>
      cases h
      refine ⟨fun a ha => Function.update_of_ne ha _ _, fun hd hh => ?_⟩
      rw [hheld] at hh
      cases hh
      rcases xferSpscPush_ring s.ctx u dst ⟨fd, frame, gen, some origin⟩ with ⟨hd, -⟩ | hring
      · exact .inl hd
      · exact .inr ⟨_, rfl, rfl, hring⟩
    · cases h
  | pop v src =>
    simp only [step] at h
    split at h
    · obtain ⟨ctx, hpop, rfl⟩ := Option.map_eq_some_iff.mp h
      exact ⟨fun _ => rfl, popXfer_inbox hpop⟩
    · cases h
  | eof v fd =>
    simp only [step] at h
    split at h
    · obtain ⟨p, hp, rfl⟩ := Option.map_eq_some_iff.mp h
      refine ⟨fun u => ?_, rfl⟩
      rw [Ctx.onWorker, setWorker_inbox]
      rfl
    · cases h
  | ioPath v q w0 =>
    simp only [step] at h
    split at h
    · cases h
      refine ⟨fun u => ?_, rfl⟩
      rw [Ctx.onWorker, setWorker_inbox]
      rfl
    · cases h

/-! ### Frames that keep their addressee

`sel` picks the frames to follow and the key each of them was addressed to. -/

section Keyed

variable (sel : Origin → Option Key)

/-- A followed frame leads to the live peer with its key, or nowhere. -/
def Keyed (s : Shards) : Prop :=
  ∀ v f g o k p, s.Waiting v f g o → sel o = some k → s.Leads v f g p → s.Live v p k

/-- The add of `key` on `fd` does not capture a followed frame of another key: it
has its generation already, and not the one that the add installs. -/
def AddClear (s : Shards) (fd : Fd) (key : Key) : Prop :=
  ∀ g o k, s.Waiting (s.home key) fd g o → sel o = some k → k ≠ key →
    ∃ n, g = some n ∧ n ≠ ((s.ctx.workers (s.home key)).fdGen fd + 1) % 2 ^ 32

/-- No followed frame leads to the peer through an fd other than its own, which
is the one the removal forgets. -/
def RemoveClear (s : Shards) (key : Key) : Prop :=
  ∀ p f g o k, s.Live (s.home key) p key → s.Waiting (s.home key) f g o → sel o = some k →
    s.Leads (s.home key) f g p → f = ((s.ctx.workers (s.home key)).ht p).fd

variable {sel} {s s' : Shards}

variable {v : ℕ} {f : Fd} {g g' : Option ℕ} {p p0 : Slot} {key : Key}

theorem Leads.of_load (h : s.Leads v f g p)
    (hg : g' = g ∨ (g' = none ∧ g = some ((s.ctx.workers v).fdGen f))) : s.Leads v f g' p := by
  rcases hg with rfl | ⟨rfl, -⟩
  · exact h
  · refine ⟨h.1, fun n hn => ?_⟩
    cases hn

theorem Leads.of_same (hs : SameTables s.ctx s'.ctx) (h : s'.Leads v f g p) : s.Leads v f g p := by
  refine ⟨hs.entries v f p h.1, fun n hn => ?_⟩
  rw [h.2 n hn, hs.fdGen]

theorem Leads.of_added {fd : Fd} (ha : Added s p0 fd key s') (h : s'.Leads v f g p) :
    (v = s.home key ∧ f = fd ∧ p = p0 ∧
        ∀ n, g = some n → n = ((s.ctx.workers v).fdGen fd + 1) % 2 ^ 32) ∨
      (¬(v = s.home key ∧ f = fd) ∧ s.Leads v f g p) := by
  obtain ⟨hmap, hgen⟩ := h
  rw [ha.fdMap] at hmap
  rw [ha.fdGen] at hgen
  by_cases hc : v = s.home key ∧ f = fd
  · rw [if_pos hc] at hmap hgen
    cases hmap
    exact .inl ⟨hc.1, hc.2, rfl, hgen⟩
  · rw [if_neg hc] at hmap hgen
    exact .inr ⟨hc, hmap, hgen⟩

theorem Leads.of_removed (hT : s.Tables) (hr : Removed s p0 key s') (h : s'.Leads v f g p) :
    f ≠ ((s.ctx.workers (s.home key)).ht p0).fd ∧ s.Leads v f g p := by
  obtain ⟨hold, hne⟩ := hr.entries hT h.1
  refine ⟨hne, hold, fun n hn => ?_⟩
  rw [h.2 n hn, hr.fdGen]

theorem Keyed.added (hK : Keyed sel s) {fd : Fd} (ha : Added s p0 fd key s')
    (hclear : AddClear sel s fd key) {o : Origin} {k : Key} (hw : s.Waiting v f g' o)
    (hg : g' = g ∨ (g' = none ∧ g = some ((s.ctx.workers v).fdGen f))) (hsel : sel o = some k)
    (hl : s'.Leads v f g p) : s'.Live v p k := by
  rcases Leads.of_added ha hl with ⟨rfl, rfl, rfl, hgen⟩ | ⟨-, hold⟩
  · by_cases hk : k = key
    · subst hk
      exact ha.slot.1
    · obtain ⟨n, hn, hne⟩ := hclear g' o k hw hsel hk
      rcases hg with rfl | ⟨rfl, -⟩
      · exact absurd (hgen n hn) hne
      · cases hn
  · exact ha.live_keep (hK v f g' o k p hw hsel (hold.of_load hg))

theorem Keyed.removed (hT : s.Tables) (hK : Keyed sel s) (hr : Removed s p0 key s')
    (hclear : RemoveClear sel s key) {o : Origin} {k : Key} (hw : s.Waiting v f g' o)
    (hg : g' = g ∨ (g' = none ∧ g = some ((s.ctx.workers v).fdGen f))) (hsel : sel o = some k)
    (hl : s'.Leads v f g p) : s'.Live v p k := by
  obtain ⟨hne, hold⟩ := Leads.of_removed hT hr hl
  have hold' := hold.of_load hg
  refine hr.live_iff.mpr ⟨?_, hK v f g' o k p hw hsel hold'⟩
  rintro ⟨rfl, rfl⟩
  exact hne (hclear p f g' o k hr.live hw hsel hold')

theorem Keyed.step (hT : s.Tables) (hK : Keyed sel s) {l : ShardStep} (hs : s.step l = some s')
    (hadd : ∀ fd key proto peerId, l = .add fd key proto peerId → AddClear sel s fd key)
    (hrem : ∀ key, l = .remove key → RemoveClear sel s key)
    (hfresh : ∀ v f o k p, Fresh s l v f o → sel o = some k →
      (s.ctx.workers v).fdMap f = some p → s.Live v p k) : Keyed sel s' := by
  intro v f g o k p hw hsel hl
  have hwait := step_waiting hT hs hw
  cases step_kind hT hs with
  | added s' p0 fd key proto peerId ha =>
    rcases hwait with ⟨g', hw, hg⟩ | ⟨-, hf⟩
    · exact hK.added ha (hadd fd key proto peerId rfl) hw hg hsel hl
    · cases hf
  | removed s' p0 key hr =>
    rcases hwait with ⟨g', hw, hg⟩ | ⟨-, hf⟩
    · exact hK.removed hT hr (hrem key rfl) hw hg hsel hl
    · cases hf
  | ended s' u fd hsame _ _ =>
    rcases hwait with ⟨g', hw, hg⟩ | ⟨-, hf⟩
    · exact hsame.live.mpr (hK v f g' o k p hw hsel ((hl.of_same hsame).of_load hg))
    · cases hf
  | same s' l hsame _ =>
    have hold := hl.of_same hsame.toSameTables
    rcases hwait with ⟨g', hw, hg⟩ | ⟨-, hf⟩
    · exact hsame.live.mpr (hK v f g' o k p hw hsel (hold.of_load hg))
    · exact hsame.live.mpr (hfresh v f o k p hf hsel hold.1)

theorem Tables.route_leads (hT : s.Tables) {u : ℕ} {k : Key}
    (hr : routeMap (s.ctx.workers u).routes k = some (v, f))
    (hm : (s.ctx.workers v).fdMap f = some p) : s.Live v p k := by
  obtain ⟨q, hl, hfd⟩ := hT.route u k v f hr
  subst hfd
  obtain ⟨-, rfl⟩ := hT.entry v q k v p hl hm
  exact hl

end Keyed

/-! ### SendPacket -/

def packetSel : Origin → Option Key
  | .packet k => some k
  | .rule _ _ => none

def packetOk (s : Shards) : ShardStep → Prop
  | .add fd key _ _ => AddClear packetSel s fd key
  | .remove key => RemoveClear packetSel s key
  | _ => True

def queue (s : Shards) (v : ℕ) (q : Slot) : List SendItem := ((s.ctx.workers v).ht q).send.queue

/-- What a step queues of SendPackets to `k`, it queues for the live peer `k`. -/
def PacketDelivery (s s' : Shards) : ShardStep → Prop
  | .packet _ _ payload => ∀ v q, ∀ item ∈ s'.queue v q,
      item ∈ s.queue v q ∨ ∃ k, packetKey payload = some k ∧ s'.Live v q k
  | .pop v src => ∀ x rest k, (s.ctx.workers v).xferInbox src = x :: rest →
      x.tag = some (.packet k) → ∀ u q, ∀ item ∈ s'.queue u q,
        item ∈ s.queue u q ∨ s'.Live u q k
  | _ => True

theorem packetKeyed_step {l : ShardStep} (hT : s.Tables) (hK : Keyed packetSel s)
    (hok : packetOk s l) (hs : s.step l = some s') :
    Keyed packetSel s' := by
  refine hK.step hT hs ?_ ?_ ?_
  · rintro fd key proto peerId rfl
    exact hok
  · rintro key rfl
    exact hok
  · intro v f o k p hf hsel hm
    cases hf with
    | packet u q payload v f k' hroute =>
      cases hsel
      exact hT.route_leads hroute hm
    | cached u q frame v _ _ => cases hsel
    | routed u q frame v f _ _ _ => cases hsel

theorem popXfer_queue {src : ℕ} {x : Xfer} {rest : List Xfer} (h : popXfer ctx v src = some ctx')
    (hx : (ctx.workers v).xferInbox src = x :: rest) {u : ℕ} {q : Slot} {item : SendItem}
    (hi : item ∈ ((ctx'.workers u).ht q).send.queue) :
    item ∈ ((ctx.workers u).ht q).send.queue ∨
      (u = v ∧ xferTarget (ctx.workers v) x = some q ∧ item.data = x.frame) := by
  unfold popXfer at h
  simp only [hx] at h
  cases h
  by_cases hu : u = v
  · subst hu
    rw [Ctx.setWorker_self] at hi
    unfold xferDeliver at hi
    split at hi
    · exact .inl hi
    · next p hp =>
      rcases enqueueSend_mem hi with hold | ⟨rfl, hdata⟩
      · exact .inl hold
      · exact .inr ⟨rfl, hp, hdata⟩
  · rw [Ctx.setWorker_ne _ _ hu] at hi
    exact .inl hi

/-- In every run whose adds and removals keep clear of SendPacket frames of other
keys, a frame for a key is only ever queued for the live peer with that key. -/
theorem packet_reaches_its_key {s s' : Shards} {l : ShardStep} (h : Runs.Reach Init step packetOk s)
    (hs : s.step l = some s') : PacketDelivery s s' l := by
  obtain ⟨hT, hK⟩ : s.Tables ∧ Keyed packetSel s := by
    refine h.invariant (P := fun s => s.Tables ∧ Keyed packetSel s) ?_ ?_
    · intro s hinit
      exact ⟨hinit.tables, fun v f g o k p hw => absurd hw hinit.not_waiting⟩
    · rintro s s' l ⟨hT, hK⟩ hok hs
      exact ⟨step_tables hT hs, packetKeyed_step hT hK hok hs⟩
  cases l with
  | packet u src payload =>
    intro v q item hi
    simp only [step] at hs
    split at hs
    · cases hs
      have heff := (packetRoute_spec s.ctx u payload src).1
      rcases heff.queue hi with hold | ⟨rfl, k, hk, hl⟩
      · exact .inl hold
      · refine .inr ⟨k, hk, ?_⟩
        exact (SameMaps.of_core heff.core).live.mpr ((hT.table v).lookup_iff.mp hl)
    · cases hs
  | pop v src =>
    intro x rest k hx htag u q item hi
    simp only [step] at hs
    split at hs
    · obtain ⟨ctx, hpop, rfl⟩ := Option.map_eq_some_iff.mp hs
      rcases popXfer_queue hpop hx hi with hold | ⟨rfl, htgt, -⟩
      · exact .inl hold
      · obtain ⟨-, hmap, hgen⟩ := xferTarget_some.mp htgt
        have hw : s.Waiting u x.dstFd (some x.dstGen) (.packet k) :=
          .inl ⟨src, x, by rw [hx]; exact List.mem_cons_self .., rfl, rfl, htag⟩
        have hl := hK u x.dstFd (some x.dstGen) _ k q hw rfl ⟨hmap, fun n hn => by
          cases hn
          exact hgen⟩
        exact .inr ((SameMaps.of_core (popXfer_core hpop)).live.mpr hl)
    · cases hs
  | _ => trivial

/-! ### An fd reused between the lookup and the load -/

/-- A DERP peer on worker 0 and a second one on worker 1. -/
def twoPeers : List ShardStep :=
  [.add 3 (byteKey 1) .kDerp 0, .add 4 (byteKey 2) .kDerp 0]

def sendAcross : ShardStep := .packet 0 (homeSlot (byteKey 1)) ((byteKey 2).data ++ [7])

def twoShards : Shards := { ctx := twoWorkers }

theorem twoShards_init : twoShards.Init := ⟨fun _ => rfl, by decide, fun _ => rfl⟩

/-- What worker 1 pops after the given steps (number of transfers, tag of the
first), the key in slot `q` and its queue before and after. -/
def popped (ls : List ShardStep) (q : Slot) :
    Option (ℕ × Option Origin × Key × List SendItem × List SendItem) :=
  (Runs.run step twoShards ls).bind fun s =>
    (s.step (.pop 1 0)).map fun s' =>
      (((s.ctx.workers 1).xferInbox 0).length, ((s.ctx.workers 1).xferInbox 0).head?.bind Xfer.tag,
        ((s'.ctx.workers 1).ht q).key, s.queue 1 q, s'.queue 1 q)

theorem popped_some {ls : List ShardStep} {q : Slot} {o : Origin} {k : Key}
    {before after : List SendItem} (h : popped ls q = some (1, some o, k, before, after)) :
    ∃ s s' x, Runs.run step twoShards ls = some s ∧ s.step (.pop 1 0) = some s' ∧
      (s.ctx.workers 1).xferInbox 0 = [x] ∧ x.tag = some o ∧
      ((s'.ctx.workers 1).ht q).key = k ∧ s.queue 1 q = before ∧ s'.queue 1 q = after := by
  obtain ⟨s, hs, hpop⟩ := Option.bind_eq_some_iff.mp h
  obtain ⟨s', hs', heq⟩ := Option.map_eq_some_iff.mp hpop
  simp only [Prod.mk.injEq] at heq
  obtain ⟨hlen, htag, hkey, hbefore, hafter⟩ := heq
  obtain ⟨x, hx⟩ := List.length_eq_one_iff.mp hlen
  rw [hx] at htag
  exact ⟨s, s', x, hs, hs', hx, htag, hkey, hbefore, hafter⟩

/-- The addressee leaves after the lookup, and another peer gets its fd before
the source loads the generation: the newcomer receives the frame. -/
theorem packet_misdelivered_after_fd_reuse :
    ¬∀ s, Runs.Reach Init step Runs.Any s → ∀ l s', s.step l = some s' →
      PacketDelivery s s' l := by
  intro hall
  have hrun : popped (twoPeers ++ [sendAcross, .remove (byteKey 2), .add 4 (byteKey 4) .kDerp 0,
      .load 0, .push 0]) (homeSlot (byteKey 4)) =
      some (1, some (.packet (byteKey 2)), byteKey 4, [],
        [⟨0, buildRecvPacket (byteKey 1) [7]⟩]) := by
    decide
  obtain ⟨s, s', x, hs, hs', hx, htag, hkey, hbefore, hafter⟩ := popped_some hrun
  have hd := hall s (Runs.reach_of_run twoShards_init hs) (.pop 1 0) s' hs' x [] (byteKey 2) hx
    htag 1 (homeSlot (byteKey 4)) ⟨0, buildRecvPacket (byteKey 1) [7]⟩
    (by rw [hafter]; exact List.mem_singleton.mpr rfl)
  rw [hbefore] at hd
  rcases hd with hd | hd
  · cases hd
  · exact absurd (hkey.symm.trans hd.2) (by decide)

theorem addClear_of_not_waiting {sel : Origin → Option Key} (h : ∀ v f g o, ¬s.Waiting v f g o)
    (fd : Fd) (key : Key) : AddClear sel s fd key :=
  fun g o _ hw => absurd hw (h _ fd g o)

theorem twoPeers_ok {sel : Origin → Option Key} {ok : Shards → ShardStep → Prop}
    (hadd : ∀ s fd key proto peerId, AddClear sel s fd key → ok s (.add fd key proto peerId))
    {ls : List ShardStep} (hls : ∀ s, ∀ l ∈ ls, ok s l) :
    Runs.RunOk step ok twoShards (twoPeers ++ ls) := by
  have h0 : ∀ v f g o, ¬twoShards.Waiting v f g o := fun v f g o => twoShards_init.not_waiting
  refine ⟨hadd _ _ _ _ _ (addClear_of_not_waiting h0 _ _), fun s1 h1 => ?_⟩
  have hw1 : ∀ v f g o, ¬s1.Waiting v f g o := by
    intro v f g o hw
    rcases step_waiting twoShards_init.tables h1 hw with ⟨g', hw, -⟩ | ⟨-, hf⟩
    · exact h0 _ _ _ _ hw
    · cases hf
  exact ⟨hadd _ _ _ _ _ (addClear_of_not_waiting hw1 _ _), fun s2 _ =>
    Runs.runOk_of_forall hls s2⟩

/-- Undisturbed, the frame arrives. -/
theorem packet_delivered_undisturbed :
    ∃ s s', Runs.Reach Init step packetOk s ∧ s.step (.pop 1 0) = some s' ∧
      s'.queue 1 (homeSlot (byteKey 2)) = [⟨0, buildRecvPacket (byteKey 1) [7]⟩] ∧
      PacketDelivery s s' (.pop 1 0) := by
  have hrun : popped (twoPeers ++ [sendAcross, .load 0, .push 0]) (homeSlot (byteKey 2)) =
      some (1, some (.packet (byteKey 2)), byteKey 2, [],
        [⟨0, buildRecvPacket (byteKey 1) [7]⟩]) := by
    decide
  obtain ⟨s, s', x, hs, hs', -, -, -, -, hafter⟩ := popped_some hrun
  have hok : Runs.RunOk step packetOk twoShards (twoPeers ++ [sendAcross, .load 0, .push 0]) := by
    refine twoPeers_ok (fun _ _ _ _ _ h => h) fun s l hl => ?_
    simp only [List.mem_cons, List.not_mem_nil, or_false] at hl
    rcases hl with rfl | rfl | rfl <;> trivial
  have hreach := Runs.reach_run (.start twoShards twoShards_init) hok hs
  exact ⟨s, s', hreach, hs', hafter, packet_reaches_its_key hreach hs'⟩

end Shards

end HyperDerp
