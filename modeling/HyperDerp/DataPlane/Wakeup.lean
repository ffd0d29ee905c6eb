import HyperDerp.DataPlane.Indices

/-!
# Who wakes a queue (`data_plane.cc:931-955`, `:1018-1045`)

A peer with frames to send and nothing in flight is sent to at the next flush,
if its descriptor is in `pending_fds`, or when its socket turns writable, if a
poll is armed. `pending_fds` holds `kMaxCqeBatch` descriptors; the 257th peer
that starts a queue between two flushes is marked pending and not recorded.
-/

namespace HyperDerp

/-- The step changes the send state of slot `q`, and no entry of `pending_fds`. -/
structure Advances (q : Slot) (w w' : Worker) : Prop where
  other : ∀ r, r ≠ q → w'.ht r = w.ht r
  self : w'.ht q = { w.ht q with send := (w'.ht q).send }
  fdMap : w'.fdMap = w.fdMap
  pendingFds : w'.pendingFds = w.pendingFds
  nextItem : w.nextItem ≤ w'.nextItem
  oracle : w.io.sqeOracle = [] → w'.io.sqeOracle = []
  pending : (w'.ht q).send.pending = true → (w.ht q).send.pending = true

namespace Advances

variable {q : Slot} {w w' w'' : Worker}

theorem of_ht (hht : w'.ht = w.ht) (hm : w'.fdMap = w.fdMap) (hp : w'.pendingFds = w.pendingFds)
    (hn : w'.nextItem = w.nextItem) (ho : w.io.sqeOracle = [] → w'.io.sqeOracle = []) :
    Advances q w w' where
  other r _ := by rw [hht]
  self := by rw [hht]
  fdMap := hm
  pendingFds := hp
  nextItem := Nat.le_of_eq hn.symm
  oracle := ho
  pending h := by
    rw [hht] at h
    exact h

theorem refl (w : Worker) : Advances q w w := of_ht rfl rfl rfl rfl id

theorem trans (h1 : Advances q w w') (h2 : Advances q w' w'') : Advances q w w'' where
  other r hr := (h2.other r hr).trans (h1.other r hr)
  self := by rw [h2.self, h1.self]
  fdMap := h2.fdMap.trans h1.fdMap
  pendingFds := h2.pendingFds.trans h1.pendingFds
  nextItem := Nat.le_trans h1.nextItem h2.nextItem
  oracle h := h2.oracle (h1.oracle h)
  pending h := h1.pending (h2.pending h)

theorem put {s : SendState} (hht : w'.ht = (w.setSend q s).ht)
    (hs : s.pending = true → (w.ht q).send.pending = true) (hm : w'.fdMap = w.fdMap)
    (hp : w'.pendingFds = w.pendingFds) (hn : w.nextItem ≤ w'.nextItem)
    (ho : w.io.sqeOracle = [] → w'.io.sqeOracle = []) : Advances q w w' where
  other r hr := by rw [hht, w.setSend_ne s hr]
  self := by
    rw [hht]
    simp [Worker.setSend]
  fdMap := hm
  pendingFds := hp
  nextItem := hn
  oracle := ho
  pending h := by
    rw [hht, Worker.setSend_self] at h
    exact hs h

theorem setSend {s : SendState} (hs : s.pending = true → (w.ht q).send.pending = true) :
    Advances q w (w.setSend q s) := put rfl hs rfl rfl (Nat.le_refl _) id

theorem io {io : Io} (h : w.io.SameFlow io) : Advances q w { w with io := io } :=
  of_ht rfl rfl rfl rfl h.oracle

theorem alloc (w : Worker) : Advances q w w.alloc.2 := by
  rw [alloc_eq]
  exact of_ht rfl rfl rfl rfl id

theorem submitNext (w : Worker) (q : Slot) : Advances q w (submitNext w q).2 := by
  unfold HyperDerp.submitNext
  dsimp only
  split
  · exact .refl w
  · next id _ =>
    split
    · exact .refl w
    · next item _ =>
      have hflow := Io.SameFlow.submitPeerSend w q item
        (nodeNext (w.ht q).send.queue id).isSome
      obtain ⟨ok, io, heq, -⟩ :=
        submitPeerSend_cases w q item (nodeNext (w.ht q).send.queue id).isSome
      rw [heq] at hflow ⊢
      cases ok with
      | false => exact .io hflow
      | true =>
        refine (Advances.io hflow).trans ?_
        exact .setSend fun h => h

theorem submitBatch (n : ℕ) (w : Worker) (q : Slot) : Advances q w (submitBatch n w q) := by
  induction n generalizing w with
  | zero => exact .refl w
  | succ n ih =>
    have hs := submitNext w q
    simp only [HyperDerp.submitBatch]
    split
    · split
      · next heq => rw [heq] at hs; exact hs.trans (ih _)
      · next heq => rw [heq] at hs; exact hs
    · exact .refl w

theorem armPollWrite (w : Worker) (q : Slot) (fd : Fd) :
    Advances q w (armPollWrite w q fd) := by
  have hflow := Io.SameFlow.prepSqe w.io (.pollOut fd)
  unfold HyperDerp.armPollWrite
  dsimp only
  split
  · exact .refl w
  · generalize prepSqe w.io (.pollOut fd) = r at hflow
    obtain ⟨ok, io⟩ := r
    cases ok with
    | false => exact .io hflow
    | true =>
      refine (Advances.io hflow).trans ?_
      exact .setSend fun h => h

theorem relieveRecv (w : Worker) : Advances q w (relieveRecv w) := by
  unfold HyperDerp.relieveRecv
  split
  · split
    · exact of_ht rfl rfl rfl rfl id
    · split
      · have hflow := Io.SameFlow.drainDeferredRecvs
          { w with io := { w.io with recvPaused := false } }
        obtain ⟨io, hio⟩ := drainDeferredRecvs_io { w with io := { w.io with recvPaused := false } }
        unfold resumeRecv
        rw [hio] at hflow ⊢
        exact of_ht rfl rfl rfl rfl hflow.oracle
      · exact .refl w
  · exact .refl w

theorem popSend (w : Worker) (q : Slot) (b : Bool) : Advances q w (popSend w q b) := by
  unfold HyperDerp.popSend
  dsimp only
  split
  · exact .refl w
  · refine Advances.trans ?_ (relieveRecv _)
    unfold Worker.park
    split
    · exact put rfl id rfl rfl (Nat.le_refl _) id
    · exact put rfl id rfl rfl (Nat.le_refl _) id

theorem drainSendQueue (w : Worker) (q : Slot) (b : Bool) :
    Advances q w (drainSendQueue w q b) := by
  have h1 := popSend w q b
  unfold HyperDerp.drainSendQueue
  dsimp only
  generalize HyperDerp.popSend w q b = w1 at h1 ⊢
  have h2 : Advances q w (if 0 < (w1.ht q).send.inflight then
      w1.setSend q { (w1.ht q).send with inflight := (w1.ht q).send.inflight - 1 } else w1) := by
    split
    · exact h1.trans (.setSend fun h => h)
    · exact h1
  generalize (if 0 < (w1.ht q).send.inflight then
      w1.setSend q { (w1.ht q).send with inflight := (w1.ht q).send.inflight - 1 } else w1) = w2
    at h2 ⊢
  split
  · exact h2.trans (submitNext w2 q)
  · exact h2

theorem sendRetry (w : Worker) (q : Slot) (fd : Fd) : Advances q w (sendRetry w q fd) := by
  unfold HyperDerp.sendRetry
  dsimp only
  refine Advances.trans ?_ (armPollWrite _ q fd)
  exact .setSend fun h => h

theorem sendUnsupported (w : Worker) (q : Slot) : Advances q w (sendUnsupported w q) := by
  unfold HyperDerp.sendUnsupported
  dsimp only
  split
  · refine Advances.trans ?_ (submitBatch _ _ q)
    exact .setSend fun h => h
  · exact .setSend fun h => h

theorem sendShort (w : Worker) (q : Slot) (fd : Fd) (sent : ℕ) (x : SendItem) (rest : List SendItem)
    (b : Bool) : Advances q w (sendShort w q fd sent x rest b) := by
  rcases sendShort_cases w q fd sent x rest b with
    ⟨-, heq⟩ | ⟨-, nm, ao, w1, hw1, ⟨-, heq⟩ | ⟨-, heq⟩⟩
  · rw [heq]
    exact (alloc w).trans (drainSendQueue _ q b)
  · have h1 : Advances q w w1 := by
      rw [hw1]
      exact put rfl id rfl rfl (Nat.le_refl _) id
    rw [heq]
    refine h1.trans ?_
    unfold dropRest
    dsimp only
    have h2 : Advances q w1 { w1.setSend q { (w1.ht q).send with
        inflight := (w1.ht q).send.inflight - 1 } with
        stats := { w1.stats with slabExhausts := w1.stats.slabExhausts + 1 } } :=
      put rfl id rfl rfl (Nat.le_refl _) id
    split
    · exact h2.trans (submitNext _ q)
    · exact h2
  · have h1 : Advances q w w1 := by
      rw [hw1]
      exact put rfl id rfl rfl (Nat.le_refl _) id
    obtain ⟨io, hres, hflow, -⟩ := resubmitRest_cases w1 q fd (x.data.drop sent)
    rw [heq, hres]
    refine h1.trans ?_
    exact put rfl id rfl rfl (Nat.le_succ _) hflow.oracle

theorem handleSendCqe (w : Worker) (cqe : Cqe) {p : Slot} (hc : Completes w cqe p) :
    Advances p w (handleSendCqe w cqe) := by
  have hacc : ∀ stats pipe, Advances p w { w with stats := stats, pipe := pipe } :=
    fun _ _ => of_ht rfl rfl rfl rfl id
  have hcase := handleSendCqe_case w cqe
  have hone : ∀ {r}, Completes w cqe r → r = p := fun hr =>
    Option.some.inj (hr.mapped.symm.trans hc.mapped)
  generalize HyperDerp.handleSendCqe w cqe = w' at hcase ⊢
  cases hcase with
  | ignored nm hno => exact absurd hc (hno p)
  | unsupported r hr _ =>
    obtain rfl := hone hr
    exact sendUnsupported w r
  | retry r stats hr _ =>
    obtain rfl := hone hr
    exact (hacc stats w.pipe).trans (sendRetry _ r cqe.fd)
  | done r stats pipe hr =>
    obtain rfl := hone hr
    exact (hacc stats pipe).trans (drainSendQueue _ r cqe.more)
  | short r stats item rest hr _ _ _ =>
    obtain rfl := hone hr
    exact (hacc stats w.pipe).trans (sendShort _ r cqe.fd _ item rest cqe.more)

end Advances

/-! ### Submission never stops short -/

/-- Entries are granted, and `send_next` is a node of the list. -/
structure Fed (w : Worker) (q : Slot) : Prop where
  oracle : w.io.sqeOracle = []
  chain : ∃ j, (w.ht q).send.Chain w.nextItem j

theorem submitPeerSend_ok (w : Worker) (p : Slot) (item : SendItem) (more : Bool) :
    (submitPeerSend w p item more).1 = (getSqe w.io).1 := by
  unfold submitPeerSend
  dsimp only
  split <;> exact submitSend_ok _ _ _ _ _

namespace Fed

variable {w : Worker} {q : Slot}

theorem setSend (h : Fed w q) {io : Io} (ho : w.io.sqeOracle = [] → io.sqeOracle = [])
    {s : SendState} (hq : s.queue = (w.ht q).send.queue) (ht : s.tail = (w.ht q).send.tail)
    (hn : s.next = (w.ht q).send.next) (hi : s.inflight = (w.ht q).send.inflight) :
    Fed ({ w with io := io }.setSend q s) q := by
  obtain ⟨j, hc⟩ := h.chain
  refine ⟨ho h.oracle, j, ?_⟩
  rw [Worker.setSend_self]
  exact hc.congr hq ht hn hi

theorem submitNext (h : Fed w q) :
    Fed (submitNext w q).2 q ∧
      (((w.ht q).send.next = none ∧ HyperDerp.submitNext w q = (false, w)) ∨
        ((HyperDerp.submitNext w q).1 = true ∧
          ((HyperDerp.submitNext w q).2.ht q).send.inflight = (w.ht q).send.inflight + 1)) := by
  obtain ⟨j, hc⟩ := h.chain
  cases hn : (w.ht q).send.next with
  | none =>
    have heq : HyperDerp.submitNext w q = (false, w) := by simp only [HyperDerp.submitNext, hn]
    rw [heq]
    exact ⟨h, .inl ⟨rfl, rfl⟩⟩
  | some id =>
    obtain ⟨x, -, hx, hc'⟩ := hc.submit hn
    have hflow := Io.SameFlow.submitPeerSend w q x (nodeNext (w.ht q).send.queue id).isSome
    have hok := submitPeerSend_ok w q x (nodeNext (w.ht q).send.queue id).isSome
    obtain ⟨ok, io, heq, -⟩ :=
      submitPeerSend_cases w q x (nodeNext (w.ht q).send.queue id).isSome
    rw [heq] at hok hflow
    rw [getSqe_of_oracle h.oracle] at hok
    obtain rfl : ok = true := hok
    have hsub : HyperDerp.submitNext w q = (true, { w with io := io }.setSend q
        { (w.ht q).send with
          next := nodeNext (w.ht q).send.queue id, inflight := (w.ht q).send.inflight + 1 }) := by
      simp only [HyperDerp.submitNext, hn, hx, heq]
    rw [hsub]
    refine ⟨⟨hflow.oracle h.oracle, j + 1, ?_⟩, .inr ⟨rfl, ?_⟩⟩
    · rw [Worker.setSend_self]
      exact hc'
    · rw [Worker.setSend_self]

theorem submitBatch (n : ℕ) (h : Fed w q) :
    Fed (submitBatch n w q) q ∧
      (w.ht q).send.inflight ≤ ((HyperDerp.submitBatch n w q).ht q).send.inflight ∧
      (0 < n → ((HyperDerp.submitBatch n w q).ht q).send.next ≠ none →
        0 < ((HyperDerp.submitBatch n w q).ht q).send.inflight) := by
  induction n generalizing w with
  | zero => exact ⟨h, Int.le_refl _, fun h0 => absurd h0 (Nat.lt_irrefl 0)⟩
  | succ n ih =>
    obtain ⟨j, hc⟩ := h.chain
    have hnn := hc.nonneg
    simp only [HyperDerp.submitBatch]
    split
    · obtain ⟨hf, ⟨hnone, -⟩ | ⟨hone, hinf⟩⟩ := h.submitNext
      · next hcond =>
        rw [hnone] at hcond
        exact absurd hcond.1 Bool.false_ne_true
      · split
        · next w1 heq =>
          rw [heq] at hf hinf
          obtain ⟨h1, h2, -⟩ := ih hf
          simp only at h2 hinf
          exact ⟨h1, by omega, fun _ _ => by omega⟩
        · next w1 heq =>
          rw [heq] at hone
          cases hone
    · next hcond =>
      refine ⟨h, Int.le_refl _, fun _ hn => ?_⟩
      by_contra hle
      apply hcond
      refine ⟨Option.isSome_iff_ne_none.mpr hn, ?_⟩
      unfold kMaxSendsInflight
      omega

theorem armPollWrite (h : Fed w q) (fd : Fd) :
    Fed (armPollWrite w q fd) q ∧
      ((HyperDerp.armPollWrite w q fd).ht q).send.pollWritePending = true := by
  have hflow := Io.SameFlow.prepSqe w.io (.pollOut fd)
  have hget := getSqe_of_oracle h.oracle
  unfold HyperDerp.armPollWrite
  dsimp only
  split
  · next hp => exact ⟨h, hp⟩
  · unfold prepSqe at hflow ⊢
    split
    · next io heq =>
      split at heq
      · cases heq
        next io1 hg =>
        simp only [hg] at hflow
        refine ⟨h.setSend hflow.oracle rfl rfl rfl rfl, ?_⟩
        rw [Worker.setSend_self]
      · cases heq
    · next io heq =>
      split at heq
      · cases heq
      · next hg =>
        rw [hg] at hget
        cases hget

theorem refill (h : Fed w q) {w' : Worker}
    (hw : w' = if (w.ht q).send.next.isSome ∧ (w.ht q).send.inflight < kMaxSendsInflight then
      (HyperDerp.submitNext w q).2 else w) :
    Fed w' q ∧ ((w'.ht q).send.next ≠ none → 0 < (w'.ht q).send.inflight) := by
  obtain ⟨j, hc⟩ := h.chain
  have hnn := hc.nonneg
  subst hw
  split
  · next hcond =>
    obtain ⟨hf, ⟨hnone, -⟩ | ⟨-, hinf⟩⟩ := h.submitNext
    · rw [hnone] at hcond
      exact absurd hcond.1 Bool.false_ne_true
    · exact ⟨hf, fun _ => by omega⟩
  · next hcond =>
    refine ⟨h, fun hn => ?_⟩
    by_contra hle
    apply hcond
    refine ⟨Option.isSome_iff_ne_none.mpr hn, ?_⟩
    unfold kMaxSendsInflight
    omega

theorem drainSendQueue (h : Fed w q) (hi : 0 < (w.ht q).send.inflight) (b : Bool) :
    Fed (drainSendQueue w q b) q ∧
      (((HyperDerp.drainSendQueue w q b).ht q).send.next ≠ none →
        0 < ((HyperDerp.drainSendQueue w q b).ht q).send.inflight) := by
  obtain ⟨j, hc⟩ := h.chain
  obtain ⟨-, hsend, hni, -⟩ := popSend_spec w q b (hc.queue_ne_nil hi)
  have ho := (Advances.popSend w q b).oracle h.oracle
  have hpos : 0 < ((popSend w q b).ht q).send.inflight := by
    rw [hsend]
    exact hi
  unfold HyperDerp.drainSendQueue
  simp only [hpos, ite_true]
  generalize popSend w q b = w1 at hsend hni ho ⊢
  apply refill ?_ rfl
  refine ⟨ho, j - 1, ?_⟩
  rw [Worker.setSend_self, hsend]
  change SendState.Chain _ w1.nextItem _
  rw [hni]
  exact hc.pop hi

theorem sendRetry (h : Fed w q) (hi : 0 < (w.ht q).send.inflight) (fd : Fd) :
    Fed (sendRetry w q fd) q ∧
      ((HyperDerp.sendRetry w q fd).ht q).send.pollWritePending = true := by
  obtain ⟨j, hc⟩ := h.chain
  have hle := hc.le
  have hin := hc.inflight_le
  obtain ⟨i, hi'⟩ : ∃ i : ℕ, (w.ht q).send.inflight - 1 = i :=
    ⟨((w.ht q).send.inflight - 1).toNat, by omega⟩
  unfold HyperDerp.sendRetry
  simp only [hi', Int.toNat_natCast, List.head?_drop]
  apply armPollWrite
  refine ⟨h.oracle, i, ?_⟩
  rw [Worker.setSend_self]
  exact hc.rewind (by omega) rfl rfl rfl rfl

theorem sendUnsupported (h : Fed w q) (hi : 0 < (w.ht q).send.inflight) :
    Fed (sendUnsupported w q) q ∧
      (((HyperDerp.sendUnsupported w q).ht q).send.next ≠ none →
        0 < ((HyperDerp.sendUnsupported w q).ht q).send.inflight) := by
  obtain ⟨j, hc⟩ := h.chain
  have hin := hc.inflight_le
  unfold HyperDerp.sendUnsupported
  dsimp only
  split
  · have hf : Fed (w.setSend q { (w.ht q).send with
        noZc := true, zcDraining := false, inflight := 0
        next := (w.ht q).send.queue.head?.map SendItem.id }) q := by
      refine ⟨h.oracle, 0, ?_⟩
      rw [Worker.setSend_self]
      refine hc.rewind (Nat.zero_le _) rfl rfl ?_ rfl
      simp [List.head?_eq_getElem?]
    obtain ⟨h1, -, h3⟩ := hf.submitBatch kMaxSendsInflight.toNat
    exact ⟨h1, h3 (by decide)⟩
  · next hne =>
    rw [Worker.setSend_self]
    refine ⟨⟨h.oracle, j, ?_⟩, fun _ => ?_⟩
    · rw [Worker.setSend_self]
      exact ⟨⟨hc.nodup, hc.fresh, hc.tail⟩, hc.next, hc.le, by simp only; omega,
        by simp only; omega⟩
    · simp only
      omega

theorem sendShort (h : Fed w q) (hi : 0 < (w.ht q).send.inflight) {x : SendItem}
    {rest : List SendItem} (hx : (w.ht q).send.queue = x :: rest) (fd : Fd) (sent : ℕ) (b : Bool) :
    Fed (sendShort w q fd sent x rest b) q ∧
      (((HyperDerp.sendShort w q fd sent x rest b).ht q).send.next ≠ none →
        0 < ((HyperDerp.sendShort w q fd sent x rest b).ht q).send.inflight) := by
  obtain ⟨j, hc⟩ := h.chain
  have hin := hc.inflight_le
  rcases sendShort_cases w q fd sent x rest b with
    ⟨-, heq⟩ | ⟨-, nm, ao, w1, hw1, hend⟩
  · rw [heq]
    obtain ⟨-, hht, hio, hni⟩ := alloc_spec w q
    have hf : Fed w.alloc.2 q := by
      refine ⟨by rw [hio]; exact h.oracle, j, ?_⟩
      rw [hht, hni]
      exact hc
    exact hf.drainSendQueue (by rw [hht]; exact hi) b
  · have hs1 : (w1.ht q).send = { (w.ht q).send with
        queue := rest, tail := if rest.isEmpty then none else (w.ht q).send.tail } := by
      rw [hw1]
      simp [Worker.setSend]
    have hio1 : w1.io = w.io := by rw [hw1]; rfl
    have hni1 : w1.nextItem = w.nextItem := by rw [hw1]; rfl
    rcases hend with ⟨-, heq⟩ | ⟨-, heq⟩
    · -- the node is gone and one send less is in flight
      rw [heq]
      unfold dropRest
      dsimp only
      generalize hw2 : ({ w1.setSend q { (w1.ht q).send with
          inflight := (w1.ht q).send.inflight - 1 } with
          stats := { w1.stats with slabExhausts := w1.stats.slabExhausts + 1 } } : Worker) = w2
      have hs2 : (w2.ht q).send = { (w1.ht q).send with
          inflight := (w1.ht q).send.inflight - 1 } := by
        rw [← hw2]
        exact Worker.setSend_self w1 q _
      have hf : Fed w2 q := by
        refine ⟨by rw [← hw2]; exact (congrArg Io.sqeOracle hio1).trans h.oracle, j - 1, ?_⟩
        have hni2 : w2.nextItem = w.nextItem := by rw [← hw2]; exact hni1
        obtain ⟨i, rfl⟩ : ∃ i, j = i + 1 := ⟨j - 1, by omega⟩
        rw [hs2, hs1, hni2]
        have hle := hc.le
        have hn := hc.next
        rw [hx] at hle hn
        refine ⟨hc.toLinkage.dropHead hx rfl rfl, ?_, ?_, ?_, ?_⟩
        · exact hn
        · simp only [List.length_cons] at hle
          simp only [Nat.add_sub_cancel]
          omega
        · simp only
          omega
        · simp only [Nat.add_sub_cancel]
          omega
      apply hf.refill
      rw [hs2]
    · -- the remainder is submitted in place of the head
      rw [heq]
      obtain ⟨io, hres, hflow, -⟩ := resubmitRest_cases w1 q fd (x.data.drop sent)
      rw [hres, getSqe_of_oracle (by rw [hio1]; exact h.oracle)]
      refine ⟨⟨hflow.oracle (by rw [hio1]; exact h.oracle), j, ?_⟩, fun _ => ?_⟩
      · change SendState.Chain ((w1.setSend q _).ht q).send (w1.nextItem + 1) j
        rw [Worker.setSend_self, hs1, hni1]
        exact hc.replaceHead (by omega) hx rfl rfl rfl (by simp only [ite_true]; omega)
          (by simp only [ite_true]; omega)
      · change 0 < ((w1.setSend q _).ht q).send.inflight
        rw [Worker.setSend_self, hs1]
        simp only [ite_true]
        exact hi

end Fed

/-! ### Every live peer -/

/-- A queue that waits with nothing in flight is pending or polled for. -/
def SendState.Woken (s : SendState) : Prop :=
  s.next ≠ none → s.inflight = 0 → s.zcDraining = false →
    s.pending = true ∨ s.pollWritePending = true

theorem SendState.Woken.of_inflight {s : SendState} (h : s.next ≠ none → 0 < s.inflight) :
    s.Woken := by
  intro hn hi
  have hpos := h hn
  omega

/-- A pending peer is recorded by a descriptor for which `listed` holds. -/
structure Awake (w : Worker) (listed : Slot → Prop) (q : Slot) : Prop where
  chain : ∃ j, (w.ht q).send.Chain w.nextItem j
  woken : (w.ht q).send.Woken
  listed : (w.ht q).send.pending = true → listed q

structure Wakeful (w : Worker) : Prop where
  oracle : w.io.sqeOracle = []
  live : ∀ q, (w.ht q).occupied = .live → Awake w (fun q => (w.ht q).fd ∈ w.pendingFds) q

theorem Awake.congr {w w' : Worker} {listed listed' : Slot → Prop} {q : Slot} (h : Awake w listed q)
    (hs : (w'.ht q).send = (w.ht q).send) (hn : w.nextItem ≤ w'.nextItem)
    (hl : listed q → listed' q) : Awake w' listed' q := by
  obtain ⟨j, hc⟩ := h.chain
  refine ⟨⟨j, by rw [hs]; exact hc.mono hn⟩, by rw [hs]; exact h.woken, fun hp => hl ?_⟩
  rw [hs] at hp
  exact h.listed hp

namespace Wakeful

variable {w w' : Worker} {q : Slot}

theorem init : Wakeful {} := ⟨rfl, fun _ h => by cases h⟩

theorem same (h : Wakeful w) (ho : w'.io.sqeOracle = []) (hs : ∀ q, (w'.ht q).send = (w.ht q).send)
    (hocc : ∀ q, (w'.ht q).occupied = .live → (w.ht q).occupied = .live)
    (hfd : ∀ q, (w'.ht q).fd = (w.ht q).fd) (hp : w'.pendingFds = w.pendingFds)
    (hn : w'.nextItem = w.nextItem) : Wakeful w' where
  oracle := ho
  live q hq := by
    refine (h.live q (hocc q hq)).congr (hs q) (Nat.le_of_eq hn.symm) ?_
    rw [hfd, hp]
    exact id

theorem of_advance (ho : w.io.sqeOracle = [])
    (hothers : ∀ r, r ≠ q → (w.ht r).occupied = .live →
      Awake w (fun q => (w.ht q).fd ∈ w.pendingFds) r)
    (hlisted : (w.ht q).occupied = .live → (w.ht q).send.pending = true →
      (w.ht q).fd ∈ w.pendingFds) (ha : Advances q w w')
    (hq : (w.ht q).occupied = .live →
      (∃ j, (w'.ht q).send.Chain w'.nextItem j) ∧ (w'.ht q).send.Woken) : Wakeful w' where
  oracle := ha.oracle ho
  live r hr := by
    by_cases he : r = q
    · subst he
      rw [ha.self] at hr
      obtain ⟨hc, hw⟩ := hq hr
      refine ⟨hc, hw, fun hp => ?_⟩
      rw [ha.self, ha.pendingFds]
      exact hlisted hr (ha.pending hp)
    · rw [ha.other r he] at hr
      refine (hothers r he hr).congr (by rw [ha.other r he]) ha.nextItem ?_
      rw [ha.other r he, ha.pendingFds]
      exact id

theorem advance (h : Wakeful w) (ha : Advances q w w')
    (hq : (w.ht q).occupied = .live →
      (∃ j, (w'.ht q).send.Chain w'.nextItem j) ∧ (w'.ht q).send.Woken) : Wakeful w' :=
  of_advance h.oracle (fun r _ => h.live r) (fun hl => (h.live q hl).listed) ha hq

theorem fed (h : Wakeful w) (hq : (w.ht q).occupied = .live) : Fed w q :=
  ⟨h.oracle, (h.live q hq).chain⟩

theorem handleSendCqe (h : Wakeful w) {cqe : Cqe}
    (hi : ∀ p, Completes w cqe p → (w.ht p).occupied = .live → 0 < (w.ht p).send.inflight) :
    Wakeful (handleSendCqe w cqe) := by
  by_cases hc : ∃ p, Completes w cqe p
  · obtain ⟨p, hc⟩ := hc
    apply h.advance (Advances.handleSendCqe w cqe hc)
    intro hl
    have hpos := hi p hc hl
    have hf := h.fed hl
    have hone : ∀ {r}, Completes w cqe r → r = p := fun hr =>
      Option.some.inj (hr.mapped.symm.trans hc.mapped)
    have hcase := handleSendCqe_case w cqe
    generalize HyperDerp.handleSendCqe w cqe = w' at hcase ⊢
    have hacc : ∀ stats pipe, Fed { w with stats := stats, pipe := pipe } p :=
      fun _ _ => ⟨hf.oracle, hf.chain⟩
    cases hcase with
    | ignored nm hno => exact absurd hc (hno p)
    | unsupported r hr _ =>
      obtain rfl := hone hr
      obtain ⟨h1, h2⟩ := hf.sendUnsupported hpos
      exact ⟨h1.chain, .of_inflight h2⟩
    | retry r stats hr _ =>
      obtain rfl := hone hr
      obtain ⟨h1, h2⟩ := (hacc stats w.pipe).sendRetry hpos cqe.fd
      exact ⟨h1.chain, fun _ _ _ => .inr h2⟩
    | done r stats pipe hr =>
      obtain rfl := hone hr
      obtain ⟨h1, h2⟩ := (hacc stats pipe).drainSendQueue hpos cqe.more
      exact ⟨h1.chain, .of_inflight h2⟩
    | short r stats item rest hr _ hq _ =>
      obtain rfl := hone hr
      obtain ⟨h1, h2⟩ := (hacc stats w.pipe).sendShort hpos hq cqe.fd cqe.res.toNat cqe.more
      exact ⟨h1.chain, .of_inflight h2⟩
  · have hcase := handleSendCqe_case w cqe
    generalize HyperDerp.handleSendCqe w cqe = w' at hcase ⊢
    cases hcase with
    | ignored nm _ => exact h.same h.oracle (fun _ => rfl) (fun _ => id) (fun _ => rfl) rfl rfl
    | unsupported r hr _ => exact absurd ⟨r, hr⟩ hc
    | retry r stats hr _ => exact absurd ⟨r, hr⟩ hc
    | done r stats pipe hr => exact absurd ⟨r, hr⟩ hc
    | short r stats item rest hr _ _ _ => exact absurd ⟨r, hr⟩ hc

theorem handlePollWrite (h : Wakeful w) (fd : Fd) : Wakeful (handlePollWrite w fd) := by
  unfold HyperDerp.handlePollWrite
  dsimp only
  split
  · exact h
  · next p _ =>
    have h1 : Advances p w (w.setSend p { (w.ht p).send with pollWritePending := false }) :=
      .setSend id
    have h2 := h1.trans (Advances.submitBatch kPollWriteBatch _ p)
    have hfed : (w.ht p).occupied = .live →
        Fed (w.setSend p { (w.ht p).send with pollWritePending := false }) p :=
      fun hl => (h.fed hl).setSend id rfl rfl rfl rfl
    split
    · apply h.advance (h2.trans (Advances.armPollWrite _ p fd))
      intro hl
      obtain ⟨h3, -, -⟩ := (hfed hl).submitBatch kPollWriteBatch
      obtain ⟨h4, h5⟩ := h3.armPollWrite fd
      exact ⟨h4.chain, fun _ _ _ => .inr h5⟩
    · apply h.advance h2
      intro hl
      obtain ⟨h3, -, h4⟩ := (hfed hl).submitBatch kPollWriteBatch
      exact ⟨h3.chain, .of_inflight (h4 (by decide))⟩

theorem kickSend (ho : w.io.sqeOracle = [])
    (hothers : ∀ r, r ≠ q → (w.ht r).occupied = .live →
      Awake w (fun q => (w.ht q).fd ∈ w.pendingFds) r)
    (hq : (w.ht q).occupied = .live → (∃ j, (w.ht q).send.Chain w.nextItem j) ∧
      ((w.ht q).send.pending = true → (w.ht q).fd ∈ w.pendingFds))
    (hroom : (w.ht q).occupied = .live → (w.ht q).send.inflight = 0 →
      (w.ht q).send.pending = false → (w.ht q).send.zcDraining = false →
      w.pendingFds.length < kMaxCqeBatch) : Wakeful (kickSend w q) := by
  unfold HyperDerp.kickSend
  dsimp only
  split
  · next hdefer =>
    have hchain : (w.ht q).occupied = .live → ∃ j, ((w.setSend q { (w.ht q).send with
        pending := true }).ht q).send.Chain w.nextItem j := by
      intro hl
      obtain ⟨j, hc⟩ := (hq hl).1
      refine ⟨j, ?_⟩
      rw [Worker.setSend_self]
      exact hc.congr rfl rfl rfl rfl
    split
    · refine ⟨ho, fun r hr => ?_⟩
      by_cases he : r = q
      · subst he
        have hl : (w.ht r).occupied = .live := by simpa [Worker.setSend] using hr
        refine ⟨hchain hl, fun _ _ _ => .inl ?_, fun _ => ?_⟩
        · exact congrArg SendState.pending (Worker.setSend_self w r _)
        · exact List.mem_append_right _ (List.mem_singleton_self _)
      · have hne := w.setSend_ne { (w.ht q).send with pending := true } he
        have hl : (w.ht r).occupied = .live := by
          rw [← hne]
          exact hr
        refine (hothers r he hl).congr (by rw [← hne]) (Nat.le_refl _) fun hmem => ?_
        have hfd : ((w.setSend q { (w.ht q).send with pending := true }).ht r).fd =
            (w.ht r).fd := by rw [hne]
        change ((w.setSend q { (w.ht q).send with pending := true }).ht r).fd ∈ w.pendingFds ++ _
        rw [hfd]
        exact List.mem_append_left _ hmem
    · next hfull =>
      -- only a slot that is not live may go unrecorded
      refine ⟨ho, fun r hr => ?_⟩
      by_cases he : r = q
      · subst he
        have hl : (w.ht r).occupied = .live := by simpa [Worker.setSend] using hr
        exact absurd (hroom hl hdefer.1 hdefer.2.1 hdefer.2.2) hfull
      · have hne := w.setSend_ne { (w.ht q).send with pending := true } he
        rw [hne] at hr
        refine (hothers r he hr).congr (by rw [hne]) (Nat.le_refl _) fun hmem => ?_
        rw [hne]
        exact hmem
  · next hdefer =>
    have hlisted := fun hl => (hq hl).2
    split
    · apply of_advance ho hothers hlisted (Advances.submitNext w q)
      intro hl
      have hf : Fed w q := ⟨ho, (hq hl).1⟩
      obtain ⟨j, hc⟩ := hf.chain
      have hnn := hc.nonneg
      obtain ⟨h1, ⟨hnone, heq⟩ | ⟨-, hinf⟩⟩ := hf.submitNext
      · refine ⟨h1.chain, fun hn => absurd ?_ hn⟩
        rw [heq]
        exact hnone
      · exact ⟨h1.chain, .of_inflight fun _ => by omega⟩
    · apply of_advance ho hothers hlisted (.refl w)
      intro hl
      refine ⟨(hq hl).1, fun _ hi hz => .inl ?_⟩
      by_contra hp
      exact hdefer ⟨hi, by simpa using hp, hz⟩

/-- A frame for a peer that has to be recorded finds room in `pending_fds`. -/
def HasRoom (w : Worker) (q : Slot) : Prop :=
  (w.ht q).occupied = .live → (w.ht q).send.queued < kMaxSendQueueDepth → w.alloc.1 = true →
    (w.ht q).send.inflight = 0 → (w.ht q).send.pending = false →
    (w.ht q).send.zcDraining = false → w.pendingFds.length < kMaxCqeBatch

theorem enqueueSend (h : Wakeful w) (hroom : HasRoom w q) (data : Bytes) :
    Wakeful (enqueueSend w q data) := by
  have hsame : ∀ {w w' : Worker}, Wakeful w → w'.ht = w.ht → w'.io.sqeOracle = w.io.sqeOracle →
      w'.pendingFds = w.pendingFds → w'.nextItem = w.nextItem → Wakeful w' := by
    intro w w' h hht ho hp hn
    refine h.same (by rw [ho]; exact h.oracle) ?_ ?_ ?_ hp hn <;> intro r <;> rw [hht]
    exact id
  unfold HyperDerp.enqueueSend
  split
  · exact hsame h rfl rfl rfl rfl
  · next hfull =>
    have ha := alloc_eq w
    rcases hal : w.alloc with ⟨ok, w1⟩
    rw [hal] at ha
    cases ok with
    | false =>
      simp only at ha ⊢
      rw [ha]
      exact hsame h rfl rfl rfl rfl
    | true =>
      simp only at ha ⊢
      have hht : w1.ht = w.ht := by rw [ha]
      have hfds : w1.pendingFds = w.pendingFds := by rw [ha]
      have h1 : Wakeful w1 := hsame h hht (by rw [ha]) hfds (by rw [ha])
      have hpeer : (pushItem w1 q data).ht q =
          { w1.ht q with send := (w1.ht q).send.push ⟨w1.nextItem, data⟩ } := by
        simp [pushItem, Worker.setSend]
      have hk : Wakeful (HyperDerp.kickSend (pushItem w1 q data) q) := by
        apply kickSend
        · exact h1.oracle
        · intro r hr hl
          have hne : (pushItem w1 q data).ht r = w1.ht r := w1.setSend_ne _ hr
          rw [hne] at hl
          refine (h1.live r hl).congr (by rw [hne]) (Nat.le_succ _) fun hmem => ?_
          rw [hne]
          exact hmem
        · intro hl
          rw [hpeer] at hl ⊢
          obtain ⟨j, hc⟩ := (h1.live q hl).chain
          exact ⟨⟨j, hc.push data⟩, (h1.live q hl).listed⟩
        · intro hl hi hp hz
          rw [hpeer, hht] at hl hi hp hz
          have hlen := hroom hl (by omega) (by rw [hal]) hi hp hz
          change w1.pendingFds.length < _
          rw [hfds]
          exact hlen
      generalize HyperDerp.kickSend (pushItem w1 q data) q = w2 at hk ⊢
      unfold pauseRecv
      split
      · exact hsame hk rfl rfl rfl rfl
      · exact hk

theorem flushPending {f : Fd} {fds : List Fd} (ho : w.io.sqeOracle = [])
    (h : ∀ r, (w.ht r).occupied = .live →
      Awake w (fun r => ∃ g ∈ f :: fds, validFd g = true ∧ w.fdMap g = some r) r) :
    (flushPending w f).io.sqeOracle = [] ∧ (HyperDerp.flushPending w f).fdMap = w.fdMap ∧
      (∀ r, ((HyperDerp.flushPending w f).ht r).occupied = (w.ht r).occupied) ∧
      ∀ r, (w.ht r).occupied = .live → Awake (HyperDerp.flushPending w f)
        (fun r => ∃ g ∈ fds, validFd g = true ∧ w.fdMap g = some r) r := by
  have hskip : (∀ r, ¬(validFd f = true ∧ w.fdMap f = some r)) →
      ∀ r, (w.ht r).occupied = .live →
        Awake w (fun r => ∃ g ∈ fds, validFd g = true ∧ w.fdMap g = some r) r := by
    intro hno r hr
    refine (h r hr).congr rfl (Nat.le_refl _) ?_
    intro ⟨g, hg, hv, hm⟩
    rcases List.mem_cons.mp hg with rfl | hg
    · exact absurd ⟨hv, hm⟩ (hno r)
    · exact ⟨g, hg, hv, hm⟩
  unfold HyperDerp.flushPending
  split
  · next hv => exact ⟨ho, rfl, fun _ => rfl, hskip fun r hr => by simp [hr.1] at hv⟩
  · split
    · next hnone =>
      refine ⟨ho, rfl, fun _ => rfl, hskip fun r hr => ?_⟩
      rw [hnone] at hr
      cases hr.2
    · next p hp =>
      dsimp only
      have h1 : Advances p w (w.setSend p { (w.ht p).send with pending := false }) :=
        .setSend fun h => by cases h
      have hend : ∀ w', Advances p w w' → (w'.ht p).send.pending = false →
          ((w.ht p).occupied = .live →
            (∃ j, (w'.ht p).send.Chain w'.nextItem j) ∧ (w'.ht p).send.Woken) →
          w'.io.sqeOracle = [] ∧ w'.fdMap = w.fdMap ∧
            (∀ r, (w'.ht r).occupied = (w.ht r).occupied) ∧
            ∀ r, (w.ht r).occupied = .live →
              Awake w' (fun r => ∃ g ∈ fds, validFd g = true ∧ w.fdMap g = some r) r := by
        intro w' ha hpend hw
        refine ⟨ha.oracle ho, ha.fdMap, fun r => ?_, fun r hr => ?_⟩
        · by_cases he : r = p
          · rw [he, ha.self]
          · rw [ha.other r he]
        · by_cases he : r = p
          · subst he
            refine ⟨(hw hr).1, (hw hr).2, fun hp => ?_⟩
            rw [hpend] at hp
            cases hp
          · refine (h r hr).congr (by rw [ha.other r he]) ha.nextItem ?_
            intro ⟨g, hg, hv, hm⟩
            rcases List.mem_cons.mp hg with rfl | hg
            · exact absurd (Option.some.inj (hm.symm.trans hp)) he
            · exact ⟨g, hg, hv, hm⟩
      have hfed : (w.ht p).occupied = .live →
          Fed (w.setSend p { (w.ht p).send with pending := false }) p := fun hl =>
        Fed.setSend ⟨ho, (h p hl).chain⟩ id rfl rfl rfl rfl
      split
      · next hstop =>
        apply hend _ h1
        · rw [Worker.setSend_self]
        · intro hl
          refine ⟨(hfed hl).chain, ?_⟩
          rw [Worker.setSend_self]
          intro hn _ hz
          rcases hstop with hnone | hzc
          · exact absurd (Option.isNone_iff_eq_none.mp hnone) hn
          · rw [hzc] at hz
            cases hz
      · have h2 := Advances.submitBatch kPollWriteBatch
          (w.setSend p { (w.ht p).send with pending := false }) p
        apply hend _ (h1.trans h2)
        · by_contra hp'
          have hp2 := h2.pending (by simpa using hp')
          rw [Worker.setSend_self] at hp2
          cases hp2
        · intro hl
          obtain ⟨h3, -, h4⟩ := (hfed hl).submitBatch kPollWriteBatch
          exact ⟨h3.chain, .of_inflight (h4 (by decide))⟩

/-- Every live pending peer is registered on one of the recorded descriptors. -/
def AllListed (w : Worker) : Prop :=
  ∀ r, (w.ht r).occupied = .live → (w.ht r).send.pending = true →
    ∃ f ∈ w.pendingFds, validFd f = true ∧ w.fdMap f = some r

theorem flushPendingSends (h : Wakeful w) (hall : AllListed w) : Wakeful (flushPendingSends w) := by
  have key : ∀ (fds : List Fd) (w : Worker), w.io.sqeOracle = [] →
      (∀ r, (w.ht r).occupied = .live →
        Awake w (fun r => ∃ g ∈ fds, validFd g = true ∧ w.fdMap g = some r) r) →
      (fds.foldl HyperDerp.flushPending w).io.sqeOracle = [] ∧
        ∀ r, ((fds.foldl HyperDerp.flushPending w).ht r).occupied = .live →
          Awake (fds.foldl HyperDerp.flushPending w) (fun _ => False) r := by
    intro fds
    induction fds with
    | nil =>
      intro w ho hw
      refine ⟨ho, fun r hr => (hw r hr).congr rfl (Nat.le_refl _) ?_⟩
      intro ⟨g, hg, _⟩
      cases hg
    | cons f fds ih =>
      intro w ho hw
      obtain ⟨h1, h2, h3, h4⟩ := flushPending ho hw
      apply ih _ h1
      intro r hr
      rw [h3] at hr
      rw [h2]
      exact h4 r hr
  obtain ⟨h1, h2⟩ := key w.pendingFds w h.oracle (by
    intro r hr
    exact ⟨(h.live r hr).chain, (h.live r hr).woken, hall r hr⟩)
  exact ⟨h1, fun r hr => (h2 r hr).congr rfl (Nat.le_refl _) False.elim⟩

end Wakeful

/-! ### Runs of the worker loop -/

/-- Where a queue loses its wake-up: a frame starts a queue and finds `pending_fds`
full, a flush passes over a pending peer whose descriptor is closed, or a
completion is taken for a send that the peer has not got in flight. -/
def wakeOk (ctx : Ctx) : LoopStep → Prop
  | .enqueue v q _ => Wakeful.HasRoom (ctx.workers v) q
  | .cmd v (.write key _) => ∀ p, htLookup (ctx.workers v) key = some p →
      (ctx.workers v).alloc.1 = true → Wakeful.HasRoom (ctx.workers v).alloc.2 p
  | .flush v => Wakeful.AllListed (ctx.workers v)
  | .complete v cqe => ∀ p, Completes (ctx.workers v) cqe p →
      ((ctx.workers v).ht p).occupied = .live → 0 < ((ctx.workers v).ht p).send.inflight
  | _ => True

namespace Wakeful

variable {w w' : Worker} {p : Slot}

theorem of_ht (h : Wakeful w) (hht : w'.ht = w.ht) (ho : w.io.sqeOracle = [] → w'.io.sqeOracle = [])
    (hp : w'.pendingFds = w.pendingFds) (hn : w'.nextItem = w.nextItem) : Wakeful w' := by
  apply h.same (ho h.oracle) _ _ _ hp hn
  · intro q
    rw [hht]
  · intro q hq
    rw [hht] at hq
    exact hq
  · intro q
    rw [hht]

theorem added (h : Wakeful w) {fd : Fd} {key : Key} {protocol : PeerProtocol} {peerId : ℕ}
    (hs : AddedAt w p fd key protocol peerId w') : Wakeful w' := by
  have hflow := hs.flow
  obtain ⟨isUnix, ok, ao, routes, io, rfl⟩ := hs.eq
  refine ⟨hflow.oracle h.oracle, fun q hq => ?_⟩
  by_cases he : q = p
  · subst he
    refine ⟨⟨0, ?_⟩, ?_, ?_⟩
    · simp only [Function.update_self]
      exact .empty rfl rfl rfl rfl
    · simp only [Function.update_self]
      intro hn
      exact absurd rfl hn
    · simp only [Function.update_self]
      intro hp
      cases hp
  · simp only [Function.update_of_ne he] at hq
    refine (h.live q hq).congr ?_ (Nat.le_refl _) fun hmem => ?_
    · simp only [Function.update_of_ne he]
    · simp only [Function.update_of_ne he]
      exact hmem

theorem removed (h : Wakeful w) (hs : RemovedAt w p w') : Wakeful w' := by
  have ho := hs.oracle h.oracle
  obtain ⟨pc, routes, io, rfl⟩ := hs.eq
  refine ⟨ho, fun q hq => ?_⟩
  by_cases he : q = p
  · subst he
    simp only [Function.update_self] at hq
    cases hq
  · simp only [Function.update_of_ne he] at hq
    refine (h.live q hq).congr ?_ (Nat.le_refl _) fun hmem => ?_
    · simp only [Function.update_of_ne he]
    · simp only [Function.update_of_ne he]
      exact hmem

theorem allocEnqueue (h : Wakeful w) (data : Bytes)
    (hroom : w.alloc.1 = true → HasRoom w.alloc.2 p) : Wakeful (allocEnqueue w p data) := by
  have ha : Wakeful w.alloc.2 := by
    rw [alloc_eq]
    exact h.of_ht rfl id rfl rfl
  unfold HyperDerp.allocEnqueue
  split
  · next heq =>
    rw [heq] at ha
    exact ha
  · next w1 heq =>
    rw [heq] at ha hroom
    exact ha.enqueueSend (hroom rfl) data

end Wakeful

section

variable {ctx ctx' : Ctx} {l : LoopStep}

theorem setWorker_wakeful (h : ∀ v, Wakeful (ctx.workers v)) {u : ℕ} {w' : Worker} (hw : Wakeful w')
    (v : ℕ) : Wakeful ((ctx.setWorker u w').workers v) := by
  by_cases hv : v = u
  · subst hv
    rw [Ctx.setWorker_self]
    exact hw
  · rw [Ctx.setWorker_ne ctx w' hv]
    exact h v

theorem Wakeful.setPeer {w : Worker} (h : Wakeful w) {p : Slot} {e : Peer}
    (hsend : e.send = (w.ht p).send) (hocc : e.occupied = (w.ht p).occupied)
    (hfd : e.fd = (w.ht p).fd) : Wakeful (w.setPeer p e) := by
  refine h.same h.oracle ?_ ?_ ?_ rfl rfl
  · intro q
    by_cases hq : q = p <;> simp [Worker.setPeer, hq, hsend]
  · intro q
    by_cases hq : q = p <;> simp [Worker.setPeer, hq, hocc]
  · intro q
    by_cases hq : q = p <;> simp [Worker.setPeer, hq, hfd]

theorem xferSpscPush_wakeful (h : ∀ v, Wakeful (ctx.workers v)) (u dst : ℕ) (x : Xfer) (v : ℕ) :
    Wakeful ((xferSpscPush ctx u dst x).workers v) := by
  unfold xferSpscPush
  dsimp only
  split
  · apply setWorker_wakeful h
    exact (h u).of_ht rfl id rfl rfl
  · let w' : Worker := { ctx.workers dst with
      xferInbox := Function.update (ctx.workers dst).xferInbox u
        ((ctx.workers dst).xferInbox u ++ [x])
      pendingSources := Function.update (ctx.workers dst).pendingSources u true }
    have hw' : Wakeful w' := (h dst).of_ht rfl id rfl rfl
    have h1 := setWorker_wakeful h (u := dst) hw'
    split
    · apply setWorker_wakeful h1
      exact (h1 u).of_ht rfl id rfl rfl
    · exact h1 v

section

variable (h : ∀ v, Wakeful (ctx.workers v)) (u : ℕ) (key : Key) (v : ℕ)
include h

theorem addPeer_wakeful (hT : TableOk (ctx.workers u)) (fd : Fd) (protocol : PeerProtocol)
    (peerId : ℕ) :
    Wakeful ((processCmd ctx u (.addPeer fd key protocol peerId)).1.workers v) := by
  rcases processCmdAdd_record hT fd key protocol peerId with ⟨ao, heq⟩ | ⟨p, -, -, hadd, hothers⟩
  · simp only [processCmd, heq]
    apply setWorker_wakeful h
    exact (h u).of_ht rfl id rfl rfl
  · by_cases hv : v = u
    · subst hv
      exact (h v).added hadd
    · obtain ⟨routes, hr⟩ := hothers v hv
      simp only [processCmd, hr]
      exact (h v).of_ht rfl id rfl rfl

theorem removePeer_wakeful : Wakeful ((processCmd ctx u (.removePeer key)).1.workers v) := by
  cases hp : htLookup (ctx.workers u) key with
  | none =>
    simp only [processCmd, processCmdRemove_none hp]
    exact h v
  | some p =>
    obtain ⟨hrem, -, hothers⟩ := processCmdRemove_record hp
    by_cases hv : v = u
    · subst hv
      exact (h v).removed hrem
    · obtain ⟨routes, hr⟩ := hothers v hv
      simp only [processCmd, hr]
      exact (h v).of_ht rfl id rfl rfl

theorem setFwdRule_wakeful (dstKey : Key) :
    Wakeful ((processCmd ctx u (.setFwdRule key dstKey)).1.workers v) := by
  simp only [processCmd, HyperDerp.setFwdRule]
  split
  · exact h v
  · next p _ =>
    split
    · exact h v
    · obtain ⟨a, b, c, d, e, heq⟩ := addRule_same (ctx.workers u) p dstKey
      rw [heq]
      apply setWorker_wakeful h
      exact (h u).setPeer rfl rfl rfl

theorem movePeerOut_wakeful : Wakeful ((processCmd ctx u (.movePeerOut key)).1.workers v) := by
  cases hp : htLookup (ctx.workers u) key with
  | none =>
    simp only [processCmd, HyperDerp.movePeerOut, hp]
    exact h v
  | some p =>
    obtain ⟨hrem, hothers⟩ := movePeerOut_record hp
    by_cases hv : v = u
    · subst hv
      exact (h v).removed hrem
    · simp only [processCmd, hothers v hv]
      exact h v

end

theorem processCmd_wakeful (hT : ∀ v, TableOk (ctx.workers v)) (h : ∀ v, Wakeful (ctx.workers v))
    {u : ℕ} {c : Cmd} (hok : wakeOk ctx (.cmd u c)) (v : ℕ) :
    Wakeful ((processCmd ctx u c).1.workers v) := by
  cases c with
  | addPeer fd key protocol peerId => exact addPeer_wakeful h u key v (hT u) fd protocol peerId
  | removePeer key => exact removePeer_wakeful h u key v
  | write key data =>
    simp only [processCmd, processCmdWrite]
    split
    · exact h v
    · next p hp => exact setWorker_wakeful h ((h u).allocEnqueue data (hok p hp)) v
  | setFwdRule key dstKey => exact setFwdRule_wakeful h u key v dstKey
  | movePeerOut key => exact movePeerOut_wakeful h u key v
  | stop =>
    apply setWorker_wakeful h
    exact (h u).of_ht rfl id rfl rfl

theorem loopStep_wakeful (hT : ∀ v, TableOk (ctx.workers v)) (h : ∀ v, Wakeful (ctx.workers v))
    (hok : wakeOk ctx l) (hs : loopStep ctx l = some ctx') (v : ℕ) :
    Wakeful (ctx'.workers v) := by
  cases l with
  | enqueue u q data =>
    cases hs
    exact setWorker_wakeful h ((h u).enqueueSend hok data) v
  | push u dst x =>
    cases hs
    exact xferSpscPush_wakeful h u dst x v
  | take u src =>
    cases hs
    apply setWorker_wakeful h
    exact (h u).of_ht rfl id rfl rfl
  | collect u =>
    cases hs
    apply setWorker_wakeful h
    exact (h u).of_ht rfl id rfl rfl
  | rules u p a b c d =>
    cases hs
    apply setWorker_wakeful h
    exact (h u).setPeer rfl rfl rfl
  | account u a b c =>
    cases hs
    apply setWorker_wakeful h
    exact (h u).of_ht rfl id rfl rfl
  | complete u cqe =>
    cases hs
    exact setWorker_wakeful h ((h u).handleSendCqe hok) v
  | pollWrite u fd =>
    cases hs
    exact setWorker_wakeful h ((h u).handlePollWrite fd) v
  | flush u =>
    cases hs
    exact setWorker_wakeful h ((h u).flushPendingSends hok) v
  | cmd u c =>
    cases hs
    exact processCmd_wakeful hT h hok v
  | eof u fd =>
    simp only [loopStep] at hs
    split at hs
    · cases hs
    · cases hs
      apply setWorker_wakeful h
      exact (h u).of_ht rfl id rfl rfl
  | receive u q rbuf window start inflight multishot =>
    cases hs
    apply setWorker_wakeful h
    have hpeer : Wakeful ((ctx.workers u).setPeer q { (ctx.workers u).ht q with
        rbuf := rbuf, recvBytesWindow := window, windowStartNs := start }) :=
      (h u).setPeer rfl rfl rfl
    exact hpeer.of_ht rfl id rfl rfl
  | rearm u fd =>
    cases hs
    have hflow := Io.SameFlow.submitRecv (ctx.workers u) fd
    obtain ⟨io, hio⟩ := submitRecv_io (ctx.workers u) fd
    simp only [Ctx.onWorker, hio] at hflow ⊢
    apply setWorker_wakeful h
    exact (h u).of_ht rfl hflow.oracle rfl rfl
  | deferred u =>
    cases hs
    have hflow := Io.SameFlow.drainDeferredRecvs (ctx.workers u)
    obtain ⟨io, hio⟩ := drainDeferredRecvs_io (ctx.workers u)
    simp only [Ctx.onWorker, hio] at hflow ⊢
    apply setWorker_wakeful h
    exact (h u).of_ht rfl hflow.oracle rfl rfl

end

/-- Along every run whose steps stay clear of these, a live peer that waits with
nothing in flight is recorded in `pending_fds` or has its poll armed, and a
pending one is recorded. Entries are granted from the start (`dpInit`). -/
theorem queues_have_a_wakeup {ctx : Ctx} (h : Runs.Reach dpInit loopStep wakeOk ctx) (v : ℕ)
    (p : Slot) (hl : ((ctx.workers v).ht p).occupied = .live) :
    (((ctx.workers v).ht p).send.pending = true →
      ((ctx.workers v).ht p).fd ∈ (ctx.workers v).pendingFds) ∧
    (((ctx.workers v).ht p).send.next ≠ none → ((ctx.workers v).ht p).send.inflight = 0 →
      ((ctx.workers v).ht p).send.zcDraining = false →
      ((ctx.workers v).ht p).fd ∈ (ctx.workers v).pendingFds ∨
        ((ctx.workers v).ht p).send.pollWritePending = true) := by
  have hinv : ∀ v, TableOk (ctx.workers v) ∧ Wakeful (ctx.workers v) := by
    apply h.invariant (P := fun ctx => ∀ v, TableOk (ctx.workers v) ∧ Wakeful (ctx.workers v))
    · intro ctx h0 v
      rw [h0 v]
      exact ⟨tableOk_empty, .init⟩
    · intro ctx ctx' l hi hok hs v
      have hT : ∀ v, TableOk (ctx.workers v) := fun v => (hi v).1
      exact ⟨loopStep_tableOk hT hs v, loopStep_wakeful hT (fun v => (hi v).2) hok hs v⟩
  have ha := (hinv v).2.live p hl
  refine ⟨ha.listed, fun hn hi hz => ?_⟩
  rcases ha.woken hn hi hz with hp | hp
  · exact .inl (ha.listed hp)
  · exact .inr hp

/-- A frame queued on a fresh peer waits for the flush. -/
theorem first_frame_is_listed :
    ∃ ctx, Runs.run loopStep twoWorkers [.cmd 0 (.addPeer 3 zeroKey .kDerp 0),
        .enqueue 0 (homeSlot zeroKey) [7]] = some ctx ∧
      Runs.Reach dpInit loopStep wakeOk ctx ∧
      ((ctx.workers 0).ht (homeSlot zeroKey)).send.next ≠ none ∧
      ((ctx.workers 0).ht (homeSlot zeroKey)).fd ∈ (ctx.workers 0).pendingFds := by
  have hrun : (Runs.run loopStep twoWorkers [.cmd 0 (.addPeer 3 zeroKey .kDerp 0),
      .enqueue 0 (homeSlot zeroKey) [7]]).map (fun ctx =>
        (((ctx.workers 0).ht (homeSlot zeroKey)).occupied,
          ((ctx.workers 0).ht (homeSlot zeroKey)).send.pending,
          ((ctx.workers 0).ht (homeSlot zeroKey)).send.next)) =
      some (.live, true, some 0) := by
    decide
  obtain ⟨ctx, hctx, heq⟩ := Option.map_eq_some_iff.mp hrun
  obtain ⟨hlive, hpend, hnext⟩ : _ ∧ _ ∧ _ := by simpa only [Prod.mk.injEq] using heq
  have hreach : Runs.Reach dpInit loopStep wakeOk ctx := by
    refine Runs.reach_run (.start twoWorkers twoWorkers_init) ?_ hctx
    refine ⟨trivial, fun c1 h1 => ⟨fun _ _ _ _ _ _ => ?_, fun _ _ => trivial⟩⟩
    cases h1
    decide
  refine ⟨ctx, hctx, hreach, by rw [hnext]; exact Option.some_ne_none 0, ?_⟩
  exact (queues_have_a_wakeup hreach 0 _ hlive).1 hpend

/-! ### More queues than `pending_fds` can record -/

theorem alloc_of_oracle {w : Worker} (h : w.allocOracle = []) : w.alloc = (true, w) := by
  simp only [Worker.alloc, h]

theorem htInsert_oracle {w : Worker} (h : w.allocOracle = []) (fd : Fd) (key : Key) :
    (htInsert w fd key).2.allocOracle = [] := by
  unfold htInsert
  cases htFind w key with
  | none => exact h
  | some p =>
    simp only [alloc_of_oracle h, ite_self]
    exact h

theorem processCmdAdd_oracle {ctx : Ctx} {v : ℕ} (h : (ctx.workers v).allocOracle = []) (fd : Fd)
    (key : Key) (protocol : PeerProtocol) (peerId : ℕ) :
    ((processCmdAdd ctx v fd key protocol peerId).workers v).allocOracle = [] := by
  have hins := htInsert_oracle h fd key
  cases hv : validFd fd with
  | false =>
    rw [processCmdAdd_invalid hv]
    exact h
  | true =>
    cases hp : htLookup (htInsert (ctx.workers v) fd key).2 key with
    | none =>
      rw [processCmdAdd_unregistered hv hp, Ctx.setWorker_self]
      exact hins
    | some p =>
      obtain ⟨io, hio⟩ := processCmdAdd_workers protocol peerId hv hp v
      rw [hio, if_pos rfl]
      unfold registerPeer setPeerId
      dsimp only [-Nat.reducePow]
      split
      · split
        · exact hins
        · simp only [Worker.alloc, hins, Worker.setPeer]
      · exact hins

def pairKey (n : ℕ) : Key :=
  ⟨UInt8.ofNat (n / 256) :: UInt8.ofNat n :: List.replicate 30 0, by simp [kKeySize]⟩

theorem pairKey_inj {i j : ℕ} (hi : i < 65536) (hj : j < 65536) (h : pairKey i = pairKey j) :
    i = j := by
  have hdata := congrArg Key.data h
  simp only [pairKey, List.cons.injEq, and_true] at hdata
  have h1 := congrArg UInt8.toNat hdata.1
  have h2 := congrArg UInt8.toNat hdata.2
  simp only [UInt8.toNat_ofNat'] at h1 h2
  omega

/-- After the first `n` peers have been added and written to. -/
structure Crowd (n : ℕ) (w : Worker) : Prop extends TableOk w where
  oracle : w.allocOracle = []
  length : w.pendingFds.length = n
  fds : ∀ f ∈ w.pendingFds, ∃ i < n, f = 3 + (i : ℤ)
  keys : ∀ q, (w.ht q).occupied = .live → ∃ j < n, (w.ht q).key = pairKey j
  count : LinearProbe.liveCount peerView w.ht ≤ n

namespace Crowd

variable {n : ℕ}

theorem init : Crowd 0 {} where
  toTableOk := tableOk_empty
  oracle := rfl
  length := rfl
  fds _ h := by cases h
  keys _ h := by cases h
  count := by
    have hnone : (Finset.univ.filter fun q => peerView.occ (({} : Worker).ht q) = .live) = ∅ :=
      Finset.filter_eq_empty_iff.mpr fun _ _ => LinearProbe.Occ.noConfusion
    rw [LinearProbe.liveCount, hnone]
    rfl

theorem canHold {w : Worker} (h : Crowd n w) (hn : n < kHtCapacity) (key : Key) :
    CanHold w key := by
  cases hf : htFind w key with
  | some p => exact ⟨p, hf, .inr (by rw [alloc_of_oracle h.oracle])⟩
  | none =>
    have hall := (LinearProbe.find_none peerView keyHash hf).1
    have hfull : (Finset.univ.filter fun q => peerView.occ (w.ht q) = .live) = Finset.univ :=
      Finset.filter_true_of_mem fun q _ => hall q
    have hcount := h.count
    rw [LinearProbe.liveCount, hfull, Finset.card_univ, Fintype.card_fin] at hcount
    omega

end Crowd

structure Newcomer (n : ℕ) (w : Worker) (p : Slot) : Prop extends TableOk w where
  oracle : w.allocOracle = []
  length : w.pendingFds.length = n
  fds : ∀ f ∈ w.pendingFds, ∃ i < n, f = 3 + (i : ℤ)
  keys : ∀ q, (w.ht q).occupied = .live → ∃ j < n + 1, (w.ht q).key = pairKey j
  count : LinearProbe.liveCount peerView w.ht ≤ n + 1
  holds : (w.ht p).occupied = .live ∧ (w.ht p).key = pairKey n
  fd : (w.ht p).fd = 3 + n
  send : ∃ noZc, (w.ht p).send = { noZc := noZc }

theorem Crowd.add {n : ℕ} {ctx ctx' : Ctx} (h : Crowd n (ctx.workers 0)) (hn : n ≤ kMaxCqeBatch)
    (hT : ∀ v, TableOk (ctx.workers v))
    (hs : loopStep ctx (.cmd 0 (.addPeer (3 + n) (pairKey n) .kDerp 0)) = some ctx') :
    ∃ p, Newcomer n (ctx'.workers 0) p := by
  have hT' := loopStep_tableOk hT hs 0
  simp only [loopStep, processCmd, Option.some.injEq] at hs
  subst hs
  unfold kMaxCqeBatch at hn
  have hv : validFd (3 + n) = true := by
    have hlt : (0 : ℤ) ≤ 3 + n ∧ (3 + n : ℤ) < 65536 := by omega
    exact decide_eq_true hlt
  have ho := processCmdAdd_oracle h.oracle (3 + n) (pairKey n) .kDerp 0
  have hcap : n < kHtCapacity := by
    unfold kHtCapacity
    omega
  rcases processCmdAdd_effect h.toTableOk hv (pairKey n) .kDerp 0 with ⟨hno, -⟩ | ⟨-, p, hf, hadd⟩
  · exact absurd (h.canHold hcap _) hno
  · have hdead : ((ctx.workers 0).ht p).occupied ≠ .live := by
      rcases LinearProbe.find_some peerView keyHash hf with hp | ⟨hdead, -⟩
      · obtain ⟨j, hj, hkey⟩ := h.keys p hp.1
        have hnj := pairKey_inj (by omega) (by omega) (hp.2.symm.trans hkey)
        omega
      · exact hdead
    obtain ⟨isUnix, ok, ao, routes, io, heq⟩ := hadd.eq
    generalize (processCmdAdd ctx 0 (3 + n) (pairKey n) .kDerp 0).workers 0 = w' at hT' ho heq ⊢
    have hht : w'.ht = Function.update (ctx.workers 0).ht p
        (addedPeer ((ctx.workers 0).ht p) (3 + n) (pairKey n) .kDerp 0 isUnix) := by rw [heq]
    have hfds : w'.pendingFds = (ctx.workers 0).pendingFds := by rw [heq]
    have hself : w'.ht p =
        addedPeer ((ctx.workers 0).ht p) (3 + n) (pairKey n) .kDerp 0 isUnix := by
      rw [hht, Function.update_self]
    refine ⟨p, hT', ho, by rw [hfds]; exact h.length, by rw [hfds]; exact h.fds,
      fun q hq => ?_, ?_, ?_, ?_, ?_⟩
    · by_cases he : q = p
      · exact ⟨n, Nat.lt_succ_self n, by rw [he, hself]; rfl⟩
      · rw [hht, Function.update_of_ne he] at hq ⊢
        obtain ⟨j, hj, hkey⟩ := h.keys q hq
        exact ⟨j, by omega, hkey⟩
    · have hcount := LinearProbe.liveCount_update_live peerView (t := (ctx.workers 0).ht) (a := p)
        (e := addedPeer ((ctx.workers 0).ht p) (3 + n) (pairKey n) .kDerp 0 isUnix) rfl
      rw [if_neg (show peerView.occ ((ctx.workers 0).ht p) ≠ .live from hdead)] at hcount
      have hle := h.count
      rw [hht]
      omega
    · rw [hself]
      exact ⟨rfl, rfl⟩
    · rw [hself]
      rfl
    · rw [hself]
      exact ⟨isUnix, rfl⟩

theorem enqueueSend_first {w : Worker} {p : Slot} (ho : w.allocOracle = []) {noZc : Bool}
    (hs : (w.ht p).send = { noZc := noZc }) (data : Bytes) :
    ∃ s, s.pending = true ∧ (enqueueSend w p data).ht = (w.setSend p s).ht ∧
      (enqueueSend w p data).allocOracle = [] ∧ (enqueueSend w p data).pendingFds =
        if w.pendingFds.length < kMaxCqeBatch then w.pendingFds ++ [(w.ht p).fd]
        else w.pendingFds := by
  have hfull : ¬kMaxSendQueueDepth ≤ (w.ht p).send.queued := by
    rw [hs]
    unfold kMaxSendQueueDepth
    simp
  have hpush : ((pushItem w p data).ht p).send = (w.ht p).send.push ⟨w.nextItem, data⟩ :=
    Worker.setSend_self w p _
  have hidle : ((pushItem w p data).ht p).send.inflight = 0 ∧
      ((pushItem w p data).ht p).send.pending = false ∧
      ((pushItem w p data).ht p).send.zcDraining = false := by
    rw [hpush, hs]
    exact ⟨rfl, rfl, rfl⟩
  have hpause : ∀ w : Worker, ∃ io stats, pauseRecv w = { w with io := io, stats := stats } := by
    intro w
    unfold pauseRecv
    split
    · exact ⟨_, _, rfl⟩
    · exact ⟨w.io, w.stats, rfl⟩
  have heq : enqueueSend w p data = pauseRecv (kickSend (pushItem w p data) p) := by
    unfold enqueueSend
    rw [if_neg hfull, alloc_of_oracle ho]
  obtain ⟨io, stats, hp⟩ := hpause (kickSend (pushItem w p data) p)
  rw [heq, hp]
  refine ⟨{ ((pushItem w p data).ht p).send with pending := true }, rfl, ?_, ?_, ?_⟩
  · unfold kickSend
    simp only [hidle, and_self, ite_true]
    split <;> simp [pushItem, Worker.setSend, Worker.setPeer]
  · unfold kickSend
    simp only [hidle, and_self, ite_true]
    split <;> exact ho
  · unfold kickSend
    simp only [hidle, and_self, ite_true]
    by_cases hroom : w.pendingFds.length < kMaxCqeBatch
    · rw [if_pos hroom, if_pos (by exact hroom)]
      simp [pushItem, Worker.setSend, Worker.setPeer]
    · rw [if_neg hroom, if_neg (by exact hroom)]
      rfl

theorem Newcomer.write {n : ℕ} {w : Worker} {p : Slot} (h : Newcomer n w p) (hn : n < kMaxCqeBatch)
    (data : Bytes) : Crowd (n + 1) (allocEnqueue w p data) := by
  obtain ⟨noZc, hs⟩ := h.send
  obtain ⟨s, -, hht, ho, hfds⟩ := enqueueSend_first h.oracle hs data
  have hw : allocEnqueue w p data = enqueueSend w p data := by
    simp only [allocEnqueue, alloc_of_oracle h.oracle]
  rw [h.length, if_pos hn, h.fd] at hfds
  have hocc : ∀ q, ((enqueueSend w p data).ht q).occupied = (w.ht q).occupied := by
    intro q
    rw [hht]
    by_cases hq : q = p <;> simp [Worker.setSend, Worker.setPeer, hq]
  have hkey : ∀ q, ((enqueueSend w p data).ht q).key = (w.ht q).key := by
    intro q
    rw [hht]
    by_cases hq : q = p <;> simp [Worker.setSend, Worker.setPeer, hq]
  have hlen := h.length
  rw [hw]
  constructor
  case toTableOk =>
    apply h.toTableOk.congr hocc hkey
    intro q
    rw [hht]
    by_cases hq : q = p <;> simp [Worker.setSend, Worker.setPeer, hq]
  case oracle => exact ho
  case length =>
    rw [hfds, List.length_append, List.length_singleton, hlen]
  case fds =>
    intro f hf
    rw [hfds] at hf
    rcases List.mem_append.mp hf with hf | hf
    · obtain ⟨i, hi, hfi⟩ := h.fds f hf
      exact ⟨i, by omega, hfi⟩
    · exact ⟨n, Nat.lt_succ_self n, List.mem_singleton.mp hf⟩
  case keys =>
    intro q hq
    rw [hocc] at hq
    rw [hkey]
    exact h.keys q hq
  case count =>
    rw [LinearProbe.liveCount_congr peerView hocc]
    exact h.count

def crowd (n : ℕ) : List LoopStep :=
  (List.range n).flatMap fun i : ℕ =>
    [.cmd 0 (.addPeer (3 + (i : ℤ)) (pairKey i) .kDerp 0), .cmd 0 (.write (pairKey i) [7])]

theorem newcomer_write_step {n : ℕ} {ctx : Ctx} {p : Slot} (h : Newcomer n (ctx.workers 0) p) :
    loopStep ctx (.cmd 0 (.write (pairKey n) [7])) =
      some (ctx.onWorker 0 fun w => allocEnqueue w p [7]) := by
  have hp : htLookup (ctx.workers 0) (pairKey n) = some p := h.toTableOk.lookup_iff.mpr h.holds
  simp only [loopStep, processCmd, processCmdWrite, hp]

theorem crowd_reach {n : ℕ} (hn : n ≤ kMaxCqeBatch) :
    ∃ ctx, Runs.run loopStep twoWorkers (crowd n) = some ctx ∧ (∀ v, TableOk (ctx.workers v)) ∧
      Crowd n (ctx.workers 0) := by
  induction n with
  | zero => exact ⟨twoWorkers, rfl, fun _ => tableOk_empty, .init⟩
  | succ n ih =>
    obtain ⟨ctx, hrun, hT, hc⟩ := ih (by omega)
    obtain ⟨ctx1, h1⟩ : ∃ ctx1, loopStep ctx (.cmd 0 (.addPeer (3 + (n : ℤ)) (pairKey n) .kDerp 0)) =
      some ctx1 := ⟨_, rfl⟩
    obtain ⟨p, hnew⟩ := hc.add (by omega) hT h1
    have h2 := newcomer_write_step hnew
    refine ⟨ctx1.onWorker 0 fun w => allocEnqueue w p [7], ?_, ?_, ?_⟩
    · rw [crowd, List.range_succ, List.flatMap_append, Runs.run_append]
      rw [crowd] at hrun
      rw [hrun]
      simp only [List.flatMap_cons, List.flatMap_nil, List.append_nil, Option.bind_some, Runs.run,
        h1, h2]
    · exact loopStep_tableOk (loopStep_tableOk hT h1) h2
    · rw [Ctx.onWorker, Ctx.setWorker_self]
      exact hnew.write (by omega) [7]

/-- The 257th peer that starts a queue is marked pending and not recorded. -/
theorem full_list_orphans_queue :
    ¬∀ ctx, Runs.Reach dpInit loopStep Runs.Any ctx → ∀ v p,
      ((ctx.workers v).ht p).occupied = .live →
      (((ctx.workers v).ht p).send.pending = true →
        ((ctx.workers v).ht p).fd ∈ (ctx.workers v).pendingFds) ∧
      (((ctx.workers v).ht p).send.next ≠ none → ((ctx.workers v).ht p).send.inflight = 0 →
        ((ctx.workers v).ht p).send.zcDraining = false →
        ((ctx.workers v).ht p).fd ∈ (ctx.workers v).pendingFds ∨
          ((ctx.workers v).ht p).send.pollWritePending = true) := by
  intro hall
  obtain ⟨ctx, hrun, hT, hc⟩ := crowd_reach (Nat.le_refl kMaxCqeBatch)
  have hr := Runs.reach_of_run twoWorkers_init hrun
  obtain ⟨ctx1, h1⟩ : ∃ ctx1, loopStep ctx
      (.cmd 0 (.addPeer (3 + (kMaxCqeBatch : ℤ)) (pairKey kMaxCqeBatch) .kDerp 0)) =
    some ctx1 := ⟨_, rfl⟩
  obtain ⟨p, hnew⟩ := hc.add (Nat.le_refl _) hT h1
  have h2 := newcomer_write_step hnew
  have hr2 := Runs.Reach.next _ _ _ (Runs.Reach.next _ _ _ hr trivial h1) trivial h2
  obtain ⟨noZc, hs⟩ := hnew.send
  obtain ⟨s, hp, hht, -, hfds⟩ := enqueueSend_first hnew.oracle hs [7]
  have hw : allocEnqueue (ctx1.workers 0) p [7] = enqueueSend (ctx1.workers 0) p [7] := by
    simp only [allocEnqueue, alloc_of_oracle hnew.oracle]
  rw [hnew.length, if_neg (Nat.lt_irrefl _)] at hfds
  have hpeer : (enqueueSend (ctx1.workers 0) p [7]).ht p = { (ctx1.workers 0).ht p with send := s } := by
    rw [hht]
    simp [Worker.setSend]
  have hmem := hall _ hr2 0 p
  simp only [Ctx.onWorker, Ctx.setWorker_self, hw, hfds, hpeer] at hmem
  obtain ⟨i, hi, hfi⟩ := hnew.fds _ ((hmem hnew.holds.1).1 hp)
  rw [hnew.fd] at hfi
  have hfi' : (3 + (kMaxCqeBatch : ℤ)) = 3 + (i : ℤ) := hfi
  omega

end HyperDerp
