import HyperDerp.DataPlane.FramingFaults
import HyperDerp.DataPlane.Loop

/-!
# Outstanding receives (`data_plane.cc:770-835`, `:1699-1808`, `:2040-2122`)

A registered fd waits for data through a receive that the kernel has not ended or through an
entry in the deferred ring, and through one of them only. This module follows both through
every step of the worker loop.
-/

namespace HyperDerp

/-! ### Counting receives -/

def Io.recvs (io : Io) : List Fd :=
  io.sqes.filterMap fun
    | .recv f _ => some f
    | _ => none

/-- Receives of `fd` in the kernel and in the deferred ring. -/
def Io.awaiting (io : Io) (fd : Fd) : ℕ := io.recvs.count fd + io.recvDefer.count fd

/-- `SubmitRecv` arms a receive at once, or the ring has room for the entry. -/
def ArmsOrDefers (w : Worker) : Prop :=
  w.io.recvDefer.length + 1 ≠ kRecvDeferSize ∨
    w.io.recvInflight < kRecvBudget ∧ w.io.recvPaused = false ∧ (getSqe w.io).1 = true

instance (w : Worker) : Decidable (ArmsOrDefers w) := inferInstanceAs (Decidable (_ ∨ _))

def Worker.Roomy (w : Worker) : Prop :=
  w.io.useProvidedBufs = false →
    ∀ fd p, w.fdMap fd = some p → (w.ht p).rbuf.length < kReadBufSize

structure Io.SameRecv (io io' : Io) : Prop where
  recvs : io'.recvs = io.recvs
  defer : io'.recvDefer = io.recvDefer
  provided : io'.useProvidedBufs = io.useProvidedBufs

namespace Io.SameRecv

variable {io io' io'' : Io}

theorem refl (io : Io) : io.SameRecv io := ⟨rfl, rfl, rfl⟩

theorem trans (h1 : io.SameRecv io') (h2 : io'.SameRecv io'') : io.SameRecv io'' :=
  ⟨h2.recvs.trans h1.recvs, h2.defer.trans h1.defer, h2.provided.trans h1.provided⟩

theorem awaiting (h : io.SameRecv io') (fd : Fd) : io'.awaiting fd = io.awaiting fd := by
  unfold Io.awaiting
  rw [h.recvs, h.defer]

theorem getSqe (io : Io) : io.SameRecv (getSqe io).2 := by
  obtain ⟨o, n, h⟩ := getSqe_eq io
  rw [h]
  exact ⟨rfl, rfl, rfl⟩

theorem prepSqe (io : Io) (sqe : Sqe) (hs : ∀ f space, sqe ≠ .recv f space) :
    io.SameRecv (prepSqe io sqe).2 := by
  have h := getSqe io
  unfold HyperDerp.prepSqe
  split
  · next io1 heq =>
    rw [heq] at h
    refine h.trans ⟨?_, rfl, rfl⟩
    unfold Io.recvs
    rw [List.filterMap_append]
    cases sqe with
    | recv f space => exact absurd rfl (hs f space)
    | _ => exact List.append_nil _
  · next heq => rwa [heq] at h

theorem submitPeerSend (w : Worker) (p : Slot) (item : SendItem) (more : Bool) :
    w.io.SameRecv (submitPeerSend w p item more).2.io := by
  unfold HyperDerp.submitPeerSend submitSend
  dsimp only
  split <;> exact prepSqe _ _ fun _ _ => Sqe.noConfusion

theorem submitNext (w : Worker) (p : Slot) : w.io.SameRecv (submitNext w p).2.io := by
  unfold HyperDerp.submitNext
  dsimp only
  split
  · exact refl _
  · next id _ =>
    split
    · exact refl _
    · next item _ =>
      have hio := submitPeerSend w p item (nodeNext (w.ht p).send.queue id).isSome
      split
      · next heq => rwa [heq] at hio
      · next heq => rwa [heq] at hio

theorem submitBatch (n : ℕ) (w : Worker) (p : Slot) :
    w.io.SameRecv (submitBatch n w p).io := by
  induction n generalizing w with
  | zero => exact refl _
  | succ n ih =>
    have hs := submitNext w p
    simp only [HyperDerp.submitBatch]
    split
    · split
      · next heq =>
        rw [heq] at hs
        exact hs.trans (ih _)
      · next heq => rwa [heq] at hs
    · exact refl _

theorem kickSend (w : Worker) (p : Slot) : w.io.SameRecv (kickSend w p).io := by
  unfold HyperDerp.kickSend
  dsimp only
  split
  · split <;> exact refl _
  · split
    · exact submitNext w p
    · exact refl _

theorem pauseRecv (w : Worker) : w.io.SameRecv (pauseRecv w).io := by
  unfold HyperDerp.pauseRecv
  split
  · exact ⟨rfl, rfl, rfl⟩
  · exact refl _

theorem enqueueSend (w : Worker) (p : Slot) (data : Bytes) :
    w.io.SameRecv (enqueueSend w p data).io := by
  have ha := alloc_io w
  unfold HyperDerp.enqueueSend
  split
  · exact refl _
  · split
    · next heq =>
      rw [heq] at ha
      rw [← ha]
      exact refl _
    · next w1 heq =>
      rw [heq] at ha
      rw [← ha]
      exact (kickSend (pushItem w1 p data) p).trans (pauseRecv _)

end Io.SameRecv

theorem Io.awaiting_arm {io io' : Io} (h : io.SameRecv io') (fd : Fd) (space : Option ℕ) (n : ℤ)
    (f : Fd) :
    ({ io' with sqes := io'.sqes ++ [.recv fd space], recvInflight := n } : Io).awaiting f =
      io.awaiting f + if f = fd then 1 else 0 := by
  have hr : ({ io' with sqes := io'.sqes ++ [.recv fd space], recvInflight := n } : Io).recvs =
      io.recvs ++ [fd] := by
    rw [← h.recvs]
    exact List.filterMap_append
  unfold Io.awaiting
  rw [hr, List.count_append, List.count_singleton, h.defer]
  simp only [beq_iff_eq, eq_comm (a := fd)]
  omega

theorem deferRecv_awaiting {io : Io} (h : io.recvDefer.length + 1 ≠ kRecvDeferSize) (fd f : Fd) :
    (deferRecv io fd).awaiting f = io.awaiting f + if f = fd then 1 else 0 := by
  unfold deferRecv
  rw [if_neg h]
  unfold Io.awaiting Io.recvs
  simp only [List.count_append, List.count_singleton, beq_iff_eq, eq_comm (a := fd)]
  omega

theorem deferRecv_length (io : Io) (fd : Fd) :
    (deferRecv io fd).recvDefer.length ≤ io.recvDefer.length + 1 ∧
      (io.recvDefer.length + 1 ≤ kRecvDeferSize →
        (deferRecv io fd).recvDefer.length + 1 ≤ kRecvDeferSize) := by
  unfold deferRecv
  split
  · omega
  · simp only [List.length_append, List.length_singleton]
    omega

theorem submitRecvNow_ring (w : Worker) (fd : Fd) :
    (submitRecvNow w fd).io.useProvidedBufs = w.io.useProvidedBufs ∧
      (submitRecvNow w fd).io.recvDefer.length ≤ w.io.recvDefer.length + 1 ∧
      (w.io.recvDefer.length + 1 ≤ kRecvDeferSize →
        (submitRecvNow w fd).io.recvDefer.length + 1 ≤ kRecvDeferSize) := by
  have h := Io.SameRecv.getSqe w.io
  unfold submitRecvNow
  dsimp only
  split
  · exact ⟨rfl, Nat.le_succ _, id⟩
  split
  · exact ⟨rfl, Nat.le_succ _, id⟩
  split
  · next io1 heq =>
    rw [heq] at h
    have hlen := deferRecv_length io1 fd
    rw [h.defer] at hlen
    refine ⟨?_, hlen⟩
    unfold deferRecv
    split <;> exact h.provided
  · next io1 heq =>
    rw [heq] at h
    have hle : io1.recvDefer.length ≤ w.io.recvDefer.length + 1 := by
      rw [h.defer]
      omega
    have hkeep : w.io.recvDefer.length + 1 ≤ kRecvDeferSize →
        io1.recvDefer.length + 1 ≤ kRecvDeferSize := by
      rw [h.defer]
      exact id
    split
    · exact ⟨h.provided, hle, hkeep⟩
    · split <;> exact ⟨h.provided, hle, hkeep⟩

variable {w : Worker}

theorem submitRecvNow_awaiting {fd : Fd} (hv : validFd fd = true) (hm : w.fdMap fd ≠ none)
    (hroom : w.Roomy) (hring : w.io.recvDefer.length + 1 ≠ kRecvDeferSize ∨ (getSqe w.io).1 = true)
    (f : Fd) :
    (submitRecvNow w fd).io.awaiting f = w.io.awaiting f + if f = fd then 1 else 0 := by
  have h := Io.SameRecv.getSqe w.io
  obtain ⟨p, hp⟩ := Option.ne_none_iff_exists'.mp hm
  unfold submitRecvNow
  rw [hv, hp]
  simp only [Bool.not_true, Bool.false_eq_true, if_false]
  split
  · next io1 heq =>
    rw [heq] at h hring
    have hlen : io1.recvDefer.length + 1 ≠ kRecvDeferSize := by
      rw [h.defer]
      exact hring.resolve_right Bool.noConfusion
    rw [deferRecv_awaiting hlen, h.awaiting]
  · next io1 heq =>
    rw [heq] at h
    split
    · exact Io.awaiting_arm h ..
    · next hprov =>
      have hlt := hroom (by rw [← h.provided]; exact Bool.not_eq_true _ ▸ hprov) fd p hp
      rw [if_neg (by omega)]
      exact Io.awaiting_arm h ..

theorem submitRecv_awaiting {fd : Fd} (hv : validFd fd = true) (hm : w.fdMap fd ≠ none)
    (hroom : w.Roomy) (hok : ArmsOrDefers w) (f : Fd) :
    (submitRecv w fd).io.awaiting f = w.io.awaiting f + if f = fd then 1 else 0 := by
  have hsome : (w.fdMap fd).isNone = false := by
    rwa [← Bool.not_eq_true, Option.isNone_iff_eq_none]
  unfold submitRecv
  rw [hv, hsome]
  simp only [Bool.not_true, Bool.or_self, Bool.false_eq_true, if_false]
  split
  · next hbusy =>
    simp only [Bool.or_eq_true, decide_eq_true_eq] at hbusy
    apply deferRecv_awaiting
    rcases hok with hlen | ⟨hlt, hp, -⟩
    · exact hlen
    · rw [hp] at hbusy
      have := hbusy.resolve_right Bool.noConfusion
      omega
  · exact submitRecvNow_awaiting hv hm hroom (hok.imp id fun h => h.2.2) f

theorem submitRecv_ring (w : Worker) (fd : Fd) :
    (submitRecv w fd).io.useProvidedBufs = w.io.useProvidedBufs ∧
      (w.io.recvDefer.length + 1 ≤ kRecvDeferSize →
        (submitRecv w fd).io.recvDefer.length + 1 ≤ kRecvDeferSize) := by
  unfold submitRecv
  split
  · exact ⟨rfl, id⟩
  split
  · refine ⟨?_, (deferRecv_length w.io fd).2⟩
    unfold deferRecv
    split <;> rfl
  · exact ⟨(submitRecvNow_ring w fd).1, (submitRecvNow_ring w fd).2.2⟩

theorem submitRecv_unregistered {fd : Fd} (h : (if validFd fd then w.fdMap fd else none) = none) :
    submitRecv w fd = w := by
  unfold submitRecv
  cases hv : validFd fd with
  | false => rfl
  | true =>
    rw [hv, if_pos rfl] at h
    rw [h]
    rfl

/-! ### The send path keeps the receives -/

structure RecvKept (w w' : Worker) : Prop where
  core : w'.core = w.core
  provided : w'.io.useProvidedBufs = w.io.useProvidedBufs
  ring : w'.io.recvDefer.length ≤ w.io.recvDefer.length
  awaiting : w.Roomy → w.io.recvDefer.length + 1 ≤ kRecvDeferSize →
    ∀ fd, validFd fd = true → w.fdMap fd ≠ none → w'.io.awaiting fd = w.io.awaiting fd

theorem Worker.Roomy.congr {w' : Worker} (h : w.Roomy) (hc : w'.core = w.core)
    (hp : w'.io.useProvidedBufs = w.io.useProvidedBufs) : w'.Roomy := by
  intro hprov fd p hfd
  have hmap : w'.fdMap = w.fdMap := (congrArg Worker.fdMap hc :)
  have hbuf : (w'.ht p).rbuf = (w.ht p).rbuf := (congrArg Peer.rbuf (Worker.core_peer hc p) :)
  rw [hbuf]
  rw [hp] at hprov
  rw [hmap] at hfd
  exact h hprov fd p hfd

namespace RecvKept

variable {w w' w'' : Worker}

theorem of_sameRecv (hc : w'.core = w.core) (h : w.io.SameRecv w'.io) : RecvKept w w' :=
  ⟨hc, h.provided, by rw [h.defer], fun _ _ fd _ _ => h.awaiting fd⟩

theorem refl (w : Worker) : RecvKept w w := of_sameRecv rfl (.refl _)

theorem trans (h1 : RecvKept w w') (h2 : RecvKept w' w'') : RecvKept w w'' where
  core := h2.core.trans h1.core
  provided := h2.provided.trans h1.provided
  ring := h2.ring.trans h1.ring
  awaiting hroom hlen fd hv hm := by
    have hmap : w'.fdMap = w.fdMap := (congrArg Worker.fdMap h1.core :)
    have hlen' := h1.ring
    rw [h2.awaiting (hroom.congr h1.core h1.provided) (by omega) fd hv (by rwa [hmap])]
    exact h1.awaiting hroom hlen fd hv hm

theorem drainTurn {fd : Fd} {rest : List Fd} (hd : w.io.recvDefer = fd :: rest) :
    RecvKept w (submitRecvNow { w with io := { w.io with recvDefer := rest } } fd) := by
  obtain ⟨hprov, hlen, -⟩ :=
    submitRecvNow_ring { w with io := { w.io with recvDefer := rest } } fd
  refine ⟨rfl, hprov, ?_, ?_⟩
  · rw [hd]
    exact hlen
  · intro hroom hring f hv hm
    rw [hd, List.length_cons] at hring
    have hawait : w.io.awaiting f =
        ({ w.io with recvDefer := rest } : Io).awaiting f + if f = fd then 1 else 0 := by
      unfold Io.awaiting
      rw [hd, List.count_cons, Nat.add_assoc]
      simp only [beq_iff_eq, eq_comm (a := fd)]
      rfl
    by_cases hreg : validFd fd = true ∧ w.fdMap fd ≠ none
    · have hne : rest.length + 1 ≠ kRecvDeferSize := by omega
      rw [hawait]
      exact submitRecvNow_awaiting (w := { w with io := { w.io with recvDefer := rest } })
        hreg.1 hreg.2 hroom (.inl hne) f
    · have hf : f ≠ fd := by
        intro he
        exact hreg (he ▸ ⟨hv, hm⟩)
      have hsame : submitRecvNow { w with io := { w.io with recvDefer := rest } } fd =
          { w with io := { w.io with recvDefer := rest } } := by
        unfold submitRecvNow
        cases hvf : validFd fd with
        | false => rfl
        | true =>
          have hnone : w.fdMap fd = none := by
            by_contra hne
            exact hreg ⟨hvf, hne⟩
          dsimp only
          rw [hnone]
          rfl
      rw [hsame, hawait, if_neg hf]
      rfl

theorem drainDeferredRecvs (w : Worker) : RecvKept w (drainDeferredRecvs w) := by
  have turns : ∀ n (w : Worker), RecvKept w (drainDeferredRecvsN n w) := by
    intro n
    induction n with
    | zero => exact refl
    | succ n ih =>
      intro w
      simp only [drainDeferredRecvsN]
      split
      · exact refl w
      · next fd rest hd =>
        split
        · exact (drainTurn hd).trans (ih _)
        · exact refl w
  exact turns _ w

theorem setSend (w : Worker) (p : Slot) (s : SendState) : RecvKept w (w.setSend p s) :=
  of_sameRecv (SendOnly.setSend p w s).core (.refl _)

theorem alloc (w : Worker) : RecvKept w w.alloc.2 := by
  apply of_sameRecv (SendOnly.alloc 0 w).core
  rw [alloc_eq]
  exact .refl _

theorem submitBatch (n : ℕ) (w : Worker) (p : Slot) : RecvKept w (submitBatch n w p) :=
  of_sameRecv (submitBatch_sendOnly n w p).core (.submitBatch n w p)

theorem enqueueSend (w : Worker) (p : Slot) (data : Bytes) : RecvKept w (enqueueSend w p data) :=
  of_sameRecv (enqueueSend_sendOnly w p data).core (.enqueueSend w p data)

theorem submitNext (w : Worker) (p : Slot) : RecvKept w (submitNext w p).2 :=
  of_sameRecv (submitNext_sendOnly w p).core (.submitNext w p)

theorem flushPendingSends (w : Worker) : RecvKept w (flushPendingSends w) := by
  have one : ∀ (w : Worker) (fd : Fd), RecvKept w (flushPending w fd) := by
    intro w fd
    unfold flushPending
    split
    · exact refl w
    split
    · exact refl w
    · next p _ =>
      have h1 := setSend w p { (w.ht p).send with pending := false }
      dsimp only
      split
      · exact h1
      · exact h1.trans (submitBatch _ _ p)
  have all : ∀ (fds : List Fd) (w : Worker), RecvKept w (fds.foldl flushPending w) := by
    intro fds
    induction fds with
    | nil => exact refl
    | cons f fds ih => exact fun w => (one w f).trans (ih _)
  exact (all w.pendingFds w).trans (of_sameRecv rfl (.refl _))

theorem armPollWrite (w : Worker) (p : Slot) (fd : Fd) : RecvKept w (armPollWrite w p fd) := by
  apply of_sameRecv (armPollWrite_core w p fd)
  have h := Io.SameRecv.prepSqe w.io (.pollOut fd) fun _ _ => Sqe.noConfusion
  unfold HyperDerp.armPollWrite
  dsimp only
  split
  · exact .refl _
  split
  · next heq => rwa [heq] at h
  · next heq => rwa [heq] at h

theorem handlePollWrite (w : Worker) (fd : Fd) : RecvKept w (handlePollWrite w fd) := by
  unfold HyperDerp.handlePollWrite
  dsimp only
  split
  · exact refl w
  · next p _ =>
    have h1 := setSend w p { (w.ht p).send with pollWritePending := false }
    have h2 := h1.trans (submitBatch kPollWriteBatch _ p)
    split
    · exact h2.trans (armPollWrite _ p fd)
    · exact h2

theorem relieveRecv (w : Worker) : RecvKept w (relieveRecv w) := by
  unfold HyperDerp.relieveRecv resumeRecv
  split
  · split
    · exact of_sameRecv rfl ⟨rfl, rfl, rfl⟩
    split
    · have h1 : RecvKept w { w with io := { w.io with recvPaused := false } } :=
        of_sameRecv rfl ⟨rfl, rfl, rfl⟩
      exact h1.trans (drainDeferredRecvs _)
    · exact refl w
  · exact refl w

theorem park (w : Worker) (fd : Fd) (item : SendItem) (b : Bool) :
    RecvKept w (w.park fd item b) := by
  unfold Worker.park
  split
  · exact of_sameRecv rfl (.refl _)
  · exact refl w

theorem popSend (w : Worker) (p : Slot) (b : Bool) : RecvKept w (popSend w p b) := by
  unfold HyperDerp.popSend
  dsimp only
  split
  · exact refl w
  · refine RecvKept.trans ?_ (relieveRecv _)
    apply ((setSend w p _).trans (park _ _ _ b)).trans
    exact of_sameRecv rfl (.refl _)

theorem drainSendQueue (w : Worker) (p : Slot) (b : Bool) :
    RecvKept w (drainSendQueue w p b) := by
  unfold HyperDerp.drainSendQueue
  dsimp only
  have h1 := popSend w p b
  generalize HyperDerp.popSend w p b = w1 at h1 ⊢
  have h2 : RecvKept w1 (if 0 < (w1.ht p).send.inflight then
      w1.setSend p { (w1.ht p).send with inflight := (w1.ht p).send.inflight - 1 } else w1) := by
    split
    · exact setSend w1 p _
    · exact refl w1
  generalize (if 0 < (w1.ht p).send.inflight then
      w1.setSend p { (w1.ht p).send with inflight := (w1.ht p).send.inflight - 1 } else w1) = w2
    at h2 ⊢
  split
  · exact (h1.trans h2).trans (submitNext w2 p)
  · exact h1.trans h2

theorem resubmitRest (w : Worker) (p : Slot) (fd : Fd) (data : Bytes) :
    RecvKept w (resubmitRest w p fd data) := by
  have hc : (HyperDerp.resubmitRest w p fd data).core = w.core := by
    obtain ⟨io, heq, -, -⟩ := resubmitRest_cases w p fd data
    rw [heq]
    exact (SendOnly.setSend p w _).core
  apply of_sameRecv hc
  have h := Io.SameRecv.prepSqe w.io (.send fd w.nextItem data false false)
    fun _ _ => Sqe.noConfusion
  unfold HyperDerp.resubmitRest submitSend
  dsimp only
  split
  · next heq =>
    simp only [Prod.mk.injEq] at heq
    obtain ⟨-, rfl⟩ := heq
    exact h
  · next heq =>
    simp only [Prod.mk.injEq] at heq
    obtain ⟨-, rfl⟩ := heq
    exact h

theorem dropRest (w : Worker) (p : Slot) : RecvKept w (dropRest w p) := by
  unfold HyperDerp.dropRest
  dsimp only
  have h1 : RecvKept w { w.setSend p { (w.ht p).send with
      inflight := (w.ht p).send.inflight - 1 } with
      stats := { w.stats with slabExhausts := w.stats.slabExhausts + 1 } } :=
    (setSend w p _).trans (of_sameRecv rfl (.refl _))
  split
  · exact h1.trans (submitNext _ p)
  · exact h1

theorem sendShort (w : Worker) (p : Slot) (fd : Fd) (sent : ℕ) (x : SendItem) (rest : List SendItem)
    (b : Bool) : RecvKept w (sendShort w p fd sent x rest b) := by
  rcases sendShort_cases w p fd sent x rest b with ⟨-, heq⟩ | ⟨-, nm, ao, w1, hw1, hcase⟩
  · rw [heq]
    exact (alloc w).trans (drainSendQueue _ p b)
  · have h1 : RecvKept w w1 := by
      rw [hw1]
      exact (setSend w p _).trans (of_sameRecv rfl (.refl _))
    rcases hcase with ⟨-, heq⟩ | ⟨-, heq⟩
    · rw [heq]
      exact h1.trans (dropRest w1 p)
    · rw [heq]
      exact h1.trans (resubmitRest w1 p fd _)

theorem handleSendCqe (w : Worker) (cqe : Cqe) : RecvKept w (handleSendCqe w cqe) := by
  have hcase := handleSendCqe_case w cqe
  generalize HyperDerp.handleSendCqe w cqe = w' at hcase ⊢
  cases hcase with
  | ignored nm _ => exact of_sameRecv rfl (.refl _)
  | unsupported p _ _ =>
    unfold sendUnsupported
    dsimp only
    split
    · exact (setSend w p _).trans (submitBatch _ _ p)
    · exact setSend w p _
  | retry p stats _ _ =>
    have h1 : RecvKept w { w with stats := stats } := of_sameRecv rfl (.refl _)
    unfold sendRetry
    dsimp only
    exact (h1.trans (setSend _ p _)).trans (armPollWrite _ p cqe.fd)
  | done p stats pipe _ =>
    have h1 : RecvKept w { w with stats := stats, pipe := pipe } := of_sameRecv rfl (.refl _)
    exact h1.trans (drainSendQueue _ p cqe.more)
  | short p stats item rest _ _ _ _ =>
    have h1 : RecvKept w { w with stats := stats } := of_sameRecv rfl (.refl _)
    exact h1.trans (sendShort _ p _ _ _ _ _)

end RecvKept

/-! ### A receive completion up to `SubmitRecv` -/

/-- `HandleRecvProvided` up to `return_buf`. -/
def providedBody (ctx : Ctx) (wid : ℕ) (cqe : RecvCqe) : Ctx :=
  match if validFd cqe.fd then (ctx.workers wid).fdMap cqe.fd else none with
  | none => ctx
  | some p =>
    if cqe.res ≤ 0 then
      if cqe.res = 0 ∨ cqe.res = -kEconnreset then ctx.onWorker wid fun w => closeFd w cqe.fd p
      else ctx
    else
      match rateLimit (ctx.onWorker wid fun w => countRecv w cqe.res.toNat) wid p cqe.res.toNat
        cqe.now with
      | (true, ctx) => ctx
      | (false, ctx) => (recvProvided ctx wid p (cqe.buf.take cqe.res.toNat)).1

/-- `HandleRecvSingle` up to `SubmitRecv`, and whether it gets there. -/
def singleBody (ctx : Ctx) (wid : ℕ) (cqe : RecvCqe) : Ctx × Bool :=
  match if validFd cqe.fd then (ctx.workers wid).fdMap cqe.fd else none with
  | none => (ctx, false)
  | some p =>
    if cqe.res ≤ 0 then
      if cqe.res = 0 ∨ cqe.res = -kEconnreset then
        (ctx.onWorker wid fun w => closeFd w cqe.fd p, false)
      else (ctx, false)
    else
      let ctx := ctx.onWorker wid fun w => countRecv w cqe.res.toNat
      let w := ctx.workers wid
      let rbuf := (w.ht p).rbuf ++ cqe.buf.take cqe.res.toNat
      let r :=
        if w.running then recvFrames wid p (w.ht p).protocol rbuf.length ctx rbuf
        else ⟨ctx, [], rbuf, false⟩
      let ctx := r.ctx.onWorker wid fun w => w.setRbuf p r.rest
      (ctx, !r.closed && decide (((ctx.workers wid).ht p).occupied = .live))

/-- `HandleRecvCqe` up to `SubmitRecv`, and whether it gets there. -/
def recvBody (ctx : Ctx) (wid : ℕ) (cqe : RecvCqe) : Ctx × Bool :=
  let ctx :=
    if cqe.more then ctx
    else ctx.onWorker wid fun w =>
      { w with io := { w.io with
          recvInflight := if w.io.recvInflight - 1 < 0 then 0 else w.io.recvInflight - 1 } }
  let w := ctx.workers wid
  if cqe.hasBuffer then (providedBody ctx wid cqe, !cqe.more)
  else if w.io.useProvidedBufs then
    if cqe.res = 0 ∨ cqe.res = -kEconnreset then
      match if validFd cqe.fd then w.fdMap cqe.fd else none with
      | none => (ctx, false)
      | some p => (ctx.setWorker wid (closeFd w cqe.fd p), false)
    else if cqe.res = -kEnobufs then
      (ctx.setWorker wid
        { w with stats := { w.stats with recvEnobufs := w.stats.recvEnobufs + 1 } }, true)
    else if cqe.res = -kEinval then
      (ctx.setWorker wid { w with io := { w.io with useMultishotRecv := false } }, true)
    else (ctx, false)
  else singleBody ctx wid cqe

theorem handleRecvProvided_body (ctx : Ctx) (wid : ℕ) (cqe : RecvCqe) :
    (handleRecvProvided ctx wid cqe).1 = returnBuf (providedBody ctx wid cqe) wid cqe := by
  unfold handleRecvProvided providedBody
  generalize (if validFd cqe.fd then (ctx.workers wid).fdMap cqe.fd else none) = m
  cases m with
  | none => rfl
  | some p =>
    by_cases hneg : cqe.res ≤ 0
    · by_cases hc : cqe.res = 0 ∨ cqe.res = -kEconnreset
      · simp only [hneg, hc, if_true]
      · simp only [hneg, hc, if_true, if_false]
    · simp only [hneg, if_false]
      generalize rateLimit (ctx.onWorker wid fun w => countRecv w cqe.res.toNat) wid p
        cqe.res.toNat cqe.now = r
      obtain ⟨drop, ctx1⟩ := r
      cases drop <;> rfl

theorem handleRecvSingle_body (ctx : Ctx) (wid : ℕ) (cqe : RecvCqe) :
    (handleRecvSingle ctx wid cqe).1 =
      if (singleBody ctx wid cqe).2 then
        (singleBody ctx wid cqe).1.onWorker wid fun w => submitRecv w cqe.fd
      else (singleBody ctx wid cqe).1 := by
  unfold handleRecvSingle singleBody
  generalize (if validFd cqe.fd then (ctx.workers wid).fdMap cqe.fd else none) = m
  cases m with
  | none => rfl
  | some p =>
    by_cases hneg : cqe.res ≤ 0
    · by_cases hc : cqe.res = 0 ∨ cqe.res = -kEconnreset
      · simp only [hneg, hc, if_true]
        rfl
      · simp only [hneg, hc, if_true, if_false]
        rfl
    · simp only [hneg, if_false]
      generalize (ctx.onWorker wid fun w => countRecv w cqe.res.toNat) = ctx1
      generalize (if (ctx1.workers wid).running = true then
          recvFrames wid p ((ctx1.workers wid).ht p).protocol
            (((ctx1.workers wid).ht p).rbuf ++ cqe.buf.take cqe.res.toNat).length ctx1
            (((ctx1.workers wid).ht p).rbuf ++ cqe.buf.take cqe.res.toNat)
          else ⟨ctx1, [], ((ctx1.workers wid).ht p).rbuf ++ cqe.buf.take cqe.res.toNat, false⟩ :
          RecvLoop) = r
      cases r.closed with
      | true => rfl
      | false =>
        simp only [Bool.false_eq_true, if_false, Bool.not_false, Bool.true_and, decide_eq_true_eq]
        split <;> rfl

theorem handleRecvCqe_body (ctx : Ctx) (wid : ℕ) (cqe : RecvCqe) :
    (handleRecvCqe ctx wid cqe).1 =
      if (recvBody ctx wid cqe).2 then
        (recvBody ctx wid cqe).1.onWorker wid fun w => submitRecv w cqe.fd
      else (recvBody ctx wid cqe).1 := by
  unfold handleRecvCqe recvBody
  dsimp only
  generalize (if cqe.more then ctx else ctx.onWorker wid fun w =>
      { w with io := { w.io with
          recvInflight := if w.io.recvInflight - 1 < 0 then 0 else w.io.recvInflight - 1 } })
    = ctx1
  have hset : ∀ w', ctx1.setWorker wid (submitRecv w' cqe.fd) =
      (ctx1.setWorker wid w').onWorker wid fun w => submitRecv w cqe.fd := by
    intro w'
    rw [Ctx.onWorker, Ctx.setWorker_self, setWorker_setWorker]
  split
  · rw [handleRecvProvided_body]
    unfold returnBuf
    cases cqe.more <;> rfl
  split
  · split
    · generalize (if validFd cqe.fd then (ctx1.workers wid).fdMap cqe.fd else none) = m
      cases m <;> rfl
    split
    · exact hset _
    split
    · exact hset _
    · rfl
  · exact handleRecvSingle_body ctx1 wid cqe

/-! ### What the body of a completion leaves alone -/

theorem xferSpscPush_io (ctx : Ctx) (wid dst : ℕ) (x : Xfer) (u : ℕ) :
    ((xferSpscPush ctx wid dst x).workers u).io = (ctx.workers u).io := by
  have hset : ∀ (ctx1 : Ctx) (a : ℕ) (w : Worker), w.io = (ctx1.workers a).io →
      ((ctx1.setWorker a w).workers u).io = (ctx1.workers u).io := by
    intro ctx1 a w hw
    by_cases hu : u = a
    · rw [hu, Ctx.setWorker_self, hw]
    · rw [Ctx.setWorker_ne ctx1 w hu]
  unfold xferSpscPush Ctx.onWorker
  dsimp only
  split
  · exact hset ctx wid _ rfl
  split
  · rw [hset, hset]
    all_goals rfl
  · exact hset ctx dst _ rfl

/-- No registration and no receive changes, and no receive buffer but that of slot `p` on
worker `v`. -/
structure RecvCalm (v : ℕ) (p : Slot) (ctx ctx' : Ctx) : Prop where
  fdMap : ∀ u, (ctx'.workers u).fdMap = (ctx.workers u).fdMap
  io : ∀ u, (ctx.workers u).io.SameRecv (ctx'.workers u).io
  rbuf : ∀ u q, u ≠ v ∨ q ≠ p → ((ctx'.workers u).ht q).rbuf = ((ctx.workers u).ht q).rbuf

namespace RecvCalm

variable {v : ℕ} {p : Slot} {ctx ctx' ctx'' : Ctx}

theorem refl (ctx : Ctx) : RecvCalm v p ctx ctx :=
  ⟨fun _ => rfl, fun _ => .refl _, fun _ _ _ => rfl⟩

theorem trans (h1 : RecvCalm v p ctx ctx') (h2 : RecvCalm v p ctx' ctx'') :
    RecvCalm v p ctx ctx'' where
  fdMap u := (h2.fdMap u).trans (h1.fdMap u)
  io u := (h1.io u).trans (h2.io u)
  rbuf u q hq := (h2.rbuf u q hq).trans (h1.rbuf u q hq)

theorem of_core (hc : ctx'.core = ctx.core)
    (hio : ∀ u, (ctx.workers u).io.SameRecv (ctx'.workers u).io) : RecvCalm v p ctx ctx' where
  fdMap u := (congrArg Worker.fdMap (Ctx.core_worker hc u) :)
  io := hio
  rbuf u q _ := (congrArg Peer.rbuf (Worker.core_peer (Ctx.core_worker hc u) q) :)

theorem setWorker {w : Worker} (hmap : w.fdMap = (ctx.workers v).fdMap)
    (hio : (ctx.workers v).io.SameRecv w.io)
    (hbuf : ∀ q, q ≠ p → (w.ht q).rbuf = ((ctx.workers v).ht q).rbuf) :
    RecvCalm v p ctx (ctx.setWorker v w) := by
  constructor
  · intro u
    by_cases hu : u = v
    · rw [hu, Ctx.setWorker_self, hmap]
    · rw [Ctx.setWorker_ne ctx w hu]
  · intro u
    by_cases hu : u = v
    · rw [hu, Ctx.setWorker_self]
      exact hio
    · rw [Ctx.setWorker_ne ctx w hu]
      exact .refl _
  · intro u q hq
    by_cases hu : u = v
    · subst hu
      rw [Ctx.setWorker_self]
      exact hbuf q (hq.resolve_left fun h => h rfl)
    · rw [Ctx.setWorker_ne ctx w hu]

theorem setRbuf (ctx : Ctx) (s : Bytes) :
    RecvCalm v p ctx (ctx.onWorker v fun w => w.setRbuf p s) := by
  apply setWorker
  · rfl
  · exact .refl _
  · exact fun q hq => congrArg Peer.rbuf (Worker.setPeer_ne _ _ hq)

theorem dispatchFrame (ctx : Ctx) (frame : Bytes) :
    RecvCalm v p ctx (dispatchFrame ctx v p frame) := by
  apply of_core (dispatchFrame_core ctx v p frame)
  have hset : ∀ (ctx1 : Ctx) (w : Worker), (ctx1.workers v).io.SameRecv w.io → ∀ u,
      (ctx1.workers u).io.SameRecv ((ctx1.setWorker v w).workers u).io := by
    intro ctx1 w hw u
    by_cases hu : u = v
    · rw [hu, Ctx.setWorker_self]
      exact hw
    · rw [Ctx.setWorker_ne ctx1 w hu]
      exact .refl _
  have heffs := dispatchFrame_effs ctx v p frame
  generalize HyperDerp.dispatchFrame ctx v p frame = ctx' at heffs
  induction heffs with
  | refl => exact fun u => .refl _
  | tail _ h ih =>
    intro u
    apply (ih u).trans
    cases h with
    | enqueue q data _ => exact hset _ _ (.enqueueSend _ q data) u
    | xfer dst x _ =>
      rw [xferSpscPush_io]
      exact .refl _
    | rules a b c d =>
      apply hset
      exact .refl _
    | account a b c =>
      apply hset
      exact .refl _

theorem recvFrames (proto : PeerProtocol) (n : ℕ) (ctx : Ctx) (buf : Bytes) :
    RecvCalm v p ctx (recvFrames v p proto n ctx buf).ctx := by
  induction n generalizing ctx buf with
  | zero => exact refl ctx
  | succ n ih =>
    simp only [HyperDerp.recvFrames]
    split
    · exact refl ctx
    split
    · exact setWorker rfl (.refl _) fun _ _ => rfl
    split
    · exact refl ctx
    · exact (dispatchFrame ctx _).trans (ih _ _)

theorem recvBuffer (ctx : Ctx) (buf : Bytes) : RecvCalm v p ctx (recvBuffer ctx v p buf).1 := by
  have hr : RecvCalm v p ctx (if (ctx.workers v).running then
      HyperDerp.recvFrames v p ((ctx.workers v).ht p).protocol buf.length ctx buf
      else ⟨ctx, [], buf, false⟩).ctx := by
    split
    · exact recvFrames _ _ ctx buf
    · exact refl ctx
  unfold HyperDerp.recvBuffer
  dsimp only
  generalize (if (ctx.workers v).running then
      HyperDerp.recvFrames v p ((ctx.workers v).ht p).protocol buf.length ctx buf
      else ⟨ctx, [], buf, false⟩ : RecvLoop) = r at hr ⊢
  split
  · exact hr
  split
  · exact hr
  · exact hr.trans (setRbuf _ r.rest)

theorem recvProvided (ctx : Ctx) (buf : Bytes) : RecvCalm v p ctx (recvProvided ctx v p buf).1 := by
  unfold HyperDerp.recvProvided
  dsimp only
  split
  · exact recvBuffer ctx buf
  split
  · exact setRbuf ctx _
  split
  · apply setWorker
    · rfl
    · exact .refl _
    · exact fun q hq => congrArg Peer.rbuf (Worker.setPeer_ne _ _ hq)
  split
  · exact setRbuf ctx _
  · exact ((dispatchFrame ctx _).trans (setRbuf _ [])).trans (recvBuffer _ _)

theorem rateLimit (ctx : Ctx) (n now : ℕ) : RecvCalm v p ctx (rateLimit ctx v p n now).2 := by
  rcases rateLimit_snd ctx v p n now with h | ⟨window, start, stats, h⟩
  · rw [h]
    exact refl ctx
  · rw [h]
    apply setWorker
    · rfl
    · exact .refl _
    · exact fun q hq => congrArg Peer.rbuf (Worker.setPeer_ne _ _ hq)

end RecvCalm

/-- The completion is one after which the code requests the next receive or closes the fd:
it has a buffer, reports the end of the stream, asks for another try, or brings data that a
live peer can keep on parsing. -/
def Answered (w : Worker) (p : Slot) (cqe : RecvCqe) : Prop :=
  let s := (w.ht p).rbuf ++ cqe.buf.take cqe.res.toNat
  cqe.hasBuffer = true ∨ (cqe.res = 0 ∨ cqe.res = -kEconnreset) ∨
    (w.io.useProvidedBufs = true ∧ (cqe.res = -kEnobufs ∨ cqe.res = -kEinval)) ∨
    (w.io.useProvidedBufs = false ∧ 0 < cqe.res ∧ (w.ht p).occupied = .live ∧
      (w.running = true → ¬MeetsInvalid (w.ht p).protocol s) ∧
      (w.running = false → s.length < kReadBufSize))

theorem Partial.length_lt {proto : PeerProtocol} {s : Bytes} (h : Partial proto s) :
    s.length < kReadBufSize := by
  have hh : frameHdrSize proto ≤ kFrameHeaderSize := by cases proto <;> decide
  unfold kReadBufSize
  rcases h with hs | ⟨hok, hs⟩
  · have hhdr : (frameFormat proto).hdr = frameHdrSize proto := rfl
    omega
  · have hlen := isValidPeerPayloadLen_le hok
    simp only [Framing.Format.size, frameFormat] at hs hlen
    omega

section

variable {ctx : Ctx} {v : ℕ} {p : Slot} {cqe : RecvCqe}

/-- What the body of a completion does for a registered fd: it closes the fd, or it goes on
to `SubmitRecv` just when the kernel has ended the receive. -/
def BodyEnds (ctx : Ctx) (v : ℕ) (p : Slot) (cqe : RecvCqe) (r : Ctx × Bool) : Prop :=
  (∃ ctx1, RecvCalm v p ctx ctx1 ∧
      ((ctx1.workers v).ht p).rbuf = ((ctx.workers v).ht p).rbuf ∧
      r.1 = ctx1.onWorker v fun w => closeFd w cqe.fd p) ∨
    RecvCalm v p ctx r.1 ∧ r.2 = !cqe.more ∧
      ((ctx.workers v).io.useProvidedBufs = false →
        ((r.1.workers v).ht p).rbuf.length < kReadBufSize)

theorem providedBody_ends (hp : (if validFd cqe.fd then (ctx.workers v).fdMap cqe.fd else none) =
    some p) (hprov : (ctx.workers v).io.useProvidedBufs = true) :
    BodyEnds ctx v p cqe (providedBody ctx v cqe, !cqe.more) := by
  have hroom : ∀ n : ℕ, (ctx.workers v).io.useProvidedBufs = false → n < kReadBufSize := by
    intro n hno
    rw [hprov] at hno
    cases hno
  unfold providedBody
  rw [hp]
  dsimp only
  split
  · split
    · exact .inl ⟨ctx, .refl ctx, rfl, rfl⟩
    · exact .inr ⟨.refl ctx, rfl, hroom _⟩
  · have hcount : RecvCalm v p ctx (ctx.onWorker v fun w => countRecv w cqe.res.toNat) := by
      apply RecvCalm.setWorker
      · rfl
      · exact .refl _
      · exact fun _ _ => rfl
    have hlim := hcount.trans (RecvCalm.rateLimit _ cqe.res.toNat cqe.now)
    generalize rateLimit (ctx.onWorker v fun w => countRecv w cqe.res.toNat) v p cqe.res.toNat
      cqe.now = r at hlim
    obtain ⟨drop, ctx1⟩ := r
    cases drop with
    | true => exact .inr ⟨hlim, rfl, hroom _⟩
    | false => exact .inr ⟨hlim.trans (RecvCalm.recvProvided ctx1 _), rfl, hroom _⟩

theorem singleBody_ends (hp : (if validFd cqe.fd then (ctx.workers v).fdMap cqe.fd else none) =
    some p) (hmore : cqe.more = false) (hbuf : cqe.hasBuffer = false)
    (hprov : (ctx.workers v).io.useProvidedBufs = false) (hans : Answered (ctx.workers v) p cqe) :
    BodyEnds ctx v p cqe (singleBody ctx v cqe) := by
  unfold singleBody
  rw [hp]
  dsimp only
  rcases hans with h | hend | ⟨h, -⟩ | ⟨-, hpos, hlive, hvalid, hshort⟩
  · rw [hbuf] at h
    cases h
  · have hneg : cqe.res ≤ 0 := by
      rcases hend with h | h
      · exact h.le
      · rw [h]
        decide
    rw [if_pos hneg, if_pos hend]
    exact .inl ⟨ctx, .refl ctx, rfl, rfl⟩
  · rw [hprov] at h
    cases h
  · rw [if_neg (by omega)]
    have hcount : RecvCalm v p ctx (ctx.onWorker v fun w => countRecv w cqe.res.toNat) := by
      apply RecvCalm.setWorker
      · rfl
      · exact .refl _
      · exact fun _ _ => rfl
    obtain ⟨ctx1, hctx1⟩ : ∃ ctx1, ctx1 = ctx.onWorker v fun w => countRecv w cqe.res.toNat :=
      ⟨_, rfl⟩
    have hw1 : ctx1.workers v = countRecv (ctx.workers v) cqe.res.toNat := by
      rw [hctx1, Ctx.onWorker, Ctx.setWorker_self]
    rw [← hctx1] at hcount ⊢
    have hht : (ctx1.workers v).ht = (ctx.workers v).ht := by
      rw [hw1]
      rfl
    have hrun : (ctx1.workers v).running = (ctx.workers v).running := by
      rw [hw1]
      rfl
    rw [hht, hrun]
    generalize hs : ((ctx.workers v).ht p).rbuf ++ cqe.buf.take cqe.res.toNat = s at hvalid hshort
    obtain ⟨h1, h2, h3, h4⟩ := recvFrames_scanN v p ((ctx.workers v).ht p).protocol s.length ctx1 s
    -- the loop ends with the beginning of a frame, or it did not run
    have hloop : ∀ r : RecvLoop, r = (if (ctx.workers v).running = true then
        recvFrames v p ((ctx.workers v).ht p).protocol s.length ctx1 s
        else ⟨ctx1, [], s, false⟩) → RecvCalm v p ctx1 r.ctx ∧ r.ctx.core = ctx1.core ∧
          r.closed = false ∧ r.rest.length < kReadBufSize := by
      intro r hr
      split at hr
      · next hrunning =>
        have hstop : (frameScan ((ctx.workers v).ht p).protocol s).stopped = false :=
          Bool.not_eq_true _ ▸ hvalid hrunning
        subst hr
        refine ⟨RecvCalm.recvFrames _ _ ctx1 s, h4, h3.trans hstop, ?_⟩
        rw [h2]
        exact Partial.length_lt (Framing.scan_rest _ _ _ hstop)
      · next hstopped =>
        subst hr
        exact ⟨.refl ctx1, rfl, rfl, hshort (Bool.not_eq_true _ ▸ hstopped)⟩
    obtain ⟨hcalm, hcore, hclosed, hlen⟩ := hloop _ rfl
    generalize (if (ctx.workers v).running = true then
        recvFrames v p ((ctx.workers v).ht p).protocol s.length ctx1 s
        else ⟨ctx1, [], s, false⟩ : RecvLoop) = r at hcalm hcore hclosed hlen
    have hself : ((r.ctx.onWorker v fun w => w.setRbuf p r.rest).workers v).ht p =
        { (r.ctx.workers v).ht p with rbuf := r.rest } := by
      rw [Ctx.onWorker, Ctx.setWorker_self, Worker.setRbuf, Worker.setPeer_self]
    refine .inr ⟨(hcount.trans hcalm).trans (RecvCalm.setRbuf _ r.rest), ?_, fun _ => ?_⟩
    · have hocc : ((r.ctx.workers v).ht p).occupied = .live := by
        have hpeer := Worker.core_peer (Ctx.core_worker hcore v) p
        rw [hht] at hpeer
        exact (congrArg Peer.occupied hpeer).trans hlive
      rw [hself, hclosed, hmore]
      simp [hocc]
    · rw [hself]
      exact hlen

/-- What the kernel can report: data in provided buffers comes with one, and a receive that
goes on has just brought data in one. -/
structure RecvFlags (w : Worker) (cqe : RecvCqe) : Prop where
  buffer : cqe.hasBuffer = true → w.io.useProvidedBufs = true
  more : cqe.more = true → cqe.hasBuffer = true ∧ 0 < cqe.res

instance (w : Worker) (cqe : RecvCqe) : Decidable (RecvFlags w cqe) :=
  decidable_of_iff ((cqe.hasBuffer = true → w.io.useProvidedBufs = true) ∧
    (cqe.more = true → cqe.hasBuffer = true ∧ 0 < cqe.res))
    ⟨fun h => ⟨h.1, h.2⟩, fun h => ⟨h.buffer, h.more⟩⟩

theorem countDown_calm (ctx : Ctx) (v : ℕ) (p : Slot) (cqe : RecvCqe) :
    ∃ ctx1, ctx1 = (if cqe.more then ctx else ctx.onWorker v fun w => { w with io := { w.io with
        recvInflight := if w.io.recvInflight - 1 < 0 then 0 else w.io.recvInflight - 1 } }) ∧
      RecvCalm v p ctx ctx1 ∧ ctx1.core = ctx.core := by
  refine ⟨_, rfl, ?_⟩
  split
  · exact ⟨.refl ctx, rfl⟩
  · constructor
    · apply RecvCalm.setWorker
      · rfl
      · exact ⟨rfl, rfl, rfl⟩
      · exact fun _ _ => rfl
    · exact Ctx.core_setWorker rfl

theorem recvBody_ends (hp : (if validFd cqe.fd then (ctx.workers v).fdMap cqe.fd else none) =
    some p) (hflags : RecvFlags (ctx.workers v) cqe) (hroom : (ctx.workers v).Roomy)
    (hans : Answered (ctx.workers v) p cqe) : BodyEnds ctx v p cqe (recvBody ctx v cqe) := by
  obtain ⟨ctx1, hctx1, hcalm, hcore⟩ := countDown_calm ctx v p cqe
  have hw := Ctx.core_worker hcore v
  have hmap : (ctx1.workers v).fdMap = (ctx.workers v).fdMap := hcalm.fdMap v
  have hpeer := Worker.core_peer hw p
  have hbuf1 : ((ctx1.workers v).ht p).rbuf = ((ctx.workers v).ht p).rbuf :=
    (congrArg Peer.rbuf hpeer :)
  have hprov1 := (hcalm.io v).provided
  have hp1 : (if validFd cqe.fd then (ctx1.workers v).fdMap cqe.fd else none) = some p := by
    rwa [hmap]
  have hans1 : Answered (ctx1.workers v) p cqe := by
    unfold Answered at hans ⊢
    rw [hprov1, hbuf1, show ((ctx1.workers v).ht p).occupied = ((ctx.workers v).ht p).occupied from
        (congrArg Peer.occupied hpeer :),
      show ((ctx1.workers v).ht p).protocol = ((ctx.workers v).ht p).protocol from
        (congrArg Peer.protocol hpeer :),
      show (ctx1.workers v).running = (ctx.workers v).running from
        (congrArg Worker.running hw :)]
    exact hans
  -- counting down changes nothing that the rest depends on
  have lift : ∀ r, BodyEnds ctx1 v p cqe r → BodyEnds ctx v p cqe r := by
    rintro r (⟨ctx2, h1, h2, h3⟩ | ⟨h1, h2, h3⟩)
    · exact .inl ⟨ctx2, hcalm.trans h1, h2.trans hbuf1, h3⟩
    · refine .inr ⟨hcalm.trans h1, h2, fun hno => h3 ?_⟩
      rwa [hprov1]
  have hmapped : (ctx.workers v).fdMap cqe.fd = some p := by
    split at hp
    · exact hp
    · cases hp
  have hlen : (ctx1.workers v).io.useProvidedBufs = false →
      ((ctx1.workers v).ht p).rbuf.length < kReadBufSize := by
    intro hno
    rw [hprov1] at hno
    rw [hbuf1]
    exact hroom hno cqe.fd p hmapped
  apply lift
  unfold recvBody
  rw [← hctx1]
  dsimp only
  split
  · next hb =>
    apply providedBody_ends hp1
    rw [hprov1]
    exact hflags.buffer hb
  · next hb =>
    have hnobuf : cqe.hasBuffer = false := Bool.not_eq_true _ ▸ hb
    have hmore : cqe.more = false := by
      by_contra hm
      exact hb (hflags.more (Bool.not_eq_false _ ▸ hm)).1
    split
    · next hprov =>
      split
      · rw [hp1]
        exact .inl ⟨ctx1, .refl ctx1, rfl, rfl⟩
      · next hend =>
        have calm : ∀ w', w'.fdMap = (ctx1.workers v).fdMap →
            (ctx1.workers v).io.SameRecv w'.io → w'.ht = (ctx1.workers v).ht →
            BodyEnds ctx1 v p cqe (ctx1.setWorker v w', true) := by
          intro w' h1 h2 h3
          have hw' := RecvCalm.setWorker (p := p) h1 h2 fun q _ => by rw [h3]
          refine .inr ⟨hw', by rw [hmore]; rfl, fun hno => ?_⟩
          rw [Ctx.setWorker_self, h3]
          exact hlen hno
        rcases hans1 with h | h | ⟨-, hagain⟩ | ⟨h, -⟩
        · exact absurd h hb
        · exact absurd h hend
        · split
          · exact calm _ rfl (.refl _) rfl
          · next hne =>
            rw [if_pos (hagain.resolve_left hne)]
            exact calm _ rfl ⟨rfl, rfl, rfl⟩ rfl
        · rw [hprov] at h
          cases h
    · next hprov =>
      exact singleBody_ends hp1 hmore hnobuf (Bool.not_eq_true _ ▸ hprov) hans1

theorem recvBody_unregistered
    (hp : (if validFd cqe.fd then (ctx.workers v).fdMap cqe.fd else none) = none) :
    (recvBody ctx v cqe).1.core = ctx.core ∧
      ∀ u, (ctx.workers u).io.SameRecv ((recvBody ctx v cqe).1.workers u).io := by
  obtain ⟨ctx1, hctx1, hcalm, hcore⟩ := countDown_calm ctx v 0 cqe
  have hp1 : (if validFd cqe.fd then (ctx1.workers v).fdMap cqe.fd else none) = none := by
    rwa [hcalm.fdMap v]
  have hset : ∀ w', w'.core = (ctx1.workers v).core → (ctx1.workers v).io.SameRecv w'.io →
      (ctx1.setWorker v w').core = ctx.core ∧
        ∀ u, (ctx.workers u).io.SameRecv ((ctx1.setWorker v w').workers u).io := by
    intro w' hc hio
    refine ⟨(Ctx.core_setWorker hc).trans hcore, fun u => (hcalm.io u).trans ?_⟩
    by_cases hu : u = v
    · rw [hu, Ctx.setWorker_self]
      exact hio
    · rw [Ctx.setWorker_ne ctx1 w' hu]
      exact .refl _
  unfold recvBody
  rw [← hctx1]
  dsimp only
  split
  · unfold providedBody
    rw [hp1]
    exact ⟨hcore, hcalm.io⟩
  split
  · split
    · rw [hp1]
      exact ⟨hcore, hcalm.io⟩
    split
    · exact hset _ rfl (.refl _)
    split
    · exact hset _ rfl ⟨rfl, rfl, rfl⟩
    · exact ⟨hcore, hcalm.io⟩
  · unfold singleBody
    rw [hp1]
    exact ⟨hcore, hcalm.io⟩

end

/-! ### The invariant of a worker -/

/-- Registered fds are valid, the ring is no longer than it may be, and every registered fd
`fd` has `due fd` receives. -/
structure RecvInv (due : Fd → ℕ) (w : Worker) : Prop where
  valid : ∀ fd, w.fdMap fd ≠ none → validFd fd = true
  ring : w.io.recvDefer.length + 1 ≤ kRecvDeferSize
  roomy : w.Roomy
  awaits : ∀ fd, w.fdMap fd ≠ none → w.io.awaiting fd = due fd

namespace RecvInv

variable {due : Fd → ℕ} {w w' : Worker}

theorem kept (h : RecvInv due w) (hk : RecvKept w w') : RecvInv due w' := by
  have hmap : w'.fdMap = w.fdMap := (congrArg Worker.fdMap hk.core :)
  constructor
  · intro fd hm
    rw [hmap] at hm
    exact h.valid fd hm
  · have hlen := hk.ring
    have hring := h.ring
    omega
  · exact h.roomy.congr hk.core hk.provided
  · intro fd hm
    rw [hmap] at hm
    rw [hk.awaiting h.roomy h.ring fd (h.valid fd hm) hm]
    exact h.awaits fd hm

theorem congr (h : RecvInv due w) (hmap : ∀ fd, w'.fdMap fd ≠ none → w'.fdMap fd = w.fdMap fd)
    (hio : w.io.SameRecv w'.io) (hroom : w'.Roomy) : RecvInv due w' where
  valid fd hm := h.valid fd (hmap fd hm ▸ hm)
  ring := by
    rw [hio.defer]
    exact h.ring
  roomy := hroom
  awaits fd hm := by
    rw [hio.awaiting]
    exact h.awaits fd (hmap fd hm ▸ hm)

theorem congr_rbuf (h : RecvInv due w) (hmap : w'.fdMap = w.fdMap) (hio : w.io.SameRecv w'.io)
    (hbuf : ∀ q, (w'.ht q).rbuf = (w.ht q).rbuf) : RecvInv due w' := by
  apply h.congr (fun fd _ => congrFun hmap fd) hio
  intro hprov fd q hq
  rw [hbuf]
  rw [hio.provided] at hprov
  rw [hmap] at hq
  exact h.roomy hprov fd q hq

theorem mono {due' : Fd → ℕ} (h : RecvInv due w) (hd : ∀ fd, w.fdMap fd ≠ none → due fd = due' fd) :
    RecvInv due' w :=
  ⟨h.valid, h.ring, h.roomy, fun fd hm => (h.awaits fd hm).trans (hd fd hm)⟩

theorem submitRecv (h : RecvInv due w) {fd : Fd} (hm : w.fdMap fd ≠ none) (hok : ArmsOrDefers w) :
    RecvInv (fun f => due f + if f = fd then 1 else 0) (submitRecv w fd) := by
  obtain ⟨io, hio⟩ := submitRecv_io w fd
  have hmap : (HyperDerp.submitRecv w fd).fdMap = w.fdMap := by rw [hio]
  obtain ⟨hprov, hring⟩ := submitRecv_ring w fd
  constructor
  · intro f hf
    rw [hmap] at hf
    exact h.valid f hf
  · exact hring h.ring
  · exact h.roomy.congr (by rw [hio]; rfl) hprov
  · intro f hf
    rw [hmap] at hf
    rw [submitRecv_awaiting (h.valid fd hm) hm h.roomy hok, h.awaits f hf]

theorem remove (h : RecvInv due w) {key : Key} {p : Slot} (hp : htLookup w key = some p) :
    RecvInv due (removePeerAt w p key) := by
  have hbury : RecvInv due (buryPeer (unregisterPeer w p) p) := by
    rw [buryPeer_unregistered]
    have hmap : ∀ fd, fdMapAfterRemove w p fd ≠ none → fdMapAfterRemove w p fd = w.fdMap fd := by
      intro fd
      unfold fdMapAfterRemove
      split
      · by_cases hf : fd = (w.ht p).fd
        · rw [hf, Function.update_self]
          exact fun hne => absurd rfl hne
        · rw [Function.update_of_ne hf]
          exact fun _ => rfl
      · exact fun _ => rfl
    refine h.congr hmap (.refl _) ?_
    intro hprov fd q hq
    by_cases hqp : q = p
    · subst hqp
      simp only [Function.update_self]
      exact Nat.lt_of_lt_of_le (Nat.zero_lt_succ _) (Nat.le_add_left ..)
    · simp only [Function.update_of_ne hqp]
      have hq' : fdMapAfterRemove w p fd = some q := hq
      have hne : fdMapAfterRemove w p fd ≠ none := by
        rw [hq']
        exact Option.some_ne_none q
      rw [hmap fd hne] at hq'
      exact h.roomy hprov fd q hq'
  rw [removePeerAt_eq hp]
  split
  · apply RecvInv.kept _ (RecvKept.drainDeferredRecvs _)
    exact hbury.congr_rbuf rfl ⟨rfl, rfl, rfl⟩ fun _ => rfl
  · exact hbury

end RecvInv

/-! ### Runs of the receive side -/

inductive RecvLabel where
  | completion (v : ℕ) (cqe : RecvCqe)
  | loop (l : LoopStep)

/-- Steps of the loop that are not parts of a receive completion. -/
def LoopStep.outside : LoopStep → Bool
  | eof .. => false
  | receive .. => false
  | rearm .. => false
  | _ => true

def Sqe.isRecv (fd : Fd) : Sqe → Bool
  | recv f _ => f == fd
  | _ => false

def endRecv (w : Worker) (cqe : RecvCqe) : Worker :=
  if cqe.more then w
  else { w with io := { w.io with sqes := w.io.sqes.eraseP (Sqe.isRecv cqe.fd) } }

namespace Receives

def Init (ctx : Ctx) : Prop :=
  ∀ v, (∀ a, ((ctx.workers v).ht a).occupied = .empty) ∧
    (∀ fd, (ctx.workers v).fdMap fd = none) ∧
    (ctx.workers v).io.sqes = [] ∧ (ctx.workers v).io.recvDefer = []

/-- The kernel completes a receive it was given, or the loop does something else. -/
def step (ctx : Ctx) : RecvLabel → Option Ctx
  | .completion v cqe =>
    if cqe.fd ∈ (ctx.workers v).io.recvs ∧ RecvFlags (ctx.workers v) cqe then
      some (handleRecvCqe (ctx.onWorker v fun w => endRecv w cqe) v cqe).1
    else none
  | .loop l => if l.outside then loopStep ctx l else none

/-- The completion of a registered fd is answered, and `SubmitRecv` never meets a full ring
with a receive to defer. -/
def CompletionOk (ctx : Ctx) (v : ℕ) (cqe : RecvCqe) : Prop :=
  (∀ p ∈ (if validFd cqe.fd then (ctx.workers v).fdMap cqe.fd else none),
      Answered (ctx.workers v) p cqe) ∧
    ((recvBody ctx v cqe).2 = true →
      (((recvBody ctx v cqe).1.workers v).fdMap cqe.fd).isSome = true →
      ArmsOrDefers ((recvBody ctx v cqe).1.workers v))

/-- A registered fd has no receive left over from an earlier connection, and its first
receive does not meet a full ring when it has to be deferred. -/
def AddOk (ctx : Ctx) (v : ℕ) (fd : Fd) (key : Key) : Prop :=
  validFd fd = true → (htLookup (htInsert (ctx.workers v) fd key).2 key).isSome = true →
    (ctx.workers v).io.awaiting fd = 0 ∧ ArmsOrDefers (ctx.workers v)

def stepOk (ctx : Ctx) : RecvLabel → Prop
  | .completion v cqe => CompletionOk (ctx.onWorker v fun w => endRecv w cqe) v cqe
  | .loop (.cmd v (.addPeer fd key _ _)) => AddOk ctx v fd key
  | .loop _ => True

/-- Every registered fd has one receive, on every worker. -/
def Inv (ctx : Ctx) : Prop :=
  ∀ v, TableOk (ctx.workers v) ∧ RecvInv (fun _ => 1) (ctx.workers v)

variable {ctx ctx' : Ctx} {w : Worker} {cqe : RecvCqe} {u wid : ℕ}

theorem inv_init (h : Init ctx) : Inv ctx := by
  intro v
  obtain ⟨hocc, hmap, hsqes, hdefer⟩ := h v
  have hnot : ∀ fd, ¬(ctx.workers v).fdMap fd ≠ none := fun fd hne => hne (hmap fd)
  have hlive : ∀ a, ((ctx.workers v).ht a).occupied ≠ .live := by
    intro a
    rw [hocc a]
    decide
  refine ⟨⟨LinearProbe.inv_of_not_live peerView keyHash hlive, fun q hq => absurd hq (hlive q)⟩, ?_⟩
  constructor
  · exact fun fd hm => absurd hm (hnot fd)
  · rw [hdefer]
    decide
  · intro _ fd p hp
    rw [hmap fd] at hp
    cases hp
  · exact fun fd hm => absurd hm (hnot fd)

/-! ### The kernel ends a receive -/

theorem recvs_eraseP (sqes : List Sqe) (fd : Fd) :
    (sqes.eraseP (Sqe.isRecv fd)).filterMap (fun | .recv f _ => some f | _ => none) =
      (sqes.filterMap fun | .recv f _ => some f | _ => none).erase fd := by
  induction sqes with
  | nil => rfl
  | cons s sqes ih =>
    cases s with
    | recv f space =>
      by_cases hf : f = fd
      · subst hf
        rw [List.eraseP_cons_of_pos (by simp [Sqe.isRecv])]
        simp
      · rw [List.eraseP_cons_of_neg (by simp [Sqe.isRecv, hf]), List.filterMap_cons,
          List.filterMap_cons, List.erase_cons_tail (by simpa using hf), ih]
    | send f i d m z => simpa [Sqe.isRecv] using ih
    | pollOut f => simpa [Sqe.isRecv] using ih
    | unprepared => simpa [Sqe.isRecv] using ih

def dueAfter (cqe : RecvCqe) (fd : Fd) : ℕ := if fd = cqe.fd ∧ cqe.more = false then 0 else 1

theorem endRecv_inv (h : RecvInv (fun _ => 1) w) (hmem : cqe.fd ∈ w.io.recvs) :
    RecvInv (dueAfter cqe) (endRecv w cqe) := by
  cases hmore : cqe.more with
  | true =>
    have hw : endRecv w cqe = w := by simp only [endRecv, hmore, if_true]
    rw [hw]
    apply h.mono
    intro fd _
    simp [dueAfter, hmore]
  | false =>
    have hw : endRecv w cqe =
        { w with io := { w.io with sqes := w.io.sqes.eraseP (Sqe.isRecv cqe.fd) } } := by
      simp only [endRecv, hmore, Bool.false_eq_true, if_false]
    rw [hw]
    refine ⟨h.valid, h.ring, h.roomy, fun fd hm => ?_⟩
    have hone := h.awaits fd hm
    have hpos := List.count_pos_iff.mpr hmem
    unfold Io.awaiting at hone ⊢
    have hrecvs : ({ w.io with sqes := w.io.sqes.eraseP (Sqe.isRecv cqe.fd) } : Io).recvs =
        w.io.recvs.erase cqe.fd := recvs_eraseP w.io.sqes cqe.fd
    rw [hrecvs, List.count_erase]
    by_cases hf : fd = cqe.fd
    · subst hf
      simp only [beq_self_eq_true, if_true, dueAfter, hmore, and_self]
      omega
    · have hne : (cqe.fd == fd) = false := by simpa using Ne.symm hf
      simp only [hne, Bool.false_eq_true, if_false, dueAfter, hf, false_and]
      exact hone

/-! ### One completion -/

theorem closeFd_inv {due due' : Fd → ℕ} {w1 : Worker} {fd : Fd} {p : Slot} (h : RecvInv due w)
    (hd : ∀ f, f ≠ fd → due f = due' f) (hmap : w1.fdMap = w.fdMap) (hio : w.io.SameRecv w1.io)
    (hbuf : ∀ q, (w1.ht q).rbuf = (w.ht q).rbuf) : RecvInv due' (closeFd w1 fd p) := by
  have hsome : ∀ f, (closeFd w1 fd p).fdMap f ≠ none → f ≠ fd ∧
      (closeFd w1 fd p).fdMap f = w.fdMap f := by
    intro f hf
    have hff : f ≠ fd := by
      rintro rfl
      exact hf (Function.update_self ..)
    refine ⟨hff, ?_⟩
    rw [← hmap]
    exact Function.update_of_ne hff ..
  have hclosed : RecvInv due (closeFd w1 fd p) := by
    refine h.congr (fun f hf => (hsome f hf).2) hio ?_
    intro hprov f q hq
    rw [show ((closeFd w1 fd p).ht q).rbuf = (w1.ht q).rbuf from rfl, hbuf]
    have hq' := (hsome f (by rw [hq]; exact Option.some_ne_none q)).2
    rw [hq'] at hq
    rw [show (closeFd w1 fd p).io = w1.io from rfl, hio.provided] at hprov
    exact h.roomy hprov f q hq
  exact hclosed.mono fun f hf => hd f (hsome f hf).1

theorem dueAfter_ne {fd : Fd} (h : fd ≠ cqe.fd) : dueAfter cqe fd = 1 := by
  simp only [dueAfter, h, false_and, if_false]

theorem calm_other {v : ℕ} {p : Slot} {due : Fd → ℕ} (hcalm : RecvCalm v p ctx ctx') (hu : u ≠ v)
    (h : RecvInv due (ctx.workers u)) :
    RecvInv due (ctx'.workers u) :=
  h.congr_rbuf (hcalm.fdMap u) (hcalm.io u) fun q => hcalm.rbuf u q (.inl hu)

theorem completion_inv {v : ℕ} (hothers : ∀ u, u ≠ v → RecvInv (fun _ => 1) (ctx.workers u))
    (hmine : RecvInv (dueAfter cqe) (ctx.workers v)) (hflags : RecvFlags (ctx.workers v) cqe)
    (hok : CompletionOk ctx v cqe) (u : ℕ) :
    RecvInv (fun _ => 1) ((handleRecvCqe ctx v cqe).1.workers u) := by
  obtain ⟨hans, harm⟩ := hok
  rw [handleRecvCqe_body]
  -- without a registered fd `SubmitRecv` does nothing
  have silent : (if validFd cqe.fd then ((recvBody ctx v cqe).1.workers v).fdMap cqe.fd else none) =
      none → (if (recvBody ctx v cqe).2 = true then
        (recvBody ctx v cqe).1.onWorker v fun w => submitRecv w cqe.fd
        else (recvBody ctx v cqe).1) = (recvBody ctx v cqe).1 := by
    intro hnone
    split
    · rw [Ctx.onWorker, submitRecv_unregistered hnone, setWorker_workers]
    · rfl
  cases hp : (if validFd cqe.fd then (ctx.workers v).fdMap cqe.fd else none) with
  | none =>
    obtain ⟨hcore, hio⟩ := recvBody_unregistered hp
    have hmap : ∀ u, ((recvBody ctx v cqe).1.workers u).fdMap = (ctx.workers u).fdMap :=
      fun u => (congrArg Worker.fdMap (Ctx.core_worker hcore u) :)
    rw [silent (by rwa [hmap v])]
    have hbuf : ∀ q, (((recvBody ctx v cqe).1.workers u).ht q).rbuf =
        ((ctx.workers u).ht q).rbuf := fun q =>
      (congrArg Peer.rbuf (Worker.core_peer (Ctx.core_worker hcore u) q) :)
    by_cases hu : u = v
    · subst hu
      apply (hmine.congr_rbuf (hmap u) (hio u) hbuf).mono
      intro fd hfd
      apply dueAfter_ne
      rintro rfl
      rw [hmap u] at hfd
      rw [if_pos (hmine.valid _ hfd)] at hp
      exact hfd hp
    · exact (hothers u hu).congr_rbuf (hmap u) (hio u) hbuf
  | some p =>
    have hvalid : validFd cqe.fd = true := by
      by_contra hno
      rw [if_neg hno] at hp
      cases hp
    have hmapped : (ctx.workers v).fdMap cqe.fd = some p := by
      rwa [if_pos hvalid] at hp
    rcases recvBody_ends hp hflags hmine.roomy (hans p hp) with
      ⟨ctx1, hcalm, hbufp, hr⟩ | ⟨hcalm, hrearm, hlen⟩
    · have hw : (recvBody ctx v cqe).1.workers v = closeFd (ctx1.workers v) cqe.fd p := by
        rw [hr, Ctx.onWorker, Ctx.setWorker_self]
      rw [silent]
      · by_cases hu : u = v
        · subst hu
          rw [hw]
          apply closeFd_inv hmine (fun f hf => dueAfter_ne hf) (hcalm.fdMap u) (hcalm.io u)
          intro q
          by_cases hq : q = p
          · rw [hq, hbufp]
          · exact hcalm.rbuf u q (.inr hq)
        · rw [hr, Ctx.onWorker, Ctx.setWorker_ne _ _ hu]
          exact calm_other hcalm hu (hothers u hu)
      · rw [hw, if_pos hvalid]
        exact Function.update_self ..
    · have hbase : RecvInv (dueAfter cqe) ((recvBody ctx v cqe).1.workers v) := by
        refine hmine.congr (fun fd _ => congrFun (hcalm.fdMap v) fd) (hcalm.io v) ?_
        intro hprov fd q hq
        rw [(hcalm.io v).provided] at hprov
        by_cases hqp : q = p
        · rw [hqp]
          exact hlen hprov
        · rw [hcalm.rbuf v q (.inr hqp)]
          rw [hcalm.fdMap v] at hq
          exact hmine.roomy hprov fd q hq
      have hreg : ((recvBody ctx v cqe).1.workers v).fdMap cqe.fd ≠ none := by
        rw [hcalm.fdMap v, hmapped]
        exact Option.some_ne_none p
      rw [hrearm]
      cases hmore : cqe.more with
      | true =>
        simp only [Bool.not_true, Bool.false_eq_true, if_false]
        by_cases hu : u = v
        · subst hu
          apply hbase.mono
          intro fd _
          simp [dueAfter, hmore]
        · exact calm_other hcalm hu (hothers u hu)
      | false =>
        simp only [Bool.not_false, if_true]
        by_cases hu : u = v
        · subst hu
          rw [Ctx.onWorker, Ctx.setWorker_self]
          have harms : ArmsOrDefers ((recvBody ctx u cqe).1.workers u) := by
            apply harm
            · rw [hrearm, hmore]
              rfl
            · exact Option.isSome_iff_ne_none.mpr hreg
          apply (hbase.submitRecv hreg harms).mono
          intro fd _
          unfold dueAfter
          by_cases hf : fd = cqe.fd <;> simp [hf, hmore]
        · rw [Ctx.onWorker, Ctx.setWorker_ne _ _ hu]
          exact calm_other hcalm hu (hothers u hu)

/-! ### The rest of the loop -/

theorem setWorker_inv (h : ∀ v, RecvInv (fun _ => 1) (ctx.workers v)) (hw : RecvInv (fun _ => 1) w)
    (v : ℕ) :
    RecvInv (fun _ => 1) ((ctx.setWorker u w).workers v) := by
  by_cases hv : v = u
  · rw [hv, Ctx.setWorker_self]
    exact hw
  · rw [Ctx.setWorker_ne ctx w hv]
    exact h v

theorem kept_inv (h : ∀ v, RecvInv (fun _ => 1) (ctx.workers v)) (hk : RecvKept (ctx.workers u) w)
    (v : ℕ) :
    RecvInv (fun _ => 1) ((ctx.setWorker u w).workers v) :=
  setWorker_inv h ((h u).kept hk) v

theorem same_inv {w' : Worker} (h : RecvInv (fun _ => 1) w) (hmap : w'.fdMap = w.fdMap)
    (hio : w'.io = w.io) (hbuf : ∀ q, (w'.ht q).rbuf = (w.ht q).rbuf) :
    RecvInv (fun _ => 1) w' := by
  apply h.congr_rbuf hmap _ hbuf
  rw [hio]
  exact .refl _

theorem update_inv (h : ∀ v, RecvInv (fun _ => 1) (ctx.workers v))
    (hmap : w.fdMap = (ctx.workers u).fdMap) (hio : w.io = (ctx.workers u).io)
    (hbuf : ∀ q, (w.ht q).rbuf = ((ctx.workers u).ht q).rbuf) (v : ℕ) :
    RecvInv (fun _ => 1) ((ctx.setWorker u w).workers v) :=
  setWorker_inv h (same_inv (h u) hmap hio hbuf) v

theorem added_inv {base : Worker} {fd : Fd} {p : Slot} {peer : Peer} (h : RecvInv (fun _ => 1) w)
    (hv : validFd fd = true) (hnone : w.io.awaiting fd = 0)
    (hht : base.ht = Function.update w.ht p peer) (hbuf : peer.rbuf = [])
    (hmap : base.fdMap = Function.update w.fdMap fd (some p)) (hio : base.io = w.io) :
    RecvInv (fun f => if f = fd then 0 else 1) base := by
  have hold : ∀ f, f ≠ fd → base.fdMap f = w.fdMap f := by
    intro f hf
    rw [hmap, Function.update_of_ne hf]
  constructor
  · intro f hf
    by_cases hfd : f = fd
    · rwa [hfd]
    · rw [hold f hfd] at hf
      exact h.valid f hf
  · rw [hio]
    exact h.ring
  · intro hprov f q hq
    rw [hio] at hprov
    rw [hht]
    by_cases hqp : q = p
    · rw [hqp, Function.update_self, hbuf]
      decide
    · rw [Function.update_of_ne hqp]
      have hfd : f ≠ fd := by
        rintro rfl
        rw [hmap, Function.update_self, Option.some.injEq] at hq
        exact hqp hq.symm
      rw [hold f hfd] at hq
      exact h.roomy hprov f q hq
  · intro f hf
    rw [hio]
    by_cases hfd : f = fd
    · rw [if_pos hfd, hfd, hnone]
    · rw [if_neg hfd]
      rw [hold f hfd] at hf
      exact h.awaits f hf

theorem add_inv (h : Inv ctx) (fd : Fd) (key : Key) (protocol : PeerProtocol) (peerId : ℕ)
    (hok : AddOk ctx wid fd key) (v : ℕ) :
    RecvInv (fun _ => 1) ((processCmdAdd ctx wid fd key protocol peerId).workers v) := by
  have hinv : ∀ v, RecvInv (fun _ => 1) (ctx.workers v) := fun v => (h v).2
  rcases processCmdAdd_spec (h wid).1 fd key protocol peerId with ⟨ao, heq⟩ | ⟨p, hv, -, hp, -⟩
  · rw [heq]
    exact update_inv hinv (by rfl) (by rfl) (fun _ => by rfl) v
  · obtain ⟨hnone, harm⟩ := hok hv (by rw [hp]; rfl)
    by_cases hvw : v = wid
    · subst hvw
      obtain ⟨isUnix, ok, ao, routes, hw⟩ := processCmdAdd_submits (h v).1 hv hp protocol peerId
      rw [hw]
      generalize hbase : ({ ctx.workers v with
        ht := Function.update (ctx.workers v).ht p
          (addedPeer ((ctx.workers v).ht p) fd key protocol peerId isUnix)
        fdMap := Function.update (ctx.workers v).fdMap fd (some p)
        fdGen := Function.update (ctx.workers v).fdGen fd
          (((ctx.workers v).fdGen fd + 1) % 2 ^ 32)
        peerCount := (ctx.workers v).peerCount + 1
        peerIdMap := idsAfterAdd (ctx.workers v) ok protocol peerId p
        allocOracle := ao, routes := routes } : Worker) = base
      have hadded : RecvInv (fun f => if f = fd then 0 else 1) base := by
        rw [← hbase]
        exact added_inv (hinv v) hv hnone rfl rfl rfl rfl
      have hmapped : base.fdMap fd ≠ none := by
        rw [← hbase]
        dsimp only
        rw [Function.update_self]
        exact Option.some_ne_none p
      have harms : ArmsOrDefers base := by
        rw [← hbase]
        exact harm
      apply (hadded.submitRecv hmapped harms).mono
      intro f _
      by_cases hf : f = fd <;> simp [hf]
    · rcases processCmdAdd_record (h wid).1 fd key protocol peerId with
        ⟨ao, heq⟩ | ⟨-, -, -, -, hothers⟩
      · rw [heq, Ctx.setWorker_ne _ _ hvw]
        exact hinv v
      · obtain ⟨routes, hr⟩ := hothers v hvw
        rw [hr]
        exact same_inv (hinv v) rfl rfl fun _ => rfl

theorem remove_inv (h : ∀ v, RecvInv (fun _ => 1) (ctx.workers v)) (key : Key) (v : ℕ) :
    RecvInv (fun _ => 1) ((processCmdRemove ctx wid key).1.workers v) := by
  cases hp : htLookup (ctx.workers wid) key with
  | none =>
    rw [processCmdRemove_none hp]
    exact h v
  | some p =>
    rw [processCmdRemove_workers hp]
    by_cases hv : v = wid
    · subst hv
      simp only [if_true]
      exact same_inv ((h v).remove hp) rfl rfl fun _ => rfl
    · simp only [if_neg hv]
      exact same_inv (h v) rfl rfl fun _ => rfl

theorem moveOut_inv (h : ∀ v, RecvInv (fun _ => 1) (ctx.workers v)) (key : Key) (v : ℕ) :
    RecvInv (fun _ => 1) ((movePeerOut ctx wid key).workers v) := by
  cases hp : htLookup (ctx.workers wid) key with
  | none =>
    unfold movePeerOut
    simp only [hp]
    exact h v
  | some p =>
    unfold movePeerOut
    simp only [hp]
    apply setWorker_inv h
    have hrem := (h wid).remove hp
    rw [removePeerAt] at hrem
    exact same_inv hrem rfl rfl fun _ => rfl

theorem setFwdRule_inv (h : ∀ v, RecvInv (fun _ => 1) (ctx.workers v)) (key dstKey : Key) (v : ℕ) :
    RecvInv (fun _ => 1) ((setFwdRule ctx wid key dstKey).workers v) := by
  unfold setFwdRule
  dsimp only
  split
  · exact h v
  · next p _ =>
    split
    · exact h v
    · obtain ⟨a, b, c, d, e, heq⟩ := addRule_same (ctx.workers wid) p dstKey
      rw [heq]
      apply update_inv h
      · rfl
      · rfl
      intro q
      by_cases hq : q = p <;> simp [Worker.setPeer, hq]

theorem cmd_inv (h : Inv ctx) (c : Cmd) (hok : stepOk ctx (.loop (.cmd wid c))) (v : ℕ) :
    RecvInv (fun _ => 1) ((processCmd ctx wid c).1.workers v) := by
  have hinv : ∀ v, RecvInv (fun _ => 1) (ctx.workers v) := fun v => (h v).2
  cases c with
  | addPeer fd key protocol peerId => exact add_inv h fd key protocol peerId hok v
  | removePeer key => exact remove_inv hinv key v
  | write key data =>
    rw [processCmd, processCmdWrite]
    split
    · exact hinv v
    · next p _ =>
      apply kept_inv hinv
      unfold allocEnqueue
      have ha := RecvKept.alloc (ctx.workers wid)
      dsimp only
      split
      · next heq =>
        rw [heq] at ha
        exact ha
      · next heq =>
        rw [heq] at ha
        exact ha.trans (.enqueueSend _ p data)
  | setFwdRule key dstKey => exact setFwdRule_inv hinv key dstKey v
  | movePeerOut key => exact moveOut_inv hinv key v
  | stop => exact update_inv hinv (by rfl) (by rfl) (fun _ => by rfl) v

theorem loop_inv {l : LoopStep} (h : Inv ctx) (hout : l.outside = true) (hok : stepOk ctx (.loop l))
    (hs : loopStep ctx l = some ctx') (v : ℕ) :
    RecvInv (fun _ => 1) (ctx'.workers v) := by
  have hinv : ∀ v, RecvInv (fun _ => 1) (ctx.workers v) := fun v => (h v).2
  cases l with
  | enqueue u q data =>
    cases hs
    exact kept_inv hinv (.enqueueSend _ q data) v
  | push u dst x =>
    cases hs
    have hc := Ctx.core_worker (xferSpscPush_core ctx u dst x) v
    apply same_inv (hinv v)
    · exact (congrArg Worker.fdMap hc :)
    · exact xferSpscPush_io ctx u dst x v
    · exact fun q => (congrArg Peer.rbuf (Worker.core_peer hc q) :)
  | take u src =>
    cases hs
    exact update_inv hinv (by rfl) (by rfl) (fun _ => by rfl) v
  | collect u =>
    cases hs
    exact update_inv hinv (by rfl) (by rfl) (fun _ => by rfl) v
  | rules u p a b c d =>
    cases hs
    apply update_inv hinv
    · rfl
    · rfl
    intro q
    by_cases hq : q = p <;> simp [Worker.setPeer, hq]
  | account u a b c =>
    cases hs
    exact update_inv hinv (by rfl) (by rfl) (fun _ => by rfl) v
  | complete u cqe =>
    cases hs
    exact kept_inv hinv (.handleSendCqe _ cqe) v
  | pollWrite u fd =>
    cases hs
    exact kept_inv hinv (.handlePollWrite _ fd) v
  | flush u =>
    cases hs
    exact kept_inv hinv (.flushPendingSends _) v
  | cmd u c =>
    cases hs
    exact cmd_inv h c hok v
  | eof u fd => cases hout
  | receive u q rbuf window start inflight multishot => cases hout
  | rearm u fd => cases hout
  | deferred u =>
    cases hs
    exact kept_inv hinv (.drainDeferredRecvs _) v

theorem endRecv_core (w : Worker) (cqe : RecvCqe) : (endRecv w cqe).core = w.core := by
  unfold endRecv
  split <;> rfl

theorem endRecv_flags (h : RecvFlags w cqe) :
    RecvFlags (endRecv w cqe) cqe := by
  have hio : (endRecv w cqe).io.useProvidedBufs = w.io.useProvidedBufs := by
    unfold endRecv
    split <;> rfl
  constructor
  · rw [hio]
    exact h.buffer
  · exact h.more

theorem loopRun_tableOk (h : ∀ v, TableOk (ctx.workers v)) (hr : LoopRun ctx ctx') :
    ∀ v, TableOk (ctx'.workers v) := by
  induction hr with
  | refl => exact h
  | tail _ hs ih =>
    obtain ⟨l, hl⟩ := hs
    exact loopStep_tableOk ih hl

theorem inv_step {l : RecvLabel} (h : Inv ctx) (hok : stepOk ctx l) (hs : step ctx l = some ctx') :
    Inv ctx' := by
  cases l with
  | completion v cqe =>
    simp only [step, Option.ite_none_right_eq_some, Option.some.injEq] at hs
    obtain ⟨⟨hmem, hflags⟩, rfl⟩ := hs
    have hself : (ctx.onWorker v fun w => endRecv w cqe).workers v = endRecv (ctx.workers v) cqe := by
      rw [Ctx.onWorker, Ctx.setWorker_self]
    have hother : ∀ u, u ≠ v →
        (ctx.onWorker v fun w => endRecv w cqe).workers u = ctx.workers u := fun u hu => by
      rw [Ctx.onWorker, Ctx.setWorker_ne _ _ hu]
    intro u
    constructor
    · apply loopRun_tableOk _ (LoopRun.handleRecvCqe _ v cqe)
      intro u
      by_cases hu : u = v
      · rw [hu, hself]
        exact (h v).1.of_core (endRecv_core _ cqe)
      · rw [hother u hu]
        exact (h u).1
    · apply completion_inv
      · intro u hu
        rw [hother u hu]
        exact (h u).2
      · rw [hself]
        exact endRecv_inv (h v).2 hmem
      · rw [hself]
        exact endRecv_flags hflags
      · exact hok
  | loop l =>
    simp only [step, Option.ite_none_right_eq_some] at hs
    obtain ⟨hout, hs⟩ := hs
    exact fun v => ⟨loopStep_tableOk (fun u => (h u).1) hs v, loop_inv h hout hok hs v⟩

/-- Every registered fd has one receive, in the kernel or in the deferred ring. -/
def OneReceive (ctx : Ctx) : Prop :=
  ∀ v fd, (ctx.workers v).fdMap fd ≠ none →
    (ctx.workers v).io.recvs.count fd + (ctx.workers v).io.recvDefer.count fd = 1

theorem one_receive_per_fd {ctx : Ctx} (h : Runs.Reach Init step stepOk ctx) : OneReceive ctx := by
  have hinv : Inv ctx := h.invariant (fun _ h0 => inv_init h0) fun _ _ _ hs hok hstep =>
    inv_step hs hok hstep
  exact fun v fd hm => (hinv v).2.awaits fd hm

theorem twoWorkers_start : Init twoWorkers := fun _ => ⟨fun _ => rfl, fun _ => rfl, rfl, rfl⟩

/-- A peer is added on fd 3 and its receive ends with `res`. -/
def addThenEnd (res : ℤ) : List RecvLabel :=
  [.loop (.cmd 0 (.addPeer 3 (byteKey 1) .kDerp 0)),
    .completion 0 { fd := 3, res := res, hasBuffer := false }]

def receivesOf (v : ℕ) (fd : Fd) (ctx : Ctx) : Bool × ℕ × ℕ :=
  (((ctx.workers v).fdMap fd).isSome, (ctx.workers v).io.recvs.count fd,
    (ctx.workers v).io.recvDefer.count fd)

/-- With provided buffers, a receive that ends with `-ETIMEDOUT` is the last one. -/
theorem timed_out_fd_is_not_read :
    ¬∀ ctx, Runs.Reach Init step Runs.Any ctx → OneReceive ctx := by
  intro hall
  have hrun : (Runs.run step twoWorkers (addThenEnd (-110))).map (receivesOf 0 3) =
      some (true, 0, 0) := by decide
  obtain ⟨ctx, hctx, hval⟩ := Option.map_eq_some_iff.mp hrun
  simp only [receivesOf, Prod.mk.injEq] at hval
  obtain ⟨hreg, hrecvs, hdefer⟩ := hval
  have hone := hall ctx (Runs.reach_of_run twoWorkers_start hctx) 0 3
    (Option.isSome_iff_ne_none.mp hreg)
  omega

/-- With provided buffers, a receive that ends with `-ENOBUFS` is armed again. -/
theorem one_receive_per_fd_retry :
    ∃ ctx, receivesOf 0 3 ctx = (true, 1, 0) ∧ OneReceive ctx := by
  have hrun : (Runs.run step twoWorkers (addThenEnd (-105))).map (receivesOf 0 3) =
      some (true, 1, 0) := by decide
  obtain ⟨ctx, hctx, hval⟩ := Option.map_eq_some_iff.mp hrun
  have hok : Runs.RunOk step stepOk twoWorkers (addThenEnd (-105)) := by
    refine ⟨fun _ _ => ⟨by decide, by decide⟩, fun ctx1 hctx1 => ⟨?_, fun _ _ => trivial⟩⟩
    simp only [step, LoopStep.outside, if_true, loopStep, Option.some.injEq] at hctx1
    subst hctx1
    refine ⟨fun p _ => .inr (.inr (.inl ⟨by decide, .inl rfl⟩)), fun _ _ => ?_⟩
    decide
  exact ⟨ctx, hval, one_receive_per_fd (Runs.reach_run (.start _ twoWorkers_start) hok hctx)⟩

end Receives

end HyperDerp
