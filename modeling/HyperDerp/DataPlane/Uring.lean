import HyperDerp.DataPlane.Types

/-!
# Submission entries and receive flow control (`data_plane.cc:734-900`)

The helpers that take a submission entry. Each of them changes the `io` part of
the worker only, which is how they are written, so that everything else a later
proof needs about them holds by definition.
-/

namespace HyperDerp

/-- One `io_uring_get_sqe` call: the next outcome of the oracle. -/
def uringGetSqe (io : Io) : Bool × Io :=
  match io.sqeOracle with
  | [] => (true, io)
  | b :: rest => (b, { io with sqeOracle := rest })

/-- `GetSqe` (`data_plane.cc:738-751`): retry once after a flush. -/
def getSqe (io : Io) : Bool × Io :=
  match uringGetSqe io with
  | (true, io) => (true, io)
  | (false, io) =>
    match uringGetSqe io with
    | (true, io) => (true, io)
    | (false, io) => (false, { io with sqOverflow := io.sqOverflow + 1 })

/-- Take an entry and fill it in; `false` when there was none to take. -/
def prepSqe (io : Io) (sqe : Sqe) : Bool × Io :=
  match getSqe io with
  | (true, io) => (true, { io with sqes := io.sqes ++ [sqe] })
  | (false, io) => (false, io)

/-- `DeferRecv` (`data_plane.cc:770-778`); a full ring drops the request. -/
def deferRecv (io : Io) (fd : Fd) : Io :=
  if io.recvDefer.length + 1 = kRecvDeferSize then io
  else { io with recvDefer := io.recvDefer ++ [fd] }

/-- `SubmitRecvNow` (`data_plane.cc:780-811`). Without provided buffers and
without space the entry is taken and returned to nobody. -/
def submitRecvNow (w : Worker) (fd : Fd) : Worker :=
  { w with io :=
      if !validFd fd then w.io
      else
        match w.fdMap fd with
        | none => w.io
        | some p =>
          match getSqe w.io with
          | (false, io) => deferRecv io fd
          | (true, io) =>
            if io.useProvidedBufs then
              { io with
                sqes := io.sqes ++ [.recv fd none]
                recvInflight := io.recvInflight + 1 }
            else
              let rbufLen := (w.ht p).rbuf.length
              if kReadBufSize ≤ rbufLen then
                { io with sqes := io.sqes ++ [.unprepared] }
              else
                { io with
                  sqes := io.sqes ++ [.recv fd (some (kReadBufSize - rbufLen))]
                  recvInflight := io.recvInflight + 1 } }

/-- `SubmitRecv` (`data_plane.cc:813-822`). -/
def submitRecv (w : Worker) (fd : Fd) : Worker :=
  if !validFd fd || (w.fdMap fd).isNone then w
  else if kRecvBudget ≤ w.io.recvInflight || w.io.recvPaused then
    { w with io := deferRecv w.io fd }
  else submitRecvNow w fd

/-- The loop of `DrainDeferredRecvs`, at most `n` turns. -/
def drainDeferredRecvsN : ℕ → Worker → Worker
  | 0, w => w
  | n + 1, w =>
    match w.io.recvDefer with
    | [] => w
    | fd :: rest =>
      if w.io.recvInflight < kRecvBudget && !w.io.recvPaused then
        drainDeferredRecvsN n (submitRecvNow { w with io := { w.io with recvDefer := rest } } fd)
      else w

/-- `DrainDeferredRecvs` (`data_plane.cc:824-835`). A turn that defers its fd
again has used up a failed `io_uring_get_sqe`, so this many turns are enough. -/
def drainDeferredRecvs (w : Worker) : Worker :=
  drainDeferredRecvsN (w.io.recvDefer.length + w.io.sqeOracle.length) w

/-- `SubmitSend` and `SubmitSendZc` (`data_plane.cc:837-869`): they differ in
the opcode. -/
def submitSend (w : Worker) (fd : Fd) (item : SendItem) (more zc : Bool) : Bool × Worker :=
  let r := prepSqe w.io (.send fd item.id item.data more zc)
  (r.1, { w with io := r.2 })

/-- `SubmitPeerSend` (`data_plane.cc:891-900`). -/
def submitPeerSend (w : Worker) (p : Slot) (item : SendItem) (more : Bool) : Bool × Worker :=
  let peer := w.ht p
  if peer.send.noZc || item.data.length ≤ kZcThreshold then
    submitSend w peer.fd item more false
  else submitSend w peer.fd item more true

/-! ### What these functions leave alone -/

/-- `w'` is `w` up to its `io` part. -/
def IoOnly (w w' : Worker) : Prop := ∃ io, w' = { w with io := io }

theorem IoOnly.refl (w : Worker) : IoOnly w w := ⟨w.io, rfl⟩

theorem IoOnly.trans {a b c : Worker} (h1 : IoOnly a b) (h2 : IoOnly b c) : IoOnly a c := by
  obtain ⟨io1, rfl⟩ := h1
  obtain ⟨io2, rfl⟩ := h2
  exact ⟨io2, rfl⟩

theorem submitRecvNow_io (w : Worker) (fd : Fd) : IoOnly w (submitRecvNow w fd) := ⟨_, rfl⟩

theorem submitRecv_io (w : Worker) (fd : Fd) : IoOnly w (submitRecv w fd) := by
  unfold submitRecv
  split
  · exact IoOnly.refl w
  · split
    · exact ⟨_, rfl⟩
    · exact submitRecvNow_io w fd

theorem drainDeferredRecvsN_io (n : ℕ) (w : Worker) : IoOnly w (drainDeferredRecvsN n w) := by
  induction n generalizing w with
  | zero => exact IoOnly.refl w
  | succ n ih =>
    simp only [drainDeferredRecvsN]
    split
    · exact IoOnly.refl w
    · split
      · exact IoOnly.trans ⟨_, rfl⟩ (IoOnly.trans (submitRecvNow_io _ _) (ih _))
      · exact IoOnly.refl w

theorem drainDeferredRecvs_io (w : Worker) : IoOnly w (drainDeferredRecvs w) :=
  drainDeferredRecvsN_io _ w

/-! ### Entries already prepared stay, and receive helpers prepare no send -/

/-- The sends prepared for `fd` that the kernel has not executed, oldest first. -/
def Io.sends (io : Io) (fd : Fd) : List SendItem :=
  io.sqes.filterMap fun
    | .send f id data _ _ => if f = fd then some ⟨id, data⟩ else none
    | _ => none

theorem uringGetSqe_eq (io : Io) : ∃ o, (uringGetSqe io).2 = { io with sqeOracle := o } := by
  unfold uringGetSqe
  split <;> exact ⟨_, rfl⟩

theorem getSqe_eq (io : Io) :
    ∃ o n, (getSqe io).2 = { io with sqeOracle := o, sqOverflow := n } := by
  obtain ⟨o1, h1⟩ := uringGetSqe_eq io
  obtain ⟨o2, h2⟩ := uringGetSqe_eq (uringGetSqe io).2
  unfold getSqe
  split
  · next heq =>
    rw [heq] at h1
    exact ⟨o1, io.sqOverflow, h1⟩
  · next io1 heq =>
    rw [heq] at h1 h2
    simp only at h1 h2
    split
    · next heq2 =>
      rw [heq2, h1] at h2
      exact ⟨o2, io.sqOverflow, h2⟩
    · next heq2 =>
      rw [heq2, h1] at h2
      simp only at h2
      exact ⟨o2, io.sqOverflow + 1, by rw [h2]⟩

theorem getSqe_sqes (io : Io) : (getSqe io).2.sqes = io.sqes := by
  obtain ⟨o, n, h⟩ := getSqe_eq io
  rw [h]

theorem prepSqe_sqes (io : Io) (sqe : Sqe) :
    (prepSqe io sqe).2.sqes = if (prepSqe io sqe).1 then io.sqes ++ [sqe] else io.sqes := by
  have h := getSqe_sqes io
  unfold prepSqe
  split
  · next heq =>
    rw [heq] at h
    simp only at h
    simp only [h, ite_true]
  · next heq => rw [heq] at h; exact h

theorem deferRecv_sqes (io : Io) (fd : Fd) : (deferRecv io fd).sqes = io.sqes := by
  unfold deferRecv
  split <;> rfl

theorem submitRecvNow_sends (w : Worker) (fd f : Fd) :
    (submitRecvNow w fd).io.sends f = w.io.sends f := by
  have h := getSqe_sqes w.io
  unfold submitRecvNow Io.sends
  simp only
  split
  · rfl
  · split
    · rfl
    · split
      · next heq => rw [heq] at h; rw [deferRecv_sqes, h]
      · next heq =>
        rw [heq] at h
        simp only at h
        split
        · simp [h]
        · split <;> simp [h]

theorem submitRecv_sends (w : Worker) (fd f : Fd) :
    (submitRecv w fd).io.sends f = w.io.sends f := by
  unfold submitRecv
  split
  · rfl
  · split
    · simp only [Io.sends, deferRecv_sqes]
    · exact submitRecvNow_sends w fd f

theorem drainDeferredRecvsN_sends (n : ℕ) (w : Worker) (f : Fd) :
    (drainDeferredRecvsN n w).io.sends f = w.io.sends f := by
  induction n generalizing w with
  | zero => rfl
  | succ n ih =>
    simp only [drainDeferredRecvsN]
    split
    · rfl
    · split
      · rw [ih, submitRecvNow_sends]
        rfl
      · rfl

theorem drainDeferredRecvs_sends (w : Worker) (f : Fd) :
    (drainDeferredRecvs w).io.sends f = w.io.sends f :=
  drainDeferredRecvsN_sends _ w f

theorem submitSend_cases (w : Worker) (fd : Fd) (item : SendItem) (more zc : Bool) :
    ∃ ok io, submitSend w fd item more zc = (ok, { w with io := io }) ∧
      ∀ f, io.sends f = w.io.sends f ++ (if ok ∧ fd = f then [item] else []) := by
  have h := prepSqe_sqes w.io (.send fd item.id item.data more zc)
  refine ⟨(prepSqe w.io (.send fd item.id item.data more zc)).1,
    (prepSqe w.io (.send fd item.id item.data more zc)).2, rfl, fun f => ?_⟩
  generalize prepSqe w.io (.send fd item.id item.data more zc) = r at h
  obtain ⟨ok, io⟩ := r
  simp only at h ⊢
  cases ok with
  | false => simp [Io.sends, h]
  | true => by_cases hf : fd = f <;> simp [Io.sends, h, hf]

theorem submitPeerSend_cases (w : Worker) (p : Slot) (item : SendItem) (more : Bool) :
    ∃ ok io, submitPeerSend w p item more = (ok, { w with io := io }) ∧
      ∀ f, io.sends f = w.io.sends f ++ (if ok ∧ (w.ht p).fd = f then [item] else []) := by
  unfold submitPeerSend
  dsimp only
  split <;> exact submitSend_cases _ _ _ _ _

/-! ### Taking an entry leaves the receive pause alone -/

structure Io.SameFlow (io io' : Io) : Prop where
  paused : io'.recvPaused = io.recvPaused
  countdown : io'.recvPauseCountdown = io.recvPauseCountdown
  oracle : io.sqeOracle = [] → io'.sqeOracle = []

namespace Io.SameFlow

variable {io io' io'' : Io}

theorem refl (io : Io) : io.SameFlow io := ⟨rfl, rfl, id⟩

theorem trans (h1 : io.SameFlow io') (h2 : io'.SameFlow io'') : io.SameFlow io'' :=
  ⟨h2.paused.trans h1.paused, h2.countdown.trans h1.countdown, fun h => h2.oracle (h1.oracle h)⟩

theorem uringGetSqe (io : Io) : io.SameFlow (uringGetSqe io).2 := by
  unfold HyperDerp.uringGetSqe
  split
  · exact .refl io
  · next heq => exact ⟨rfl, rfl, fun h => by rw [h] at heq; cases heq⟩

theorem getSqe (io : Io) : io.SameFlow (getSqe io).2 := by
  have h1 := uringGetSqe io
  have h2 := uringGetSqe (HyperDerp.uringGetSqe io).2
  unfold HyperDerp.getSqe
  split
  · next heq => rw [heq] at h1; exact h1
  · next heq =>
    rw [heq] at h1 h2
    split
    · next heq2 => rw [heq2] at h2; exact h1.trans h2
    · next heq2 =>
      rw [heq2] at h2
      exact (h1.trans h2).trans ⟨rfl, rfl, id⟩

theorem prepSqe (io : Io) (sqe : Sqe) : io.SameFlow (prepSqe io sqe).2 := by
  have h := getSqe io
  unfold HyperDerp.prepSqe
  split
  · next heq => rw [heq] at h; exact h.trans ⟨rfl, rfl, id⟩
  · next heq => rw [heq] at h; exact h

theorem deferRecv (io : Io) (fd : Fd) : io.SameFlow (deferRecv io fd) := by
  unfold HyperDerp.deferRecv
  split
  · exact .refl io
  · exact ⟨rfl, rfl, id⟩

theorem submitRecvNow (w : Worker) (fd : Fd) : w.io.SameFlow (submitRecvNow w fd).io := by
  have h := getSqe w.io
  unfold HyperDerp.submitRecvNow
  dsimp only
  split
  · exact .refl _
  · split
    · exact .refl _
    · split
      · next heq => rw [heq] at h; exact h.trans (deferRecv _ fd)
      · next heq =>
        rw [heq] at h
        split
        · exact h.trans ⟨rfl, rfl, id⟩
        · split <;> exact h.trans ⟨rfl, rfl, id⟩

theorem submitRecv (w : Worker) (fd : Fd) : w.io.SameFlow (submitRecv w fd).io := by
  unfold HyperDerp.submitRecv
  split
  · exact .refl _
  · split
    · exact deferRecv _ fd
    · exact submitRecvNow w fd

theorem drainDeferredRecvsN (n : ℕ) (w : Worker) :
    w.io.SameFlow (drainDeferredRecvsN n w).io := by
  induction n generalizing w with
  | zero => exact .refl _
  | succ n ih =>
    simp only [HyperDerp.drainDeferredRecvsN]
    split
    · exact .refl _
    · next fd rest _ =>
      split
      · have h1 : w.io.SameFlow { w.io with recvDefer := rest } := ⟨rfl, rfl, id⟩
        have h2 := submitRecvNow { w with io := { w.io with recvDefer := rest } } fd
        exact (h1.trans h2).trans (ih _)
      · exact .refl _

theorem drainDeferredRecvs (w : Worker) : w.io.SameFlow (drainDeferredRecvs w).io :=
  drainDeferredRecvsN _ w

theorem submitPeerSend (w : Worker) (p : Slot) (item : SendItem) (more : Bool) :
    w.io.SameFlow (submitPeerSend w p item more).2.io := by
  unfold HyperDerp.submitPeerSend submitSend
  dsimp only
  split <;> exact prepSqe _ _

end Io.SameFlow

theorem getSqe_of_oracle {io : Io} (h : io.sqeOracle = []) : (getSqe io).1 = true := by
  simp only [getSqe, uringGetSqe, h]

/-! ### The deferred-receive loop runs to its end -/

theorem uringGetSqe_oracle (io : Io) :
    (uringGetSqe io).2.sqeOracle.length ≤ io.sqeOracle.length ∧
    ((uringGetSqe io).1 = false →
      (uringGetSqe io).2.sqeOracle.length < io.sqeOracle.length) := by
  unfold uringGetSqe
  split <;> simp_all

theorem getSqe_oracle (io : Io) :
    (getSqe io).2.sqeOracle.length ≤ io.sqeOracle.length ∧
    ((getSqe io).1 = false → (getSqe io).2.sqeOracle.length < io.sqeOracle.length) := by
  have h1 := uringGetSqe_oracle io
  have h2 := uringGetSqe_oracle (uringGetSqe io).2
  unfold getSqe
  split
  · next heq => rw [heq] at h1; exact ⟨h1.1, by simp⟩
  · next heq =>
    rw [heq] at h1 h2
    have h3 := h1.2 rfl
    simp only at h2 h3
    split
    · next heq2 =>
      rw [heq2] at h2
      simp only at h2 ⊢
      exact ⟨by omega, by simp⟩
    · next heq2 =>
      rw [heq2] at h2
      simp only at h2 ⊢
      exact ⟨by omega, fun _ => by omega⟩

theorem getSqe_recv (io : Io) :
    (getSqe io).2.recvDefer = io.recvDefer ∧ (getSqe io).2.recvInflight = io.recvInflight ∧
    (getSqe io).2.recvPaused = io.recvPaused := by
  obtain ⟨o, n, h⟩ := getSqe_eq io
  rw [h]
  exact ⟨rfl, rfl, rfl⟩

def Io.drainMeasure (io : Io) : ℕ := io.recvDefer.length + io.sqeOracle.length

theorem submitRecvNow_measure (w : Worker) (fd : Fd) :
    (submitRecvNow w fd).io.drainMeasure ≤ w.io.drainMeasure := by
  obtain ⟨hle, hlt⟩ := getSqe_oracle w.io
  obtain ⟨hd, -, -⟩ := getSqe_recv w.io
  unfold submitRecvNow Io.drainMeasure
  simp only
  split
  · omega
  · split
    · omega
    · split
      · next io heq =>
        rw [heq] at hle hlt hd
        have hlt := hlt rfl
        simp only at hd hlt
        unfold deferRecv
        split
        · rw [hd]
          omega
        · simp only [List.length_append, List.length_cons, List.length_nil, hd]
          omega
      · next io heq =>
        rw [heq] at hle hd
        simp only at hle hd
        split
        · simp only [hd]
          omega
        · split <;> · simp only [hd]; omega

theorem drainDeferredRecvs_done (w : Worker) :
    (drainDeferredRecvs w).io.recvDefer = [] ∨
    kRecvBudget ≤ (drainDeferredRecvs w).io.recvInflight ∨
    (drainDeferredRecvs w).io.recvPaused = true := by
  have key : ∀ n (w : Worker), w.io.drainMeasure ≤ n →
      (drainDeferredRecvsN n w).io.recvDefer = [] ∨
      kRecvBudget ≤ (drainDeferredRecvsN n w).io.recvInflight ∨
      (drainDeferredRecvsN n w).io.recvPaused = true := by
    intro n
    induction n with
    | zero =>
      intro w hw
      unfold Io.drainMeasure at hw
      exact .inl (List.length_eq_zero_iff.mp (by simp only [drainDeferredRecvsN]; omega))
    | succ n ih =>
      intro w hw
      simp only [drainDeferredRecvsN]
      split
      · next heq => exact .inl heq
      · next fd rest heq =>
        split
        · apply ih
          refine Nat.le_trans (submitRecvNow_measure _ fd) ?_
          unfold Io.drainMeasure at hw ⊢
          simp only [heq, List.length_cons] at hw ⊢
          omega
        · next hcond =>
          refine .inr ?_
          by_cases hp : w.io.recvPaused = true
          · exact .inr hp
          · refine .inl ?_
            simp only [Bool.not_eq_true] at hp
            simp only [hp, Bool.not_false, Bool.and_true, decide_eq_true_eq] at hcond
            omega
  exact key _ w (Nat.le_refl _)

end HyperDerp
