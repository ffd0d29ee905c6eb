import HyperDerp.DataPlane.Recv
import HyperDerp.Lib.Runs

/-!
# Where framing is lost (`data_plane.cc:1586-1762`)

Two things can come between the bytes of a connection and its frames: the rate limiter
drops whole buffers, wherever frames begin and end, and after an invalid length the
provided-buffer handler parses what still arrives afresh. The frames are right as long as
what is dropped is whole frames and nothing is parsed after an invalid length.
-/

namespace HyperDerp

/-! ### Frames dispatched by a completion -/

instance (fd : Fd) (c : RecvCqe) : Decidable (DataOn fd c) :=
  inferInstanceAs (Decidable (_ ∧ _))

def recvStream (ctx : Ctx) (wid : ℕ) (p : Slot) (cqe : RecvCqe) : Bytes :=
  ((ctx.workers wid).ht p).rbuf ++ cqe.buf

/-- The stream of the completion starts with a whole frame of valid length. -/
def StartsFrame (proto : PeerProtocol) (s : Bytes) : Prop :=
  isValidPeerPayloadLen proto (readPeerPayloadLen proto s) = true ∧ (frameFormat proto).Complete s

section

variable {ctx : Ctx} {wid : ℕ} {fd : Fd} {p : Slot} {proto : PeerProtocol} {limit : ℕ}

def Parsing (wid : ℕ) (fd : Fd) (p : Slot) (proto : PeerProtocol) (limit : ℕ) (ctx : Ctx) : Prop :=
  ∃ rbuf, Attached ctx wid fd p proto limit rbuf ∧ Partial proto rbuf

theorem kept_tail (s : Bytes) :
    Partial proto (if (frameScan proto s).stopped then [] else (frameScan proto s).rest) := by
  split
  · exact Framing.pending_nil _ _
  · next h => exact Framing.scan_rest _ _ _ (Bool.not_eq_true _ ▸ h)

theorem handleRecvProvided_parsing (h : Parsing wid fd p proto limit ctx) {c : RecvCqe}
    (hc : DataOn fd c) : Parsing wid fd p proto limit (handleRecvProvided ctx wid c).1 := by
  obtain ⟨rbuf, hatt, hpart⟩ := h
  obtain ⟨hfd, hres, hne⟩ := hc
  by_cases hdrop : Limited ctx wid p c
  · have hpos : 0 < c.res := by
      have hlen := List.length_pos_iff.2 hne
      omega
    exact ⟨rbuf, (handleRecvProvided_limited hatt hfd hpos hdrop).2, hpart⟩
  · exact ⟨_, (handleRecvProvided_scan hatt hpart hfd hres hne hdrop).2, kept_tail _⟩

theorem handleRecvProvided_dispatches (h : Parsing wid fd p proto limit ctx) {c : RecvCqe}
    (hc : DataOn fd c) : (handleRecvProvided ctx wid c).2 ≠ [] ↔
      ¬Limited ctx wid p c ∧ StartsFrame proto (recvStream ctx wid p c) := by
  obtain ⟨rbuf, hatt, hpart⟩ := h
  obtain ⟨hfd, hres, hne⟩ := hc
  by_cases hdrop : Limited ctx wid p c
  · have hpos : 0 < c.res := by
      have hlen := List.length_pos_iff.2 hne
      omega
    rw [(handleRecvProvided_limited hatt hfd hpos hdrop).1]
    exact ⟨fun h => (h rfl).elim, fun h => (h.1 hdrop).elim⟩
  · rw [(handleRecvProvided_scan hatt hpart hfd hres hne hdrop).1, Framing.scan_frames_ne_nil]
    unfold recvStream
    rw [hatt.rbuf_eq]
    exact ⟨fun h => ⟨hdrop, h⟩, And.right⟩

theorem feed_cons (handle : Ctx → RecvCqe → Ctx × List Bytes) (ctx : Ctx) (c : RecvCqe)
    (cs : List RecvCqe) : feed handle ctx (c :: cs) =
      ((feed handle (handle ctx c).1 cs).1, (handle ctx c).2 ++ (feed handle (handle ctx c).1 cs).2) :=
  rfl

theorem feed_append (handle : Ctx → RecvCqe → Ctx × List Bytes) (ctx : Ctx) (as bs : List RecvCqe) :
    feed handle ctx (as ++ bs) =
      ((feed handle (feed handle ctx as).1 bs).1,
        (feed handle ctx as).2 ++ (feed handle (feed handle ctx as).1 bs).2) := by
  induction as generalizing ctx with
  | nil => rfl
  | cons c as ih =>
    rw [List.cons_append, feed_cons, ih, feed_cons]
    simp only [List.append_assoc]

theorem feed_nil_iff (handle : Ctx → RecvCqe → Ctx × List Bytes) (ctx : Ctx) (cs : List RecvCqe) :
    (feed handle ctx cs).2 = [] ↔
      ∀ mid d post, cs = mid ++ d :: post → (handle (feed handle ctx mid).1 d).2 = [] := by
  induction cs generalizing ctx with
  | nil =>
    refine ⟨fun _ mid d post h => ?_, fun _ => rfl⟩
    exact absurd h.symm (List.append_ne_nil_of_right_ne_nil _ (List.cons_ne_nil _ _))
  | cons c cs ih =>
    rw [feed_cons, List.append_eq_nil_iff, ih]
    constructor
    · intro ⟨h1, h2⟩ mid d post heq
      cases mid with
      | nil =>
        cases heq
        exact h1
      | cons m mid =>
        cases heq
        exact h2 mid d post rfl
    · intro h
      exact ⟨h [] c cs rfl, fun mid d post heq => h (c :: mid) d post (by rw [heq]; rfl)⟩

theorem feed_parsing (h : Parsing wid fd p proto limit ctx) {cs : List RecvCqe}
    (hcs : ∀ c ∈ cs, DataOn fd c) :
    Parsing wid fd p proto limit (feed (fun ctx c => handleRecvProvided ctx wid c) ctx cs).1 := by
  induction cs generalizing ctx with
  | nil => exact h
  | cons c cs ih =>
    exact ih (handleRecvProvided_parsing h (hcs c (List.mem_cons_self ..)))
      fun d hd => hcs d (List.mem_cons_of_mem _ hd)

end

/-! ### After an invalid length -/

/-- The handler meets a header with an invalid length: one in front of which there are only
whole frames. -/
def MeetsInvalid (proto : PeerProtocol) (s : Bytes) : Prop := (frameScan proto s).stopped = true

instance (proto : PeerProtocol) (s : Bytes) : Decidable (MeetsInvalid proto s) :=
  inferInstanceAs (Decidable (_ = _))

/-- After an invalid length `handle` dispatches no frame of the completions that follow. -/
def EndsConnection (handle : Ctx → RecvCqe → Ctx × List Bytes) (wid : ℕ) (p : Slot)
    (proto : PeerProtocol) (reads : Ctx → RecvCqe → Prop) (ctx : Ctx) (cs : List RecvCqe) : Prop :=
  ∀ pre c post, cs = pre ++ c :: post → reads (feed handle ctx pre).1 c →
    MeetsInvalid proto (recvStream (feed handle ctx pre).1 wid p c) →
    (feed handle (feed handle ctx (pre ++ [c])).1 post).2 = []

/-- A completion of `HandleRecvProvided` is read unless the rate limiter drops it. -/
def ProvidedEnds (wid : ℕ) (p : Slot) (proto : PeerProtocol) (ctx : Ctx) (cs : List RecvCqe) :
    Prop :=
  EndsConnection (fun ctx c => handleRecvProvided ctx wid c) wid p proto
    (fun ctx c => ¬Limited ctx wid p c) ctx cs

def SingleEnds (wid : ℕ) (p : Slot) (proto : PeerProtocol) (ctx : Ctx) (cs : List RecvCqe) : Prop :=
  EndsConnection (fun ctx c => handleRecvSingle ctx wid c) wid p proto (fun _ _ => True) ctx cs

/-- No completion after an invalid length starts, with what is buffered since, a whole frame. -/
def NothingStarts (wid : ℕ) (p : Slot) (proto : PeerProtocol) (ctx : Ctx) (cs : List RecvCqe) :
    Prop :=
  let after := fun pre => (feed (fun ctx c => handleRecvProvided ctx wid c) ctx pre).1
  ∀ pre c mid d post, cs = pre ++ c :: (mid ++ d :: post) → ¬Limited (after pre) wid p c →
    MeetsInvalid proto (recvStream (after pre) wid p c) →
    Limited (after (pre ++ c :: mid)) wid p d ∨
      ¬StartsFrame proto (recvStream (after (pre ++ c :: mid)) wid p d)

section

variable {ctx : Ctx} {wid : ℕ} {fd : Fd} {p : Slot} {proto : PeerProtocol} {limit : ℕ}
  {rbuf : Bytes}

theorem feedSingle_stuck (h : Attached ctx wid fd p proto limit rbuf)
    (hbad : (frameFormat proto).hdr ≤ rbuf.length ∧
      isValidPeerPayloadLen proto ((frameFormat proto).len rbuf) = false)
    {cs : List RecvCqe} (hcs : ∀ c ∈ cs, DataOn fd c) :
    (feed (fun ctx c => handleRecvSingle ctx wid c) ctx cs).2 = [] := by
  induction cs generalizing ctx rbuf with
  | nil => rfl
  | cons c cs ih =>
    obtain ⟨hfd, hres, hne⟩ := hcs c (List.mem_cons_self ..)
    obtain ⟨hframes, hatt⟩ := handleRecvSingle_scan h hfd hres hne
    have hlen : (frameFormat proto).hdr ≤ (rbuf ++ c.buf).length := by
      rw [List.length_append]
      exact Nat.le_add_right_of_le hbad.1
    have hstill : isValidPeerPayloadLen proto ((frameFormat proto).len (rbuf ++ c.buf)) = false := by
      rw [(frameFormat proto).len_append rbuf c.buf hbad.1]
      exact hbad.2
    rw [frameScan, Framing.scan_bad _ _ hlen hstill] at hframes hatt
    rw [feed_cons, hframes, List.nil_append]
    exact ih hatt ⟨hlen, hstill⟩ fun d hd => hcs d (List.mem_cons_of_mem _ hd)

theorem feedSingle_attached (h : Attached ctx wid fd p proto limit rbuf) {cs : List RecvCqe}
    (hcs : ∀ c ∈ cs, DataOn fd c) : ∃ rbuf',
      Attached (feed (fun ctx c => handleRecvSingle ctx wid c) ctx cs).1 wid fd p proto limit
        rbuf' := by
  induction cs generalizing ctx rbuf with
  | nil => exact ⟨rbuf, h⟩
  | cons c cs ih =>
    obtain ⟨hfd, hres, hne⟩ := hcs c (List.mem_cons_self ..)
    exact ih (handleRecvSingle_scan h hfd hres hne).2
      fun d hd => hcs d (List.mem_cons_of_mem _ hd)

theorem singleEnds (h : Attached ctx wid fd p proto limit rbuf) {cs : List RecvCqe}
    (hcs : ∀ c ∈ cs, DataOn fd c) : SingleEnds wid p proto ctx cs := by
  rintro pre c post rfl - hmeet
  have hpre : ∀ d ∈ pre, DataOn fd d := fun d hd => hcs d (List.mem_append_left _ hd)
  have hc := hcs c (List.mem_append_right _ (List.mem_cons_self ..))
  obtain ⟨rbuf', hatt⟩ := feedSingle_attached h hpre
  obtain ⟨-, hafter⟩ := handleRecvSingle_scan hatt hc.1 hc.2.1 hc.2.2
  unfold MeetsInvalid recvStream at hmeet
  rw [hatt.rbuf_eq] at hmeet
  rw [feed_append]
  exact feedSingle_stuck hafter (Framing.scan_stopped _ _ _ hmeet)
    fun d hd => hcs d (List.mem_append_right _ (List.mem_cons_of_mem _ hd))

theorem providedEnds_iff (h : Parsing wid fd p proto limit ctx) {cs : List RecvCqe}
    (hcs : ∀ c ∈ cs, DataOn fd c) :
    ProvidedEnds wid p proto ctx cs ↔ NothingStarts wid p proto ctx cs := by
  have hstep : ∀ pre c mid d post, cs = pre ++ c :: (mid ++ d :: post) →
      ((handleRecvProvided (feed (fun ctx c => handleRecvProvided ctx wid c) ctx
        (pre ++ c :: mid)).1 wid d).2 = [] ↔
        Limited (feed (fun ctx c => handleRecvProvided ctx wid c) ctx (pre ++ c :: mid)).1 wid p d ∨
          ¬StartsFrame proto (recvStream
            (feed (fun ctx c => handleRecvProvided ctx wid c) ctx (pre ++ c :: mid)).1 wid p d)) := by
    rintro pre c mid d post rfl
    have hmem : ∀ x ∈ pre ++ c :: mid, DataOn fd x := by
      intro x hx
      apply hcs
      simp only [List.mem_append, List.mem_cons] at hx ⊢
      tauto
    have hd : DataOn fd d := by
      apply hcs
      simp
    rw [← not_iff_not, not_or, not_not]
    exact handleRecvProvided_dispatches (feed_parsing h hmem) hd
  constructor
  · intro hends pre c mid d post heq hread hmeet
    apply (hstep pre c mid d post heq).1
    have hnil := hends pre c (mid ++ d :: post) heq hread hmeet
    rw [feed_nil_iff] at hnil
    have hd := hnil mid d post rfl
    have happ : pre ++ c :: mid = (pre ++ [c]) ++ mid := by simp
    rw [happ, feed_append]
    exact hd
  · intro hnone pre c post heq hread hmeet
    rw [feed_nil_iff]
    rintro mid d post' rfl
    have hd := (hstep pre c mid d post' heq).2 (hnone pre c mid d post' heq hread hmeet)
    have happ : pre ++ c :: mid = (pre ++ [c]) ++ mid := by simp
    rw [happ, feed_append] at hd
    exact hd

/-- An invalid length ends the connection in both handlers if and only if no completion
after it starts a frame. -/
theorem invalid_length_ends_connection_iff (h : Attached ctx wid fd p proto limit [])
    {cs : List RecvCqe} (hcs : ∀ c ∈ cs, DataOn fd c) :
    (ProvidedEnds wid p proto ctx cs ∧ SingleEnds wid p proto ctx cs) ↔
      NothingStarts wid p proto ctx cs := by
  rw [providedEnds_iff ⟨[], h, Framing.pending_nil _ _⟩ hcs]
  exact ⟨And.left, fun hnone => ⟨hnone, singleEnds h hcs⟩⟩

end

theorem onePeer_attached : Attached onePeerCtx 0 3 0 .kDerp 0 [] :=
  ⟨by decide, by decide, by decide, by decide, by decide, by decide, by decide⟩

def badHeader : Bytes := [6, 0xff, 0xff, 0xff, 0xff]

def emptyFrame : Bytes := [6, 0, 0, 0, 0]

def dataOn (fd : Fd) (now : ℕ) (buf : Bytes) : RecvCqe :=
  { fd := fd, res := buf.length, buf := buf, more := true, now := now }

/-- The next completion after the invalid length is dispatched. -/
theorem frame_after_invalid_length :
    ¬∀ (ctx : Ctx) (wid : ℕ) (fd : Fd) (p : Slot) (proto : PeerProtocol) (limit : ℕ)
      (cs : List RecvCqe), Attached ctx wid fd p proto limit [] → (∀ c ∈ cs, DataOn fd c) →
      ProvidedEnds wid p proto ctx cs ∧ SingleEnds wid p proto ctx cs := by
  intro hall
  have hends := (hall onePeerCtx 0 3 0 .kDerp 0 [dataOn 3 0 badHeader, dataOn 3 0 emptyFrame]
    onePeer_attached (by decide)).1
  have hnil := hends [] (dataOn 3 0 badHeader) [dataOn 3 0 emptyFrame] rfl (by decide) (by decide)
  have hframe : (feed (fun ctx c => handleRecvProvided ctx 0 c)
      (feed (fun ctx c => handleRecvProvided ctx 0 c) onePeerCtx ([] ++ [dataOn 3 0 badHeader])).1
      [dataOn 3 0 emptyFrame]).2 = [emptyFrame] := by
    decide
  rw [hnil] at hframe
  cases hframe

/-- Two bytes after the invalid length start no frame. -/
theorem invalid_length_then_two_bytes :
    ProvidedEnds 0 0 .kDerp onePeerCtx [dataOn 3 0 badHeader, dataOn 3 0 [6, 0]] := by
  have hcs : ∀ c ∈ [dataOn 3 0 badHeader, dataOn 3 0 [6, 0]], DataOn 3 c := by decide
  refine ((invalid_length_ends_connection_iff onePeer_attached hcs).2 ?_).1
  intro pre c mid d post heq _ _
  have hlen := congrArg List.length heq
  simp only [List.length_cons, List.length_append, List.length_nil] at hlen
  obtain rfl : pre = [] := List.length_eq_zero_iff.1 (by omega)
  obtain rfl : mid = [] := List.length_eq_zero_iff.1 (by omega)
  cases heq
  right
  intro hstart
  exact absurd hstart.2.1 (by decide)

/-! ### Under a rate limit -/

/-- A run of the provided-buffer handler on the data of one peer, with all bytes the peer
has sent and those dropped since a buffer was last let through. -/
structure RecvRun where
  ctx : Ctx
  sent : Bytes := []
  skipped : Bytes := []
  frames : List Bytes := []

namespace RecvRun

section

variable (wid : ℕ) (fd : Fd) (p : Slot) (proto : PeerProtocol) (limit : ℕ)

def step (r : RecvRun) (c : RecvCqe) : Option RecvRun :=
  if DataOn fd c then
    some
      { ctx := (handleRecvProvided r.ctx wid c).1
        sent := r.sent ++ c.buf
        skipped := if Limited r.ctx wid p c then r.skipped ++ c.buf else []
        frames := r.frames ++ (handleRecvProvided r.ctx wid c).2 }
  else none

def Init (r : RecvRun) : Prop :=
  Attached r.ctx wid fd p proto limit [] ∧ r.sent = [] ∧ r.skipped = [] ∧ r.frames = []

/-- A buffer is let through only when the dropped bytes before it are whole frames and follow
a whole frame, and no header so far was invalid. -/
def inStep (r : RecvRun) (c : RecvCqe) : Prop :=
  ¬Limited r.ctx wid p c →
    (frameScan proto r.sent).stopped = false ∧
      (r.skipped = [] ∨
        ((r.ctx.workers wid).ht p).rbuf = [] ∧ (frameScan proto r.skipped).rest = [])

def InStream (r : RecvRun) : Prop :=
  ∃ seen, r.sent = seen ++ r.skipped ∧ r.frames.Sublist (frameScan proto seen).frames ∧
    Attached r.ctx wid fd p proto limit
      (if (frameScan proto seen).stopped then [] else (frameScan proto seen).rest)

end

variable {wid : ℕ} {fd : Fd} {p : Slot} {proto : PeerProtocol} {limit : ℕ} {r r' : RecvRun}

theorem frameScan_initial (s t : Bytes) :
    (frameScan proto s).frames.Sublist (frameScan proto (s ++ t)).frames := by
  unfold frameScan
  rw [Framing.scan_append]
  split
  · exact List.Sublist.refl _
  · exact List.sublist_append_left _ _

theorem frameScan_append {s : Bytes} (hs : (frameScan proto s).stopped = false) (t : Bytes) :
    frameScan proto (s ++ t) =
      { frameScan proto ((frameScan proto s).rest ++ t) with
        frames := (frameScan proto s).frames ++
          (frameScan proto ((frameScan proto s).rest ++ t)).frames } := by
  have happ := Framing.scan_append (frameFormat proto) (isValidPeerPayloadLen proto) s t
  rw [hs] at happ
  exact happ

theorem step_inStream (h : InStream wid fd p proto limit r) {c : RecvCqe}
    (hok : inStep wid p proto r c) (hs : step wid fd p r c = some r') :
    InStream wid fd p proto limit r' := by
  unfold step at hs
  split at hs
  case isFalse => cases hs
  next hc =>
  cases hs
  obtain ⟨hfd, hres, hne⟩ := hc
  obtain ⟨seen, hsent, hframes, hatt⟩ := h
  have hlen := List.length_pos_iff.2 hne
  by_cases hdrop : Limited r.ctx wid p c
  · obtain ⟨hnil, hatt'⟩ := handleRecvProvided_limited hatt hfd (by omega) hdrop
    refine ⟨seen, ?_, ?_, hatt'⟩
    · rw [if_pos hdrop, hsent, List.append_assoc]
    · rw [hnil, List.append_nil]
      exact hframes
  · obtain ⟨hvalid, halign⟩ := hok hdrop
    obtain ⟨hnew, hatt'⟩ := handleRecvProvided_scan hatt (kept_tail seen) hfd hres hne hdrop
    have hseen : (frameScan proto seen).stopped = false := by
      by_contra hst
      rw [Bool.not_eq_false] at hst
      rw [hsent] at hvalid
      unfold frameScan at hvalid hst
      rw [Framing.scan_append, hst] at hvalid
      cases hvalid
    rw [hseen, if_neg Bool.false_ne_true] at hatt hnew hatt'
    refine ⟨r.sent ++ c.buf, ?_, ?_, ?_⟩
    · rw [if_neg hdrop, List.append_nil]
    -- in both cases the bytes seen and those dropped leave what is buffered
    all_goals
      have hrest : (frameScan proto seen).frames.Sublist (frameScan proto r.sent).frames ∧
          (frameScan proto r.sent).rest = (frameScan proto seen).rest := by
        rcases halign with hskip | ⟨hrbuf, hwhole⟩
        · rw [hsent, hskip, List.append_nil]
          exact ⟨List.Sublist.refl _, rfl⟩
        · rw [hatt.rbuf_eq] at hrbuf
          rw [hsent]
          refine ⟨frameScan_initial _ _, ?_⟩
          rw [frameScan_append hseen, hrbuf]
          exact hwhole
      rw [frameScan_append hvalid, hrest.2]
    · rw [hnew]
      exact (hframes.trans hrest.1).append_right _
    · exact hatt'

theorem init_inStream (h : Init wid fd p proto limit r) : InStream wid fd p proto limit r := by
  obtain ⟨hatt, hsent, hskip, hframes⟩ := h
  refine ⟨[], ?_, ?_, ?_⟩
  · rw [hsent, hskip]
    rfl
  · rw [hframes]
    exact List.nil_sublist _
  · exact hatt

/-- In every state of every run, under any limit and clock: what was dispatched is, in order,
some of the frames of what the peer sent. -/
theorem dispatched_sublist (h : Runs.Reach (Init wid fd p proto limit) (step wid fd p)
    (inStep wid p proto) r) : r.frames.Sublist (frameScan proto r.sent).frames := by
  have hinv : InStream wid fd p proto limit r := by
    apply h.invariant
    · exact fun _ h0 => init_inStream h0
    · exact fun _ _ _ hr hok hs => step_inStream hr hok hs
  obtain ⟨seen, hsent, hframes, -⟩ := hinv
  rw [hsent]
  exact hframes.trans (frameScan_initial _ _)

def limitedCtx : Ctx := { onePeerCtx with peerRateLimit := 7 }

theorem limited_init : Init 0 3 0 .kDerp 7 { ctx := limitedCtx } :=
  ⟨⟨by decide, by decide, by decide, by decide, by decide, by decide, by decide⟩, rfl, rfl, rfl⟩

/-- The first eight bytes of a frame of 13 are dropped; two seconds later the last five of
its payload are dispatched as a frame. -/
theorem payload_dispatched_as_frame :
    ¬∀ (wid : ℕ) (fd : Fd) (p : Slot) (proto : PeerProtocol) (limit : ℕ) (r : RecvRun), 0 < limit →
      Runs.Reach (Init wid fd p proto limit) (step wid fd p) Runs.Any r →
      r.frames.Sublist (frameScan proto r.sent).frames := by
  intro hall
  have hrun : (Runs.run (step 0 3 0) { ctx := limitedCtx }
      [dataOn 3 0 [6, 0, 0, 0, 8, 1, 2, 3], dataOn 3 2000000000 emptyFrame]).map
        (fun r => (r.frames, (frameScan .kDerp r.sent).frames)) =
      some ([emptyFrame], [[6, 0, 0, 0, 8, 1, 2, 3] ++ emptyFrame]) := by
    decide
  obtain ⟨r, hr, hview⟩ := Option.map_eq_some_iff.1 hrun
  rw [Prod.mk.injEq] at hview
  have hsub := hall 0 3 0 .kDerp 7 r (by decide) (Runs.reach_of_run limited_init hr)
  rw [hview.1, hview.2] at hsub
  exact absurd hsub (by decide)

/-- Two whole frames are dropped, the third is dispatched. -/
theorem dispatched_after_whole_frames :
    ∃ r, Runs.Reach (Init 0 3 0 .kDerp 7) (step 0 3 0) (inStep 0 0 .kDerp) r ∧
      r.frames = [emptyFrame] ∧ r.frames.Sublist (frameScan .kDerp r.sent).frames := by
  have hrun : (Runs.run (step 0 3 0) { ctx := limitedCtx }
      [dataOn 3 0 (emptyFrame ++ emptyFrame), dataOn 3 2000000000 emptyFrame]).map RecvRun.frames =
      some [emptyFrame] := by
    decide
  obtain ⟨r, hr, hframes⟩ := Option.map_eq_some_iff.1 hrun
  have hreach : Runs.Reach (Init 0 3 0 .kDerp 7) (step 0 3 0) (inStep 0 0 .kDerp) r := by
    apply Runs.reach_run (.start _ limited_init) _ hr
    have hdrop : Limited limitedCtx 0 0 (dataOn 3 0 (emptyFrame ++ emptyFrame)) := by
      decide
    have hafter : (step 0 3 0 { ctx := limitedCtx } (dataOn 3 0 (emptyFrame ++ emptyFrame))).map
        (fun r => ((frameScan .kDerp r.sent).stopped, ((r.ctx.workers 0).ht 0).rbuf,
          (frameScan .kDerp r.skipped).rest)) = some (false, [], []) := by
      decide
    refine ⟨fun hread => (hread hdrop).elim, fun s hs => ⟨fun _ => ?_, fun _ _ => trivial⟩⟩
    rw [hs, Option.map_some, Option.some.injEq, Prod.mk.injEq, Prod.mk.injEq] at hafter
    exact ⟨hafter.1, .inr hafter.2⟩
  exact ⟨r, hreach, hframes, dispatched_sublist hreach⟩

end RecvRun

end HyperDerp
