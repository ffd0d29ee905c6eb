import HyperDerp.ControlPlane.Requests

/-!
# One answer for each request

Of the well-formed requests with one id from one fd, those that hold no slot have been
answered, whatever the outcome of the writes was: a request adds one result or one slot,
and every release of a slot writes one result.
-/

namespace HyperDerp.Answers

structure State where
  cp : ControlPlane
  received : List (Fd × FrameType × Bytes) := []

/-- A frame off a pipe, the timer, and everything else, which neither touches slots nor
writes results. -/
inductive Op where
  | frame (fd : Fd) (type : FrameType) (payload : Bytes)
  | scan
  | elsewhere (cp : ControlPlane)

/-- Frames come from open sockets, and the routing policy stays enabled. -/
def step (s : State) : Op → Option State
  | .frame fd type payload =>
    if 0 ≤ fd then
      some { cp := cpProcessFrame s.cp fd type payload
             received := s.received ++ [(fd, type, payload)] }
    else none
  | .scan => some { s with cp := scanOpenConnTimeouts s.cp }
  | .elsewhere cp =>
    if cp.hdPeers.isSome then
      some { s with cp := { cp with
        openConns := s.cp.openConns
        openConnPerPeer := s.cp.openConnPerPeer
        attempted := s.cp.attempted } }
    else none

structure Init (s : State) : Prop where
  slots : ∀ i, s.cp.openConns i = {}
  attempted : s.cp.attempted = []
  received : s.received = []
  hdPeers : s.cp.hdPeers.isSome

/-! ### Requests, results and slots of one fd and id -/

def requests (gateway : Bool) (received : List (Fd × FrameType × Bytes)) (fd : Fd) (corr : ℕ) : ℕ :=
  received.countP fun m => decide (m.1 = fd) && decide (requestId gateway m.2.1 m.2.2 = some corr)

def results (gateway : Bool) (attempted : List (Fd × Bytes)) (fd : Fd) (corr : ℕ) : ℕ :=
  attempted.countP fun x => decide (x.1 = fd) && isResult gateway corr x.2

def waits (gateway : Bool) (fd : Fd) (corr : ℕ) (e : OpenConnEntry) : Bool :=
  e.inUse && decide (e.isGatewayInbound = gateway) && decide (e.initiatorFd = fd) &&
    decide (e.correlationId = corr)

def waiting (gateway : Bool) (openConns : OpenSlot → OpenConnEntry) (fd : Fd) (corr : ℕ) : ℕ :=
  (Finset.univ.filter fun i => waits gateway fd corr (openConns i) = true).card

/-- As many results and slots as were asked for. -/
structure Balanced (asked : Bool → Fd → ℕ → ℕ) (cp : ControlPlane) : Prop where
  slots : SlotsOk cp
  hdPeers : cp.hdPeers.isSome
  due : ∀ gateway fd corr, asked gateway fd corr =
    results gateway cp.attempted fd corr + waiting gateway cp.openConns fd corr

def plus (asked : Bool → Fd → ℕ → ℕ) (gateway : Bool) (fd : Fd) (corr : ℕ) : Bool → Fd → ℕ → ℕ :=
  fun gateway' fd' corr' => asked gateway' fd' corr' +
    if gateway' = gateway ∧ fd' = fd ∧ corr' = corr then 1 else 0

section

variable {asked : Bool → Fd → ℕ → ℕ} {cp cp' : ControlPlane} {gateway : Bool} {fd : Fd} {corr : ℕ}

theorem results_append (xs ys : List (Fd × Bytes)) :
    results gateway (xs ++ ys) fd corr = results gateway xs fd corr + results gateway ys fd corr := by
  unfold results
  exact List.countP_append

theorem results_noResult {xs : List (Fd × Bytes)} (h : ∀ x ∈ xs, NoResult x.2) :
    results gateway xs fd corr = 0 := by
  unfold results
  rw [List.countP_eq_zero]
  intro x hx
  rw [(h x hx).isResult gateway corr, Bool.and_false]
  nofun

theorem results_one (gateway' : Bool) (fd' : Fd) {corr' : ℕ} (hcorr : corr' < 2 ^ 64)
    (mode : HdConnMode) (reason : HdDenyReason) (sub : Byte) (path : List ℕ) :
    results gateway [(fd', openResult gateway' corr' mode reason sub path)] fd corr =
      if gateway = gateway' ∧ fd = fd' ∧ corr = corr' then 1 else 0 := by
  have hres := isResult_openResult gateway' hcorr mode reason sub path gateway corr
  unfold results
  rw [List.countP_singleton]
  by_cases hfd : fd = fd'
  · subst hfd
    simp only [decide_true, Bool.true_and, hres, true_and]
  · have hfd' : ¬fd' = fd := fun h => hfd h.symm
    simp [hfd, hfd']

theorem waits_iff {e : OpenConnEntry} (huse : e.inUse = true) :
    waits gateway fd corr e = true ↔
      gateway = e.isGatewayInbound ∧ fd = e.initiatorFd ∧ corr = e.correlationId := by
  simp only [waits, huse, Bool.true_and, Bool.and_eq_true, decide_eq_true_eq]
  constructor
  · rintro ⟨⟨h1, h2⟩, h3⟩
    exact ⟨h1.symm, h2.symm, h3.symm⟩
  · rintro ⟨h1, h2, h3⟩
    exact ⟨⟨h1.symm, h2.symm⟩, h3.symm⟩

theorem waits_empty : waits gateway fd corr {} = false := rfl

theorem waiting_update (openConns : OpenSlot → OpenConnEntry) (i : OpenSlot) (e : OpenConnEntry) :
    waiting gateway (Function.update openConns i e) fd corr +
        (if waits gateway fd corr (openConns i) then 1 else 0) =
      waiting gateway openConns fd corr + if waits gateway fd corr e then 1 else 0 :=
  SlotCount.count_update (waits gateway fd corr) openConns i e

namespace Balanced

theorem untouched (h : Balanced asked cp) (hu : Untouched cp cp') : Balanced asked cp' := by
  constructor
  · exact h.slots.of_openConns hu.openConns
  · rw [hu.hdPeers]
    exact h.hdPeers
  · rw [hu.openConns, hu.attempted]
    exact h.due

theorem refused (h : Balanced asked cp) (hcorr : corr < 2 ^ 64) {intent : HdIntent}
    (hr : Refused gateway cp fd corr intent cp') : Balanced (plus asked gateway fd corr) cp' := by
  obtain ⟨reqs, reason, path, hforw, hatt⟩ := hr.attempted
  have hreqs : ∀ x ∈ reqs, NoResult x.2 := fun x hx => (hforw x hx).noResult
  constructor
  · exact h.slots.of_openConns hr.openConns
  · rw [hr.hdPeers]
    exact h.hdPeers
  · intro gateway' fd' corr'
    have hdue := h.due gateway' fd' corr'
    rw [hr.openConns, hatt, results_append, results_append, results_noResult hreqs,
      results_one gateway fd hcorr, plus]
    omega

theorem pending (h : Balanced asked cp) {i : OpenSlot} {e : OpenConnEntry} {buf : Bytes}
    (hbuf : NoResult buf) (hp : LeftPending cp i e buf cp') (huse : e.inUse = true)
    (hfd : 0 ≤ e.initiatorFd) (hcorr : e.correlationId < 2 ^ 64) :
    Balanced (plus asked e.isGatewayInbound e.initiatorFd e.correlationId) cp' := by
  have hreq : ∀ x ∈ [(e.targetFd, buf)], NoResult x.2 := by
    intro x hx
    rw [List.mem_singleton.1 hx]
    exact hbuf
  constructor
  · exact h.slots.leftPending hp huse hfd hcorr
  · rw [hp.hdPeers]
    exact h.hdPeers
  · intro gateway' fd' corr'
    have hdue := h.due gateway' fd' corr'
    have hwait := @waiting_update gateway' fd' corr' cp.openConns i e
    rw [hp.free, waits_empty] at hwait
    simp only [waits_iff huse, Bool.false_eq_true, if_false] at hwait
    rw [hp.openConns, hp.attempted, results_append, results_noResult hreq, plus]
    omega

theorem released (h : Balanced asked cp) {i : OpenSlot} {mode : HdConnMode} {reason : HdDenyReason}
    {sub : Byte} (huse : (cp.openConns i).inUse = true) (hr : Released cp i mode reason sub cp') :
    Balanced asked cp' := by
  have hmirror : ∀ x ∈ mirrorOf (cp.openConns i) mode reason sub, NoResult x.2 :=
    fun x hx => mirrorOf_noResult hx
  constructor
  · exact h.slots.released hr
  · rw [hr.hdPeers]
    exact h.hdPeers
  · intro gateway' fd' corr'
    have hdue := h.due gateway' fd' corr'
    have hwait := @waiting_update gateway' fd' corr' cp.openConns i {}
    have hone := @results_one gateway' fd' corr' (cp.openConns i).isGatewayInbound
      (cp.openConns i).initiatorFd _ (h.slots.ids i huse) mode reason sub
      (resultPath (cp.openConns i))
    rw [waits_empty] at hwait
    simp only [waits_iff huse, Bool.false_eq_true, if_false] at hwait
    rw [hr.openConns, hr.attempted, ← List.singleton_append, results_append, results_append,
      results_noResult hmirror, resultOf, hone]
    omega

theorem scanSlot (h : Balanced asked cp) (now : ℕ) (i : OpenSlot) :
    Balanced asked (scanSlot now cp i) := by
  unfold HyperDerp.scanSlot
  split
  · next hexp =>
    simp only [expired, Bool.and_eq_true] at hexp
    exact h.released hexp.1 (cleanup_released cp i _ _ _ (h.slots.fds i hexp.1)).1
  · exact h

theorem scan (h : Balanced asked cp) : Balanced asked (scanOpenConnTimeouts cp) := by
  rw [scan_eq]
  generalize cp.now = now
  generalize List.finRange kCpMaxOpenConns = slots
  induction slots generalizing cp with
  | nil => exact h
  | cons i slots ih => exact ih (h.scanSlot now i)

end Balanced

/-! ### Frames -/

theorem requests_snoc (received : List (Fd × FrameType × Bytes)) (fd' : Fd) (type : FrameType)
    (payload : Bytes) :
    requests gateway (received ++ [(fd', type, payload)]) fd corr =
      requests gateway received fd corr +
        if fd' = fd ∧ requestId gateway type payload = some corr then 1 else 0 := by
  unfold requests
  rw [List.countP_append, List.countP_singleton]
  simp only [Bool.and_eq_true, decide_eq_true_eq]

theorem requests_none (received : List (Fd × FrameType × Bytes)) {fd' : Fd} {type : FrameType}
    {payload : Bytes} (h : requestId gateway type payload = none) :
    requests gateway (received ++ [(fd', type, payload)]) fd corr =
      requests gateway received fd corr := by
  simp [requests_snoc, h]

theorem requests_some (received : List (Fd × FrameType × Bytes)) {fd' : Fd} {type : FrameType}
    {payload : Bytes} {corr' : ℕ} (hid : requestId gateway type payload = some corr') :
    (fun gateway fd corr => requests gateway (received ++ [(fd', type, payload)]) fd corr) =
      plus (fun gateway fd corr => requests gateway received fd corr) gateway fd' corr' := by
  funext gateway1 fd1 corr1
  by_cases hgw : gateway1 = gateway
  · subst hgw
    simp only [requests_snoc, hid, plus, Option.some.injEq, true_and, eq_comm]
  · have hother : requestId gateway1 type payload = none := requestId_other hid hgw
    simp [requests_none received hother, plus, hgw]

theorem frame_balanced {received : List (Fd × FrameType × Bytes)}
    (h : Balanced (fun gateway fd corr => requests gateway received fd corr) cp) (hfd : 0 ≤ fd)
    (type : FrameType) (payload : Bytes) :
    Balanced (fun gateway fd' corr => requests gateway (received ++ [(fd, type, payload)]) fd' corr)
      (cpProcessFrame cp fd type payload) := by
  have hsame : (∀ gateway, requestId gateway type payload = none) →
      (fun gateway fd' corr => requests gateway (received ++ [(fd, type, payload)]) fd' corr) =
        fun gateway fd corr => requests gateway received fd corr := by
    intro hnone
    funext gateway fd' corr
    exact requests_none received (hnone gateway)
  cases cpProcessFrame_outcome h.slots h.hdPeers hfd type payload with
  | nothing hu hid =>
    rw [hsame hid]
    exact h.untouched hu
  | refused gateway corr hid hr =>
    rw [requests_some received hid]
    exact h.refused (requestId_lt hid) hr
  | pending i e buf he hbuf hp =>
    obtain ⟨huse, hinit, hid⟩ := he.fields
    rw [← hinit] at hfd
    have hbal := h.pending hbuf.noResult hp huse hfd (requestId_lt hid)
    rw [hinit] at hbal
    rw [requests_some received hid]
    exact hbal
  | answered hd resp i htype hresp hhd hfind hr =>
    rw [hsame (requestId_none (by rw [htype]; decide) (by rw [htype]; decide))]
    exact h.released (openConnFind_some hfind).1 hr
  | relayed result i htype hresult hfind hr =>
    rw [hsame (requestId_none (by rw [htype]; decide) (by rw [htype]; decide))]
    exact h.released (openConnFind_some hfind).1 hr

end

/-! ### Runs -/

def Settled (s : State) : Prop :=
  Balanced (fun gateway fd corr => requests gateway s.received fd corr) s.cp

theorem Init.settled {s : State} (h : Init s) : Settled s := by
  have hnone : s.cp.openConns = fun _ => {} := funext h.slots
  constructor
  · constructor
    · exact fun i _ => h.slots i
    · intro i hi
      rw [h.slots i] at hi
      cases hi
    · intro i hi
      rw [h.slots i] at hi
      cases hi
  · exact h.hdPeers
  · intro gateway fd corr
    rw [h.received, h.attempted, hnone]
    simp [requests, results, waiting, waits_empty]

theorem step_settled {s s' : State} (h : Settled s) {op : Op} (hs : step s op = some s') :
    Settled s' := by
  cases op with
  | frame fd type payload =>
    rw [step, Option.ite_none_right_eq_some, Option.some.injEq] at hs
    obtain ⟨hfd, hs⟩ := hs
    rw [← hs]
    exact frame_balanced h hfd type payload
  | scan =>
    have hscan := Balanced.scan h
    rw [step, Option.some.injEq] at hs
    rw [← hs]
    unfold Settled
    dsimp only
    exact hscan
  | elsewhere cp =>
    rw [step, Option.ite_none_right_eq_some, Option.some.injEq] at hs
    obtain ⟨hhd, hs⟩ := hs
    rw [← hs]
    exact ⟨h.slots.of_openConns rfl, hhd, h.due⟩

/-- What holds between frames: every request is answered or holds a slot, and no slot
outlives the next scan after its deadline. -/
structure OneAnswer (s : State) : Prop where
  opens : ∀ fd corr, requests false s.received fd corr =
    results false s.cp.attempted fd corr + waiting false s.cp.openConns fd corr
  fleets : ∀ fd corr, requests true s.received fd corr =
    results true s.cp.attempted fd corr + waiting true s.cp.openConns fd corr
  overdue : ∀ i, (s.cp.openConns i).inUse = true → (s.cp.openConns i).deadlineNs ≤ s.cp.now →
    ((scanOpenConnTimeouts s.cp).openConns i).inUse = false

theorem one_answer_per_request {s : State} (h : Runs.Reach Init step Runs.Any s) : OneAnswer s := by
  have hset : Settled s := h.invariant (fun _ h0 => h0.settled)
    fun _ _ _ hset _ hs => step_settled hset hs
  constructor
  · exact hset.due false
  · exact hset.due true
  · intro i huse hdead
    have hexp : expired s.cp.now (s.cp.openConns i) = true := by
      simp [expired, huse, hdead]
    rw [(scan_swept hset.slots.fds).openConns, if_pos ⟨List.mem_finRange i, hexp⟩]

def threeRequests : List Op :=
  [.frame 5 HdFrameType.kOpenConnection (hdOpenConnectionPayload 1 0 0 0 9),
    .frame 7 HdFrameType.kFleetOpenConnection Accounting.gatewayRequest,
    .frame 5 HdFrameType.kOpenConnection (hdOpenConnectionPayload 1 0 0 0 9),
    .frame 6 HdFrameType.kIncomingConnResponse (writeU64 9 ++ [0, 0, 0])]

theorem one_answer_per_request_three :
    ∃ s, Runs.Reach Init step Runs.Any s ∧ requests false s.received 5 9 = 2 ∧
      results false s.cp.attempted 5 9 = 1 ∧ requests true s.received 7 9 = 1 ∧ OneAnswer s := by
  have hrun : (Runs.run step { cp := Accounting.gatewayCp } threeRequests).map (fun s =>
      (requests false s.received 5 9, results false s.cp.attempted 5 9,
        requests true s.received 7 9)) = some (2, 1, 1) := by
    decide +kernel
  obtain ⟨s, hs, hcounts⟩ := Option.map_eq_some_iff.1 hrun
  simp only [Prod.mk.injEq] at hcounts
  have hinit : Init { cp := Accounting.gatewayCp } := ⟨fun _ => rfl, rfl, rfl, rfl⟩
  have hreach := Runs.reach_of_run hinit hs
  exact ⟨s, hreach, hcounts.1, hcounts.2.1, hcounts.2.2, one_answer_per_request hreach⟩

end HyperDerp.Answers
