import HyperDerp.ControlPlane.Answers

/-!
# Connections behind the slots (`control_plane.cc:200-209`, `:961-1056`, `:1300-1311`)

Slots and pipe messages name sockets by number, and nothing visits them when a socket is
closed. The connections behind the numbers are made explicit here: each has an id of its
own, and a number goes to a new one whenever it is free.
-/

namespace HyperDerp.Recipients

structure Msg where
  sender : ℕ
  fd : Fd
  type : FrameType
  payload : Bytes

/-- `initiator` and `target` belong to slots in use: the connection that sent the request,
and the one that its frame was written to. -/
structure State where
  cp : ControlPlane
  conn : Fd → Option ℕ := fun _ => none
  opened : ℕ := 0
  inflight : List Msg := []
  initiator : OpenSlot → ℕ := fun _ => 0
  target : OpenSlot → ℕ := fun _ => 0

inductive Op where
  | connect (fd : Fd)
  | close (fd : Fd)
  | send (fd : Fd) (type : FrameType) (payload : Bytes)
  | process (n : ℕ)
  | scan
  | elsewhere (cp : ControlPlane)

/-- No frame can be written to a closed socket, so a slot is left in use only for an open
one. -/
def targetsOpen (s : State) (cp : ControlPlane) : Bool :=
  (List.finRange kCpMaxOpenConns).all fun i =>
    !(cp.openConns i).inUse || (s.cp.openConns i).inUse ||
      (s.conn (cp.openConns i).targetFd).isSome

def step (s : State) : Op → Option State
  | .connect fd =>
    if 0 ≤ fd ∧ s.conn fd = none then
      some { s with conn := Function.update s.conn fd (some s.opened), opened := s.opened + 1 }
    else none
  | .close fd =>
    if (s.conn fd).isSome then some { s with conn := Function.update s.conn fd none } else none
  | .send fd type payload =>
    (s.conn fd).map fun k => { s with inflight := s.inflight ++ [⟨k, fd, type, payload⟩] }
  | .process n =>
    (s.inflight[n]?).bind fun m =>
      let cp := cpProcessFrame s.cp m.fd m.type m.payload
      if targetsOpen s cp then
        some { s with
          cp := cp
          inflight := s.inflight.eraseIdx n
          initiator := fun i => if (s.cp.openConns i).inUse then s.initiator i else m.sender
          target := fun i =>
            if (s.cp.openConns i).inUse then s.target i
            else (s.conn (cp.openConns i).targetFd).getD 0 }
      else none
  | .scan => some { s with cp := scanOpenConnTimeouts s.cp }
  | .elsewhere cp =>
    if cp.hdPeers.isSome then
      some { s with cp := { cp with
        openConns := s.cp.openConns
        openConnPerPeer := s.cp.openConnPerPeer
        attempted := s.cp.attempted } }
    else none

structure Init (s : State) : Prop where
  slots : ∀ i, s.cp.openConns i = {}
  attempted : s.cp.attempted = []
  hdPeers : s.cp.hdPeers.isSome
  conn : ∀ fd, s.conn fd = none
  inflight : s.inflight = []

/-! ### Results and completions -/

def Releases (s s' : State) (i : OpenSlot) : Prop :=
  (s.cp.openConns i).inUse = true ∧ (s'.cp.openConns i).inUse = false

def Answers (s s' : State) (op : Op) (k : ℕ) (gateway : Bool) (corr : ℕ) : Prop :=
  (∃ n m, op = .process n ∧ s.inflight[n]? = some m ∧ m.sender = k ∧
      requestId gateway m.type m.payload = some corr) ∨
    ∃ i, Releases s s' i ∧ s.initiator i = k ∧ (s.cp.openConns i).isGatewayInbound = gateway ∧
      (s.cp.openConns i).correlationId = corr

structure Proper (s s' : State) (op : Op) : Prop where
  results : ∀ gateway corr, ∀ x ∈ s'.cp.attempted.drop s.cp.attempted.length,
    isResult gateway corr x.2 = true → ∀ k, s.conn x.1 = some k → Answers s s' op k gateway corr
  completions : ∀ n m, op = .process n → s.inflight[n]? = some m → ∀ i, Releases s s' i →
    s.target i = m.sender

/-- Whatever happens next, results go to the connections that asked for them, and answers
complete slots of their own connection. -/
def Delivered (s : State) : Prop := ∀ op s', step s op = some s' → Proper s s' op

/-- A socket number is handed out only when no slot and no pipe names it. -/
def fdFree (s : State) : Op → Prop
  | .connect fd =>
    (∀ i, (s.cp.openConns i).inUse = true →
      (s.cp.openConns i).initiatorFd ≠ fd ∧ (s.cp.openConns i).targetFd ≠ fd) ∧
    ∀ m ∈ s.inflight, m.fd ≠ fd
  | _ => True

/-- An open socket that a slot or a message names is the connection it had then. -/
structure Inv (s : State) : Prop where
  slots : SlotsOk s.cp
  hdPeers : s.cp.hdPeers.isSome
  fds : ∀ fd k, s.conn fd = some k → 0 ≤ fd
  initiator : ∀ i, (s.cp.openConns i).inUse = true →
    ∀ k, s.conn (s.cp.openConns i).initiatorFd = some k → s.initiator i = k
  target : ∀ i, (s.cp.openConns i).inUse = true →
    ∀ k, s.conn (s.cp.openConns i).targetFd = some k → s.target i = k
  msgFds : ∀ m ∈ s.inflight, 0 ≤ m.fd
  msgConn : ∀ m ∈ s.inflight, ∀ k, s.conn m.fd = some k → m.sender = k
  msgTarget : ∀ m ∈ s.inflight, ∀ i, (s.cp.openConns i).inUse = true →
    (s.cp.openConns i).targetFd = m.fd → s.target i = m.sender

/-! ### What one step writes -/

section

variable {s s' : State}

theorem drop_attempted {xs ys zs : List (Fd × Bytes)} (h : xs = ys ++ zs) :
    xs.drop ys.length = zs := by
  rw [h, List.drop_left]

theorem no_results {op : Op} (hatt : s'.cp.attempted = s.cp.attempted)
    (hslots : s'.cp.openConns = s.cp.openConns) : Proper s s' op := by
  constructor
  · intro gateway corr x hx
    rw [hatt, List.drop_length] at hx
    cases hx
  · rintro n m - - i ⟨huse, hfree⟩
    rw [hslots, huse] at hfree
    cases hfree

theorem released_proper (h : Inv s) {op : Op} {i : OpenSlot} {mode : HdConnMode}
    {reason : HdDenyReason} {sub : Byte} (huse : (s.cp.openConns i).inUse = true)
    (hr : Released s.cp i mode reason sub s'.cp)
    (htarget : ∀ n m, op = .process n → s.inflight[n]? = some m → s.target i = m.sender) :
    Proper s s' op := by
  have hfree : (s'.cp.openConns i).inUse = false := by
    rw [hr.openConns, Function.update_self]
  constructor
  · intro gateway corr x hx hres k hk
    rw [drop_attempted hr.attempted] at hx
    rcases List.mem_cons.1 hx with rfl | hx
    · obtain ⟨hgw, hid⟩ := (isResult_openResult _ (h.slots.ids i huse) _ _ _ _ _ _).1 hres
      exact .inr ⟨i, ⟨huse, hfree⟩, h.initiator i huse k hk, hgw.symm, hid.symm⟩
    · rw [(mirrorOf_noResult hx).isResult gateway corr] at hres
      cases hres
  · rintro n m hop hm j ⟨hj, hjfree⟩
    by_cases hji : j = i
    · rw [hji]
      exact htarget n m hop hm
    · rw [hr.openConns, Function.update_of_ne hji, hj] at hjfree
      cases hjfree

theorem scan_proper (h : Inv s) (hcp : s'.cp = scanOpenConnTimeouts s.cp) :
    Proper s s' .scan := by
  have hs := scan_swept h.slots.fds
  rw [← hcp] at hs
  constructor
  · intro gateway corr x hx hres k hk
    rw [drop_attempted hs.attempted] at hx
    obtain ⟨i, hi, rfl⟩ := List.mem_map.1 hx
    have hexp := (List.mem_filter.1 hi).2
    have huse : (s.cp.openConns i).inUse = true := by
      simp only [expired, Bool.and_eq_true] at hexp
      exact hexp.1
    have hfree : (s'.cp.openConns i).inUse = false := by
      rw [hs.openConns, if_pos ⟨List.mem_finRange i, hexp⟩]
    obtain ⟨hgw, hid⟩ := (isResult_openResult _ (h.slots.ids i huse) _ _ _ _ _ _).1 hres
    exact .inr ⟨i, ⟨huse, hfree⟩, h.initiator i huse k hk, hgw.symm, hid.symm⟩
  · intro n m hop
    cases hop

theorem responseMatches_target {resp : HdIncomingConnResponse} {fd : Fd} {e : OpenConnEntry}
    (h : responseMatches resp fd e = true) : e.targetFd = fd := by
  simp only [responseMatches, Bool.and_eq_true, decide_eq_true_eq] at h
  exact h.2

theorem resultMatches_target {result : HdOpenConnectionResult} {fd : Fd} {e : OpenConnEntry}
    (h : resultMatches result fd e = true) : e.targetFd = fd := by
  simp only [resultMatches, Bool.and_eq_true, decide_eq_true_eq] at h
  exact h.1.1.2

theorem process_proper (h : Inv s) {n : ℕ} {m : Msg} (hm : s.inflight[n]? = some m)
    (hcp : s'.cp = cpProcessFrame s.cp m.fd m.type m.payload) : Proper s s' (.process n) := by
  have hmem := List.mem_of_getElem? hm
  have hout := cpProcessFrame_outcome h.slots h.hdPeers (h.msgFds m hmem) m.type m.payload
  rw [← hcp] at hout
  have hthis : ∀ i, (s.cp.openConns i).inUse = true → (s.cp.openConns i).targetFd = m.fd →
      ∀ n' m', Op.process n = .process n' → s.inflight[n']? = some m' → s.target i = m'.sender := by
    intro i huse hfd n' m' hop hm'
    cases hop
    rw [hm] at hm'
    cases hm'
    exact h.msgTarget m hmem i huse hfd
  cases hout with
  | nothing hu hid => exact no_results hu.attempted hu.openConns
  | refused gateway corr hid hr =>
    obtain ⟨reqs, reason, path, hreqs, hatt⟩ := hr.attempted
    constructor
    · intro gateway' corr' x hx hres k hk
      rw [List.append_assoc] at hatt
      rw [drop_attempted hatt] at hx
      rcases List.mem_append.1 hx with hx | hx
      · rw [(hreqs x hx).noResult.isResult gateway' corr'] at hres
        cases hres
      · rw [List.mem_singleton.1 hx] at hres hk
        obtain ⟨rfl, rfl⟩ := (isResult_openResult _ (requestId_lt hid) _ _ _ _ _ _).1 hres
        exact .inl ⟨n, m, rfl, hm, h.msgConn m hmem k hk, hid⟩
    · rintro n' m' - - i ⟨huse, hfree⟩
      rw [hr.openConns, huse] at hfree
      cases hfree
  | pending i e buf he hbuf hp =>
    constructor
    · intro gateway' corr' x hx hres
      rw [drop_attempted hp.attempted, List.mem_singleton] at hx
      rw [hx, hbuf.noResult.isResult gateway' corr'] at hres
      cases hres
    · rintro n' m' - - j ⟨huse, hfree⟩
      have hji : j ≠ i := by
        rintro rfl
        rw [hp.free] at huse
        cases huse
      rw [hp.openConns, Function.update_of_ne hji, huse] at hfree
      cases hfree
  | answered hd resp i htype hresp hhd hfind hr =>
    obtain ⟨huse, hmatch⟩ := openConnFind_some hfind
    exact released_proper h huse hr (hthis i huse (responseMatches_target hmatch))
  | relayed result i htype hresult hfind hr =>
    obtain ⟨huse, hmatch⟩ := openConnFind_some hfind
    exact released_proper h huse hr (hthis i huse (resultMatches_target hmatch))

theorem Inv.delivered (h : Inv s) : Delivered s := by
  intro op s' hs
  cases op with
  | connect fd =>
    rw [step, Option.ite_none_right_eq_some, Option.some.injEq] at hs
    rw [← hs.2]
    exact no_results rfl rfl
  | close fd =>
    rw [step, Option.ite_none_right_eq_some, Option.some.injEq] at hs
    rw [← hs.2]
    exact no_results rfl rfl
  | send fd type payload =>
    obtain ⟨k, -, rfl⟩ := Option.map_eq_some_iff.1 hs
    exact no_results rfl rfl
  | process n =>
    obtain ⟨m, hm, hs⟩ := Option.bind_eq_some_iff.1 hs
    rw [Option.ite_none_right_eq_some, Option.some.injEq] at hs
    apply process_proper h hm
    rw [← hs.2]
  | scan =>
    rw [step, Option.some.injEq] at hs
    apply scan_proper h
    rw [← hs]
  | elsewhere cp =>
    rw [step, Option.ite_none_right_eq_some, Option.some.injEq] at hs
    rw [← hs.2]
    exact no_results rfl rfl

/-! ### Runs -/

theorem Init.inv (h : Init s) : Inv s := by
  have hfree : ∀ i, ¬(s.cp.openConns i).inUse = true := by
    intro i
    rw [h.slots i]
    nofun
  constructor
  · exact ⟨fun i _ => h.slots i, fun i hi => absurd hi (hfree i), fun i hi => absurd hi (hfree i)⟩
  · exact h.hdPeers
  · intro fd k hk
    rw [h.conn] at hk
    cases hk
  · exact fun i hi => absurd hi (hfree i)
  · exact fun i hi => absurd hi (hfree i)
  · simp [h.inflight]
  · simp [h.inflight]
  · simp [h.inflight]

namespace Inv

theorem connect (h : Inv s) {fd : Fd} (hfd : 0 ≤ fd) (hfree : fdFree s (.connect fd)) :
    Inv { s with conn := Function.update s.conn fd (some s.opened), opened := s.opened + 1 } := by
  obtain ⟨hslots, hmsgs⟩ := hfree
  have hold : ∀ fd', fd' ≠ fd → Function.update s.conn fd (some s.opened) fd' = s.conn fd' :=
    fun fd' hne => Function.update_of_ne hne _ _
  constructor
  · exact h.slots
  · exact h.hdPeers
  · intro fd' k hk
    by_cases hne : fd' = fd
    · rw [hne]
      exact hfd
    · exact h.fds fd' k ((hold fd' hne).symm.trans hk)
  · intro i huse k hk
    exact h.initiator i huse k ((hold _ (hslots i huse).1).symm.trans hk)
  · intro i huse k hk
    exact h.target i huse k ((hold _ (hslots i huse).2).symm.trans hk)
  · exact h.msgFds
  · intro m hm k hk
    exact h.msgConn m hm k ((hold _ (hmsgs m hm)).symm.trans hk)
  · exact h.msgTarget

theorem close (h : Inv s) (fd : Fd) : Inv { s with conn := Function.update s.conn fd none } := by
  have hold : ∀ fd' k, Function.update s.conn fd none fd' = some k → s.conn fd' = some k := by
    intro fd' k hk
    by_cases hne : fd' = fd
    · rw [hne, Function.update_self] at hk
      cases hk
    · rwa [Function.update_of_ne hne] at hk
  constructor
  · exact h.slots
  · exact h.hdPeers
  · exact fun fd' k hk => h.fds fd' k (hold fd' k hk)
  · exact fun i huse k hk => h.initiator i huse k (hold _ k hk)
  · exact fun i huse k hk => h.target i huse k (hold _ k hk)
  · exact h.msgFds
  · exact fun m hm k hk => h.msgConn m hm k (hold _ k hk)
  · exact h.msgTarget

theorem send (h : Inv s) {fd : Fd} {k : ℕ} (hk : s.conn fd = some k) (type : FrameType)
    (payload : Bytes) : Inv { s with inflight := s.inflight ++ [⟨k, fd, type, payload⟩] } := by
  constructor
  · exact h.slots
  · exact h.hdPeers
  · exact h.fds
  · exact h.initiator
  · exact h.target
  · intro m hm
    rcases List.mem_append.1 hm with hm | hm
    · exact h.msgFds m hm
    · rw [List.mem_singleton.1 hm]
      exact h.fds fd k hk
  · intro m hm k' hk'
    rcases List.mem_append.1 hm with hm | hm
    · exact h.msgConn m hm k' hk'
    · rw [List.mem_singleton.1 hm] at hk' ⊢
      exact Option.some.inj (hk.symm.trans hk')
  · intro m hm i huse hfd
    rcases List.mem_append.1 hm with hm | hm
    · exact h.msgTarget m hm i huse hfd
    · rw [List.mem_singleton.1 hm] at hfd ⊢
      dsimp only at hfd ⊢
      rw [← hfd] at hk
      exact h.target i huse k hk

theorem fewer (h : Inv s) {cp : ControlPlane} (hok : SlotsOk cp) (hsome : cp.hdPeers.isSome)
    (hslots : ∀ i, (cp.openConns i).inUse = true → cp.openConns i = s.cp.openConns i) :
    Inv { s with cp := cp } := by
  have hold : ∀ i, (cp.openConns i).inUse = true → (s.cp.openConns i).inUse = true := by
    intro i huse
    rw [← hslots i huse]
    exact huse
  constructor
  · exact hok
  · exact hsome
  · exact h.fds
  · intro i huse k hk
    rw [hslots i huse] at hk
    exact h.initiator i (hold i huse) k hk
  · intro i huse k hk
    rw [hslots i huse] at hk
    exact h.target i (hold i huse) k hk
  · exact h.msgFds
  · exact h.msgConn
  · intro m hm i huse hfd
    rw [hslots i huse] at hfd
    exact h.msgTarget m hm i (hold i huse) hfd

theorem process (h : Inv s) {n : ℕ} {m : Msg} (hm : s.inflight[n]? = some m)
    (hopen : targetsOpen s (cpProcessFrame s.cp m.fd m.type m.payload) = true) :
    Inv { s with
      cp := cpProcessFrame s.cp m.fd m.type m.payload
      inflight := s.inflight.eraseIdx n
      initiator := fun i => if (s.cp.openConns i).inUse then s.initiator i else m.sender
      target := fun i =>
        if (s.cp.openConns i).inUse then s.target i
        else (s.conn ((cpProcessFrame s.cp m.fd m.type m.payload).openConns i).targetFd).getD 0 } := by
  have hmem := List.mem_of_getElem? hm
  have hout := cpProcessFrame_outcome h.slots h.hdPeers (h.msgFds m hmem) m.type m.payload
  revert hopen hout
  generalize cpProcessFrame s.cp m.fd m.type m.payload = cp
  intro hopen hout
  have hrest : ∀ m' ∈ s.inflight.eraseIdx n, m' ∈ s.inflight :=
    fun m' hm' => List.mem_of_mem_eraseIdx hm'
  -- a slot is an old one, or the sender's
  have hcases : ∀ i, (cp.openConns i).inUse = true →
      ((s.cp.openConns i).inUse = true ∧ cp.openConns i = s.cp.openConns i) ∨
        ((s.cp.openConns i).inUse = false ∧ (cp.openConns i).initiatorFd = m.fd ∧
          ∃ k, s.conn (cp.openConns i).targetFd = some k) := by
    intro i huse
    cases hold : (s.cp.openConns i).inUse with
    | true =>
      rcases hout.slot huse with heq | ⟨hfree, -⟩
      · exact .inl ⟨rfl, heq⟩
      · rw [hfree] at hold
        cases hold
    | false =>
      rcases hout.slot huse with heq | ⟨-, he⟩
      · rw [heq, hold] at huse
        cases huse
      · have htarget := List.all_eq_true.1 hopen i (List.mem_finRange i)
        rw [huse, hold, Bool.not_true, Bool.false_or, Bool.false_or] at htarget
        exact .inr ⟨rfl, he.fields.2.1, Option.isSome_iff_exists.1 htarget⟩
  constructor
  · exact hout.slotsOk h.slots (h.msgFds m hmem)
  · exact hout.hdPeers.trans h.hdPeers
  · exact h.fds
  · intro i huse k hk
    dsimp only at hk ⊢
    rcases hcases i huse with ⟨hold, heq⟩ | ⟨hold, hinit, -⟩
    · rw [if_pos hold]
      rw [heq] at hk
      exact h.initiator i hold k hk
    · rw [hold, if_neg nofun]
      rw [hinit] at hk
      exact h.msgConn m hmem k hk
  · intro i huse k hk
    dsimp only at hk ⊢
    rcases hcases i huse with ⟨hold, heq⟩ | ⟨hold, -, -⟩
    · rw [if_pos hold]
      rw [heq] at hk
      exact h.target i hold k hk
    · rw [hold, if_neg nofun, hk]
      rfl
  · exact fun m' hm' => h.msgFds m' (hrest m' hm')
  · exact fun m' hm' => h.msgConn m' (hrest m' hm')
  · intro m' hm' i huse hfd
    dsimp only at hfd ⊢
    rcases hcases i huse with ⟨hold, heq⟩ | ⟨hold, -, k, hk⟩
    · rw [if_pos hold]
      rw [heq] at hfd
      exact h.msgTarget m' (hrest m' hm') i hold hfd
    · rw [hold, if_neg nofun, hk]
      rw [hfd] at hk
      exact (h.msgConn m' (hrest m' hm') k hk).symm

end Inv

theorem step_inv (h : Inv s) {op : Op} (hfree : fdFree s op) (hs : step s op = some s') :
    Inv s' := by
  cases op with
  | connect fd =>
    rw [step, Option.ite_none_right_eq_some, Option.some.injEq] at hs
    rw [← hs.2]
    exact h.connect hs.1.1 hfree
  | close fd =>
    rw [step, Option.ite_none_right_eq_some, Option.some.injEq] at hs
    rw [← hs.2]
    exact h.close fd
  | send fd type payload =>
    obtain ⟨k, hk, rfl⟩ := Option.map_eq_some_iff.1 hs
    exact h.send hk type payload
  | process n =>
    obtain ⟨m, hm, hs⟩ := Option.bind_eq_some_iff.1 hs
    rw [Option.ite_none_right_eq_some, Option.some.injEq] at hs
    rw [← hs.2]
    exact h.process hm hs.1
  | scan =>
    have hswept := scan_swept h.slots.fds
    have hfewer := h.fewer (h.slots.swept hswept) (by rw [hswept.hdPeers]; exact h.hdPeers)
      fun i huse => hswept.slot huse
    rw [step, Option.some.injEq] at hs
    rw [← hs]
    exact hfewer
  | elsewhere cp =>
    rw [step, Option.ite_none_right_eq_some, Option.some.injEq] at hs
    obtain ⟨hhd, hs⟩ := hs
    rw [← hs]
    apply h.fewer
    · exact h.slots.of_openConns rfl
    · exact hhd
    · exact fun i _ => rfl

theorem results_delivered (h : Runs.Reach Init step fdFree s) : Delivered s := by
  have hinv : Inv s := h.invariant (fun _ h0 => h0.inv) fun _ _ _ hi hok hs => step_inv hi hok hs
  exact hinv.delivered

end

/-! A peer on fd 6, and a client on fd 5 that asks for it and leaves. -/

def start : State := { cp := Accounting.gatewayCp }

theorem start_init : Init start := ⟨fun _ => rfl, rfl, rfl, fun _ => rfl, rfl⟩

def asked : List Op :=
  [.connect 6, .connect 5, .send 5 HdFrameType.kOpenConnection (hdOpenConnectionPayload 1 0 0 0 9),
    .process 0, .send 6 HdFrameType.kIncomingConnResponse (writeU64 9 ++ [0, 0, 0])]

def replaced : List Op := asked ++ [Op.close 5, Op.connect 5]

def slotsOf (k : ℕ) (s : State) : Bool :=
  (List.finRange kCpMaxOpenConns).all fun i =>
    !(s.cp.openConns i).inUse || decide (s.initiator i = k)

/-- The results of the next step: recipients, and whether they are for id 9. -/
def nextResults (s : State) : Option (List (Fd × Bool)) :=
  (step s (.process 0)).map fun s' =>
    (s'.cp.attempted.drop s.cp.attempted.length).map fun x => (x.1, isResult false 9 x.2)

theorem result_reaches_later_connection :
    ¬∀ s, Runs.Reach Init step Runs.Any s → Delivered s := by
  intro hall
  have hrun : (Runs.run step start replaced).map (fun s =>
      (s.conn 5, s.inflight.map Msg.sender, slotsOf 1 s)) = some (some 2, [0], true) := by
    decide +kernel
  have hnext : (Runs.run step start replaced).map nextResults = some (some [(5, true)]) := by
    decide +kernel
  obtain ⟨s, hs, hview⟩ := Option.map_eq_some_iff.1 hrun
  rw [hs, Option.map_some, Option.some.injEq] at hnext
  simp only [Prod.mk.injEq] at hview
  obtain ⟨hconn, hsender, hslots⟩ := hview
  obtain ⟨s', hs', hres⟩ := Option.map_eq_some_iff.1 hnext
  have hmem : ((5 : Fd), true) ∈ (s'.cp.attempted.drop s.cp.attempted.length).map
      fun x => (x.1, isResult false 9 x.2) := by
    rw [hres]
    exact List.mem_singleton_self _
  obtain ⟨x, hx, hpair⟩ := List.mem_map.1 hmem
  rw [Prod.mk.injEq] at hpair
  obtain ⟨hfd, his⟩ := hpair
  rw [← hfd] at hconn
  have hproper := hall s (Runs.reach_of_run start_init hs) _ s' hs'
  rcases hproper.results false 9 x hx his 2 hconn with ⟨n, m, -, hm, hk, -⟩ | ⟨i, hrel, hk, -⟩
  · have hin : m.sender ∈ s.inflight.map Msg.sender :=
      List.mem_map_of_mem (List.mem_of_getElem? hm)
    rw [hsender, hk] at hin
    simp at hin
  · have hone := List.all_eq_true.1 hslots i (List.mem_finRange i)
    rw [hrel.1, hk] at hone
    cases hone

theorem results_delivered_one :
    ∃ s, Runs.Reach Init step fdFree s ∧ nextResults s = some [(5, true)] ∧ Delivered s := by
  have hrun : (Runs.run step start asked).map nextResults = some (some [(5, true)]) := by
    decide +kernel
  obtain ⟨s, hs, hnext⟩ := Option.map_eq_some_iff.1 hrun
  have hreach : Runs.Reach Init step fdFree s := by
    apply Runs.reach_run (.start start start_init) _ hs
    have hslots : ∀ i, ¬(start.cp.openConns i).inUse = true := by
      intro i
      rw [start_init.slots i]
      nofun
    refine ⟨⟨fun i huse => absurd huse (hslots i), nofun⟩, fun s1 hs1 => ?_⟩
    cases hs1
    refine ⟨⟨fun i huse => absurd huse (hslots i), nofun⟩, fun s2 hs2 => ?_⟩
    apply Runs.runOk_of_forall
    intro s op hop
    simp only [List.mem_cons, List.not_mem_nil, or_false] at hop
    rcases hop with rfl | rfl | rfl <;> trivial
  exact ⟨s, hreach, hnext, results_delivered hreach⟩

end HyperDerp.Recipients
