import HyperDerp.ControlPlane.Answers
import HyperDerp.ControlPlane.Naming
import Mathlib.Data.List.GetD

/-!
# What a target learns (`control_plane.cc:961-1012`, `:1292-1383`)

A slot is local, outbound or held for a relay link. `SendOpenResultAndCleanup` tells the initiator
side of each how the slot ended; its target is told of a granted local slot only.
-/

namespace HyperDerp.Outcomes

open Answers (State Op step Init Settled)
open Naming (sent)

/-- An `OpenConnection` that was forwarded to another relay. -/
def Outbound (e : OpenConnEntry) : Prop := e.targetRelayId ≠ 0 ∧ e.isGatewayInbound = false

def modeByte (frame : Bytes) : HdConnMode := frame.getD (kHdFrameHeaderSize + 8) 0

def isMirror (frame : Bytes) : Bool := decide (hdReadFrameType frame = HdFrameType.kIncomingConnResult)

def mirrors (cp cp' : ControlPlane) : List (Fd × Bytes) := (sent cp cp').filter fun x => isMirror x.2

/-- Slot `i` was in use, is free again, and its initiator side was told this mode. -/
structure Ended (cp cp' : ControlPlane) (i : OpenSlot) (mode : HdConnMode) : Prop where
  before : (cp.openConns i).inUse = true
  after : (cp'.openConns i).inUse = false
  told : ∃ x ∈ sent cp cp', x.1 = (cp.openConns i).initiatorFd ∧
    isResult (cp.openConns i).isGatewayInbound (cp.openConns i).correlationId x.2 = true ∧
    modeByte x.2 = mode

def Tells (e : OpenConnEntry) (mode : HdConnMode) (y : Fd × Bytes) : Prop :=
  y.1 = e.targetFd ∧ isMirror y.2 = true ∧ readU64 y.2 4 = e.correlationId ∧ modeByte y.2 = mode

/-- The slot that an accepting answer from `fd` completes. -/
def Accepts (cp : ControlPlane) (fd : Fd) (type : FrameType) (payload : Bytes) (i : OpenSlot) : Prop :=
  type = HdFrameType.kIncomingConnResponse ∧ ∃ resp, hdParseIncomingConnResponse payload = some resp ∧
    hasFlag resp.accept kHdFlagAccept = true ∧ openConnFind cp (responseMatches resp fd) = some i

/-- An accepting target is told once what the initiator side is told, unless it is denied; nothing
goes to a target otherwise. -/
structure Told (cp cp' : ControlPlane) (accepts : OpenSlot → Prop) : Prop where
  ends : ∀ i, accepts i → ∃ mode, Ended cp cp' i mode
  learns : ∀ i, accepts i → ¬ Outbound (cp.openConns i) → ∀ mode, Ended cp cp' i mode →
    mode ≠ .kDenied → ∃ y, mirrors cp cp' = [y] ∧ Tells (cp.openConns i) mode y
  quiet : ∀ i mode, Ended cp cp' i mode → mode = .kDenied ∨ Outbound (cp.openConns i) →
    mirrors cp cp' = []
  source : ∀ y ∈ mirrors cp cp', ∃ i mode, Ended cp cp' i mode ∧ mode ≠ .kDenied ∧
    ¬ Outbound (cp.openConns i) ∧ Tells (cp.openConns i) mode y

/-- The slots that the operation is an accepting answer for. -/
def acceptsOf (cp : ControlPlane) : Op → OpenSlot → Prop
  | .frame fd type payload => Accepts cp fd type payload
  | _ => fun _ => False

/-- Accepting answers are for slots that no relay link holds. -/
def notForLink (s : State) (op : Op) : Prop :=
  ∀ i, acceptsOf s.cp op i → (s.cp.openConns i).isGatewayInbound = false

variable {cp cp' : ControlPlane} {i j : OpenSlot} {e : OpenConnEntry} {mode m : HdConnMode}
  {reason : HdDenyReason} {sub : Byte}

/-! ### Frames -/

theorem modeByte_append (type : HdFrameType) (n corr : ℕ) (mode : HdConnMode) (rest : Bytes) :
    modeByte (hdWriteFrameHeader type n ++ (writeU64 corr ++ mode :: rest)) = mode := by
  rw [modeByte, List.getD_append_right _ _ _ _ (by simp), length_hdWriteFrameHeader,
    Nat.add_sub_cancel_left, List.getD_append_right _ _ _ _ (by simp), length_writeU64]
  rfl

theorem modeByte_openResult (gateway : Bool) (corr : ℕ) (mode : HdConnMode) (reason : HdDenyReason)
    (sub : Byte) (path : List ℕ) :
    modeByte (openResult gateway corr mode reason sub path) = mode := by
  simp only [openResult, hdOpenResultPayload, List.append_assoc, List.cons_append,
    List.nil_append]
  exact modeByte_append _ _ _ _ _

theorem modeByte_mirror (corr : ℕ) (mode : HdConnMode) (reason : HdDenyReason) (sub : Byte) :
    modeByte (hdBuildIncomingConnResult corr mode reason sub) = mode := by
  simp only [hdBuildIncomingConnResult, List.append_assoc, List.cons_append, List.nil_append]
  exact modeByte_append _ _ _ _ _

theorem readU64_mirror {corr : ℕ} (hcorr : corr < 2 ^ 64) (mode : HdConnMode)
    (reason : HdDenyReason) (sub : Byte) :
    readU64 (hdBuildIncomingConnResult corr mode reason sub) 4 = corr := by
  have hid : IsU64 corr := hcorr
  simp only [hdBuildIncomingConnResult, List.append_assoc]
  rw [readU64_skip _ (by simp [kHdFrameHeaderSize])]
  simp [kHdFrameHeaderSize, hid]

theorem not_isMirror_openResult (gateway : Bool) (corr : ℕ) (mode : HdConnMode)
    (reason : HdDenyReason) (sub : Byte) (path : List ℕ) :
    isMirror (openResult gateway corr mode reason sub path) = false := by
  cases gateway <;> rfl

theorem not_isMirror_forwards {intent : HdIntent} {frame : Bytes} (h : Forwards intent frame) :
    isMirror frame = false := by
  obtain htype | htype := h.type <;> rw [isMirror, htype] <;> rfl

theorem isMirror_mirrorOf {y : Fd × Bytes} (hy : y ∈ mirrorOf e mode reason sub) :
    isMirror y.2 = true := by
  rw [isMirror, mirrorOf_type hy]
  rfl

/-! ### A released slot -/

theorem mirrorOf_eq (h : mode ≠ .kDenied) (hfd : 0 ≤ e.targetFd) (hout : ¬ Outbound e)
    (hlocal : e.isGatewayInbound = false) :
    mirrorOf e mode reason sub =
      [(e.targetFd, hdBuildIncomingConnResult e.correlationId mode reason sub)] := by
  have hzero : e.targetRelayId = 0 := by
    by_contra hne
    exact hout ⟨hne, hlocal⟩
  simp [mirrorOf, h, hfd, hzero, hlocal]

theorem mirrorOf_nil (h : mode = .kDenied ∨ Outbound e ∨ e.isGatewayInbound = true) :
    mirrorOf e mode reason sub = [] := by
  unfold mirrorOf
  rw [if_neg]
  rintro ⟨hmode, -, hzero, hlocal⟩
  obtain h | ⟨hne, -⟩ | h := h
  · exact hmode h
  · exact hne hzero
  · simp [hlocal] at h

theorem mirrorOf_tells (hcorr : e.correlationId < 2 ^ 64) {y : Fd × Bytes}
    (hy : y ∈ mirrorOf e mode reason sub) : mode ≠ .kDenied ∧ ¬ Outbound e ∧ Tells e mode y := by
  have hmirror := isMirror_mirrorOf hy
  unfold mirrorOf at hy
  split at hy
  · next h =>
    rw [List.mem_singleton.1 hy] at hmirror ⊢
    exact ⟨h.1, fun hout => hout.1 h.2.2.1, rfl, hmirror, readU64_mirror hcorr _ _ _,
      modeByte_mirror _ _ _ _⟩
  · cases hy

namespace Released

variable (hrel : Released cp i mode reason sub cp')

include hrel

theorem sent_eq : sent cp cp' = ((cp.openConns i).initiatorFd,
    resultOf (cp.openConns i) mode reason sub) :: mirrorOf (cp.openConns i) mode reason sub := by
  rw [sent, hrel.attempted, List.drop_left]

theorem mirrors_eq : mirrors cp cp' = mirrorOf (cp.openConns i) mode reason sub := by
  have hall : ∀ y ∈ mirrorOf (cp.openConns i) mode reason sub, isMirror y.2 = true :=
    fun y hy => isMirror_mirrorOf hy
  have hresult : isMirror (resultOf (cp.openConns i) mode reason sub) = false :=
    not_isMirror_openResult _ _ _ _ _ _
  simp [mirrors, sent_eq hrel, hresult, List.filter_eq_self.2 hall]

theorem ended (hok : SlotsOk cp) (huse : (cp.openConns i).inUse = true) :
    Ended cp cp' i mode := by
  refine ⟨huse, ?_, _, by rw [sent_eq hrel]; exact List.mem_cons_self, rfl, ?_, ?_⟩
  · rw [hrel.openConns, Function.update_self]
  · exact (isResult_openResult _ (hok.ids i huse) mode reason sub _ _ _).2 ⟨rfl, rfl⟩
  · exact modeByte_openResult _ _ _ _ _ _

theorem ended_unique (h : Ended cp cp' j m) : j = i ∧ m = mode := by
  have hji : j = i := by
    by_contra hne
    have hafter := h.after
    rw [hrel.openConns, Function.update_of_ne hne, h.before] at hafter
    cases hafter
  subst hji
  obtain ⟨x, hx, -, hresult, hmode⟩ := h.told
  rw [sent_eq hrel, List.mem_cons] at hx
  obtain rfl | hx := hx
  · exact ⟨rfl, hmode.symm.trans (modeByte_openResult _ _ _ _ _ _)⟩
  · rw [(mirrorOf_noResult hx).isResult] at hresult
    cases hresult

theorem silence (hok : SlotsOk cp) (huse : (cp.openConns i).inUse = true) :
    (∀ j m, Ended cp cp' j m → m = .kDenied ∨ Outbound (cp.openConns j) → mirrors cp cp' = []) ∧
      ∀ y ∈ mirrors cp cp', ∃ j m, Ended cp cp' j m ∧ m ≠ .kDenied ∧
        ¬ Outbound (cp.openConns j) ∧ Tells (cp.openConns j) m y := by
  rw [mirrors_eq hrel]
  constructor
  · intro j m hend h
    obtain ⟨rfl, rfl⟩ := ended_unique hrel hend
    exact mirrorOf_nil (h.imp_right Or.inl)
  · intro y hy
    obtain ⟨hmode, hout, htells⟩ := mirrorOf_tells (hok.ids i huse) hy
    exact ⟨i, mode, ended hrel hok huse, hmode, hout, htells⟩

end Released

/-! ### Steps -/

theorem told_of_silent {accepts : OpenSlot → Prop} (hends : ∀ i, ¬ accepts i)
    (h : mirrors cp cp' = []) : Told cp cp' accepts := by
  constructor
  · exact fun i hi => absurd hi (hends i)
  · exact fun i hi => absurd hi (hends i)
  · exact fun _ _ _ _ => h
  · rw [h]
    exact nofun

theorem mirrors_nil {xs : List (Fd × Bytes)} (h : cp'.attempted = cp.attempted ++ xs)
    (hxs : ∀ x ∈ xs, isMirror x.2 = false) : mirrors cp cp' = [] := by
  rw [mirrors, sent, h, List.drop_left, List.filter_eq_nil_iff]
  intro x hx
  simp [hxs x hx]

theorem mirrors_nil_of_eq (h : cp'.attempted = cp.attempted) : mirrors cp cp' = [] :=
  mirrors_nil (h.trans (List.append_nil _).symm) nofun

theorem refused_silent {gateway : Bool} {fd : Fd} {corr : ℕ} {intent : HdIntent}
    (h : Refused gateway cp fd corr intent cp') : mirrors cp cp' = [] := by
  obtain ⟨reqs, reason, path, hreqs, hatt⟩ := h.attempted
  rw [List.append_assoc] at hatt
  apply mirrors_nil hatt
  intro x hx
  obtain hx | hx := List.mem_append.1 hx
  · exact not_isMirror_forwards (hreqs x hx)
  · rw [List.mem_singleton.1 hx]
    exact not_isMirror_openResult _ _ _ _ _ _

theorem not_accepts {fd : Fd} {type : FrameType} {payload : Bytes}
    (h : type ≠ HdFrameType.kIncomingConnResponse) : ¬ Accepts cp fd type payload i :=
  fun hacc => h hacc.1

theorem answered_told {fd : Fd} {payload : Bytes} {resp : HdIncomingConnResponse} (hok : SlotsOk cp)
    (hfd : 0 ≤ fd) (hresp : hdParseIncomingConnResponse payload = some resp)
    (hfind : openConnFind cp (responseMatches resp fd) = some i)
    (hrel : Released cp i mode reason sub cp')
    (hlink : hasFlag resp.accept kHdFlagAccept = true → (cp.openConns i).isGatewayInbound = false) :
    Told cp cp' (Accepts cp fd HdFrameType.kIncomingConnResponse payload) := by
  obtain ⟨huse, hmatch⟩ := openConnFind_some hfind
  have htarget : (cp.openConns i).targetFd = fd := by
    simp only [responseMatches, Bool.and_eq_true, decide_eq_true_eq] at hmatch
    exact hmatch.2
  have hone : ∀ j, Accepts cp fd HdFrameType.kIncomingConnResponse payload j →
      j = i ∧ hasFlag resp.accept kHdFlagAccept = true := by
    rintro j ⟨-, resp', hresp', hacc, hj⟩
    obtain rfl := Option.some.inj (hresp'.symm.trans hresp)
    exact ⟨Option.some.inj (hj.symm.trans hfind), hacc⟩
  obtain ⟨hquiet, hsource⟩ := Released.silence hrel hok huse
  constructor
  · intro j hj
    obtain ⟨rfl, -⟩ := hone j hj
    exact ⟨mode, Released.ended hrel hok huse⟩
  · intro j hj hout m hend hm
    obtain ⟨rfl, hacc⟩ := hone j hj
    obtain ⟨-, rfl⟩ := Released.ended_unique hrel hend
    have heq : mirrorOf (cp.openConns j) m reason sub =
        [((cp.openConns j).targetFd, hdBuildIncomingConnResult (cp.openConns j).correlationId m
          reason sub)] := by
      apply mirrorOf_eq hm _ hout (hlink hacc)
      rw [htarget]
      exact hfd
    have hmem : ((cp.openConns j).targetFd, hdBuildIncomingConnResult
        (cp.openConns j).correlationId m reason sub) ∈
          mirrorOf (cp.openConns j) m reason sub := by
      rw [heq]
      exact List.mem_singleton_self _
    rw [Released.mirrors_eq hrel, heq]
    exact ⟨_, rfl, (mirrorOf_tells (hok.ids j huse) hmem).2.2⟩
  · exact hquiet
  · exact hsource

theorem frame_told {fd : Fd} {type : FrameType} {payload : Bytes} (hok : SlotsOk cp)
    (hsome : cp.hdPeers.isSome) (hfd : 0 ≤ fd)
    (hlink : ∀ i, Accepts cp fd type payload i → (cp.openConns i).isGatewayInbound = false) :
    Told cp (cpProcessFrame cp fd type payload) (Accepts cp fd type payload) := by
  by_cases htype : type = HdFrameType.kIncomingConnResponse
  · subst htype
    change Told cp (cpHandleIncomingConnResponse cp fd payload) _
    obtain ⟨hd, hhd⟩ := Option.isSome_iff_exists.1 hsome
    cases hresp : hdParseIncomingConnResponse payload with
    | none =>
      have heq : cpHandleIncomingConnResponse cp fd payload = cp := by
        unfold cpHandleIncomingConnResponse
        rw [hresp]
      rw [heq]
      refine told_of_silent ?_ (mirrors_nil_of_eq rfl)
      rintro i ⟨-, resp, hresp', -⟩
      rw [hresp] at hresp'
      cases hresp'
    | some resp =>
      rcases incomingConnResponse_cases hresp hhd hok.fds with ⟨hnone, heq⟩ | ⟨i, hfind, hrel⟩
      · rw [heq]
        refine told_of_silent ?_ (mirrors_nil_of_eq rfl)
        rintro i ⟨-, resp', hresp', -, hfind⟩
        obtain rfl := Option.some.inj (hresp'.symm.trans hresp)
        rw [hnone] at hfind
        cases hfind
      · apply answered_told hok hfd hresp hfind hrel
        intro hacc
        exact hlink i ⟨rfl, resp, hresp, hacc, hfind⟩
  · have hnot : ∀ i, ¬ Accepts cp fd type payload i := fun i => not_accepts htype
    cases cpProcessFrame_outcome hok hsome hfd type payload with
    | nothing hu _ => exact told_of_silent hnot (mirrors_nil_of_eq hu.attempted)
    | refused gateway corr _ hr => exact told_of_silent hnot (refused_silent hr)
    | pending i e buf _ hbuf hp =>
      refine told_of_silent hnot (mirrors_nil hp.attempted ?_)
      intro x hx
      rw [List.mem_singleton.1 hx]
      exact not_isMirror_forwards hbuf
    | answered _ _ _ hresponse => exact absurd hresponse htype
    | relayed result i _ _ hfind hrel =>
      obtain ⟨hquiet, hsource⟩ := Released.silence hrel hok (openConnFind_some hfind).1
      exact ⟨fun i hi => absurd hi (hnot i), fun i hi => absurd hi (hnot i), hquiet, hsource⟩

theorem scan_told (hok : SlotsOk cp) : Told cp (scanOpenConnTimeouts cp) fun _ => False := by
  have hswept := scan_swept hok.fds
  apply told_of_silent fun _ h => h
  apply mirrors_nil hswept.attempted
  intro x hx
  obtain ⟨i, -, rfl⟩ := List.mem_map.1 hx
  exact not_isMirror_openResult _ _ _ _ _ _

/-! ### Runs -/

/-- The next step tells the targets what they are to be told. -/
def Learned (s : State) : Prop :=
  ∀ op s', notForLink s op → step s op = some s' → Told s.cp s'.cp (acceptsOf s.cp op)

theorem reach_settled {ok : State → Op → Prop} {s : State} (h : Runs.Reach Init step ok s) :
    Settled s :=
  h.invariant (fun _ h0 => h0.settled) fun _ _ _ hset _ hs => Answers.step_settled hset hs

theorem step_told {s s' : State} (h : Settled s) {op : Op} (hok : notForLink s op)
    (hs : step s op = some s') : Told s.cp s'.cp (acceptsOf s.cp op) := by
  cases op with
  | frame fd type payload =>
    rw [step, Option.ite_none_right_eq_some, Option.some.injEq] at hs
    rw [← hs.2]
    exact frame_told h.slots h.hdPeers hs.1 hok
  | scan =>
    rw [step, Option.some.injEq] at hs
    have hcp : s'.cp = scanOpenConnTimeouts s.cp := by rw [← hs]
    change Told s.cp s'.cp fun _ => False
    rw [hcp]
    exact scan_told h.slots
  | elsewhere cp =>
    rw [step, Option.ite_none_right_eq_some, Option.some.injEq] at hs
    have hatt : s'.cp.attempted = s.cp.attempted := by rw [← hs.2]
    exact told_of_silent (fun _ h => h) (mirrors_nil_of_eq hatt)

/-- In a run in which targets accept for local initiators only, each is told how its slot ended,
and no target is told of a denied or an outbound slot. -/
theorem targets_learn {s : State} (h : Runs.Reach Init step notForLink s) : Learned s :=
  fun _ _ hok hs => step_told (reach_settled h) hok hs

theorem link_target_untold {s s' : State} (h : Runs.Reach Init step Runs.Any s) {op : Op}
    (hs : step s op = some s') (hacc : acceptsOf s.cp op i)
    (hlink : (s.cp.openConns i).isGatewayInbound = true) : mirrors s.cp s'.cp = [] := by
  have hset := reach_settled h
  cases op with
  | frame fd type payload =>
    rw [step, Option.ite_none_right_eq_some, Option.some.injEq] at hs
    rw [← hs.2]
    obtain ⟨rfl, resp, hresp, -, hfind⟩ := hacc
    obtain ⟨hd, hhd⟩ := Option.isSome_iff_exists.1 hset.hdPeers
    change mirrors s.cp (cpHandleIncomingConnResponse s.cp fd payload) = []
    rcases incomingConnResponse_cases hresp hhd hset.slots.fds with ⟨hnone, -⟩ | ⟨j, hfind', hrel⟩
    · rw [hnone] at hfind
      cases hfind
    · obtain rfl := Option.some.inj (hfind.symm.trans hfind')
      rw [Released.mirrors_eq hrel]
      exact mirrorOf_nil (Or.inr (Or.inr hlink))
  | scan => exact hacc.elim
  | elsewhere cp => exact hacc.elim

/-! A peer on fd 6, a client on fd 5 and a relay link on fd 7 that ask for it, and its answer. -/

def start : State := { cp := Accounting.gatewayCp }

def clientAsks : List Op :=
  [.frame 5 HdFrameType.kOpenConnection (hdOpenConnectionPayload 1 0 0 0 9)]

def linkAsks : List Op := [.frame 7 HdFrameType.kFleetOpenConnection Accounting.gatewayRequest]

def accepts : Op := .frame 6 HdFrameType.kIncomingConnResponse (writeU64 9 ++ [0, 0, 1])

/-- The kind of the slot that the answer is for, and whom it makes us write to, with the modes. -/
def answer (s : State) : Option Bool × Option (List (Fd × HdConnMode)) :=
  ((openConnFind s.cp (responseMatches ⟨9, 0, 0, 1⟩ 6)).map fun i =>
      (s.cp.openConns i).isGatewayInbound,
    (step s accepts).map fun s' => (sent s.cp s'.cp).map fun x => (x.1, modeByte x.2))

theorem accepts_parse : hdParseIncomingConnResponse (writeU64 9 ++ [0, 0, 1]) =
    some ⟨9, 0, 0, 1⟩ := by
  decide

theorem start_init : Init start := ⟨fun _ => rfl, rfl, rfl, rfl⟩

theorem targets_learn_one : ∃ s, Runs.Reach Init step notForLink s ∧ notForLink s accepts ∧
    (answer s).2 = some [(5, 2), (6, 2)] ∧ Learned s := by
  have hrun : (Runs.run step start clientAsks).map answer =
      some (some false, some [(5, 2), (6, 2)]) := by
    decide +kernel
  obtain ⟨s, hs, hanswer⟩ := Option.map_eq_some_iff.1 hrun
  have hreach : Runs.Reach Init step notForLink s := by
    apply Runs.reach_run (.start start start_init) _ hs
    apply Runs.runOk_of_forall
    intro s op hop i hacc
    rw [List.mem_singleton.1 hop] at hacc
    exact absurd hacc (not_accepts (by decide))
  obtain ⟨hkind, hwritten⟩ := Prod.mk.inj hanswer
  refine ⟨s, hreach, ?_, hwritten, targets_learn hreach⟩
  rintro i ⟨-, resp, hresp, -, hfind⟩
  obtain rfl := Option.some.inj (hresp.symm.trans accepts_parse)
  rw [hfind, Option.map_some, Option.some.injEq] at hkind
  exact hkind

/-- The relay link is told the mode, the target that accepted is not. -/
theorem not_told_for_link : ¬ ∀ s, Runs.Reach Init step Runs.Any s → ∀ op s',
    step s op = some s' → Told s.cp s'.cp (acceptsOf s.cp op) := by
  intro hall
  have hrun : (Runs.run step start linkAsks).map answer = some (some true, some [(7, 2)]) := by
    decide +kernel
  obtain ⟨s, hs, hanswer⟩ := Option.map_eq_some_iff.1 hrun
  have hreach := Runs.reach_of_run start_init hs
  obtain ⟨hkind, hwritten⟩ := Prod.mk.inj hanswer
  obtain ⟨i, hfind, hlink⟩ := Option.map_eq_some_iff.1 hkind
  obtain ⟨s', hs', hmodes⟩ := Option.map_eq_some_iff.1 hwritten
  have hacc : acceptsOf s.cp accepts i := ⟨rfl, _, accepts_parse, by decide, hfind⟩
  have htold := hall s hreach accepts s' hs'
  obtain ⟨mode, hend⟩ := htold.ends i hacc
  have hmode : mode = 2 := by
    obtain ⟨x, hx, -, -, hx2⟩ := hend.told
    have hmem := List.mem_map_of_mem (f := fun x : Fd × Bytes => (x.1, modeByte x.2)) hx
    rw [hmodes, List.mem_singleton, hx2] at hmem
    exact (Prod.mk.inj hmem).2
  have hinbound : ¬ Outbound (s.cp.openConns i) := by simp [Outbound, hlink]
  obtain ⟨y, hy, -⟩ := htold.learns i hacc hinbound mode hend (by rw [hmode]; decide)
  rw [link_target_untold hreach hs' hacc hlink] at hy
  cases hy

end HyperDerp.Outcomes
