import HyperDerp.HdProtocol
import HyperDerp.Lib.Runs
import Mathlib.Logic.Function.Basic

/-!
# Waiting for the result of an open (`client.cc:411-428`, `:650-697`)

An `Open` call keeps its slot on its stack and registers it under its correlation id. A thread in
`DispatchFrame` looks the slot up under one lock, lets go of it, and writes under the slot's own.
Calls and threads are numbered.
-/

namespace HyperDerp.OpenWaits

/-- `Impl::OpenWait` -/
structure OpenWait where
  done : Bool := false
  result : HdOpenConnectionResult

inductive Outcome where
  | timedOut
  | denied (reason : HdDenyReason)
  | opened (result : HdOpenConnectionResult)

/-- Where a call stands: it waits, its wait has ended, its slot is out of the map, or it has
returned and its slot is gone. -/
inductive Pc where
  | waiting
  | woken
  | erased
  | returned (outcome : Outcome)

structure Call where
  corr : ℕ
  slot : OpenWait
  pc : Pc := .waiting

structure State where
  nextCorrId : ℕ := 1
  calls : ℕ → Option Call := fun _ => none
  openWaits : ℕ → Option ℕ := fun _ => none
  /-- the slot a thread has found, and the result it is going to write -/
  holding : ℕ → Option (ℕ × HdOpenConnectionResult) := fun _ => none
  /-- a slot was written after its call had returned -/
  lateWrite : Bool := false

inductive Label where
  | start (k : ℕ)
  /-- the wait ends, by the result or by the time -/
  | wake (k : ℕ)
  | erase (k : ℕ)
  | finish (k : ℕ)
  | find (d : ℕ) (payload : Bytes)
  | write (d : ℕ)

/-- `HdOpenConnectionResult{}` -/
def noResult : HdOpenConnectionResult where
  correlationId := 0
  mode := 0
  denyReason := 0
  subReason := 0
  relayPath := []
  endpointHint := []

def OpenWait.outcome (w : OpenWait) : Outcome :=
  if w.done = false then .timedOut
  else if w.result.mode = .kDenied then .denied w.result.denyReason
  else .opened w.result

def State.setCall (s : State) (k : ℕ) (c : Call) : State :=
  { s with calls := Function.update s.calls k (some c) }

def Pc.isReturned : Pc → Bool
  | .returned _ => true
  | _ => false

def step (s : State) : Label → Option State
  | .start k =>
    match s.calls k with
    | some _ => none
    | none =>
      let corr := s.nextCorrId % 2 ^ 64
      some { s.setCall k { corr := corr, slot := { result := noResult } } with
        nextCorrId := s.nextCorrId + 1
        openWaits := Function.update s.openWaits corr (some k) }
  | .wake k =>
    match s.calls k with
    | some ⟨corr, slot, .waiting⟩ => some (s.setCall k ⟨corr, slot, .woken⟩)
    | _ => none
  | .erase k =>
    match s.calls k with
    | some ⟨corr, slot, .woken⟩ =>
      some { s.setCall k ⟨corr, slot, .erased⟩ with
        openWaits := Function.update s.openWaits corr none }
    | _ => none
  | .finish k =>
    match s.calls k with
    | some ⟨corr, slot, .erased⟩ => some (s.setCall k ⟨corr, slot, .returned slot.outcome⟩)
    | _ => none
  | .find d payload =>
    match s.holding d, hdParseOpenConnectionResult payload with
    | none, some r =>
      match s.openWaits r.correlationId with
      | some k => some { s with holding := Function.update s.holding d (some (k, r)) }
      | none => some s
    | none, none => some s
    | some _, _ => none
  | .write d =>
    match s.holding d with
    | none => none
    | some (k, r) =>
      let s := { s with holding := Function.update s.holding d none }
      match s.calls k with
      | none => some s
      | some c =>
        if c.pc.isReturned then some { s with lateWrite := true }
        else some (s.setCall k { c with slot := { done := true, result := r } })

def Init (s : State) : Prop := s = {}

/-- No slot is written after its call has returned, and a call that returns success returns the
result under its own correlation id. -/
structure Sound (s : State) : Prop where
  inTime : s.lateWrite = false
  own : ∀ k c r, s.calls k = some c → c.pc = .returned (.opened r) → r.correlationId = c.corr

/-- A call returns only while no thread holds its slot. -/
def StepOk (s : State) : Label → Prop
  | .finish k => ∀ d r, s.holding d ≠ some (k, r)
  | _ => True

/-- Slots are registered and written under their own correlation ids. -/
structure Inv (s : State) : Prop where
  registered : ∀ corr k, s.openWaits corr = some k → ∃ c, s.calls k = some c ∧ c.corr = corr ∧
    (c.pc = .waiting ∨ c.pc = .woken)
  held : ∀ d k r, s.holding d = some (k, r) → ∃ c, s.calls k = some c ∧ c.corr = r.correlationId ∧
    c.pc.isReturned = false
  written : ∀ k c, s.calls k = some c → c.slot.done = true → c.slot.result.correlationId = c.corr

variable {s s' : State} {l : Label}

theorem outcome_own {w : OpenWait} {r : HdOpenConnectionResult} (h : w.outcome = .opened r) :
    w.done = true ∧ w.result = r := by
  unfold OpenWait.outcome at h
  split at h
  · cases h
  · next hdone =>
    split at h
    · cases h
    · cases h
      exact ⟨Bool.not_eq_false _ ▸ hdone, rfl⟩

theorem calls_setCall (k : ℕ) (c : Call) (j : ℕ) :
    (s.setCall k c).calls j = if j = k then some c else s.calls j :=
  Function.update_apply ..

theorem Inv.setCall (h : Inv s) {k : ℕ} {c x : Call} (hc : s.calls k = some c)
    (hcorr : x.corr = c.corr)
    (hreg : ∀ corr, s.openWaits corr = some k → x.pc = .waiting ∨ x.pc = .woken)
    (hheld : ∀ d r, s.holding d = some (k, r) → x.pc.isReturned = false)
    (hwritten : x.slot.done = true → x.slot.result.correlationId = x.corr) :
    Inv (s.setCall k x) where
  registered corr j hj := by
    obtain ⟨y, hx, hxc, hxp⟩ := h.registered corr j hj
    rw [calls_setCall]
    split
    · next heq =>
      rw [heq, hc] at hx
      cases hx
      exact ⟨x, rfl, hcorr.trans hxc, hreg corr (heq ▸ hj)⟩
    · exact ⟨y, hx, hxc, hxp⟩
  held d j r hj := by
    obtain ⟨y, hx, hxc, hxp⟩ := h.held d j r hj
    rw [calls_setCall]
    split
    · next heq =>
      rw [heq, hc] at hx
      cases hx
      exact ⟨x, rfl, hcorr.trans hxc, hheld d r (heq ▸ hj)⟩
    · exact ⟨y, hx, hxc, hxp⟩
  written j y hj hdone := by
    rw [calls_setCall] at hj
    split at hj
    · cases hj
      exact hwritten hdone
    · exact h.written j y hj hdone

theorem Sound.setCall (h : Sound s) {k : ℕ} {x : Call}
    (hown : ∀ r, x.pc = .returned (.opened r) → r.correlationId = x.corr) :
    Sound (s.setCall k x) where
  inTime := h.inTime
  own j y r hj hpc := by
    rw [calls_setCall] at hj
    split at hj
    · cases hj
      exact hown r hpc
    · exact h.own j y r hj hpc

theorem Inv.start (h : Inv s) {k : ℕ} (hk : s.calls k = none) (corr next : ℕ) :
    Inv { s.setCall k { corr := corr, slot := { result := noResult } } with
      nextCorrId := next
      openWaits := Function.update s.openWaits corr (some k) } where
  registered cid j hj := by
    dsimp only at hj ⊢
    rw [calls_setCall]
    by_cases hcid : cid = corr
    · rw [hcid, Function.update_self] at hj
      cases hj
      exact ⟨_, if_pos rfl, hcid.symm, .inl rfl⟩
    · rw [Function.update_of_ne hcid] at hj
      obtain ⟨x, hx, hrest⟩ := h.registered cid j hj
      have hne : j ≠ k := by
        rintro rfl
        rw [hk] at hx
        cases hx
      exact ⟨x, by rw [if_neg hne, hx], hrest⟩
  held d j r hj := by
    obtain ⟨x, hx, hrest⟩ := h.held d j r hj
    have hne : j ≠ k := by
      rintro rfl
      rw [hk] at hx
      cases hx
    exact ⟨x, by rw [calls_setCall, if_neg hne, hx], hrest⟩
  written j x hj hdone := by
    rw [calls_setCall] at hj
    split at hj
    · cases hj
      cases hdone
    · exact h.written j x hj hdone

theorem Inv.unregister (h : Inv s) (corr : ℕ) :
    Inv { s with openWaits := Function.update s.openWaits corr none } where
  registered cid j hj := by
    dsimp only at hj
    by_cases hcid : cid = corr
    · rw [hcid, Function.update_self] at hj
      cases hj
    · rw [Function.update_of_ne hcid] at hj
      exact h.registered cid j hj
  held := h.held
  written := h.written

theorem Inv.release (h : Inv s) (d : ℕ) :
    Inv { s with holding := Function.update s.holding d none } where
  registered := h.registered
  held d' j r hj := by
    dsimp only at hj
    by_cases hd : d' = d
    · rw [hd, Function.update_self] at hj
      cases hj
    · rw [Function.update_of_ne hd] at hj
      exact h.held d' j r hj
  written := h.written

theorem Inv.hold (h : Inv s) {d k : ℕ} {r : HdOpenConnectionResult}
    (hk : s.openWaits r.correlationId = some k) :
    Inv { s with holding := Function.update s.holding d (some (k, r)) } where
  registered := h.registered
  held d' j r' hj := by
    dsimp only at hj
    by_cases hd : d' = d
    · rw [hd, Function.update_self] at hj
      cases hj
      obtain ⟨c, hc, hcorr, hpc⟩ := h.registered _ k hk
      refine ⟨c, hc, hcorr, ?_⟩
      rcases hpc with hpc | hpc <;> rw [hpc] <;> rfl
    · rw [Function.update_of_ne hd] at hj
      exact h.held d' j r' hj
  written := h.written

theorem step_inv (hinv : Inv s) (h : Sound s) (hok : StepOk s l) (hs : step s l = some s') :
    Inv s' ∧ Sound s' := by
  cases l with
  | start k =>
    simp only [step] at hs
    split at hs
    · cases hs
    · next hk =>
      cases hs
      refine ⟨hinv.start hk _ _, ?_⟩
      have hsound := h.setCall (k := k)
        (x := { corr := s.nextCorrId % 2 ^ 64, slot := { result := noResult } }) nofun
      exact ⟨hsound.inTime, hsound.own⟩
  | wake k =>
    simp only [step] at hs
    split at hs
    · next corr slot hc =>
      cases hs
      have hw := hinv.written k _ hc
      exact ⟨hinv.setCall hc rfl (fun _ _ => .inr rfl) (fun _ _ _ => rfl) hw, h.setCall nofun⟩
    · cases hs
  | erase k =>
    simp only [step] at hs
    split at hs
    · next corr slot hc =>
      cases hs
      have hdrop := hinv.unregister corr
      have hgone : ∀ cid, Function.update s.openWaits corr none cid ≠ some k := by
        intro cid hcid
        obtain ⟨x, hx, hxc, -⟩ := hdrop.registered cid k hcid
        rw [show s.calls k = some x from hx] at hc
        cases hc
        rw [← hxc, Function.update_self] at hcid
        cases hcid
      have hw := hinv.written k _ hc
      have hset := hdrop.setCall (x := ⟨corr, slot, .erased⟩) hc rfl
        (fun cid hcid => (hgone cid hcid).elim) (fun _ _ _ => rfl) hw
      have hsound := h.setCall (k := k) (x := ⟨corr, slot, .erased⟩) nofun
      exact ⟨hset, ⟨hsound.inTime, hsound.own⟩⟩
    · cases hs
  | finish k =>
    simp only [step] at hs
    split at hs
    · next corr slot hc =>
      cases hs
      have hw := hinv.written k _ hc
      constructor
      · apply hinv.setCall (x := ⟨corr, slot, .returned slot.outcome⟩) hc rfl
        · intro cid hcid
          obtain ⟨x, hx, -, hpc⟩ := hinv.registered cid k hcid
          rw [hc] at hx
          cases hx
          rcases hpc with hpc | hpc <;> cases hpc
        · exact fun d r hd => (hok d r hd).elim
        · exact hw
      · apply h.setCall
        intro r hr
        injection hr with hr
        obtain ⟨hdone, hres⟩ := outcome_own hr
        rw [← hres]
        exact hw hdone
    · cases hs
  | find d payload =>
    simp only [step] at hs
    split at hs
    · split at hs
      · next k hk =>
        cases hs
        exact ⟨hinv.hold hk, ⟨h.inTime, h.own⟩⟩
      · cases hs
        exact ⟨hinv, h⟩
    · cases hs
      exact ⟨hinv, h⟩
    · cases hs
  | write d =>
    simp only [step] at hs
    split at hs
    · cases hs
    · next k r hd =>
      obtain ⟨c, hc, hcorr, hpc⟩ := hinv.held d k r hd
      rw [hc] at hs
      dsimp only at hs
      rw [if_neg (by rw [hpc]; exact Bool.false_ne_true)] at hs
      cases hs
      have hrel := hinv.release d
      constructor
      · apply hrel.setCall (x := { c with slot := { done := true, result := r } }) hc rfl
        · intro cid hcid
          obtain ⟨x, hx, -, hxp⟩ := hinv.registered cid k hcid
          rw [hc] at hx
          cases hx
          exact hxp
        · exact fun _ _ _ => hpc
        · exact fun _ => hcorr.symm
      · have hsound := h.setCall (k := k) (x := { c with slot := { done := true, result := r } })
          (fun r' hr' => h.own k c r' hc hr')
        exact ⟨hsound.inTime, hsound.own⟩

theorem init_sound (hs : Init s) : Inv s ∧ Sound s := by
  rw [hs]
  exact ⟨⟨nofun, nofun, nofun⟩, rfl, nofun⟩

theorem write_late {d k : ℕ} {r : HdOpenConnectionResult} {c : Call} {outcome : Outcome}
    (hd : s.holding d = some (k, r)) (hc : s.calls k = some c) (hpc : c.pc = .returned outcome) :
    ∃ s', step s (.write d) = some s' ∧ s'.lateWrite = true := by
  refine ⟨{ s with
    holding := Function.update s.holding d none
    lateWrite := true }, ?_, rfl⟩
  simp [step, hd, hc, hpc, Pc.isReturned]

/-- As long as every call returns only while no thread holds its slot, slots outlive their
results; a return at any other time lets a late write follow. -/
theorem waits_outlive_results (h : Runs.Reach Init step StepOk s) :
    Sound s ∧ ∀ k s', step s (.finish k) = some s' → ¬ StepOk s (.finish k) →
      ∃ d s'', step s' (.write d) = some s'' ∧ s''.lateWrite = true := by
  have hboth : Inv s ∧ Sound s := by
    apply Runs.Reach.invariant _ _ h
    · exact fun s hs => init_sound hs
    · rintro s s' l ⟨hinv, hsound⟩ hok hs
      exact step_inv hinv hsound hok hs
  refine ⟨hboth.2, fun k s' hs hbad => ?_⟩
  obtain ⟨d, r, hd⟩ : ∃ d r, s.holding d = some (k, r) := by
    simpa [StepOk] using hbad
  simp only [step] at hs
  split at hs
  · next corr slot hc =>
    cases hs
    obtain ⟨s'', hs'', hlate⟩ := write_late (s := s.setCall k ⟨corr, slot, .returned slot.outcome⟩)
      (c := ⟨corr, slot, .returned slot.outcome⟩) hd (by rw [calls_setCall, if_pos rfl]) rfl
    exact ⟨d, s'', hs'', hlate⟩
  · cases hs

def firstResult : Bytes := [0, 0, 0, 0, 0, 0, 0, 1, 2, 0, 0, 0, 0, 0, 0, 0]

/-- The first call gets its result before its time is up. -/
theorem first_open_returns : ∃ s s', Runs.run step {} [.start 0, .find 0 firstResult, .write 0,
    .wake 0, .erase 0] = some s ∧ step s (.finish 0) = some s' ∧ Sound s' := by
  obtain ⟨s, hs, s', hs', hfree⟩ : ∃ s, Runs.run step {} [.start 0, .find 0 firstResult, .write 0,
      .wake 0, .erase 0] = some s ∧ ∃ s', step s (.finish 0) = some s' ∧
      ∀ d, s.holding d = none := by
    refine ⟨_, rfl, _, rfl, fun d => ?_⟩
    change Function.update (Function.update (fun _ => none) 0 _) 0 none d = none
    simp [Function.update_apply]
  have hreach : Runs.Reach Init step StepOk s := by
    have hstart : Runs.Reach Init step StepOk {} := .start _ rfl
    apply Runs.reach_run hstart (Runs.runOk_of_forall (fun s l hl => ?_) _) hs
    simp only [List.mem_cons, List.not_mem_nil, or_false] at hl
    rcases hl with rfl | rfl | rfl | rfl | rfl <;> trivial
  have hok : StepOk s (.finish 0) := by
    intro d r hd
    rw [hfree d] at hd
    cases hd
  exact ⟨s, s', hs, hs', (waits_outlive_results (.next s s' _ hreach hok hs')).1⟩

/-- The result comes when the first call has just timed out. -/
theorem not_sound_timeout : ¬ ∀ (ls : List Label) (s : State), Runs.run step {} ls = some s →
    Sound s := by
  intro h
  have hsound := h [.start 0, .find 0 firstResult, .wake 0, .erase 0, .finish 0, .write 0] _ rfl
  have htime := hsound.inTime
  cases htime

end HyperDerp.OpenWaits
