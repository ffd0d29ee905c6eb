import HyperDerp.DataPlane.SpscRings

/-!
# Several threads on one command ring (`data_plane.cc:345-365`, `:623-640`)

`RingPush` is for one producer. `EnqueueCmd` calls it from the accept thread, the control thread,
the channel, the poller that stops the server and the thread of the seeds, and nothing keeps two of
them from being in it at the same time.
-/

namespace HyperDerp.CmdProducers

def kCmdPushRetries : ℕ := 10000

structure Issued (T : Type) where
  thread : T
  number : ℕ
  cmd : Cmd
  deriving DecidableEq

/-- How far `EnqueueCmd` has come in a thread. -/
inductive Call (T : Type) where
  | idle
  /-- In `RingPush`, for the `i`-th time. -/
  | pushing (x : Issued T) (i : ℕ) (push : SpscRing.Push (Issued T))
  /-- In `sched_yield`. -/
  | full (x : Issued T) (i : ℕ)
  /-- About to signal the worker and return. -/
  | signal (x : Issued T) (rc : ℤ)

def Call.push {T : Type} : Call T → SpscRing.Push (Issued T)
  | .pushing _ _ p => p
  | _ => .idle

def Call.Pushing {T : Type} : Call T → Prop
  | .pushing _ _ _ => True
  | _ => False

instance {T : Type} (c : Call T) : Decidable c.Pushing := by
  unfold Call.Pushing
  split <;> infer_instance

/-- The ring of one worker. How far each push has come is in `calls`. -/
structure State (T : Type) where
  ring : SpscRing.State (Issued T)
  calls : T → Call T := fun _ => .idle
  /-- How many commands the thread has issued. -/
  issued : T → ℕ := fun _ => 0
  /-- The commands for which `EnqueueCmd` returned 0. -/
  accepted : List (Issued T) := []

inductive Label (T : Type) where
  | issue (t : T) (cmd : Cmd)
  /-- The next access of `RingPush`. -/
  | access (t : T)
  /-- The head of the loop after `sched_yield`. -/
  | retry (t : T)
  | signal (t : T)
  /-- The worker calls `RingPop`. -/
  | pop
  /-- Its next access. -/
  | worker

variable {T : Type}

def onPush (r : SpscRing.State (Issued T)) (p : SpscRing.Push (Issued T))
    (l : SpscRing.Label (Issued T)) :
    Option (SpscRing.State (Issued T) × SpscRing.Push (Issued T)) :=
  (SpscRing.step cmdRing { r with push := p } l).map fun r' => ({ r' with push := .idle }, r'.push)

variable {r : SpscRing.State (Issued T)} {p p' : SpscRing.Push (Issued T)} {c : Call T} {i : ℕ}

theorem onPush_eq {r' : SpscRing.State (Issued T)} {l : SpscRing.Label (Issued T)}
    (h : onPush r p l = some (r', p')) :
    SpscRing.step cmdRing { r with push := p } l = some { r' with push := p' } := by
  obtain ⟨r1, hr, heq⟩ := Option.map_eq_some_iff.mp h
  cases heq
  exact hr

/-- Where the thread is after an access: a push that ended returned 0 if its last access stored
the head. -/
def callAfter (x : Issued T) (i : ℕ) (p p' : SpscRing.Push (Issued T)) : Call T :=
  match p', p with
  | .idle, .written _ _ _ => .signal x 0
  | .idle, _ => .full x (i + 1)
  | _, _ => .pushing x i p'

variable [DecidableEq T]

def startPush (s : State T) (t : T) (x : Issued T) (i : ℕ) : Option (State T) :=
  (onPush s.ring .idle (.push x)).map fun (r, p) =>
    { s with ring := r, calls := Function.update s.calls t (.pushing x i p) }

def step (s : State T) : Label T → Option (State T)
  | .issue t cmd =>
    match s.calls t with
    | .idle =>
      startPush { s with issued := Function.update s.issued t (s.issued t + 1) } t
        ⟨t, s.issued t, cmd⟩ 0
    | _ => none
  | .access t =>
    match s.calls t with
    | .pushing x i p =>
      (onPush s.ring p .producer).map fun (r, p') =>
        { s with ring := r, calls := Function.update s.calls t (callAfter x i p p') }
    | _ => none
  | .retry t =>
    match s.calls t with
    | .full x i =>
      if i < kCmdPushRetries then startPush s t x i
      else some { s with calls := Function.update s.calls t (.signal x (-1)) }
    | _ => none
  | .signal t =>
    match s.calls t with
    | .signal x rc => some { s with
        calls := Function.update s.calls t .idle
        accepted := if rc = 0 then s.accepted ++ [x] else s.accepted }
    | _ => none
  | .pop => (SpscRing.step cmdRing s.ring .pop).map fun r => { s with ring := r }
  | .worker => (SpscRing.step cmdRing s.ring .consumer).map fun r => { s with ring := r }

structure Init (s : State T) : Prop where
  ring : SpscRing.Init s.ring
  calls : ∀ t, s.calls t = .idle
  issued : ∀ t, s.issued t = 0
  accepted : s.accepted = []

/-- The commands that the worker has popped and those it is still to pop, in order. -/
def State.kept (s : State T) : List (Issued T) :=
  s.ring.popped ++ s.ring.ring.contents kCmdRingSize

/-- Two commands of one thread are in the order in which it issued them. -/
def InOrder (x y : Issued T) : Prop := x.thread = y.thread → x.number < y.number

/-- Every command that was accepted is popped once, or is in the ring and popped once when the
worker goes on. -/
structure Delivered (s : State T) : Prop where
  kept : ∀ x ∈ s.accepted, x ∈ s.kept
  once : s.kept.Nodup
  order : s.kept.Pairwise InOrder
  drains : ∃ (ls : List (Label T)) (s' : State T), (∀ l ∈ ls, l = .pop ∨ l = .worker) ∧
    Runs.run step s ls = some s' ∧ s'.ring.popped = s.kept

/-- `RingPush` is called while no thread is in it. -/
def Alone (s : State T) : Label T → Prop
  | .issue _ _ => ∀ u, ¬ (s.calls u).Pushing
  | .retry _ => ∀ u, ¬ (s.calls u).Pushing
  | _ => True

/-! ### The commands of each thread -/

/-- The command is the last one that the thread issued, and is not pushed yet. -/
def Fresh (issued : T → ℕ) (pushed : List (Issued T)) (t : T) (x : Issued T) : Prop :=
  x.thread = t ∧ x.number < issued t ∧ ∀ y ∈ pushed, y.thread = t → y.number < x.number

def CallOk (issued : T → ℕ) (pushed : List (Issued T)) (t : T) : Call T → Prop
  | .idle => True
  | .pushing x _ p => Fresh issued pushed t x ∧ p.item = some x
  | .full x _ => Fresh issued pushed t x
  | .signal x rc => rc = 0 → x ∈ pushed

structure Log (s : State T) : Prop where
  numbered : ∀ x ∈ s.ring.pushed, x.number < s.issued x.thread
  sorted : s.ring.pushed.Pairwise InOrder
  calls : ∀ t, CallOk s.issued s.ring.pushed t (s.calls t)
  accepted : ∀ x ∈ s.accepted, x ∈ s.ring.pushed

variable {s s' : State T} {t : T} {x : Issued T}

theorem Log.setCall (h : Log s) (hr : r.pushed = s.ring.pushed)
    (hc : CallOk s.issued s.ring.pushed t c) :
    Log { s with ring := r, calls := Function.update s.calls t c } where
  numbered := hr ▸ h.numbered
  sorted := hr ▸ h.sorted
  calls := by
    intro u
    dsimp only
    rw [hr]
    by_cases hu : u = t
    · subst hu
      simpa using hc
    · simpa [hu] using h.calls u
  accepted := hr ▸ h.accepted

theorem Log.start (h : Log s) (hx : Fresh s.issued s.ring.pushed t x)
    (hs : startPush s t x i = some s') : Log s' := by
  obtain ⟨⟨r, p⟩, hr, rfl⟩ := Option.map_eq_some_iff.mp hs
  obtain ⟨-, hitem, -, -, hpushed⟩ := SpscRing.step_push (onPush_eq hr)
  exact h.setCall (r := r) (c := .pushing x i p) hpushed ⟨hx, hitem⟩

theorem Log.issue (h : Log s) (t : T) (cmd : Cmd) :
    Log { s with issued := Function.update s.issued t (s.issued t + 1) } ∧
      Fresh (Function.update s.issued t (s.issued t + 1)) s.ring.pushed t
        ⟨t, s.issued t, cmd⟩ := by
  have hle (u : T) : s.issued u ≤ Function.update s.issued t (s.issued t + 1) u := by
    by_cases hu : u = t
    · subst hu
      simp
    · simp [hu]
  refine ⟨⟨fun y hy => ?_, h.sorted, fun u => ?_, h.accepted⟩, rfl, ?_, fun y hy hty => ?_⟩
  · exact Nat.lt_of_lt_of_le (h.numbered y hy) (hle _)
  · have hcall := h.calls u
    dsimp only
    cases hc : s.calls u with
    | idle => trivial
    | signal y rc =>
      rw [hc] at hcall
      exact hcall
    | full y i =>
      rw [hc] at hcall
      exact ⟨hcall.1, Nat.lt_of_lt_of_le hcall.2.1 (hle u), hcall.2.2⟩
    | pushing y i p =>
      rw [hc] at hcall
      exact ⟨⟨hcall.1.1, Nat.lt_of_lt_of_le hcall.1.2.1 (hle u), hcall.1.2.2⟩, hcall.2⟩
  · simp
  · have hlt := h.numbered y hy
    rwa [hty] at hlt

theorem Log.publish (h : Log s) (hx : Fresh s.issued s.ring.pushed t x)
    (hr : r.pushed = s.ring.pushed ++ [x]) :
    Log { s with ring := r, calls := Function.update s.calls t (.signal x 0) } := by
  obtain ⟨hthread, hnumber, hlast⟩ := hx
  have hfresh {u : T} (hu : u ≠ t) {y : Issued T} (hy : Fresh s.issued s.ring.pushed u y) :
      Fresh s.issued (s.ring.pushed ++ [x]) u y := by
    refine ⟨hy.1, hy.2.1, fun z hz hzu => ?_⟩
    rcases List.mem_append.mp hz with hz | hz
    · exact hy.2.2 z hz hzu
    · rw [List.mem_singleton.mp hz, hthread] at hzu
      exact absurd hzu.symm hu
  refine ⟨fun y hy => ?_, ?_, fun u => ?_, fun y hy => ?_⟩
  · rw [hr, List.mem_append, List.mem_singleton] at hy
    rcases hy with hy | rfl
    · exact h.numbered y hy
    · rwa [hthread]
  · rw [hr]
    refine List.pairwise_append.mpr ⟨h.sorted, List.pairwise_singleton _ _, fun y hy z hz => ?_⟩
    rw [List.mem_singleton.mp hz]
    exact fun heq => hlast y hy (heq.trans hthread)
  · dsimp only
    rw [hr]
    by_cases hu : u = t
    · subst hu
      simp [CallOk]
    · have hcall := h.calls u
      rw [Function.update_of_ne hu]
      cases hc : s.calls u with
      | idle => trivial
      | signal y rc =>
        rw [hc] at hcall
        exact fun hrc => List.mem_append_left _ (hcall hrc)
      | full y i =>
        rw [hc] at hcall
        exact hfresh hu hcall
      | pushing y i p =>
        rw [hc] at hcall
        exact ⟨hfresh hu hcall.1, hcall.2⟩
  · rw [hr]
    exact List.mem_append_left _ (h.accepted y hy)

theorem Log.access (h : Log s) (hc : s.calls t = .pushing x i p)
    (hr : onPush s.ring p .producer = some (r, p')) :
    Log { s with ring := r, calls := Function.update s.calls t (callAfter x i p p') } := by
  have hcall := h.calls t
  rw [hc] at hcall
  obtain ⟨hx, hitem⟩ := hcall
  obtain ⟨-, -, ⟨-, -, hpushed, hgoes, hnot⟩ | ⟨y, head, tail, hw, hidle, hpushed⟩⟩ :=
    SpscRing.step_producer (onPush_eq hr)
  · refine h.setCall (r := r) hpushed ?_
    dsimp only at hgoes hnot
    unfold callAfter
    split
    · next head tail => exact absurd rfl (hnot _ head tail)
    · exact hx
    · next hne _ => exact ⟨hx, (hgoes.resolve_left (by simpa using hne)).trans hitem⟩
  · dsimp only at hw hidle hpushed
    subst hw hidle
    obtain rfl : y = x := by simpa [SpscRing.Push.item] using hitem
    exact h.publish hx hpushed

theorem Log.step (h : Log s) {l : Label T} (hs : step s l = some s') : Log s' := by
  cases l with
  | issue t cmd =>
    simp only [CmdProducers.step] at hs
    split at hs
    · obtain ⟨hlog, hx⟩ := h.issue t cmd
      exact hlog.start hx hs
    · cases hs
  | access t =>
    simp only [CmdProducers.step] at hs
    split at hs
    · next x i p hc =>
      obtain ⟨⟨r, p'⟩, hr, rfl⟩ := Option.map_eq_some_iff.mp hs
      exact h.access hc hr
    · cases hs
  | retry t =>
    simp only [CmdProducers.step] at hs
    split at hs
    · next x i hc =>
      have hcall := h.calls t
      rw [hc] at hcall
      split at hs
      · exact h.start hcall hs
      · cases hs
        exact h.setCall (r := s.ring) (c := .signal x (-1)) rfl (by simp [CallOk])
    · cases hs
  | signal t =>
    simp only [CmdProducers.step] at hs
    split at hs
    · next x rc hc =>
      have hcall := h.calls t
      rw [hc] at hcall
      have hidle := h.setCall (t := t) (r := s.ring) (c := .idle) rfl trivial
      cases hs
      refine { hidle with accepted := fun y hy => ?_ }
      split at hy
      · next hrc =>
        rcases List.mem_append.mp hy with hy | hy
        · exact h.accepted y hy
        · rw [List.mem_singleton.mp hy]
          exact hcall hrc
      · exact h.accepted y hy
    · cases hs
  | pop =>
    obtain ⟨r, hr, rfl⟩ := Option.map_eq_some_iff.mp hs
    obtain ⟨-, -, hpushed, -⟩ := SpscRing.step_pop hr
    exact ⟨hpushed ▸ h.numbered, hpushed ▸ h.sorted, hpushed ▸ h.calls, hpushed ▸ h.accepted⟩
  | worker =>
    obtain ⟨r, hr, rfl⟩ := Option.map_eq_some_iff.mp hs
    obtain ⟨-, hpushed⟩ := SpscRing.step_consumer hr
    exact ⟨hpushed ▸ h.numbered, hpushed ▸ h.sorted, hpushed ▸ h.calls, hpushed ▸ h.accepted⟩

/-! ### One thread at a time is one producer -/

/-- At most one push runs, and it is at `p`. -/
structure OnlyPush (s : State T) (p : SpscRing.Push (Issued T)) : Prop where
  phase : ∀ t, (s.calls t).push = .idle ∨ (s.calls t).push = p
  one : ∀ t u, (s.calls t).push ≠ .idle → (s.calls u).push ≠ .idle → t = u
  runs : p = .idle ∨ ∃ t, (s.calls t).push = p

def Spsc (s : State T) : Prop :=
  ∃ p, OnlyPush s p ∧ SpscRing.Inv cmdRing { s.ring with push := p }

omit [DecidableEq T] in
theorem Call.push_eq_idle (h : ¬ c.Pushing) : c.push = .idle := by
  cases c with
  | pushing x i p => exact absurd trivial h
  | _ => rfl

theorem onlyPush_update (hc : c.push = p) (hothers : ∀ u, u ≠ t → (s.calls u).push = .idle) :
    OnlyPush { s with ring := r, calls := Function.update s.calls t c } p := by
  have hone (u : T) (hu : (Function.update s.calls t c u).push ≠ .idle) : u = t := by
    by_contra hne
    rw [Function.update_of_ne hne] at hu
    exact hu (hothers u hne)
  refine ⟨fun u => ?_, fun u v hu hv => (hone u hu).trans (hone v hv).symm, .inr ⟨t, ?_⟩⟩
  · by_cases hu : u = t
    · subst hu
      exact .inr (by simpa using hc)
    · exact .inl (by simpa [hu] using hothers u hu)
  · simpa using hc

theorem Spsc.start (h : Spsc s) (hok : ∀ u, ¬ (s.calls u).Pushing)
    (hs : startPush s t x i = some s') : Spsc s' := by
  obtain ⟨p, hone, hinv⟩ := h
  have hidle : p = .idle := by
    rcases hone.runs with hp | ⟨u, hu⟩
    · exact hp
    · exact hu.symm.trans (Call.push_eq_idle (hok u))
  subst hidle
  obtain ⟨⟨r, p'⟩, hr, rfl⟩ := Option.map_eq_some_iff.mp hs
  exact ⟨p', onlyPush_update rfl fun u _ => Call.push_eq_idle (hok u),
    hinv.step cmdRing_ok (onPush_eq hr)⟩

omit [DecidableEq T] in
theorem callAfter_push (x : Issued T) (i : ℕ) (p p' : SpscRing.Push (Issued T)) :
    (callAfter x i p p').push = p' := by
  unfold callAfter
  split <;> rfl

theorem Spsc.access (h : Spsc s) (hc : s.calls t = .pushing x i p)
    (hr : onPush s.ring p .producer = some (r, p')) :
    Spsc { s with ring := r, calls := Function.update s.calls t (callAfter x i p p') } := by
  obtain ⟨q, hone, hinv⟩ := h
  have hpush : (s.calls t).push = p := by rw [hc, Call.push]
  have hrun : p ≠ .idle := (SpscRing.step_producer (onPush_eq hr)).1
  have hq : q = p := by
    rcases hone.phase t with hp | hp
    · exact absurd (hpush.symm.trans hp) hrun
    · exact hp.symm.trans hpush
  subst hq
  refine ⟨p', onlyPush_update (callAfter_push x i q p') fun u hu => ?_,
    hinv.step cmdRing_ok (onPush_eq hr)⟩
  by_contra hne
  exact hu (hone.one u t hne (by rwa [hpush]))

theorem Spsc.setCall (h : Spsc s) (hold : (s.calls t).push = .idle) (hnew : c.push = .idle)
    {accepted : List (Issued T)} :
    Spsc { s with calls := Function.update s.calls t c, accepted := accepted } := by
  obtain ⟨p, hone, hinv⟩ := h
  have hsame (u : T) : (Function.update s.calls t c u).push = (s.calls u).push := by
    by_cases hu : u = t
    · subst hu
      rw [Function.update_self, hnew, hold]
    · rw [Function.update_of_ne hu]
  refine ⟨p, ⟨?_, ?_, ?_⟩, hinv⟩
  · simpa only [hsame] using hone.phase
  · simpa only [hsame] using hone.one
  · simpa only [hsame] using hone.runs

omit [DecidableEq T] in
theorem Spsc.consumer (h : Spsc s) {l : SpscRing.Label (Issued T)} (hl : l.OfConsumer)
    (hr : SpscRing.step cmdRing s.ring l = some r) :
    Spsc { s with ring := r } := by
  obtain ⟨p, hone, hinv⟩ := h
  refine ⟨p, ⟨hone.phase, hone.one, hone.runs⟩, hinv.step cmdRing_ok (l := l) ?_⟩
  rw [SpscRing.step_with hl, hr]
  rfl

theorem Spsc.step (h : Spsc s) {l : Label T} (hok : Alone s l) (hs : step s l = some s') :
    Spsc s' := by
  cases l with
  | issue t cmd =>
    simp only [CmdProducers.step] at hs
    split at hs
    · obtain ⟨p, hone, hinv⟩ := h
      have hissued : Spsc { s with issued := Function.update s.issued t (s.issued t + 1) } :=
        ⟨p, ⟨hone.phase, hone.one, hone.runs⟩, hinv⟩
      exact hissued.start hok hs
    · cases hs
  | access t =>
    simp only [CmdProducers.step] at hs
    split at hs
    · next x i p hc =>
      obtain ⟨⟨r, p'⟩, hr, rfl⟩ := Option.map_eq_some_iff.mp hs
      exact h.access hc hr
    · cases hs
  | retry t =>
    simp only [CmdProducers.step] at hs
    split at hs
    · next x i hc =>
      split at hs
      · exact h.start hok hs
      · cases hs
        exact h.setCall (by simp [hc, Call.push]) rfl
    · cases hs
  | signal t =>
    simp only [CmdProducers.step] at hs
    split at hs
    · next x rc hc =>
      cases hs
      exact h.setCall (by simp [hc, Call.push]) rfl
    · cases hs
  | pop =>
    obtain ⟨r, hr, rfl⟩ := Option.map_eq_some_iff.mp hs
    exact h.consumer (l := .pop) trivial hr
  | worker =>
    obtain ⟨r, hr, rfl⟩ := Option.map_eq_some_iff.mp hs
    exact h.consumer (l := .consumer) trivial hr

/-! ### Runs -/

omit [DecidableEq T] in
theorem spsc_init (h : Init s) : Spsc s := by
  have hidle (t : T) : (s.calls t).push = .idle := by rw [h.calls t, Call.push]; simp
  refine ⟨.idle, ⟨fun t => .inl (hidle t), fun t _ hne => absurd (hidle t) hne, .inl rfl⟩, ?_⟩
  exact SpscRing.inv_init cmdRing_ok { h.ring with push := rfl }

omit [DecidableEq T] in
theorem log_init (h : Init s) : Log s where
  numbered := by simp [h.ring.pushed]
  sorted := by simp [h.ring.pushed]
  calls t := by simp [h.calls t, CallOk]
  accepted := by simp [h.accepted]

def ofRing : SpscRing.Label (Issued T) → Label T
  | .pop => .pop
  | _ => .worker

theorem run_ofRing {ls : List (SpscRing.Label (Issued T))} (hls : ∀ l ∈ ls, l.OfConsumer)
    (hr : Runs.run (SpscRing.step cmdRing) s.ring ls = some r) :
    Runs.run step s (ls.map ofRing) = some { s with ring := r } := by
  induction ls generalizing s with
  | nil =>
    cases hr
    rfl
  | cons l ls ih =>
    have hl := hls l (List.mem_cons_self ..)
    simp only [Runs.run] at hr
    split at hr
    · next r1 hr1 =>
      have hs : CmdProducers.step s (ofRing l) = some { s with ring := r1 } := by
        cases l with
        | pop => simp only [ofRing, CmdProducers.step, hr1, Option.map_some]
        | consumer => simp only [ofRing, CmdProducers.step, hr1, Option.map_some]
        | _ => exact absurd hl id
      simp only [List.map_cons, Runs.run, hs]
      exact ih (s := { s with ring := r1 }) (fun l hmem => hls l (List.mem_cons_of_mem _ hmem)) hr
    · cases hr

theorem Spsc.drains (h : Spsc s) : ∃ (ls : List (Label T)) (s' : State T),
    (∀ l ∈ ls, l = .pop ∨ l = .worker) ∧ Runs.run CmdProducers.step s ls = some s' ∧
      s'.ring.popped = s.ring.pushed := by
  obtain ⟨p, -, hinv⟩ := h
  obtain ⟨r', ⟨ls, hls, hrun⟩, -, hpopped⟩ := hinv.drains cmdRing_ok
  rw [SpscRing.run_with hls] at hrun
  obtain ⟨r, hr, rfl⟩ := Option.map_eq_some_iff.mp hrun
  refine ⟨ls.map ofRing, { s with ring := r }, fun l hl => ?_, run_ofRing hls hr, hpopped⟩
  obtain ⟨l', -, rfl⟩ := List.mem_map.mp hl
  cases l' with
  | pop => exact .inl rfl
  | _ => exact .inr rfl

omit [DecidableEq T] in
theorem Spsc.kept (h : Spsc s) : s.kept = s.ring.pushed := by
  obtain ⟨p, -, hinv⟩ := h
  exact hinv.toCore.kept.symm

theorem Log.delivered (hlog : Log s) (h : Spsc s) : Delivered s where
  kept := h.kept ▸ hlog.accepted
  once := by
    rw [h.kept]
    refine hlog.sorted.imp fun hlt heq => ?_
    rw [heq] at hlt
    exact Nat.lt_irrefl _ (hlt rfl)
  order := h.kept ▸ hlog.sorted
  drains := h.kept ▸ h.drains

/-- Every interleaving of threads that wait for each other before they call `RingPush`. -/
theorem delivered_of_alone (h : Runs.Reach Init step Alone s) : Delivered s := by
  have hlog : Log s := h.invariant (fun s h0 => log_init h0) fun s s' l hlog _ hs => hlog.step hs
  have hspsc : Spsc s := h.invariant (fun s h0 => spsc_init h0)
    fun s s' l hspsc hok hs => hspsc.step hok hs
  exact hlog.delivered hspsc

/-! ### The accept thread and the control thread -/

inductive Issuer where
  | accept
  | control
  | channel
  | poller
  | seeds
  deriving DecidableEq

instance (p : Issuer → Prop) [DecidablePred p] : Decidable (∀ t, p t) :=
  decidable_of_iff (p .accept ∧ p .control ∧ p .channel ∧ p .poller ∧ p .seeds)
    ⟨fun h t => by cases t <;> simp [h], fun h => by simp [h]⟩

instance (s : State Issuer) (l : Label Issuer) : Decidable (Alone s l) := by
  unfold Alone
  split <;> infer_instance

def fresh : State Issuer where
  ring := { ring := { items := fun _ => ⟨.accept, 0, .stop⟩, head := 0, tail := 0 } }

theorem fresh_init : Init fresh where
  ring := ⟨rfl, rfl, rfl, rfl, rfl, rfl, rfl, rfl⟩
  calls _ := rfl
  issued _ := rfl
  accepted := rfl

/-- The rest of a push that finds room, and the return. -/
def finish (t : Issuer) : List (Label Issuer) :=
  [.access t, .access t, .access t, .access t, .signal t]

def popOne : List (Label Issuer) := [.pop, .worker, .worker, .worker, .worker, .worker]

/-- One after the other, with the worker in between. -/
theorem delivered_in_turn : ∃ s : State Issuer,
    s.accepted.map (·.thread) = [.accept, .control] ∧ s.ring.popped.map (·.thread) = [.accept] ∧
      Delivered s := by
  obtain ⟨s, hrun, hs⟩ := Option.map_eq_some_iff.mp
    (show ((Runs.run (Runs.guarded step Alone) fresh
      (.issue .accept .stop :: finish .accept ++ .issue .control .stop :: finish .control ++
        popOne)).map fun s => (s.accepted.map (·.thread), s.ring.popped.map (·.thread))) =
        some ([.accept, .control], [.accept]) by decide)
  simp only [Prod.mk.injEq] at hs
  exact ⟨s, hs.1, hs.2, delivered_of_alone (Runs.reach_of_guarded (.start _ fresh_init) hrun)⟩

/-- The control thread loads the head before the accept thread stores it. -/
theorem accepted_lost : ∃ s : State Issuer, Runs.Reach Init step Runs.Any s ∧
    s.accepted = [⟨.accept, 0, .stop⟩, ⟨.control, 0, .stop⟩] ∧
      s.kept = [⟨.control, 0, .stop⟩] ∧ ¬ Delivered s := by
  obtain ⟨s, hrun, hs⟩ := Option.map_eq_some_iff.mp
    (show ((Runs.run step fresh
      (.issue .accept .stop :: .issue .control .stop :: .access .control :: .access .control ::
        finish .accept ++ [.access .control, .access .control, .signal .control] ++ popOne)).map
          fun s => (s.accepted, s.kept)) =
        some ([⟨.accept, 0, .stop⟩, ⟨.control, 0, .stop⟩], [⟨.control, 0, .stop⟩]) by
      decide)
  simp only [Prod.mk.injEq] at hs
  refine ⟨s, Runs.reach_of_run fresh_init hrun, hs.1, hs.2, fun h => ?_⟩
  have hkept := h.kept ⟨.accept, 0, .stop⟩ (by simp [hs.1])
  simp [hs.2] at hkept

end HyperDerp.CmdProducers
