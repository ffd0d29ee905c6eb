import HyperDerp.DataPlane.SpscRings

/-!
# Waking a worker for transfers (`data_plane.cc:379-403`, `:2217-2257`, `:2300-2392`)

A worker signals the eventfd of another only for a push into a ring that looked empty, by the
tail that the push loaded before it stored the item. The worker at the other end looks into its
inboxes when it handles the eventfd and at the end of each pass with a completion; a pass
without one goes round again.
-/

namespace HyperDerp.XferWake

structure Source where
  /-- The result of `XferSpscPush`, until `pending_sources` is set. -/
  rc : Option ℤ := none
  /-- The bit of the destination in `xfer_signal_pending`. -/
  signalPending : Bool := false
  /-- `FlushXferSignals` has cleared the bit and is to write the eventfd. -/
  flushing : Bool := false
  deriving DecidableEq

def Source.Flushed (p : Source) : Prop :=
  p.rc = none ∧ p.signalPending = false ∧ p.flushing = false

/-- Where the destination is in a pass of `WorkerRun`. -/
inductive Consumer where
  | peek
  | batch
  /-- About to run `ProcessXfer`, in the handler of the eventfd or last in the pass. -/
  | exchange (last : Bool)
  /-- In `ProcessXfer`, with the sources still to drain. -/
  | drain (mask : List ℕ) (last : Bool)
  deriving DecidableEq

/-- A `ProcessXfer` comes before the worker can be idle. -/
def Consumer.ExchangeAhead : Consumer → Prop
  | .peek => False
  | .batch => True
  | .exchange _ => True
  | .drain _ last => last = false

/-- One worker as the destination of transfers, and all others as sources. -/
structure State where
  rings : ℕ → SpscRing.State Xfer
  sources : ℕ → Source := fun _ => {}
  pendingSources : ℕ → Bool := fun _ => false
  /-- The counter of `xfer_efd` is not zero. -/
  xferEfd : Bool := false
  consumer : Consumer := .peek

inductive Label where
  | push (src : ℕ) (x : Xfer)
  /-- The next access of `XferSpscPush`. -/
  | access (src : ℕ)
  | mark (src : ℕ)
  | flush (src : ℕ)
  | signal (src : ℕ)
  /-- `io_uring_peek_cqe` and the wait find nothing. -/
  | idle
  | cqes
  /-- A completion that is not for the eventfd. -/
  | cqe
  | pollXfer
  | endBatch
  | exchange
  /-- The next access of `XferSpscPop`, or the end of `ProcessXfer`. -/
  | pop

namespace State

def setRing (s : State) (src : ℕ) (r : SpscRing.State Xfer) : State :=
  { s with rings := Function.update s.rings src r }

def setSource (s : State) (src : ℕ) (p : Source) : State :=
  { s with sources := Function.update s.sources src p }

end State

/-- What the access that ends a push returns, where the push found room. -/
def pushed : SpscRing.Push Xfer → Option ℤ
  | .written _ head tail => some (xferSpscRing.found head tail)
  | _ => none

def step (s : State) : Label → Option State
  | .push src x =>
    if (s.sources src).rc = none ∧ (s.sources src).flushing = false then
      (SpscRing.step xferSpscRing (s.rings src) (.push x)).map (s.setRing src)
    else none
  | .access src =>
    (SpscRing.step xferSpscRing (s.rings src) .producer).map fun r =>
      (s.setRing src r).setSource src { s.sources src with rc := pushed (s.rings src).push }
  | .mark src =>
    match (s.sources src).rc with
    | none => none
    | some rc => some ({ s with
        pendingSources := Function.update s.pendingSources src true }.setSource src
          { s.sources src with
            rc := none
            signalPending := (s.sources src).signalPending || decide (rc = 1) })
  | .flush src =>
    match (s.rings src).push, (s.sources src).rc with
    | .idle, none => some (s.setSource src { s.sources src with
        signalPending := false
        flushing := (s.sources src).flushing || (s.sources src).signalPending })
    | _, _ => none
  | .signal src =>
    if (s.sources src).flushing then
      some ({ s with xferEfd := true }.setSource src { s.sources src with flushing := false })
    else none
  | .idle =>
    match s.consumer with
    | .peek => some s
    | _ => none
  | .cqes =>
    match s.consumer with
    | .peek => some { s with consumer := .batch }
    | _ => none
  | .cqe =>
    match s.consumer with
    | .batch => some s
    | _ => none
  | .pollXfer =>
    match s.consumer with
    | .batch => some { s with xferEfd := false, consumer := .exchange false }
    | _ => none
  | .endBatch =>
    match s.consumer with
    | .batch => some { s with consumer := .exchange true }
    | _ => none
  | .exchange =>
    match s.consumer with
    | .exchange last => some { s with
        pendingSources := fun _ => false
        consumer := .drain ((List.range kMaxWorkers).filter s.pendingSources) last }
    | _ => none
  | .pop =>
    match s.consumer with
    | .drain [] last => some { s with consumer := if last then .peek else .batch }
    | .drain (src :: mask) last =>
      match (s.rings src).pop with
      | .idle => (SpscRing.step xferSpscRing (s.rings src) .pop).map (s.setRing src)
      | p =>
        (SpscRing.step xferSpscRing (s.rings src) .consumer).map fun r =>
          { s.setRing src r with
            consumer := if p.SeenEmpty then .drain mask last else .drain (src :: mask) last }
    | _ => none

structure Init (s : State) : Prop where
  rings : ∀ i, SpscRing.Init (s.rings i)
  sources : ∀ i, s.sources i = {}
  consumer : s.consumer = .peek

def Holds (s : State) (i : ℕ) : Prop := (s.rings i).ring.head ≠ (s.rings i).ring.tail

/-- No item stays unseen: once its source is done with it, the eventfd is signalled or the
worker is yet to run `ProcessXfer`. -/
def Woken (s : State) : Prop :=
  ∀ i < kMaxWorkers, Holds s i → (s.sources i).Flushed →
    s.xferEfd = true ∨ s.consumer.ExchangeAhead

/-- A push that publishes in an empty ring found it empty already when it loaded the tail, unless
the source is to signal anyway. -/
def Announced (s : State) : Label → Prop
  | .access src =>
    match (s.rings src).push with
    | .written _ head tail =>
      (s.rings src).ring.head = (s.rings src).ring.tail →
        head = tail ∨ (s.sources src).signalPending = true
    | _ => True
  | _ => True

/-! ### What is owed for an item in a ring -/

def Source.WillSignal (p : Source) : Prop := p.rc = some 1 ∨ p.signalPending = true

/-- `ProcessXfer` is yet to find the ring of the source empty. -/
def Draining (s : State) (i : ℕ) : Prop :=
  match s.consumer with
  | .drain (src :: mask) _ => i ∈ mask ∨ (i = src ∧ ¬ (s.rings src).pop.SeenEmpty)
  | _ => False

/-- While the ring holds an item, the next `ProcessXfer` finds it, and one is sure to come. -/
structure Owed (s : State) (i : ℕ) : Prop where
  noted : s.pendingSources i = true ∨ Draining s i ∨
    ((s.sources i).rc ≠ none ∧ (s.sources i).WillSignal)
  due : (s.sources i).WillSignal ∨ (s.sources i).flushing = true ∨ s.xferEfd = true ∨
    s.consumer = .exchange false ∨ (Draining s i ∧ ∃ mask, s.consumer = .drain mask false)

structure Inv (s : State) : Prop where
  rings : ∀ i, SpscRing.Inv xferSpscRing (s.rings i)
  pushing : ∀ i, (s.rings i).push ≠ .idle → (s.sources i).rc = none
  popping : ∀ i, (s.rings i).pop ≠ .idle → ∃ mask last, s.consumer = .drain (i :: mask) last
  owed : ∀ i < kMaxWorkers, Holds s i → Owed s i

variable {s s' : State} {i : ℕ}

theorem Inv.woken (h : Inv s) : Woken s := by
  intro i hi hholds hflushed
  obtain ⟨hrc, hpending, hflushing⟩ := hflushed
  rcases (h.owed i hi hholds).due with (hone | hone) | hflush | hefd | hex | ⟨-, mask, hdrain⟩
  · rw [hrc] at hone
    cases hone
  · rw [hpending] at hone
    cases hone
  · rw [hflushing] at hflush
    cases hflush
  · exact .inl hefd
  · rw [hex]
    exact .inr trivial
  · rw [hdrain]
    exact .inr rfl

theorem Owed.congr (h : Owed s i) (hpending : s'.pendingSources i = s.pendingSources i)
    (hsource : s'.sources i = s.sources i) (hpop : (s'.rings i).pop = (s.rings i).pop)
    (hconsumer : s'.consumer = s.consumer) (hefd : s.xferEfd = true → s'.xferEfd = true) :
    Owed s' i := by
  have hdraining : Draining s i → Draining s' i := by
    unfold Draining
    rw [hconsumer]
    split
    · rintro (hmem | ⟨rfl, hseen⟩)
      · exact .inl hmem
      · exact .inr ⟨rfl, hpop ▸ hseen⟩
    · exact id
  refine ⟨?_, ?_⟩
  · rw [hpending, hsource]
    exact h.noted.imp_right (Or.imp_left hdraining)
  · rw [hsource, hconsumer]
    refine h.due.imp_right (Or.imp_right (Or.imp hefd (Or.imp_right ?_)))
    exact And.imp_left hdraining

/-! ### Steps of a source -/

theorem Holds.congr (hring : (s'.rings i).ring = (s.rings i).ring) (h : Holds s' i) :
    Holds s i := by
  unfold Holds at h ⊢
  rwa [hring] at h

theorem Inv.push (h : Inv s) {src : ℕ} {x : Xfer} (hrc : (s.sources src).rc = none)
    {r : SpscRing.State Xfer}
    (hr : SpscRing.step xferSpscRing (s.rings src) (.push x) = some r) :
    Inv (s.setRing src r) := by
  obtain ⟨-, -, hring, hpop, -⟩ := SpscRing.step_push hr
  have hrings : ∀ i, ((s.setRing src r).rings i).ring = (s.rings i).ring ∧
      ((s.setRing src r).rings i).pop = (s.rings i).pop := by
    intro i
    by_cases hi : i = src
    · subst hi
      simp [State.setRing, hring, hpop]
    · simp [State.setRing, hi]
  refine ⟨fun i => ?_, fun i hpush => ?_, fun i hne => ?_, fun i hi hholds => ?_⟩
  · by_cases hi : i = src
    · subst hi
      simpa [State.setRing] using (h.rings i).step xferSpscRing_ok hr
    · simpa [State.setRing, hi] using h.rings i
  · by_cases hi : i = src
    · subst hi
      exact hrc
    · simp only [State.setRing, Function.update_of_ne hi] at hpush
      exact h.pushing i hpush
  · rw [(hrings i).2] at hne
    exact h.popping i hne
  · exact (h.owed i hi (hholds.congr (hrings i).1)).congr rfl rfl (hrings i).2 rfl id

theorem found_eq (head : ℕ) : xferSpscRing.found head head = 1 := by simp [xferSpscRing]

theorem Inv.access (h : Inv s) {src : ℕ} (hok : Announced s (.access src))
    {r : SpscRing.State Xfer}
    (hr : SpscRing.step xferSpscRing (s.rings src) .producer = some r) :
    Inv ((s.setRing src r).setSource src
      { s.sources src with rc := pushed (s.rings src).push }) := by
  obtain ⟨hpush, hpop, hcase⟩ := SpscRing.step_producer hr
  have hrc := h.pushing src hpush
  refine ⟨fun i => ?_, fun i hne => ?_, fun i hne => ?_, fun i hi hholds => ?_⟩
  · by_cases hi : i = src
    · subst hi
      simpa [State.setRing, State.setSource] using (h.rings i).step xferSpscRing_ok hr
    · simpa [State.setRing, State.setSource, hi] using h.rings i
  · by_cases hi : i = src
    · subst hi
      simp only [State.setRing, State.setSource, Function.update_self] at hne ⊢
      rcases hcase with ⟨-, -, -, -, hnot⟩ | ⟨-, -, -, -, hidle, -⟩
      · unfold pushed
        split
        · next x head tail hw => exact absurd hw (hnot x head tail)
        · rfl
      · exact absurd hidle hne
    · simp only [State.setRing, State.setSource, Function.update_of_ne hi] at hne ⊢
      exact h.pushing i hne
  · by_cases hi : i = src
    · subst hi
      simp only [State.setRing, State.setSource, Function.update_self, hpop] at hne
      exact h.popping i hne
    · simp only [State.setRing, State.setSource, Function.update_of_ne hi] at hne
      exact h.popping i hne
  · by_cases his : i = src
    · subst his
      have hpop' : (((s.setRing i r).setSource i
          { s.sources i with rc := pushed (s.rings i).push }).rings i).pop = (s.rings i).pop := by
        simpa [State.setRing, State.setSource] using hpop
      by_cases hbefore : Holds s i
      · have howed := h.owed i hi hbefore
        have hdraining : Draining s i → Draining ((s.setRing i r).setSource i
            { s.sources i with rc := pushed (s.rings i).push }) i := by
          unfold Draining
          dsimp only [State.setRing, State.setSource]
          split
          · rintro (hmem | ⟨rfl, hseen⟩)
            · exact .inl hmem
            · refine .inr ⟨rfl, ?_⟩
              rwa [Function.update_self, hpop]
          · exact id
        refine ⟨?_, ?_⟩
        · rcases howed.noted with hp | hd | ⟨hsome, -⟩
          · exact .inl hp
          · exact .inr (.inl (hdraining hd))
          · exact absurd hrc hsome
        · rcases howed.due with (hone | hsig) | hf | he | hc | ⟨hd, hmask⟩
          · rw [hrc] at hone
            cases hone
          · exact .inl (.inr (by simpa [State.setSource] using hsig))
          · exact .inr (.inl (by simpa [State.setSource] using hf))
          · exact .inr (.inr (.inl he))
          · exact .inr (.inr (.inr (.inl hc)))
          · exact .inr (.inr (.inr (.inr ⟨hdraining hd, hmask⟩)))
      · -- the ring was empty, so the head was stored, and with a signal to follow
        rcases hcase with ⟨hhead, htail, -⟩ | ⟨x, head, tail, hw, -⟩
        · refine absurd ?_ hbefore
          simpa [Holds, State.setRing, State.setSource, hhead, htail] using hholds
        · have hann : head = tail ∨ (s.sources i).signalPending = true := by
            simp only [Announced, hw] at hok
            exact hok (not_not.mp hbefore)
          have hwill : (((s.setRing i r).setSource i
              { s.sources i with rc := pushed (s.rings i).push }).sources i).WillSignal := by
            simp only [Source.WillSignal, State.setSource, Function.update_self, hw, pushed]
            rcases hann with rfl | hsig
            · exact .inl (by rw [found_eq])
            · exact .inr hsig
          refine ⟨.inr (.inr ⟨?_, hwill⟩), .inl hwill⟩
          simp [State.setSource, hw, pushed]
    · have hother : Holds s i := by
        simpa [Holds, State.setRing, State.setSource, his] using hholds
      refine (h.owed i hi hother).congr rfl ?_ ?_ rfl id
      · simp [State.setSource, State.setRing, his]
      · simp [State.setSource, State.setRing, his]

theorem Inv.settle (h : Inv s) {src : ℕ} {p : Source} {pending : ℕ → Bool} {efd : Bool}
    (hpending : ∀ i, s.pendingSources i = true → pending i = true)
    (hefd : s.xferEfd = true → efd = true) (hrc : (s.sources src).rc = none → p.rc = none)
    (hnoted : (s.sources src).rc ≠ none → (s.sources src).WillSignal →
      pending src = true ∨ (p.rc ≠ none ∧ p.WillSignal))
    (hdue : (s.sources src).WillSignal ∨ (s.sources src).flushing = true →
      p.WillSignal ∨ p.flushing = true ∨ efd = true) :
    Inv ({ s with pendingSources := pending, xferEfd := efd }.setSource src p) := by
  refine ⟨h.rings, fun i hne => ?_, h.popping, fun i hi hholds => ?_⟩
  · by_cases hi : i = src
    · subst hi
      simpa [State.setSource] using hrc (h.pushing i hne)
    · simpa [State.setSource, hi] using h.pushing i hne
  · have howed := h.owed i hi hholds
    by_cases his : i = src
    · subst his
      refine ⟨?_, ?_⟩
      · simp only [State.setSource, Function.update_self]
        rcases howed.noted with hp | hd | ⟨hsome, hwill⟩
        · exact .inl (hpending i hp)
        · exact .inr (.inl hd)
        · exact (hnoted hsome hwill).imp_right .inr
      · simp only [State.setSource, Function.update_self]
        have hpass {b : Prop} (howes : (s.sources i).WillSignal ∨ (s.sources i).flushing = true) :
            p.WillSignal ∨ p.flushing = true ∨ efd = true ∨ b := by
          rcases hdue howes with hw | hf | he
          · exact .inl hw
          · exact .inr (.inl hf)
          · exact .inr (.inr (.inl he))
        rcases howed.due with hw | hf | he | hc
        · exact hpass (.inl hw)
        · exact hpass (.inr hf)
        · exact .inr (.inr (.inl (hefd he)))
        · exact .inr (.inr (.inr hc))
    · refine ⟨?_, ?_⟩
      · simp only [State.setSource, Function.update_of_ne his]
        exact howed.noted.imp_left (hpending i)
      · simp only [State.setSource, Function.update_of_ne his]
        exact howed.due.imp_right (Or.imp_right (Or.imp_left hefd))

/-! ### Steps of the destination -/

theorem Inv.setConsumer (h : Inv s) {consumer : Consumer} {efd : Bool}
    (hidle : ∀ i, (s.rings i).pop = .idle)
    (hdraining : ∀ i, ¬ Draining s i) (hex : s.consumer ≠ .exchange false)
    (hefd : s.xferEfd = true → efd = true ∨ consumer = .exchange false) :
    Inv { s with xferEfd := efd, consumer := consumer } := by
  refine ⟨h.rings, h.pushing, fun i hne => absurd (hidle i) hne, fun i hi hholds => ?_⟩
  have howed := h.owed i hi hholds
  refine ⟨?_, ?_⟩
  · rcases howed.noted with hp | hd | hrc
    · exact .inl hp
    · exact absurd hd (hdraining i)
    · exact .inr (.inr hrc)
  · rcases howed.due with hw | hf | he | hc | ⟨hd, -⟩
    · exact .inl hw
    · exact .inr (.inl hf)
    · exact .inr (.inr ((hefd he).imp_right .inl))
    · exact absurd hc hex
    · exact absurd hd (hdraining i)

theorem Inv.pops_idle (h : Inv s) (hno : ∀ src mask last, s.consumer ≠ .drain (src :: mask) last)
    (i : ℕ) : (s.rings i).pop = .idle := by
  by_contra hne
  obtain ⟨mask, last, hc⟩ := h.popping i hne
  exact hno i mask last hc

theorem not_draining (hno : ∀ src mask last, s.consumer ≠ .drain (src :: mask) last) (i : ℕ) :
    ¬ Draining s i := by
  unfold Draining
  split
  · next src mask last hc => exact absurd hc (hno src mask last)
  · exact id

theorem Inv.exchange (h : Inv s) {last : Bool} (hc : s.consumer = .exchange last) :
    Inv { s with
      pendingSources := fun _ => false
      consumer := .drain ((List.range kMaxWorkers).filter s.pendingSources) last } := by
  have hno : ∀ src mask last, s.consumer ≠ .drain (src :: mask) last := by simp [hc]
  have hidle := h.pops_idle hno
  refine ⟨h.rings, h.pushing, fun i hne => absurd (hidle i) hne, fun i hi hholds => ?_⟩
  have howed := h.owed i hi hholds
  have hfound : s.pendingSources i = true → Draining { s with
      pendingSources := fun _ => false
      consumer := .drain ((List.range kMaxWorkers).filter s.pendingSources) last } i := by
    intro hp
    have hmem : i ∈ (List.range kMaxWorkers).filter s.pendingSources := by simp [hp, hi]
    unfold Draining
    dsimp only
    generalize (List.range kMaxWorkers).filter s.pendingSources = mask at hmem ⊢
    cases mask with
    | nil => simp at hmem
    | cons src mask =>
      rcases List.mem_cons.mp hmem with rfl | hmem
      · exact .inr ⟨rfl, by simp [hidle, SpscRing.Pop.SeenEmpty]⟩
      · exact .inl hmem
  have hnoted := howed.noted.imp_right fun hrest =>
    hrest.resolve_left (not_draining hno i)
  refine ⟨.inr (hnoted.imp_left hfound), ?_⟩
  rcases howed.due with hw | hf | he | hex | ⟨hd, -⟩
  · exact .inl hw
  · exact .inr (.inl hf)
  · exact .inr (.inr (.inl he))
  · rw [hc] at hex
    cases hex
    rcases hnoted with hp | ⟨-, hw⟩
    · exact .inr (.inr (.inr (.inr ⟨hfound hp, _, rfl⟩)))
    · exact .inl hw
  · exact absurd hd (not_draining hno i)

theorem Inv.drain (h : Inv s) {src : ℕ} {mask : List ℕ} {last : Bool}
    (hc : s.consumer = .drain (src :: mask) last) {r : SpscRing.State Xfer} (more : Bool)
    (hinv : SpscRing.Inv xferSpscRing r) (hpush : r.push = (s.rings src).push)
    (hidle : more = false → r.pop = .idle)
    (hholds : r.ring.head ≠ r.ring.tail → Holds s src)
    (hmore : r.ring.head ≠ r.ring.tail → ¬ (s.rings src).pop.SeenEmpty → more = true ∧
      ¬ r.pop.SeenEmpty) :
    Inv { s.setRing src r with
      consumer := if more then .drain (src :: mask) last else .drain mask last } := by
  refine ⟨fun i => ?_, fun i hne => ?_, fun i hne => ?_, fun i hi hh => ?_⟩
  · by_cases hi : i = src
    · subst hi
      simpa [State.setRing] using hinv
    · simpa [State.setRing, hi] using h.rings i
  · by_cases hi : i = src
    · subst hi
      simp only [State.setRing, Function.update_self, hpush] at hne
      exact h.pushing i hne
    · simp only [State.setRing, Function.update_of_ne hi] at hne
      exact h.pushing i hne
  · by_cases hi : i = src
    · subst hi
      simp only [State.setRing, Function.update_self] at hne
      cases more with
      | true => exact ⟨mask, last, rfl⟩
      | false => exact absurd (hidle rfl) hne
    · simp only [State.setRing, Function.update_of_ne hi] at hne
      obtain ⟨mask', last', hc'⟩ := h.popping i hne
      rw [hc] at hc'
      cases hc'
      exact absurd rfl hi
  · have hbefore : Holds s i := by
      by_cases his : i = src
      · subst his
        exact hholds (by simpa [Holds, State.setRing] using hh)
      · simpa [Holds, State.setRing, his] using hh
    have howed := h.owed i hi hbefore
    have hkept : Draining s i → Draining { s.setRing src r with
        consumer := if more then .drain (src :: mask) last else .drain mask last } i := by
      unfold Draining
      rw [hc]
      dsimp only [State.setRing]
      rintro (hmem | ⟨rfl, hseen⟩)
      · cases more with
        | true => exact .inl hmem
        | false =>
          cases mask with
          | nil => simp at hmem
          | cons src' mask =>
            rcases List.mem_cons.mp hmem with rfl | hmem
            · refine .inr ⟨rfl, ?_⟩
              by_cases hi' : i = src
              · subst hi'
                simp [hidle rfl, SpscRing.Pop.SeenEmpty]
              · have hpop : (s.rings i).pop = .idle := by
                  by_contra hne
                  obtain ⟨mask', last', hc'⟩ := h.popping i hne
                  rw [hc] at hc'
                  cases hc'
                  exact hi' rfl
                simp [hi', hpop, SpscRing.Pop.SeenEmpty]
            · exact .inl hmem
      · obtain ⟨rfl, hnot⟩ := hmore (by simpa [Holds, State.setRing] using hh) hseen
        exact .inr ⟨rfl, by simpa using hnot⟩
    refine ⟨howed.noted.imp_right (Or.imp_left hkept), ?_⟩
    rcases howed.due with hw | hf | he | hex | ⟨hd, mask', hdrain⟩
    · exact .inl hw
    · exact .inr (.inl hf)
    · exact .inr (.inr (.inl he))
    · rw [hc] at hex
      cases hex
    · rw [hc] at hdrain
      cases hdrain
      refine .inr (.inr (.inr (.inr ⟨hkept hd, ?_⟩)))
      cases more with
      | true => exact ⟨_, rfl⟩
      | false => exact ⟨_, rfl⟩

/-! ### Runs -/

theorem Inv.step (h : Inv s) {l : Label} (hok : Announced s l) (hs : step s l = some s') :
    Inv s' := by
  unfold XferWake.step at hs
  cases l with
  | push src x =>
    simp only [Option.ite_none_right_eq_some] at hs
    obtain ⟨⟨hrc, -⟩, hs⟩ := hs
    obtain ⟨r, hr, rfl⟩ := Option.map_eq_some_iff.mp hs
    exact h.push hrc hr
  | access src =>
    obtain ⟨r, hr, rfl⟩ := Option.map_eq_some_iff.mp hs
    exact h.access hok hr
  | mark src =>
    cases hrc : (s.sources src).rc with
    | none => simp [hrc] at hs
    | some rc =>
      simp only [hrc, Option.some.injEq] at hs
      subst hs
      refine h.settle (fun i hp => ?_) id (fun _ => rfl) (fun _ _ => .inl ?_) fun howes => ?_
      · by_cases hi : i = src
        · simp [hi]
        · simpa [hi] using hp
      · simp
      · rcases howes with (hone | hsig) | hf
        · rw [hrc] at hone
          simp only [Option.some.injEq] at hone
          exact .inl (.inr (by simp [hone]))
        · exact .inl (.inr (by simp [hsig]))
        · exact .inr (.inl hf)
  | flush src =>
    dsimp only at hs
    split at hs
    · next hpush hrc =>
      cases hs
      refine h.settle (fun _ => id) id (fun _ => hrc) (fun hne => absurd hrc hne) fun howes => ?_
      rcases howes with (hone | hsig) | hf
      · rw [hrc] at hone
        cases hone
      · exact .inr (.inl (by simp [hsig]))
      · exact .inr (.inl (by simp [hf]))
    · cases hs
  | signal src =>
    simp only [Option.ite_none_right_eq_some, Option.some.injEq] at hs
    obtain ⟨-, rfl⟩ := hs
    exact h.settle (fun _ => id) (fun _ => rfl) id (fun hrc hw => .inr ⟨hrc, hw⟩)
      fun _ => .inr (.inr rfl)
  | idle =>
    dsimp only at hs
    split at hs
    · cases hs
      exact h
    · cases hs
  | cqes =>
    dsimp only at hs
    split at hs
    · next hc =>
      cases hs
      have hno : ∀ src mask last, s.consumer ≠ .drain (src :: mask) last := by simp [hc]
      exact h.setConsumer (h.pops_idle hno) (not_draining hno) (by simp [hc]) .inl
    · cases hs
  | cqe =>
    dsimp only at hs
    split at hs
    · cases hs
      exact h
    · cases hs
  | pollXfer =>
    dsimp only at hs
    split at hs
    · next hc =>
      cases hs
      have hno : ∀ src mask last, s.consumer ≠ .drain (src :: mask) last := by simp [hc]
      exact h.setConsumer (h.pops_idle hno) (not_draining hno) (by simp [hc]) fun _ => .inr rfl
    · cases hs
  | endBatch =>
    dsimp only at hs
    split at hs
    · next hc =>
      cases hs
      have hno : ∀ src mask last, s.consumer ≠ .drain (src :: mask) last := by simp [hc]
      exact h.setConsumer (h.pops_idle hno) (not_draining hno) (by simp [hc]) .inl
    · cases hs
  | exchange =>
    dsimp only at hs
    split at hs
    · next last hc =>
      cases hs
      exact h.exchange hc
    · cases hs
  | pop =>
    dsimp only at hs
    split at hs
    · next last hc =>
      cases hs
      have hno : ∀ src mask last, s.consumer ≠ .drain (src :: mask) last := by simp [hc]
      exact h.setConsumer (h.pops_idle hno) (not_draining hno) (by simp [hc]) .inl
    · next src mask last hc =>
      split at hs
      · next hpop =>
        obtain ⟨r, hr, rfl⟩ := Option.map_eq_some_iff.mp hs
        obtain ⟨hring, hpush, -, hstart⟩ := SpscRing.step_pop hr
        have hrun := h.drain hc (r := r) true ((h.rings src).step xferSpscRing_ok hr)
          hpush (by simp) (fun hne => by rwa [hring] at hne)
          fun _ _ => ⟨rfl, by simp [hstart, SpscRing.Pop.SeenEmpty]⟩
        simpa [State.setRing, hc] using hrun
      · obtain ⟨r, hr, rfl⟩ := Option.map_eq_some_iff.mp hs
        have hrun := h.drain hc (r := r) (decide (¬ (s.rings src).pop.SeenEmpty))
          ((h.rings src).step xferSpscRing_ok hr) (SpscRing.step_consumer hr).1
          (fun hseen => (SpscRing.step_consumer_seenEmpty hr (by simpa using hseen)).1)
          (fun hne => ?_) fun hne hnot => ?_
        · simpa [ite_not] using hrun
        · by_cases hseen : (s.rings src).pop.SeenEmpty
          · rwa [(SpscRing.step_consumer_seenEmpty hr hseen).2] at hne
          · exact ((h.rings src).step_consumer_holds hr hseen hne).1
        · exact ⟨by simpa using hnot, ((h.rings src).step_consumer_holds hr hnot hne).2⟩
    · cases hs

theorem inv_init (h : Init s) : Inv s where
  rings i := SpscRing.inv_init xferSpscRing_ok (h.rings i)
  pushing i hne := absurd (h.rings i).push hne
  popping i hne := absurd (h.rings i).pop hne
  owed i _ hholds := absurd ((h.rings i).head.trans (h.rings i).tail.symm) hholds

/-- Every interleaving of the sources and the worker. -/
theorem no_lost_wakeup (h : Runs.Reach Init step Announced s) : Woken s := by
  have hinv : Inv s := h.invariant (fun s h0 => inv_init h0)
    fun s s' l hinv hok hs => hinv.step hok hs
  exact hinv.woken

instance (s : State) (l : Label) : Decidable (Announced s l) := by
  unfold Announced
  split
  · split <;> infer_instance
  · infer_instance

/-! ### Two transfers from one source -/

def firstXfer : Xfer := { dstFd := 5, frame := [1], dstGen := 0 }

def secondXfer : Xfer := { dstFd := 5, frame := [2], dstGen := 0 }

def fresh : State where
  rings := fun _ => { ring := { items := fun _ => firstXfer, head := 0, tail := 0 } }

theorem fresh_init : Init fresh where
  rings _ := ⟨rfl, rfl, rfl, rfl, rfl, rfl, rfl, rfl⟩
  sources _ := rfl
  consumer := rfl

def pushFirst : List Label :=
  [.push 1 firstXfer, .access 1, .access 1, .access 1, .access 1, .mark 1, .flush 1, .signal 1]

def handleSignal : List Label :=
  [.cqes, .pollXfer, .exchange, .pop, .pop, .pop, .pop, .pop, .pop, .pop, .pop, .pop, .pop]

/-- The second one is pushed behind the first. -/
theorem woken_behind : ∃ s, Holds s 1 ∧ (s.sources 1).Flushed ∧ s.xferEfd = false ∧ Woken s := by
  obtain ⟨s, hrun, hs⟩ := Option.map_eq_some_iff.mp
    (show ((Runs.run (Runs.guarded step Announced) fresh
      (pushFirst ++ [.push 1 secondXfer, .access 1, .access 1, .access 1, .access 1, .mark 1,
        .flush 1, .cqes, .pollXfer])).map fun s =>
          ((s.rings 1).ring.head, (s.rings 1).ring.tail, s.sources 1, s.xferEfd)) =
        some (2, 0, {}, false) by decide)
  simp only [Prod.mk.injEq] at hs
  obtain ⟨hhead, htail, hsource, hefd⟩ := hs
  refine ⟨s, ?_, by rw [hsource]; exact ⟨rfl, rfl, rfl⟩, hefd,
    no_lost_wakeup (Runs.reach_of_guarded (.start _ fresh_init) hrun)⟩
  simp [Holds, hhead, htail]

/-- The push of the second one loads the tail before the worker drains the ring, and stores the
item when the worker is back at the top of its loop. -/
theorem second_asleep : ∃ s, Runs.Reach Init step Runs.Any s ∧ Holds s 1 ∧
    (s.sources 1).Flushed ∧ s.consumer = .peek ∧ s.xferEfd = false ∧ ¬ Woken s := by
  obtain ⟨s, hrun, hs⟩ := Option.map_eq_some_iff.mp
    (show ((Runs.run step fresh
      (pushFirst ++ [.push 1 secondXfer, .access 1, .access 1] ++ handleSignal ++
        [.endBatch, .exchange, .pop, .access 1, .access 1, .mark 1, .flush 1, .idle])).map fun s =>
          ((s.rings 1).ring.head, (s.rings 1).ring.tail, s.sources 1, s.consumer, s.xferEfd)) =
        some (2, 1, {}, .peek, false) by decide)
  simp only [Prod.mk.injEq] at hs
  obtain ⟨hhead, htail, hsource, hpeek, hefd⟩ := hs
  have hholds : Holds s 1 := by simp [Holds, hhead, htail]
  have hflushed : (s.sources 1).Flushed := by
    rw [hsource]
    exact ⟨rfl, rfl, rfl⟩
  refine ⟨s, Runs.reach_of_run fresh_init hrun, hholds, hflushed, hpeek, hefd, fun hwoken => ?_⟩
  rcases hwoken 1 (by decide) hholds hflushed with he | ha
  · rw [hefd] at he
    cases he
  · rw [hpeek] at ha
    exact ha

end HyperDerp.XferWake
