import HyperDerp.Lib.Runs
import HyperDerp.Lib.SlotPool

/-!
# SDK frame pool (`frame_pool.h`, `frame_pool.cc`)

Any number of threads take slots off the free list and put them back, one load, store or
compare-exchange at a time. Buffers and threads are numbered; an index of -1 is `none`.
-/

namespace HyperDerp.FramePool

open SlotPool (Pool Chain Free)

/-- A live `FrameBuffer`. `user` is the thread in the middle of a call on it. -/
structure FrameBuffer (n : ℕ) where
  slot : Option (Fin n) := none
  user : Option ℕ := none

/-- Where a thread stands. In `push` the slot goes back to the pool, `stored` once its link
is written; then `into` is the buffer of a move assignment and the one it takes from. -/
inductive Pc (n : ℕ) where
  | idle
  | allocNext (slot : Fin n)
  | allocCas (slot : Fin n) (nextSlot : Option (Fin n))
  | push (stored : Bool) (slot : Fin n) (oldHead : Option (Fin n)) (into : Option (ℕ × ℕ))

structure State (n : ℕ) where
  freeHead : Option (Fin n)
  next : Fin n → Option (Fin n)
  bufs : ℕ → Option (FrameBuffer n) := fun _ => none
  pcs : ℕ → Pc n := fun _ => .idle

inductive Label where
  /-- `Alloc`, up to its first load -/
  | alloc (t : ℕ)
  | readNext (t : ℕ)
  /-- `weak` is a spurious failure; a success makes the new buffer `b`. -/
  | allocCas (t : ℕ) (weak : Bool) (b : ℕ)
  /-- a destructor, up to its first load -/
  | destroy (t b : ℕ)
  | moveConstruct (t src b : ℕ)
  /-- a move assignment, up to its first load -/
  | moveAssign (t dst src : ℕ)
  | storeNext (t : ℕ)
  | pushCas (t : ℕ) (weak : Bool)

variable {n : ℕ}

namespace State

def setPc (s : State n) (t : ℕ) (pc : Pc n) : State n :=
  { s with pcs := Function.update s.pcs t pc }

def setBuf (s : State n) (b : ℕ) (buf : Option (FrameBuffer n)) : State n :=
  { s with bufs := Function.update s.bufs b buf }

end State

/-- After a failed compare-exchange, or the first load: on with the head just seen. -/
def allocLoop (s : State n) (t : ℕ) : State n :=
  match s.freeHead with
  | none => s.setPc t .idle
  | some slot => s.setPc t (.allocNext slot)

/-- `src` gives its slot to `dst`. -/
def transfer (s : State n) (dst src : ℕ) (slot : Option (Fin n)) : State n :=
  (s.setBuf src (some {})).setBuf dst (some { slot := slot })

def step (s : State n) : Label → Option (State n)
  | .alloc t =>
    match s.pcs t with
    | .idle => some (allocLoop s t)
    | _ => none
  | .readNext t =>
    match s.pcs t with
    | .allocNext slot => some (s.setPc t (.allocCas slot (s.next slot)))
    | _ => none
  | .allocCas t weak b =>
    match s.pcs t with
    | .allocCas slot nextSlot =>
      if s.freeHead = some slot ∧ weak = false then
        match s.bufs b with
        | none =>
          some (({ s with freeHead := nextSlot }.setBuf b (some { slot := some slot })).setPc t .idle)
        | some _ => none
      else some (allocLoop s t)
    | _ => none
  | .destroy t b =>
    match s.pcs t, s.bufs b with
    | .idle, some ⟨none, none⟩ => some (s.setBuf b none)
    | .idle, some ⟨some slot, none⟩ =>
      some ((s.setBuf b none).setPc t (.push false slot s.freeHead none))
    | _, _ => none
  | .moveConstruct t src b =>
    match s.pcs t, s.bufs src, s.bufs b with
    | .idle, some ⟨slot, none⟩, none => some (transfer s b src slot)
    | _, _, _ => none
  | .moveAssign t dst src =>
    match s.pcs t, s.bufs dst, s.bufs src with
    | .idle, some ⟨slot, none⟩, some ⟨slot', none⟩ =>
      if dst = src then some s
      else
        match slot with
        | none => some (transfer s dst src slot')
        | some x =>
          some (((s.setBuf dst (some ⟨some x, some t⟩)).setBuf src (some ⟨slot', some t⟩)).setPc t
            (.push false x s.freeHead (some (dst, src))))
    | _, _, _ => none
  | .storeNext t =>
    match s.pcs t with
    | .push false slot oldHead into =>
      some ({ s with next := Function.update s.next slot oldHead }.setPc t
        (.push true slot oldHead into))
    | _ => none
  | .pushCas t weak =>
    match s.pcs t with
    | .push true slot oldHead into =>
      if s.freeHead = oldHead ∧ weak = false then
        let s := { s with freeHead := some slot }.setPc t .idle
        match into with
        | none => some s
        | some (dst, src) => some (transfer s dst src ((s.bufs src).bind FrameBuffer.slot))
      else some (s.setPc t (.push false slot s.freeHead into))
    | _ => none

/-- `FramePool(count, ...)`: the free list runs through all slots in order. -/
def Init (s : State n) : Prop :=
  ∃ hn : 0 < n, s = { freeHead := some ⟨0, hn⟩, next := SlotPool.inOrder n }

def held (s : State n) (b : ℕ) : Option (Fin n) := (s.bufs b).bind FrameBuffer.slot

/-- No slot has two buffers, and when no call is under way the free list is the rest. -/
structure Correct (s : State n) : Prop where
  exclusive : ∀ b c x, held s b = some x → held s c = some x → b = c
  quiescent : (∀ t, s.pcs t = .idle) →
    ∃ xs, Chain s.next s.freeHead xs ∧ xs.Nodup ∧ ∀ x, x ∈ xs ↔ ∀ b, held s b ≠ some x

/-- A compare-exchange of `Alloc` that takes a slot finds its link as it was read. -/
def casOk (s : State n) : Label → Prop
  | .allocCas t weak _ => ∀ slot nextSlot, s.pcs t = .allocCas slot nextSlot →
      s.freeHead = some slot → weak = false → s.next slot = nextSlot
  | _ => True

/-! ### Holders -/

def Pc.returning : Pc n → Option (Fin n)
  | .push _ slot _ none => some slot
  | _ => none

def holder (s : State n) : ℕ ⊕ ℕ → Option (Fin n)
  | .inl b => held s b
  | .inr t => (s.pcs t).returning

def Pc.slot : Pc n → Option (Fin n)
  | .push _ slot _ _ => some slot
  | _ => none

/-- A stored link is what was stored, and the buffers of an assignment are its thread's. -/
def PcOk (s : State n) (t : ℕ) : Pc n → Prop
  | .push stored slot oldHead into =>
    (stored = true → s.next slot = oldHead) ∧
      match into with
      | none => True
      | some (dst, src) => dst ≠ src ∧ s.bufs dst = some ⟨some slot, some t⟩ ∧
          ∃ o, s.bufs src = some ⟨o, some t⟩
  | _ => True

structure Inv (s : State n) : Prop where
  pool : Pool s.next s.freeHead (holder s)
  pcs : ∀ t, PcOk s t (s.pcs t)

variable {s s' : State n} {t t' b : ℕ} {pc : Pc n} {slot : Fin n} {l : Label}

theorem PcOk.frame (h : PcOk s t pc) (hnext : ∀ x, pc.slot = some x → s'.next x = s.next x)
    (hbufs : ∀ b o, s.bufs b = some ⟨o, some t⟩ → s'.bufs b = some ⟨o, some t⟩) :
    PcOk s' t pc := by
  cases pc with
  | push stored slot oldHead into =>
    refine ⟨fun hst => (hnext slot rfl).trans (h.1 hst), ?_⟩
    cases into with
    | none => trivial
    | some bs =>
      obtain ⟨hne, hdst, o, hsrc⟩ := h.2
      exact ⟨hne, hbufs _ _ hdst, o, hbufs _ _ hsrc⟩
  | _ => trivial

theorem holder_setPc (s : State n) (t : ℕ) (pc : Pc n) :
    holder (s.setPc t pc) = Function.update (holder s) (.inr t) pc.returning := by
  funext o
  cases o with
  | inl b => rfl
  | inr u =>
    simp only [holder, State.setPc, Function.update_apply, Sum.inr.injEq]
    split <;> rfl

theorem holder_setBuf (s : State n) (b : ℕ) (buf : Option (FrameBuffer n)) :
    holder (s.setBuf b buf) = Function.update (holder s) (.inl b) (buf.bind FrameBuffer.slot) := by
  funext o
  cases o with
  | inl c =>
    simp only [holder, held, State.setBuf, Function.update_apply, Sum.inl.injEq]
    split <;> rfl
  | inr u => rfl

theorem holder_transfer (s : State n) (dst src : ℕ) (o : Option (Fin n)) :
    holder (transfer s dst src o) =
      Function.update (Function.update (holder s) (.inl src) none) (.inl dst) o := by
  rw [transfer, holder_setBuf, holder_setBuf]
  rfl

theorem pcs_setPc (h : ∀ t', t' ≠ t → PcOk s t' (s.pcs t')) (hpc : PcOk s t pc) (t' : ℕ) :
    PcOk (s.setPc t pc) t' ((s.setPc t pc).pcs t') := by
  by_cases ht : t' = t
  · subst ht
    simp only [State.setPc, Function.update_self]
    exact hpc.frame (fun _ _ => rfl) fun _ _ hb => hb
  · simp only [State.setPc, Function.update_of_ne ht]
    exact (h t' ht).frame (fun _ _ => rfl) fun _ _ hb => hb

theorem Inv.setPc (h : Inv s) (hold : (s.pcs t).returning = none) (hnew : pc.returning = none)
    (hpc : PcOk s t pc) : Inv (s.setPc t pc) := by
  refine ⟨?_, pcs_setPc (fun t' _ => h.pcs t') hpc⟩
  rw [holder_setPc, hnew, ← show holder s (.inr t) = none from hold, Function.update_eq_self]
  exact h.pool

theorem Inv.allocLoop (h : Inv s) (hold : (s.pcs t).returning = none) :
    Inv (FramePool.allocLoop s t) := by
  unfold FramePool.allocLoop
  split
  · exact h.setPc hold rfl trivial
  · exact h.setPc hold rfl trivial

variable {dst src : ℕ} {o old : Option (Fin n)} {into : Option (ℕ × ℕ)}

theorem PcOk.transfer (h : PcOk s t pc) (hdst : ∀ o, s.bufs dst ≠ some ⟨o, some t⟩)
    (hsrc : ∀ o, s.bufs src ≠ some ⟨o, some t⟩) :
    PcOk (FramePool.transfer s dst src o) t pc := by
  apply h.frame
  · exact fun _ _ => rfl
  · intro b o' hb
    have hbd : b ≠ dst := fun he => hdst o' (he ▸ hb)
    have hbs : b ≠ src := fun he => hsrc o' (he ▸ hb)
    simp only [FramePool.transfer, State.setBuf, Function.update_of_ne hbd,
      Function.update_of_ne hbs]
    exact hb

theorem PcOk.setBuf (h : PcOk s t pc) {buf : Option (FrameBuffer n)}
    (hb : ∀ o, s.bufs b ≠ some ⟨o, some t⟩) : PcOk (s.setBuf b buf) t pc := by
  apply h.frame
  · exact fun _ _ => rfl
  · intro c o hc
    have hcb : c ≠ b := fun he => hb o (he ▸ hc)
    simp only [State.setBuf, Function.update_of_ne hcb]
    exact hc

theorem Inv.push_unique (h : Inv s) {x : Fin n} (ht : (s.pcs t).slot = some x)
    (ht' : (s.pcs t').slot = some x) : t = t' := by
  have hwho : ∀ u, (s.pcs u).slot = some x →
      (s.pcs u).returning = some x ∨ ∃ dst, s.bufs dst = some ⟨some x, some u⟩ := by
    intro u hu
    have hok := h.pcs u
    generalize s.pcs u = pc at hu hok
    cases pc with
    | push stored slot oldHead into =>
      cases hu
      cases into with
      | none => exact .inl rfl
      | some bs => exact .inr ⟨bs.1, hok.2.2.1⟩
    | _ => cases hu
  have hheld : ∀ dst u, s.bufs dst = some ⟨some x, some u⟩ → holder s (.inl dst) = some x := by
    intro dst u hb
    simp only [holder, held, hb, Option.bind_some]
  rcases hwho t ht with h1 | ⟨dst, h1⟩ <;> rcases hwho t' ht' with h2 | ⟨dst', h2⟩
  · exact Sum.inr.inj (h.pool.single (.inr t) (.inr t') x h1 h2)
  · exact absurd (h.pool.single (.inr t) _ x h1 (hheld dst' t' h2)) Sum.inr_ne_inl
  · exact absurd (h.pool.single _ (.inr t') x (hheld dst t h1) h2) Sum.inl_ne_inr
  · have hd := Sum.inl.inj (h.pool.single _ _ x (hheld dst t h1) (hheld dst' t' h2))
    rw [hd, h2] at h1
    cases h1
    rfl

/-! ### Steps -/

theorem Inv.readNext (h : Inv s) (hpc : s.pcs t = .allocNext slot) :
    Inv (s.setPc t (.allocCas slot (s.next slot))) := by
  apply h.setPc
  · rw [hpc]
    rfl
  · rfl
  · trivial

theorem Inv.allocCas (h : Inv s) {nextSlot : Option (Fin n)}
    (hpc : s.pcs t = .allocCas slot nextSlot) (hhead : s.freeHead = some slot)
    (hnext : s.next slot = nextSlot) (hb : s.bufs b = none) :
    Inv (({ s with freeHead := nextSlot }.setBuf b (some { slot := some slot })).setPc t .idle) := by
  have hreturn : (s.pcs t).returning = none := by rw [hpc]; rfl
  refine ⟨?_, pcs_setPc (fun t' _ => ?_) trivial⟩
  · have hnone : holder s (.inl b) = none := by simp only [holder, held, hb, Option.bind_none]
    have hpool := h.pool.take hhead hnone
    rw [hnext] at hpool
    have hsame : holder (({ s with freeHead := nextSlot }.setBuf b
        (some { slot := some slot })).setPc t .idle) =
          Function.update (holder s) (.inl b) (some slot) := by
      rw [holder_setPc, holder_setBuf]
      have hidle : Function.update (holder s) (.inl b) (some slot) (.inr t) = none := hreturn
      rw [show (Pc.idle : Pc n).returning = none from rfl, ← hidle]
      exact Function.update_eq_self ..
    rw [hsame]
    exact hpool
  · have hok : PcOk { s with freeHead := nextSlot } t' (s.pcs t') :=
      (h.pcs t').frame (fun _ _ => rfl) fun _ _ hc => hc
    apply hok.setBuf
    intro o he
    rw [hb] at he
    cases he

theorem Inv.destroyEmpty (h : Inv s) (hb : s.bufs b = some ⟨none, none⟩) :
    Inv (s.setBuf b none) := by
  refine ⟨?_, fun t' => (h.pcs t').setBuf fun o he => ?_⟩
  · have hnone : holder s (.inl b) = none := by simp only [holder, held, hb, Option.bind_some]
    have hsame : holder (s.setBuf b none) = holder s := by
      rw [holder_setBuf, Option.bind_none, ← hnone, Function.update_eq_self]
    rw [hsame]
    exact h.pool
  · rw [hb] at he
    cases he

theorem Inv.destroy (h : Inv s) (hpc : s.pcs t = .idle) (hb : s.bufs b = some ⟨some slot, none⟩) :
    Inv ((s.setBuf b none).setPc t (.push false slot s.freeHead none)) := by
  refine ⟨?_, pcs_setPc (fun t' _ => (h.pcs t').setBuf fun o he => ?_) ⟨nofun, trivial⟩⟩
  · have hidle : holder s (.inr t) = none := by simp only [holder, hpc, Pc.returning]
    have hslot : holder s (.inl b) = some slot := by simp only [holder, held, hb, Option.bind_some]
    have hpool := h.pool.pass (o := .inl b) hidle
    rw [hslot] at hpool
    rw [holder_setPc, holder_setBuf]
    exact hpool
  · rw [hb] at he
    cases he

theorem Inv.transfer (h : Inv s) (hdst : holder s (.inl dst) = none)
    (hfree : ∀ o t, s.bufs dst ≠ some ⟨o, some t⟩) (hsrc : s.bufs src = some ⟨o, none⟩) :
    Inv (FramePool.transfer s dst src o) := by
  refine ⟨?_, fun t => (h.pcs t).transfer (fun o => hfree o t) fun o he => ?_⟩
  · have hslot : holder s (.inl src) = o := by simp only [holder, held, hsrc, Option.bind_some]
    have hpool := h.pool.pass (o := .inl src) hdst
    rw [hslot] at hpool
    rw [holder_transfer]
    exact hpool
  · rw [hsrc] at he
    cases he

theorem Inv.startAssign (h : Inv s) (hpc : s.pcs t = .idle)
    (hdst : s.bufs dst = some ⟨some slot, none⟩) (hsrc : s.bufs src = some ⟨o, none⟩)
    (hne : dst ≠ src) :
    Inv (((s.setBuf dst (some ⟨some slot, some t⟩)).setBuf src (some ⟨o, some t⟩)).setPc t
      (.push false slot s.freeHead (some (dst, src)))) := by
  have hslot : holder s (.inl dst) = some slot := by
    simp only [holder, held, hdst, Option.bind_some]
  have ho : holder s (.inl src) = o := by simp only [holder, held, hsrc, Option.bind_some]
  refine ⟨?_, pcs_setPc (fun t' _ => ?_) ⟨nofun, hne, ?_, o, ?_⟩⟩
  · have hidle : holder s (.inr t) = none := by simp only [holder, hpc, Pc.returning]
    have hsame : holder (((s.setBuf dst (some ⟨some slot, some t⟩)).setBuf src
        (some ⟨o, some t⟩)).setPc t (.push false slot s.freeHead (some (dst, src)))) = holder s := by
      rw [holder_setPc, holder_setBuf, holder_setBuf]
      simp only [Option.bind_some, Pc.returning]
      rw [← hslot, Function.update_eq_self, ← ho, Function.update_eq_self, ← hidle,
        Function.update_eq_self]
    rw [hsame]
    exact h.pool
  · have hbusy : PcOk (s.setBuf dst (some ⟨some slot, some t⟩)) t' (s.pcs t') := by
      apply (h.pcs t').setBuf
      intro o' he
      rw [hdst] at he
      cases he
    apply hbusy.setBuf
    intro o' he
    simp only [State.setBuf, Function.update_of_ne hne.symm, hsrc] at he
    cases he
  · simp only [State.setBuf, Function.update_of_ne hne, Function.update_self]
  · simp only [State.setBuf, Function.update_self]

theorem Inv.pushed (h : Inv s) {stored : Bool} (hpc : s.pcs t = .push stored slot old into) :
    ∃ o, holder s o = some slot := by
  have hok := h.pcs t
  rw [hpc] at hok
  cases into with
  | none => exact ⟨.inr t, by simp only [holder, hpc, Pc.returning]⟩
  | some bs => exact ⟨.inl bs.1, by simp only [holder, held, hok.2.2.1, Option.bind_some]⟩

theorem Inv.storeNext (h : Inv s) (hpc : s.pcs t = .push false slot old into) :
    Inv ({ s with next := Function.update s.next slot old }.setPc t (.push true slot old into)) := by
  obtain ⟨o, ho⟩ := h.pushed hpc
  have hok := h.pcs t
  rw [hpc] at hok
  refine ⟨?_, pcs_setPc (fun t' ht => ?_) ⟨fun _ => Function.update_self .., hok.2⟩⟩
  · have hsame : holder ({ s with next := Function.update s.next slot old }.setPc t
        (.push true slot old into)) = holder s := by
      have hret : (Pc.push true slot old into).returning = holder s (.inr t) := by
        simp only [holder, hpc]
        cases into <;> rfl
      rw [holder_setPc, hret]
      exact Function.update_eq_self ..
    rw [hsame]
    exact h.pool.write ho
  · apply (h.pcs t').frame
    · intro x hx
      have hne : x ≠ slot := by
        rintro rfl
        exact ht (h.push_unique hx (by rw [hpc]; rfl))
      exact Function.update_of_ne hne ..
    · exact fun _ _ hb => hb

theorem Inv.retryPush (h : Inv s) {stored : Bool} {head : Option (Fin n)}
    (hpc : s.pcs t = .push stored slot old into) :
    Inv (s.setPc t (.push false slot head into)) := by
  have hok := h.pcs t
  rw [hpc] at hok
  refine ⟨?_, pcs_setPc (fun t' _ => h.pcs t') ⟨nofun, hok.2⟩⟩
  have hret : (Pc.push false slot head into).returning = holder s (.inr t) := by
    simp only [holder, hpc]
    cases into <;> rfl
  rw [holder_setPc, hret, Function.update_eq_self]
  exact h.pool

theorem Inv.pushCas (h : Inv s) (hpc : s.pcs t = .push true slot s.freeHead none) :
    Inv ({ s with freeHead := some slot }.setPc t .idle) := by
  have hok := h.pcs t
  rw [hpc] at hok
  have hhold : holder s (.inr t) = some slot := by simp only [holder, hpc, Pc.returning]
  refine ⟨?_, pcs_setPc (fun t' _ => (h.pcs t').frame (fun _ _ => rfl) fun _ _ hb => hb) trivial⟩
  rw [holder_setPc]
  exact h.pool.give hhold (hok.1 rfl)

theorem Inv.assignCas (h : Inv s) (hpc : s.pcs t = .push true slot s.freeHead (some (dst, src))) :
    Inv (FramePool.transfer ({ s with freeHead := some slot }.setPc t .idle) dst src
      ((s.bufs src).bind FrameBuffer.slot)) := by
  have hok := h.pcs t
  rw [hpc] at hok
  obtain ⟨hlink, hne, hdst, o, hsrc⟩ := hok
  have hslot : holder s (.inl dst) = some slot := by
    simp only [holder, held, hdst, Option.bind_some]
  have ho : holder s (.inl src) = o := by simp only [holder, held, hsrc, Option.bind_some]
  rw [hsrc, Option.bind_some]
  refine ⟨?_, fun t' => ?_⟩
  · -- the old slot of the destination first, then the one of the source
    have hgive := h.pool.give hslot (hlink rfl)
    have hnone : Function.update (holder s) (.inl dst) none (.inl dst) = none :=
      Function.update_self ..
    have hpass := hgive.pass (o := .inl src) hnone
    have hinl : (Sum.inl src : ℕ ⊕ ℕ) ≠ .inl dst := fun he => hne (Sum.inl.inj he).symm
    rw [Function.update_of_ne hinl, ho, Function.update_comm hinl.symm, Function.update_idem] at hpass
    have hidle : holder ({ s with freeHead := some slot }.setPc t .idle) = holder s := by
      have hret : (Pc.idle : Pc n).returning = holder s (.inr t) := by
        simp only [holder, hpc, Pc.returning]
      rw [holder_setPc, hret]
      exact Function.update_eq_self ..
    rw [holder_transfer, hidle]
    exact hpass
  · by_cases ht : t' = t
    · rw [ht]
      simp only [FramePool.transfer, State.setBuf, State.setPc, Function.update_self]
      trivial
    · have hpc' : (FramePool.transfer ({ s with freeHead := some slot }.setPc t .idle) dst src
          o).pcs t' = s.pcs t' := by
        simp only [FramePool.transfer, State.setBuf, State.setPc, Function.update_of_ne ht]
      rw [hpc']
      apply PcOk.transfer
      · exact (h.pcs t').frame (fun _ _ => rfl) fun _ _ hb => hb
      · intro o' he
        change s.bufs dst = _ at he
        rw [hdst] at he
        cases he
        exact ht rfl
      · intro o' he
        change s.bufs src = _ at he
        rw [hsrc] at he
        cases he
        exact ht rfl

theorem step_inv (h : Inv s) (hok : casOk s l) (hs : step s l = some s') : Inv s' := by
  cases l with
  | alloc t =>
    simp only [step] at hs
    split at hs
    · next hpc =>
      rw [← Option.some.inj hs]
      exact h.allocLoop (by rw [hpc]; rfl)
    · cases hs
  | readNext t =>
    simp only [step] at hs
    split at hs
    · next slot hpc =>
      rw [← Option.some.inj hs]
      exact h.readNext hpc
    · cases hs
  | allocCas t weak b =>
    simp only [step] at hs
    split at hs
    · next slot nextSlot hpc =>
      split at hs
      · next hcas =>
        split at hs
        · next hb =>
          rw [← Option.some.inj hs]
          exact h.allocCas hpc hcas.1 (hok slot nextSlot hpc hcas.1 hcas.2) hb
        · cases hs
      · rw [← Option.some.inj hs]
        exact h.allocLoop (by rw [hpc]; rfl)
    · cases hs
  | destroy t b =>
    simp only [step] at hs
    split at hs
    · next hpc hb =>
      rw [← Option.some.inj hs]
      exact h.destroyEmpty hb
    · next slot hpc hb =>
      rw [← Option.some.inj hs]
      exact h.destroy hpc hb
    · cases hs
  | moveConstruct t src b =>
    simp only [step] at hs
    split at hs
    · next slot hpc hsrc hb =>
      rw [← Option.some.inj hs]
      apply h.transfer _ _ hsrc
      · simp only [holder, held, hb, Option.bind_none]
      · intro o u he
        rw [hb] at he
        cases he
    · cases hs
  | moveAssign t dst src =>
    simp only [step] at hs
    split at hs
    · next slot slot' hpc hdst hsrc =>
      split at hs
      · rw [← Option.some.inj hs]
        exact h
      · next hne =>
        split at hs
        · rw [← Option.some.inj hs]
          apply h.transfer _ _ hsrc
          · simp only [holder, held, hdst, Option.bind_some]
          · intro o u he
            rw [hdst] at he
            cases he
        · next x =>
          rw [← Option.some.inj hs]
          exact h.startAssign hpc hdst hsrc hne
    · cases hs
  | storeNext t =>
    simp only [step] at hs
    split at hs
    · next slot old into hpc =>
      rw [← Option.some.inj hs]
      exact h.storeNext hpc
    · cases hs
  | pushCas t weak =>
    simp only [step] at hs
    split at hs
    · next slot old into hpc =>
      split at hs
      · next hcas =>
        rw [← hcas.1] at hpc
        split at hs
        · rw [← Option.some.inj hs]
          exact h.pushCas hpc
        · next dst src =>
          rw [← Option.some.inj hs]
          exact h.assignCas hpc
      · rw [← Option.some.inj hs]
        exact h.retryPush hpc
    · cases hs

theorem Init.inv (h : Init s) : Inv s := by
  obtain ⟨hn, rfl⟩ := h
  refine ⟨SlotPool.pool_inOrder hn fun o => ?_, fun t => trivial⟩
  cases o <;> rfl

theorem Inv.correct (h : Inv s) : Correct s := by
  constructor
  · intro b c x hb hc
    exact Sum.inl.inj (h.pool.single (.inl b) (.inl c) x hb hc)
  · intro hidle
    obtain ⟨xs, hc, hnd, hmem⟩ := h.pool.linked
    refine ⟨xs, hc, hnd, fun x => (hmem x).trans ⟨fun hfree b => hfree (.inl b), ?_⟩⟩
    intro hheld o
    cases o with
    | inl b => exact hheld b
    | inr t =>
      simp only [holder, hidle t, Pc.returning]
      exact nofun

theorem pool_correct (h : Runs.Reach Init step casOk s) : Correct s :=
  (h.invariant (P := Inv) (fun _ h0 => h0.inv) fun _ _ _ ih hok hs => step_inv ih hok hs).correct

/-! ### A slot taken and put back between the read and the exchange -/

def fresh : State 3 := { freeHead := some 0, next := SlotPool.inOrder 3 }

/-- Thread 0 reads slot 0 and its link, thread 1 takes slots 0 and 1 and puts 0 back; then
both allocate. -/
def staleRead : List Label :=
  [.alloc 0, .readNext 0, .alloc 1, .readNext 1, .allocCas 1 false 0, .alloc 1, .readNext 1,
    .allocCas 1 false 1, .destroy 1 0, .storeNext 1, .pushCas 1 false, .allocCas 0 false 2,
    .alloc 1, .readNext 1, .allocCas 1 false 3]

theorem not_correct_stale_read : ¬∀ s : State 3, Runs.Reach Init step Runs.Any s → Correct s := by
  intro hall
  have hrun : ((Runs.run step fresh staleRead).map fun s => (held s 1, held s 3)) =
      some (some 1, some 1) := by
    decide
  obtain ⟨s, hs, hheld⟩ := Option.map_eq_some_iff.mp hrun
  rw [Prod.mk.injEq] at hheld
  have hreach : Runs.Reach Init step Runs.Any s :=
    Runs.reach_of_run (s := fresh) ⟨by decide, rfl⟩ hs
  have heq := (hall s hreach).exclusive 1 3 1 hheld.1 hheld.2
  cases heq

def linkKept (s : State n) (weak : Bool) : Pc n → Bool
  | .allocCas slot nextSlot =>
    decide (s.freeHead = some slot → weak = false → s.next slot = nextSlot)
  | _ => true

theorem linkKept_iff {t : ℕ} {weak : Bool} {b : ℕ} :
    linkKept s weak (s.pcs t) = true ↔ casOk s (.allocCas t weak b) := by
  simp only [casOk]
  cases hpc : s.pcs t with
  | allocCas slot nextSlot =>
    simp only [linkKept, decide_eq_true_eq, Pc.allocCas.injEq]
    constructor
    · rintro h _ _ ⟨rfl, rfl⟩
      exact h
    · exact fun h => h slot nextSlot ⟨rfl, rfl⟩
  | idle | allocNext | push => simp [linkKept]

instance (s : State n) : (l : Label) → Decidable (casOk s l)
  | .allocCas _ _ _ => decidable_of_iff _ linkKept_iff
  | .alloc _ | .readNext _ | .destroy _ _ | .moveConstruct _ _ _ | .moveAssign _ _ _
  | .storeNext _ | .pushCas _ _ => .isTrue trivial

/-- Both threads read slot 0 and its link; the one that comes second takes slot 1. The first
puts its slot back, and the second takes that one as well. -/
def contended : List Label :=
  [.alloc 0, .alloc 1, .readNext 0, .readNext 1, .allocCas 0 false 7, .allocCas 1 false 8,
    .readNext 1, .allocCas 1 false 8, .destroy 0 7, .storeNext 0, .pushCas 0 false, .alloc 1,
    .readNext 1, .allocCas 1 false 9]

theorem contended_correct :
    ∃ s : State 3, Runs.run (Runs.guarded step casOk) fresh contended = some s ∧ Correct s ∧
      held s 7 = none ∧ held s 8 = some 1 ∧ held s 9 = some 0 := by
  have hrun : ((Runs.run (Runs.guarded step casOk) fresh contended).map fun s =>
      (held s 7, held s 8, held s 9)) = some (none, some 1, some 0) := by
    decide
  obtain ⟨s, hs, hheld⟩ := Option.map_eq_some_iff.mp hrun
  rw [Prod.mk.injEq, Prod.mk.injEq] at hheld
  have hreach : Runs.Reach Init step casOk s :=
    Runs.reach_of_guarded (.start fresh ⟨by decide, rfl⟩) hs
  exact ⟨s, hs, pool_correct hreach, hheld⟩

end HyperDerp.FramePool
