import HyperDerp.Lib.LinkedLists
import HyperDerp.Lib.Runs

/-!
# Pool buffers between workers (`data_plane.cc:460-614`)

Every worker has a pool of `m` frame buffers. It alone takes buffers off its free list. A worker
that is done with a buffer of another pool pushes it on its own return inbox there, with a
compare-exchange against the owner, who takes the whole inbox with one exchange. The links stand
in the buffers, under the frame while a buffer is in use.
-/

namespace HyperDerp.FrameReturns

open LinkedLists (Lists)

abbrev Buf (n m : ℕ) := Fin n × Fin m

inductive Place (n : ℕ) where
  /-- `frame_pool_free` -/
  | free (w : Fin n)
  /-- `frame_return_inbox[src]` of the owner -/
  | inbox (ow src : Fin n)
  /-- `list` in `FrameReturnDrain` -/
  | list (w : Fin n)
  deriving DecidableEq

/-- Where a worker stands: in the loop of `FrameReturnDrain`, before an exchange or behind it, or
in `FrameReturnPush`, `stored` once the link is written. -/
inductive Pc (n m : ℕ) where
  | idle
  | drain (src : ℕ)
  | relink (src : ℕ)
  | push (stored : Bool) (buf : Buf n m) (old : Option (Buf n m))
  deriving DecidableEq

/-- `holder` is the worker whose code or queues have the buffer, if it is handed out. -/
structure State (n m : ℕ) where
  next : Buf n m → Option (Buf n m)
  head : Place n → Option (Buf n m)
  pcs : Fin n → Pc n m := fun _ => .idle
  holder : Buf n m → Option (Fin n) := fun _ => none

inductive Label (n m : ℕ) where
  /-- `FrameAlloc` of a size that fits a buffer -/
  | alloc (w : Fin n)
  /-- the next exchange of `FrameReturnDrain`; after the last one the rest of `FrameAlloc` -/
  | exchange (w : Fin n)
  /-- one turn of the inner loop of `FrameReturnDrain` -/
  | relink (w : Fin n)
  /-- `FrameFree`, of another worker's buffer up to the load of the inbox -/
  | free (w : Fin n) (buf : Buf n m)
  | storeNext (w : Fin n)
  | cas (w : Fin n)
  /-- The holder writes a frame over the link. -/
  | fill (w : Fin n) (buf : Buf n m) (v : Option (Buf n m))
  /-- The buffer goes to another worker, in a transfer ring. -/
  | pass (w v : Fin n) (buf : Buf n m)

variable {n m : ℕ}

def Label.worker : Label n m → Fin n
  | .alloc w | .exchange w | .relink w | .free w _ | .storeNext w | .cas w | .fill w _ _
  | .pass w _ _ => w

namespace State

def setPc (s : State n m) (w : Fin n) (pc : Pc n m) : State n m :=
  { s with pcs := Function.update s.pcs w pc }

def popHead (s : State n m) (p : Place n) (node : Buf n m) : State n m :=
  { s with head := Function.update s.head p (s.next node) }

def pushHead (s : State n m) (p : Place n) (node : Buf n m) : State n m :=
  { s with
    next := Function.update s.next node (s.head p)
    head := Function.update s.head p (some node) }

/-- The exchange: all of `p` is taken over as `q`. -/
def takeAll (s : State n m) (p q : Place n) : State n m :=
  { s with head := Function.update (Function.update s.head q (s.head p)) p none }

def setHolder (s : State n m) (b : Buf n m) (o : Option (Fin n)) : State n m :=
  { s with holder := Function.update s.holder b o }

end State

/-- `FrameAlloc` when the free list has a buffer; without one it takes memory from the heap. -/
def takeFree (s : State n m) (w : Fin n) : State n m :=
  match s.head (.free w) with
  | none => s.setPc w .idle
  | some node => ((s.popHead (.free w) node).setHolder node (some w)).setPc w .idle

def step (s : State n m) : Label n m → Option (State n m)
  | .alloc w =>
    if s.pcs w = .idle then
      if s.head (.free w) = none then some (s.setPc w (.drain 0)) else some (takeFree s w)
    else none
  | .exchange w =>
    match s.pcs w with
    | .drain src =>
      if h : src < n then
        some ((s.takeAll (.inbox w ⟨src, h⟩) (.list w)).setPc w (.relink src))
      else some (takeFree s w)
    | _ => none
  | .relink w =>
    match s.pcs w with
    | .relink src =>
      match s.head (.list w) with
      | none => some (s.setPc w (.drain (src + 1)))
      | some node => some ((s.popHead (.list w) node).pushHead (.free w) node)
    | _ => none
  | .free w buf =>
    if s.pcs w = .idle ∧ s.holder buf = some w then
      if buf.1 = w then some ((s.pushHead (.free w) buf).setHolder buf none)
      else some (s.setPc w (.push false buf (s.head (.inbox buf.1 w))))
    else none
  | .storeNext w =>
    match s.pcs w with
    | .push false buf old =>
      some ({ s with next := Function.update s.next buf old }.setPc w (.push true buf old))
    | _ => none
  | .cas w =>
    match s.pcs w with
    | .push true buf old =>
      if s.head (.inbox buf.1 w) = old then
        some (({ s with head := Function.update s.head (.inbox buf.1 w) (some buf) }.setHolder
          buf none).setPc w .idle)
      else some (s.setPc w (.push false buf (s.head (.inbox buf.1 w))))
    | _ => none
  | .fill w buf v =>
    if s.pcs w = .idle ∧ s.holder buf = some w then
      some { s with next := Function.update s.next buf v }
    else none
  | .pass w v buf =>
    if s.pcs w = .idle ∧ s.holder buf = some w then some (s.setHolder buf (some v)) else none

/-- `FramePoolInit` of all workers. -/
def framePoolInit (hm : 0 < m) : State n m where
  next := fun b => (SlotPool.inOrder m b.2).map fun i => (b.1, i)
  head := fun
    | .free w => some (w, ⟨0, hm⟩)
    | _ => none

def Init (s : State n m) : Prop :=
  ∃ hm : 0 < m, s = framePoolInit hm

/-- Every buffer is handed out or in one list, once: the free list of its own worker, an inbox
of that worker, or what that worker has just taken from an inbox. -/
def Conserved (s : State n m) : Prop :=
  ∃ place : Buf n m → Option (Place n), Lists s.next s.head place ∧
    (∀ b, place b = none ↔ s.holder b ≠ none) ∧
    ∀ b p, place b = some p → p = .free b.1 ∨ p = .list b.1 ∨ ∃ src, p = .inbox b.1 src

def Undisturbed (s : State n m) : Prop :=
  ∀ l s' b w, s.holder b = some w → l.worker ≠ w → step s l = some s' →
    s'.holder b = some w ∧ s'.next b = s.next b

/-- A compare-exchange that failed has seen the inbox emptied, and does not fail again. -/
def RetriesOnce (s : State n m) : Prop :=
  ∀ w b old s', s.pcs w = .push true b old → step s (.cas w) = some s' →
    s'.pcs w = .idle ∨ old ≠ none ∧ s'.pcs w = .push false b none

/-! ### The invariant -/

structure Inv (s : State n m) (place : Buf n m → Option (Place n)) : Prop where
  lists : Lists s.next s.head place
  held : ∀ b, place b = none ↔ s.holder b ≠ none
  own : ∀ b p, place b = some p → p = .free b.1 ∨ p = .list b.1 ∨ ∃ src, p = .inbox b.1 src
  /-- A push goes on from what it loaded, or the owner has taken everything since. -/
  push : ∀ w stored b old, s.pcs w = .push stored b old → s.holder b = some w ∧
    (s.head (.inbox b.1 w) = old ∨ s.head (.inbox b.1 w) = none) ∧
    (stored = true → s.next b = old)
  taken : ∀ w, s.head (.list w) ≠ none → ∃ src, s.pcs w = .relink src

variable {s s' : State n m} {place : Buf n m → Option (Place n)} {w : Fin n} {b : Buf n m}

def PushOk (s : State n m) (w : Fin n) (pc : Pc n m) : Prop :=
  ∀ stored b old, pc = .push stored b old → s.holder b = some w ∧
    (s.head (.inbox b.1 w) = old ∨ s.head (.inbox b.1 w) = none) ∧
    (stored = true → s.next b = old)

theorem Inv.list_none (h : Inv s place) (hpc : ∀ src, s.pcs w ≠ .relink src) :
    s.head (.list w) = none := by
  by_contra hne
  obtain ⟨src, hsrc⟩ := h.taken w hne
  exact hpc src hsrc

theorem Inv.placed (h : Inv s place) (hb : s.holder b = some w) : place b = none := by
  rw [h.held, hb]
  exact nofun

theorem Inv.not_held (h : Inv s place) {p : Place n} (hb : place b = some p) :
    s.holder b = none := by
  by_contra hne
  rw [(h.held b).mpr hne] at hb
  cases hb

theorem Inv.setPc (h : Inv s place) {pc : Pc n m} (hlist : s.head (.list w) = none)
    (hpc : PushOk s w pc) : Inv (s.setPc w pc) place := by
  refine { h with push := fun u stored b old hu => ?_, taken := fun u hu => ?_ }
  · by_cases huw : u = w
    · subst huw
      exact hpc stored b old (by simpa [State.setPc] using hu)
    · exact h.push u stored b old (by simpa [State.setPc, huw] using hu)
  · have hne : u ≠ w := by
      rintro rfl
      exact hu hlist
    obtain ⟨src, hsrc⟩ := h.taken u hu
    exact ⟨src, by simpa [State.setPc, hne] using hsrc⟩

/-! ### Single accesses -/

theorem Inv.write (h : Inv s place) (hb : place b = none)
    (hpc : ∀ u old, s.pcs u ≠ .push true b old) (v : Option (Buf n m)) :
    Inv { s with next := Function.update s.next b v } place := by
  refine { h with lists := h.lists.write hb, push := fun u stored c old hu => ?_ }
  obtain ⟨hold, hhead, hnext⟩ := h.push u stored c old hu
  refine ⟨hold, hhead, fun hs => ?_⟩
  subst hs
  have hcb : c ≠ b := by
    rintro rfl
    exact hpc u old hu
  dsimp only
  rw [Function.update_of_ne hcb]
  exact hnext rfl

theorem Inv.takeFree (h : Inv s place) {node : Buf n m} (hf : s.head (.free w) = some node) :
    Inv ((s.popHead (.free w) node).setHolder node (some w)) (Function.update place node none) := by
  have hnone := h.not_held (h.lists.head_place hf)
  refine ⟨h.lists.pop hf, fun b => ?_, fun b p hp => ?_, fun u stored c old hu => ?_, fun u hu => ?_⟩
  · by_cases hb : b = node
    · subst hb
      simp [State.popHead, State.setHolder]
    · simpa [State.popHead, State.setHolder, hb] using h.held b
  · rw [Function.update_apply] at hp
    split at hp
    · cases hp
    · exact h.own b p hp
  · obtain ⟨hold, hhead, hnext⟩ := h.push u stored c old hu
    have hcb : c ≠ node := by
      rintro rfl
      rw [hnone] at hold
      cases hold
    refine ⟨?_, ?_, hnext⟩
    · simpa [State.popHead, State.setHolder, hcb] using hold
    · simpa [State.popHead, State.setHolder] using hhead
  · exact h.taken u (by simpa [State.popHead, State.setHolder] using hu)

theorem Inv.takeAll (h : Inv s place) {src : ℕ} (hpc : s.pcs w = .relink src) (i : Fin n)
    (hlist : s.head (.list w) = none) : Inv (s.takeAll (.inbox w i) (.list w))
      fun y => if place y = some (.inbox w i) then some (.list w) else place y := by
  refine ⟨h.lists.move nofun hlist, fun b => ?_, fun b p hp => ?_, fun u stored c old hu => ?_,
    fun u hu => ?_⟩
  · have hb := h.held b
    split
    · next hin =>
      rw [hin] at hb
      simpa [State.takeAll] using hb
    · exact hb
  · split at hp
    · next hin =>
      cases hp
      rcases h.own b _ hin with h1 | h1 | ⟨j, h1⟩
      · cases h1
      · cases h1
      · cases h1
        exact .inr (.inl rfl)
    · exact h.own b p hp
  · obtain ⟨hold, hhead, hnext⟩ := h.push u stored c old hu
    refine ⟨hold, ?_, hnext⟩
    by_cases hin : Place.inbox c.1 u = .inbox w i
    · simp [State.takeAll, hin]
    · simpa [State.takeAll, hin] using hhead
  · by_cases huw : u = w
    · exact ⟨src, huw ▸ hpc⟩
    · refine h.taken u ?_
      simpa [State.takeAll, huw] using hu

theorem Inv.relink (h : Inv s place) {src : ℕ} (hpc : s.pcs w = .relink src) {node : Buf n m}
    (hl : s.head (.list w) = some node) :
    Inv ((s.popHead (.list w) node).pushHead (.free w) node)
      (Function.update place node (some (.free w))) := by
  have hplace := h.lists.head_place hl
  have hnone := h.not_held hplace
  have hown : node.1 = w := by
    rcases h.own node _ hplace with h1 | h1 | ⟨j, h1⟩
    · cases h1
    · cases h1
      rfl
    · cases h1
  refine ⟨?_, fun b => ?_, fun b p hp => ?_, fun u stored c old hu => ?_, fun u hu => ?_⟩
  · have hpop := h.lists.pop hl
    have hput := (hpop.write (v := (s.popHead (.list w) node).head (.free w))
      (Function.update_self ..)).push (p := .free w) (Function.update_self ..)
      (Function.update_self ..)
    rwa [Function.update_idem] at hput
  · by_cases hb : b = node
    · subst hb
      simpa [State.popHead, State.pushHead] using hnone
    · simpa [State.popHead, State.pushHead, hb] using h.held b
  · rw [Function.update_apply] at hp
    split at hp
    · next hb =>
      cases hp
      rw [hb, hown]
      exact .inl rfl
    · exact h.own b p hp
  · obtain ⟨hold, hhead, hnext⟩ := h.push u stored c old hu
    have hcb : c ≠ node := by
      rintro rfl
      rw [hnone] at hold
      cases hold
    refine ⟨hold, ?_, fun hs => ?_⟩
    · simpa [State.popHead, State.pushHead] using hhead
    · simpa [State.popHead, State.pushHead, hcb] using hnext hs
  · by_cases huw : u = w
    · exact ⟨src, huw ▸ hpc⟩
    · refine h.taken u ?_
      simpa [State.popHead, State.pushHead, huw] using hu

theorem Inv.giveBack (h : Inv s place) (hb : s.holder b = some w) (hpc : s.pcs w = .idle)
    {p : Place n} (hn : s.next b = s.head p) (hp : p = .free b.1 ∨ p = .inbox b.1 w) :
    Inv ({ s with head := Function.update s.head p (some b) }.setHolder b none)
      (Function.update place b (some p)) := by
  have hplace := h.placed hb
  refine ⟨h.lists.push hplace hn, fun c => ?_, fun c q hq => ?_, fun u stored c old hu => ?_,
    fun u hu => ?_⟩
  · by_cases hc : c = b
    · subst hc
      simp [State.setHolder]
    · simpa [State.setHolder, hc] using h.held c
  · rw [Function.update_apply] at hq
    split at hq
    · next hc =>
      cases hq
      rw [hc]
      exact hp.imp_right fun hi => .inr ⟨w, hi⟩
    · exact h.own c q hq
  · obtain ⟨hold, hhead, hnext⟩ := h.push u stored c old hu
    have huw : u ≠ w := by
      rintro rfl
      cases hpc.symm.trans hu
    have hcb : c ≠ b := by
      rintro rfl
      exact huw (Option.some.inj (hold.symm.trans hb))
    have hne : Place.inbox c.1 u ≠ p := by
      rcases hp with rfl | rfl <;> simp [huw]
    refine ⟨?_, ?_, hnext⟩
    · simpa [State.setHolder, hcb] using hold
    · simpa [State.setHolder, hne] using hhead
  · refine h.taken u ?_
    have hne : Place.list u ≠ p := by
      rcases hp with rfl | rfl <;> exact nofun
    simpa [State.setHolder, hne] using hu

theorem Inv.pass (h : Inv s place) (hb : s.holder b = some w) (hpc : s.pcs w = .idle)
    (v : Fin n) : Inv (s.setHolder b (some v)) place := by
  refine { h with held := fun c => ?_, push := fun u stored c old hu => ?_ }
  · by_cases hc : c = b
    · subst hc
      simpa [State.setHolder] using h.placed hb
    · simpa [State.setHolder, hc] using h.held c
  · obtain ⟨hold, hhead, hnext⟩ := h.push u stored c old hu
    have hcb : c ≠ b := by
      rintro rfl
      obtain rfl := Option.some.inj (hold.symm.trans hb)
      cases hpc.symm.trans hu
    exact ⟨by simpa [State.setHolder, hcb] using hold, hhead, hnext⟩

/-! ### Steps and runs -/

theorem takeFree_inv (h : Inv s place) (hlist : s.head (.list w) = none) :
    ∃ place', Inv (takeFree s w) place' := by
  unfold takeFree
  split
  · exact ⟨place, h.setPc hlist (by simp [PushOk])⟩
  · next node hf => exact ⟨_, (h.setPc hlist (by simp [PushOk])).takeFree hf⟩

theorem step_inv (h : Inv s place) {l : Label n m} (hs : step s l = some s') :
    ∃ place', Inv s' place' := by
  cases l with
  | alloc w =>
    simp only [step] at hs
    split at hs
    · next hidle =>
      have hlist := h.list_none (w := w) (by rw [hidle]; exact nofun)
      split at hs
      · cases hs
        exact ⟨place, h.setPc hlist (by simp [PushOk])⟩
      · cases hs
        exact takeFree_inv h hlist
    · cases hs
  | exchange w =>
    simp only [step] at hs
    split at hs
    · next src hdrain =>
      have hlist := h.list_none (w := w) (by rw [hdrain]; exact nofun)
      split at hs
      · next hsrc =>
        cases hs
        have hrelink : Inv (s.setPc w (.relink src)) place := h.setPc hlist (by simp [PushOk])
        exact ⟨_, hrelink.takeAll (Function.update_self ..) ⟨src, hsrc⟩ hlist⟩
      · cases hs
        exact takeFree_inv h hlist
    · cases hs
  | relink w =>
    simp only [step] at hs
    split at hs
    · next src hrelink =>
      split at hs
      · next hlist =>
        cases hs
        exact ⟨place, h.setPc hlist (by simp [PushOk])⟩
      · next node hl =>
        cases hs
        exact ⟨_, h.relink hrelink hl⟩
    · cases hs
  | free w b =>
    simp only [step, Option.ite_none_right_eq_some] at hs
    obtain ⟨⟨hidle, hb⟩, hs⟩ := hs
    split at hs
    · next hown =>
      cases hs
      subst hown
      have hno : ∀ u old, s.pcs u ≠ .push true b old := by
        intro u old hu
        obtain rfl := Option.some.inj ((h.push u true b old hu).1.symm.trans hb)
        rw [hidle] at hu
        cases hu
      exact ⟨_, (h.write (h.placed hb) hno (s.head (.free b.1))).giveBack (p := .free b.1) hb hidle
        (Function.update_self ..) (.inl rfl)⟩
    · cases hs
      refine ⟨place, h.setPc (h.list_none (by rw [hidle]; exact nofun)) ?_⟩
      rintro stored c old heq
      cases heq
      exact ⟨hb, .inl rfl, nofun⟩
  | storeNext w =>
    simp only [step] at hs
    split at hs
    · next b old hpush =>
      cases hs
      obtain ⟨hold, hhead, -⟩ := h.push w false b old hpush
      have hno : ∀ u old, s.pcs u ≠ .push true b old := by
        intro u old' hu
        obtain rfl := Option.some.inj ((h.push u true b old' hu).1.symm.trans hold)
        rw [hpush] at hu
        cases hu
      refine ⟨place, (h.write (h.placed hold) hno old).setPc
        (h.list_none (by rw [hpush]; exact nofun)) ?_⟩
      rintro stored c old' heq
      cases heq
      exact ⟨hold, hhead, fun _ => Function.update_self ..⟩
    · cases hs
  | cas w =>
    simp only [step] at hs
    split at hs
    · next b old hpush =>
      obtain ⟨hold, -, hnext⟩ := h.push w true b old hpush
      have hlist := h.list_none (w := w) (by rw [hpush]; exact nofun)
      split at hs
      · next heq =>
        cases hs
        have hidle : PushOk s w .idle := by simp [PushOk]
        exact ⟨_, (h.setPc hlist hidle).giveBack (p := .inbox b.1 w) hold
          (by simp [State.setPc]) ((hnext rfl).trans heq.symm) (.inr rfl)⟩
      · cases hs
        refine ⟨place, h.setPc hlist ?_⟩
        rintro stored c old' heq
        cases heq
        exact ⟨hold, .inl rfl, nofun⟩
    · cases hs
  | fill w b v =>
    simp only [step, Option.ite_none_right_eq_some, Option.some.injEq] at hs
    obtain ⟨⟨hidle, hb⟩, rfl⟩ := hs
    refine ⟨place, h.write (h.placed hb) (fun u old hu => ?_) v⟩
    obtain rfl := Option.some.inj ((h.push u true b old hu).1.symm.trans hb)
    rw [hidle] at hu
    cases hu
  | pass w v b =>
    simp only [step, Option.ite_none_right_eq_some, Option.some.injEq] at hs
    obtain ⟨⟨hidle, hb⟩, rfl⟩ := hs
    exact ⟨place, h.pass hb hidle v⟩

theorem init_inv (h : Init s) : ∃ place, Inv s place := by
  obtain ⟨hm, rfl⟩ := h
  refine ⟨fun b => some (.free b.1), fun p => ?_, fun b => ?_, fun b p hp => ?_, nofun, ?_⟩
  · cases p with
    | free w =>
      refine ⟨(List.finRange m).map fun i => (w, i), ?_, ?_, fun b => ?_⟩
      · have hall := SlotPool.chain_inOrder (Nat.zero_le m)
        rw [dif_pos hm] at hall
        exact LinkedLists.chain_map (f := fun i => (w, i)) (fun i => rfl) hall
      · exact (List.nodup_finRange m).map fun i j hij => congrArg Prod.snd hij
      · obtain ⟨v, i⟩ := b
        simp [eq_comm]
    | inbox ow src => exact ⟨[], rfl, List.nodup_nil, fun b => by simp⟩
    | list w => exact ⟨[], rfl, List.nodup_nil, fun b => by simp⟩
  · simp [framePoolInit]
  · cases hp
    exact .inl rfl
  · simp [framePoolInit]

theorem Inv.conserved (h : Inv s place) : Conserved s :=
  ⟨place, h.lists, h.held, h.own⟩

theorem Inv.retriesOnce (h : Inv s place) : RetriesOnce s := by
  intro w b old s' hpush hs
  obtain ⟨-, hhead, -⟩ := h.push w true b old hpush
  simp only [step, hpush] at hs
  split at hs
  · cases hs
    simp [State.setPc]
  · next hne =>
    have hnone : s.head (.inbox b.1 w) = none := hhead.resolve_left hne
    cases hs
    refine .inr ⟨fun hold => hne (hnone.trans hold.symm), ?_⟩
    simp [State.setPc, hnone]

theorem takeFree_undisturbed (h : Inv s place) {v : Fin n} (hb : s.holder b = some w) :
    (takeFree s v).holder b = some w ∧ (takeFree s v).next b = s.next b := by
  unfold takeFree
  split
  · exact ⟨hb, rfl⟩
  · next node hf =>
    have hbn : b ≠ node := by
      rintro rfl
      cases (h.not_held (h.lists.head_place hf)).symm.trans hb
    simp [State.setPc, State.setHolder, State.popHead, hbn, hb]

theorem Inv.undisturbed (h : Inv s place) : Undisturbed s := by
  intro l s' b w hb hlw hs
  -- a buffer that the step gives back is in the hands of the worker that takes the step
  have hother : ∀ c, s.holder c = some l.worker → b ≠ c := by
    rintro c hc rfl
    exact hlw (Option.some.inj (hc.symm.trans hb))
  cases l with
  | alloc v =>
    simp only [step] at hs
    split_ifs at hs
    · cases hs
      exact ⟨hb, rfl⟩
    · cases hs
      exact takeFree_undisturbed h hb
  | exchange v =>
    simp only [step] at hs
    split at hs
    · split_ifs at hs
      · cases hs
        exact ⟨hb, rfl⟩
      · cases hs
        exact takeFree_undisturbed h hb
    · cases hs
  | relink v =>
    simp only [step] at hs
    split at hs
    · split at hs
      · cases hs
        exact ⟨hb, rfl⟩
      · next node hl =>
        have hbn : b ≠ node := by
          rintro rfl
          cases (h.not_held (h.lists.head_place hl)).symm.trans hb
        cases hs
        simp [State.pushHead, State.popHead, hbn, hb]
    · cases hs
  | free v c =>
    simp only [step, Option.ite_none_right_eq_some] at hs
    obtain ⟨⟨-, hc⟩, hs⟩ := hs
    have hbc := hother c hc
    split_ifs at hs
    · cases hs
      simp [State.pushHead, State.setHolder, hbc, hb]
    · cases hs
      exact ⟨hb, rfl⟩
  | storeNext v =>
    simp only [step] at hs
    split at hs
    · next c old hpush =>
      have hbc := hother c (h.push v false c old hpush).1
      cases hs
      simp [State.setPc, hbc, hb]
    · cases hs
  | cas v =>
    simp only [step] at hs
    split at hs
    · next c old hpush =>
      have hbc := hother c (h.push v true c old hpush).1
      split_ifs at hs
      · cases hs
        simp [State.setPc, State.setHolder, hbc, hb]
      · cases hs
        exact ⟨hb, rfl⟩
    · cases hs
  | fill v c x =>
    simp only [step, Option.ite_none_right_eq_some, Option.some.injEq] at hs
    obtain ⟨⟨-, hc⟩, rfl⟩ := hs
    have hbc := hother c hc
    simp [hbc, hb]
  | pass v u c =>
    simp only [step, Option.ite_none_right_eq_some, Option.some.injEq] at hs
    obtain ⟨⟨-, hc⟩, rfl⟩ := hs
    have hbc := hother c hc
    simp [State.setHolder, hbc, hb]

/-- No buffer is lost or handed out twice, and a frame stays as its worker has written it. -/
theorem buffers_conserved (h : Runs.Reach Init step Runs.Any s) :
    Conserved s ∧ Undisturbed s ∧ RetriesOnce s := by
  obtain ⟨place, hinv⟩ : ∃ place, Inv s place :=
    h.invariant (fun _ => init_inv) fun _ _ _ hp _ hs => hp.elim fun _ hi => step_inv hi hs
  exact ⟨hinv.conserved, hinv.undisturbed, hinv.retriesOnce⟩

/-- Worker 0 gives both its buffers to worker 1, which frees them. The second push comes while the
first buffer is in the inbox, and worker 0 empties it before the compare-exchange. -/
def crossed : List (Label 2 2) :=
  [.alloc 0, .alloc 0, .fill 0 (0, 0) (some (1, 1)), .pass 0 1 (0, 0), .pass 0 1 (0, 1),
    .free 1 (0, 0), .storeNext 1, .cas 1, .free 1 (0, 1), .storeNext 1,
    .alloc 0, .exchange 0, .relink 0, .exchange 0, .cas 1]

theorem crossed_conserved : ∃ s, Runs.run step (framePoolInit (by decide)) crossed = some s ∧
    s.pcs 1 = .push false (0, 1) none ∧ Conserved s ∧ Undisturbed s ∧ RetriesOnce s := by
  have hreach : ∀ s, Runs.run step (framePoolInit (by decide)) crossed = some s →
      Runs.Reach Init step Runs.Any s := fun s => Runs.reach_of_run ⟨by decide, rfl⟩
  exact ⟨_, rfl, by decide, buffers_conserved (hreach _ rfl)⟩

end HyperDerp.FrameReturns
