import HyperDerp.Lib.Runs
import Mathlib.Data.Nat.Find
import Mathlib.Logic.Function.Basic

/-!
# SDK tunnels (`client.cc`, `tunnel.cc`)

The map from peer ids to the `Tunnel::Impl` that gets a peer's data, the `Tunnel` objects that
own them, and what opens, moves, closes and frames do to both. An `Impl` is its number; numbers
are handed out in the order of the opens and none is used again.
-/

namespace HyperDerp.Tunnels

inductive Mode where
  | pending
  | direct
  | relayed
  | closed
  deriving DecidableEq

/-- `Tunnel::Impl`; `onData` says that a data callback is set. -/
structure Impl where
  peerId : ℕ
  mode : Mode := .pending
  onData : Bool := false

/-- A `Tunnel` object: a moved-from one owns nothing. A `pending` one is the local variable of an
`Open` call that has not returned. -/
structure Tunnel where
  impl : Option ℕ
  pending : Bool := false

structure State where
  impls : ℕ → Option Impl := fun _ => none
  fresh : ℕ := 0
  tunnels : ℕ → Option ℕ := fun _ => none
  objs : ℕ → Option Tunnel := fun _ => none
  /-- calls of data callbacks: the peer and the `Impl` -/
  delivered : List (ℕ × ℕ) := []

inductive Label where
  /-- `Open` up to the request: the local variable `o` and the peer found by its name -/
  | openStart (o peer : ℕ)
  /-- the result arrives and the tunnel is moved out to `h` -/
  | openSucceed (o h : ℕ) (direct : Bool)
  /-- denied or timed out -/
  | openFail (o : ℕ)
  | moveConstruct (src dst : ℕ)
  | moveAssign (src dst : ℕ)
  | destroy (o : ℕ)
  | close (o : ℕ)
  | setDataCallback (o : ℕ)
  /-- a PeerGone frame for the peer with this id, 0 when the key is not known -/
  | peerGone (goneId : ℕ)
  | meshData (src : ℕ)
  /-- `RecvLoop` after a successful reconnect -/
  | reconnected
  | stop

namespace State

def updImpl (s : State) (i : ℕ) (f : Impl → Impl) : State :=
  { s with impls := Function.update s.impls i ((s.impls i).map f) }

/-- `delete impl_` -/
def delete (s : State) (i : Option ℕ) : State :=
  match i with
  | none => s
  | some i => { s with impls := Function.update s.impls i none }

def setObj (s : State) (o : ℕ) (t : Option Tunnel) : State :=
  { s with objs := Function.update s.objs o t }

/-- The loop over the map. An `Impl` is registered under its own peer id only. -/
def updListed (s : State) (f : Impl → Impl) : State :=
  { s with impls := fun i => (s.impls i).map fun t =>
      if s.tunnels t.peerId = some i then f t else t }

/-- The `Impl` that `DispatchFrame` hands data of a peer to. -/
def target (s : State) (src : ℕ) : Option ℕ :=
  (s.tunnels src).filter fun i => (s.impls i).any fun t => t.mode ≠ .closed

end State

def step (s : State) : Label → Option State
  | .openStart o peer =>
    match s.objs o with
    | some _ => none
    | none =>
      if peer = 0 then none
      else some { s with
        impls := Function.update s.impls s.fresh (some { peerId := peer })
        fresh := s.fresh + 1
        tunnels := Function.update s.tunnels peer (some s.fresh)
        objs := Function.update s.objs o (some { impl := some s.fresh, pending := true }) }
  | .openSucceed o h direct =>
    match s.objs o, s.objs h with
    | some ⟨some i, true⟩, none =>
      some (((s.updImpl i fun t => { t with mode := if direct then .direct else .relayed }).setObj o
        none).setObj h (some { impl := some i }))
    | _, _ => none
  | .openFail o =>
    match s.objs o with
    | some ⟨some i, true⟩ => some ((s.delete (some i)).setObj o none)
    | _ => none
  | .moveConstruct src dst =>
    match s.objs src, s.objs dst with
    | some ⟨i, false⟩, none => some ((s.setObj src (some { impl := none })).setObj dst (some ⟨i, false⟩))
    | _, _ => none
  | .moveAssign src dst =>
    match s.objs src, s.objs dst with
    | some ⟨i, false⟩, some ⟨old, false⟩ =>
      if src = dst then some s
      else some (((s.delete old).setObj src (some { impl := none })).setObj dst (some ⟨i, false⟩))
    | _, _ => none
  | .destroy o =>
    match s.objs o with
    | some ⟨i, false⟩ => some ((s.delete i).setObj o none)
    | _ => none
  | .close o =>
    match s.objs o with
    | some ⟨some i, false⟩ =>
      some (s.updImpl i fun t => { t with mode := .closed, onData := false })
    | some ⟨none, false⟩ => some s
    | _ => none
  | .setDataCallback o =>
    match s.objs o with
    | some ⟨some i, false⟩ => some (s.updImpl i fun t => { t with onData := true })
    | some ⟨none, false⟩ => some s
    | _ => none
  | .peerGone goneId =>
    match s.tunnels goneId with
    | some i => some (s.updImpl i fun t => { t with mode := .closed })
    | none => some s
  | .meshData src =>
    match s.target src with
    | some i =>
      if (s.impls i).any (·.onData) then some { s with delivered := s.delivered ++ [(src, i)] }
      else some s
    | none => some s
  | .reconnected => some (s.updListed fun t => { t with mode := .relayed })
  | .stop =>
    some { s.updListed fun t => { t with mode := .closed } with tunnels := fun _ => none }

def Init (s : State) : Prop := s = {}

namespace State

variable {s : State} {o i j : ℕ} {t : Option Tunnel} {f : Impl → Impl}

@[simp] theorem setObj_self : (s.setObj o t).objs o = t := Function.update_self ..

theorem setObj_ne (h : i ≠ o) : (s.setObj o t).objs i = s.objs i := Function.update_of_ne h ..

@[simp] theorem updImpl_self : (s.updImpl i f).impls i = (s.impls i).map f :=
  Function.update_self ..

theorem updImpl_ne (h : j ≠ i) : (s.updImpl i f).impls j = s.impls j := Function.update_of_ne h ..

@[simp] theorem delete_self : (s.delete (some i)).impls i = none := Function.update_self ..

theorem delete_ne (h : j ≠ i) : (s.delete (some i)).impls j = s.impls j :=
  Function.update_of_ne h ..

@[simp] theorem objs_delete (i : Option ℕ) : (s.delete i).objs = s.objs := by
  cases i <;> rfl

end State

/-! ### Open tunnels -/

/-- A `Tunnel` that `Open` returned owns the `Impl`. -/
def State.Held (s : State) (i : ℕ) : Prop := ∃ o, s.objs o = some ⟨some i, false⟩

/-- A tunnel to the peer that was opened and is still open. -/
structure State.Open (s : State) (peer i : ℕ) : Prop where
  alive : ∃ t, s.impls i = some t ∧ t.peerId = peer ∧ t.mode ≠ .closed
  held : s.Held i

/-- The most recently opened of the open tunnels to the peer. -/
structure State.Latest (s : State) (peer i : ℕ) : Prop where
  opened : s.Open peer i
  last : ∀ j, s.Open peer j → j ≤ i

/-- The map refers to live tunnels, and to the latest open one where there is one. -/
structure Sound (s : State) : Prop where
  live : ∀ peer i, s.tunnels peer = some i → (s.impls i).isSome
  latest : ∀ peer i, s.Latest peer i → s.tunnels peer = some i

def StepOk (s : State) : Label → Prop
  | .openStart _ peer => ∀ i, ¬ s.Open peer i
  | .openSucceed o _ _ => ∀ i t, s.objs o = some ⟨some i, true⟩ → s.impls i = some t →
      s.tunnels t.peerId = some i ∨ ∃ j, i < j ∧ s.Open t.peerId j
  | .openFail o => ∀ i, s.objs o = some ⟨some i, true⟩ → ∀ peer, s.tunnels peer ≠ some i
  | .destroy o => ∀ i, s.objs o = some ⟨some i, false⟩ → ∀ peer, s.tunnels peer ≠ some i
  | .moveAssign src dst => src ≠ dst →
      ∀ i, s.objs dst = some ⟨some i, false⟩ → ∀ peer, s.tunnels peer ≠ some i
  | .close o => ∀ i, s.objs o = some ⟨some i, false⟩ →
      ∀ peer j, s.tunnels peer = some i → s.Open peer i → s.Open peer j → j = i
  | .peerGone goneId => ∀ i, s.tunnels goneId = some i →
      ∀ j, s.Open goneId i → s.Open goneId j → j = i
  | .stop => ∀ peer i j, s.Open peer i → s.Open peer j → i = j
  | _ => True

structure Inv (s : State) : Prop where
  owner : ∀ o o' i b b', s.objs o = some ⟨some i, b⟩ → s.objs o' = some ⟨some i, b'⟩ → o = o'
  owned : ∀ o i b, s.objs o = some ⟨some i, b⟩ → (s.impls i).isSome
  lt_fresh : ∀ i, (s.impls i).isSome → i < s.fresh
  listed : ∀ p i, s.tunnels p = some i → i < s.fresh
  peer : ∀ p i t, s.tunnels p = some i → s.impls i = some t → t.peerId = p

variable {s s' : State} {l : Label}

variable {f : Impl → Impl} {o i o' src peer : ℕ} {t : Option Tunnel}

theorem Inv.updImpl (h : Inv s) (i : ℕ) (hf : ∀ t, (f t).peerId = t.peerId) :
    Inv (s.updImpl i f) where
  owner := h.owner
  owned o j b ho := by
    have hj := h.owned o j b ho
    unfold State.updImpl
    grind
  lt_fresh j hj := by
    apply h.lt_fresh j
    unfold State.updImpl at hj
    grind
  listed := h.listed
  peer p j t hp hj := by
    unfold State.updImpl at hp hj
    dsimp only at hp hj
    by_cases hij : j = i
    · rw [hij, Function.update_self, Option.map_eq_some_iff] at hj
      obtain ⟨t', ht', rfl⟩ := hj
      rw [hf]
      exact h.peer p i t' (hij ▸ hp) ht'
    · rw [Function.update_of_ne hij] at hj
      exact h.peer p j t hp hj

theorem Inv.updListed (h : Inv s) (hf : ∀ t, (f t).peerId = t.peerId) :
    Inv (s.updListed f) where
  owner := h.owner
  owned o j b ho := by
    have hj := h.owned o j b ho
    unfold State.updListed
    rw [Option.isSome_map]
    exact hj
  lt_fresh j hj := by
    unfold State.updListed at hj
    rw [Option.isSome_map] at hj
    exact h.lt_fresh j hj
  listed := h.listed
  peer p j t hp hj := by
    unfold State.updListed at hj
    rw [Option.map_eq_some_iff] at hj
    obtain ⟨t', ht', heq⟩ := hj
    have hpeer := h.peer p j t' hp ht'
    rw [← heq]
    split
    · rw [hf, hpeer]
    · exact hpeer

theorem Inv.setObj_none (h : Inv s) {i : Option ℕ} {b : Bool} (ho : s.objs o = some ⟨i, b⟩)
    (t : Option Tunnel) (ht : ∀ k b, t ≠ some ⟨some k, b⟩) : Inv ((s.delete i).setObj o t) := by
  obtain ⟨howner, howned, hlt, hlisted, hpeer⟩ := h
  cases i with
  | none => constructor <;> simp only [State.delete, State.setObj] <;> grind
  | some i => constructor <;> simp only [State.delete, State.setObj] <;> grind

theorem Inv.move (h : Inv s) {i : Option ℕ} {b b' : Bool} (ho : s.objs o = some ⟨i, b⟩)
    (ht : ∀ k b, t ≠ some ⟨some k, b⟩) :
    Inv ((s.setObj o t).setObj o' (some ⟨i, b'⟩)) := by
  obtain ⟨howner, howned, hlt, hlisted, hpeer⟩ := h
  constructor <;> simp only [State.setObj] <;> grind

theorem assign_eq {dst : ℕ} (hne : src ≠ dst) (s : State) (i old : Option ℕ) :
    ((s.delete old).setObj src (some { impl := none })).setObj dst (some ⟨i, false⟩) =
      (((s.delete old).setObj dst (some { impl := none })).setObj src
        (some { impl := none })).setObj dst (some ⟨i, false⟩) := by
  simp only [State.setObj, Function.update_comm hne, Function.update_idem]

theorem step_inv (h : Inv s) (hs : step s l = some s') : Inv s' := by
  cases l with
  | openStart o peer =>
    simp only [step] at hs
    split at hs
    · cases hs
    split at hs
    · cases hs
    cases hs
    obtain ⟨howner, howned, hlt, hlisted, hpeer⟩ := h
    constructor <;> dsimp only <;> grind
  | openSucceed o h' direct =>
    simp only [step] at hs
    split at hs
    · next i ho hh =>
      cases hs
      exact (h.updImpl i (f := fun t => { t with mode := if direct then .direct else .relayed })
        fun _ => rfl).move ho (by simp)
    · cases hs
  | openFail o =>
    simp only [step] at hs
    split at hs
    · next i ho =>
      cases hs
      exact h.setObj_none ho none nofun
    · cases hs
  | moveConstruct src dst =>
    simp only [step] at hs
    split at hs
    · next i hsrc hdst =>
      cases hs
      exact h.move hsrc (by simp)
    · cases hs
  | moveAssign src dst =>
    simp only [step] at hs
    split at hs
    · next i old hsrc hdst =>
      split at hs
      · cases hs
        exact h
      · next hne =>
        cases hs
        have hgone := h.setObj_none hdst (some { impl := none }) (by simp)
        rw [assign_eq hne]
        apply hgone.move _ (by simp)
        · exact false
        · rw [State.setObj_ne hne, State.objs_delete]
          exact hsrc
    · cases hs
  | destroy o =>
    simp only [step] at hs
    split at hs
    · next i ho =>
      cases hs
      exact h.setObj_none ho none nofun
    · cases hs
  | close o =>
    simp only [step] at hs
    split at hs
    · cases hs
      exact h.updImpl _ fun _ => rfl
    · cases hs
      exact h
    · cases hs
  | setDataCallback o =>
    simp only [step] at hs
    split at hs
    · cases hs
      exact h.updImpl _ fun _ => rfl
    · cases hs
      exact h
    · cases hs
  | peerGone goneId =>
    simp only [step] at hs
    split at hs
    · cases hs
      exact h.updImpl _ fun _ => rfl
    · cases hs
      exact h
  | meshData src =>
    simp only [step] at hs
    split at hs
    · split at hs
      · cases hs
        exact ⟨h.owner, h.owned, h.lt_fresh, h.listed, h.peer⟩
      · cases hs
        exact h
    · cases hs
      exact h
  | reconnected =>
    cases hs
    exact h.updListed fun _ => rfl
  | stop =>
    cases hs
    obtain ⟨howner, howned, hlt, -, -⟩ :=
      h.updListed (f := fun t => { t with mode := .closed }) fun _ => rfl
    exact ⟨howner, howned, hlt, nofun, nofun⟩

/-! ### What a step does to the open tunnels -/

theorem State.Open.lt (hinv : Inv s) (h : s.Open peer i) : i < s.fresh := by
  obtain ⟨t, ht, -⟩ := h.alive
  exact hinv.lt_fresh i (by rw [ht]; rfl)

open Classical in
theorem exists_latest (hinv : Inv s) (h : s.Open peer i) : ∃ j, s.Latest peer j :=
  ⟨Nat.findGreatest (s.Open peer) s.fresh, Nat.findGreatest_spec (Nat.le_of_lt (h.lt hinv)) h,
    fun _ hj => Nat.le_findGreatest (Nat.le_of_lt (hj.lt hinv)) hj⟩

theorem Sound.same (h : Sound s) (htun : s'.tunnels = s.tunnels)
    (hlive : ∀ j, (s.impls j).isSome → (s'.impls j).isSome)
    (hopen : ∀ p j, s'.Open p j ↔ s.Open p j) : Sound s' where
  live p j hj := hlive j (h.live p j (htun ▸ hj))
  latest p j hj := by
    rw [htun]
    exact h.latest p j ⟨(hopen p j).mp hj.opened, fun k hk => hj.last k ((hopen p k).mpr hk)⟩

theorem sound_minus_iff (h : Sound s) (hinv' : Inv s') (htun : s'.tunnels = s.tunnels)
    (hlive : ∀ p j, s.tunnels p = some j → (s'.impls j).isSome)
    (hopen : ∀ p j, s'.Open p j ↔ s.Open p j ∧ j ≠ i) :
    Sound s' ↔ ∀ p j, s.tunnels p = some i → s.Open p i → s.Open p j → j = i := by
  constructor
  · intro h' p j hp _ hj
    by_contra hne
    obtain ⟨k, hk⟩ := exists_latest hinv' ((hopen p j).mpr ⟨hj, hne⟩)
    have hpk := h'.latest p k hk
    rw [htun, hp] at hpk
    exact ((hopen p k).mp hk.opened).2 (Option.some.inj hpk).symm
  · intro honly
    refine ⟨fun p j hj => hlive p j (htun ▸ hj), fun p j hj => ?_⟩
    obtain ⟨hjo, hji⟩ := (hopen p j).mp hj.opened
    rw [htun]
    by_cases hi : s.Open p i ∧ j < i
    · have hlatest : s.Latest p i := by
        refine ⟨hi.1, fun k hk => ?_⟩
        by_cases hki : k = i
        · exact Nat.le_of_eq hki
        · have hkj := hj.last k ((hopen p k).mpr ⟨hk, hki⟩)
          omega
      exact (hji (honly p j (h.latest p i hlatest) hi.1 hjo)).elim
    · apply h.latest p j
      refine ⟨hjo, fun k hk => ?_⟩
      by_cases hki : k = i
      · by_contra hlt
        exact hi ⟨hki ▸ hk, by omega⟩
      · exact hj.last k ((hopen p k).mpr ⟨hk, hki⟩)

theorem open_iff : s.Open peer i ↔
    (∃ t, s.impls i = some t ∧ t.peerId = peer ∧ t.mode ≠ .closed) ∧
      ∃ o, s.objs o = some ⟨some i, false⟩ :=
  ⟨fun h => ⟨h.alive, h.held⟩, fun h => ⟨h.1, h.2⟩⟩

theorem held_setObj (ho : s.objs o ≠ some ⟨some i, false⟩) (ht : t ≠ some ⟨some i, false⟩) :
    (s.setObj o t).Held i ↔ s.Held i := by
  constructor
  · rintro ⟨o', h⟩
    refine ⟨o', ?_⟩
    by_cases heq : o' = o
    · rw [heq, State.setObj_self] at h
      exact (ht h).elim
    · rw [State.setObj_ne heq] at h
      exact h
  · rintro ⟨o', h⟩
    refine ⟨o', ?_⟩
    have heq : o' ≠ o := fun heq => ho (heq ▸ h)
    rw [State.setObj_ne heq]
    exact h

theorem held_new (j : ℕ) (ho : ∀ k, s.objs o ≠ some ⟨some k, false⟩) :
    (s.setObj o (some ⟨some i, false⟩)).Held j ↔ s.Held j ∨ j = i := by
  by_cases hji : j = i
  · refine iff_of_true ⟨o, ?_⟩ (.inr hji)
    rw [State.setObj_self, hji]
  · rw [held_setObj (ho j) (by simpa using Ne.symm hji), or_iff_left hji]

theorem open_delete {b : Bool} (ho : s.objs o = some ⟨some i, b⟩)
    (ht : ∀ k, t ≠ some ⟨some k, false⟩) (p j : ℕ) :
    ((s.delete (some i)).setObj o t).Open p j ↔ s.Open p j ∧ j ≠ i := by
  by_cases hji : j = i
  · rw [hji]
    refine iff_of_false ?_ fun h => h.2 rfl
    rintro ⟨⟨x, hx, -⟩, -⟩
    rw [show ((s.delete (some i)).setObj o t).impls i = none from State.delete_self] at hx
    cases hx
  · have hheld : ((s.delete (some i)).setObj o t).Held j ↔ s.Held j :=
      held_setObj (by simpa [ho] using fun h => (hji h.symm).elim) (ht j)
    have himpl : ((s.delete (some i)).setObj o t).impls j = s.impls j :=
      State.delete_ne hji
    rw [and_iff_left hji]
    exact ⟨fun h => ⟨himpl ▸ h.alive, hheld.mp h.held⟩,
      fun h => ⟨himpl.symm ▸ h.alive, hheld.mpr h.held⟩⟩

theorem open_close (hf : ∀ t, (f t).mode = .closed) (p j : ℕ) :
    (s.updImpl i f).Open p j ↔ s.Open p j ∧ j ≠ i := by
  by_cases hji : j = i
  · rw [hji]
    refine iff_of_false ?_ fun h => h.2 rfl
    rintro ⟨⟨x, hx, -, hmode⟩, -⟩
    rw [State.updImpl_self, Option.map_eq_some_iff] at hx
    obtain ⟨t, -, rfl⟩ := hx
    exact hmode (hf t)
  · have himpl : (s.updImpl i f).impls j = s.impls j := State.updImpl_ne hji
    rw [and_iff_left hji]
    exact ⟨fun h => ⟨himpl ▸ h.alive, h.held⟩, fun h => ⟨himpl.symm ▸ h.alive, h.held⟩⟩

theorem open_updImpl (hp : ∀ t, (f t).peerId = t.peerId)
    (hm : ∀ t, (f t).mode ≠ .closed ↔ t.mode ≠ .closed) (p j : ℕ) :
    (s.updImpl i f).Open p j ↔ s.Open p j := by
  by_cases hji : j = i
  · rw [hji, open_iff, open_iff]
    apply and_congr_left'
    simp only [State.updImpl_self, Option.map_eq_some_iff]
    constructor
    · rintro ⟨x, ⟨t, ht, rfl⟩, hpeer, hmode⟩
      exact ⟨t, ht, (hp t).symm.trans hpeer, (hm t).mp hmode⟩
    · rintro ⟨t, ht, hpeer, hmode⟩
      exact ⟨f t, ⟨t, ht, rfl⟩, (hp t).trans hpeer, (hm t).mpr hmode⟩
  · have himpl : (s.updImpl i f).impls j = s.impls j := State.updImpl_ne hji
    exact ⟨fun h => ⟨himpl ▸ h.alive, h.held⟩, fun h => ⟨himpl.symm ▸ h.alive, h.held⟩⟩

theorem held_move {i : Option ℕ} (ho : s.objs o = some ⟨i, false⟩)
    (ho' : ∀ k, s.objs o' ≠ some ⟨some k, false⟩) (j : ℕ) :
    ((s.setObj o (some ⟨none, false⟩)).setObj o' (some ⟨i, false⟩)).Held j ↔ s.Held j := by
  by_cases hij : i = some j
  · exact iff_of_true ⟨o', by rw [State.setObj_self, hij]⟩ ⟨o, by rw [ho, hij]⟩
  · have hkeep : (s.setObj o (some ⟨none, false⟩)).Held j ↔ s.Held j := by
      apply held_setObj
      · simpa [ho] using hij
      · simp
    rw [← hkeep]
    apply held_setObj
    · by_cases heq : o' = o
      · rw [heq, State.setObj_self]
        simp
      · rw [State.setObj_ne heq]
        exact ho' j
    · simpa using hij

theorem open_setObj (ho : ∀ k, s.objs o ≠ some ⟨some k, false⟩) (ht : ∀ k, t ≠ some ⟨some k, false⟩)
    (p j : ℕ) : (s.setObj o t).Open p j ↔ s.Open p j :=
  ⟨fun h => ⟨h.alive, (held_setObj (ho j) (ht j)).mp h.held⟩,
    fun h => ⟨h.alive, (held_setObj (ho j) (ht j)).mpr h.held⟩⟩

theorem open_move {i : Option ℕ} (ho : s.objs o = some ⟨i, false⟩)
    (ho' : ∀ k, s.objs o' ≠ some ⟨some k, false⟩) (p j : ℕ) :
    ((s.setObj o (some ⟨none, false⟩)).setObj o' (some ⟨i, false⟩)).Open p j ↔ s.Open p j :=
  ⟨fun h => ⟨h.alive, (held_move ho ho' j).mp h.held⟩,
    fun h => ⟨h.alive, (held_move ho ho' j).mpr h.held⟩⟩

/-! ### What a step needs, exactly -/

theorem sound_delete_iff (h : Sound s) (hinv' : Inv s') (htun : s'.tunnels = s.tunnels)
    (hself : s'.impls i = none) (hne : ∀ j, j ≠ i → s'.impls j = s.impls j)
    (hopen : ∀ p j, s'.Open p j ↔ s.Open p j ∧ j ≠ i) :
    Sound s' ↔ ∀ p, s.tunnels p ≠ some i := by
  constructor
  · intro h' p hp
    have hlive := h'.live p i (htun ▸ hp)
    rw [hself] at hlive
    cases hlive
  · intro hp
    refine (sound_minus_iff h hinv' htun (fun p j hj => ?_) hopen).mpr fun p j hpi => (hp p hpi).elim
    rw [hne j fun heq => hp p (heq ▸ hj)]
    exact h.live p j hj

theorem isSome_updImpl {j : ℕ} (h : (s.impls j).isSome) :
    ((s.updImpl i f).impls j).isSome := by
  by_cases hji : j = i
  · rw [hji] at h ⊢
    rw [State.updImpl_self, Option.isSome_map]
    exact h
  · rw [State.updImpl_ne hji]
    exact h

theorem sound_openStart_iff (hinv : Inv s) (h : Sound s) (ho : s.objs o = none)
    (hs : step s (.openStart o peer) = some s') : Sound s' ↔ ∀ i, ¬ s.Open peer i := by
  have hinv' := step_inv hinv hs
  simp only [step, ho] at hs
  split at hs
  · cases hs
  have hopen : ∀ p j, s'.Open p j ↔ s.Open p j := by
    intro p j
    by_cases hj : j = s.fresh
    · refine iff_of_false ?_ fun hjo => Nat.ne_of_lt (hjo.lt hinv) hj
      rintro ⟨-, o', ho'⟩
      cases hs
      by_cases hoo : o' = o
      · rw [hoo] at ho'
        simp at ho'
      · dsimp only at ho'
        rw [Function.update_of_ne hoo] at ho'
        have hlt := hinv.lt_fresh j (hinv.owned o' j false ho')
        omega
    · have hheld : s'.Held j ↔ s.Held j := by
        cases hs
        exact held_setObj (by simp [ho]) (by simp)
      have himpl : s'.impls j = s.impls j := by
        cases hs
        exact Function.update_of_ne hj _ _
      exact ⟨fun h => ⟨himpl ▸ h.alive, hheld.mp h.held⟩,
        fun h => ⟨himpl.symm ▸ h.alive, hheld.mpr h.held⟩⟩
  have htun : s'.tunnels = Function.update s.tunnels peer (some s.fresh) := by
    cases hs
    rfl
  constructor
  · intro h' i hi
    obtain ⟨k, hk⟩ := exists_latest hinv' ((hopen peer i).mpr hi)
    have hpk := h'.latest peer k hk
    rw [htun, Function.update_self] at hpk
    have hlt := ((hopen peer k).mp hk.opened).lt hinv
    have hfresh := Option.some.inj hpk
    omega
  · intro hnone
    refine ⟨fun p j hj => ?_, fun p j hj => ?_⟩
    · rw [htun] at hj
      have hlive : (s'.impls s.fresh).isSome := by
        cases hs
        dsimp only
        rw [Function.update_self]
        rfl
      by_cases hp : p = peer
      · rw [hp, Function.update_self] at hj
        exact Option.some.inj hj ▸ hlive
      · rw [Function.update_of_ne hp] at hj
        have hlt := hinv.listed p j hj
        have himpl : s'.impls j = s.impls j := by
          cases hs
          exact Function.update_of_ne (by omega) _ _
        rw [himpl]
        exact h.live p j hj
    · have hjo := (hopen p j).mp hj.opened
      have hp : p ≠ peer := fun heq => hnone j (heq ▸ hjo)
      rw [htun, Function.update_of_ne hp]
      exact h.latest p j ⟨hjo, fun k hk => hj.last k ((hopen p k).mpr hk)⟩

theorem sound_openSucceed_iff (hinv : Inv s) (h : Sound s) {direct : Bool}
    (ho : s.objs o = some ⟨some i, true⟩) (ho' : s.objs o' = none)
    (hs : step s (.openSucceed o o' direct) = some s') :
    Sound s' ↔ StepOk s (.openSucceed o o' direct) := by
  have hinv' := step_inv hinv hs
  simp only [step, ho, ho'] at hs
  obtain ⟨t, ht⟩ := Option.isSome_iff_exists.mp (hinv.owned o i true ho)
  have hopen : ∀ p j, s'.Open p j ↔ s.Open p j ∨ (p = t.peerId ∧ j = i) := by
    intro p j
    have hnew : s.Open p i → False := by
      rintro ⟨-, o₂, ho₂⟩
      have heq := hinv.owner o o₂ i true false ho ho₂
      rw [← heq, ho] at ho₂
      cases ho₂
    have hheld : s'.Held j ↔ s.Held j ∨ j = i := by
      have hne : o' ≠ o := by
        rintro rfl
        rw [ho] at ho'
        cases ho'
      cases hs
      rw [held_new j (by rw [State.setObj_ne hne]; simp [State.updImpl, ho'])]
      apply or_congr_left
      exact held_setObj (by simp [State.updImpl, ho]) (by simp)
    by_cases hji : j = i
    · have himpl : s'.impls i = some { t with mode := if direct then .direct else .relayed } := by
        cases hs
        exact State.updImpl_self.trans (by rw [ht]; rfl)
      rw [hji, open_iff, himpl]
      constructor
      · rintro ⟨⟨x, hx, hp, -⟩, -⟩
        cases hx
        exact .inr ⟨hp.symm, rfl⟩
      · rintro (hio | ⟨hp, -⟩)
        · exact (hnew hio).elim
        · refine ⟨⟨_, rfl, hp.symm, ?_⟩, hji ▸ hheld.mpr (.inr hji)⟩
          dsimp only
          split <;> exact Mode.noConfusion
    · have himpl : s'.impls j = s.impls j := by
        cases hs
        exact State.updImpl_ne hji
      rw [or_iff_left fun h => hji h.2]
      rw [or_iff_left hji] at hheld
      exact ⟨fun h => ⟨himpl ▸ h.alive, hheld.mp h.held⟩,
        fun h => ⟨himpl.symm ▸ h.alive, hheld.mpr h.held⟩⟩
  have htun : s'.tunnels = s.tunnels := by
    cases hs
    rfl
  have hlive : ∀ j, (s.impls j).isSome → (s'.impls j).isSome := by
    cases hs
    exact fun j hj => isSome_updImpl hj
  simp only [StepOk, ho]
  constructor
  · intro h' k x hk hx
    cases hk
    rw [ht] at hx
    cases hx
    obtain ⟨k, hk⟩ := exists_latest hinv' ((hopen t.peerId i).mpr (.inr ⟨rfl, rfl⟩))
    have hik := hk.last i ((hopen t.peerId i).mpr (.inr ⟨rfl, rfl⟩))
    have hpk := h'.latest _ k hk
    rw [htun] at hpk
    rcases (hopen t.peerId k).mp hk.opened with hko | ⟨-, rfl⟩
    · by_cases heq : k = i
      · exact .inl (heq ▸ hpk)
      · exact .inr ⟨k, by omega, hko⟩
    · exact .inl hpk
  · intro hok
    refine ⟨fun p j hj => hlive j (h.live p j (htun ▸ hj)), fun p j hj => ?_⟩
    rw [htun]
    rcases (hopen p j).mp hj.opened with hjo | ⟨rfl, rfl⟩
    · exact h.latest p j ⟨hjo, fun k hk => hj.last k ((hopen p k).mpr (.inl hk))⟩
    · rcases hok j t rfl ht with hp | ⟨k, hlt, hk⟩
      · exact hp
      · have hle := hj.last k ((hopen _ k).mpr (.inl hk))
        omega

theorem sound_reconnected (hinv : Inv s) (h : Sound s) :
    Sound (s.updListed fun t => { t with mode := .relayed }) := by
  have hgrow : ∀ {p j}, s.Open p j → (s.updListed fun t => { t with mode := .relayed }).Open p j := by
    rintro p j ⟨⟨t, ht, hp, hm⟩, hheld⟩
    refine ⟨⟨_, Option.map_eq_some_iff.mpr ⟨t, ht, rfl⟩, ?_, ?_⟩, hheld⟩
    · split <;> exact hp
    · split
      · exact Mode.noConfusion
      · exact hm
  refine ⟨fun p j hj => ?_, fun p j hj => ?_⟩
  · have hlive := h.live p j hj
    unfold State.updListed
    rw [Option.isSome_map]
    exact hlive
  · obtain ⟨⟨x, hx, hp, hm⟩, hheld⟩ := hj.opened
    obtain ⟨t, ht, rfl⟩ := Option.map_eq_some_iff.mp hx
    split at hp
    · next hlisted =>
      dsimp only at hp
      exact hp ▸ hlisted
    · next hlisted =>
      rw [if_neg hlisted] at hm
      have hjo : s.Open p j := ⟨⟨t, ht, hp, hm⟩, hheld⟩
      obtain ⟨k, hk⟩ := exists_latest hinv hjo
      have heq : j = k := Nat.le_antisymm (hk.last j hjo) (hj.last k (hgrow hk.opened))
      rw [heq]
      exact h.latest p k hk

theorem sound_stop_iff (hinv : Inv s) (h : Sound s) (hs : step s .stop = some s') :
    Sound s' ↔ StepOk s .stop := by
  have hinv' := step_inv hinv hs
  cases hs
  have hopen : ∀ p j, State.Open { s.updListed fun t => { t with mode := .closed } with
      tunnels := fun _ => none } p j ↔ s.Open p j ∧ s.tunnels p ≠ some j := by
    intro p j
    constructor
    · rintro ⟨⟨x, hx, hp, hm⟩, hheld⟩
      obtain ⟨t, ht, rfl⟩ := Option.map_eq_some_iff.mp hx
      split at hp
      · next hlisted => exact (hm (by rw [if_pos hlisted])).elim
      · next hlisted =>
        rw [if_neg hlisted] at hm
        exact ⟨⟨⟨t, ht, hp, hm⟩, hheld⟩, hp ▸ hlisted⟩
    · rintro ⟨⟨⟨t, ht, hp, hm⟩, hheld⟩, hne⟩
      refine ⟨⟨t, Option.map_eq_some_iff.mpr ⟨t, ht, ?_⟩, hp, hm⟩, hheld⟩
      rw [if_neg (hp.symm ▸ hne)]
  constructor
  · intro h' p i j hi hj
    have hmap : ∀ {k}, s.Open p k → s.tunnels p = some k := by
      intro k hk
      by_contra hne
      obtain ⟨k', hk'⟩ := exists_latest hinv' ((hopen p k).mpr ⟨hk, hne⟩)
      cases h'.latest p k' hk'
    exact Option.some.inj ((hmap hi).symm.trans (hmap hj))
  · intro hok
    refine ⟨nofun, fun p j hj => ?_⟩
    obtain ⟨hjo, hne⟩ := (hopen p j).mp hj.opened
    obtain ⟨k, hk⟩ := exists_latest hinv hjo
    have heq := hok p j k hjo hk.opened
    exact (hne (heq ▸ h.latest p k hk)).elim

theorem sound_openFail_iff (hinv : Inv s) (h : Sound s) (hs : step s (.openFail o) = some s') :
    Sound s' ↔ StepOk s (.openFail o) := by
  have hinv' := step_inv hinv hs
  simp only [step] at hs
  split at hs
  · next i ho =>
    cases hs
    rw [sound_delete_iff h hinv' rfl State.delete_self (fun j hj => State.delete_ne hj)
      (open_delete ho (by simp))]
    simp [StepOk, ho]
  · cases hs

theorem sound_moveConstruct (h : Sound s) {dst : ℕ}
    (hs : step s (.moveConstruct src dst) = some s') : Sound s' := by
  simp only [step] at hs
  split at hs
  · next i hsrc hdst =>
    cases hs
    exact h.same rfl (fun _ hj => hj) (open_move hsrc (by simp [hdst]))
  · cases hs

theorem sound_moveAssign_iff (hinv : Inv s) (h : Sound s) {dst : ℕ}
    (hs : step s (.moveAssign src dst) = some s') : Sound s' ↔ StepOk s (.moveAssign src dst) := by
  have hinv' := step_inv hinv hs
  simp only [step] at hs
  split at hs
  · next i old hsrc hdst =>
    split at hs
    · next heq =>
      cases hs
      exact iff_of_true h fun hne => (hne heq).elim
    · next hne =>
      cases hs
      have hsrc' : ((s.delete old).setObj dst (some { impl := none })).objs src =
          some ⟨i, false⟩ := by
        rw [State.setObj_ne hne, State.objs_delete]
        exact hsrc
      rw [assign_eq hne] at hinv' ⊢
      cases old with
      | none =>
        refine iff_of_true (h.same rfl (fun _ hj => hj) fun p j => ?_) (by simp [StepOk, hdst])
        exact (open_move hsrc' (by simp) p j).trans (open_setObj (by simp [hdst]) (by simp) p j)
      | some old =>
        rw [sound_delete_iff h hinv' rfl State.delete_self (fun j hj => State.delete_ne hj)
          fun p j => (open_move hsrc' (by simp) p j).trans (open_delete hdst (by simp) p j)]
        simp [StepOk, hdst, hne]
  · cases hs

theorem sound_destroy_iff (hinv : Inv s) (h : Sound s) (hs : step s (.destroy o) = some s') :
    Sound s' ↔ StepOk s (.destroy o) := by
  have hinv' := step_inv hinv hs
  simp only [step] at hs
  split at hs
  · next i ho =>
    cases hs
    cases i with
    | none =>
      exact iff_of_true (h.same rfl (fun _ hj => hj) (open_setObj (by simp [ho]) (by simp)))
        (by simp [StepOk, ho])
    | some i =>
      rw [sound_delete_iff h hinv' rfl State.delete_self (fun j hj => State.delete_ne hj)
        (open_delete ho (by simp))]
      simp [StepOk, ho]
  · cases hs

theorem sound_close_iff (hinv : Inv s) (h : Sound s) (hs : step s (.close o) = some s') :
    Sound s' ↔ StepOk s (.close o) := by
  have hinv' := step_inv hinv hs
  simp only [step] at hs
  split at hs
  · next i ho =>
    cases hs
    rw [sound_minus_iff h hinv' rfl (fun p j hj => ?_) (open_close fun _ => rfl)]
    · simp [StepOk, ho]
    · exact isSome_updImpl (h.live p j hj)
  · next ho =>
    cases hs
    exact iff_of_true h (by simp [StepOk, ho])
  · cases hs

theorem sound_setDataCallback (h : Sound s) (hs : step s (.setDataCallback o) = some s') :
    Sound s' := by
  simp only [step] at hs
  split at hs
  · cases hs
    exact h.same rfl (fun j hj => isSome_updImpl hj) (open_updImpl (fun _ => rfl) fun _ => Iff.rfl)
  · cases hs
    exact h
  · cases hs

theorem sound_peerGone_iff (hinv : Inv s) (h : Sound s) {goneId : ℕ}
    (hs : step s (.peerGone goneId) = some s') : Sound s' ↔ StepOk s (.peerGone goneId) := by
  have hinv' := step_inv hinv hs
  simp only [step] at hs
  split at hs
  · next i hi =>
    cases hs
    rw [sound_minus_iff h hinv' rfl (fun p j hj => isSome_updImpl (h.live p j hj))
      (open_close fun _ => rfl)]
    simp only [StepOk, hi]
    constructor
    · intro hall k hk j ho hj
      cases hk
      exact hall goneId j hi ho hj
    · intro hall p j hp ho hj
      obtain ⟨t, ht, hpeer, -⟩ := ho.alive
      have hgone : goneId = p := (hinv.peer goneId i t hi ht).symm.trans hpeer
      exact hall i rfl j (hgone ▸ ho) (hgone ▸ hj)
  · next hnone =>
    cases hs
    exact iff_of_true h (by simp [StepOk, hnone])

theorem sound_meshData (h : Sound s) (hs : step s (.meshData src) = some s') :
    Sound s' := by
  simp only [step] at hs
  split at hs
  · split at hs
    · cases hs
      exact h.same rfl (fun _ hj => hj) fun p j =>
        ⟨fun h => ⟨h.alive, h.held⟩, fun h => ⟨h.alive, h.held⟩⟩
    · cases hs
      exact h
  · cases hs
    exact h

theorem step_sound_iff (hinv : Inv s) (h : Sound s) (hs : step s l = some s') :
    Sound s' ↔ StepOk s l := by
  cases l with
  | openStart o peer =>
    have ho : s.objs o = none := by
      simp only [step] at hs
      split at hs
      · cases hs
      · assumption
    exact sound_openStart_iff hinv h ho hs
  | openSucceed o o' direct =>
    obtain ⟨i, ho, ho'⟩ : ∃ i, s.objs o = some ⟨some i, true⟩ ∧ s.objs o' = none := by
      simp only [step] at hs
      split at hs
      · next i ho ho' => exact ⟨i, ho, ho'⟩
      · cases hs
    exact sound_openSucceed_iff hinv h ho ho' hs
  | openFail o => exact sound_openFail_iff hinv h hs
  | moveConstruct src dst => exact iff_of_true (sound_moveConstruct h hs) trivial
  | moveAssign src dst => exact sound_moveAssign_iff hinv h hs
  | destroy o => exact sound_destroy_iff hinv h hs
  | close o => exact sound_close_iff hinv h hs
  | setDataCallback o => exact iff_of_true (sound_setDataCallback h hs) trivial
  | peerGone goneId => exact sound_peerGone_iff hinv h hs
  | meshData src => exact iff_of_true (sound_meshData h hs) trivial
  | reconnected =>
    cases hs
    exact iff_of_true (sound_reconnected hinv h) trivial
  | stop => exact sound_stop_iff hinv h hs

theorem init_sound (hs : Init s) : Inv s ∧ Sound s := by
  rw [hs]
  refine ⟨⟨nofun, nofun, nofun, nofun, nofun⟩, nofun, ?_⟩
  rintro peer i ⟨⟨⟨t, ht, -⟩, -⟩, -⟩
  cases ht

/-- A run meets the property in all its states exactly as long as its steps are allowed: the map
refers to live tunnels, and data goes to the latest tunnel to its peer that is still open. -/
theorem sound_iff_steps_ok (h : Runs.Reach Init step StepOk s) :
    Sound s ∧ (∀ l s', step s l = some s' → (Sound s' ↔ StepOk s l)) ∧
      ∀ peer i t, s.Latest peer i → s.impls i = some t → t.onData = true →
        step s (.meshData peer) = some { s with delivered := s.delivered ++ [(peer, i)] } := by
  have hboth : Inv s ∧ Sound s := by
    apply Runs.Reach.invariant _ _ h
    · exact fun s hs => init_sound hs
    · rintro s s' l ⟨hinv, hsound⟩ hok hs
      exact ⟨step_inv hinv hs, (step_sound_iff hinv hsound hs).mpr hok⟩
  obtain ⟨hinv, hsound⟩ := hboth
  refine ⟨hsound, fun l s' hs => step_sound_iff hinv hsound hs, ?_⟩
  intro peer i t hlatest ht hdata
  obtain ⟨x, hx, -, hm⟩ := hlatest.opened.alive
  rw [ht] at hx
  cases hx
  have htarget : s.target peer = some i := by
    simp [State.target, hsound.latest peer i hlatest, ht, hm]
  simp [step, htarget, ht, hdata]

/-- An `Impl` for the peer that is not closed. -/
def State.lives (s : State) (peer i : ℕ) : Bool :=
  (s.impls i).any fun t => decide (t.peerId = peer ∧ t.mode ≠ .closed)

/-- A test of the condition, for the steps of the run below. -/
def checked (s : State) : Label → Bool
  | .openStart _ peer => (List.range s.fresh).all fun i => !s.lives peer i
  | .openSucceed o _ _ =>
    match s.objs o with
    | some ⟨some i, _⟩ => (s.impls i).all fun t => decide (s.tunnels t.peerId = some i)
    | _ => true
  | .close o =>
    match s.objs o with
    | some ⟨some i, _⟩ => (s.impls i).all fun t =>
        (List.range s.fresh).all fun j => !s.lives t.peerId j || decide (j = i)
    | _ => true
  | .destroy o =>
    match s.objs o with
    | some ⟨some i, _⟩ => (s.impls i).any fun t => decide (s.tunnels t.peerId ≠ some i)
    | _ => true
  | _ => false

theorem State.Open.lives (h : s.Open peer i) : s.lives peer i = true := by
  obtain ⟨t, ht, hp, hm⟩ := h.alive
  simp [State.lives, ht, hp, hm]

theorem stepOk_of_checked (h : Inv s) (hc : checked s l = true) : StepOk s l := by
  cases l with
  | openStart o peer =>
    intro i hi
    have hfree := List.all_eq_true.mp hc i (List.mem_range.mpr (hi.lt h))
    rw [hi.lives] at hfree
    cases hfree
  | openSucceed o h' direct =>
    intro i t ho ht
    simp only [checked, ho, ht, Option.all_some, decide_eq_true_eq] at hc
    exact .inl hc
  | close o =>
    intro i ho peer j hp hi hj
    obtain ⟨t, ht, rfl, -⟩ := hi.alive
    simp only [checked, ho, ht, Option.all_some, List.all_eq_true, List.mem_range] at hc
    simpa [hj.lives] using hc j (hj.lt h)
  | destroy o =>
    intro i ho peer hp
    obtain ⟨t, ht⟩ := Option.isSome_iff_exists.mp (h.owned o i false ho)
    simp only [checked, ho, ht, Option.any_some, decide_eq_true_eq] at hc
    rw [h.peer peer i t hp ht] at hc
    exact hc hp
  | openFail | moveConstruct | moveAssign | setDataCallback | peerGone | meshData | reconnected
  | stop => cases hc

theorem reach_checked (h : Runs.Reach Init step (fun s l => checked s l = true) s) :
    Runs.Reach Init step StepOk s ∧ Inv s := by
  induction h with
  | start s hs => exact ⟨.start s hs, (init_sound hs).1⟩
  | next s s' l _ hc hs ih =>
    exact ⟨.next s s' l ih.1 (stepOk_of_checked ih.2 hc) hs, step_inv ih.2 hs⟩

/-- Tunnels to peers 5 and 6. The second is closed and opened again before its first `Tunnel`
is destroyed. -/
def reopened : List Label :=
  [.openStart 0 5, .openSucceed 0 1 false, .openStart 2 6, .openSucceed 2 3 true, .close 3,
    .openStart 4 6, .openSucceed 4 5 false, .destroy 3]

theorem tunnels_sound_reopened :
    ∃ s, Runs.run (Runs.guarded step fun s l => checked s l = true) {} reopened = some s ∧
      Sound s ∧ s.tunnels 5 = some 0 ∧ s.tunnels 6 = some 2 ∧ (s.impls 1).isSome = false := by
  have hrun : (Runs.run (Runs.guarded step fun s l => checked s l = true) {} reopened).map
      (fun s => (s.tunnels 5, s.tunnels 6, (s.impls 1).isSome)) = some (some 0, some 2, false) := by
    decide
  obtain ⟨s, hs, hval⟩ := Option.map_eq_some_iff.mp hrun
  rw [Prod.mk.injEq, Prod.mk.injEq] at hval
  have hstart : Runs.Reach Init step (fun s l => checked s l = true) {} := .start _ rfl
  have hreach := (reach_checked (Runs.reach_of_guarded hstart hs)).1
  exact ⟨s, hs, (sound_iff_steps_ok hreach).1, hval⟩

/-- An open that is denied leaves its tunnel in the map. -/
theorem not_sound_denied : ¬ ∀ (ls : List Label) (s : State), Runs.run step {} ls = some s →
    Sound s := by
  intro h
  have hsound := h [.openStart 0 5, .openFail 0] _ rfl
  have hlive := hsound.live 5 0 rfl
  cases hlive

end HyperDerp.Tunnels
