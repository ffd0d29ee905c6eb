import HyperDerp.Routes.Table
import HyperDerp.Lib.Runs

/-!
# Who sent an announcement (`hd_relay_table.cc:65-124`, `control_plane.cc:815-857`)

A learned route carries the fd of the neighbour it goes through. The sender of an
announcement is looked up as the first entry with the fd it arrived on, and that
may be a learned route. Beside the table stands the relay that was last added on
each fd.
-/

namespace HyperDerp

/-- A neighbour, as `RelayTableAdd` writes it. -/
def RelayEntry.Direct (e : RelayEntry) : Prop :=
  e.occupied = true ∧ e.hops = 1 ∧ e.nextHop = e.relayId

instance (e : RelayEntry) : Decidable e.Direct := inferInstanceAs (Decidable (_ ∧ _))

def RelayEntry.Learned (e : RelayEntry) : Prop := e.occupied = true ∧ ¬e.Direct

instance (e : RelayEntry) : Decidable e.Learned := inferInstanceAs (Decidable (_ ∧ _))

namespace Attribution

structure State where
  rt : RelayTable
  /-- the relay connected on an fd -/
  conn : Fd → Option ℕ

inductive Op where
  | add (relayId : ℕ) (fd : Fd) (key : Key)
  | remove (relayId : ℕ)
  | announce (fd : Fd) (payload : Bytes)

def step (s : State) : Op → Option State
  | .add id fd key =>
    some ⟨relayTableAdd s.rt id fd key,
      if id = 0 then s.conn else Function.update s.conn fd (some id)⟩
  | .remove id =>
    some ⟨relayTableRemove s.rt id, fun fd => if s.conn fd = some id then none else s.conn fd⟩
  | .announce fd payload => some { s with rt := HyperDerp.announce s.rt fd payload }

structure Init (s : State) : Prop where
  empty : ∀ i, (s.rt.entries i).occupied = false
  conn : s.conn = fun _ => none

/-- Every learned route goes through a neighbour, on that neighbour's fd. -/
def NextHopsDirect (rt : RelayTable) : Prop :=
  ∀ i, (rt.entries i).Learned → ∃ j, (rt.entries j).Direct ∧
    (rt.entries j).relayId = (rt.entries i).nextHop ∧ (rt.entries j).fd = (rt.entries i).fd

/-- Whatever an announcement changes goes through the neighbour connected on its fd. -/
def RecordsSender (s : State) (fd : Fd) (payload : Bytes) : Prop :=
  ∀ i, (announce s.rt fd payload).entries i ≠ s.rt.entries i →
    ∃ j, (s.rt.entries j).Direct ∧ (s.rt.entries j).fd = fd ∧
      s.conn fd = some (s.rt.entries j).relayId ∧
      ((announce s.rt fd payload).entries i).nextHop = (s.rt.entries j).relayId

/-- The first entry with the fd is that of the neighbour connected on it. -/
def SenderFound (s : State) (fd : Fd) : Prop :=
  ∀ i, (s.rt.find fun e => e.occupied && decide (e.fd = fd)) = some i →
    (s.rt.entries i).Direct ∧ s.conn fd = some (s.rt.entries i).relayId

/-- No hop count of 255, which wraps to 0, for a neighbour. -/
def NoWrap (rt : RelayTable) (payload : Bytes) : Prop :=
  ∀ e ∈ hdParseRouteAnnounce payload 256, e.2 = 255 →
    ∀ i, rt.byId e.1 = some i → ¬(rt.entries i).Direct

/-- A neighbour with routes through it is not removed and comes back on its old fd only; an
announcement is taken for its sender's and has no wrapping count for a neighbour. -/
def StepOk (s : State) : Op → Prop
  | .add id fd _ => ∀ i, (s.rt.entries i).Learned → (s.rt.entries i).nextHop = id →
      (s.rt.entries i).fd = fd
  | .remove id => ∀ i, (s.rt.entries i).Learned → (s.rt.entries i).nextHop ≠ id
  | .announce fd payload => SenderFound s fd ∧ NoWrap s.rt payload

/-- In a state, and in the next announcement that the condition allows. -/
structure Attributed (ok : State → Op → Prop) (s : State) : Prop where
  nextHops : NextHopsDirect s.rt
  sender : ∀ fd payload, ok s (.announce fd payload) → RecordsSender s fd payload

/-! ### The invariant -/

structure Inv (rt : RelayTable) : Prop where
  distinct : rt.IdsDistinct
  hops : ∀ id e, relayTableLookup rt id = some e → e.Learned →
    ∃ d, relayTableLookup rt e.nextHop = some d ∧ d.Direct ∧ d.fd = e.fd

section

variable {rt rt' : RelayTable}

theorem Inv.nextHopsDirect (h : Inv rt) : NextHopsDirect rt := by
  intro i hl
  obtain ⟨d, hd, hdir, hfd⟩ := h.hops _ _ (h.distinct.lookup hl.1) hl
  obtain ⟨j, -, hj, -, hid⟩ := RelayTable.lookup_some hd
  rw [← hj] at hdir hfd hid
  exact ⟨j, hdir, hid, hfd⟩

theorem Inv.add (h : Inv rt) (id : ℕ) (fd : Fd) (key : Key)
    (hok : ∀ i, (rt.entries i).Learned → (rt.entries i).nextHop = id → (rt.entries i).fd = fd) :
    Inv (relayTableAdd rt id fd key) := by
  rcases RelayTable.add_cases rt id fd key with heq | ⟨-, i, hput⟩
  · rw [heq]
    exact h
  refine ⟨hput.distinct h.distinct, fun k e he hl => ?_⟩
  rw [hput.lookup] at he
  split at he
  · rw [← Option.some.inj he] at hl
    exact absurd ⟨rfl, rfl, rfl⟩ hl.2
  · obtain ⟨d, hd, hdir, hfd⟩ := h.hops k e he hl
    rw [hput.lookup]
    split
    · next hnext =>
      obtain ⟨j, -, hj, -, -⟩ := RelayTable.lookup_some he
      rw [← hj] at hl hnext
      refine ⟨_, rfl, ⟨rfl, rfl, rfl⟩, ?_⟩
      rw [← hj]
      exact (hok j hl hnext).symm
    · exact ⟨d, hd, hdir, hfd⟩

theorem Inv.remove (h : Inv rt) (id : ℕ)
    (hok : ∀ i, (rt.entries i).Learned → (rt.entries i).nextHop ≠ id) :
    Inv (relayTableRemove rt id) := by
  refine ⟨h.distinct.remove id, fun k e he hl => ?_⟩
  rw [h.distinct.lookup_remove] at he
  split at he
  · cases he
  · obtain ⟨j, -, hj, -, -⟩ := RelayTable.lookup_some he
    obtain ⟨d, hd, hdir, hfd⟩ := h.hops k e he hl
    have hne : e.nextHop ≠ id := by
      rw [← hj] at hl ⊢
      exact hok j hl
    rw [h.distinct.lookup_remove, if_neg hne]
    exact ⟨d, hd, hdir, hfd⟩

/-! ### One announcement -/

/-- Part of an announcement of the neighbour `src` has been taken in. -/
structure Announced (rt0 : RelayTable) (src : ℕ) (fd : Fd) (rt : RelayTable) : Prop
    extends Inv rt where
  source : ∃ d, relayTableLookup rt src = some d ∧ d.Direct ∧ d.fd = fd
  direct : ∀ id d, relayTableLookup rt id = some d → d.Direct → relayTableLookup rt0 id = some d
  changed : ∀ i, rt.entries i = rt0.entries i ∨ (rt.entries i).nextHop = src

theorem Announced.route {rt0 : RelayTable} {src : ℕ} {fd : Fd} (h : Announced rt0 src fd rt)
    {e : ℕ × ℕ} (hb : e.2 < 256)
    (hwrap : e.2 = 255 → ∀ i, rt0.byId e.1 = some i → ¬(rt0.entries i).Direct) :
    Announced rt0 src fd (announceRoute src fd rt e) := by
  rcases announceRoute_cases rt src fd e with heq | ⟨-, -, -, hlt, i, key, hput⟩
  · rw [heq]
    exact h
  -- the entry that is replaced is not a neighbour's: that would take a count of 0
  have hold : ∀ d, relayTableLookup rt e.1 = some d → ¬d.Direct := by
    intro d hd hdir
    have hhops := hlt d hd
    rw [hdir.2.1] at hhops
    obtain ⟨j, hj, hjd, -, -⟩ := RelayTable.lookup_some (h.direct e.1 d hd hdir)
    apply hwrap (by omega) j hj
    rw [hjd]
    exact hdir
  obtain ⟨d, hd, hdir, hfd⟩ := h.source
  have hsrc : src ≠ e.1 := by
    intro hsrc
    rw [hsrc] at hd
    exact hold d hd hdir
  constructor
  · refine ⟨hput.distinct h.distinct, fun k x hx hl => ?_⟩
    rw [hput.lookup] at hx
    split at hx
    · rw [← Option.some.inj hx, hput.lookup, if_neg hsrc]
      exact ⟨d, hd, hdir, hfd⟩
    · obtain ⟨d', hd', hdir', hfd'⟩ := h.hops k x hx hl
      have hne : x.nextHop ≠ e.1 := by
        intro hne
        rw [hne] at hd'
        exact hold d' hd' hdir'
      rw [hput.lookup, if_neg hne]
      exact ⟨d', hd', hdir', hfd'⟩
  · rw [hput.lookup, if_neg hsrc]
    exact ⟨d, hd, hdir, hfd⟩
  · intro k x hx hxd
    rw [hput.lookup] at hx
    split at hx
    · rw [← Option.some.inj hx] at hxd
      exact absurd hxd.2.2 hsrc
    · exact h.direct k x hx hxd
  · intro j
    rw [hput.entries]
    by_cases hj : j = i
    · rw [hj, Function.update_self]
      exact .inr rfl
    · rw [Function.update_of_ne hj]
      exact h.changed j

theorem Announced.routes {rt0 : RelayTable} {src : ℕ} {fd : Fd} (es : List (ℕ × ℕ))
    (h : Announced rt0 src fd rt) (hb : ∀ e ∈ es, e.2 < 256)
    (hwrap : ∀ e ∈ es, e.2 = 255 → ∀ i, rt0.byId e.1 = some i → ¬(rt0.entries i).Direct) :
    Announced rt0 src fd (es.foldl (announceRoute src fd) rt) := by
  induction es generalizing rt with
  | nil => exact h
  | cons e es ih =>
    apply ih
    · exact h.route (hb e (List.mem_cons_self ..)) (hwrap e (List.mem_cons_self ..))
    · exact fun e' he' => hb e' (List.mem_cons_of_mem _ he')
    · exact fun e' he' => hwrap e' (List.mem_cons_of_mem _ he')

end

theorem hops_lt (payload : Bytes) (n : ℕ) : ∀ e ∈ hdParseRouteAnnounce payload n, e.2 < 256 := by
  intro e he
  unfold hdParseRouteAnnounce at he
  obtain ⟨i, -, hi⟩ := List.mem_map.1 he
  rw [← hi]
  exact UInt8.toNat_lt _

theorem announce_cases {s : State} (h : Inv s.rt) {fd : Fd} {payload : Bytes}
    (hok : StepOk s (.announce fd payload)) :
    announce s.rt fd payload = s.rt ∨ ∃ i, (s.rt.entries i).Direct ∧ (s.rt.entries i).fd = fd ∧
      s.conn fd = some (s.rt.entries i).relayId ∧
      Announced s.rt (s.rt.entries i).relayId fd (announce s.rt fd payload) := by
  obtain ⟨hfound, hwrap⟩ := hok
  cases hf : s.rt.find fun e => e.occupied && decide (e.fd = fd) with
  | none =>
    left
    have hsrc : announceSource s.rt fd = 0 := by
      unfold announceSource
      rw [hf, Option.map_none, Option.getD_none]
    unfold announce
    rw [if_pos hsrc]
  | some i =>
    obtain ⟨hdir, hconn⟩ := hfound i hf
    have hsrc : announceSource s.rt fd = (s.rt.entries i).relayId := by
      unfold announceSource
      rw [hf, Option.map_some, Option.getD_some]
    rw [RelayTable.find_eq] at hf
    have hi := FrontScan.first_some hf
    rw [Bool.and_eq_true, decide_eq_true_eq] at hi
    unfold announce
    rw [hsrc]
    split
    · exact .inl rfl
    · refine .inr ⟨i, hdir, hi.2, hconn, ?_⟩
      have hstart : Announced s.rt (s.rt.entries i).relayId fd s.rt := by
        refine ⟨h, ?_, fun _ _ hd _ => hd, fun _ => .inl rfl⟩
        exact ⟨_, h.distinct.lookup hi.1, hdir, hi.2⟩
      exact hstart.routes _ (hops_lt payload 256) hwrap

theorem inv_step {s s' : State} (h : Inv s.rt) {op : Op} (hok : StepOk s op)
    (hs : step s op = some s') : Inv s'.rt := by
  cases op with
  | add id fd key =>
    rw [step, Option.some.injEq] at hs
    rw [← hs]
    dsimp only
    exact h.add id fd key hok
  | remove id =>
    rw [step, Option.some.injEq] at hs
    rw [← hs]
    dsimp only
    exact h.remove id hok
  | announce fd payload =>
    rw [step, Option.some.injEq] at hs
    rw [← hs]
    dsimp only
    rcases announce_cases h hok with heq | ⟨_, -, -, -, ha⟩
    · rw [heq]
      exact h
    · exact ha.toInv

theorem recordsSender {s : State} (h : Inv s.rt) {fd : Fd} {payload : Bytes}
    (hok : StepOk s (.announce fd payload)) : RecordsSender s fd payload := by
  intro i hi
  rcases announce_cases h hok with heq | ⟨j, hdir, hfd, hconn, ha⟩
  · rw [heq] at hi
    exact absurd rfl hi
  · rcases ha.changed i with hsame | hnext
    · exact absurd hsame hi
    · exact ⟨j, hdir, hfd, hconn, hnext⟩

theorem inv_init {s : State} (h : Init s) : Inv s.rt := by
  constructor
  · intro i _ hi
    rw [h.empty i] at hi
    cases hi
  · intro id e he hl
    obtain ⟨i, -, hi, hocc, -⟩ := RelayTable.lookup_some he
    rw [← hi, h.empty i] at hocc
    cases hocc

theorem routes_attributed {s : State} (h : Runs.Reach Init step StepOk s) :
    Attributed StepOk s := by
  have hinv : Inv s.rt := h.invariant (P := fun s => Inv s.rt) (fun _ h0 => inv_init h0)
    fun _ _ _ hi hok hs => inv_step hi hok hs
  exact ⟨hinv.nextHopsDirect, fun _ _ hok => recordsSender hinv hok⟩

/-! ### A route taken for the sender -/

def start : State := ⟨{ selfId := 1 }, fun _ => none⟩

theorem start_init : Init start := ⟨fun _ => rfl, rfl⟩

def repointed : List Op :=
  [.add 2 5 (byteKey 2), .announce 5 (routeEntry (7, 2)), .add 3 6 (byteKey 3),
    .announce 6 (routeEntry (7, 1))]

theorem learned_route_taken_for_sender :
    ¬∀ s, Runs.Reach Init step Runs.Any s → Attributed Runs.Any s := by
  intro hall
  have hrun : (Runs.run step start repointed).map (fun s =>
      (s.conn 6, (s.rt.entries 3).relayId,
        ((announce s.rt 6 (routeEntry (9, 1))).entries 3).relayId,
        ((announce s.rt 6 (routeEntry (9, 1))).entries 3).nextHop)) =
      some (some 3, 0, 9, 7) := by
    decide +kernel
  obtain ⟨s, hs, hval⟩ := Option.map_eq_some_iff.1 hrun
  rw [Prod.mk.injEq, Prod.mk.injEq, Prod.mk.injEq] at hval
  obtain ⟨hconn, hbefore, hafter, hnext⟩ := hval
  have hsender := (hall s (Runs.reach_of_run start_init hs)).sender 6 (routeEntry (9, 1)) trivial
  have hchanged : (announce s.rt 6 (routeEntry (9, 1))).entries 3 ≠ s.rt.entries 3 := by
    intro heq
    rw [heq, hbefore] at hafter
    omega
  obtain ⟨j, -, -, hj, hnextj⟩ := hsender 3 hchanged
  rw [hconn, Option.some.injEq] at hj
  rw [hnext] at hnextj
  omega

/-- A neighbour announces a route. -/
theorem routes_attributed_one :
    ∃ s, Attributed StepOk s ∧ (relayTableLookup s.rt 7).map RelayEntry.nextHop = some 2 := by
  have hadd : StepOk start (.add 2 5 (byteKey 2)) := fun _ hl => nomatch hl.1
  have h1 : Runs.Reach Init step StepOk
      ⟨relayTableAdd start.rt 2 5 (byteKey 2), Function.update start.conn 5 (some 2)⟩ :=
    .next _ _ (.add 2 5 (byteKey 2)) (.start _ start_init) hadd rfl
  have hsender : ((relayTableAdd start.rt 2 5 (byteKey 2)).find fun e =>
      e.occupied && decide (e.fd = 5)) = some 0 := by
    decide +kernel
  have hok : StepOk
      ⟨relayTableAdd start.rt 2 5 (byteKey 2), Function.update start.conn 5 (some 2)⟩
      (.announce 5 (routeEntry (7, 1))) := by
    constructor
    · intro i hi
      dsimp only at hi
      rw [hsender, Option.some.injEq] at hi
      rw [← hi]
      decide +kernel
    · intro e he
      have hes : hdParseRouteAnnounce (routeEntry (7, 1)) 256 = [(7, 1)] := by decide
      rw [hes, List.mem_singleton] at he
      rw [he]
      nofun
  have h2 := h1.next _ _ (.announce 5 (routeEntry (7, 1))) hok rfl
  exact ⟨_, routes_attributed h2, by decide +kernel⟩

end Attribution

end HyperDerp
