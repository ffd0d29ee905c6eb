import HyperDerp.Lib.Runs
import Mathlib.Data.Int.Notation
import Mathlib.Data.Nat.Notation
import Mathlib.Logic.Function.Basic

/-!
# Rings with one producer and one consumer

Only the producer writes `head` and only the consumer writes `tail`. A call is a
sequence of loads and stores of the shared ring, and the steps of the other
party come between any two of them. One slot is left free, so that a ring of
`size` slots holds `size - 1` items.
-/

namespace SpscRing

structure Code where
  size : ℕ
  next : ℕ → ℕ
  /-- The index that a party uses, from its first load of its own index and a later one. -/
  again : ℕ → ℕ → ℕ
  /-- What a push returns that found room, from the head and the tail it loaded. -/
  found : ℕ → ℕ → ℤ

structure Code.Ok (c : Code) : Prop where
  size : 0 < c.size
  next : ∀ i < c.size, c.next i = (i + 1) % c.size
  again : ∀ i, c.again i i = i
  found : ∀ head tail, c.found head tail ≠ -1

structure Ring (α : Type) where
  items : ℕ → α
  head : ℕ
  tail : ℕ

def Ring.held {α : Type} (r : Ring α) (size : ℕ) : ℕ := (r.head + size - r.tail) % size

/-- The items that the ring holds, the next one to pop first. -/
def Ring.contents {α : Type} (r : Ring α) (size : ℕ) : List α :=
  (List.range (r.held size)).map fun i => r.items ((r.tail + i) % size)

inductive Push (α : Type) where
  | idle
  | start (x : α) (head : ℕ)
  | loaded (x : α) (head tail : ℕ)
  | indexed (x : α) (head tail i : ℕ)
  | written (x : α) (head tail : ℕ)

inductive Pop (α : Type) where
  | idle
  | start (tail : ℕ)
  | loaded (tail head : ℕ)
  | indexed (tail i : ℕ)
  | taken (tail : ℕ) (x : α)
  | indexedAgain (i : ℕ) (x : α)

/-- What a call returned, and whether the ring was full (for a push) or empty (for a pop) at
some moment of it. -/
structure Return where
  code : ℤ
  seen : Bool
  deriving DecidableEq

structure State (α : Type) where
  ring : Ring α
  push : Push α := .idle
  pop : Pop α := .idle
  pushed : List α := []
  popped : List α := []
  /-- The ring has been full since the running push began. -/
  full : Bool := false
  /-- The ring has been empty since the running pop began. -/
  empty : Bool := false
  pushes : List Return := []
  pops : List Return := []

inductive Label (α : Type) where
  | push (x : α)
  | producer
  | pop
  | consumer

variable {α : Type} (c : Code)

def pushStep (s : State α) : Option (State α) :=
  match s.push with
  | .idle => none
  | .start x head => some { s with push := .loaded x head s.ring.tail }
  | .loaded x head tail =>
    if c.next head = tail then some { s with push := .idle, pushes := s.pushes ++ [⟨-1, s.full⟩] }
    else some { s with push := .indexed x head tail (c.again head s.ring.head) }
  | .indexed x head tail i =>
    some { s with
      ring := { s.ring with items := Function.update s.ring.items i x }
      push := .written x head tail }
  | .written x head tail =>
    some { s with
      ring := { s.ring with head := c.next head }
      push := .idle
      pushed := s.pushed ++ [x]
      pushes := s.pushes ++ [⟨c.found head tail, s.full⟩] }

def popStep (s : State α) : Option (State α) :=
  match s.pop with
  | .idle => none
  | .start tail => some { s with pop := .loaded tail s.ring.head }
  | .loaded tail head =>
    if tail = head then some { s with pop := .idle, pops := s.pops ++ [⟨-1, s.empty⟩] }
    else some { s with pop := .indexed tail (c.again tail s.ring.tail) }
  | .indexed tail i => some { s with pop := .taken tail (s.ring.items i) }
  | .taken tail x => some { s with pop := .indexedAgain (c.again tail s.ring.tail) x }
  | .indexedAgain i x =>
    some { s with
      ring := { s.ring with tail := c.next i }
      pop := .idle
      popped := s.popped ++ [x]
      pops := s.pops ++ [⟨0, s.empty⟩] }

def observe (s : State α) : State α :=
  { s with
    full := s.full || decide (s.ring.held c.size + 1 = c.size)
    empty := s.empty || decide (s.ring.held c.size = 0) }

def step (s : State α) : Label α → Option (State α)
  | .push x =>
    match s.push with
    | .idle => some (observe c { s with push := .start x s.ring.head, full := false })
    | _ => none
  | .producer => (pushStep c s).map (observe c)
  | .pop =>
    match s.pop with
    | .idle => some (observe c { s with pop := .start s.ring.tail, empty := false })
    | _ => none
  | .consumer => (popStep c s).map (observe c)

/-- A ring after its initialisation, with no call running. -/
structure Init (s : State α) : Prop where
  head : s.ring.head = 0
  tail : s.ring.tail = 0
  push : s.push = .idle
  pop : s.pop = .idle
  pushed : s.pushed = []
  popped : s.popped = []
  pushes : s.pushes = []
  pops : s.pops = []

/-- The calls that did not fail. -/
def succeeded (rs : List Return) : ℕ := rs.countP fun r => decide (r.code ≠ -1)

structure Fifo (s : State α) : Prop where
  popped : s.popped <+: s.pushed
  /-- Nothing lost, nothing twice, nothing out of order. -/
  kept : s.pushed = s.popped ++ s.ring.contents c.size
  pushes : ∀ r ∈ s.pushes, r.code = -1 → r.seen = true
  pops : ∀ r ∈ s.pops, r.code = -1 → r.seen = true
  /-- The items are those of the calls that succeeded. -/
  accepted : succeeded s.pushes = s.pushed.length
  taken : succeeded s.pops = s.popped.length

theorem eq_of_mod_eq {n a b : ℕ} (hab : a ≤ b) (hlt : b < a + n) (h : a % n = b % n) : a = b := by
  have hdvd : (b - a) % n = 0 := Nat.sub_mod_eq_zero_of_mod_eq h.symm
  rw [Nat.mod_eq_of_lt (by omega)] at hdvd
  omega

theorem held_eq {r : Ring α} {n pushed popped : ℕ} (hhead : r.head = pushed % n)
    (htail : r.tail = popped % n) (hle : popped ≤ pushed) (hlt : pushed < popped + n) :
    r.held n = pushed - popped := by
  obtain ⟨d, rfl⟩ := Nat.exists_eq_add_of_le hle
  have hd : d < n := by omega
  have hr : popped % n < n := Nat.mod_lt _ (by omega)
  have hmod : (popped + d) % n = (popped % n + d) % n := (Nat.mod_add_mod popped n d).symm
  rw [Ring.held, hhead, htail, hmod, Nat.add_sub_cancel_left]
  by_cases hwrap : popped % n + d < n
  · rw [Nat.mod_eq_of_lt hwrap]
    have heq : popped % n + d + n - popped % n = d + n := by omega
    rw [heq, Nat.add_mod_right, Nat.mod_eq_of_lt hd]
  · have hback : (popped % n + d) % n = popped % n + d - n := by
      rw [Nat.mod_eq_sub_mod (by omega), Nat.mod_eq_of_lt (by omega)]
    have heq : popped % n + d - n + n - popped % n = d := by omega
    rw [hback, heq, Nat.mod_eq_of_lt hd]

/-! ### Invariant -/

/-- What a running push has read stays usable, after `pushed` pushes and `popped` pops. -/
def PushOk (pushed popped : ℕ) (items : ℕ → α) (full : Bool) : Push α → Prop
  | .idle => True
  | .start _ head => head = pushed % c.size
  | .loaded _ head tail => head = pushed % c.size ∧ (c.next head = tail → full = true) ∧
      (c.next head ≠ tail → pushed + 1 < popped + c.size)
  | .indexed _ head _ i => head = pushed % c.size ∧ i = head ∧ pushed + 1 < popped + c.size
  | .written x head _ => head = pushed % c.size ∧ items head = x ∧ pushed + 1 < popped + c.size

def PopOk (pushed : List α) (popped : ℕ) (empty : Bool) : Pop α → Prop
  | .idle => True
  | .start tail => tail = popped % c.size
  | .loaded tail head => tail = popped % c.size ∧ (tail = head → empty = true) ∧
      (tail ≠ head → popped < pushed.length)
  | .indexed tail i => tail = popped % c.size ∧ i = tail ∧ popped < pushed.length
  | .taken tail x => tail = popped % c.size ∧ pushed[popped]? = some x
  | .indexedAgain i x => i = popped % c.size ∧ pushed[popped]? = some x

/-- The items popped and those in the ring, by their number in the order of the pushes. -/
structure Core (s : State α) : Prop where
  head : s.ring.head = s.pushed.length % c.size
  tail : s.ring.tail = s.popped.length % c.size
  popped : s.popped <+: s.pushed
  room : s.pushed.length < s.popped.length + c.size
  slots : ∀ i, s.popped.length ≤ i → i < s.pushed.length →
    s.pushed[i]? = some (s.ring.items (i % c.size))
  push : PushOk c s.pushed.length s.popped.length s.ring.items s.full s.push
  pop : PopOk c s.pushed s.popped.length s.empty s.pop
  pushes : ∀ r ∈ s.pushes, r.code = -1 → r.seen = true
  pops : ∀ r ∈ s.pops, r.code = -1 → r.seen = true
  accepted : succeeded s.pushes = s.pushed.length
  taken : succeeded s.pops = s.popped.length

structure Inv (s : State α) : Prop extends Core c s where
  full : s.push ≠ .idle → s.pushed.length + 1 = s.popped.length + c.size → s.full = true
  empty : s.pop ≠ .idle → s.pushed.length = s.popped.length → s.empty = true

variable {c} {s s' : State α}

theorem PushOk.mono {pushed popped popped' : ℕ} {items : ℕ → α} {full full' : Bool} {p : Push α}
    (h : PushOk c pushed popped items full p) (hle : popped ≤ popped')
    (hfull : full = true → full' = true) : PushOk c pushed popped' items full' p := by
  cases p with
  | idle => trivial
  | start x head => exact h
  | loaded x head tail =>
    obtain ⟨hhead, hseen, hroom⟩ := h
    refine ⟨hhead, fun heq => hfull (hseen heq), fun hne => ?_⟩
    have hlt := hroom hne
    omega
  | indexed x head tail i =>
    obtain ⟨hhead, hi, hroom⟩ := h
    exact ⟨hhead, hi, by omega⟩
  | written x head tail =>
    obtain ⟨hhead, hitem, hroom⟩ := h
    exact ⟨hhead, hitem, by omega⟩

theorem PopOk.seen {pushed : List α} {popped : ℕ} {empty empty' : Bool} {p : Pop α}
    (h : PopOk c pushed popped empty p) (hempty : empty = true → empty' = true) :
    PopOk c pushed popped empty' p := by
  cases p with
  | loaded tail head => exact ⟨h.1, fun heq => hempty (h.2.1 heq), h.2.2⟩
  | _ => exact h

theorem PopOk.push {pushed : List α} {popped : ℕ} {empty : Bool} {p : Pop α}
    (h : PopOk c pushed popped empty p) (x : α) : PopOk c (pushed ++ [x]) popped empty p := by
  have hlen : (pushed ++ [x]).length = pushed.length + 1 := List.length_append
  have hitem {y : α} (hy : pushed[popped]? = some y) : (pushed ++ [x])[popped]? = some y := by
    obtain ⟨hlt, _⟩ := List.getElem?_eq_some_iff.mp hy
    rw [List.getElem?_append_left hlt, hy]
  cases p with
  | idle => trivial
  | start tail => exact h
  | loaded tail head =>
    obtain ⟨htail, hseen, hmore⟩ := h
    refine ⟨htail, hseen, fun hne => ?_⟩
    have hlt := hmore hne
    omega
  | indexed tail i =>
    obtain ⟨htail, hi, hlt⟩ := h
    exact ⟨htail, hi, by omega⟩
  | taken tail y => exact ⟨h.1, hitem h.2⟩
  | indexedAgain i y => exact ⟨h.1, hitem h.2⟩

theorem Core.held (h : Core c s) : s.ring.held c.size = s.pushed.length - s.popped.length :=
  held_eq h.head h.tail h.popped.length_le h.room

theorem Core.kept (h : Core c s) : s.pushed = s.popped ++ s.ring.contents c.size := by
  obtain ⟨rest, hrest⟩ := h.popped
  have hlen : s.pushed.length = s.popped.length + rest.length := by
    rw [← hrest, List.length_append]
  rw [Ring.contents, h.held, hlen, Nat.add_sub_cancel_left, ← hrest]
  congr 1
  apply List.ext_getElem?
  intro i
  by_cases hi : i < rest.length
  · have hslot := h.slots (s.popped.length + i) (Nat.le_add_right ..) (by omega)
    have hshift : (s.popped ++ rest)[s.popped.length + i]? = rest[i]? := by
      rw [List.getElem?_append_right (Nat.le_add_right ..), Nat.add_sub_cancel_left]
    rw [← hrest, hshift] at hslot
    rw [hslot, List.getElem?_map, List.getElem?_range hi, Option.map_some, h.tail, Nat.mod_add_mod]
  · rw [List.getElem?_eq_none (by omega), List.getElem?_eq_none (by simpa using hi)]

theorem Core.fifo (h : Core c s) : Fifo c s where
  popped := h.popped
  kept := h.kept
  pushes := h.pushes
  pops := h.pops
  accepted := h.accepted
  taken := h.taken

theorem Core.observe (h : Core c s) : Inv c (observe c s) where
  toCore := { h with
    push := h.push.mono (Nat.le_refl _) fun hseen => by simp [SpscRing.observe, hseen]
    pop := h.pop.seen fun hseen => by simp [SpscRing.observe, hseen] }
  full := by
    intro _ hfull
    have hle := h.popped.length_le
    simp only [SpscRing.observe] at hfull ⊢
    simp only [h.held, Bool.or_eq_true, decide_eq_true_eq]
    omega
  empty := by
    intro _ hempty
    simp only [SpscRing.observe] at hempty ⊢
    simp only [h.held, Bool.or_eq_true, decide_eq_true_eq]
    omega

/-! ### Steps -/

theorem Inv.start_push (h : Inv c s) (x : α) :
    Core c { s with push := .start x s.ring.head, full := false } :=
  { h.toCore with push := h.head }

theorem Inv.start_pop (h : Inv c s) :
    Core c { s with pop := .start s.ring.tail, empty := false } :=
  { h.toCore with pop := h.tail }

theorem Core.write (h : Core c s) {head : ℕ} (hhead : head = s.pushed.length % c.size) (x : α)
    {i : ℕ} (hle : s.popped.length ≤ i) (hlt : i < s.pushed.length) :
    s.pushed[i]? = some (Function.update s.ring.items head x (i % c.size)) := by
  have hroom := h.room
  have hne : i % c.size ≠ head := by
    intro heq
    have hsame := eq_of_mod_eq (by omega) (by omega) (heq.trans hhead)
    omega
  rw [Function.update_of_ne hne]
  exact h.slots i hle hlt

theorem Code.Ok.next_mod (hc : c.Ok) (n : ℕ) : c.next (n % c.size) = (n + 1) % c.size := by
  rw [hc.next _ (Nat.mod_lt n hc.size), Nat.mod_add_mod]

theorem Core.next_eq_tail (hc : c.Ok) (h : Core c s) :
    c.next (s.pushed.length % c.size) = s.ring.tail ↔
      s.pushed.length + 1 = s.popped.length + c.size := by
  have hle := h.popped.length_le
  have hroom := h.room
  rw [hc.next_mod, h.tail]
  constructor
  · intro hmod
    by_contra hne
    have hsame := eq_of_mod_eq (by omega) (by omega) hmod.symm
    omega
  · intro heq
    rw [heq, Nat.add_mod_right]

theorem Core.tail_eq_head (h : Core c s) :
    s.popped.length % c.size = s.ring.head ↔ s.pushed.length = s.popped.length := by
  rw [h.head]
  constructor
  · exact fun hmod => (eq_of_mod_eq h.popped.length_le h.room hmod).symm
  · exact fun heq => by rw [heq]

theorem returned {rs : List Return} {r : Return} (h : ∀ r ∈ rs, r.code = -1 → r.seen = true)
    (hr : r.code = -1 → r.seen = true) : ∀ r' ∈ rs ++ [r], r'.code = -1 → r'.seen = true := by
  intro r' hmem
  rw [List.mem_append, List.mem_singleton] at hmem
  rcases hmem with hmem | rfl
  · exact h r' hmem
  · exact hr

theorem succeeded_failed {rs : List Return} {r : Return} (hr : r.code = -1) :
    succeeded (rs ++ [r]) = succeeded rs := by
  simp [succeeded, hr]

theorem succeeded_append {rs : List Return} {r : Return} (hr : r.code ≠ -1) :
    succeeded (rs ++ [r]) = succeeded rs + 1 := by
  simp [succeeded, hr]

theorem Core.publish (hc : c.Ok) (h : Core c s) {x : α} {head tail : ℕ}
    (hp : s.push = .written x head tail) :
    Core c { s with
      ring := { s.ring with head := c.next head }
      push := .idle
      pushed := s.pushed ++ [x]
      pushes := s.pushes ++ [⟨c.found head tail, s.full⟩] } := by
  have hpush := h.push
  rw [hp] at hpush
  obtain ⟨hhead, hitem, hroom⟩ := hpush
  have hlen : (s.pushed ++ [x]).length = s.pushed.length + 1 := List.length_append
  refine { h with
    head := ?_
    popped := h.popped.trans (List.prefix_append ..)
    room := by
      dsimp only
      omega
    slots := ?_
    push := trivial
    pop := h.pop.push x
    pushes := returned h.pushes fun hcode => absurd hcode (hc.found head tail)
    accepted := by
      dsimp only
      rw [succeeded_append (hc.found head tail), h.accepted, hlen] }
  · rw [hlen, hhead]
    exact hc.next_mod _
  · intro i hle hlt
    by_cases hi : i < s.pushed.length
    · rw [List.getElem?_append_left hi]
      exact h.slots i hle hi
    · have hlast : i = s.pushed.length := by
        dsimp only at hlt
        omega
      rw [hlast, List.getElem?_concat_length, ← hhead, hitem]

theorem Inv.producer (hc : c.Ok) (h : Inv c s) (hs : pushStep c s = some s') : Core c s' := by
  have hcore := h.toCore
  have hpush := h.push
  unfold pushStep at hs
  cases hp : s.push with
  | idle => simp [hp] at hs
  | start x head =>
    simp only [hp, Option.some.injEq] at hs hpush
    subst hs
    have hfull := h.full (by simp [hp])
    have hnext := hcore.next_eq_tail hc
    have hroom := h.room
    rw [PushOk] at hpush
    refine { hcore with push := ⟨hpush, ?_, ?_⟩ }
    · rw [hpush]
      exact fun heq => hfull (hnext.mp heq)
    · rw [hpush]
      intro hne
      have hnot := mt hnext.mpr hne
      dsimp only
      omega
  | loaded x head tail =>
    simp only [hp] at hs hpush
    obtain ⟨hhead, hfull, hroom⟩ := hpush
    split at hs
    · next hnext =>
      cases hs
      exact { hcore with
        push := trivial
        pushes := returned h.pushes fun _ => hfull hnext
        accepted := (succeeded_failed rfl).trans h.accepted }
    · next hnext =>
      cases hs
      refine { hcore with push := ⟨hhead, ?_, hroom hnext⟩ }
      rw [h.head, ← hhead, hc.again]
  | indexed x head tail i =>
    simp only [hp, Option.some.injEq] at hs hpush
    subst hs
    obtain ⟨hhead, rfl, hroom⟩ := hpush
    refine { hcore with
      slots := fun i => hcore.write hhead x
      push := ⟨hhead, Function.update_self .., hroom⟩ }
  | written x head tail =>
    simp only [hp, Option.some.injEq] at hs
    subst hs
    exact hcore.publish hc hp

theorem Core.release (hc : c.Ok) (h : Core c s) {x : α} {i : ℕ} (hp : s.pop = .indexedAgain i x) :
    Core c { s with
      ring := { s.ring with tail := c.next i }
      pop := .idle
      popped := s.popped ++ [x]
      pops := s.pops ++ [⟨0, s.empty⟩] } := by
  have hpop := h.pop
  rw [hp] at hpop
  obtain ⟨htail, hitem⟩ := hpop
  have hlen : (s.popped ++ [x]).length = s.popped.length + 1 := List.length_append
  have hroom := h.room
  refine { h with
    tail := ?_
    popped := ?_
    room := by
      dsimp only
      omega
    slots := fun i hle hlt => h.slots i (by dsimp only at hle; omega) hlt
    push := h.push.mono (hlen ▸ Nat.le_succ _) id
    pop := trivial
    pops := returned h.pops fun hcode => by simp at hcode
    taken := by
      dsimp only
      rw [succeeded_append (by simp), h.taken, hlen] }
  · rw [hlen, htail]
    exact hc.next_mod _
  · obtain ⟨rest, hrest⟩ := h.popped
    rw [← hrest, List.getElem?_append_right (Nat.le_refl _), Nat.sub_self] at hitem
    cases rest with
    | nil => simp at hitem
    | cons y rest =>
      simp only [List.getElem?_cons_zero, Option.some.injEq] at hitem
      exact ⟨rest, by rw [← hrest, ← hitem, List.append_assoc, List.singleton_append]⟩

theorem Inv.consumer (hc : c.Ok) (h : Inv c s) (hs : popStep c s = some s') : Core c s' := by
  have hcore := h.toCore
  have hpop := h.pop
  unfold popStep at hs
  cases hp : s.pop with
  | idle => simp [hp] at hs
  | start tail =>
    simp only [hp, Option.some.injEq] at hs hpop
    subst hs
    have hempty := h.empty (by simp [hp])
    have hsame := hcore.tail_eq_head
    have hle := h.popped.length_le
    rw [PopOk] at hpop
    refine { hcore with pop := ⟨hpop, ?_, ?_⟩ }
    · rw [hpop]
      exact fun heq => hempty (hsame.mp heq)
    · rw [hpop]
      intro hne
      have hnot := mt hsame.mpr hne
      dsimp only
      omega
  | loaded tail head =>
    simp only [hp] at hs hpop
    obtain ⟨htail, hempty, hmore⟩ := hpop
    split at hs
    · next heq =>
      cases hs
      exact { hcore with
        pop := trivial
        pops := returned h.pops fun _ => hempty heq
        taken := (succeeded_failed rfl).trans h.taken }
    · next hne =>
      cases hs
      refine { hcore with pop := ⟨htail, ?_, hmore hne⟩ }
      rw [h.tail, ← htail, hc.again]
  | indexed tail i =>
    simp only [hp, Option.some.injEq] at hs hpop
    subst hs
    obtain ⟨htail, rfl, hlt⟩ := hpop
    refine { hcore with pop := ⟨htail, ?_⟩ }
    rw [htail]
    exact h.slots _ (Nat.le_refl _) hlt
  | taken tail x =>
    simp only [hp, Option.some.injEq] at hs hpop
    subst hs
    obtain ⟨htail, hitem⟩ := hpop
    refine { hcore with pop := ⟨?_, hitem⟩ }
    rw [h.tail, ← htail, hc.again]
  | indexedAgain i x =>
    simp only [hp, Option.some.injEq] at hs
    subst hs
    exact hcore.release hc hp

theorem Inv.step (hc : c.Ok) (h : Inv c s) {l : Label α} (hs : step c s l = some s') :
    Inv c s' := by
  unfold SpscRing.step at hs
  cases l with
  | push x =>
    dsimp only at hs
    split at hs
    · cases hs
      exact (h.start_push x).observe
    · cases hs
  | producer =>
    obtain ⟨s1, hs1, rfl⟩ := Option.map_eq_some_iff.mp hs
    exact (h.producer hc hs1).observe
  | pop =>
    dsimp only at hs
    split at hs
    · cases hs
      exact h.start_pop.observe
    · cases hs
  | consumer =>
    obtain ⟨s1, hs1, rfl⟩ := Option.map_eq_some_iff.mp hs
    exact (h.consumer hc hs1).observe

/-! ### What the other party sees of a step -/

def Pop.SeenEmpty : Pop α → Prop
  | .loaded tail head => tail = head
  | _ => False

instance (p : Pop α) : Decidable p.SeenEmpty := by
  unfold Pop.SeenEmpty
  split <;> infer_instance

def Push.item : Push α → Option α
  | .idle => none
  | .start x _ => some x
  | .loaded x _ _ => some x
  | .indexed x _ _ _ => some x
  | .written x _ _ => some x

theorem step_push {x : α} (hs : step c s (.push x) = some s') :
    s.push = .idle ∧ s'.push.item = some x ∧ s'.ring = s.ring ∧ s'.pop = s.pop ∧
      s'.pushed = s.pushed := by
  unfold step at hs
  dsimp only at hs
  split at hs
  · next hp =>
    cases hs
    exact ⟨hp, rfl, rfl, rfl, rfl⟩
  · cases hs

theorem step_pop (hs : step c s .pop = some s') :
    s'.ring = s.ring ∧ s'.push = s.push ∧ s'.pushed = s.pushed ∧ s'.pop = .start s.ring.tail := by
  unfold step at hs
  dsimp only at hs
  split at hs
  · cases hs
    exact ⟨rfl, rfl, rfl, rfl⟩
  · cases hs

theorem step_producer (hs : step c s .producer = some s') :
    s.push ≠ .idle ∧ s'.pop = s.pop ∧
      ((s'.ring.head = s.ring.head ∧ s'.ring.tail = s.ring.tail ∧ s'.pushed = s.pushed ∧
          (s'.push = .idle ∨ s'.push.item = s.push.item) ∧
          ∀ x head tail, s.push ≠ .written x head tail) ∨
        ∃ x head tail, s.push = .written x head tail ∧ s'.push = .idle ∧
          s'.pushed = s.pushed ++ [x]) := by
  obtain ⟨s1, hs1, rfl⟩ := Option.map_eq_some_iff.mp hs
  unfold pushStep at hs1
  cases hp : s.push with
  | idle => simp [hp] at hs1
  | start x head =>
    simp only [hp, Option.some.injEq] at hs1
    subst hs1
    exact ⟨by simp, rfl, .inl ⟨rfl, rfl, rfl, .inr rfl, by simp⟩⟩
  | loaded x head tail =>
    simp only [hp] at hs1
    split at hs1
    · cases hs1
      exact ⟨by simp, rfl, .inl ⟨rfl, rfl, rfl, .inl rfl, by simp⟩⟩
    · cases hs1
      exact ⟨by simp, rfl, .inl ⟨rfl, rfl, rfl, .inr rfl, by simp⟩⟩
  | indexed x head tail i =>
    simp only [hp, Option.some.injEq] at hs1
    subst hs1
    exact ⟨by simp, rfl, .inl ⟨rfl, rfl, rfl, .inr rfl, by simp⟩⟩
  | written x head tail =>
    simp only [hp, Option.some.injEq] at hs1
    subst hs1
    exact ⟨by simp, rfl, .inr ⟨x, head, tail, rfl, rfl, rfl⟩⟩

theorem step_consumer (hs : step c s .consumer = some s') :
    s'.push = s.push ∧ s'.pushed = s.pushed := by
  obtain ⟨s1, hs1, rfl⟩ := Option.map_eq_some_iff.mp hs
  unfold popStep at hs1
  dsimp only [observe]
  split at hs1
  · cases hs1
  · cases hs1
    exact ⟨rfl, rfl⟩
  · split at hs1 <;> cases hs1 <;> exact ⟨rfl, rfl⟩
  · cases hs1
    exact ⟨rfl, rfl⟩
  · cases hs1
    exact ⟨rfl, rfl⟩
  · cases hs1
    exact ⟨rfl, rfl⟩

theorem step_consumer_seenEmpty (hs : step c s .consumer = some s') (he : s.pop.SeenEmpty) :
    s'.pop = .idle ∧ s'.ring = s.ring := by
  obtain ⟨s1, hs1, rfl⟩ := Option.map_eq_some_iff.mp hs
  unfold popStep at hs1
  cases hp : s.pop with
  | loaded tail head =>
    rw [hp] at he
    simp only [hp, if_pos (show tail = head from he), Option.some.injEq] at hs1
    subst hs1
    exact ⟨rfl, rfl⟩
  | _ =>
    rw [hp] at he
    exact absurd he id

theorem Inv.step_consumer_holds (h : Inv c s) (hs : SpscRing.step c s .consumer = some s')
    (he : ¬ s.pop.SeenEmpty) (hne : s'.ring.head ≠ s'.ring.tail) :
    s.ring.head ≠ s.ring.tail ∧ ¬ s'.pop.SeenEmpty := by
  have hpop := h.pop
  have htail := h.tail
  have hsame := h.toCore.tail_eq_head
  obtain ⟨s1, hs1, rfl⟩ := Option.map_eq_some_iff.mp hs
  unfold popStep at hs1
  cases hp : s.pop with
  | idle => simp [hp] at hs1
  | start tail =>
    simp only [hp, Option.some.injEq] at hs1 hpop
    subst hs1
    refine ⟨hne, fun hseen => hne ?_⟩
    exact ((htail.trans hpop.symm).trans hseen).symm
  | loaded tail head =>
    rw [hp] at he
    simp only [hp, if_neg (show tail ≠ head from he), Option.some.injEq] at hs1
    subst hs1
    exact ⟨hne, id⟩
  | indexed tail i =>
    simp only [hp, Option.some.injEq] at hs1
    subst hs1
    exact ⟨hne, id⟩
  | taken tail x =>
    simp only [hp, Option.some.injEq] at hs1
    subst hs1
    exact ⟨hne, id⟩
  | indexedAgain i x =>
    simp only [hp, Option.some.injEq] at hs1 hpop
    subst hs1
    obtain ⟨hlt, -⟩ := List.getElem?_eq_some_iff.mp hpop.2
    refine ⟨fun heq => ?_, id⟩
    have hlen := hsame.mp (htail.symm.trans heq.symm)
    omega

/-! ### The consumer on its own -/

def Label.OfConsumer : Label α → Prop
  | .pop => True
  | .consumer => True
  | _ => False

theorem step_with {l : Label α} (hl : l.OfConsumer) (p : Push α) :
    step c { s with push := p } l = (step c s l).map fun s' => { s' with push := p } := by
  cases l with
  | push x => exact absurd hl id
  | producer => exact absurd hl id
  | pop =>
    unfold step
    cases s.pop <;> rfl
  | consumer =>
    unfold step popStep
    cases s.pop with
    | loaded tail head =>
      dsimp only
      split <;> rfl
    | _ => rfl

theorem run_with {ls : List (Label α)} (hls : ∀ l ∈ ls, l.OfConsumer) (p : Push α) :
    Runs.run (step c) { s with push := p } ls =
      (Runs.run (step c) s ls).map fun s' => { s' with push := p } := by
  induction ls generalizing s with
  | nil => rfl
  | cons l ls ih =>
    simp only [Runs.run, step_with (hls l (List.mem_cons_self ..)) p]
    cases step c s l with
    | none => rfl
    | some s1 => exact ih fun l hl => hls l (List.mem_cons_of_mem _ hl)

/-- From `s` the consumer alone gets to `s'`. -/
def Consumes (c : Code) (s s' : State α) : Prop :=
  ∃ ls : List (Label α), (∀ l ∈ ls, l.OfConsumer) ∧ Runs.run (step c) s ls = some s'

theorem Consumes.refl (s : State α) : Consumes c s s := ⟨[], by simp, rfl⟩

theorem Consumes.head {l : Label α} {s1 : State α} (hl : l.OfConsumer) (hs : step c s l = some s1)
    (h : Consumes c s1 s') : Consumes c s s' := by
  obtain ⟨ls, hls, hrun⟩ := h
  refine ⟨l :: ls, ?_, ?_⟩
  · intro l' hmem
    rcases List.mem_cons.mp hmem with rfl | hmem
    · exact hl
    · exact hls l' hmem
  · simp only [Runs.run, hs]
    exact hrun

def Pop.rank : Pop α → ℕ
  | .idle => 0
  | .start _ => 1
  | .loaded _ _ => 2
  | .indexed _ _ => 3
  | .taken _ _ => 4
  | .indexedAgain _ _ => 5

theorem consumer_advances (hp : s.pop ≠ .idle) : ∃ s', step c s .consumer = some s' ∧
    s'.pushed = s.pushed ∧
      ((s'.pop.rank = s.pop.rank + 1 ∧ s'.popped = s.popped) ∨
        (s'.pop = .idle ∧ s'.popped.length = s.popped.length + 1) ∨
        (s'.pop = .idle ∧ s'.popped = s.popped ∧ s.pop.SeenEmpty)) := by
  unfold step popStep
  cases hpop : s.pop with
  | idle => exact absurd hpop hp
  | loaded tail head =>
    dsimp only
    split
    · next heq => exact ⟨_, rfl, rfl, .inr (.inr ⟨rfl, rfl, heq⟩)⟩
    · exact ⟨_, rfl, rfl, .inl ⟨rfl, rfl⟩⟩
  | indexedAgain i x => exact ⟨_, rfl, rfl, .inr (.inl ⟨rfl, List.length_append⟩)⟩
  | _ => exact ⟨_, rfl, rfl, .inl ⟨rfl, rfl⟩⟩

/-- The accesses until the next item is popped: a pop that will fail is followed by another. -/
def Pop.left (p : Pop α) : ℕ := (if p.SeenEmpty then 7 else 0) + (6 - p.rank)

theorem Pop.left_of_not_seenEmpty {p : Pop α} (h : ¬ p.SeenEmpty) : p.left = 6 - p.rank := by
  simp [Pop.left, h]

theorem Pop.left_idle : (Pop.idle : Pop α).left = 6 := left_of_not_seenEmpty id

theorem Pop.left_start (tail : ℕ) : (Pop.start tail : Pop α).left = 5 := left_of_not_seenEmpty id

theorem Core.head_ne_tail (h : Core c s) :
    s.ring.head ≠ s.ring.tail ↔ s.popped.length < s.pushed.length := by
  have hle := h.popped.length_le
  have hsame := h.tail_eq_head
  rw [← h.tail] at hsame
  rw [ne_comm, Ne, hsame]
  omega

theorem Inv.drains (hc : c.Ok) (h : Inv c s) :
    ∃ s', Consumes c s s' ∧ s'.pushed = s.pushed ∧ s'.popped = s.pushed := by
  obtain ⟨n, hn⟩ : ∃ n, 14 * (s.pushed.length - s.popped.length) + s.pop.left = n := ⟨_, rfl⟩
  induction n using Nat.strongRecOn generalizing s with
  | ind n ih =>
    have hle := h.popped.length_le
    by_cases hdone : s.pushed.length = s.popped.length
    · exact ⟨s, .refl s, rfl, h.popped.eq_of_length hdone.symm⟩
    · -- one access, and the rest by induction
      have hnext {l : Label α} {s1 : State α} (hl : l.OfConsumer)
          (hs : SpscRing.step c s l = some s1) (hpushed : s1.pushed = s.pushed)
          (hless : 14 * (s1.pushed.length - s1.popped.length) + s1.pop.left < n) :
          ∃ s', Consumes c s s' ∧ s'.pushed = s.pushed ∧ s'.popped = s.pushed := by
        obtain ⟨s', hrun, hp, hq⟩ := ih _ hless (h.step hc hs) rfl
        exact ⟨s', hrun.head hl hs, hp.trans hpushed, hq.trans hpushed⟩
      by_cases hidle : s.pop = .idle
      · have hs : SpscRing.step c s .pop =
            some (SpscRing.observe c { s with pop := .start s.ring.tail, empty := false }) := by
          simp only [SpscRing.step, hidle]
        refine hnext (l := .pop) trivial hs rfl ?_
        rw [hidle, Pop.left_idle] at hn
        simp only [SpscRing.observe, Pop.left_start]
        omega
      · obtain ⟨s1, hs, hpushed, hcase⟩ := consumer_advances (c := c) hidle
        refine hnext (l := .consumer) trivial hs hpushed ?_
        rw [hpushed]
        rcases hcase with ⟨hrank, hpopped⟩ | ⟨hend, hpopped⟩ | ⟨hend, hpopped, hseen⟩
        · have hnot : ¬ s.pop.SeenEmpty := by
            intro hseen
            rw [(step_consumer_seenEmpty hs hseen).1, Pop.rank] at hrank
            omega
          have hne := (h.step hc hs).toCore.head_ne_tail.mpr (by rw [hpushed, hpopped]; omega)
          have hnot' := (h.step_consumer_holds hs hnot hne).2
          rw [Pop.left_of_not_seenEmpty hnot] at hn
          rw [Pop.left_of_not_seenEmpty hnot', hpopped]
          have hrank6 : s1.pop.rank ≤ 5 := by cases s1.pop <;> simp [Pop.rank]
          omega
        · rw [hend, hpopped, Pop.left_idle]
          omega
        · have hrank : s.pop.rank ≤ 5 := by cases s.pop <;> simp [Pop.rank]
          rw [Pop.left, if_pos hseen] at hn
          rw [hend, hpopped, Pop.left_idle]
          omega

theorem inv_init (hc : c.Ok) (h : Init s) : Inv c s where
  head := by simp [h.head, h.pushed]
  tail := by simp [h.tail, h.popped]
  popped := by simp [h.popped]
  room := by simpa [h.pushed, h.popped] using hc.size
  slots := by simp [h.pushed]
  push := by simp [h.push, PushOk]
  pop := by simp [h.pop, PopOk]
  pushes := by simp [h.pushes]
  pops := by simp [h.pops]
  accepted := by simp [h.pushes, h.pushed, succeeded]
  taken := by simp [h.pops, h.popped, succeeded]
  full := fun hne => absurd h.push hne
  empty := fun hne => absurd h.pop hne

theorem fifo (hc : c.Ok) (h : Runs.Reach Init (step c) Runs.Any s) : Fifo c s := by
  have hinv : Inv c s := h.invariant (fun s h0 => inv_init hc h0)
    fun s s' l hinv _ hs => hinv.step hc hs
  exact hinv.fifo

end SpscRing
