import HyperDerp.Lib.FrontScan
import HyperDerp.Lib.Runs
import HyperDerp.Lib.SlotCount

/-!
# TURN allocations (`turn.h`, `turn.cc`)

A table of allocations with relay ports handed out by a counter that wraps in
the ephemeral range. The counter does not look at the ports in use.
-/

namespace HyperDerp

def kTurnDefaultLifetime : ℤ := 600
def kTurnMaxLifetime : ℤ := 3600
def kTurnMaxAllocations : ℕ := 10000
def kTurnMaxPermissions : ℕ := 64
def kTurnMaxChannels : ℕ := 64
def kTurnFirstPort : ℕ := 49152

structure TurnPermission where
  peerIp : ℕ := 0
  expiresAt : ℕ := 0
  occupied : Bool := false

structure TurnChannel where
  number : ℕ := 0
  peerIp : ℕ := 0
  peerPort : ℕ := 0
  expiresAt : ℕ := 0
  occupied : Bool := false

structure TurnAllocation where
  id : ℕ := 0
  clientIp : ℕ := 0
  clientPort : ℕ := 0
  relayIp : ℕ := 0
  relayPort : ℕ := 0
  expiresAt : ℕ := 0
  occupied : Bool := false
  permissions : Fin kTurnMaxPermissions → TurnPermission := fun _ => {}
  channels : Fin kTurnMaxChannels → TurnChannel := fun _ => {}

structure TurnManager where
  allocs : Fin kTurnMaxAllocations → TurnAllocation := fun _ => {}
  allocCount : ℤ := 0
  nextId : ℕ := 1
  nextPort : ℕ := kTurnFirstPort
  relayIp : ℕ := 0

namespace TurnManager

/-- `now + lifetime * 1000000000ULL`, with a negative lifetime cast to 64 bits. -/
def expiry (now : ℕ) (lifetime : ℤ) : ℕ := ((now + lifetime * 1000000000) % 2 ^ 64).toNat

def clampLifetime (lifetime : ℤ) : ℤ :=
  if kTurnMaxLifetime < lifetime then kTurnMaxLifetime else lifetime

def turnAllocate (mgr : TurnManager) (now clientIp clientPort : ℕ) (lifetime : ℤ) :
    Option (Fin kTurnMaxAllocations) × TurnManager :=
  let lifetime := if lifetime ≤ 0 then kTurnDefaultLifetime else lifetime
  if (kTurnMaxAllocations : ℤ) ≤ mgr.allocCount then (none, mgr)
  else
    match FrontScan.first mgr.allocs fun a => !a.occupied with
    | none => (none, mgr)
    | some i =>
      let next := (mgr.nextPort + 1) % 2 ^ 16
      (some i, { mgr with
        allocs := Function.update mgr.allocs i { mgr.allocs i with
          id := mgr.nextId
          clientIp := clientIp
          clientPort := clientPort
          relayIp := mgr.relayIp
          relayPort := mgr.nextPort
          expiresAt := expiry now (clampLifetime lifetime)
          occupied := true }
        nextId := (mgr.nextId + 1) % 2 ^ 32
        nextPort := if next = 0 then kTurnFirstPort else next
        allocCount := mgr.allocCount + 1 })

def findId (mgr : TurnManager) (allocId : ℕ) : Option (Fin kTurnMaxAllocations) :=
  FrontScan.first mgr.allocs fun a => a.occupied && decide (a.id = allocId)

/-- `ClearAllocation` and the count. -/
def release (mgr : TurnManager) (i : Fin kTurnMaxAllocations) : TurnManager :=
  { mgr with
    allocs := Function.update mgr.allocs i {}
    allocCount := mgr.allocCount - 1 }

def turnRefresh (mgr : TurnManager) (now allocId : ℕ) (lifetime : ℤ) : Bool × TurnManager :=
  match mgr.findId allocId with
  | none => (false, mgr)
  | some i =>
    if lifetime = 0 then (true, mgr.release i)
    else
      (true, { mgr with
        allocs := Function.update mgr.allocs i
          { mgr.allocs i with expiresAt := expiry now (clampLifetime lifetime) } })

def turnDeallocate (mgr : TurnManager) (allocId : ℕ) : TurnManager :=
  match mgr.findId allocId with
  | none => mgr
  | some i => mgr.release i

def expirePermission (now : ℕ) (p : TurnPermission) : TurnPermission :=
  if p.occupied && decide (p.expiresAt ≤ now) then {} else p

def expireChannel (now : ℕ) (c : TurnChannel) : TurnChannel :=
  if c.occupied && decide (c.expiresAt ≤ now) then {} else c

def expiredEntries (now : ℕ) (a : TurnAllocation) : ℕ :=
  SlotCount.count a.permissions (fun p => p.occupied && decide (p.expiresAt ≤ now)) +
    SlotCount.count a.channels fun c => c.occupied && decide (c.expiresAt ≤ now)

/-- One turn of the loop in `TurnExpire`, with the number of entries expired so far. -/
def expireSlot (now : ℕ) (r : ℕ × TurnManager) (i : Fin kTurnMaxAllocations) : ℕ × TurnManager :=
  let a := r.2.allocs i
  if !a.occupied then r
  else if a.expiresAt ≤ now then (r.1 + 1, r.2.release i)
  else
    (r.1 + expiredEntries now a, { r.2 with
      allocs := Function.update r.2.allocs i { a with
        permissions := fun j => expirePermission now (a.permissions j)
        channels := fun j => expireChannel now (a.channels j) } })

def turnExpire (mgr : TurnManager) (now : ℕ) : ℕ × TurnManager :=
  (List.finRange kTurnMaxAllocations).foldl (expireSlot now) (0, mgr)

/-! ### The invariant -/

variable {mgr mgr' : TurnManager} {i j : Fin kTurnMaxAllocations}

def Live (mgr : TurnManager) (i : Fin kTurnMaxAllocations) : Prop :=
  (mgr.allocs i).occupied = true

def liveCount (mgr : TurnManager) : ℕ := SlotCount.count mgr.allocs TurnAllocation.occupied

/-- The live allocations have ids and ports of their own, and are counted. -/
structure Allotted (mgr : TurnManager) : Prop where
  id : ∀ i j, mgr.Live i → mgr.Live j → (mgr.allocs i).id = (mgr.allocs j).id → i = j
  port : ∀ i j, mgr.Live i → mgr.Live j → (mgr.allocs i).relayPort = (mgr.allocs j).relayPort →
    i = j
  range : ∀ i, mgr.Live i → kTurnFirstPort ≤ (mgr.allocs i).relayPort ∧
    (mgr.allocs i).relayPort ≤ 65535
  count : mgr.allocCount = mgr.liveCount

/-- And an allocation is refused only when the table is full. -/
structure Unambiguous (mgr : TurnManager) : Prop extends Allotted mgr where
  full : ∀ now clientIp clientPort lifetime,
    (mgr.turnAllocate now clientIp clientPort lifetime).1 = none →
      mgr.liveCount = kTurnMaxAllocations

structure Inv (mgr : TurnManager) : Prop extends Allotted mgr where
  next : kTurnFirstPort ≤ mgr.nextPort ∧ mgr.nextPort ≤ 65535

theorem Inv.unambiguous (h : mgr.Inv) : mgr.Unambiguous := by
  refine ⟨h.toAllotted, fun now ip port lifetime hnone => ?_⟩
  have hle : mgr.liveCount ≤ kTurnMaxAllocations := by
    have hcard := SlotCount.count_le mgr.allocs TurnAllocation.occupied
    rwa [Fintype.card_fin] at hcard
  unfold turnAllocate at hnone
  dsimp only at hnone
  split at hnone
  · next hfull =>
    rw [h.count] at hfull
    omega
  · split at hnone
    · next hscan =>
      rw [FrontScan.first_none] at hscan
      have hall : ∀ i, (mgr.allocs i).occupied = true := fun i => by simpa using hscan i
      rw [liveCount, SlotCount.count_of_all hall, Fintype.card_fin]
    · cases hnone

theorem Inv.keep (h : mgr.Inv) {a : TurnAllocation} (hocc : a.occupied = (mgr.allocs i).occupied)
    (hid : a.id = (mgr.allocs i).id) (hport : a.relayPort = (mgr.allocs i).relayPort) :
    Inv { mgr with allocs := Function.update mgr.allocs i a } := by
  have hproj : ∀ {A : Type} (f : TurnAllocation → A), f a = f (mgr.allocs i) →
      ∀ j, f (Function.update mgr.allocs i a j) = f (mgr.allocs j) := by
    intro A f hf j
    by_cases hj : j = i
    · rw [hj, Function.update_self, hf]
    · rw [Function.update_of_ne hj]
  have hl := hproj TurnAllocation.occupied hocc
  have hi := hproj TurnAllocation.id hid
  have hp := hproj TurnAllocation.relayPort hport
  refine ⟨⟨fun j k => ?_, fun j k => ?_, fun j => ?_, ?_⟩, h.next⟩
  · unfold Live
    dsimp only
    rw [hl, hl, hi, hi]
    exact h.id j k
  · unfold Live
    dsimp only
    rw [hl, hl, hp, hp]
    exact h.port j k
  · unfold Live
    dsimp only
    rw [hl, hp]
    exact h.range j
  · unfold liveCount
    dsimp only
    rw [SlotCount.count_update_same hocc]
    exact h.count

theorem Inv.release (h : mgr.Inv) (hi : mgr.Live i) : (mgr.release i).Inv := by
  have hlive : ∀ j, (mgr.release i).Live j → j ≠ i ∧ mgr.Live j := by
    intro j hj
    unfold Live TurnManager.release at hj
    dsimp only at hj
    by_cases hji : j = i
    · rw [hji, Function.update_self] at hj
      cases hj
    · rw [Function.update_of_ne hji] at hj
      exact ⟨hji, hj⟩
  have hsame : ∀ j, j ≠ i → (mgr.release i).allocs j = mgr.allocs j := fun j hj =>
    Function.update_of_ne hj ..
  refine ⟨⟨fun j k hj hk => ?_, fun j k hj hk => ?_, fun j hj => ?_, ?_⟩, h.next⟩
  · obtain ⟨hji, hj⟩ := hlive j hj
    obtain ⟨hki, hk⟩ := hlive k hk
    rw [hsame j hji, hsame k hki]
    exact h.id j k hj hk
  · obtain ⟨hji, hj⟩ := hlive j hj
    obtain ⟨hki, hk⟩ := hlive k hk
    rw [hsame j hji, hsame k hki]
    exact h.port j k hj hk
  · obtain ⟨hji, hj⟩ := hlive j hj
    rw [hsame j hji]
    exact h.range j hj
  · have hcount := h.count
    have hoff := SlotCount.count_update_off (x := ({} : TurnAllocation)) hi rfl
    unfold liveCount at hcount ⊢
    unfold TurnManager.release
    dsimp only
    omega

theorem findId_live {allocId : ℕ} (h : mgr.findId allocId = some i) : mgr.Live i := by
  have hi := FrontScan.first_some h
  rw [Bool.and_eq_true] at hi
  exact hi.1

theorem Inv.refresh (h : mgr.Inv) (now allocId : ℕ) (lifetime : ℤ) :
    (mgr.turnRefresh now allocId lifetime).2.Inv := by
  unfold turnRefresh
  split
  · exact h
  · next i hi =>
    split
    · exact h.release (findId_live hi)
    · exact h.keep rfl rfl rfl

theorem Inv.deallocate (h : mgr.Inv) (allocId : ℕ) : (mgr.turnDeallocate allocId).Inv := by
  unfold turnDeallocate
  split
  · exact h
  · next i hi => exact h.release (findId_live hi)

theorem Inv.expireSlot {r : ℕ × TurnManager} (h : r.2.Inv) (now : ℕ) (i : Fin kTurnMaxAllocations) :
    (TurnManager.expireSlot now r i).2.Inv := by
  unfold TurnManager.expireSlot
  dsimp only
  split
  · exact h
  · next hocc =>
    rw [Bool.not_eq_true, Bool.not_eq_false'] at hocc
    split
    · exact h.release hocc
    · exact h.keep rfl rfl rfl

theorem Inv.expire (h : mgr.Inv) (now : ℕ) : (mgr.turnExpire now).2.Inv := by
  have hrun : ∀ (is : List (Fin kTurnMaxAllocations)) (r : ℕ × TurnManager), r.2.Inv →
      (is.foldl (TurnManager.expireSlot now) r).2.Inv := by
    intro is
    induction is with
    | nil => exact fun r hr => hr
    | cons i is ih => exact fun r hr => ih _ (hr.expireSlot now i)
  exact hrun _ _ h

/-- No live allocation has the port or the id that the counters are at. -/
def NextUnused (mgr : TurnManager) : Prop :=
  ∀ i, mgr.Live i → (mgr.allocs i).relayPort ≠ mgr.nextPort ∧ (mgr.allocs i).id ≠ mgr.nextId

theorem distinct_insert (f : TurnAllocation → ℕ) (i : Fin kTurnMaxAllocations) {a : TurnAllocation}
    (hd : ∀ j k, mgr.Live j → mgr.Live k → f (mgr.allocs j) = f (mgr.allocs k) → j = k)
    (hnew : ∀ j, mgr.Live j → f (mgr.allocs j) ≠ f a) (j k : Fin kTurnMaxAllocations) :
    (Function.update mgr.allocs i a j).occupied = true →
      (Function.update mgr.allocs i a k).occupied = true →
      f (Function.update mgr.allocs i a j) = f (Function.update mgr.allocs i a k) → j = k := by
  by_cases hj : j = i <;> by_cases hk : k = i
  · exact fun _ _ _ => hj.trans hk.symm
  · rw [hj, Function.update_self, Function.update_of_ne hk]
    exact fun _ hl he => absurd he.symm (hnew k hl)
  · rw [hk, Function.update_self, Function.update_of_ne hj]
    exact fun hl _ he => absurd he (hnew j hl)
  · rw [Function.update_of_ne hj, Function.update_of_ne hk]
    exact hd j k

theorem Inv.allocate (h : mgr.Inv) (hroom : mgr.allocCount < kTurnMaxAllocations → mgr.NextUnused)
    (now clientIp clientPort : ℕ) (lifetime : ℤ) :
    (mgr.turnAllocate now clientIp clientPort lifetime).2.Inv := by
  unfold turnAllocate
  dsimp only
  generalize clampLifetime (if lifetime ≤ 0 then kTurnDefaultLifetime else lifetime) = seconds
  split
  · exact h
  · next hfull =>
    have hnext := hroom (not_le.mp hfull)
    split
    · exact h
    · next i hi =>
      have hfree := FrontScan.first_some hi
      rw [Bool.not_eq_true'] at hfree
      generalize ha : ({ mgr.allocs i with
        id := mgr.nextId
        clientIp := clientIp
        clientPort := clientPort
        relayIp := mgr.relayIp
        relayPort := mgr.nextPort
        expiresAt := expiry now seconds
        occupied := true } : TurnAllocation) = a
      have hocc : a.occupied = true := by rw [← ha]
      have hid : a.id = mgr.nextId := by rw [← ha]
      have hport : a.relayPort = mgr.nextPort := by rw [← ha]
      refine ⟨⟨?_, ?_, fun j => ?_, ?_⟩, ?_⟩
      · apply distinct_insert TurnAllocation.id i h.id
        intro j hj
        rw [hid]
        exact (hnext j hj).2
      · apply distinct_insert TurnAllocation.relayPort i h.port
        intro j hj
        rw [hport]
        exact (hnext j hj).1
      · unfold Live
        dsimp only
        by_cases hj : j = i
        · rw [hj, Function.update_self, hport]
          exact fun _ => h.next
        · rw [Function.update_of_ne hj]
          exact h.range j
      · have hcount := h.count
        have hon := SlotCount.count_update_on hfree hocc
        unfold liveCount at hcount ⊢
        dsimp only
        rw [hon, hcount]
        rfl
      · have hn := h.next
        unfold kTurnFirstPort at hn ⊢
        dsimp only
        split <;> omega

/-! ### Runs -/

inductive Op where
  | allocate (clientIp clientPort : ℕ) (lifetime : ℤ)
  | refresh (allocId : ℕ) (lifetime : ℤ)
  | deallocate (allocId : ℕ)
  | expire

def left {A : Type} (r : A × TurnManager) : TurnManager := r.2

def apply (mgr : TurnManager) (now : ℕ) : Op → TurnManager
  | .allocate ip port lifetime => left (mgr.turnAllocate now ip port lifetime)
  | .refresh allocId lifetime => left (mgr.turnRefresh now allocId lifetime)
  | .deallocate allocId => mgr.turnDeallocate allocId
  | .expire => left (mgr.turnExpire now)

def step (s : ℕ × TurnManager) (l : ℕ × Op) : Option (ℕ × TurnManager) :=
  if s.1 ≤ l.1 then some (l.1, s.2.apply l.1 l.2) else none

/-- An allocation that the table has room for finds the counters at an unused port and id. -/
def opOk (mgr : TurnManager) : Op → Prop
  | .allocate .. => mgr.allocCount < kTurnMaxAllocations → mgr.NextUnused
  | _ => True

def stepOk (s : ℕ × TurnManager) (l : ℕ × Op) : Prop := s.2.opOk l.2

def Init (s : ℕ × TurnManager) : Prop := ∃ now relayIp, s = (now, { relayIp := relayIp })

theorem init_inv (relayIp : ℕ) : Inv { relayIp := relayIp } := by
  have hnot : ∀ i, ¬Live { relayIp := relayIp } i := fun i hi => Bool.false_ne_true hi
  refine ⟨⟨fun i j hi => absurd hi (hnot i), fun i j hi => absurd hi (hnot i),
    fun i hi => absurd hi (hnot i), ?_⟩, Nat.le_refl _, ?_⟩
  · unfold liveCount
    rw [SlotCount.count_of_none fun _ => rfl]
    rfl
  · change kTurnFirstPort ≤ 65535
    decide

theorem Inv.left {A : Type} {r : A × TurnManager} (h : r.2.Inv) : (TurnManager.left r).Inv := h

theorem Inv.apply (h : mgr.Inv) (now : ℕ) {op : Op} (hok : mgr.opOk op) :
    (mgr.apply now op).Inv := by
  cases op with
  | allocate ip port lifetime =>
    simp only [TurnManager.apply]
    exact Inv.left (h.allocate hok now ip port lifetime)
  | refresh allocId lifetime =>
    simp only [TurnManager.apply]
    exact Inv.left (h.refresh now allocId lifetime)
  | deallocate allocId =>
    simp only [TurnManager.apply]
    exact h.deallocate allocId
  | expire =>
    simp only [TurnManager.apply]
    exact Inv.left (h.expire now)

theorem step_some {s s' : ℕ × TurnManager} {l : ℕ × Op} (hs : step s l = some s') :
    s'.2 = s.2.apply l.1 l.2 := by
  unfold step at hs
  generalize s.2.apply l.1 l.2 = mgr at hs ⊢
  split at hs
  · rw [← Option.some.inj hs]
  · cases hs

theorem step_inv {s s' : ℕ × TurnManager} {l : ℕ × Op} (h : s.2.Inv) (hok : stepOk s l)
    (hs : step s l = some s') : s'.2.Inv := by
  rw [step_some hs]
  exact h.apply l.1 hok

theorem allocations_unambiguous {s : ℕ × TurnManager} (h : Runs.Reach Init step stepOk s) :
    s.2.Unambiguous := by
  have hinv : s.2.Inv := by
    apply Runs.Reach.invariant _ _ h
    · rintro _ ⟨now, relayIp, rfl⟩
      exact init_inv relayIp
    · exact fun s s' l ih hok hs => step_inv ih hok hs
  exact hinv.unambiguous

/-! ### One allocation among many short ones -/

def slotZero : Fin kTurnMaxAllocations := ⟨0, by decide⟩

def slotOne : Fin kTurnMaxAllocations := ⟨1, by decide⟩

/-- The record of the allocation made in a fresh slot at time 0 for the default lifetime. -/
def shortAllocation (id port : ℕ) : TurnAllocation where
  id := id
  clientIp := 1
  clientPort := 1
  relayPort := port
  expiresAt := expiry 0 (clampLifetime kTurnDefaultLifetime)
  occupied := true

/-- The first allocation is live, and `n` later ones have come and gone. -/
def churned (n : ℕ) : TurnManager where
  allocs := Function.update (fun _ => {}) slotZero (shortAllocation 1 kTurnFirstPort)
  allocCount := 1
  nextId := n + 2
  nextPort := kTurnFirstPort + (n + 1) % 16384

def churning (n : ℕ) : TurnManager where
  allocs := Function.update (churned n).allocs slotOne
    (shortAllocation (n + 2) (churned n).nextPort)
  allocCount := 2
  nextId := n + 3
  nextPort := kTurnFirstPort + (n + 2) % 16384

theorem churned_zero : (({} : TurnManager).turnAllocate 0 1 1 0).2 = churned 0 := by
  have hscan : FrontScan.first ({} : TurnManager).allocs (fun a => !a.occupied) =
      some slotZero := by
    apply FrontScan.first_eq_some rfl
    intro j hj
    exact absurd hj (Nat.not_lt_zero _)
  unfold turnAllocate
  dsimp only
  rw [hscan, if_neg (by decide)]
  rfl

theorem slotOne_churned (n : ℕ) : (churned n).allocs slotOne = {} := by
  have hne : slotOne ≠ slotZero := by decide
  unfold churned
  dsimp only
  rw [Function.update_of_ne hne]

theorem slotOne_first {mgr : TurnManager} {p : TurnAllocation → Bool}
    (hzero : p (mgr.allocs slotZero) = false) (hone : p (mgr.allocs slotOne) = true) :
    FrontScan.first mgr.allocs p = some slotOne := by
  apply FrontScan.first_eq_some hone
  intro j hj
  have hj0 : j = slotZero := Fin.ext (Nat.lt_one_iff.mp hj)
  rw [hj0, hzero]

theorem slotZero_churned (n : ℕ) :
    (churned n).allocs slotZero = shortAllocation 1 kTurnFirstPort := by
  unfold churned
  dsimp only
  rw [Function.update_self]

theorem churned_allocate {n : ℕ} (hn : n + 3 < 2 ^ 32) :
    ((churned n).turnAllocate 0 1 1 0).2 = churning n := by
  have hscan : FrontScan.first (churned n).allocs (fun a => !a.occupied) = some slotOne := by
    apply slotOne_first
    · rw [slotZero_churned]
      rfl
    · rw [slotOne_churned]
      rfl
  have hid : (n + 2 + 1) % 2 ^ 32 = n + 3 := by omega
  have hport : (if ((churned n).nextPort + 1) % 2 ^ 16 = 0 then kTurnFirstPort
      else ((churned n).nextPort + 1) % 2 ^ 16) = kTurnFirstPort + (n + 2) % 16384 := by
    unfold churned kTurnFirstPort
    dsimp only
    split <;> omega
  unfold turnAllocate
  dsimp only
  rw [hscan, if_neg (by change ¬(10000 : ℤ) ≤ 1; decide)]
  dsimp only
  rw [hport, slotOne_churned]
  unfold churning
  congr 1

theorem slotOne_churning (n : ℕ) :
    (churning n).allocs slotOne = shortAllocation (n + 2) (churned n).nextPort := by
  unfold churning
  dsimp only
  rw [Function.update_self]

theorem slotZero_churning (n : ℕ) :
    (churning n).allocs slotZero = shortAllocation 1 kTurnFirstPort := by
  have hne : slotZero ≠ slotOne := by decide
  unfold churning
  dsimp only
  rw [Function.update_of_ne hne, slotZero_churned]

theorem churning_deallocate (n : ℕ) : (churning n).turnDeallocate (n + 2) = churned (n + 1) := by
  have hfind : (churning n).findId (n + 2) = some slotOne := by
    apply slotOne_first
    · rw [slotZero_churning]
      simp [shortAllocation]
    · rw [slotOne_churning]
      simp [shortAllocation]
  unfold turnDeallocate
  rw [hfind]
  unfold release churning
  dsimp only
  rw [Function.update_idem, ← slotOne_churned n, Function.update_eq_self]
  rfl

theorem churned_live {n : ℕ} (hi : (churned n).Live i) : i = slotZero := by
  by_contra hne
  unfold Live churned at hi
  dsimp only at hi
  rw [Function.update_of_ne hne] at hi
  cases hi

theorem churned_nextUnused {n : ℕ} (hn : n < 16383) : (churned n).NextUnused := by
  intro i hi
  rw [churned_live hi, slotZero_churned]
  unfold churned shortAllocation
  dsimp only
  omega

theorem churning_reach {n : ℕ} (h : Runs.Reach Init step stepOk (0, churned n)) (hn : n < 16383) :
    Runs.Reach Init step stepOk (0, churning n) := by
  refine .next (0, churned n) _ (0, .allocate 1 1 0) h (fun _ => churned_nextUnused hn) ?_
  rw [← churned_allocate (by omega)]
  rfl

theorem churned_reach {n : ℕ} (hn : n ≤ 16383) :
    Runs.Reach Init step stepOk (0, churned n) := by
  induction n with
  | zero =>
    refine .next (0, {}) _ (0, .allocate 1 1 0) (.start _ ⟨0, 0, rfl⟩) ?_ ?_
    · exact fun _ i hi => absurd hi Bool.false_ne_true
    · rw [← churned_zero]
      rfl
  | succ n ih =>
    have hbusy := churning_reach (ih (by omega)) (by omega)
    refine .next (0, churning n) _ (0, .deallocate (n + 2)) hbusy trivial ?_
    rw [← churning_deallocate]
    rfl

/-- The counter is back at the port of the first allocation. -/
theorem not_unambiguous_wrapped : ¬∀ s, Runs.Reach Init step Runs.Any s → s.2.Unambiguous := by
  intro h
  have hreach : Runs.Reach Init step Runs.Any (0, churning 16383) := by
    have hbefore : Runs.Reach Init step Runs.Any (0, churned 16383) :=
      (churned_reach (Nat.le_refl _)).mono fun _ _ _ => trivial
    refine .next (0, churned 16383) _ (0, .allocate 1 1 0) hbefore trivial ?_
    rw [← churned_allocate (by decide)]
    rfl
  have hzero := slotZero_churning 16383
  have hone := slotOne_churning 16383
  have heq : slotZero = slotOne := by
    apply (h _ hreach).port
    · unfold Live
      rw [hzero]
      rfl
    · unfold Live
      rw [hone]
      rfl
    · rw [hzero, hone]
      rfl
  exact absurd heq (by decide)

/-- The second allocation is released before the third is made. -/
theorem churning_unambiguous : Unambiguous (churning 1) ∧ (churning 1).allocCount = 2 ∧
    (churning 1).allocs slotZero = shortAllocation 1 49152 ∧
    (churning 1).allocs slotOne = shortAllocation 3 49154 := by
  have hreach := churning_reach (churned_reach (n := 1) (by omega)) (by omega)
  exact ⟨allocations_unambiguous hreach, rfl, slotZero_churning 1, slotOne_churning 1⟩

end TurnManager

end HyperDerp
