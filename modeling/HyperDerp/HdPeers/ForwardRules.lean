import HyperDerp.HdPeers.Registry
import HyperDerp.Lib.SlotCount

/-!
# Forwarding rules of the registry (`hd_peers.cc:231-265`, `hd_peers.cc:517-552`)

Every entry of the peer registry has 16 slots for forwarding rules.
-/

namespace HyperDerp

def kHdMaxForwardRules : ℕ := 16

structure HdForwardRule where
  dstKey : Key := zeroKey
  occupied : Bool := false

/-- `rules` and `rule_count` of an `HdPeer`. -/
structure HdRules where
  rules : Fin kHdMaxForwardRules → HdForwardRule := fun _ => {}
  ruleCount : ℤ := 0

namespace HdRules

variable {r r' : HdRules} {dst : Key}

def add (r : HdRules) (dst : Key) : Option HdRules :=
  if (kHdMaxForwardRules : ℤ) ≤ r.ruleCount then none
  else
    (FrontScan.first r.rules fun x => !x.occupied).map fun i =>
      { rules := Function.update r.rules i ⟨dst, true⟩, ruleCount := r.ruleCount + 1 }

def remove (r : HdRules) (dst : Key) : Option HdRules :=
  (FrontScan.first r.rules fun x => x.occupied && decide (x.dstKey = dst)).map fun i =>
    { rules := Function.update r.rules i {}, ruleCount := r.ruleCount - 1 }

/-- One of the occupied rules leads to `dst`. -/
def Has (r : HdRules) (dst : Key) : Prop :=
  ∃ i, (r.rules i).occupied = true ∧ (r.rules i).dstKey = dst

instance (r : HdRules) (dst : Key) : Decidable (r.Has dst) :=
  inferInstanceAs (Decidable (∃ _, _))

def Blank (r : HdRules) : Prop := ∀ i, (r.rules i).occupied = false

instance (r : HdRules) : Decidable r.Blank := inferInstanceAs (Decidable (∀ _, _))

theorem Blank.not_has (h : r.Blank) : ¬r.Has dst := by
  rintro ⟨i, hi, -⟩
  rw [h i] at hi
  cases hi

theorem blank_default : ({} : HdRules).Blank := fun _ => rfl

theorem add_has (h : r.add dst = some r') {k : Key} : r'.Has k ↔ r.Has k ∨ k = dst := by
  unfold add at h
  split at h
  · cases h
  · obtain ⟨i, hi, rfl⟩ := Option.map_eq_some_iff.mp h
    have hfree := FrontScan.first_some hi
    unfold Has
    dsimp only
    constructor
    · rintro ⟨j, hocc, hk⟩
      by_cases hj : j = i
      · subst hj
        rw [Function.update_self] at hk
        exact .inr hk.symm
      · rw [Function.update_of_ne hj] at hocc hk
        exact .inl ⟨j, hocc, hk⟩
    · rintro (⟨j, hocc, hk⟩ | rfl)
      · have hj : j ≠ i := by
          rintro rfl
          rw [hocc] at hfree
          cases hfree
        exact ⟨j, by rw [Function.update_of_ne hj]; exact ⟨hocc, hk⟩⟩
      · exact ⟨i, by rw [Function.update_self]; exact ⟨rfl, rfl⟩⟩

theorem add_count (h : r.add dst = some r') :
    r.ruleCount < kHdMaxForwardRules ∧ r'.ruleCount = r.ruleCount + 1 := by
  unfold add at h
  split at h
  · cases h
  · next hlt =>
    obtain ⟨i, -, rfl⟩ := Option.map_eq_some_iff.mp h
    exact ⟨Int.not_le.mp hlt, rfl⟩

theorem remove_none (h : ¬r.Has dst) : r.remove dst = none := by
  unfold remove
  rw [Option.map_eq_none_iff, FrontScan.first_none]
  intro i
  cases hocc : (r.rules i).occupied with
  | false => rfl
  | true => exact decide_eq_false fun hk => h ⟨i, hocc, hk⟩

/-! ### `rule_count` counts the occupied rules -/

def occupiedRules (r : HdRules) : Finset (Fin kHdMaxForwardRules) :=
  Finset.univ.filter fun i => (r.rules i).occupied = true

def Counted (r : HdRules) : Prop := r.ruleCount = r.occupiedRules.card

theorem counted_default : ({} : HdRules).Counted := rfl

theorem Counted.nonneg (h : r.Counted) : 0 ≤ r.ruleCount := by
  rw [h]
  exact Int.natCast_nonneg _

theorem Counted.add (hc : r.Counted) (h : r.add dst = some r') : r'.Counted := by
  have hcount := (add_count h).2
  unfold HdRules.add at h
  split at h
  · cases h
  · obtain ⟨i, hi, rfl⟩ := Option.map_eq_some_iff.mp h
    have hfree : (r.rules i).occupied = false := by simpa using FrontScan.first_some hi
    have hset := SlotCount.count_update_on (p := HdForwardRule.occupied) (x := ⟨dst, true⟩) hfree rfl
    unfold Counted occupiedRules at hc ⊢
    unfold SlotCount.count at hset
    rw [hset, hc]
    exact (Nat.cast_succ _).symm

theorem Counted.remove (hc : r.Counted) (h : r.remove dst = some r') : r'.Counted := by
  unfold HdRules.remove at h
  obtain ⟨i, hi, rfl⟩ := Option.map_eq_some_iff.mp h
  have hocc := FrontScan.first_some hi
  rw [Bool.and_eq_true] at hocc
  have hset := SlotCount.count_update_off (p := HdForwardRule.occupied) (x := {}) hocc.1 rfl
  unfold Counted occupiedRules at hc ⊢
  unfold SlotCount.count at hset
  rw [← hset, Nat.cast_succ] at hc
  dsimp only
  omega

end HdRules

/-! ### The rules of a key -/

structure RuleRegistry where
  reg : HdPeerRegistry := {}
  rules : HdSlot → HdRules := fun _ => {}

namespace RuleRegistry

variable {s s' : RuleRegistry} {key k dst : Key}

/-- `HdPeersInsert`: a new entry starts without rules. -/
def insert (s : RuleRegistry) (key : Key) (fd : Fd) : RuleRegistry where
  reg := hdPeersInsert s.reg key fd
  rules :=
    match hdPeersLookup s.reg key, s.reg.freeSlot with
    | none, some i => Function.update s.rules i {}
    | _, _ => s.rules

/-- `HdPeersAddRule`, `none` where it returns false. -/
def hdPeersAddRule (s : RuleRegistry) (key dst : Key) : Option RuleRegistry :=
  match hdPeersLookup s.reg key with
  | none => none
  | some i => ((s.rules i).add dst).map fun r => { s with rules := Function.update s.rules i r }

/-- `HdPeersRemoveRule`, `none` where it returns false. -/
def hdPeersRemoveRule (s : RuleRegistry) (key dst : Key) : Option RuleRegistry :=
  match hdPeersLookup s.reg key with
  | none => none
  | some i => ((s.rules i).remove dst).map fun r => { s with rules := Function.update s.rules i r }

/-- The rules of a key, none for a key that is not registered. -/
def rulesOf (s : RuleRegistry) (key : Key) : HdRules :=
  match hdPeersLookup s.reg key with
  | some i => s.rules i
  | none => {}

theorem rulesOf_none (h : hdPeersLookup s.reg key = none) : s.rulesOf key = {} := by
  unfold rulesOf
  rw [h]

theorem rulesOf_some {i : HdSlot} (h : hdPeersLookup s.reg key = some i) :
    s.rulesOf key = s.rules i := by
  unfold rulesOf
  rw [h]

theorem insert_reg (s : RuleRegistry) (key : Key) (fd : Fd) :
    (s.insert key fd).reg = hdPeersInsert s.reg key fd := by
  simp only [insert]

theorem rulesOf_insert (s : RuleRegistry) (key : Key) (fd : Fd) (k : Key) :
    (s.insert key fd).rulesOf k = s.rulesOf k := by
  rcases HdPeerRegistry.hdPeersInsert_cases s.reg key fd with ⟨hno, heq⟩ | ⟨i, ht, heq⟩
  · have hrules : (s.insert key fd).rules = s.rules := by
      unfold insert
      dsimp only
      split
      · next i hl hf => exact absurd ⟨hl, hf⟩ (hno i)
      · rfl
    have hreg : (s.insert key fd).reg = s.reg := (insert_reg s key fd).trans heq
    unfold rulesOf
    rw [hrules, hreg]
  · have hrules : (s.insert key fd).rules = Function.update s.rules i {} := by
      unfold insert
      dsimp only
      rw [ht.1, ht.2]
    have hreg := (insert_reg s key fd).trans heq
    by_cases hk : k = key
    · subst hk
      have hself : hdPeersLookup (s.insert k fd).reg k = some i := by
        rw [hreg]
        exact HdPeerRegistry.lookup_enrol_self ht fd
      rw [rulesOf_none ht.1, rulesOf_some hself, hrules, Function.update_self]
    · have hsame : hdPeersLookup (s.insert key fd).reg k = hdPeersLookup s.reg k := by
        rw [hreg]
        exact HdPeerRegistry.lookup_enrol_ne ht hk fd
      cases hl : hdPeersLookup s.reg k with
      | none => rw [rulesOf_none hl, rulesOf_none (hsame.trans hl)]
      | some j =>
        have hne : j ≠ i := by
          rintro rfl
          exact HdPeerRegistry.freeSlot_some ht.2 (HdPeerRegistry.lookup_some hl).1
        rw [rulesOf_some hl, rulesOf_some (hsame.trans hl), hrules, Function.update_of_ne hne]

theorem rulesOf_update {i : HdSlot} (h : hdPeersLookup s.reg key = some i) (r : HdRules)
    (k : Key) : rulesOf { s with rules := Function.update s.rules i r } k =
      if k = key then r else s.rulesOf k := by
  generalize ht : ({ s with rules := Function.update s.rules i r } : RuleRegistry) = t
  have hreg : t.reg = s.reg := by
    rw [← ht]
  have hrules : t.rules = Function.update s.rules i r := by
    rw [← ht]
  have hlook : hdPeersLookup t.reg k = hdPeersLookup s.reg k := by
    rw [hreg]
  by_cases hk : k = key
  · subst hk
    rw [if_pos rfl, rulesOf_some (hlook.trans h), hrules, Function.update_self]
  · rw [if_neg hk]
    cases hl : hdPeersLookup s.reg k with
    | none => rw [rulesOf_none hl, rulesOf_none (hlook.trans hl)]
    | some j =>
      have hne : j ≠ i := by
        rintro rfl
        exact hk ((HdPeerRegistry.lookup_some hl).2.symm.trans (HdPeerRegistry.lookup_some h).2)
      rw [rulesOf_some hl, rulesOf_some (hlook.trans hl), hrules, Function.update_of_ne hne]

theorem hdPeersAddRule_some (h : s.hdPeersAddRule key dst = some s') :
    s'.reg = s.reg ∧ ∃ r, (s.rulesOf key).add dst = some r ∧
      ∀ k, s'.rulesOf k = if k = key then r else s.rulesOf k := by
  unfold hdPeersAddRule at h
  split at h
  · cases h
  · next i hi =>
    obtain ⟨r, hr, rfl⟩ := Option.map_eq_some_iff.mp h
    rw [rulesOf_some hi]
    exact ⟨rfl, r, hr, rulesOf_update hi r⟩

theorem hdPeersRemoveRule_some (h : s.hdPeersRemoveRule key dst = some s') :
    s'.reg = s.reg ∧ ∃ r, (s.rulesOf key).remove dst = some r ∧
      ∀ k, s'.rulesOf k = if k = key then r else s.rulesOf k := by
  unfold hdPeersRemoveRule at h
  split at h
  · cases h
  · next i hi =>
    obtain ⟨r, hr, rfl⟩ := Option.map_eq_some_iff.mp h
    rw [rulesOf_some hi]
    exact ⟨rfl, r, hr, rulesOf_update hi r⟩

end RuleRegistry

end HyperDerp
