import HyperDerp.HdPeers.ForwardRules
import HyperDerp.Lib.Runs
import HyperDerp.Lib.SlotCount
import Mathlib.Data.Multiset.Count
import Mathlib.Data.Finset.Card

/-!
# Scanning the rules of a peer (`hd_peers.cc:517-552`, `server.cc:105-133`)

Readers of the rules look at the slots below `rule_count` and skip those that are not occupied.
A removal clears its slot and counts down, an addition takes the first slot that is not occupied.
-/

namespace HyperDerp

namespace HdRules

variable {r r' : HdRules} {dst k : Key} {i j : Fin kHdMaxForwardRules}

def Scans (r : HdRules) (i : Fin kHdMaxForwardRules) : Prop :=
  (i.val : ℤ) < r.ruleCount ∧ (r.rules i).occupied = true

instance (r : HdRules) : DecidablePred r.Scans := fun _ => inferInstanceAs (Decidable (_ ∧ _))

/-- The destinations that a scan of the slots below `rule_count` finds. -/
def scan (r : HdRules) : Multiset Key :=
  (Finset.univ.filter r.Scans).val.map fun i => (r.rules i).dstKey

/-- The test of `TryIceUpgrade` for a rule that leads to a peer. -/
def pointsAt (r : HdRules) (key : Key) : Bool :=
  (List.finRange kHdMaxForwardRules).any fun i =>
    decide ((i.val : ℤ) < r.ruleCount) && ((r.rules i).occupied && decide ((r.rules i).dstKey = key))

theorem pointsAt_iff : r.pointsAt k = true ↔ k ∈ r.scan := by
  simp [pointsAt, scan, Scans, and_assoc]

def leadsTo (k : Key) (x : HdForwardRule) : Bool := x.occupied && decide (x.dstKey = k)

theorem count_scan (r : HdRules) (k : Key) : r.scan.count k =
    (Finset.univ.filter fun i => r.Scans i ∧ (r.rules i).dstKey = k).card := by
  unfold scan
  rw [Multiset.count_map, ← Finset.filter_val, Finset.filter_filter, Finset.card_val]
  simp only [eq_comm]

/-- The occupied slots are those below `rule_count`. -/
def Dense (r : HdRules) : Prop := ∀ i, (r.rules i).occupied = true ↔ (i.val : ℤ) < r.ruleCount

theorem dense_default : ({} : HdRules).Dense := by
  intro i
  constructor
  · nofun
  · intro h
    exact absurd h (by simp)

theorem Dense.count_scan (h : r.Dense) (k : Key) :
    r.scan.count k = SlotCount.count r.rules (leadsTo k) := by
  rw [HdRules.count_scan, SlotCount.count]
  congr 1
  apply Finset.filter_congr
  intro i _
  simp only [Scans, leadsTo, Bool.and_eq_true, decide_eq_true_eq]
  constructor
  · exact fun hs => ⟨hs.1.2, hs.2⟩
  · exact fun hs => ⟨⟨(h i).1 hs.1, hs.1⟩, hs.2⟩

/-- The slot that a removal clears is the last occupied one. -/
def RemovesLast (r : HdRules) (dst : Key) : Prop :=
  ∀ i, FrontScan.first r.rules (leadsTo dst) = some i → ∀ j, i < j → (r.rules j).occupied = false

theorem remove_eq (r : HdRules) (dst : Key) : r.remove dst =
    (FrontScan.first r.rules (leadsTo dst)).map fun i =>
      { rules := Function.update r.rules i {}, ruleCount := r.ruleCount - 1 } := rfl

theorem Dense.add (hd : r.Dense) (hc : r.Counted) (h : r.add dst = some r') :
    r'.Dense ∧ r'.scan = dst ::ₘ r.scan := by
  have hnonneg := hc.nonneg
  unfold HdRules.add at h
  split at h
  · cases h
  obtain ⟨i, hi, rfl⟩ := Option.map_eq_some_iff.mp h
  have hfree := FrontScan.first_some hi
  rw [Bool.not_eq_true'] at hfree
  have hge : ¬ (i.val : ℤ) < r.ruleCount := by
    rw [← hd i, hfree]
    exact Bool.false_ne_true
  have hlt : ∀ j < i, (j.val : ℤ) < r.ruleCount := by
    intro j hj
    rw [← hd j]
    simpa using FrontScan.first_before hi hj
  -- a slot at the count itself would not be below it
  have hival : (i.val : ℤ) = r.ruleCount := by
    by_contra hne
    have hbelow : r.ruleCount.toNat < i.val := by omega
    have hself := hlt ⟨r.ruleCount.toNat, hbelow.trans i.isLt⟩ hbelow
    simp only at hself
    omega
  have hdense : Dense ⟨Function.update r.rules i ⟨dst, true⟩, r.ruleCount + 1⟩ := by
    intro j
    by_cases hj : j = i
    · subst hj
      simp only [Function.update_self, true_iff]
      omega
    · have hjne : j.val ≠ i.val := fun heq => hj (Fin.ext heq)
      simp only [Function.update_of_ne hj, hd j]
      omega
  refine ⟨hdense, ?_⟩
  ext k
  rw [hdense.count_scan, Multiset.count_cons, hd.count_scan]
  have hcount := SlotCount.count_update (leadsTo k) r.rules i ⟨dst, true⟩
  have hoff : leadsTo k (r.rules i) = false := by
    rw [leadsTo, hfree, Bool.false_and]
  have hon : leadsTo k ⟨dst, true⟩ = decide (k = dst) := by
    simp [leadsTo, eq_comm]
  rw [hoff, hon] at hcount
  simpa using hcount

theorem Counted.le (h : r.Counted) : r.ruleCount ≤ kHdMaxForwardRules := by
  rw [h]
  have hcard := Finset.card_le_univ r.occupiedRules
  rw [Fintype.card_fin] at hcard
  omega

theorem removed_slot (h : r.remove dst = some r') : ∃ i,
    FrontScan.first r.rules (leadsTo dst) = some i ∧ (r.rules i).occupied = true ∧
      (r.rules i).dstKey = dst ∧ r' = ⟨Function.update r.rules i {}, r.ruleCount - 1⟩ := by
  rw [remove_eq] at h
  obtain ⟨i, hi, rfl⟩ := Option.map_eq_some_iff.mp h
  have hocc := FrontScan.first_some hi
  simp only [leadsTo, Bool.and_eq_true, decide_eq_true_eq] at hocc
  exact ⟨i, hi, hocc.1, hocc.2, rfl⟩

theorem Dense.remove_last (hd : r.Dense) (hc : r.Counted) (hlast : r.RemovesLast dst)
    (h : r.remove dst = some r') : r'.Dense ∧ r.scan = dst ::ₘ r'.scan := by
  obtain ⟨i, hi, hocc, hdst, rfl⟩ := removed_slot h
  have hoff := hlast i hi
  have hle := hc.le
  have hbelow := (hd i).1 hocc
  have hival : (i.val : ℤ) = r.ruleCount - 1 := by
    by_contra hne
    have hnext : i.val + 1 < kHdMaxForwardRules := by omega
    have hself := hoff ⟨i.val + 1, hnext⟩ (Nat.lt_succ_self i.val)
    have hscan := (hd ⟨i.val + 1, hnext⟩).2 (by simp only; omega)
    rw [hself] at hscan
    cases hscan
  have hdense : Dense ⟨Function.update r.rules i {}, r.ruleCount - 1⟩ := by
    intro j
    by_cases hj : j = i
    · subst hj
      simp only [Function.update_self, Bool.false_eq_true, false_iff]
      omega
    · have hjne : j.val ≠ i.val := fun heq => hj (Fin.ext heq)
      simp only [Function.update_of_ne hj, hd j]
      omega
  refine ⟨hdense, ?_⟩
  ext k
  rw [Multiset.count_cons, hdense.count_scan, hd.count_scan]
  have hcount := SlotCount.count_update (leadsTo k) r.rules i {}
  have hon : leadsTo k (r.rules i) = decide (k = dst) := by
    rw [leadsTo, hocc, hdst, Bool.true_and]
    simp only [eq_comm]
  have hnone : leadsTo k {} = false := rfl
  rw [hon, hnone] at hcount
  simpa using hcount.symm

theorem Dense.remove_other (hd : r.Dense) (hc : r.Counted) (hnot : ¬ r.RemovesLast dst)
    (h : r.remove dst = some r') : r'.scan.card + 2 = r.scan.card := by
  obtain ⟨i, hi, hocc, -, rfl⟩ := removed_slot h
  have hle := hc.le
  obtain ⟨j, hij, hjocc⟩ : ∃ j, i < j ∧ (r.rules j).occupied = true := by
    by_contra hall
    apply hnot
    intro i' hi' j hj
    rw [hi, Option.some.injEq] at hi'
    subst hi'
    by_contra hocc'
    exact hall ⟨j, hj, by simpa using hocc'⟩
  have hjbelow := (hd j).1 hjocc
  have hmlt : r.ruleCount.toNat - 1 < kHdMaxForwardRules := by omega
  let m : Fin kHdMaxForwardRules := ⟨r.ruleCount.toNat - 1, hmlt⟩
  have hmval : (m.val : ℤ) = r.ruleCount - 1 := by
    simp only [m]
    omega
  have hmi : m ≠ i := by
    intro heq
    have hv : m.val = i.val := congrArg Fin.val heq
    have hijv : i.val < j.val := hij
    omega
  have hset : (Finset.univ.filter (Scans ⟨Function.update r.rules i {}, r.ruleCount - 1⟩)) =
      ((Finset.univ.filter r.Scans).erase i).erase m := by
    ext x
    simp only [Finset.mem_filter, Finset.mem_univ, true_and, Finset.mem_erase, Scans]
    by_cases hx : x = i
    · subst hx
      simp
    · have hxm : x = m ↔ (x.val : ℤ) = r.ruleCount - 1 := by
        rw [← hmval, Fin.ext_iff]
        omega
      rw [Function.update_of_ne hx, hd x, Ne, hxm]
      constructor
      · rintro ⟨hlt, hx'⟩
        exact ⟨by omega, hx, hx', hx'⟩
      · rintro ⟨hne, -, hlt, -⟩
        exact ⟨by omega, hlt⟩
  have hmemi : i ∈ Finset.univ.filter r.Scans := by
    simp only [Finset.mem_filter, Finset.mem_univ, true_and]
    exact ⟨(hd i).1 hocc, hocc⟩
  have hmem : m ∈ (Finset.univ.filter r.Scans).erase i := by
    have hmbelow : (m.val : ℤ) < r.ruleCount := by omega
    simp only [Finset.mem_erase, Finset.mem_filter, Finset.mem_univ, true_and]
    exact ⟨hmi, hmbelow, (hd m).2 hmbelow⟩
  have h1 := Finset.card_erase_add_one hmemi
  have h2 := Finset.card_erase_add_one hmem
  simp only [scan, Multiset.card_map, Finset.card_val]
  rw [hset]
  omega

end HdRules

/-! ### Runs -/

namespace RuleScan

open HdRules

/-- The registry, and for every key the destinations added and not yet removed. -/
structure State where
  store : RuleRegistry
  dests : Key → Multiset Key

inductive Label where
  | add (key dst : Key)
  | remove (key dst : Key)

def step (s : State) : Label → Option State
  | .add key dst =>
    match s.store.hdPeersAddRule key dst with
    | none => some s
    | some store => some ⟨store, Function.update s.dests key (dst ::ₘ s.dests key)⟩
  | .remove key dst =>
    match s.store.hdPeersRemoveRule key dst with
    | none => some s
    | some store => some ⟨store, Function.update s.dests key ((s.dests key).erase dst)⟩

def Init (s : State) : Prop := (∀ i, s.store.rules i = {}) ∧ ∀ key, s.dests key = 0

/-- For every peer the count is that of the occupied slots and a scan below it finds the
destinations. -/
def Sound (s : State) : Prop :=
  ∀ key, (s.store.rulesOf key).Counted ∧ (s.store.rulesOf key).scan = s.dests key ∧
    ∀ dst, (s.store.rulesOf key).pointsAt dst = true ↔ dst ∈ s.dests key

def StepOk (s : State) : Label → Prop
  | .add _ _ => True
  | .remove key dst => (s.store.rulesOf key).RemovesLast dst

structure Inv (s : State) : Prop where
  counted : ∀ key, (s.store.rulesOf key).Counted
  dense : ∀ key, (s.store.rulesOf key).Dense
  found : ∀ key, (s.store.rulesOf key).scan = s.dests key

variable {s s' : State} {l : Label}

theorem sound_of_inv (h : Inv s) : Sound s := by
  intro key
  refine ⟨h.counted key, h.found key, ?_⟩
  intro dst
  rw [pointsAt_iff, h.found key]

theorem removeRule_none {store : RuleRegistry} {key dst : Key}
    (h : store.hdPeersRemoveRule key dst = none) : (store.rulesOf key).remove dst = none := by
  unfold RuleRegistry.hdPeersRemoveRule at h
  split at h
  · next hnone =>
    rw [RuleRegistry.rulesOf_none hnone]
    exact remove_none blank_default.not_has
  · next i hi =>
    rw [RuleRegistry.rulesOf_some hi]
    exact Option.map_eq_none_iff.mp h

theorem step_cases (hs : step s l = some s') :
    (s' = s ∧ ∀ key dst, l = .remove key dst → (s.store.rulesOf key).remove dst = none) ∨
    (∃ key dst r, l = .add key dst ∧ (s.store.rulesOf key).add dst = some r ∧
      (∀ k, s'.store.rulesOf k = if k = key then r else s.store.rulesOf k) ∧
      s'.dests = Function.update s.dests key (dst ::ₘ s.dests key)) ∨
    (∃ key dst r, l = .remove key dst ∧ (s.store.rulesOf key).remove dst = some r ∧
      (∀ k, s'.store.rulesOf k = if k = key then r else s.store.rulesOf k) ∧
      s'.dests = Function.update s.dests key ((s.dests key).erase dst)) := by
  cases l with
  | add key dst =>
    unfold step at hs
    dsimp only at hs
    split at hs
    · cases hs
      exact .inl ⟨rfl, nofun⟩
    · next store hadd =>
      cases hs
      obtain ⟨-, r, hr, hrules⟩ := RuleRegistry.hdPeersAddRule_some hadd
      exact .inr (.inl ⟨key, dst, r, rfl, hr, hrules, rfl⟩)
  | remove key dst =>
    unfold step at hs
    dsimp only at hs
    split at hs
    · next hnone =>
      cases hs
      refine .inl ⟨rfl, ?_⟩
      rintro key' dst' hl
      cases hl
      exact removeRule_none hnone
    · next store hremove =>
      cases hs
      obtain ⟨-, r, hr, hrules⟩ := RuleRegistry.hdPeersRemoveRule_some hremove
      exact .inr (.inr ⟨key, dst, r, rfl, hr, hrules, rfl⟩)

theorem Inv.write (h : Inv s) {key : Key} {r : HdRules} {dests : Multiset Key}
    (hrules : ∀ k, s'.store.rulesOf k = if k = key then r else s.store.rulesOf k)
    (hdests : s'.dests = Function.update s.dests key dests) (hc : r.Counted) (hd : r.Dense)
    (hscan : r.scan = dests) : Inv s' := by
  constructor
  · intro k
    rw [hrules]
    split
    · exact hc
    · exact h.counted k
  · intro k
    rw [hrules]
    split
    · exact hd
    · exact h.dense k
  · intro k
    rw [hrules, hdests]
    split
    · next hk =>
      subst hk
      exact hscan.trans (Function.update_self k dests s.dests).symm
    · next hk => exact (h.found k).trans (Function.update_of_ne hk dests s.dests).symm

theorem step_inv (h : Inv s) (hok : StepOk s l) (hs : step s l = some s') : Inv s' := by
  obtain ⟨rfl, -⟩ | ⟨key, dst, r, rfl, hr, hrules, hdests⟩ |
    ⟨key, dst, r, rfl, hr, hrules, hdests⟩ := step_cases hs
  · exact h
  · obtain ⟨hd, hscan⟩ := (h.dense key).add (h.counted key) hr
    apply h.write hrules hdests ((h.counted key).add hr) hd
    rw [hscan, h.found key]
  · obtain ⟨hd, hscan⟩ := (h.dense key).remove_last (h.counted key) hok hr
    apply h.write hrules hdests ((h.counted key).remove hr) hd
    rw [← h.found key, hscan, Multiset.erase_cons_head]

theorem stepOk_of_sound (h : Inv s) (hs : step s l = some s') (hsound : Sound s') :
    StepOk s l := by
  cases l with
  | add key dst => trivial
  | remove key dst =>
    by_contra hnot
    obtain ⟨-, hnone⟩ | ⟨_, _, _, hl, -⟩ | ⟨key', dst', r, hl, hr, hrules, hdests⟩ :=
      step_cases hs
    · have hfirst := hnone key dst rfl
      rw [remove_eq, Option.map_eq_none_iff] at hfirst
      apply hnot
      intro i hi
      rw [hfirst] at hi
      cases hi
    · cases hl
    · cases hl
      have hcard := (h.dense key).remove_other (h.counted key) hnot hr
      have hscan := (hsound key).2.1
      rw [hrules, if_pos rfl, hdests, Function.update_self] at hscan
      have hmem : dst ∈ s.dests key := by
        obtain ⟨i, -, hocc, hdst, -⟩ := removed_slot hr
        rw [← h.found key, scan, Multiset.mem_map]
        refine ⟨i, ?_, hdst⟩
        simp only [Finset.mem_val, Finset.mem_filter, Finset.mem_univ, true_and]
        exact ⟨(h.dense key i).1 hocc, hocc⟩
      have herase := Multiset.card_erase_add_one hmem
      rw [← hscan, ← h.found key] at herase
      omega

theorem init_inv (h : Init s) : Inv s := by
  have hrules : ∀ key, s.store.rulesOf key = {} := by
    intro key
    unfold RuleRegistry.rulesOf
    split
    · exact h.1 _
    · rfl
  constructor
  · intro key
    rw [hrules]
    exact counted_default
  · intro key
    rw [hrules]
    exact dense_default
  · intro key
    rw [hrules, h.2]
    rfl

theorem inv_reach (h : Runs.Reach Init step StepOk s) : Inv s := by
  apply Runs.Reach.invariant _ _ h
  · exact fun s hs => init_inv hs
  · exact fun s s' l hs hok hstep => step_inv hs hok hstep

/-- While rules are removed from the last slot in use, scans find the destinations; the first
removal from another slot ends that. -/
theorem scans_find_destinations (h : Runs.Reach Init step StepOk s) :
    Sound s ∧ ∀ l s', step s l = some s' → (Sound s' ↔ StepOk s l) := by
  have hinv := inv_reach h
  refine ⟨sound_of_inv hinv, ?_⟩
  intro l s' hs
  constructor
  · exact stepOk_of_sound hinv hs
  · exact fun hok => sound_of_inv (step_inv hinv hok hs)

instance (r : HdRules) (dst : Key) : Decidable (r.RemovesLast dst) :=
  inferInstanceAs (Decidable (∀ _, _))

instance (s : State) : (l : Label) → Decidable (StepOk s l)
  | .add _ _ => isTrue trivial
  | .remove key dst => inferInstanceAs (Decidable ((s.store.rulesOf key).RemovesLast dst))

def onePeer : State := ⟨{ reg := hdPeersInsert {} (byteKey 1) 5 }, fun _ => 0⟩

/-- Two rules, of which the second is removed. -/
theorem first_rule_found :
    ∃ s, Runs.run (Runs.guarded step StepOk) onePeer
      [.add (byteKey 1) (byteKey 2), .add (byteKey 1) (byteKey 3),
        .remove (byteKey 1) (byteKey 3)] = some s ∧ Sound s := by
  have hrun : (Runs.run (Runs.guarded step StepOk) onePeer
      [.add (byteKey 1) (byteKey 2), .add (byteKey 1) (byteKey 3),
        .remove (byteKey 1) (byteKey 3)]).isSome = true := by
    decide +kernel
  obtain ⟨s, hs⟩ := Option.isSome_iff_exists.1 hrun
  have hstart : Runs.Reach Init step StepOk onePeer := .start _ ⟨fun _ => rfl, fun _ => rfl⟩
  exact ⟨s, hs, (scans_find_destinations (Runs.reach_of_guarded hstart hs)).1⟩

/-- Of two rules the second is not found once the first is removed. -/
theorem not_sound_first_removed : ¬ ∀ (s s' : State) (ls : List Label), Init s →
    Runs.run step s ls = some s' → Sound s' := by
  intro h
  have hrun : (Runs.run step onePeer
      [.add (byteKey 1) (byteKey 2), .add (byteKey 1) (byteKey 3),
        .remove (byteKey 1) (byteKey 2)]).map (fun s =>
        ((s.store.rulesOf (byteKey 1)).pointsAt (byteKey 3),
          decide (byteKey 3 ∈ s.dests (byteKey 1)))) = some (false, true) := by
    decide +kernel
  obtain ⟨s, hs, hview⟩ := Option.map_eq_some_iff.1 hrun
  obtain ⟨hpoints, hmem⟩ := Prod.mk.inj hview
  have hfound := ((h onePeer s _ ⟨fun _ => rfl, fun _ => rfl⟩ hs (byteKey 1)).2.2 (byteKey 3)).2
    (of_decide_eq_true hmem)
  rw [hpoints] at hfound
  cases hfound

end RuleScan

end HyperDerp
