import Mathlib.Data.Fintype.Card
import Mathlib.Data.Set.Card
import Mathlib.Logic.Function.Basic

/-!
# Open addressing with linear probing and tombstones

A table of `cap` slots over arbitrary keys, hash function and entry type; an
entry is read through a `View` (its state and its key). `find` walks the probe
sequence of a key: it returns the live slot of the key if it meets it, otherwise
the slot an insertion should use (the first tombstone passed, or else the empty
slot that ended the walk), and `none` when every slot was live and foreign.
`claim` is the walk of a table that inserts into the first slot that is not live
without looking further for the key.

`Inv` is the invariant that deletions by tombstone keep: keys of live slots are
distinct, and no empty slot precedes a live one on its own probe path.
-/

namespace LinearProbe

inductive Occ where
  | empty
  | live
  | tombstone
  deriving DecidableEq

structure View (K E : Type) where
  occ : E → Occ
  key : E → K

variable {K E : Type} {cap : ℕ} [NeZero cap]

/-- The `i`-th slot of the probe sequence that starts at `h`. -/
def slot (cap : ℕ) [NeZero cap] (h i : ℕ) : Fin cap := Fin.ofNat cap (h + i)

theorem slot_surj (h : ℕ) (a : Fin cap) : ∃ i < cap, slot cap h i = a := by
  have hc : 0 < cap := Nat.pos_of_neZero cap
  have hr := Nat.mod_lt h hc
  refine ⟨(a.val + (cap - h % cap)) % cap, Nat.mod_lt _ hc, ?_⟩
  apply Fin.ext
  simp only [slot, Fin.val_ofNat]
  rw [Nat.add_mod_mod, Nat.add_mod, Nat.add_mod a.val]
  have h1 : (h % cap + (a.val % cap + (cap - h % cap) % cap) % cap) % cap =
      (h % cap + (a.val + (cap - h % cap))) % cap := by
    rw [← Nat.add_mod a.val, Nat.add_mod_mod]
  rw [h1, show h % cap + (a.val + (cap - h % cap)) = a.val + cap by omega,
    Nat.add_mod_right, Nat.mod_eq_of_lt a.isLt]

theorem slot_inj {h i j : ℕ} (hi : i < cap) (hj : j < cap) (hs : slot cap h i = slot cap h j) :
    i = j := by
  have hm : (h + i) % cap = (h + j) % cap := congrArg Fin.val hs
  exact Nat.ModEq.eq_of_lt_of_lt (Nat.ModEq.add_left_cancel' h hm) hi hj

variable (V : View K E) (hash : K → ℕ)

/-! ### The invariant -/

/-- Slot `a` is live and holds `k`. -/
def Holds (t : Fin cap → E) (k : K) (a : Fin cap) : Prop :=
  V.occ (t a) = .live ∧ V.key (t a) = k

/-- Slot `a` is reachable from the hash `h` without passing an empty slot. -/
def OnPath (t : Fin cap → E) (h : ℕ) (a : Fin cap) : Prop :=
  ∃ i < cap, slot cap h i = a ∧ ∀ j < i, V.occ (t (slot cap h j)) ≠ .empty

structure Inv (t : Fin cap → E) : Prop where
  unique : ∀ k a b, Holds V t k a → Holds V t k b → a = b
  path : ∀ k a, Holds V t k a → OnPath V t (hash k) a

theorem inv_of_not_live {t : Fin cap → E} (h : ∀ a, V.occ (t a) ≠ .live) : Inv V hash t :=
  ⟨fun _ a _ ha _ => absurd ha.1 (h a), fun _ a ha => absurd ha.1 (h a)⟩

theorem onPath_update {t : Fin cap → E} {h : ℕ} {a b : Fin cap} {e : E}
    (he : V.occ e ≠ .empty) (hp : OnPath V t h a) :
    OnPath V (Function.update t b e) h a := by
  obtain ⟨i, hi, hia, hj⟩ := hp
  refine ⟨i, hi, hia, fun j hlt => ?_⟩
  by_cases hb : slot cap h j = b
  · rw [hb, Function.update_self]
    exact he
  · rw [Function.update_of_ne hb]
    exact hj j hlt

theorem Inv.bury {t : Fin cap → E} (hI : Inv V hash t) (a : Fin cap) {e : E}
    (he : V.occ e = .tombstone) : Inv V hash (Function.update t a e) := by
  have old : ∀ k b, Holds V (Function.update t a e) k b → Holds V t k b := by
    intro k b hh
    by_cases hb : b = a
    · subst hb
      rw [Holds, Function.update_self, he] at hh
      exact absurd hh.1 (by decide)
    · rwa [Holds, Function.update_of_ne hb] at hh
  exact ⟨fun k b c hb hc => hI.unique k b c (old k b hb) (old k c hc),
    fun k b hb => onPath_update V (by rw [he]; decide) (hI.path k b (old k b hb))⟩

theorem Inv.congr {t t' : Fin cap → E} (hI : Inv V hash t)
    (ho : ∀ a, V.occ (t' a) = V.occ (t a)) (hk : ∀ a, V.key (t' a) = V.key (t a)) :
    Inv V hash t' := by
  have hh : ∀ k a, Holds V t' k a ↔ Holds V t k a := by
    intro k a
    simp only [Holds, ho, hk]
  constructor
  · intro k a b ha hb
    exact hI.unique k a b ((hh k a).mp ha) ((hh k b).mp hb)
  · intro k a ha
    obtain ⟨i, hi, hia, hp⟩ := hI.path k a ((hh k a).mp ha)
    exact ⟨i, hi, hia, fun j hj => by rw [ho]; exact hp j hj⟩

/-! ### The probe walk -/

variable [DecidableEq K]

instance (t : Fin cap → E) (k : K) (a : Fin cap) : Decidable (Holds V t k a) :=
  inferInstanceAs (Decidable (_ ∧ _))

/-- The probe walk with `n` slots still to visit, at distance `i` from the
hash, having passed the tombstone `tomb` first. -/
def findFrom (t : Fin cap → E) (k : K) : ℕ → ℕ → Option (Fin cap) → Option (Fin cap)
  | 0, _, tomb => tomb
  | n + 1, i, tomb =>
    let idx := slot cap (hash k) i
    match V.occ (t idx) with
    | .empty => some (tomb.getD idx)
    | .tombstone => findFrom t k n (i + 1) (some (tomb.getD idx))
    | .live => if V.key (t idx) = k then some idx else findFrom t k n (i + 1) tomb

def find (t : Fin cap → E) (k : K) : Option (Fin cap) := findFrom V hash t k cap 0 none

/-- The live slot of `k`, found through `find`. -/
def lookup (t : Fin cap → E) (k : K) : Option (Fin cap) :=
  match find V hash t k with
  | some a => if Holds V t k a then some a else none
  | none => none

/-- The probe walk that only looks for a live slot of `k`. -/
def seekFrom (t : Fin cap → E) (k : K) : ℕ → ℕ → Option (Fin cap)
  | 0, _ => none
  | n + 1, i =>
    let idx := slot cap (hash k) i
    if Holds V t k idx then some idx
    else if V.occ (t idx) = .empty then none
    else seekFrom t k n (i + 1)

def seek (t : Fin cap → E) (k : K) : Option (Fin cap) := seekFrom V hash t k cap 0

def claimFrom (t : Fin cap → E) (k : K) : ℕ → ℕ → Option (Fin cap)
  | 0, _ => none
  | n + 1, i =>
    let idx := slot cap (hash k) i
    if Holds V t k idx then some idx
    else if V.occ (t idx) ≠ .live then some idx
    else claimFrom t k n (i + 1)

def claim (t : Fin cap → E) (k : K) : Option (Fin cap) := claimFrom V hash t k cap 0

theorem find_congr {t t' : Fin cap → E} (ho : ∀ a, V.occ (t' a) = V.occ (t a))
    (hk : ∀ a, V.key (t' a) = V.key (t a)) (k : K) : find V hash t' k = find V hash t k := by
  have key : ∀ n i tomb, findFrom V hash t' k n i tomb = findFrom V hash t k n i tomb := by
    intro n
    induction n with
    | zero => exact fun _ _ => rfl
    | succ n ih =>
      intro i tomb
      simp only [findFrom, ho, hk, ih]
  exact key cap 0 none

theorem lookup_congr {t t' : Fin cap → E} (ho : ∀ a, V.occ (t' a) = V.occ (t a))
    (hk : ∀ a, V.key (t' a) = V.key (t a)) (k : K) : lookup V hash t' k = lookup V hash t k := by
  have hh : ∀ a, Holds V t' k a ↔ Holds V t k a := fun a => by simp only [Holds, ho, hk]
  simp only [lookup, find_congr V hash ho hk k, hh]

/-! ### What `find` returns -/

/-- The walk up to distance `i` met neither an empty slot nor `k`, and `tomb`
is a tombstone it passed, if it passed any. -/
structure Walked (t : Fin cap → E) (k : K) (i : ℕ) (tomb : Option (Fin cap)) : Prop where
  nonempty : ∀ j < i, V.occ (t (slot cap (hash k) j)) ≠ .empty
  foreign : ∀ j < i, ¬Holds V t k (slot cap (hash k) j)
  first : ∀ a, tomb = some a → ∃ j < i, slot cap (hash k) j = a ∧ V.occ (t a) = .tombstone
  nothing : tomb = none → ∀ j < i, V.occ (t (slot cap (hash k) j)) = .live

/-- Outcome of a probe walk: the slot of `k`, a slot free for it, or a table
full of other keys. -/
inductive Found (t : Fin cap → E) (k : K) : Option (Fin cap) → Prop
  | held (a) : Holds V t k a → Found t k (some a)
  | free (a i) : V.occ (t a) ≠ .live → OnPath V t (hash k) a → i ≤ cap →
      (∀ j < i, ¬Holds V t k (slot cap (hash k) j)) →
      (i < cap → V.occ (t (slot cap (hash k) i)) = .empty) → Found t k (some a)
  | full : (∀ a, V.occ (t a) = .live) → (∀ a, ¬Holds V t k a) → Found t k none

omit [DecidableEq K] in
theorem Walked.step {t : Fin cap → E} {k : K} {i : ℕ} {tomb tomb' : Option (Fin cap)}
    (h : Walked V hash t k i tomb) (he : V.occ (t (slot cap (hash k) i)) ≠ .empty)
    (hk : ¬Holds V t k (slot cap (hash k) i))
    (hf : ∀ a, tomb' = some a → tomb = some a ∨
      (a = slot cap (hash k) i ∧ V.occ (t a) = .tombstone))
    (hn : tomb' = none → tomb = none ∧ V.occ (t (slot cap (hash k) i)) = .live) :
    Walked V hash t k (i + 1) tomb' where
  nonempty j hj := by
    rcases Nat.lt_succ_iff_lt_or_eq.mp hj with hj | rfl
    · exact h.nonempty j hj
    · exact he
  foreign j hj := by
    rcases Nat.lt_succ_iff_lt_or_eq.mp hj with hj | rfl
    · exact h.foreign j hj
    · exact hk
  first a ha := by
    rcases hf a ha with ha | ⟨rfl, ht⟩
    · obtain ⟨j, hj, hja⟩ := h.first a ha
      exact ⟨j, by omega, hja⟩
    · exact ⟨i, by omega, rfl, ht⟩
  nothing hnone j hj := by
    obtain ⟨h1, h2⟩ := hn hnone
    rcases Nat.lt_succ_iff_lt_or_eq.mp hj with hj | rfl
    · exact h.nothing h1 j hj
    · exact h2

theorem findFrom_found (t : Fin cap → E) (k : K) (n i : ℕ) (tomb : Option (Fin cap))
    (hni : i + n = cap) (h : Walked V hash t k i tomb) :
    Found V hash t k (findFrom V hash t k n i tomb) := by
  -- a tombstone or empty slot handed out lies on the path walked so far
  have free : ∀ a, tomb = some a → (i < cap → V.occ (t (slot cap (hash k) i)) = .empty) →
      Found V hash t k (some a) := by
    intro a ha he
    obtain ⟨j, hj, hja, ht⟩ := h.first a ha
    exact .free a i (by rw [ht]; decide)
      ⟨j, by omega, hja, fun l hl => h.nonempty l (by omega)⟩ (by omega) h.foreign he
  induction n generalizing i tomb with
  | zero =>
    simp only [findFrom]
    cases tomb with
    | some a => exact free a rfl (by omega)
    | none =>
      have hi : i = cap := by omega
      subst hi
      refine .full (fun a => ?_) (fun a => ?_)
      all_goals obtain ⟨j, hj, rfl⟩ := slot_surj (hash k) a
      · exact h.nothing rfl j hj
      · exact h.foreign j hj
  | succ n ih =>
    have next : ∀ tomb', Walked V hash t k (i + 1) tomb' →
        Found V hash t k (findFrom V hash t k n (i + 1) tomb') := by
      intro tomb' hw
      refine ih (i + 1) tomb' (by omega) hw ?_
      intro a ha he
      obtain ⟨j, hj, hja, ht⟩ := hw.first a ha
      exact .free a (i + 1) (by rw [ht]; decide)
        ⟨j, by omega, hja, fun l hl => hw.nonempty l (by omega)⟩ (by omega) hw.foreign he
    simp only [findFrom]
    cases ho : V.occ (t (slot cap (hash k) i)) with
    | empty =>
      cases tomb with
      | some a => exact free a rfl fun _ => ho
      | none =>
        exact .free _ i (by rw [Option.getD_none, ho]; decide)
          ⟨i, by omega, rfl, h.nonempty⟩ (by omega) h.foreign fun _ => ho
    | tombstone =>
      refine next _ (h.step V hash (by rw [ho]; decide) ?_ ?_ (by simp))
      · intro hh
        rw [Holds, ho] at hh
        exact absurd hh.1 (by decide)
      · intro a ha
        cases tomb with
        | some b => exact .inl (by simpa using ha)
        | none =>
          have hb : slot cap (hash k) i = a := by simpa using ha
          exact .inr ⟨hb.symm, hb ▸ ho⟩
    | live =>
      by_cases hk : V.key (t (slot cap (hash k) i)) = k
      · simp only [hk, ite_true]
        exact .held _ ⟨ho, hk⟩
      · simp only [hk, ite_false]
        exact next tomb (h.step V hash (by rw [ho]; decide) (fun hh => hk hh.2)
          (fun a ha => .inl ha) fun hn => ⟨hn, ho⟩)

theorem find_found (t : Fin cap → E) (k : K) : Found V hash t k (find V hash t k) :=
  findFrom_found V hash t k cap 0 none (by omega)
    ⟨by omega, by omega, by simp, by omega⟩

/-! ### `find` on tables that satisfy the invariant -/

theorem find_of_holds {t : Fin cap → E} (hI : Inv V hash t) {k : K} {a : Fin cap}
    (ha : Holds V t k a) : find V hash t k = some a := by
  have hf := find_found V hash t k
  revert hf
  generalize find V hash t k = r
  intro hf
  cases hf with
  | held b hb => rw [hI.unique k b a hb ha]
  | free b i _ _ hi hno he =>
    exfalso
    obtain ⟨j, hj, hja, hp⟩ := hI.path k a ha
    by_cases hij : j < i
    · exact hno j hij (hja ▸ ha)
    · have hicap : i < cap := by omega
      rcases Nat.lt_or_ge i j with hlt | hge
      · exact hp i hlt (he hicap)
      · have hij' : i = j := by omega
        have hoc := he hicap
        rw [hij', hja, ha.1] at hoc
        exact absurd hoc (by decide)
  | full _ hno => exact absurd ha (hno a)

theorem find_some {t : Fin cap → E} {k : K} {a : Fin cap} (h : find V hash t k = some a) :
    Holds V t k a ∨ V.occ (t a) ≠ .live ∧ OnPath V t (hash k) a := by
  have hf := find_found V hash t k
  rw [h] at hf
  cases hf with
  | held _ hb => exact .inl hb
  | free _ _ hl hp _ _ _ => exact .inr ⟨hl, hp⟩

theorem find_none {t : Fin cap → E} {k : K} (h : find V hash t k = none) :
    (∀ a, V.occ (t a) = .live) ∧ ∀ a, ¬Holds V t k a := by
  have hf := find_found V hash t k
  rw [h] at hf
  cases hf with
  | full hl hno => exact ⟨hl, hno⟩

theorem lookup_eq_seek (t : Fin cap → E) (k : K) :
    lookup V hash t k = seek V hash t k := by
  have key : ∀ n i (tomb : Option (Fin cap)),
      (∀ a, tomb = some a → V.occ (t a) ≠ .live) →
      (match findFrom V hash t k n i tomb with
        | some a => if Holds V t k a then some a else none
        | none => none) = seekFrom V hash t k n i := by
    intro n
    induction n with
    | zero =>
      intro i tomb ht
      cases tomb with
      | none => rfl
      | some a => simp [findFrom, seekFrom, Holds, ht a rfl]
    | succ n ih =>
      intro i tomb ht
      simp only [findFrom, seekFrom]
      cases ho : V.occ (t (slot cap (hash k) i)) with
      | empty =>
        have hno : ¬Holds V t k (tomb.getD (slot cap (hash k) i)) := by
          cases tomb with
          | none => simp [Holds, ho]
          | some a => exact fun h => ht a rfl h.1
        simp only [hno, ite_false, ite_true]
        simp [Holds, ho]
      | tombstone =>
        have hno : ¬Holds V t k (slot cap (hash k) i) := by simp [Holds, ho]
        simp only [hno, ite_false, reduceCtorEq]
        apply ih
        intro a ha
        cases tomb with
        | none =>
          have hb : slot cap (hash k) i = a := by simpa using ha
          rw [← hb, ho]
          decide
        | some b => exact ht a (by simpa using ha)
      | live =>
        by_cases hk : V.key (t (slot cap (hash k) i)) = k
        · have hh : Holds V t k (slot cap (hash k) i) := ⟨ho, hk⟩
          simp only [hk, hh, ite_true]
        · have hno : ¬Holds V t k (slot cap (hash k) i) := fun h => hk h.2
          simp only [hk, hno, ite_false, reduceCtorEq]
          exact ih (i + 1) tomb ht
  exact key cap 0 none (by simp)

theorem lookup_congr_key {t t' : Fin cap → E} {k : K} (hh : ∀ a, Holds V t' k a ↔ Holds V t k a)
    (he : ∀ a, V.occ (t' a) = .empty ↔ V.occ (t a) = .empty) :
    lookup V hash t' k = lookup V hash t k := by
  have key : ∀ n i, seekFrom V hash t' k n i = seekFrom V hash t k n i := by
    intro n
    induction n with
    | zero => exact fun _ => rfl
    | succ n ih =>
      intro i
      simp only [seekFrom, hh, he, ih]
  rw [lookup_eq_seek, lookup_eq_seek]
  exact key cap 0

theorem holds_of_lookup {t : Fin cap → E} {k : K} {a : Fin cap} (h : lookup V hash t k = some a) :
    Holds V t k a := by
  unfold lookup at h
  split at h
  · split at h
    · next hh =>
      cases h
      exact hh
    · cases h
  · cases h

theorem lookup_bury_ne {t : Fin cap → E} {k k' : K} {a : Fin cap} {e : E} (ha : Holds V t k' a)
    (hk : k ≠ k') (he : V.occ e = .tombstone) :
    lookup V hash (Function.update t a e) k = lookup V hash t k := by
  refine lookup_congr_key V hash (fun b => ?_) (fun b => ?_)
  all_goals
    by_cases hb : b = a
    · subst hb
      rw [Holds] at ha
      simp [Holds, he, ha, Ne.symm hk]
    · simp [Holds, hb]

theorem lookup_eq_some {t : Fin cap → E} (hI : Inv V hash t) (k : K) (a : Fin cap) :
    lookup V hash t k = some a ↔ Holds V t k a := by
  refine ⟨holds_of_lookup V hash, fun h => ?_⟩
  simp only [lookup, find_of_holds V hash hI h, h, ite_true]

theorem lookup_eq_none {t : Fin cap → E} (hI : Inv V hash t) (k : K) :
    lookup V hash t k = none ↔ ∀ a, ¬Holds V t k a := by
  constructor
  · intro h a ha
    rw [(lookup_eq_some V hash hI k a).mpr ha] at h
    cases h
  · intro h
    cases hl : lookup V hash t k with
    | none => rfl
    | some a => exact absurd ((lookup_eq_some V hash hI k a).mp hl) (h a)

/-- A slot that `k` may be written to: its own, or a free one on its probe path
when no slot holds it. -/
def Fits (t : Fin cap → E) (k : K) (a : Fin cap) : Prop :=
  Holds V t k a ∨ V.occ (t a) ≠ .live ∧ OnPath V t (hash k) a ∧ ∀ b, ¬Holds V t k b

theorem find_fits {t : Fin cap → E} (hI : Inv V hash t) {k : K} {a : Fin cap}
    (hf : find V hash t k = some a) : Fits V hash t k a := by
  rcases find_some V hash hf with hh | ⟨hl, hp⟩
  · exact .inl hh
  · refine .inr ⟨hl, hp, fun b hb => ?_⟩
    rw [find_of_holds V hash hI hb] at hf
    cases hf
    exact hl hb.1

omit [DecidableEq K] in
theorem Fits.holds_other {t : Fin cap → E} (hI : Inv V hash t) {k : K} {a : Fin cap} {e : E}
    (hf : Fits V hash t k a) {k' : K} {b : Fin cap} (hb : b ≠ a)
    (hh : Holds V (Function.update t a e) k' b) : Holds V t k' b ∧ k' ≠ k := by
  rw [Holds, Function.update_of_ne hb] at hh
  refine ⟨hh, ?_⟩
  rintro rfl
  rcases hf with ha | ⟨-, -, hno⟩
  · exact hb (hI.unique k' b a hh ha)
  · exact hno b hh

omit [DecidableEq K] in
theorem Inv.put {t : Fin cap → E} (hI : Inv V hash t) {k : K} {a : Fin cap} {e : E}
    (hf : Fits V hash t k a) (he : V.occ e = .live) (hk : V.key e = k) :
    Inv V hash (Function.update t a e) := by
  have hne : V.occ e ≠ .empty := by rw [he]; decide
  have new : ∀ k', Holds V (Function.update t a e) k' a → k' = k := by
    intro k' hh
    rw [Holds, Function.update_self] at hh
    exact hh.2.symm.trans hk
  constructor
  · intro k' b c hb hc
    by_cases hba : b = a <;> by_cases hca : c = a
    · rw [hba, hca]
    · subst hba
      exact absurd (new k' hb) (hf.holds_other V hash hI hca hc).2
    · subst hca
      exact absurd (new k' hc) (hf.holds_other V hash hI hba hb).2
    · exact hI.unique k' b c (hf.holds_other V hash hI hba hb).1 (hf.holds_other V hash hI hca hc).1
  · intro k' b hb
    by_cases hba : b = a
    · subst hba
      obtain rfl := new k' hb
      rcases hf with hh | ⟨-, hp, -⟩
      · exact onPath_update V hne (hI.path _ _ hh)
      · exact onPath_update V hne hp
    · exact onPath_update V hne (hI.path k' b (hf.holds_other V hash hI hba hb).1)

theorem Inv.insert {t : Fin cap → E} (hI : Inv V hash t) {k : K} {a : Fin cap} {e : E}
    (hf : find V hash t k = some a) (he : V.occ e = .live) (hk : V.key e = k) :
    Inv V hash (Function.update t a e) :=
  hI.put V hash (find_fits V hash hI hf) he hk

/-! ### What a write for one key leaves alone -/

/-- `t'` differs from `t` at slot `a` only, which is live for no key but `k` in either. -/
structure WritesAt (t t' : Fin cap → E) (k : K) (a : Fin cap) : Prop where
  rest : ∀ b, b ≠ a → t' b = t b
  before : ∀ k', Holds V t k' a → k' = k
  after : ∀ k', Holds V t' k' a → k' = k
  nonempty : V.occ (t a) ≠ .empty → V.occ (t' a) ≠ .empty

section WritesAt

omit [DecidableEq K]

variable {t t' : Fin cap → E} {k k' : K} {a b : Fin cap} {e : E}

omit [NeZero cap] in
theorem WritesAt.holds (hw : WritesAt V t t' k a) (hk : k' ≠ k) (b : Fin cap) :
    Holds V t' k' b ↔ Holds V t k' b := by
  by_cases hb : b = a
  · subst hb
    exact ⟨fun h => absurd (hw.after k' h) hk, fun h => absurd (hw.before k' h) hk⟩
  · rw [Holds, Holds, hw.rest b hb]

omit [NeZero cap] in
theorem WritesAt.occ_ne_empty (hw : WritesAt V t t' k a) (h : V.occ (t b) ≠ .empty) :
    V.occ (t' b) ≠ .empty := by
  by_cases hb : b = a
  · subst hb
    exact hw.nonempty h
  · rwa [hw.rest b hb]

theorem WritesAt.fits (hw : WritesAt V t t' k a) (hk : k' ≠ k) (hb : b ≠ a)
    (hf : Fits V hash t k' b) : Fits V hash t' k' b := by
  rcases hf with hh | ⟨hl, ⟨i, hi, hib, hp⟩, hno⟩
  · exact .inl ((hw.holds V hk b).mpr hh)
  · refine .inr ⟨?_, ⟨i, hi, hib, fun j hj => hw.occ_ne_empty V (hp j hj)⟩, ?_⟩
    · rwa [hw.rest b hb]
    · exact fun c hc => hno c ((hw.holds V hk c).mp hc)

theorem Fits.before (hf : Fits V hash t k a) (hh : Holds V t k' a) : k' = k := by
  rcases hf with ha | ⟨hl, -, -⟩
  · exact hh.2.symm.trans ha.2
  · exact absurd hh.1 hl

theorem Fits.writesAt (hf : Fits V hash t k a) (hk : V.key e = k)
    (he : V.occ (t a) ≠ .empty → V.occ e ≠ .empty) :
    WritesAt V t (Function.update t a e) k a where
  rest b hb := Function.update_of_ne hb e t
  before k' hh := hf.before V hash hh
  after k' hh := by
    rw [Holds, Function.update_self] at hh
    exact hh.2.symm.trans hk
  nonempty h := by
    rw [Function.update_self]
    exact he h

omit [NeZero cap] in
theorem writesAt_bury (ha : Holds V t k a) (he : V.occ e = .tombstone) :
    WritesAt V t (Function.update t a e) k a where
  rest b hb := Function.update_of_ne hb e t
  before k' hh := hh.2.symm.trans ha.2
  after k' hh := by
    rw [Holds, Function.update_self, he] at hh
    exact absurd hh.1 (by decide)
  nonempty _ := by
    rw [Function.update_self, he]
    decide

theorem Fits.holds_hidden (hf : Fits V hash t k a) (hk : V.key e = k)
    (ho : V.occ e = V.occ (t a)) (c : Fin cap) :
    Holds V (Function.update t a e) k c ↔ Holds V t k c := by
  by_cases hc : c = a
  · subst hc
    rw [Holds, Function.update_self, ho]
    rcases hf with hh | ⟨hl, -, -⟩
    · exact ⟨fun _ => hh, fun h => ⟨h.1, hk⟩⟩
    · exact ⟨fun h => absurd h.1 hl, fun h => absurd h.1 hl⟩
  · rw [Holds, Holds, Function.update_of_ne hc]

omit [NeZero cap] in
theorem occ_hidden (ho : V.occ e = V.occ (t a)) (c : Fin cap) :
    V.occ (Function.update t a e c) = V.occ (t c) := by
  by_cases hc : c = a
  · subst hc
    rw [Function.update_self, ho]
  · rw [Function.update_of_ne hc]

theorem Fits.hidden (hf : Fits V hash t k a) (hk : V.key e = k) (ho : V.occ e = V.occ (t a)) :
    Fits V hash (Function.update t a e) k a := by
  have hh := hf.holds_hidden V hash hk ho
  rcases hf with ha | ⟨hl, ⟨i, hi, hia, hp⟩, hno⟩
  · exact .inl ((hh a).mpr ha)
  · refine .inr ⟨?_, ⟨i, hi, hia, fun j hj => ?_⟩, fun c hc => hno c ((hh c).mp hc)⟩
    · rwa [occ_hidden V ho]
    · rw [occ_hidden V ho]
      exact hp j hj

theorem Inv.hidden (hI : Inv V hash t) (hf : Fits V hash t k a) (hk : V.key e = k)
    (ho : V.occ e = V.occ (t a)) : Inv V hash (Function.update t a e) := by
  have hw := hf.writesAt V hash hk (e := e) fun h => by rwa [ho]
  have hh : ∀ k' c, Holds V (Function.update t a e) k' c ↔ Holds V t k' c := by
    intro k' c
    by_cases hkk : k' = k
    · subst hkk
      exact hf.holds_hidden V hash hk ho c
    · exact hw.holds V hkk c
  constructor
  · intro k' b c hb hc
    exact hI.unique k' b c ((hh k' b).mp hb) ((hh k' c).mp hc)
  · intro k' b hb
    obtain ⟨i, hi, hib, hp⟩ := hI.path k' b ((hh k' b).mp hb)
    refine ⟨i, hi, hib, fun j hj => ?_⟩
    rw [occ_hidden V ho]
    exact hp j hj

end WritesAt

/-! ### The walk that inserts early -/

theorem claim_some {t : Fin cap → E} {k : K} {a : Fin cap} (h : claim V hash t k = some a) :
    ∃ i < cap, slot cap (hash k) i = a ∧ (Holds V t k a ∨ V.occ (t a) ≠ .live) ∧
      ∀ j < i, V.occ (t (slot cap (hash k) j)) = .live ∧ ¬Holds V t k (slot cap (hash k) j) := by
  have walk : ∀ n i, i + n = cap →
      (∀ j < i, V.occ (t (slot cap (hash k) j)) = .live ∧ ¬Holds V t k (slot cap (hash k) j)) →
      claimFrom V hash t k n i = some a →
      ∃ i < cap, slot cap (hash k) i = a ∧ (Holds V t k a ∨ V.occ (t a) ≠ .live) ∧
        ∀ j < i, V.occ (t (slot cap (hash k) j)) = .live ∧
          ¬Holds V t k (slot cap (hash k) j) := by
    intro n
    induction n with
    | zero =>
      intro i _ _ h
      cases h
    | succ n ih =>
      intro i hi hprev h
      simp only [claimFrom] at h
      split at h
      · next hh =>
        cases h
        exact ⟨i, by omega, rfl, .inl hh, hprev⟩
      · next hh =>
        split at h
        · next ho =>
          cases h
          exact ⟨i, by omega, rfl, .inr ho, hprev⟩
        · next ho =>
          refine ih (i + 1) (by omega) (fun j hj => ?_) h
          rcases Nat.lt_succ_iff_lt_or_eq.mp hj with hj | rfl
          · exact hprev j hj
          · exact ⟨not_not.mp ho, hh⟩
  exact walk cap 0 (by omega) (by omega) h

theorem claim_none {t : Fin cap → E} {k : K} (h : claim V hash t k = none) (a : Fin cap) :
    V.occ (t a) = .live ∧ ¬Holds V t k a := by
  have walk : ∀ n i, i + n = cap →
      (∀ j < i, V.occ (t (slot cap (hash k) j)) = .live ∧ ¬Holds V t k (slot cap (hash k) j)) →
      claimFrom V hash t k n i = none →
      ∀ j < cap, V.occ (t (slot cap (hash k) j)) = .live ∧ ¬Holds V t k (slot cap (hash k) j) := by
    intro n
    induction n with
    | zero =>
      intro i hi hprev _ j hj
      exact hprev j (by omega)
    | succ n ih =>
      intro i hi hprev h
      simp only [claimFrom] at h
      split at h
      · cases h
      · next hh =>
        split at h
        · cases h
        · next ho =>
          refine ih (i + 1) (by omega) (fun j hj => ?_) h
          rcases Nat.lt_succ_iff_lt_or_eq.mp hj with hj | rfl
          · exact hprev j hj
          · exact ⟨not_not.mp ho, hh⟩
  obtain ⟨j, hj, rfl⟩ := slot_surj (hash k) a
  exact walk cap 0 (by omega) (by omega) h j hj

theorem claim_fits {t : Fin cap → E} {k : K} {a : Fin cap} (h : claim V hash t k = some a)
    (hk : Holds V t k a ∨ ∀ b, ¬Holds V t k b) : Fits V hash t k a := by
  obtain ⟨i, hi, hia, hstop, hprev⟩ := claim_some V hash h
  rcases hk with hk | hk
  · exact .inl hk
  · refine .inr ⟨?_, ⟨i, hi, hia, fun j hj => ?_⟩, hk⟩
    · rcases hstop with hh | ho
      · exact absurd hh (hk a)
      · exact ho
    · rw [(hprev j hj).1]
      decide

/-! ### The table as a finite map -/

/-- Contents of the table, entries seen through `val`. -/
def toMap {A : Type} (val : E → A) (t : Fin cap → E) (k : K) : Option A :=
  (lookup V hash t k).map fun a => val (t a)

theorem toMap_of_holds {A : Type} (val : E → A) {t : Fin cap → E} (hI : Inv V hash t) {k : K}
    {a : Fin cap} (ha : Holds V t k a) : toMap V hash val t k = some (val (t a)) := by
  simp only [toMap, (lookup_eq_some V hash hI k a).mpr ha, Option.map_some]

theorem toMap_of_absent {A : Type} (val : E → A) {t : Fin cap → E} (hI : Inv V hash t) {k : K}
    (hk : ∀ a, ¬Holds V t k a) : toMap V hash val t k = none := by
  simp only [toMap, (lookup_eq_none V hash hI k).mpr hk, Option.map_none]

theorem WritesAt.toMap_eq {A : Type} (val : E → A) {t t' : Fin cap → E} {k k' : K} {a : Fin cap}
    (hw : WritesAt V t t' k a) (hI : Inv V hash t) (hI' : Inv V hash t') (hk : k' ≠ k) :
    toMap V hash val t' k' = toMap V hash val t k' := by
  cases hl : lookup V hash t k' with
  | none =>
    have hn := (lookup_eq_none V hash hI k').mp hl
    rw [toMap_of_absent V hash val hI hn]
    apply toMap_of_absent V hash val hI'
    exact fun b hb => hn b ((hw.holds V hk b).mp hb)
  | some b =>
    have hb := (lookup_eq_some V hash hI k' b).mp hl
    have hne : b ≠ a := by
      intro he
      exact hk (hw.before k' (he ▸ hb))
    rw [toMap_of_holds V hash val hI hb, ← hw.rest b hne]
    exact toMap_of_holds V hash val hI' ((hw.holds V hk b).mpr hb)

theorem toMap_put {A : Type} (val : E → A) {t : Fin cap → E} (hI : Inv V hash t)
    {k : K} {a : Fin cap} {e : E} (hf : Fits V hash t k a)
    (he : V.occ e = .live) (hk : V.key e = k) :
    toMap V hash val (Function.update t a e) =
      Function.update (toMap V hash val t) k (some (val e)) := by
  have hI' := hI.put V hash hf he hk
  funext k'
  by_cases hkk : k' = k
  · subst hkk
    have hh : Holds V (Function.update t a e) k' a := by
      rw [Holds, Function.update_self]
      exact ⟨he, hk⟩
    rw [toMap_of_holds V hash val hI' hh, Function.update_self, Function.update_self]
  · rw [Function.update_of_ne hkk]
    exact (hf.writesAt V hash hk fun _ => by rw [he]; decide).toMap_eq V hash val hI hI' hkk

theorem toMap_insert {A : Type} (val : E → A) {t : Fin cap → E} (hI : Inv V hash t)
    {k : K} {a : Fin cap} {e : E} (hf : find V hash t k = some a)
    (he : V.occ e = .live) (hk : V.key e = k) :
    toMap V hash val (Function.update t a e) =
      Function.update (toMap V hash val t) k (some (val e)) :=
  toMap_put V hash val hI (find_fits V hash hI hf) he hk

theorem toMap_bury {A : Type} (val : E → A) {t : Fin cap → E} (hI : Inv V hash t)
    {k : K} {a : Fin cap} {e : E} (ha : Holds V t k a) (he : V.occ e = .tombstone) :
    toMap V hash val (Function.update t a e) =
      Function.update (toMap V hash val t) k none := by
  have hI' := hI.bury V hash a he
  funext k'
  by_cases hkk : k' = k
  · subst hkk
    rw [Function.update_self]
    apply toMap_of_absent V hash val hI'
    intro b hb
    by_cases hba : b = a
    · subst hba
      rw [Holds, Function.update_self, he] at hb
      exact absurd hb.1 (by decide)
    · rw [Holds, Function.update_of_ne hba] at hb
      exact hba (hI.unique k' b a hb ha)
  · rw [Function.update_of_ne hkk]
    exact (writesAt_bury V ha he).toMap_eq V hash val hI hI' hkk

theorem full_card {t : Fin cap → E} (hI : Inv V hash t) (hl : ∀ a, V.occ (t a) = .live) :
    {k | (lookup V hash t k).isSome}.ncard = cap := by
  have hr : {k | (lookup V hash t k).isSome} = Set.range fun a => V.key (t a) := by
    ext k
    simp only [Set.mem_ofPred_eq, Option.isSome_iff_exists, lookup_eq_some V hash hI,
      Set.mem_range]
    exact ⟨fun ⟨a, ha⟩ => ⟨a, ha.2⟩, fun ⟨a, ha⟩ => ⟨a, hl a, ha⟩⟩
  have hinj : Function.Injective fun a => V.key (t a) := by
    intro a b hab
    exact hI.unique _ a b ⟨hl a, rfl⟩ ⟨hl b, hab.symm⟩
  rw [hr, Set.ncard_range_of_injective hinj, Nat.card_fin]

theorem card_lt {t : Fin cap → E} (hI : Inv V hash t) {a : Fin cap} (ha : V.occ (t a) ≠ .live) :
    {k | (lookup V hash t k).isSome}.ncard < cap := by
  have hsub : {k | (lookup V hash t k).isSome} ⊆
      (fun b => V.key (t b)) '' {b | V.occ (t b) = .live} := by
    intro k hk
    simp only [Set.mem_ofPred_eq, Option.isSome_iff_exists] at hk
    obtain ⟨b, hb⟩ := hk
    obtain ⟨h1, h2⟩ := (lookup_eq_some V hash hI k b).mp hb
    exact ⟨b, h1, h2⟩
  have hlive : {b : Fin cap | V.occ (t b) = .live}.ncard < cap := by
    have hss : {b : Fin cap | V.occ (t b) = .live} ⊂ Set.univ :=
      Set.ssubset_univ_iff.mpr fun h => ha (h ▸ Set.mem_univ a : a ∈ {b | V.occ (t b) = .live})
    have hlt := Set.ncard_lt_ncard hss
    rwa [Set.ncard_univ, Nat.card_fin] at hlt
  exact Nat.lt_of_le_of_lt
    ((Set.ncard_le_ncard hsub (Set.toFinite _)).trans (Set.ncard_image_le (Set.toFinite _))) hlive

/-! ### Counting live slots -/

omit [DecidableEq K] [NeZero cap]

def liveCount (t : Fin cap → E) : ℕ := (Finset.univ.filter fun a => V.occ (t a) = .live).card

theorem liveCount_update_live {t : Fin cap → E} {a : Fin cap} {e : E} (he : V.occ e = .live) :
    liveCount V (Function.update t a e) =
      if V.occ (t a) = .live then liveCount V t else liveCount V t + 1 := by
  have hset : (Finset.univ.filter fun b => V.occ (Function.update t a e b) = .live) =
      insert a (Finset.univ.filter fun b => V.occ (t b) = .live) := by
    ext b
    by_cases hb : b = a
    · subst hb
      simp [he]
    · simp [hb]
  rw [liveCount, hset]
  split
  · next hl => rw [Finset.insert_eq_of_mem (by simp [hl]), liveCount]
  · next hl => rw [Finset.card_insert_of_notMem (by simp [hl]), liveCount]

theorem liveCount_update_dead {t : Fin cap → E} {a : Fin cap} {e : E} (he : V.occ e ≠ .live)
    (ha : V.occ (t a) = .live) :
    liveCount V (Function.update t a e) + 1 = liveCount V t := by
  have hset : (Finset.univ.filter fun b => V.occ (Function.update t a e b) = .live) =
      (Finset.univ.filter fun b => V.occ (t b) = .live).erase a := by
    ext b
    by_cases hb : b = a
    · subst hb
      simp [he]
    · simp [hb]
  have hmem : a ∈ Finset.univ.filter fun b => V.occ (t b) = .live := by simp [ha]
  rw [liveCount, hset, Finset.card_erase_add_one hmem, liveCount]

theorem liveCount_congr {t t' : Fin cap → E} (ho : ∀ a, V.occ (t' a) = V.occ (t a)) :
    liveCount V t' = liveCount V t := by
  simp only [liveCount, ho]

end LinearProbe
