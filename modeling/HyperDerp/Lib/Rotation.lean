import Mathlib.Data.List.Basic
import Mathlib.Tactic.Common

/-!
# Rotated files

Numbered files: 0 is the active one, and the greater the number, the older the
file. A rotation drops the oldest and moves the others up by one.
-/

namespace Rotation

variable {α β : Type}

abbrev Files (α : Type) := ℕ → Option α

def remove (files : Files α) (j : ℕ) : Files α := Function.update files j none

def rename (files : Files α) (j k : ℕ) : Files α :=
  match files j with
  | none => files
  | some c => Function.update (Function.update files k (some c)) j none

/-- Files `n` to 1 are renamed, the oldest first. -/
def shift : ℕ → Files α → Files α
  | 0, files => files
  | n + 1, files => shift n (rename files (n + 1) (n + 2))

def rotate (keep : ℕ) (files : Files α) : Files α :=
  rename (shift (keep - 1) (remove files keep)) 0 1

theorem rename_apply (files : Files α) {j k : ℕ} (hk : files k = none) (i : ℕ) :
    rename files j k i = if i = j then none else if i = k then files j else files i := by
  unfold rename
  cases hj : files j with
  | none =>
    by_cases hij : i = j
    · simp [hij, hj]
    · by_cases hik : i = k
      · simp [hik, hk]
      · simp [hij, hik]
  | some c => simp [Function.update_apply]

theorem shift_apply (n : ℕ) (files : Files α) (h : files (n + 1) = none) (i : ℕ) :
    shift n files i =
      if i = 1 then none else if 2 ≤ i ∧ i ≤ n + 1 then files (i - 1) else files i := by
  induction n generalizing files with
  | zero =>
    by_cases h1 : i = 1
    · simp [shift, h1, h]
    · have hgt : ¬(2 ≤ i ∧ i ≤ 0 + 1) := by omega
      simp [shift, h1, hgt]
  | succ n ih =>
    have hrename := rename_apply files (j := n + 1) h
    rw [shift, ih _ (by rw [hrename]; simp)]
    simp only [hrename]
    by_cases h1 : i = 1
    · simp [h1]
    by_cases hlast : i = n + 2
    · have hgt : ¬(2 ≤ i ∧ i ≤ n + 1) := by omega
      have hle : 2 ≤ i ∧ i ≤ n + 1 + 1 := by omega
      simp [hlast]
    by_cases hle : 2 ≤ i ∧ i ≤ n + 1
    · have hle' : 2 ≤ i ∧ i ≤ n + 1 + 1 := by omega
      have hne : i - 1 ≠ n + 1 := by omega
      have hne' : i - 1 ≠ n + 2 := by omega
      rw [if_neg h1, if_pos hle, if_neg hne, if_neg hne', if_neg h1, if_pos hle']
    · have hgt : ¬(2 ≤ i ∧ i ≤ n + 1 + 1) := by omega
      have hne : i ≠ n + 1 := by omega
      rw [if_neg h1, if_neg hle, if_neg hne, if_neg hlast, if_neg h1, if_neg hgt]

theorem rotate_apply {keep : ℕ} (hkeep : 1 ≤ keep) (files : Files α) (i : ℕ) :
    rotate keep files i =
      if i = 0 then none else if i ≤ keep then files (i - 1) else files i := by
  obtain ⟨n, rfl⟩ : ∃ n, keep = n + 1 := ⟨keep - 1, by omega⟩
  have hgone : remove files (n + 1) (n + 1) = none := Function.update_self ..
  have hkept : ∀ j, j ≠ n + 1 → remove files (n + 1) j = files j :=
    fun j hj => Function.update_of_ne hj ..
  have hshift := shift_apply n (remove files (n + 1)) hgone
  have hone : shift n (remove files (n + 1)) 1 = none := by rw [hshift]; simp
  unfold rotate
  rw [Nat.add_sub_cancel, rename_apply _ hone]
  simp only [hshift]
  by_cases h0 : i = 0
  · simp [h0]
  by_cases h1 : i = 1
  · simp [h1, hkept]
  by_cases hle : i ≤ n + 1
  · have hle' : 2 ≤ i ∧ i ≤ n + 1 := by omega
    rw [if_neg h0, if_neg h1, if_neg h1, if_pos hle', if_neg h0, if_pos hle, hkept _ (by omega)]
  · have hgt : ¬(2 ≤ i ∧ i ≤ n + 1) := by omega
    rw [if_neg h0, if_neg h1, if_neg h1, if_neg hgt, if_neg h0, if_neg hle, hkept _ (by omega)]

/-- What files `n` to 0 hold, the oldest first. -/
def oldestFirst (g : ℕ → List β) : ℕ → List β
  | 0 => g 0
  | n + 1 => g (n + 1) ++ oldestFirst g n

theorem oldestFirst_congr {g g' : ℕ → List β} {n : ℕ} (h : ∀ i ≤ n, g i = g' i) :
    oldestFirst g n = oldestFirst g' n := by
  induction n with
  | zero => exact h 0 (Nat.le_refl 0)
  | succ n ih =>
    rw [oldestFirst, oldestFirst, h (n + 1) (Nat.le_refl _), ih fun i hi => h i (by omega)]

theorem oldestFirst_append {g g' : ℕ → List β} {n : ℕ} {more : List β} (h0 : g' 0 = g 0 ++ more)
    (h : ∀ i, i ≠ 0 → g' i = g i) : oldestFirst g' n = oldestFirst g n ++ more := by
  induction n with
  | zero => exact h0
  | succ n ih => rw [oldestFirst, oldestFirst, h (n + 1) (by omega), ih, List.append_assoc]

theorem oldestFirst_succ (g : ℕ → List β) (n : ℕ) (h : g 0 = []) :
    oldestFirst g (n + 1) = oldestFirst (fun i => g (i + 1)) n := by
  induction n with
  | zero => simp [oldestFirst, h]
  | succ n ih => rw [oldestFirst, ih, oldestFirst]

theorem oldestFirst_rotate {keep : ℕ} (hkeep : 1 ≤ keep) (files : Files α) (lines : α → List β) :
    oldestFirst (fun i => (files i).elim [] lines) keep =
      (files keep).elim [] lines ++
        oldestFirst (fun i => (rotate keep files i).elim [] lines) keep := by
  obtain ⟨n, rfl⟩ : ∃ n, keep = n + 1 := ⟨keep - 1, by omega⟩
  rw [oldestFirst, oldestFirst_succ _ n (by rw [rotate_apply hkeep]; rfl)]
  congr 1
  apply oldestFirst_congr
  intro i hi
  rw [rotate_apply hkeep, if_neg (by omega), if_pos (by omega), Nat.add_sub_cancel]

end Rotation
