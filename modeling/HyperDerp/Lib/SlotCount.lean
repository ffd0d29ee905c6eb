import Mathlib.Algebra.BigOperators.Group.Finset.Basic
import Mathlib.Data.Fintype.BigOperators
import Mathlib.Data.Fintype.Card

/-!
# Counting slots

How many records of a finite table pass a test, and how a write to one slot
changes the number.
-/

namespace SlotCount

variable {ι α : Type} [Fintype ι] {p : α → Bool} {a : ι → α} {i : ι} {x : α}

def count (a : ι → α) (p : α → Bool) : ℕ := (Finset.univ.filter fun i => p (a i) = true).card

theorem count_update [DecidableEq ι] (p : α → Bool) (a : ι → α) (i : ι) (x : α) :
    count (Function.update a i x) p + (if p (a i) then 1 else 0) =
      count a p + if p x then 1 else 0 := by
  have hrest : ∑ j ∈ Finset.univ.erase i, (if p (Function.update a i x j) then 1 else 0) =
      ∑ j ∈ Finset.univ.erase i, if p (a j) then 1 else 0 := by
    apply Finset.sum_congr rfl
    intro j hj
    rw [Function.update_of_ne (Finset.ne_of_mem_erase hj)]
  unfold count
  rw [Finset.card_filter, Finset.card_filter,
    ← Finset.add_sum_erase _ _ (Finset.mem_univ i), ← Finset.add_sum_erase _ _ (Finset.mem_univ i),
    hrest, Function.update_self]
  omega

theorem count_update_on [DecidableEq ι] (h : p (a i) = false) (hx : p x = true) :
    count (Function.update a i x) p = count a p + 1 := by
  have hc := count_update p a i x
  simpa [h, hx] using hc

theorem count_update_off [DecidableEq ι] (h : p (a i) = true) (hx : p x = false) :
    count (Function.update a i x) p + 1 = count a p := by
  have hc := count_update p a i x
  simpa [h, hx] using hc

theorem count_update_same [DecidableEq ι] (h : p x = p (a i)) :
    count (Function.update a i x) p = count a p := by
  have hc := count_update p a i x
  rw [h] at hc
  omega

theorem count_le (a : ι → α) (p : α → Bool) : count a p ≤ Fintype.card ι :=
  Finset.card_le_univ _

theorem count_of_all (h : ∀ i, p (a i) = true) : count a p = Fintype.card ι := by
  unfold count
  rw [Finset.filter_true_of_mem fun i _ => h i, Finset.card_univ]

theorem count_of_none (h : ∀ i, p (a i) = false) : count a p = 0 := by
  unfold count
  rw [Finset.card_eq_zero, Finset.filter_eq_empty_iff]
  intro i _
  simp [h i]

end SlotCount
