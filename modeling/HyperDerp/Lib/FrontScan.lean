import Mathlib.Data.List.FinRange
import Mathlib.Logic.Function.Basic

/-!
# Arrays scanned from the front

A fixed array of records searched in slot order for the first record that a test
accepts. Tables of this kind are written one slot at a time, so the lemmas say
what a write does to a search.
-/

namespace FrontScan

variable {n : ℕ} {α β : Type} {a : Fin n → α} {p : α → Bool} {i j : Fin n}

def first (a : Fin n → α) (p : α → Bool) : Option (Fin n) :=
  (List.finRange n).find? fun i => p (a i)

theorem first_some (h : first a p = some i) : p (a i) = true := by
  have hi := List.find?_some h
  exact hi

theorem first_none : first a p = none ↔ ∀ i, p (a i) = false := by
  unfold first
  rw [List.find?_eq_none]
  constructor
  · intro h i
    have hi := h i (List.mem_finRange i)
    simpa using hi
  · intro h i _
    simp [h i]

theorem first_isSome (h : p (a i) = true) : (first a p).isSome = true := by
  cases hf : first a p with
  | none =>
    rw [first_none] at hf
    rw [hf i] at h
    cases h
  | some j => rfl

theorem first_before (h : first a p = some i) (hj : j < i) : p (a j) = false := by
  unfold first at h
  rw [List.find?_eq_some_iff_getElem] at h
  obtain ⟨-, k, hk, hki, hbefore⟩ := h
  rw [List.getElem_finRange] at hki
  have hik : i.val = k := by
    rw [← hki]
    rfl
  have hjk : j.val < k := by
    rw [← hik]
    exact hj
  have hj' := hbefore j.val hjk
  rw [List.getElem_finRange] at hj'
  simpa using hj'

theorem first_eq_some (hi : p (a i) = true) (hbefore : ∀ j < i, p (a j) = false) :
    first a p = some i := by
  cases hf : first a p with
  | none =>
    rw [first_none] at hf
    rw [hf i] at hi
    cases hi
  | some k =>
    have hk := first_some hf
    rcases lt_trichotomy k i with hlt | heq | hgt
    · rw [hbefore k hlt] at hk
      cases hk
    · rw [heq]
    · rw [first_before hf hgt] at hi
      cases hi

theorem first_of_unique (hi : p (a i) = true) (hone : ∀ j, p (a j) = true → j = i) :
    first a p = some i := by
  apply first_eq_some hi
  intro j hj
  cases hp : p (a j) with
  | false => rfl
  | true => exact absurd (hone j hp) hj.ne

theorem first_congr {b : Fin n → β} {q : β → Bool} (h : ∀ i, p (a i) = q (b i)) :
    first a p = first b q := by
  unfold first
  congr 1
  funext i
  exact h i

theorem first_update (x : α) (h : p x = p (a i)) :
    first (Function.update a i x) p = first a p := by
  apply first_congr
  intro j
  by_cases hj : j = i
  · rw [hj, Function.update_self, h]
  · rw [Function.update_of_ne hj]

theorem first_update_new {x : α} (hnone : first a p = none) (hx : p x = true) :
    first (Function.update a i x) p = some i := by
  rw [first_none] at hnone
  apply first_of_unique
  · rw [Function.update_self, hx]
  · intro j hj
    by_contra hne
    rw [Function.update_of_ne hne, hnone j] at hj
    cases hj

theorem first_update_gone {x : α} (hone : ∀ j, p (a j) = true → j = i) (hx : p x = false) :
    first (Function.update a i x) p = none := by
  rw [first_none]
  intro j
  by_cases hj : j = i
  · rw [hj, Function.update_self, hx]
  · rw [Function.update_of_ne hj]
    cases hp : p (a j) with
    | false => rfl
    | true => exact absurd (hone j hp) hj

end FrontScan
