import Mathlib.Data.List.TakeWhile
import Mathlib.Tactic.Common

/-!
# Splitting a list at the last occurrence of an element

What comes before the last `c` of a list and what comes after it, neither of
them with the `c` itself.
-/

namespace LastSplit

variable {α : Type} [DecidableEq α] {c : α} {s t u : List α}

/-- The elements after the last `c`, all of them where there is none. -/
def tail (c : α) (s : List α) : List α := (s.reverse.takeWhile fun b => decide (b ≠ c)).reverse

def splitLast (c : α) (s : List α) : Option (List α × List α) :=
  let t := tail c s
  if t.length = s.length then none else some (s.take (s.length - t.length - 1), t)

theorem tail_append (s : List α) (h : c ∉ t) : tail c (s ++ c :: t) = t := by
  have hall : ∀ b ∈ t.reverse, decide (b ≠ c) = true := by
    intro b hb
    rw [List.mem_reverse] at hb
    exact decide_eq_true fun hbc => h (hbc ▸ hb)
  unfold tail
  rw [List.reverse_append, List.reverse_cons, List.append_assoc, List.takeWhile_append_of_pos hall]
  simp

theorem tail_of_not_mem (h : c ∉ s) : tail c s = s := by
  have hall : ∀ b ∈ s.reverse, decide (b ≠ c) = true := by
    intro b hb
    rw [List.mem_reverse] at hb
    exact decide_eq_true fun hbc => h (hbc ▸ hb)
  unfold tail
  rw [List.takeWhile_eq_self_iff.mpr hall, List.reverse_reverse]

theorem splitLast_append (s : List α) (h : c ∉ t) : splitLast c (s ++ c :: t) = some (s, t) := by
  have hshort : t.length ≠ (s ++ c :: t).length := by
    simp only [List.length_append, List.length_cons]
    omega
  have hlength : (s ++ c :: t).length - t.length - 1 = s.length := by
    simp only [List.length_append, List.length_cons]
    omega
  simp only [splitLast, tail_append s h, hshort, if_false, hlength, List.take_left']

theorem exists_last (h : c ∈ s) : ∃ t u, s = t ++ c :: u ∧ c ∉ u := by
  induction s with
  | nil => cases h
  | cons b s ih =>
    by_cases hs : c ∈ s
    · obtain ⟨t, u, rfl, hu⟩ := ih hs
      exact ⟨b :: t, u, rfl, hu⟩
    · obtain rfl : c = b := (List.mem_cons.mp h).resolve_right hs
      exact ⟨[], s, rfl, hs⟩

theorem splitLast_none : splitLast c s = none ↔ c ∉ s := by
  constructor
  · intro hnone hmem
    obtain ⟨t, u, rfl, hu⟩ := exists_last hmem
    rw [splitLast_append t hu] at hnone
    cases hnone
  · intro hmem
    unfold splitLast
    simp only [tail_of_not_mem hmem, if_true]

theorem splitLast_some : splitLast c s = some (t, u) ↔ s = t ++ c :: u ∧ c ∉ u := by
  constructor
  · intro hsome
    by_cases hmem : c ∈ s
    · obtain ⟨t', u', rfl, hu⟩ := exists_last hmem
      rw [splitLast_append t' hu] at hsome
      cases hsome
      exact ⟨rfl, hu⟩
    · rw [splitLast_none.mpr hmem] at hsome
      cases hsome
  · rintro ⟨rfl, hu⟩
    exact splitLast_append t hu

end LastSplit
