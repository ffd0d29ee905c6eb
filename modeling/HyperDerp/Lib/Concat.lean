import Mathlib.Data.List.Basic

/-!
# Beginnings of a concatenation

Where a concatenation of parts is cut, whole parts stand before the cut and the
beginning of one more.
-/

namespace Concat

variable {α : Type} {parts more front ts : List (List α)} {x tail : List α}

/-- The beginning of the part behind `front`, not all of it. -/
def Tail (parts front : List (List α)) (tail : List α) : Prop :=
  tail = [] ∨ ∃ f, front ++ [f] <+: parts ∧ tail <+: f ∧ tail ≠ f

theorem Tail.mono (h : Tail parts front tail) (hp : parts <+: more) : Tail more front tail := by
  obtain hnil | ⟨f, hf, htail⟩ := h
  · exact .inl hnil
  · exact .inr ⟨f, hf.trans hp, htail⟩

theorem Tail.append (h : Tail parts front tail) (ts : List (List α)) :
    Tail (ts ++ parts) (ts ++ front) tail := by
  obtain hnil | ⟨f, hf, htail⟩ := h
  · exact .inl hnil
  · refine .inr ⟨f, ?_, htail⟩
    rw [List.append_assoc]
    exact (List.prefix_append_right_inj ts).mpr hf

theorem flatten_mono (h : ts <+: parts) : ts.flatten <+: parts.flatten := by
  obtain ⟨us, rfl⟩ := h
  rw [List.flatten_append]
  exact List.prefix_append ..

theorem exists_cut (h : x <+: parts.flatten) :
    ∃ front tail, front <+: parts ∧ x = front.flatten ++ tail ∧ Tail parts front tail := by
  induction parts generalizing x with
  | nil =>
    obtain rfl := List.prefix_nil.mp h
    exact ⟨[], [], List.prefix_rfl, rfl, .inl rfl⟩
  | cons f parts ih =>
    rw [List.flatten_cons] at h
    by_cases hshort : x.length < f.length
    · have hx : x <+: f := List.prefix_of_prefix_length_le h (List.prefix_append ..) (by omega)
      have hne : x ≠ f := by
        rintro rfl
        omega
      exact ⟨[], x, List.nil_prefix, rfl, .inr ⟨f, ⟨parts, rfl⟩, hx, hne⟩⟩
    · have hf : f <+: x := List.prefix_of_prefix_length_le (List.prefix_append ..) h (by omega)
      obtain ⟨y, rfl⟩ := hf
      rw [List.prefix_append_right_inj] at h
      obtain ⟨front, tail, hfront, rfl, htail⟩ := ih h
      refine ⟨f :: front, tail, ?_, ?_, htail.append [f]⟩
      · exact List.cons_prefix_cons.mpr ⟨rfl, hfront⟩
      · rw [List.flatten_cons, List.append_assoc]

theorem exists_later_cut {y : List α} (hfront : front <+: parts)
    (h : front.flatten ++ tail ++ y <+: parts.flatten) :
    ∃ mid tail', front ++ mid <+: parts ∧ tail ++ y = mid.flatten ++ tail' ∧
      Tail parts (front ++ mid) tail' := by
  obtain ⟨rest, rfl⟩ := hfront
  rw [List.flatten_append, List.append_assoc, List.prefix_append_right_inj] at h
  obtain ⟨mid, tail', hmid, heq, htail⟩ := exists_cut h
  exact ⟨mid, tail', (List.prefix_append_right_inj front).mpr hmid, heq, htail.append front⟩

theorem Tail.eq_nil (h : Tail parts front tail) (hts : ts <+: parts)
    (heq : front.flatten ++ tail = ts.flatten) : tail = [] := by
  obtain hnil | ⟨f, hf, htail, hne⟩ := h
  · exact hnil
  have hshort : tail.length < f.length := by
    have hle := htail.length_le
    have hlen : tail.length ≠ f.length := fun hlen => hne (htail.eq_of_length hlen)
    omega
  have hlen := congrArg List.length heq
  rw [List.length_append] at hlen
  obtain hlong | hback := List.prefix_or_prefix_of_prefix hf hts
  · have hwhole := (flatten_mono hlong).length_le
    simp only [List.flatten_append, List.flatten_singleton, List.length_append] at hwhole
    omega
  · obtain rfl | hback := List.prefix_concat_iff.mp hback
    · simp only [List.flatten_append, List.flatten_singleton, List.length_append] at hlen
      omega
    · have hle := (flatten_mono hback).length_le
      exact List.eq_nil_of_length_eq_zero (by omega)

end Concat
