import Mathlib.Data.List.Nodup
import Mathlib.Logic.Function.Basic

/-!
# Feeds of additions and deletions

A set kept in step by notes that add or delete one element each, and the notes of one
recipient among those of many.
-/

namespace Feed

variable {K W : Type}

inductive Note (K : Type) where
  | present (key : K)
  | gone (key : K)
  deriving DecidableEq

section

variable [DecidableEq K]

def Note.apply (view : K → Bool) : Note K → K → Bool
  | .present key => Function.update view key true
  | .gone key => Function.update view key false

def fold (ns : List (Note K)) : K → Bool := ns.foldl Note.apply fun _ => false

variable {ns : List (Note K)} {k j : K}

theorem fold_present : fold (ns ++ [Note.present k]) j = true ↔ j = k ∨ fold ns j = true := by
  simp only [fold, List.foldl_append, List.foldl_cons, List.foldl_nil, Note.apply]
  by_cases hj : j = k
  · simp [hj]
  · simp [hj, Function.update_of_ne]

theorem fold_gone : fold (ns ++ [Note.gone k]) j = true ↔ j ≠ k ∧ fold ns j = true := by
  simp only [fold, List.foldl_append, List.foldl_cons, List.foldl_nil, Note.apply]
  by_cases hj : j = k
  · simp [hj]
  · simp [hj, Function.update_of_ne]

theorem fold_presents (ks : List K) :
    fold (ns ++ ks.map Note.present) j = true ↔ j ∈ ks ∨ fold ns j = true := by
  induction ks generalizing ns with
  | nil => simp
  | cons k ks ih =>
    rw [List.map_cons, List.append_cons, ih, fold_present, List.mem_cons]
    tauto

end

variable [DecidableEq W]

def notesTo (sends : List (W × Note K)) (w : W) : List (Note K) :=
  (sends.filter fun s => s.1 = w).map Prod.snd

theorem notesTo_all {ws : List W} (h : ws.Nodup) (n : Note K) (w : W) :
    notesTo (ws.map fun v => (v, n)) w = if w ∈ ws then [n] else [] := by
  induction ws with
  | nil => rfl
  | cons v ws ih =>
    rw [List.nodup_cons] at h
    have hrest := ih h.2
    unfold notesTo at hrest ⊢
    by_cases hv : v = w
    · subst hv
      rw [if_neg h.1] at hrest
      simp [hrest]
    · simp [hv, hrest, Ne.symm hv]

theorem notesTo_one (v w : W) (ns : List (Note K)) :
    notesTo (ns.map fun n => (v, n)) w = if w = v then ns else [] := by
  unfold notesTo
  by_cases hv : v = w
  · simp [hv, List.filter_map, Function.comp_def]
  · simp [List.filter_map, Function.comp_def, hv, Ne.symm hv]

end Feed
