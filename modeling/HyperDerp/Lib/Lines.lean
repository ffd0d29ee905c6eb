import Mathlib.Data.List.Basic
import Mathlib.Tactic.Common

/-!
# Lines

A text is read as lines, each of them ended by the same symbol; what follows the
last end is no line.
-/

namespace Lines

variable {α : Type} {nl : α}

def join (nl : α) (ls : List (List α)) : List α := ls.flatMap fun l => l ++ [nl]

def Whole (nl : α) (text : List α) : Prop := ∃ ls, (∀ l ∈ ls, nl ∉ l) ∧ text = join nl ls

theorem join_append (ls ms : List (List α)) : join nl (ls ++ ms) = join nl ls ++ join nl ms :=
  List.flatMap_append

theorem whole_nil : Whole nl ([] : List α) := ⟨[], fun _ h => (List.not_mem_nil h).elim, rfl⟩

variable [BEq α] [LawfulBEq α]

def complete (nl : α) (text : List α) : List (List α) := (text.splitOn nl).dropLast

theorem splitOn_join {ls : List (List α)} (h : ∀ l ∈ ls, nl ∉ l) :
    (join nl ls).splitOn nl = ls ++ [[]] := by
  induction ls with
  | nil => rfl
  | cons l ls ih =>
    have hl := h l (List.mem_cons_self ..)
    have hrest : ∀ m ∈ ls, nl ∉ m := fun m hm => h m (List.mem_cons_of_mem _ hm)
    have hcons : join nl (l :: ls) = l ++ nl :: join nl ls := by simp [join]
    rw [hcons, List.splitOn_append_cons_self_of_not_mem hl, ih hrest, List.cons_append]

theorem complete_join {ls : List (List α)} (h : ∀ l ∈ ls, nl ∉ l) : complete nl (join nl ls) = ls := by
  rw [complete, splitOn_join h, List.dropLast_concat]

theorem Whole.snoc {text l : List α} (h : Whole nl text) (hl : nl ∉ l) :
    Whole nl (text ++ (l ++ [nl])) ∧ complete nl (text ++ (l ++ [nl])) = complete nl text ++ [l] := by
  obtain ⟨ls, hls, rfl⟩ := h
  have hall : ∀ m ∈ ls ++ [l], nl ∉ m := by
    intro m hm
    rw [List.mem_append, List.mem_singleton] at hm
    rcases hm with hm | rfl
    · exact hls m hm
    · exact hl
  have hjoin : join nl ls ++ (l ++ [nl]) = join nl (ls ++ [l]) := by simp [join]
  rw [hjoin, complete_join hall, complete_join hls]
  exact ⟨⟨ls ++ [l], hall, rfl⟩, rfl⟩

theorem not_mem_splitOn {text l : List α} (h : l ∈ text.splitOn nl) : nl ∉ l := by
  induction text generalizing l with
  | nil =>
    rw [List.splitOn_nil, List.mem_singleton] at h
    simp [h]
  | cons b text ih =>
    rw [List.splitOn_cons_eq_if_modifyHead] at h
    split at h
    · rw [List.mem_cons] at h
      rcases h with rfl | h
      · exact List.not_mem_nil
      · exact ih h
    · next hb =>
      obtain ⟨m, ms, hm⟩ := List.exists_cons_of_ne_nil (List.splitOn_ne_nil nl text)
      rw [hm, List.modifyHead_cons, List.mem_cons] at h
      rcases h with rfl | h
      · rw [List.mem_cons, not_or]
        exact ⟨fun heq => hb (by simp [heq]), ih (hm ▸ List.mem_cons_self ..)⟩
      · exact ih (hm ▸ List.mem_cons_of_mem _ h)

end Lines
