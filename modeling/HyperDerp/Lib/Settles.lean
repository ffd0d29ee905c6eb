import Mathlib.Logic.Basic

/-!
# What a queue of commands may do

A value is changed by the commands of a queue, one after the other, and each
command has several possible effects. `Settles` relates the value now to the
values it may have once the queue is empty.
-/

variable {C D : Type} {step : C → D → D → Prop}

inductive Settles (step : C → D → D → Prop) : List C → D → D → Prop
  | nil (d : D) : Settles step [] d d
  | cons {c : C} {cs : List C} {d e f : D} (h : step c d e) (hs : Settles step cs e f) :
      Settles step (c :: cs) d f

namespace Settles

variable {c : C} {cs : List C} {d e : D}

theorem of_nil (h : Settles step [] d e) : e = d := by
  cases h
  rfl

theorem snoc_iff : Settles step (cs ++ [c]) d e ↔ ∃ m, Settles step cs d m ∧ step c m e := by
  induction cs generalizing d with
  | nil =>
    constructor
    · rintro (_ | ⟨h, hs⟩)
      rw [hs.of_nil]
      exact ⟨d, .nil d, h⟩
    · rintro ⟨m, hm, h⟩
      rw [hm.of_nil] at h
      exact .cons h (.nil e)
  | cons x xs ih =>
    constructor
    · rintro (_ | ⟨h, hs⟩)
      obtain ⟨m, hm, hc⟩ := ih.mp hs
      exact ⟨m, .cons h hm, hc⟩
    · rintro ⟨m, _ | ⟨h, hm⟩, hc⟩
      exact .cons h (ih.mpr ⟨m, hm, hc⟩)

theorem kept {P : D → Prop} (hP : ∀ c ∈ cs, ∀ d e, P d → step c d e → P e)
    (h : Settles step cs d e) (hd : P d) : P e := by
  induction h with
  | nil d => exact hd
  | cons h hs ih =>
    apply ih fun c hc => hP c (List.mem_cons_of_mem _ hc)
    exact hP _ List.mem_cons_self _ _ hd h

end Settles
