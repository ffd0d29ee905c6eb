import HyperDerp.Lib.SlotPool

/-!
# Lists through the nodes

Several lists whose links stand in the nodes themselves. A node is in one list, or in none.
-/

namespace LinkedLists

open SlotPool (Chain)

variable {A P : Type}

/-- `place` says for each node the list it is in. -/
def Lists (next : A → Option A) (head : P → Option A) (place : A → Option P) : Prop :=
  ∀ p, ∃ xs, Chain next (head p) xs ∧ xs.Nodup ∧ ∀ x, x ∈ xs ↔ place x = some p

variable {next : A → Option A} {head : P → Option A} {place : A → Option P} {x : A} {p q : P}
  {v : Option A}

theorem Lists.head_place (hl : Lists next head place) (hp : head p = some x) :
    place x = some p := by
  obtain ⟨xs, hc, -, hmem⟩ := hl p
  rw [hp] at hc
  obtain ⟨ys, rfl, -⟩ := SlotPool.chain_some hc
  exact (hmem x).mp (List.mem_cons_self ..)

theorem Lists.head_none (hl : Lists next head place) (hp : head p = none) : place x ≠ some p := by
  obtain ⟨xs, hc, -, hmem⟩ := hl p
  rw [hp] at hc
  have hnil : xs = [] := by
    cases xs with
    | nil => rfl
    | cons y ys => cases hc.1
  rw [Ne, ← hmem, hnil]
  exact List.not_mem_nil

theorem chain_map {B : Type} {next' : B → Option B} {f : A → B}
    (hf : ∀ y, next' (f y) = (next y).map f) {o : Option A} {xs : List A} (hc : Chain next o xs) :
    Chain next' (o.map f) (xs.map f) := by
  induction xs generalizing o with
  | nil =>
    obtain rfl : o = none := hc
    rfl
  | cons y ys ih =>
    obtain ⟨rfl, hys⟩ := hc
    refine ⟨rfl, ?_⟩
    rw [hf]
    exact ih hys

section

variable [DecidableEq A]

theorem Lists.write (hl : Lists next head place) (hx : place x = none) :
    Lists (Function.update next x v) head place := by
  intro p
  obtain ⟨xs, hc, hnd, hmem⟩ := hl p
  refine ⟨xs, hc.write ?_, hnd, hmem⟩
  rw [hmem, hx]
  exact nofun

variable [DecidableEq P]

theorem Lists.push (hl : Lists next head place) (hx : place x = none) (hn : next x = head p) :
    Lists next (Function.update head p (some x)) (Function.update place x (some p)) := by
  intro q
  obtain ⟨xs, hc, hnd, hmem⟩ := hl q
  have hnot : x ∉ xs := by
    rw [hmem, hx]
    exact nofun
  by_cases hq : q = p
  · subst hq
    refine ⟨x :: xs, ?_, List.nodup_cons.mpr ⟨hnot, hnd⟩, fun y => ?_⟩
    · rw [Function.update_self]
      exact ⟨rfl, by rwa [hn]⟩
    · rw [List.mem_cons, hmem, Function.update_apply]
      by_cases hy : y = x
      · simp [hy]
      · simp [hy]
  · refine ⟨xs, by rwa [Function.update_of_ne hq], hnd, fun y => ?_⟩
    rw [hmem, Function.update_apply]
    by_cases hy : y = x
    · simp [hy, hx, Ne.symm hq]
    · simp [hy]

theorem Lists.pop (hl : Lists next head place) (hp : head p = some x) :
    Lists next (Function.update head p (next x)) (Function.update place x none) := by
  intro q
  obtain ⟨xs, hc, hnd, hmem⟩ := hl q
  by_cases hq : q = p
  · subst hq
    rw [hp] at hc
    obtain ⟨ys, rfl, hys⟩ := SlotPool.chain_some hc
    rw [List.nodup_cons] at hnd
    refine ⟨ys, by rwa [Function.update_self], hnd.2, fun y => ?_⟩
    rw [Function.update_apply]
    by_cases hy : y = x
    · simp [hy, hnd.1]
    · rw [if_neg hy, ← hmem, List.mem_cons]
      simp [hy]
  · have hx := hl.head_place hp
    refine ⟨xs, by rwa [Function.update_of_ne hq], hnd, fun y => ?_⟩
    rw [hmem, Function.update_apply]
    by_cases hy : y = x
    · simp [hy, hx, Ne.symm hq]
    · simp [hy]

end

theorem Lists.move [DecidableEq P] (hl : Lists next head place) (hpq : p ≠ q) (hq : head q = none) :
    Lists next (Function.update (Function.update head q (head p)) p none)
      (fun y => if place y = some p then some q else place y) := by
  intro r
  by_cases hr : r = p
  · subst hr
    refine ⟨[], by rw [Function.update_self]; rfl, List.nodup_nil, fun y => ?_⟩
    by_cases hy : place y = some r
    · simp [hy, Ne.symm hpq]
    · simp [hy]
  · by_cases hrq : r = q
    · subst hrq
      obtain ⟨xs, hc, hnd, hmem⟩ := hl p
      refine ⟨xs, ?_, hnd, fun y => ?_⟩
      · rwa [Function.update_of_ne hr, Function.update_self]
      · rw [hmem]
        by_cases hy : place y = some p
        · simp [hy]
        · simp [hy, hl.head_none hq]
    · obtain ⟨xs, hc, hnd, hmem⟩ := hl r
      refine ⟨xs, ?_, hnd, fun y => ?_⟩
      · rwa [Function.update_of_ne hr, Function.update_of_ne hrq]
      · rw [hmem]
        by_cases hy : place y = some p
        · simp [hy, Ne.symm hr, Ne.symm hrq]
        · simp [hy]

end LinkedLists
