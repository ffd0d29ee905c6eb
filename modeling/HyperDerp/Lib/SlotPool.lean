import Mathlib.Data.Fintype.Basic
import Mathlib.Data.List.FinRange
import Mathlib.Data.List.Nodup
import Mathlib.Logic.Function.Basic

/-!
# Slots held or linked into a free list

Holders each have at most one slot, no slot has two holders, and the links from `head` pass
exactly the slots without one, each once.
-/

namespace SlotPool

variable {A O : Type}

/-- The slots that the links lead through from `head`. -/
def Chain (next : A → Option A) : Option A → List A → Prop
  | head, [] => head = none
  | head, x :: xs => head = some x ∧ Chain next (next x) xs

def Free (h : O → Option A) (x : A) : Prop := ∀ o, h o ≠ some x

structure Pool (next : A → Option A) (head : Option A) (h : O → Option A) : Prop where
  single : ∀ o o' x, h o = some x → h o' = some x → o = o'
  linked : ∃ xs, Chain next head xs ∧ xs.Nodup ∧ ∀ x, x ∈ xs ↔ Free h x

variable {next : A → Option A} {head v : Option A} {x : A} {xs : List A} {h : O → Option A} {o o' : O}

theorem chain_some (hc : Chain next (some x) xs) : ∃ ys, xs = x :: ys ∧ Chain next (next x) ys := by
  cases xs with
  | nil => cases hc
  | cons y ys =>
    obtain ⟨hy, hys⟩ := hc
    cases hy
    exact ⟨ys, rfl, hys⟩

section

variable [DecidableEq A]

theorem Chain.write (hc : Chain next head xs) (hx : x ∉ xs) :
    Chain (Function.update next x v) head xs := by
  induction xs generalizing head with
  | nil => exact hc
  | cons y ys ih =>
    rw [List.mem_cons, not_or] at hx
    refine ⟨hc.1, ?_⟩
    rw [Function.update_of_ne (Ne.symm hx.1)]
    exact ih hc.2 hx.2

theorem Pool.write (hp : Pool next head h) (hx : h o = some x) :
    Pool (Function.update next x v) head h := by
  obtain ⟨xs, hc, hnd, hmem⟩ := hp.linked
  refine ⟨hp.single, xs, hc.write ?_, hnd, hmem⟩
  rw [hmem]
  exact fun hfree => hfree o hx

end

section

variable [DecidableEq O]

theorem Pool.take (hp : Pool next head h) (hhead : head = some x) (ho : h o = none) :
    Pool next (next x) (Function.update h o (some x)) := by
  obtain ⟨xs, hc, hnd, hmem⟩ := hp.linked
  rw [hhead] at hc
  obtain ⟨ys, rfl, hys⟩ := chain_some hc
  have hfree : Free h x := (hmem x).mp (List.mem_cons_self ..)
  rw [List.nodup_cons] at hnd
  refine ⟨?_, ys, hys, hnd.2, fun y => ?_⟩
  · intro p q y hp' hq'
    rw [Function.update_apply] at hp' hq'
    split at hp'
    · next hpo =>
      cases hp'
      split at hq'
      · next hqo => rw [hpo, hqo]
      · exact absurd hq' (hfree q)
    · split at hq'
      · cases hq'
        exact absurd hp' (hfree p)
      · exact hp.single p q y hp' hq'
  · have hy := hmem y
    rw [List.mem_cons] at hy
    constructor
    · intro hin p
      rw [Function.update_apply]
      split
      · rintro he
        cases he
        exact hnd.1 hin
      · exact hy.mp (.inr hin) p
    · intro hall
      have hne : y ≠ x := by
        rintro rfl
        exact hall o (Function.update_self ..)
      refine (hy.mpr fun p hpy => ?_).resolve_left hne
      have hpo : p ≠ o := by
        rintro rfl
        rw [ho] at hpy
        cases hpy
      have hp' := hall p
      rw [Function.update_of_ne hpo] at hp'
      exact hp' hpy

theorem Pool.give (hp : Pool next head h) (hx : h o = some x) (hnext : next x = head) :
    Pool next (some x) (Function.update h o none) := by
  obtain ⟨xs, hc, hnd, hmem⟩ := hp.linked
  have hnot : x ∉ xs := by
    rw [hmem]
    exact fun hfree => hfree o hx
  refine ⟨?_, x :: xs, ⟨rfl, by rwa [hnext]⟩, List.nodup_cons.mpr ⟨hnot, hnd⟩, fun y => ?_⟩
  · intro p q y hp' hq'
    rw [Function.update_apply] at hp' hq'
    split at hp'
    · cases hp'
    · split at hq'
      · cases hq'
      · exact hp.single p q y hp' hq'
  · rw [List.mem_cons, hmem]
    constructor
    · intro hy p
      rw [Function.update_apply]
      split
      · exact nofun
      · next hpo =>
        rcases hy with rfl | hy
        · exact fun hpx => hpo (hp.single p o y hpx hx)
        · exact hy p
    · intro hall
      by_cases hyx : y = x
      · exact .inl hyx
      · refine .inr fun p hpy => ?_
        have hp' := hall p
        by_cases hpo : p = o
        · rw [hpo, hx] at hpy
          exact hyx (Option.some.inj hpy).symm
        · rw [Function.update_of_ne hpo] at hp'
          exact hp' hpy

theorem Pool.pass (hp : Pool next head h) (ho' : h o' = none) :
    Pool next head (Function.update (Function.update h o none) o' (h o)) := by
  by_cases hoo : o = o'
  · rw [hoo, ho', Function.update_idem, ← ho', Function.update_eq_self]
    exact hp
  · obtain ⟨xs, hc, hnd, hmem⟩ := hp.linked
    -- the new holders, renamed back to the old ones
    have hback : ∀ p y, Function.update (Function.update h o none) o' (h o) p = some y →
        p ≠ o ∧ h (if p = o' then o else p) = some y := by
      intro p y hpy
      by_cases hp' : p = o'
      · rw [hp', Function.update_self] at hpy
        rw [if_pos hp', hp']
        exact ⟨Ne.symm hoo, hpy⟩
      · rw [Function.update_of_ne hp', Function.update_apply] at hpy
        split at hpy
        · cases hpy
        · next hpo =>
          rw [if_neg hp']
          exact ⟨hpo, hpy⟩
    refine ⟨?_, xs, hc, hnd, fun y => ?_⟩
    · intro p q y hp' hq'
      obtain ⟨hpo, hpy⟩ := hback p y hp'
      obtain ⟨hqo, hqy⟩ := hback q y hq'
      have heq := hp.single _ _ y hpy hqy
      split at heq <;> split at heq
      · next h1 h2 => rw [h1, h2]
      · exact absurd heq.symm hqo
      · exact absurd heq hpo
      · exact heq
    · rw [hmem]
      constructor
      · intro hfree p hpy
        exact hfree _ (hback p y hpy).2
      · intro hall p hpy
        by_cases hpo : p = o
        · apply hall o'
          rw [Function.update_self, ← hpo]
          exact hpy
        · have hp' := hall p
          have hne : p ≠ o' := by
            rintro rfl
            rw [ho'] at hpy
            cases hpy
          rw [Function.update_of_ne hne, Function.update_of_ne hpo] at hp'
          exact hp' hpy

end

/-! ### All slots in order -/

/-- Links through the slots of `Fin n` in order. -/
def inOrder (n : ℕ) (i : Fin n) : Option (Fin n) :=
  if hi : i.val + 1 < n then some ⟨i.val + 1, hi⟩ else none

theorem chain_inOrder {n k : ℕ} (hk : k ≤ n) :
    Chain (inOrder n) (if h : k < n then some ⟨k, h⟩ else none) ((List.finRange n).drop k) := by
  induction hm : n - k generalizing k with
  | zero =>
    have hkn : k = n := by omega
    subst hkn
    rw [dif_neg (Nat.lt_irrefl k), List.drop_eq_nil_of_le (by simp)]
    rfl
  | succ m ih =>
    have hlt : k < n := by omega
    have hlen : k < (List.finRange n).length := by simpa using hlt
    rw [dif_pos hlt, List.drop_eq_getElem_cons hlen]
    refine ⟨by simp, ?_⟩
    have hrest := ih (k := k + 1) (by omega) (by omega)
    have hx : (List.finRange n)[k] = ⟨k, hlt⟩ := by simp
    rw [hx]
    exact hrest

theorem pool_inOrder {n : ℕ} (hn : 0 < n) {h : O → Option (Fin n)} (hh : ∀ o, h o = none) :
    Pool (inOrder n) (some ⟨0, hn⟩) h := by
  refine ⟨fun o o' x ho => ?_, List.finRange n, ?_, List.nodup_finRange n, fun x => ?_⟩
  · rw [hh] at ho
    cases ho
  · have hall := chain_inOrder (Nat.zero_le n)
    rw [dif_pos hn] at hall
    exact hall
  · refine ⟨fun _ o => ?_, fun _ => List.mem_finRange x⟩
    rw [hh]
    exact nofun

end SlotPool
