import Mathlib.Data.List.Basic

/-!
# Writing fields of a buffer in place
-/

namespace Patch

variable {α : Type} {p bs : List α} {i off n : ℕ}

def field (p : List α) (off n : ℕ) : List α := (p.drop off).take n

/-- `p` with `bs` written from `off` on; nothing is written past the end. -/
def put (p : List α) (off : ℕ) (bs : List α) : List α :=
  p.mapIdx fun i a => if i < off then a else bs.getD (i - off) a

@[simp] theorem length_put : (put p off bs).length = p.length := by simp [put]

theorem length_field (h : off + n ≤ p.length) : (field p off n).length = n := by
  simp only [field, List.length_take, List.length_drop]
  omega

theorem getElem?_field : (field p off n)[i]? = if i < n then p[off + i]? else none := by
  simp only [field, List.getElem?_take, List.getElem?_drop]

theorem field_append {next k : ℕ} (h : next = off + n) :
    field p off n ++ field p next k = field p off (n + k) := by
  unfold field
  rw [List.take_add, List.drop_drop, h]

theorem field_take {k : ℕ} (h : off + n ≤ k) : field (p.take k) off n = field p off n := by
  apply List.ext_getElem?
  intro i
  simp only [getElem?_field, List.getElem?_take]
  split
  · rw [if_pos (by omega)]
  · rfl

theorem getElem?_put_outside (h : i < off ∨ off + bs.length ≤ i) : (put p off bs)[i]? = p[i]? := by
  rw [put, List.getElem?_mapIdx]
  cases p[i]? with
  | none => rfl
  | some a =>
    rw [Option.map_some]
    split
    · rfl
    · rw [List.getD_eq_getElem?_getD, List.getElem?_eq_none (by omega), Option.getD_none]

theorem getElem?_put_inside (h : i < bs.length) (hp : off + bs.length ≤ p.length) :
    (put p off bs)[off + i]? = bs[i]? := by
  have hi : off + i < p.length := by omega
  have hsub : off + i - off = i := by omega
  rw [put, List.getElem?_mapIdx, List.getElem?_eq_getElem hi, Option.map_some,
    if_neg (by omega), hsub, List.getD_eq_getElem?_getD, List.getElem?_eq_getElem h,
    Option.getD_some]

theorem field_put_outside (h : off + bs.length ≤ i ∨ i + n ≤ off) :
    field (put p off bs) i n = field p i n := by
  apply List.ext_getElem?
  intro k
  simp only [getElem?_field]
  split
  · rw [getElem?_put_outside (by omega)]
  · rfl

theorem field_put (hn : bs.length = n) (hp : off + n ≤ p.length) :
    field (put p off bs) off n = bs := by
  apply List.ext_getElem?
  intro k
  rw [getElem?_field]
  split
  · rw [getElem?_put_inside (by omega) (by omega)]
  · rw [List.getElem?_eq_none (by omega)]

end Patch
