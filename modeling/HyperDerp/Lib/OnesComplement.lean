import Mathlib.Algebra.BigOperators.Group.List.Basic
import Mathlib.Data.List.Basic
import Mathlib.Data.UInt

/-!
# One's complement sums

Sums of 16-bit words with the carry added back, and the two folding steps that take a
32-bit accumulator to one (RFC 1071).
-/

namespace OnesComplement

/-- What leaves the word at the top comes in at the bottom. -/
def add (a b : ℕ) : ℕ := if a + b < 2 ^ 16 then a + b else a + b - (2 ^ 16 - 1)

def sum (ws : List ℕ) : ℕ := ws.foldl add 0

def residue (n : ℕ) : ℕ := if n = 0 then 0 else (n - 1) % 65535 + 1

theorem residue_le (n : ℕ) : residue n ≤ 65535 := by
  unfold residue
  split
  · omega
  · omega

theorem residue_zero : residue 0 = 0 := rfl

theorem residue_of {n r : ℕ} (k : ℕ) (h : n = 65535 * k + r) (hpos : 0 < r) (hle : r ≤ 65535) :
    residue n = r := by
  unfold residue
  rw [if_neg (by omega)]
  omega

theorem residue_split {n : ℕ} (h : n ≠ 0) :
    0 < residue n ∧ n = 65535 * ((n - 1) / 65535) + residue n := by
  unfold residue
  rw [if_neg h]
  omega

theorem add_residue (n : ℕ) {w : ℕ} (h : w < 2 ^ 16) : add (residue n) w = residue (n + w) := by
  have hle := residue_le n
  unfold add
  by_cases hn : n = 0
  · rw [hn, residue_zero, Nat.zero_add, if_pos h]
    by_cases hw : w = 0
    · rw [hw, residue_zero]
    · exact (residue_of 0 (by omega) (by omega) (by omega)).symm
  · obtain ⟨hpos, hsplit⟩ := residue_split hn
    generalize (n - 1) / 65535 = k at hsplit
    split
    · exact (residue_of k (by omega) (by omega) (by omega)).symm
    · exact (residue_of (k + 1) (by omega) (by omega) (by omega)).symm

theorem foldl_add_residue (ws : List ℕ) (h : ∀ w ∈ ws, w < 2 ^ 16) (n : ℕ) :
    ws.foldl add (residue n) = residue (n + ws.sum) := by
  induction ws generalizing n with
  | nil => simp
  | cons w ws ih =>
    have hw : w < 2 ^ 16 := h w (List.mem_cons_self ..)
    have hws : ∀ z ∈ ws, z < 2 ^ 16 := fun z hz => h z (List.mem_cons_of_mem _ hz)
    rw [List.foldl_cons, add_residue n hw, ih hws, List.sum_cons, Nat.add_assoc]

theorem sum_eq_residue (ws : List ℕ) (h : ∀ w ∈ ws, w < 2 ^ 16) : sum ws = residue ws.sum := by
  have hfold := foldl_add_residue ws h 0
  rw [Nat.zero_add] at hfold
  exact hfold

theorem residue_eq_ones {n : ℕ} : residue n = 65535 ↔ n ≠ 0 ∧ n % 65535 = 0 := by
  unfold residue
  split
  · omega
  · omega

theorem residue_complement (n : ℕ) : residue (n + (65535 - residue n)) = 65535 := by
  have hle := residue_le n
  rw [residue_eq_ones]
  unfold residue at *
  split
  · omega
  · omega

theorem sum_completed (ws : List ℕ) {done : List ℕ} (h : ∀ w ∈ done, w < 2 ^ 16)
    (hsum : done.sum = ws.sum + (65535 - residue ws.sum)) : sum done = 65535 := by
  rw [sum_eq_residue done h, hsum]
  exact residue_complement _

/-! ### The other byte order -/

def swap (w : ℕ) : ℕ := w % 256 * 256 + w / 256

theorem swap_lt {w : ℕ} (h : w < 2 ^ 16) : swap w < 2 ^ 16 := by
  unfold swap
  omega

theorem sum_map_swap (ws : List ℕ) (h : ∀ w ∈ ws, w < 2 ^ 16) :
    (ws.map swap).sum % 65535 = ws.sum * 256 % 65535 := by
  induction ws with
  | nil => rfl
  | cons w ws ih =>
    have hw : w < 2 ^ 16 := h w (List.mem_cons_self ..)
    have hrest := ih (fun z hz => h z (List.mem_cons_of_mem _ hz))
    rw [List.map_cons, List.sum_cons, List.sum_cons]
    unfold swap at *
    omega

theorem sum_map_swap_eq_zero (ws : List ℕ) (h : ∀ w ∈ ws, w < 2 ^ 16) :
    (ws.map swap).sum = 0 ↔ ws.sum = 0 := by
  induction ws with
  | nil => rfl
  | cons w ws ih =>
    have hw : w < 2 ^ 16 := h w (List.mem_cons_self ..)
    have hrest := ih (fun z hz => h z (List.mem_cons_of_mem _ hz))
    have hzero : swap w = 0 ↔ w = 0 := by
      unfold swap
      omega
    rw [List.map_cons, List.sum_cons, List.sum_cons, Nat.add_eq_zero_iff, Nat.add_eq_zero_iff,
      hzero, hrest]

theorem residue_map_swap (ws : List ℕ) (h : ∀ w ∈ ws, w < 2 ^ 16) :
    residue (ws.map swap).sum = swap (residue ws.sum) := by
  have hmod := sum_map_swap ws h
  have hzero := sum_map_swap_eq_zero ws h
  generalize (ws.map swap).sum = n at *
  generalize ws.sum = m at *
  unfold residue swap
  split
  · split
    · rfl
    · omega
  · split
    · omega
    · omega

/-! ### The unrolled fold -/

/-- The sum of the words in 32 bits, the high half added to the low one twice, and the
complement cut to a word. -/
def checksum (ws : List UInt16) : UInt16 :=
  let sum := (ws.map UInt16.toUInt32).sum
  let sum := (sum >>> 16) + (sum &&& 0xFFFF)
  let sum := sum + (sum >>> 16)
  (~~~ sum).toUInt16

theorem two_folds {n : ℕ} (h : n < 2 ^ 32) :
    (n / 2 ^ 16 + n % 2 ^ 16 + (n / 2 ^ 16 + n % 2 ^ 16) / 2 ^ 16) % 2 ^ 16 = residue n := by
  have hsplit : n = 65535 * (n / 2 ^ 16) + (n / 2 ^ 16 + n % 2 ^ 16) := by omega
  have hhigh : n / 2 ^ 16 < 2 ^ 16 := by omega
  have hlow : n % 2 ^ 16 < 2 ^ 16 := Nat.mod_lt _ (by decide)
  generalize n / 2 ^ 16 = high at *
  generalize n % 2 ^ 16 = low at *
  by_cases hzero : high + low = 0
  · have hn : n = 0 := by omega
    rw [hzero, hn]
    rfl
  · by_cases hcarry : high + low < 2 ^ 16
    · rw [residue_of high hsplit (by omega) (by omega)]
      omega
    · have hone : (high + low) / 2 ^ 16 = 1 := by omega
      have hres : residue n = high + low - 65535 :=
        residue_of (high + 1) (by omega) (by omega) (by omega)
      rw [hres, hone]
      omega

theorem toNat_sum32 (ws : List UInt16) (h : ws.length ≤ 2 ^ 16) :
    (ws.map UInt16.toUInt32).sum.toNat = (ws.map UInt16.toNat).sum ∧
      (ws.map UInt16.toNat).sum ≤ ws.length * 65535 := by
  induction ws with
  | nil => simp
  | cons w ws ih =>
    simp only [List.length_cons] at h
    obtain ⟨heq, hle⟩ := ih (by omega)
    have hw := w.toNat_lt
    simp only [List.map_cons, List.sum_cons, List.length_cons, UInt32.toNat_add, heq,
      UInt16.toNat_toUInt32]
    omega

theorem toNat_checksum (ws : List UInt16) (h : ws.length ≤ 2 ^ 16) :
    (checksum ws).toNat = 65535 - sum (ws.map UInt16.toNat) := by
  obtain ⟨heq, hle⟩ := toNat_sum32 ws h
  have hlt : (ws.map UInt16.toNat).sum < 2 ^ 32 := by omega
  have hwords : ∀ w ∈ ws.map UInt16.toNat, w < 2 ^ 16 := by
    intro w hw
    obtain ⟨u, -, rfl⟩ := List.mem_map.mp hw
    exact u.toNat_lt
  rw [sum_eq_residue _ hwords, ← two_folds hlt]
  unfold checksum
  dsimp only
  generalize (ws.map UInt16.toUInt32).sum = acc at *
  generalize (ws.map UInt16.toNat).sum = n at *
  have hshift : (acc >>> 16).toNat = n / 2 ^ 16 := by
    rw [UInt32.toNat_shiftRight, heq, Nat.shiftRight_eq_div_pow]
    rfl
  have hmask : (acc &&& 0xFFFF).toNat = n % 2 ^ 16 := by
    rw [UInt32.toNat_and, heq]
    exact Nat.and_two_pow_sub_one_eq_mod n 16
  have hfold : ((acc >>> 16) + (acc &&& 0xFFFF)).toNat = n / 2 ^ 16 + n % 2 ^ 16 := by
    rw [UInt32.toNat_add, hshift, hmask]
    omega
  generalize (acc >>> 16) + (acc &&& 0xFFFF) = s at *
  have hshift2 : (s >>> 16).toNat = s.toNat / 2 ^ 16 := by
    rw [UInt32.toNat_shiftRight, Nat.shiftRight_eq_div_pow]
    rfl
  have htwice : (s + (s >>> 16)).toNat = s.toNat + s.toNat / 2 ^ 16 := by
    rw [UInt32.toNat_add, hshift2]
    omega
  rw [← hfold, UInt32.toNat_toUInt16, UInt32.toNat_not, htwice]
  have hsize : UInt32.size = 2 ^ 32 := rfl
  omega

end OnesComplement
