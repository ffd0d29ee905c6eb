import Mathlib.Data.Nat.Basic
import Mathlib.Tactic.Ring

/-!
# Big-endian byte strings

Fixed-width unsigned integers as byte strings, most significant byte first.
Writing keeps the low `n` bytes of the value, as a cast to `uint8_t` after a
right shift does; reading inverts writing up to that truncation.
-/

namespace BigEndian

def val : List UInt8 → ℕ
  | [] => 0
  | b :: bs => b.toNat * 256 ^ bs.length + val bs

/-- The low `n` bytes of `v`, most significant first. -/
def bytes : ℕ → ℕ → List UInt8
  | 0, _ => []
  | n + 1, v => UInt8.ofNat (v / 256 ^ n) :: bytes n v

@[simp] theorem length_bytes (n v : ℕ) : (bytes n v).length = n := by
  induction n with
  | zero => rfl
  | succ n ih => simp [bytes, ih]

theorem val_bytes (n v : ℕ) : val (bytes n v) = v % 256 ^ n := by
  induction n with
  | zero => simp [bytes, val, Nat.mod_one]
  | succ n ih =>
    have hb : (UInt8.ofNat (v / 256 ^ n)).toNat = v / 256 ^ n % 256 := by simp
    simp only [bytes, val, length_bytes, hb, ih]
    rw [Nat.mod_pow_succ]
    ring

theorem val_bytes_of_lt {n v : ℕ} (h : v < 256 ^ n) : val (bytes n v) = v := by
  rw [val_bytes, Nat.mod_eq_of_lt h]

theorem val_lt (bs : List UInt8) : val bs < 256 ^ bs.length := by
  induction bs with
  | nil => simp [val]
  | cons b bs ih =>
    have hb : b.toNat ≤ 255 := Nat.le_of_lt_succ b.toNat_lt
    have hm : b.toNat * 256 ^ bs.length ≤ 255 * 256 ^ bs.length :=
      Nat.mul_le_mul_right _ hb
    simp only [val, List.length_cons, pow_succ]
    omega

theorem bytes_mul_add (n k v : ℕ) : bytes n (k * 256 ^ n + v) = bytes n v := by
  induction n generalizing k with
  | zero => rfl
  | succ n ih =>
    have hsplit : k * 256 ^ (n + 1) + v = (k * 256) * 256 ^ n + v := by
      rw [pow_succ]
      ring
    have hdiv : (k * 256 * 256 ^ n + v) / 256 ^ n = k * 256 + v / 256 ^ n := by
      rw [Nat.add_comm, Nat.add_mul_div_right _ _ (Nat.pow_pos (by decide)), Nat.add_comm]
    have hhead : UInt8.ofNat (k * 256 + v / 256 ^ n) = UInt8.ofNat (v / 256 ^ n) := by
      apply UInt8.toNat_inj.mp
      simp
    simp only [bytes, hsplit, hdiv, hhead, ih]

theorem bytes_val (bs : List UInt8) : bytes bs.length (val bs) = bs := by
  induction bs with
  | nil => rfl
  | cons b bs ih =>
    have hdiv : (b.toNat * 256 ^ bs.length + val bs) / 256 ^ bs.length = b.toNat := by
      rw [Nat.add_comm, Nat.add_mul_div_right _ _ (Nat.pow_pos (by decide)),
        Nat.div_eq_of_lt (val_lt bs), Nat.zero_add]
    simp only [List.length_cons, bytes, val, hdiv, bytes_mul_add, ih, UInt8.ofNat_toNat]

theorem bytes_val_of_length {n : ℕ} {bs : List UInt8} (h : bs.length = n) :
    bytes n (val bs) = bs := by
  rw [← h, bytes_val]

end BigEndian
