import HyperDerp.Lib.BigEndian
import Mathlib.Data.List.Basic

/-!
# Readers of a byte buffer that fail outside it

A reader runs on a buffer and stops with `none` at the first byte it asks for
that the buffer does not hold. A reader that returns a value on a buffer has
read nothing at or beyond the buffer's length.
-/

namespace CheckedBytes

abbrev Reader := ReaderT (List UInt8) Option

variable {α β : Type}

/-- The byte at `off`. -/
def byte (off : ℕ) : Reader UInt8 := fun p => p[off]?

/-- The `n` bytes from `off`, one after the other. -/
def bytes : ℕ → ℕ → Reader (List UInt8)
  | _, 0 => pure []
  | off, n + 1 => do
    let b ← byte off
    let bs ← bytes (off + 1) n
    pure (b :: bs)

/-- The big-endian number in the `n` bytes from `off`. -/
def word (off n : ℕ) : Reader ℕ := do
  let bs ← bytes off n
  pure (BigEndian.val bs)

/-- The `count` big-endian numbers of `n` bytes each from `off`. -/
def words (n : ℕ) : ℕ → ℕ → Reader (List ℕ)
  | _, 0 => pure []
  | off, count + 1 => do
    let v ← word off n
    let vs ← words n (off + n) count
    pure (v :: vs)

/-- A reader told the buffer's length stays inside every buffer and computes `f`. -/
def Inside (reader : ℕ → Reader α) (f : List UInt8 → α) : Prop :=
  ∀ p : List UInt8, (reader p.length).run p = some (f p)

@[simp] theorem run_pure (a : α) (p : List UInt8) : (pure a : Reader α).run p = some a := rfl

variable {p : List UInt8} {off n : ℕ}

theorem run_bind {r : Reader α} {k : α → Reader β} {a : α} (h : r.run p = some a) :
    (r >>= k).run p = (k a).run p := by
  change (r.run p).bind (fun a => (k a).run p) = _
  rw [h]
  rfl

theorem getD_eq_getElem (h : off < p.length) :
    p.getD off 0 = p[off] := by
  rw [List.getD_eq_getElem?_getD, List.getElem?_eq_getElem h, Option.getD_some]

theorem run_byte (h : off < p.length) :
    (byte off).run p = some (p.getD off 0) := by
  change p[off]? = _
  rw [getD_eq_getElem h, List.getElem?_eq_getElem h]

theorem run_bytes (h : off + n ≤ p.length) :
    (bytes off n).run p = some ((p.drop off).take n) := by
  induction n generalizing off with
  | zero => simp [bytes]
  | succ n ih =>
    have hlt : off < p.length := by omega
    have hcons : (p.drop off).take (n + 1) = p.getD off 0 :: (p.drop (off + 1)).take n := by
      rw [List.drop_eq_getElem_cons hlt, List.take_succ_cons, getD_eq_getElem hlt]
    rw [bytes, run_bind (run_byte hlt), run_bind (ih (by omega)), run_pure, hcons]

theorem run_word (h : off + n ≤ p.length) :
    (word off n).run p = some (BigEndian.val ((p.drop off).take n)) := by
  rw [word, run_bind (run_bytes h), run_pure]

theorem run_words {count : ℕ} (h : off + count * n ≤ p.length) :
    (words n off count).run p = some ((List.range count).map fun i =>
      BigEndian.val ((p.drop (off + i * n)).take n)) := by
  induction count generalizing off with
  | zero => simp [words]
  | succ count ih =>
    have hmul : (count + 1) * n = count * n + n := by ring
    rw [words, run_bind (run_word (by omega)), run_bind (ih (by omega)), run_pure,
      List.range_succ_eq_map, List.map_cons, List.map_map]
    simp only [Nat.zero_mul, Nat.add_zero, Option.some.injEq, List.cons.injEq, true_and]
    apply List.map_congr_left
    intro i _
    have hoff : off + n + i * n = off + i.succ * n := by
      rw [Nat.succ_mul]
      omega
    simp only [Function.comp_apply, hoff]

/-! ### Fields of a buffer, put back together -/

theorem field_append (p : List UInt8) (off n m : ℕ) :
    (p.drop off).take n ++ (p.drop (off + n)).take m = (p.drop off).take (n + m) := by
  rw [List.take_add, List.drop_drop]

theorem prefix_append (p : List UInt8) (n m : ℕ) :
    p.take n ++ (p.drop n).take m = p.take (n + m) :=
  List.take_add.symm

theorem field_byte (h : off < p.length) :
    [p.getD off 0] = (p.drop off).take 1 := by
  rw [List.drop_eq_getElem_cons h, getD_eq_getElem h]
  rfl

theorem length_field (h : off + n ≤ p.length) :
    ((p.drop off).take n).length = n := by
  simp only [List.length_take, List.length_drop]
  omega

theorem field_word (h : off + n ≤ p.length) :
    BigEndian.bytes n (BigEndian.val ((p.drop off).take n)) = (p.drop off).take n :=
  BigEndian.bytes_val_of_length (length_field h)

theorem field_array (p : List UInt8) (off n count : ℕ) :
    (List.range count).flatMap (fun i => (p.drop (off + i * n)).take n) =
      (p.drop off).take (count * n) := by
  induction count with
  | zero => simp
  | succ count ih =>
    rw [List.range_succ, List.flatMap_append, ih, List.flatMap_singleton, field_append,
      Nat.succ_mul]

end CheckedBytes
