import Mathlib.Data.List.Basic
import Mathlib.Tactic.IntervalCases

/-!
# Base64

The standard alphabet and padding (RFC 4648, section 4), and what an accumulator reads
out of a text that is shifted by every character and never masked.
-/

namespace Base64

def digit (s : ℕ) : UInt8 :=
  if s < 26 then UInt8.ofNat (0x41 + s)
  else if s < 52 then UInt8.ofNat (0x61 + (s - 26))
  else if s < 62 then UInt8.ofNat (0x30 + (s - 52))
  else if s = 62 then 0x2b
  else 0x2f

def pad : UInt8 := 0x3d

def sextets : List UInt8 → List ℕ
  | a :: b :: c :: rest =>
    a.toNat / 4 :: (a.toNat % 4 * 16 + b.toNat / 16) :: (b.toNat % 16 * 4 + c.toNat / 64) ::
      c.toNat % 64 :: sextets rest
  | [a, b] => [a.toNat / 4, a.toNat % 4 * 16 + b.toNat / 16, b.toNat % 16 * 4]
  | [a] => [a.toNat / 4, a.toNat % 4 * 16]
  | [] => []

def encode (bs : List UInt8) : List UInt8 :=
  (sextets bs).map digit ++ List.replicate ((3 - bs.length % 3) % 3) pad

def Blank (c : UInt8) : Prop := c = 0x0a ∨ c = 0x0d ∨ c = 0x20

instance (c : UInt8) : Decidable (Blank c) :=
  inferInstanceAs (Decidable (c = 0x0a ∨ c = 0x0d ∨ c = 0x20))

/-- `text` is `s` with blanks inserted anywhere. -/
def Spreads (text s : List UInt8) : Prop := text.filter (fun c => ¬ Blank c) = s

instance (text s : List UInt8) : Decidable (Spreads text s) :=
  inferInstanceAs (Decidable (text.filter (fun c => ¬ Blank c) = s))

theorem sextets_lt (bs : List UInt8) : ∀ s ∈ sextets bs, s < 64 := by
  induction bs using sextets.induct with
  | case1 a b c rest ih =>
    have ha := a.toNat_lt
    have hb := b.toNat_lt
    have hc := c.toNat_lt
    intro s hs
    simp only [sextets, List.mem_cons] at hs
    rcases hs with rfl | rfl | rfl | rfl | hs
    · omega
    · omega
    · omega
    · omega
    · exact ih s hs
  | case2 a b =>
    have ha := a.toNat_lt
    have hb := b.toNat_lt
    simp only [sextets, List.forall_mem_cons, List.not_mem_nil, false_implies, implies_true,
      and_true]
    omega
  | case3 a =>
    have ha := a.toNat_lt
    simp only [sextets, List.forall_mem_cons, List.not_mem_nil, false_implies, implies_true,
      and_true]
    omega
  | case4 => simp [sextets]

theorem length_sextets (bs : List UInt8) : (sextets bs).length = (4 * bs.length + 2) / 3 := by
  induction bs using sextets.induct with
  | case1 a b c rest ih =>
    simp only [sextets, List.length_cons, ih]
    omega
  | case2 a b => simp [sextets]
  | case3 a => simp [sextets]
  | case4 => simp [sextets]

theorem length_encode (bs : List UInt8) : (encode bs).length = (bs.length + 2) / 3 * 4 := by
  simp only [encode, List.length_append, List.length_map, length_sextets, List.length_replicate]
  omega

theorem digit_not_blank {s : ℕ} (h : s < 64) : ¬ Blank (digit s) := by
  have hall : ∀ s < 64, ¬ Blank (digit s) := by decide
  exact hall s h

theorem digit_ne_pad {s : ℕ} (h : s < 64) : digit s ≠ pad := by
  have hall : ∀ s < 64, digit s ≠ pad := by decide
  exact hall s h

theorem pad_not_blank : ¬ Blank pad := by decide

theorem Blank.ne_pad {c : UInt8} (h : Blank c) : c ≠ pad := by
  intro heq
  rw [heq] at h
  exact pad_not_blank h

theorem spreads_self (bs : List UInt8) : Spreads (encode bs) (encode bs) := by
  unfold Spreads
  rw [List.filter_eq_self]
  intro c hc
  simp only [encode, List.mem_append, List.mem_map, List.mem_replicate] at hc
  rcases hc with ⟨s, hs, rfl⟩ | ⟨-, rfl⟩
  · simpa using digit_not_blank (sextets_lt bs s hs)
  · simpa using pad_not_blank

theorem Spreads.length_le {text s : List UInt8} (h : Spreads text s) : s.length ≤ text.length := by
  rw [← h]
  exact List.length_filter_le _ _

/-! ### Two accumulators -/

/-- The accumulator keeps every bit that fits in its 32. -/
def drain (held : UInt32) (bits : ℕ) : List ℕ → List UInt8
  | [] => []
  | s :: ss =>
    let held := held <<< 6 ||| UInt32.ofNat s
    if 8 ≤ bits + 6 then
      (held >>> UInt32.ofNat (bits - 2)).toUInt8 :: drain held (bits - 2) ss
    else drain held (bits + 6) ss

theorem drain_emit (held : UInt32) {bits : ℕ} (h : 8 ≤ bits + 6) (s : ℕ) (ss : List ℕ) :
    drain held bits (s :: ss) =
      ((held <<< 6 ||| UInt32.ofNat s) >>> UInt32.ofNat (bits - 2)).toUInt8 ::
        drain (held <<< 6 ||| UInt32.ofNat s) (bits - 2) ss := if_pos h

theorem drain_hold (held : UInt32) {bits : ℕ} (h : ¬ 8 ≤ bits + 6) (s : ℕ) (ss : List ℕ) :
    drain held bits (s :: ss) = drain (held <<< 6 ||| UInt32.ofNat s) (bits + 6) ss := if_neg h

def masked (low bits : ℕ) : List ℕ → List UInt8
  | [] => []
  | s :: ss =>
    let low := low * 64 + s
    if 2 ≤ bits then
      UInt8.ofNat (low / 2 ^ (bits - 2)) :: masked (low % 2 ^ (bits - 2)) (bits - 2) ss
    else masked low (bits + 6) ss

theorem toNat_shifted (held : UInt32) {s : ℕ} (h : s < 64) :
    (held <<< 6 ||| UInt32.ofNat s).toNat = (held.toNat * 64 + s) % 2 ^ 32 := by
  have hs : (UInt32.ofNat s).toNat = s := UInt32.toNat_ofNat_of_lt' (by
    have : UInt32.size = 2 ^ 32 := rfl
    omega)
  have hshift : (held <<< 6).toNat = 2 ^ 6 * (held.toNat % 2 ^ 26) := by
    rw [UInt32.toNat_shiftLeft, Nat.shiftLeft_eq]
    have h6 : (6 : UInt32).toNat % 32 = 6 := rfl
    rw [h6]
    omega
  rw [UInt32.toNat_or, hs, hshift, ← Nat.two_pow_add_eq_or_of_lt (by omega)]
  omega

theorem toNat_readOut (held : UInt32) {n : ℕ} (h : n < 32) :
    (held >>> UInt32.ofNat n).toUInt8.toNat = held.toNat / 2 ^ n % 256 := by
  have hn : (UInt32.ofNat n).toNat = n := UInt32.toNat_ofNat_of_lt' (by
    have : UInt32.size = 2 ^ 32 := rfl
    omega)
  rw [UInt32.toNat_toUInt8, UInt32.toNat_shiftRight, hn, Nat.mod_eq_of_lt h,
    Nat.shiftRight_eq_div_pow]

theorem drain_eq_masked (ss : List ℕ) (hss : ∀ s ∈ ss, s < 64) (held : UInt32) {bits : ℕ}
    (hbits : bits < 8) : drain held bits ss = masked (held.toNat % 2 ^ bits) bits ss := by
  induction ss generalizing held bits with
  | nil => rfl
  | cons s ss ih =>
    have hs : s < 64 := hss s (List.mem_cons_self ..)
    have hrest : ∀ z ∈ ss, z < 64 := fun z hz => hss z (List.mem_cons_of_mem _ hz)
    have hnext := toNat_shifted held hs
    simp only [masked]
    by_cases h : 2 ≤ bits
    · rw [drain_emit _ (by omega), if_pos h, ih hrest _ (by omega), hnext]
      congr 1
      · apply UInt8.toNat_inj.mp
        rw [toNat_readOut _ (by omega), hnext, UInt8.toNat_ofNat']
        interval_cases bits <;> omega
      · congr 1
        interval_cases bits <;> omega
    · rw [drain_hold _ (by omega), if_neg h, ih hrest _ (by omega), hnext]
      congr 1
      interval_cases bits <;> omega

theorem masked_sextets (bs : List UInt8) : masked 0 0 (sextets bs) = bs := by
  have hbyte : ∀ {b : UInt8} {n : ℕ}, n % 256 = b.toNat → UInt8.ofNat n = b := by
    intro b n h
    apply UInt8.toNat_inj.mp
    rw [UInt8.toNat_ofNat', h]
  induction bs using sextets.induct with
  | case1 a b c rest ih =>
    have ha := a.toNat_lt
    have hb := b.toNat_lt
    have hc := c.toNat_lt
    simp only [sextets, masked, Nat.reduceAdd, Nat.reduceSub, Nat.reduceLeDiff, ↓reduceIte,
      List.cons.injEq]
    refine ⟨hbyte ?_, hbyte ?_, hbyte ?_, ?_⟩
    · omega
    · omega
    · omega
    · rw [pow_zero, Nat.mod_one]
      exact ih
  | case2 a b =>
    have ha := a.toNat_lt
    have hb := b.toNat_lt
    simp only [sextets, masked, Nat.reduceAdd, Nat.reduceSub, Nat.reduceLeDiff, ↓reduceIte,
      List.cons.injEq, and_true]
    refine ⟨hbyte ?_, hbyte ?_⟩
    · omega
    · omega
  | case3 a =>
    have ha := a.toNat_lt
    simp only [sextets, masked, Nat.reduceAdd, Nat.reduceSub, Nat.reduceLeDiff, ↓reduceIte,
      List.cons.injEq, and_true]
    refine hbyte ?_
    omega
  | case4 => rfl

theorem drain_sextets (bs : List UInt8) : drain 0 0 (sextets bs) = bs := by
  rw [drain_eq_masked _ (sextets_lt bs) 0 (by omega)]
  exact masked_sextets bs

end Base64
