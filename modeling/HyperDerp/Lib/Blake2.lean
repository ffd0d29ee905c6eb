import Mathlib.Data.Fin.Tuple.Basic
import Mathlib.Data.Fin.VecNotation
import Mathlib.Data.List.GetD
import Mathlib.Data.Nat.Digits.Defs
import Mathlib.Data.Nat.Sqrt

/-!
# BLAKE2 (RFC 7693)

The hash over words of `w` bits as the document defines it: the padded data is an
indexed sequence of blocks, all but the last of which are absorbed with the offset
behind them. `stream` is the same hash on what is left of an input.
-/

namespace Blake2

structure Params where
  rounds : ℕ
  r1 : ℕ
  r2 : ℕ
  r3 : ℕ
  r4 : ℕ

def blake2s : Params := ⟨10, 16, 12, 8, 7⟩

abbrev Words (w n : ℕ) : Type := Fin n → BitVec w

variable {w : ℕ}

/-! ### Constants (sections 2.6 and 2.7) -/

def prime : Fin 8 → ℕ := ![2, 3, 5, 7, 11, 13, 17, 19]

def IV (w : ℕ) : Words w 8 := fun i => BitVec.ofNat w (Nat.sqrt (prime i * 2 ^ (2 * w)))

def SIGMA : Fin 10 → Fin 16 → Fin 16 :=
  ![![0, 1, 2, 3, 4, 5, 6, 7, 8, 9, 10, 11, 12, 13, 14, 15],
    ![14, 10, 4, 8, 9, 15, 13, 6, 1, 12, 0, 2, 11, 7, 5, 3],
    ![11, 8, 12, 0, 5, 2, 15, 13, 10, 14, 3, 6, 7, 1, 9, 4],
    ![7, 9, 3, 1, 13, 12, 11, 14, 2, 6, 5, 10, 4, 0, 15, 8],
    ![9, 0, 5, 7, 2, 4, 10, 15, 14, 1, 11, 12, 6, 8, 3, 13],
    ![2, 12, 6, 10, 0, 11, 8, 3, 4, 13, 7, 5, 15, 14, 1, 9],
    ![12, 5, 1, 15, 14, 13, 4, 10, 0, 7, 6, 3, 9, 2, 8, 11],
    ![13, 11, 7, 14, 12, 1, 3, 9, 5, 0, 15, 4, 8, 6, 2, 10],
    ![6, 15, 14, 9, 11, 3, 0, 8, 12, 2, 13, 7, 1, 4, 10, 5],
    ![10, 2, 8, 4, 7, 6, 1, 5, 15, 11, 9, 14, 3, 12, 13, 0]]

/-! ### Compression (section 3) -/

def G (P : Params) (v : Words w 16) (a b c d : Fin 16) (x y : BitVec w) : Words w 16 :=
  let v := Function.update v a (v a + v b + x)
  let v := Function.update v d ((v d ^^^ v a).rotateRight P.r1)
  let v := Function.update v c (v c + v d)
  let v := Function.update v b ((v b ^^^ v c).rotateRight P.r2)
  let v := Function.update v a (v a + v b + y)
  let v := Function.update v d ((v d ^^^ v a).rotateRight P.r3)
  let v := Function.update v c (v c + v d)
  Function.update v b ((v b ^^^ v c).rotateRight P.r4)

def round (P : Params) (s : Fin 16 → Fin 16) (m v : Words w 16) : Words w 16 :=
  let v := G P v 0 4 8 12 (m (s 0)) (m (s 1))
  let v := G P v 1 5 9 13 (m (s 2)) (m (s 3))
  let v := G P v 2 6 10 14 (m (s 4)) (m (s 5))
  let v := G P v 3 7 11 15 (m (s 6)) (m (s 7))
  let v := G P v 0 5 10 15 (m (s 8)) (m (s 9))
  let v := G P v 1 6 11 12 (m (s 10)) (m (s 11))
  let v := G P v 2 7 8 13 (m (s 12)) (m (s 13))
  G P v 3 4 9 14 (m (s 14)) (m (s 15))

def F (P : Params) (h : Words w 8) (m : Words w 16) (t : ℕ) (f : Bool) : Words w 8 :=
  let v : Words w 16 := Fin.append h (IV w)
  let v := Function.update v 12 (v 12 ^^^ BitVec.ofNat w t)
  let v := Function.update v 13 (v 13 ^^^ BitVec.ofNat w (t / 2 ^ w))
  let v := if f then Function.update v 14 (v 14 ^^^ BitVec.allOnes w) else v
  let v := (List.range P.rounds).foldl (fun v i => round P (SIGMA (Fin.ofNat 10 i)) m v) v
  fun i => h i ^^^ v (Fin.castAdd 8 i) ^^^ v (Fin.natAdd 8 i)

/-! ### Data blocks and the hash (section 3.3) -/

def bb (w : ℕ) : ℕ := 16 * (w / 8)

def word (w : ℕ) (p : List UInt8) (off : ℕ) : BitVec w :=
  BitVec.ofNat w
    (Nat.ofDigits 256 ((List.range (w / 8)).map fun j => (p.getD (off + j) 0).toNat))

def block (w : ℕ) (p : List UInt8) (i : ℕ) : Words w 16 :=
  fun k => word w p (i * bb w + k * (w / 8))

def pad (w : ℕ) (p : List UInt8) : List UInt8 :=
  p ++ List.replicate ((bb w - p.length % bb w) % bb w) 0

/-- `dd`: the blocks of the key and of the message, and one of zeros where there are none. -/
def blockCount (w kk ll : ℕ) : ℕ :=
  if kk = 0 ∧ ll = 0 then 1 else (kk + bb w - 1) / bb w + (ll + bb w - 1) / bb w

/-- The words after the first `n` blocks of `d`, none of which is the last. -/
def absorb (P : Params) (d : ℕ → Words w 16) (h : Words w 8) : ℕ → Words w 8
  | 0 => h
  | n + 1 => F P (absorb P d h n) (d n) ((n + 1) * bb w) false

def init (w kk nn : ℕ) : Words w 8 :=
  Function.update (IV w) 0
    (IV w 0 ^^^ 0x01010000 ^^^ (BitVec.ofNat w kk <<< 8) ^^^ BitVec.ofNat w nn)

def bytes (x : BitVec w) : List UInt8 :=
  (List.range (w / 8)).map fun j => UInt8.ofNat (x.toNat / 256 ^ j)

def final (P : Params) (d : ℕ → Words w 16) (h : Words w 8) (dd total : ℕ) : Words w 8 :=
  F P (absorb P d h (dd - 1)) (d (dd - 1)) total true

/-- The digest of `nn` bytes. -/
def hash (P : Params) (w nn : ℕ) (key msg : List UInt8) : List UInt8 :=
  let kk := key.length
  let ll := msg.length
  let d := block w (pad w key ++ pad w msg)
  let dd := blockCount w kk ll
  let h := final P d (init w kk nn) dd (if kk = 0 then ll else ll + bb w)
  ((List.ofFn h).flatMap bytes).take nn

theorem length_hash (P : Params) {nn : ℕ} (h : nn ≤ 8 * (w / 8)) (key msg : List UInt8) :
    (hash P w nn key msg).length = nn := by
  unfold hash
  dsimp only
  generalize final P _ _ _ _ = v
  have hwords : ∀ l : List (BitVec w), (l.flatMap bytes).length = l.length * (w / 8) := by
    intro l
    induction l with
    | nil => simp
    | cons x l ih =>
      rw [List.flatMap_cons, List.length_append, ih, List.length_cons, Nat.succ_mul, Nat.add_comm]
      simp [bytes]
  rw [List.length_take, hwords, List.length_ofFn]
  exact Nat.min_eq_left h

/-! ### Bytes behind the end -/

theorem getD_append_zeros (p : List UInt8) (n i : ℕ) :
    (p ++ List.replicate n 0).getD i 0 = p.getD i 0 := by
  by_cases h : i < p.length
  · exact List.getD_append _ _ _ _ h
  · rw [List.getD_append_right _ _ _ _ (by omega), List.getD_eq_default p _ (by omega),
      List.getD_eq_getElem?_getD, List.getElem?_replicate]
    split
    · rfl
    · rfl

theorem getD_drop (p : List UInt8) (k i : ℕ) : (p.drop k).getD i 0 = p.getD (k + i) 0 := by
  rw [List.getD_eq_getElem?_getD, List.getD_eq_getElem?_getD, List.getElem?_drop]

theorem word_congr {p q : List UInt8} {off off' : ℕ}
    (h : ∀ j < w / 8, p.getD (off + j) 0 = q.getD (off' + j) 0) :
    word w p off = word w q off' := by
  unfold word
  congr 2
  apply List.map_congr_left
  intro j hj
  rw [h j (List.mem_range.mp hj)]

theorem block_congr {p q : List UInt8} {i i' : ℕ}
    (h : ∀ j < bb w, p.getD (i * bb w + j) 0 = q.getD (i' * bb w + j) 0) :
    block w p i = block w q i' := by
  funext k
  apply word_congr
  intro j hj
  have hk : (k : ℕ) * (w / 8) + j < bb w := by
    have hmul : ((k : ℕ) + 1) * (w / 8) ≤ 16 * (w / 8) := Nat.mul_le_mul_right _ k.isLt
    rw [Nat.succ_mul] at hmul
    unfold bb
    omega
  have hbyte := h _ hk
  simpa only [Nat.add_assoc] using hbyte

theorem block_append_zeros (p : List UInt8) (n i : ℕ) :
    block w (p ++ List.replicate n 0) i = block w p i := by
  apply block_congr
  intro j _
  exact getD_append_zeros p n _

theorem block_drop (p : List UInt8) (n : ℕ) : block w (p.drop (n * bb w)) 0 = block w p n := by
  apply block_congr
  intro j _
  rw [getD_drop, Nat.zero_mul, Nat.zero_add]

theorem block_append {p : List UInt8} (q : List UInt8) (h : p.length = bb w) :
    block w (p ++ q) 0 = block w p 0 := by
  apply block_congr
  intro j hj
  exact List.getD_append _ _ _ _ (by omega)

theorem block_take (p : List UInt8) : block w (p.take (bb w)) 0 = block w p 0 := by
  apply block_congr
  intro j hj
  rw [Nat.zero_mul, Nat.zero_add, List.getD_eq_getElem?_getD, List.getElem?_take_of_lt hj,
    List.getD_eq_getElem?_getD]

/-! ### One block after the other -/

/-- The hash of what is left of an input; `fuel` bounds the number of blocks. -/
def stream (P : Params) : ℕ → Words w 8 → ℕ → List UInt8 → Words w 8
  | 0, h, _, _ => h
  | fuel + 1, h, t, rest =>
    if bb w < rest.length then
      stream P fuel (F P h (block w rest 0) (t + bb w) false) (t + bb w) (rest.drop (bb w))
    else F P h (block w rest 0) (t + rest.length) true

def ceilBlocks (w n : ℕ) : ℕ := (n + bb w - 1) / bb w

theorem ceilBlocks_eq {n k : ℕ} (hlt : k * bb w < n) (hle : n ≤ k * bb w + bb w) :
    ceilBlocks w n = k + 1 := by
  unfold ceilBlocks
  apply Nat.div_eq_of_lt_le
  · rw [Nat.succ_mul]
    omega
  · rw [Nat.succ_mul, Nat.succ_mul]
    omega

theorem stream_eq (P : Params) (data : List UInt8) (h0 : Words w 8) (fuel n : ℕ)
    (hbb : 0 < bb w) (hn : n * bb w < data.length ∨ n = 0)
    (hfuel : data.length - n * bb w < fuel) :
    stream P fuel (absorb P (block w data) h0 n) (n * bb w) (data.drop (n * bb w)) =
      final P (block w data) h0 (max 1 (ceilBlocks w data.length)) data.length := by
  induction fuel generalizing n with
  | zero => omega
  | succ fuel ih =>
    have hsucc : (n + 1) * bb w = n * bb w + bb w := Nat.succ_mul n (bb w)
    unfold stream
    rw [block_drop, List.length_drop]
    by_cases hmore : bb w < data.length - n * bb w
    · have hnext := ih (n + 1) (Or.inl (by omega)) (by omega)
      rw [if_pos hmore, List.drop_drop, ← hsucc]
      exact hnext
    · have hblocks : max 1 (ceilBlocks w data.length) - 1 = n := by
        rcases hn with hlt | hzero
        · rw [ceilBlocks_eq hlt (by omega)]
          omega
        · rw [hzero, Nat.zero_mul] at hmore
          by_cases hempty : data.length = 0
          · rw [hempty, hzero]
            unfold ceilBlocks
            rw [Nat.div_eq_of_lt (by omega)]
            rfl
          · rw [ceilBlocks_eq (k := 0) (by omega) (by omega), hzero]
            rfl
      have htotal : n * bb w + (data.length - n * bb w) = data.length := by
        rcases hn with hlt | hzero
        · omega
        · rw [hzero, Nat.zero_mul]
          omega
      rw [if_neg hmore, htotal]
      unfold final
      rw [hblocks]

/-! ### The padded data, as one input -/

theorem length_pad_key {key : List UInt8} (hpos : 0 < key.length) (hle : key.length ≤ bb w) :
    (pad w key).length = bb w := by
  unfold pad
  rw [List.length_append, List.length_replicate]
  rcases Nat.lt_or_eq_of_le hle with hlt | heq
  · rw [Nat.mod_eq_of_lt hlt, Nat.mod_eq_of_lt (by omega)]
    omega
  · rw [heq, Nat.mod_self, Nat.sub_zero, Nat.mod_self]
    omega

/-- What is hashed: the key in a block of its own, where there is one, and the message. -/
def input (w : ℕ) (key msg : List UInt8) : List UInt8 := pad w key ++ msg

theorem block_input (key msg : List UInt8) (i : ℕ) :
    block w (pad w key ++ pad w msg) i = block w (input w key msg) i := by
  unfold input
  rw [pad.eq_def w msg, ← List.append_assoc]
  exact block_append_zeros _ _ i

theorem input_nil (msg : List UInt8) : input w [] msg = msg := by simp [input, pad]

theorem length_input {key : List UInt8} (hkey : key.length ≤ bb w) (msg : List UInt8) :
    (input w key msg).length = if key.length = 0 then msg.length else msg.length + bb w := by
  by_cases h : key.length = 0
  · rw [if_pos h, List.length_eq_zero_iff.mp h, input_nil]
  · rw [if_neg h, input, List.length_append, length_pad_key (by omega) hkey, Nat.add_comm]

theorem blockCount_eq {key : List UInt8} (hbb : 0 < bb w) (hkey : key.length ≤ bb w)
    (msg : List UInt8) : blockCount w key.length msg.length =
      max 1 (ceilBlocks w (input w key msg).length) := by
  have hzero : (0 + bb w - 1) / bb w = 0 := Nat.div_eq_of_lt (by omega)
  rw [length_input hkey]
  unfold blockCount ceilBlocks
  by_cases hk : key.length = 0
  · rw [if_pos hk, hk, hzero]
    by_cases hm : msg.length = 0
    · rw [if_pos ⟨rfl, hm⟩, hm, hzero]
      rfl
    · have hpos : 0 < (msg.length + bb w - 1) / bb w := Nat.div_pos (by omega) hbb
      rw [if_neg (by omega)]
      omega
  · have hone : (key.length + bb w - 1) / bb w = 1 := by
      apply Nat.div_eq_of_lt_le
      · omega
      · omega
    have hshift : msg.length + bb w + bb w - 1 = msg.length + bb w - 1 + bb w := by omega
    rw [if_neg (by omega), if_neg hk, hone, hshift, Nat.add_div_right _ hbb]
    generalize (msg.length + bb w - 1) / bb w = rest
    omega

theorem hash_eq_final (P : Params) (nn : ℕ) {key : List UInt8} (msg : List UInt8)
    (hbb : 0 < bb w) (hkey : key.length ≤ bb w) :
    hash P w nn key msg =
      ((List.ofFn (final P (block w (input w key msg)) (init w key.length nn)
        (max 1 (ceilBlocks w (input w key msg).length)) (input w key msg).length)).flatMap
          bytes).take nn := by
  have hblocks : block w (pad w key ++ pad w msg) = block w (input w key msg) :=
    funext (block_input key msg)
  unfold hash
  dsimp only
  rw [hblocks, blockCount_eq hbb hkey, ← length_input hkey]

theorem hash_eq_stream (P : Params) (nn : ℕ) (msg : List UInt8) (hbb : 0 < bb w) :
    hash P w nn [] msg =
      ((List.ofFn (stream P (msg.length + 1) (init w 0 nn) 0 msg)).flatMap bytes).take nn := by
  have hrun := stream_eq P msg (init w 0 nn) (msg.length + 1) 0 hbb (Or.inr rfl) (by omega)
  rw [Nat.zero_mul, List.drop_zero] at hrun
  rw [hash_eq_final P nn msg hbb (Nat.zero_le _), input_nil, List.length_nil, ← hrun]
  rfl

theorem hash_eq_keyed (P : Params) (nn : ℕ) {key msg : List UInt8} (hbb : 0 < bb w)
    (hpos : 0 < key.length) (hkey : key.length ≤ bb w) (hmsg : 0 < msg.length) :
    hash P w nn key msg =
      ((List.ofFn (stream P (msg.length + 1)
        (F P (init w key.length nn) (block w (pad w key) 0) (bb w) false) (bb w) msg)).flatMap
          bytes).take nn := by
  have hpad := length_pad_key hpos hkey
  have hlength : (input w key msg).length = msg.length + bb w := by
    rw [length_input hkey, if_neg (by omega)]
  have hrun := stream_eq P (input w key msg) (init w key.length nn) (msg.length + 1) 1 hbb
    (Or.inl (by omega)) (by omega)
  have hdrop : (input w key msg).drop (bb w) = msg := List.drop_left' hpad
  have hfirst : block w (input w key msg) 0 = block w (pad w key) 0 := block_append msg hpad
  rw [Nat.one_mul, hdrop] at hrun
  rw [hash_eq_final P nn msg hbb hkey, ← hrun]
  unfold absorb absorb
  rw [hfirst, Nat.zero_add, Nat.one_mul]

theorem hash_eq_key (P : Params) (nn : ℕ) {key : List UInt8} (hbb : 0 < bb w)
    (hpos : 0 < key.length) (hkey : key.length ≤ bb w) :
    hash P w nn key [] =
      ((List.ofFn (F P (init w key.length nn) (block w (pad w key) 0) (bb w) true)).flatMap
        bytes).take nn := by
  have hpad := length_pad_key hpos hkey
  have hinput : input w key [] = pad w key := List.append_nil _
  rw [hash_eq_final P nn [] hbb hkey, hinput, hpad,
    ceilBlocks_eq (k := 0) (by omega) (by omega)]
  rfl

end Blake2
