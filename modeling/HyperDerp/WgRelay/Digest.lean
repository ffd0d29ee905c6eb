import HyperDerp.Lib.Blake2
import HyperDerp.WgRelay.Mac1
import Mathlib.Data.List.OfFn

/-!
# The digests of the MAC check (`crypto/blake2s.cc:34-133`, `wg_relay.cc:507-540`)

The hash of the source runs over arrays of words, `enc` of the word functions of BLAKE2.
-/

namespace HyperDerp.Digest

def enc {n : ℕ} (v : Blake2.Words 32 n) : List UInt32 := List.ofFn fun i => UInt32.ofBitVec (v i)

theorem getD_enc {n : ℕ} (v : Blake2.Words 32 n) (i : Fin n) :
    (enc v).getD i 0 = UInt32.ofBitVec (v i) := by
  simp [enc, List.getD_eq_getElem?_getD]

theorem set_enc {n : ℕ} (v : Blake2.Words 32 n) (i : Fin n) (x : BitVec 32) :
    (enc v).set i (UInt32.ofBitVec x) = enc (Function.update v i x) := by
  apply List.ext_getElem
  · simp [enc]
  · intro j h1 h2
    have hj : j < n := by simpa [enc] using h2
    simp only [enc, List.getElem_set, List.getElem_ofFn, Function.update_apply]
    by_cases h : (i : ℕ) = j
    · rw [if_pos h, if_pos (Fin.ext h.symm)]
    · rw [if_neg h, if_neg (fun heq => h (congrArg Fin.val heq).symm)]

/-! ### Words and bytes -/

theorem or_high {a b k : ℕ} (ha : a < 2 ^ k) : a ||| 2 ^ k * b = a + 2 ^ k * b := by
  rw [Nat.or_comm, ← Nat.two_pow_add_eq_or_of_lt ha, Nat.add_comm]

theorem toNat_shiftLeft_byte (b : Byte) {n : UInt32} (hn : n.toNat ≤ 24) :
    (b.toUInt32 <<< n).toNat = 2 ^ n.toNat * b.toNat := by
  have hb := b.toNat_lt
  have hpow : 2 ^ n.toNat ≤ 2 ^ 24 := Nat.pow_le_pow_right (by omega) hn
  have hlt : 2 ^ n.toNat * b.toNat < 2 ^ 32 := by
    calc 2 ^ n.toNat * b.toNat ≤ 2 ^ 24 * 255 := Nat.mul_le_mul hpow (by omega)
      _ < 2 ^ 32 := by decide
  have hn32 : n.toNat % 32 = n.toNat := Nat.mod_eq_of_lt (by omega)
  rw [UInt32.toNat_shiftLeft, hn32, UInt8.toNat_toUInt32, Nat.shiftLeft_eq, Nat.mul_comm,
    Nat.mod_eq_of_lt hlt]

theorem load32LE_eq (p : Bytes) (off : ℕ) :
    load32LE p off = UInt32.ofBitVec (Blake2.word 32 p off) := by
  have h0 := (p.getD off 0).toNat_lt
  have h1 := (p.getD (off + 1) 0).toNat_lt
  have h2 := (p.getD (off + 2) 0).toNat_lt
  have h3 := (p.getD (off + 3) 0).toNat_lt
  apply UInt32.toNat_inj.mp
  have hload : (load32LE p off).toNat = (p.getD off 0).toNat + 2 ^ 8 * (p.getD (off + 1) 0).toNat +
      2 ^ 16 * (p.getD (off + 2) 0).toNat + 2 ^ 24 * (p.getD (off + 3) 0).toNat := by
    have h8 : (8 : UInt32).toNat = 8 := rfl
    have h16 : (16 : UInt32).toNat = 16 := rfl
    have h24 : (24 : UInt32).toNat = 24 := rfl
    have h01 : (p.getD off 0).toNat + 2 ^ 8 * (p.getD (off + 1) 0).toNat < 2 ^ 16 := by omega
    have h012 : (p.getD off 0).toNat + 2 ^ 8 * (p.getD (off + 1) 0).toNat +
        2 ^ 16 * (p.getD (off + 2) 0).toNat < 2 ^ 24 := by omega
    unfold load32LE
    rw [UInt32.toNat_or, UInt32.toNat_or, UInt32.toNat_or, UInt8.toNat_toUInt32,
      toNat_shiftLeft_byte _ (by omega), toNat_shiftLeft_byte _ (by omega),
      toNat_shiftLeft_byte _ (by omega), h8, h16, h24, or_high h0, or_high h01, or_high h012]
  have hword : (Blake2.word 32 p off).toNat = (p.getD off 0).toNat +
      2 ^ 8 * (p.getD (off + 1) 0).toNat + 2 ^ 16 * (p.getD (off + 2) 0).toNat +
        2 ^ 24 * (p.getD (off + 3) 0).toNat := by
    have hfour : List.range (32 / 8) = [0, 1, 2, 3] := rfl
    unfold Blake2.word
    rw [hfour, BitVec.toNat_ofNat]
    simp only [List.map_cons, List.map_nil, Nat.ofDigits_cons, Nat.ofDigits_nil, Nat.add_zero]
    omega
  rw [hload]
  exact hword.symm

theorem store32LE_eq (x : BitVec 32) : store32LE (UInt32.ofBitVec x) = Blake2.bytes x := by
  have hfour : List.range (32 / 8) = [0, 1, 2, 3] := rfl
  have hshift : ∀ k : UInt32, (UInt32.ofBitVec x >>> k).toUInt8.toNat =
      x.toNat / 2 ^ (k.toNat % 32) % 256 := by
    intro k
    rw [UInt32.toNat_toUInt8, UInt32.toNat_shiftRight, Nat.shiftRight_eq_div_pow]
    rfl
  unfold store32LE Blake2.bytes
  rw [hfour]
  simp only [List.map_cons, List.map_nil, List.cons.injEq, and_true]
  refine ⟨?_, ?_, ?_, ?_⟩
  · apply UInt8.toNat_inj.mp
    rw [UInt32.toNat_toUInt8, UInt8.toNat_ofNat', pow_zero, Nat.div_one]
    rfl
  · apply UInt8.toNat_inj.mp
    rw [hshift, UInt8.toNat_ofNat']
    rfl
  · apply UInt8.toNat_inj.mp
    rw [hshift, UInt8.toNat_ofNat']
    rfl
  · apply UInt8.toNat_inj.mp
    rw [hshift, UInt8.toNat_ofNat']
    rfl

/-! ### The constants -/

theorem IV_word {i : Fin 8} {p s : ℕ} (hp : Blake2.prime i = p) (hle : s * s ≤ p * 2 ^ 64)
    (hlt : p * 2 ^ 64 < (s + 1) * (s + 1)) : Blake2.IV 32 i = BitVec.ofNat 32 s := by
  have hsqrt : s = Nat.sqrt (p * 2 ^ 64) := Nat.eq_sqrt.mpr ⟨hle, hlt⟩
  unfold Blake2.IV
  rw [hp, hsqrt]

theorem kIV_eq : kIV = enc (Blake2.IV 32) := by
  have height : enc (Blake2.IV 32) = [0, 1, 2, 3, 4, 5, 6, 7].map fun i : Fin 8 =>
    UInt32.ofBitVec (Blake2.IV 32 i) := rfl
  rw [height]
  simp only [List.map_cons, List.map_nil]
  rw [IV_word (i := 0) (p := 2) (s := 0x16A09E667) rfl (by decide) (by decide),
    IV_word (i := 1) (p := 3) (s := 0x1BB67AE85) rfl (by decide) (by decide),
    IV_word (i := 2) (p := 5) (s := 0x23C6EF372) rfl (by decide) (by decide),
    IV_word (i := 3) (p := 7) (s := 0x2A54FF53A) rfl (by decide) (by decide),
    IV_word (i := 4) (p := 11) (s := 0x3510E527F) rfl (by decide) (by decide),
    IV_word (i := 5) (p := 13) (s := 0x39B05688C) rfl (by decide) (by decide),
    IV_word (i := 6) (p := 17) (s := 0x41F83D9AB) rfl (by decide) (by decide),
    IV_word (i := 7) (p := 19) (s := 0x45BE0CD19) rfl (by decide) (by decide)]
  decide

def row (s : Fin 16 → Fin 16) : List ℕ := List.ofFn fun i => (s i).val

theorem kSigma_eq : kSigma = (List.range 10).map fun i => row (Blake2.SIGMA (Fin.ofNat 10 i)) := by
  decide

/-! ### The mixing function and a round -/

theorem rotr_eq (x : BitVec 32) {n : UInt32} (h0 : 0 < n.toNat) (h32 : n.toNat < 32) :
    rotr (UInt32.ofBitVec x) n = UInt32.ofBitVec (x.rotateRight n.toNat) := by
  have hsub : (32 - n).toNat = 32 - n.toNat := by
    rw [UInt32.toNat_sub]
    have h : (32 : UInt32).toNat = 32 := rfl
    omega
  apply UInt32.toBitVec_inj.mp
  unfold rotr
  rw [UInt32.toBitVec_or, UInt32.toBitVec_shiftRight, UInt32.toBitVec_shiftLeft,
    UInt32.toBitVec_ofBitVec, BitVec.rotateRight_def, Nat.mod_eq_of_lt h32,
    BitVec.ushiftRight_eq', BitVec.shiftLeft_eq', UInt32.toBitVec_ofBitVec, BitVec.toNat_umod,
    BitVec.toNat_umod]
  congr 2
  · exact Nat.mod_eq_of_lt h32
  · change (32 - n).toNat % 32 = 32 - n.toNat
    omega

def Distinct (a b c d : Fin 16) : Prop := a ≠ b ∧ a ≠ c ∧ a ≠ d ∧ b ≠ c ∧ b ≠ d ∧ c ≠ d

instance (a b c d : Fin 16) : Decidable (Distinct a b c d) :=
  inferInstanceAs (Decidable (a ≠ b ∧ a ≠ c ∧ a ≠ d ∧ b ≠ c ∧ b ≠ d ∧ c ≠ d))

theorem quarter_eq (v : Blake2.Words 32 16) {a b c d : Fin 16} (x y : BitVec 32)
    (h : Distinct a b c d) :
    quarter (UInt32.ofBitVec (v a)) (UInt32.ofBitVec (v b)) (UInt32.ofBitVec (v c))
      (UInt32.ofBitVec (v d)) (UInt32.ofBitVec x) (UInt32.ofBitVec y) =
      (UInt32.ofBitVec (Blake2.G Blake2.blake2s v a b c d x y a),
        UInt32.ofBitVec (Blake2.G Blake2.blake2s v a b c d x y b),
        UInt32.ofBitVec (Blake2.G Blake2.blake2s v a b c d x y c),
        UInt32.ofBitVec (Blake2.G Blake2.blake2s v a b c d x y d)) := by
  obtain ⟨hab, hac, had, hbc, hbd, hcd⟩ := h
  have h16 : ∀ z : BitVec 32, rotr (UInt32.ofBitVec z) 16 = UInt32.ofBitVec (z.rotateRight 16) :=
    fun z => rotr_eq z (by decide) (by decide)
  have h12 : ∀ z : BitVec 32, rotr (UInt32.ofBitVec z) 12 = UInt32.ofBitVec (z.rotateRight 12) :=
    fun z => rotr_eq z (by decide) (by decide)
  have h8 : ∀ z : BitVec 32, rotr (UInt32.ofBitVec z) 8 = UInt32.ofBitVec (z.rotateRight 8) :=
    fun z => rotr_eq z (by decide) (by decide)
  have h7 : ∀ z : BitVec 32, rotr (UInt32.ofBitVec z) 7 = UInt32.ofBitVec (z.rotateRight 7) :=
    fun z => rotr_eq z (by decide) (by decide)
  unfold quarter Blake2.G Blake2.blake2s
  simp only [← UInt32.ofBitVec_add, ← UInt32.ofBitVec_xor, h16, h12, h8, h7, Function.update_self,
    Function.update_of_ne, ne_eq, hab, hac, had, hbc, hbd, hcd, hab.symm, hac.symm, had.symm,
    hbc.symm, hbd.symm, hcd.symm, not_false_eq_true]

theorem G_elsewhere (P : Blake2.Params) (v : Blake2.Words 32 16) {a b c d i : Fin 16}
    (x y : BitVec 32) (ha : i ≠ a) (hb : i ≠ b) (hc : i ≠ c) (hd : i ≠ d) :
    Blake2.G P v a b c d x y i = v i := by
  unfold Blake2.G
  simp only [Function.update_of_ne, ne_eq, ha, hb, hc, hd, not_false_eq_true]

theorem mix_enc (v : Blake2.Words 32 16) {a b c d : Fin 16} (x y : BitVec 32)
    (h : Distinct a b c d) :
    mix (enc v) a b c d (UInt32.ofBitVec x) (UInt32.ofBitVec y) =
      enc (Blake2.G Blake2.blake2s v a b c d x y) := by
  unfold mix
  rw [getD_enc, getD_enc, getD_enc, getD_enc, quarter_eq v x y h]
  dsimp only
  rw [set_enc, set_enc, set_enc, set_enc]
  congr 1
  funext i
  by_cases hd : i = d
  · rw [hd, Function.update_self]
  · rw [Function.update_of_ne hd]
    by_cases hc : i = c
    · rw [hc, Function.update_self]
    · rw [Function.update_of_ne hc]
      by_cases hb : i = b
      · rw [hb, Function.update_self]
      · rw [Function.update_of_ne hb]
        by_cases ha : i = a
        · rw [ha, Function.update_self]
        · rw [Function.update_of_ne ha, G_elsewhere _ v x y ha hb hc hd]

theorem getD_row (s : Fin 16 → Fin 16) (m : Blake2.Words 32 16) (i : Fin 16) :
    (enc m).getD ((row s).getD i 0) 0 = UInt32.ofBitVec (m (s i)) := by
  have hrow : (row s).getD i 0 = s i := by
    rw [row, List.getD_eq_getElem?_getD, List.getElem?_ofFn, dif_pos i.isLt]
    rfl
  rw [hrow, getD_enc]

theorem round_enc (s : Fin 16 → Fin 16) (m v : Blake2.Words 32 16) :
    blakeRound (enc m) (enc v) (row s) = enc (Blake2.round Blake2.blake2s s m v) := by
  have hmix : ∀ (u : Blake2.Words 32 16) (a b c d i j : Fin 16), Distinct a b c d →
      mix (enc u) a b c d ((enc m).getD ((row s).getD i 0) 0)
        ((enc m).getD ((row s).getD j 0) 0) =
          enc (Blake2.G Blake2.blake2s u a b c d (m (s i)) (m (s j))) := by
    intro u a b c d i j h
    rw [getD_row, getD_row]
    exact mix_enc u _ _ h
  have hcol0 : ∀ u, mix (enc u) 0 4 8 12 ((enc m).getD ((row s).getD 0 0) 0)
      ((enc m).getD ((row s).getD 1 0) 0) =
        enc (Blake2.G Blake2.blake2s u 0 4 8 12 (m (s 0)) (m (s 1))) :=
    fun u => hmix u 0 4 8 12 0 1 (by decide)
  have hcol1 : ∀ u, mix (enc u) 1 5 9 13 ((enc m).getD ((row s).getD 2 0) 0)
      ((enc m).getD ((row s).getD 3 0) 0) =
        enc (Blake2.G Blake2.blake2s u 1 5 9 13 (m (s 2)) (m (s 3))) :=
    fun u => hmix u 1 5 9 13 2 3 (by decide)
  have hcol2 : ∀ u, mix (enc u) 2 6 10 14 ((enc m).getD ((row s).getD 4 0) 0)
      ((enc m).getD ((row s).getD 5 0) 0) =
        enc (Blake2.G Blake2.blake2s u 2 6 10 14 (m (s 4)) (m (s 5))) :=
    fun u => hmix u 2 6 10 14 4 5 (by decide)
  have hcol3 : ∀ u, mix (enc u) 3 7 11 15 ((enc m).getD ((row s).getD 6 0) 0)
      ((enc m).getD ((row s).getD 7 0) 0) =
        enc (Blake2.G Blake2.blake2s u 3 7 11 15 (m (s 6)) (m (s 7))) :=
    fun u => hmix u 3 7 11 15 6 7 (by decide)
  have hdia0 : ∀ u, mix (enc u) 0 5 10 15 ((enc m).getD ((row s).getD 8 0) 0)
      ((enc m).getD ((row s).getD 9 0) 0) =
        enc (Blake2.G Blake2.blake2s u 0 5 10 15 (m (s 8)) (m (s 9))) :=
    fun u => hmix u 0 5 10 15 8 9 (by decide)
  have hdia1 : ∀ u, mix (enc u) 1 6 11 12 ((enc m).getD ((row s).getD 10 0) 0)
      ((enc m).getD ((row s).getD 11 0) 0) =
        enc (Blake2.G Blake2.blake2s u 1 6 11 12 (m (s 10)) (m (s 11))) :=
    fun u => hmix u 1 6 11 12 10 11 (by decide)
  have hdia2 : ∀ u, mix (enc u) 2 7 8 13 ((enc m).getD ((row s).getD 12 0) 0)
      ((enc m).getD ((row s).getD 13 0) 0) =
        enc (Blake2.G Blake2.blake2s u 2 7 8 13 (m (s 12)) (m (s 13))) :=
    fun u => hmix u 2 7 8 13 12 13 (by decide)
  have hdia3 : ∀ u, mix (enc u) 3 4 9 14 ((enc m).getD ((row s).getD 14 0) 0)
      ((enc m).getD ((row s).getD 15 0) 0) =
        enc (Blake2.G Blake2.blake2s u 3 4 9 14 (m (s 14)) (m (s 15))) :=
    fun u => hmix u 3 4 9 14 14 15 (by decide)
  unfold blakeRound Blake2.round
  dsimp only
  rw [hcol0, hcol1, hcol2, hcol3, hdia0, hdia1, hdia2, hdia3]

/-! ### Compression -/

theorem map_range_enc {n : ℕ} {f : ℕ → UInt32} {v : Blake2.Words 32 n}
    (h : ∀ i : Fin n, f i = UInt32.ofBitVec (v i)) : (List.range n).map f = enc v := by
  apply List.ext_getElem
  · simp [enc]
  · intro j h1 h2
    have hj : j < n := by simpa using h1
    simp only [List.getElem_map, List.getElem_range, enc, List.getElem_ofFn]
    exact h ⟨j, hj⟩

theorem words_enc (block : Bytes) :
    ((List.range 16).map fun i => load32LE block (i * 4)) = enc (Blake2.block 32 block 0) := by
  apply map_range_enc
  intro i
  rw [load32LE_eq]
  unfold Blake2.block
  rw [Nat.zero_mul, Nat.zero_add]

theorem append_enc (u v : Blake2.Words 32 8) :
    enc u ++ enc v = enc (n := 16) (Fin.append u v) := by
  have happend : (fun i => UInt32.ofBitVec (Fin.append u v i)) =
      Fin.append (fun i => UInt32.ofBitVec (u i)) (fun i => UInt32.ofBitVec (v i)) := by
    funext i
    refine Fin.addCases ?_ ?_ i
    · intro j
      rw [Fin.append_left, Fin.append_left]
    · intro j
      rw [Fin.append_right, Fin.append_right]
  unfold enc
  rw [← List.ofFn_fin_append, ← happend]

theorem foldl_enc (m : Blake2.Words 32 16) (is : List ℕ) (v : Blake2.Words 32 16) :
    (is.map fun i => row (Blake2.SIGMA (Fin.ofNat 10 i))).foldl (blakeRound (enc m)) (enc v) =
      enc (is.foldl (fun v i => Blake2.round Blake2.blake2s (Blake2.SIGMA (Fin.ofNat 10 i)) m v)
        v) := by
  induction is generalizing v with
  | nil => rfl
  | cons i is ih =>
    rw [List.map_cons, List.foldl_cons, List.foldl_cons, round_enc]
    exact ih _

theorem compress_enc (h : Blake2.Words 32 8) (block : Bytes) (t : ℕ) (last : Bool) :
    compress (enc h) block t last =
      enc (Blake2.F Blake2.blake2s h (Blake2.block 32 block 0) t last) := by
  have h12 : ∀ v : Blake2.Words 32 16, (enc v).getD 12 0 = UInt32.ofBitVec (v 12) :=
    fun v => getD_enc v 12
  have h13 : ∀ v : Blake2.Words 32 16, (enc v).getD 13 0 = UInt32.ofBitVec (v 13) :=
    fun v => getD_enc v 13
  have h14 : ∀ v : Blake2.Words 32 16, (enc v).getD 14 0 = UInt32.ofBitVec (v 14) :=
    fun v => getD_enc v 14
  have s12 : ∀ (v : Blake2.Words 32 16) (x : BitVec 32), (enc v).set 12 (UInt32.ofBitVec x) =
      enc (Function.update v 12 x) := fun v x => set_enc v 12 x
  have s13 : ∀ (v : Blake2.Words 32 16) (x : BitVec 32), (enc v).set 13 (UInt32.ofBitVec x) =
      enc (Function.update v 13 x) := fun v x => set_enc v 13 x
  have s14 : ∀ (v : Blake2.Words 32 16) (x : BitVec 32), (enc v).set 14 (UInt32.ofBitVec x) =
      enc (Function.update v 14 x) := fun v x => set_enc v 14 x
  have hofNat : ∀ n, UInt32.ofNat n = UInt32.ofBitVec (BitVec.ofNat 32 n) := fun _ => rfl
  have hflag : ∀ v : Blake2.Words 32 16,
      (if last then (enc v).set 14 (~~~ (enc v).getD 14 0) else enc v) =
        enc (if last then Function.update v 14 (v 14 ^^^ BitVec.allOnes 32) else v) := by
    intro v
    rw [h14, BitVec.xor_allOnes, ← UInt32.ofBitVec_not, s14]
    cases last
    · rfl
    · rfl
  unfold compress Blake2.F
  dsimp only
  rw [words_enc, kIV_eq, append_enc, h12, hofNat, ← UInt32.ofBitVec_xor, s12, h13, hofNat,
    ← UInt32.ofBitVec_xor, s13, hflag, kSigma_eq, foldl_enc]
  apply map_range_enc
  intro i
  have hlow : ∀ v : Blake2.Words 32 16, (enc v).getD i 0 =
      UInt32.ofBitVec (v (Fin.castAdd 8 i)) := fun v => getD_enc v (Fin.castAdd 8 i)
  have hhigh : ∀ v : Blake2.Words 32 16, (enc v).getD (i + 8) 0 =
      UInt32.ofBitVec (v (Fin.natAdd 8 i)) := by
    intro v
    rw [Nat.add_comm]
    exact getD_enc v (Fin.natAdd 8 i)
  rw [getD_enc, hlow, hhigh]
  rfl

/-! ### The hash -/

theorem bb_32 : Blake2.bb 32 = 64 := rfl

theorem blakeBlocks_enc (fuel : ℕ) (h : Blake2.Words 32 8) (t : ℕ) (rest : Bytes) :
    blakeBlocks fuel (enc h) t rest = enc (Blake2.stream Blake2.blake2s fuel h t rest) := by
  induction fuel generalizing h t rest with
  | zero => rfl
  | succ fuel ih =>
    have htake : Blake2.block 32 (rest.take 64) 0 = Blake2.block 32 rest 0 := Blake2.block_take rest
    have hpad : Blake2.block 32 (padBlock rest) 0 = Blake2.block 32 rest 0 :=
      Blake2.block_append_zeros rest _ 0
    unfold blakeBlocks Blake2.stream
    rw [compress_enc, compress_enc, htake, hpad, bb_32]
    by_cases hmore : 64 < rest.length
    · rw [if_pos hmore, if_pos hmore]
      exact ih _ _ _
    · rw [if_neg hmore, if_neg hmore]

theorem init_enc (kk nn : ℕ) :
    kIV.set 0 (kIV.getD 0 0 ^^^ ((0x01010000 : UInt32) ^^^ (UInt32.ofNat kk <<< 8) ^^^
      UInt32.ofNat nn)) = enc (Blake2.init 32 kk nn) := by
  have h0 : (enc (Blake2.IV 32)).getD 0 0 = UInt32.ofBitVec (Blake2.IV 32 0) := getD_enc _ 0
  have hset : ∀ x, (enc (Blake2.IV 32)).set 0 (UInt32.ofBitVec x) =
      enc (Function.update (Blake2.IV 32) 0 x) := fun x => set_enc _ 0 x
  have hparam : (0x01010000 : UInt32) ^^^ (UInt32.ofNat kk <<< 8) ^^^ UInt32.ofNat nn =
      UInt32.ofBitVec (0x01010000#32 ^^^ (BitVec.ofNat 32 kk <<< 8) ^^^ BitVec.ofNat 32 nn) := rfl
  rw [kIV_eq, h0, hparam, ← UInt32.ofBitVec_xor, hset]
  unfold Blake2.init
  rw [← BitVec.xor_assoc, ← BitVec.xor_assoc]
  rfl

theorem digest_enc (h : Blake2.Words 32 8) :
    (enc h).flatMap store32LE = (List.ofFn h).flatMap Blake2.bytes := by
  have henc : enc h = (List.ofFn h).map UInt32.ofBitVec := by
    unfold enc
    rw [List.map_ofFn]
    rfl
  rw [henc, List.flatMap_map]
  congr 1
  funext x
  exact store32LE_eq x

theorem padBlock_eq {key : Bytes} (hpos : 0 < key.length) (hkey : key.length ≤ 64) :
    padBlock key = Blake2.pad 32 key := by
  unfold padBlock Blake2.pad
  rw [bb_32]
  congr 2
  omega

theorem blake2s_eq (outLen : ℕ) (key msg : Bytes) (hkey : key.length ≤ 64) :
    blake2s outLen key msg = Blake2.hash Blake2.blake2s 32 outLen key msg := by
  have hbb : 0 < Blake2.bb 32 := by decide
  unfold blake2s
  dsimp only
  rw [init_enc]
  by_cases hk : 0 < key.length
  · rw [if_pos hk, compress_enc, compress_enc, padBlock_eq hk hkey]
    by_cases hm : msg.length = 0
    · rw [if_pos hm, digest_enc, List.length_eq_zero_iff.mp hm,
        Blake2.hash_eq_key Blake2.blake2s outLen hbb hk hkey]
      rfl
    · rw [if_neg hm, blakeBlocks_enc, digest_enc,
        Blake2.hash_eq_keyed Blake2.blake2s outLen hbb hk hkey (by omega)]
      rfl
  · have hnil : key = [] := List.length_eq_zero_iff.mp (by omega)
    rw [if_neg hk, blakeBlocks_enc, digest_enc, hnil,
      Blake2.hash_eq_stream Blake2.blake2s outLen msg hbb]
    rfl

/-! ### The MAC check -/

/-- The loop of `VerifyMac1`: every difference is kept. -/
def macDiff (got field : Bytes) : Byte :=
  (List.zipWith (· ^^^ ·) got field).foldl (· ||| ·) 0

theorem foldl_or_eq_zero (bs : Bytes) (acc : Byte) :
    bs.foldl (· ||| ·) acc = 0 ↔ acc = 0 ∧ ∀ b ∈ bs, b = 0 := by
  induction bs generalizing acc with
  | nil => simp
  | cons b bs ih =>
    rw [List.foldl_cons, ih, UInt8.or_eq_zero_iff, and_assoc, List.forall_mem_cons]

theorem macDiff_eq_zero {got field : Bytes} (h : got.length = field.length) :
    macDiff got field = 0 ↔ got = field := by
  unfold macDiff
  rw [foldl_or_eq_zero]
  induction got generalizing field with
  | nil =>
    cases field with
    | nil => simp
    | cons b bs => simp at h
  | cons a as ih =>
    cases field with
    | nil => simp at h
    | cons b bs =>
      have hrest := ih (Nat.succ.inj h)
      simp only [true_and] at hrest
      simp only [List.zipWith_cons_cons, List.forall_mem_cons, UInt8.xor_eq_zero_iff, true_and,
        hrest, List.cons.injEq]

def mac1Field (pkt : Bytes) : Bytes := (pkt.drop (pkt.length - 32)).take 16

/-- The digest of the document over what stands before the MACs. -/
def mac1Digest (pkt partnerPubkey : Bytes) : Bytes :=
  Blake2.hash Blake2.blake2s 32 16
    (Blake2.hash Blake2.blake2s 32 32 [] (kLabelMac1 ++ partnerPubkey))
    (pkt.take (pkt.length - 32))

theorem deriveMac1Key_eq (pubkey : Bytes) :
    deriveMac1Key pubkey = Blake2.hash Blake2.blake2s 32 32 [] (kLabelMac1 ++ pubkey) :=
  blake2s_eq 32 [] _ (Nat.zero_le _)

theorem verifyMac1_iff (pkt partnerPubkey : Bytes) :
    verifyMac1 pkt partnerPubkey = true ↔
      32 ≤ pkt.length ∧ mac1Field pkt = mac1Digest pkt partnerPubkey := by
  have hkey : (deriveMac1Key partnerPubkey).length ≤ 64 := by
    rw [deriveMac1Key_eq, Blake2.length_hash _ (by decide)]
    decide
  unfold verifyMac1 mac1Field mac1Digest
  rw [blake2s_eq 16 _ _ hkey, deriveMac1Key_eq]
  by_cases h : pkt.length < 32
  · simp [h]
  · rw [if_neg h, decide_eq_true_iff]
    exact ⟨fun heq => ⟨by omega, heq⟩, fun heq => heq.2⟩

theorem verifyMac1_iff_diff (pkt partnerPubkey : Bytes) :
    verifyMac1 pkt partnerPubkey = true ↔
      32 ≤ pkt.length ∧ macDiff (mac1Digest pkt partnerPubkey) (mac1Field pkt) = 0 := by
  rw [verifyMac1_iff]
  apply and_congr_right
  intro hlen
  have hfield : (mac1Digest pkt partnerPubkey).length = (mac1Field pkt).length := by
    unfold mac1Digest mac1Field
    rw [Blake2.length_hash _ (by decide), List.length_take, List.length_drop]
    omega
  rw [macDiff_eq_zero hfield]
  exact eq_comm

/-- The hash is the one of RFC 7693 for every message, key and digest length, and the MAC check
compares with it. -/
theorem blake2s_rfc7693 :
    (∀ (outLen : ℕ) (key msg : Bytes), 1 ≤ outLen → outLen ≤ 32 → key.length ≤ 32 →
      blake2s outLen key msg = Blake2.hash Blake2.blake2s 32 outLen key msg ∧
      (blake2s outLen key msg).length = outLen) ∧
    (∀ pkt partnerPubkey : Bytes, verifyMac1 pkt partnerPubkey = true ↔
      32 ≤ pkt.length ∧ mac1Field pkt = mac1Digest pkt partnerPubkey) := by
  constructor
  · intro outLen key msg _ hout hkey
    have heq := blake2s_eq outLen key msg (by omega)
    refine ⟨heq, ?_⟩
    rw [heq, Blake2.length_hash _ (by simpa using hout)]
  · intro pkt partnerPubkey
    exact verifyMac1_iff pkt partnerPubkey

/-- The document's own example, and an empty message under a key. -/
theorem blake2s_abc :
    Blake2.hash Blake2.blake2s 32 32 [] [0x61, 0x62, 0x63] =
      [0x50, 0x8c, 0x5e, 0x8c, 0x32, 0x7c, 0x14, 0xe2, 0xe1, 0xa7, 0x2b, 0xa3, 0x4e, 0xeb, 0x45,
        0x2f, 0x37, 0x45, 0x8b, 0x20, 0x9e, 0xd6, 0x3a, 0x29, 0x4d, 0x99, 0x9b, 0x4c, 0x86, 0x67,
        0x59, 0x82] ∧
    Blake2.hash Blake2.blake2s 32 32 ((List.range 32).map UInt8.ofNat) [] =
      [0x48, 0xa8, 0x99, 0x7d, 0xa4, 0x07, 0x87, 0x6b, 0x3d, 0x79, 0xc0, 0xd9, 0x23, 0x25, 0xad,
        0x3b, 0x89, 0xcb, 0xb7, 0x54, 0xd8, 0x6a, 0xb7, 0x1a, 0xee, 0x04, 0x7a, 0xd3, 0x45, 0xfd,
        0x2c, 0x49] := by
  obtain ⟨habc, -⟩ := blake2s_rfc7693.1 32 [] [0x61, 0x62, 0x63] (by decide) (by decide) (by decide)
  obtain ⟨hkeyed, -⟩ := blake2s_rfc7693.1 32 ((List.range 32).map UInt8.ofNat) [] (by decide)
    (by decide) (by decide)
  rw [← habc, ← hkeyed]
  constructor
  · decide +kernel
  · decide +kernel

end HyperDerp.Digest
