import HyperDerp.Protocol
import HyperDerp.Lib.BigEndian

/-!
# MAC1 verification (`crypto/blake2s.cc`, `wg_relay.cc:466-540`)

`blake2s` is the single-shot hash of the source. Arrays of words are lists, read
with a default that is never reached and written with `List.set`.
-/

namespace HyperDerp

/-! ### Blake2s (`blake2s.cc`) -/

def kIV : List UInt32 :=
  [0x6A09E667, 0xBB67AE85, 0x3C6EF372, 0xA54FF53A,
   0x510E527F, 0x9B05688C, 0x1F83D9AB, 0x5BE0CD19]

def kSigma : List (List ℕ) :=
  [[0, 1, 2, 3, 4, 5, 6, 7, 8, 9, 10, 11, 12, 13, 14, 15],
   [14, 10, 4, 8, 9, 15, 13, 6, 1, 12, 0, 2, 11, 7, 5, 3],
   [11, 8, 12, 0, 5, 2, 15, 13, 10, 14, 3, 6, 7, 1, 9, 4],
   [7, 9, 3, 1, 13, 12, 11, 14, 2, 6, 5, 10, 4, 0, 15, 8],
   [9, 0, 5, 7, 2, 4, 10, 15, 14, 1, 11, 12, 6, 8, 3, 13],
   [2, 12, 6, 10, 0, 11, 8, 3, 4, 13, 7, 5, 15, 14, 1, 9],
   [12, 5, 1, 15, 14, 13, 4, 10, 0, 7, 6, 3, 9, 2, 8, 11],
   [13, 11, 7, 14, 12, 1, 3, 9, 5, 0, 15, 4, 8, 6, 2, 10],
   [6, 15, 14, 9, 11, 3, 0, 8, 12, 2, 13, 7, 1, 4, 10, 5],
   [10, 2, 8, 4, 7, 6, 1, 5, 15, 11, 9, 14, 3, 12, 13, 0]]

def load32LE (p : Bytes) (i : ℕ) : UInt32 :=
  (p.getD i 0).toUInt32 ||| (p.getD (i + 1) 0).toUInt32 <<< 8 |||
    (p.getD (i + 2) 0).toUInt32 <<< 16 ||| (p.getD (i + 3) 0).toUInt32 <<< 24

def store32LE (v : UInt32) : Bytes :=
  [v.toUInt8, (v >>> 8).toUInt8, (v >>> 16).toUInt8, (v >>> 24).toUInt8]

def rotr (x n : UInt32) : UInt32 := x >>> n ||| x <<< (32 - n)

/-- The quarter round `G` on four words. -/
def quarter (va vb vc vd x y : UInt32) : UInt32 × UInt32 × UInt32 × UInt32 :=
  let va := va + vb + x
  let vd := rotr (vd ^^^ va) 16
  let vc := vc + vd
  let vb := rotr (vb ^^^ vc) 12
  let va := va + vb + y
  let vd := rotr (vd ^^^ va) 8
  let vc := vc + vd
  let vb := rotr (vb ^^^ vc) 7
  (va, vb, vc, vd)

def mix (v : List UInt32) (a b c d : ℕ) (x y : UInt32) : List UInt32 :=
  let (va, vb, vc, vd) := quarter (v.getD a 0) (v.getD b 0) (v.getD c 0) (v.getD d 0) x y
  (((v.set a va).set b vb).set c vc).set d vd

def blakeRound (m : List UInt32) (v : List UInt32) (s : List ℕ) : List UInt32 :=
  let w := fun i => m.getD (s.getD i 0) 0
  let v := mix v 0 4 8 12 (w 0) (w 1)
  let v := mix v 1 5 9 13 (w 2) (w 3)
  let v := mix v 2 6 10 14 (w 4) (w 5)
  let v := mix v 3 7 11 15 (w 6) (w 7)
  let v := mix v 0 5 10 15 (w 8) (w 9)
  let v := mix v 1 6 11 12 (w 10) (w 11)
  let v := mix v 2 7 8 13 (w 12) (w 13)
  mix v 3 4 9 14 (w 14) (w 15)

def compress (h : List UInt32) (block : Bytes) (t : ℕ) (last : Bool) : List UInt32 :=
  let m := (List.range 16).map fun i => load32LE block (i * 4)
  let v := h ++ kIV
  let v := v.set 12 (v.getD 12 0 ^^^ UInt32.ofNat t)
  let v := v.set 13 (v.getD 13 0 ^^^ UInt32.ofNat (t / 2 ^ 32))
  let v := if last then v.set 14 (~~~ v.getD 14 0) else v
  let v := kSigma.foldl (blakeRound m) v
  (List.range 8).map fun i => h.getD i 0 ^^^ v.getD i 0 ^^^ v.getD (i + 8) 0

def padBlock (bs : Bytes) : Bytes := bs ++ List.replicate (64 - bs.length) 0

/-- The bulk loop over full blocks and the final block; `fuel` bounds the number of
blocks. -/
def blakeBlocks : ℕ → List UInt32 → ℕ → Bytes → List UInt32
  | 0, h, _, _ => h
  | fuel + 1, h, t, input =>
    if 64 < input.length then
      blakeBlocks fuel (compress h (input.take 64) (t + 64) false) (t + 64) (input.drop 64)
    else compress h (padBlock input) (t + input.length) true

def blake2s (outLen : ℕ) (key input : Bytes) : Bytes :=
  let h0 := kIV.set 0 (kIV.getD 0 0 ^^^ ((0x01010000 : UInt32) ^^^ (UInt32.ofNat key.length <<< 8) ^^^
    UInt32.ofNat outLen))
  let h :=
    if 0 < key.length then
      if input.length = 0 then compress h0 (padBlock key) 64 true
      else blakeBlocks (input.length + 1) (compress h0 (padBlock key) 64 false) 64 input
    else blakeBlocks (input.length + 1) h0 0 input
  (h.flatMap store32LE).take outLen

/-! ### Keys and MAC1 (`wg_relay.cc:466-540`) -/

def kLabelMac1 : Bytes := [0x6d, 0x61, 0x63, 0x31, 0x2d, 0x2d, 0x2d, 0x2d]

/-- The value of a base64 character, `none` where the source returns -1. -/
def b64Val (c : Byte) : Option UInt32 :=
  if 0x41 ≤ c ∧ c ≤ 0x5a then some (c - 0x41).toUInt32
  else if 0x61 ≤ c ∧ c ≤ 0x7a then some (c - 0x61 + 26).toUInt32
  else if 0x30 ≤ c ∧ c ≤ 0x39 then some (c - 0x30 + 52).toUInt32
  else if c = 0x2b then some 62
  else if c = 0x2f then some 63
  else none

/-- The loop of `DecodeWgPubkey`: `held` is never masked, so it wraps. -/
def decodeLoop : Bytes → UInt32 → ℕ → Bytes → Option Bytes
  | [], _, _, out => some out
  | c :: cs, held, bits, out =>
    if c = 0x3d then some out
    else if c = 0x0a ∨ c = 0x0d ∨ c = 0x20 then decodeLoop cs held bits out
    else
      match b64Val c with
      | none => none
      | some v =>
        let held := held <<< 6 ||| v
        let bits := bits + 6
        if 8 ≤ bits then
          if 32 ≤ out.length then none
          else decodeLoop cs held (bits - 8) (out ++ [(held >>> UInt32.ofNat (bits - 8)).toUInt8])
        else decodeLoop cs held bits out

def decodeWgPubkey (b64 : Bytes) : Option Bytes :=
  if b64.length < 43 then none
  else
    match decodeLoop b64 0 0 [] with
    | none => none
    | some out => if out.length = 32 then some out else none

def deriveMac1Key (pubkey : Bytes) : Bytes := blake2s 32 [] (kLabelMac1 ++ pubkey)

/-- `VerifyMac1`: bytes `len-32 .. len-16` are the keyed hash of what is before them. -/
def verifyMac1 (pkt partnerPubkey : Bytes) : Bool :=
  if pkt.length < 32 then false
  else
    (pkt.drop (pkt.length - 32)).take 16 =
      blake2s 16 (deriveMac1Key partnerPubkey) (pkt.take (pkt.length - 32))

end HyperDerp
