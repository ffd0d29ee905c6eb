import HyperDerp.Enrolment.Handshake
import Mathlib.Data.List.Basic

/-!
# Who may enrol (`hd_peers.cc:21-57`, `:104-148`)

What a pattern of `allowed_keys` and the range `require_ip_range` admit, apart from how
`GlobMatch` and `ParseCidrV4` compute it. The star ends a pattern: what follows it is not read.
-/

namespace HyperDerp

open Text (utf8 isDigit digitsValue)

namespace Admission

def star : Byte := 0x2a
def slash : Byte := 0x2f

/-- The glob in which every star stands for any string. -/
inductive Globs : Bytes → Bytes → Prop
  | nil : Globs [] []
  | char {c : Byte} {pattern text : Bytes} (h : c ≠ star) (rest : Globs pattern text) :
      Globs (c :: pattern) (c :: text)
  | skip {pattern text : Bytes} (rest : Globs pattern text) : Globs (star :: pattern) text
  | take {c : Byte} {pattern text : Bytes} (rest : Globs (star :: pattern) text) :
      Globs (star :: pattern) (c :: text)

/-- Nothing written is no restriction; otherwise the text is the pattern, or begins with what the
pattern has before its first star. -/
def Covers (pattern text : Bytes) : Prop :=
  pattern = [] ∨ (star ∉ pattern ∧ pattern = text) ∨
    ∃ head tail, pattern = head ++ star :: tail ∧ star ∉ head ∧ head <+: text

/-- A dotted address, a slash and a decimal prefix length up to 32; the address agrees with the
network on that many bits. -/
def InRange (ext : EnrolExtern) (range : Bytes) (addr : BitVec 32) : Prop :=
  ∃ dotted digits net, range = dotted ++ slash :: digits ∧ slash ∉ dotted ∧
    ext.inetAton dotted = some net ∧ digits ≠ [] ∧ (∀ c ∈ digits, isDigit c = true) ∧
    digitsValue digits ≤ 32 ∧ ∀ i < digitsValue digits, addr.getMsbD i = net.getMsbD i

/-- No NUL before the slash, something after it, and no number that an `int` cannot hold. -/
def Regular (range : Bytes) : Prop :=
  ∀ dotted digits, range = dotted ++ slash :: digits → slash ∉ dotted →
    0 ∉ dotted ∧ digits ≠ [] ∧ ((∀ c ∈ digits, isDigit c = true) → digitsValue digits < 2 ^ 31)

def KeyAdmitted (matchesText : Bytes → Bytes → Prop) (pol : HdEnrollPolicy) (key : Key) : Prop :=
  pol.allowedKeys = [] ∨ ∃ pat ∈ pol.allowedKeys,
    matchesText pat (keyToCkString key) ∨ matchesText pat (keyHex key)

def RangeAdmitted (ext : EnrolExtern) (pol : HdEnrollPolicy) (addr : BitVec 32) : Prop :=
  pol.requireIpRange = [] ∨ InRange ext pol.requireIpRange addr

/-- `max_peers` leaves room. -/
def HasRoom (pol : HdEnrollPolicy) (reg : HdPeerRegistry) : Prop :=
  pol.maxPeers = 0 ∨ 0 < pol.maxPeers ∧ reg.peerCount < pol.maxPeers

variable {pattern text dotted digits range : Bytes} {ext : EnrolExtern} {net addr : BitVec 32}

/-! ### Patterns -/

theorem globMatch_starless (hne : pattern ≠ []) (h : star ∉ pattern) :
    globMatch pattern text = true ↔ pattern = text := by
  have hlen : pattern.idxOf 0x2a = pattern.length := List.idxOf_eq_length h
  simp [globMatch, hne, hlen]

theorem globMatch_star {head tail : Bytes} (h : star ∉ head) :
    globMatch (head ++ star :: tail) text = true ↔ head <+: text := by
  have hidx : (head ++ star :: tail).idxOf 0x2a = head.length := by
    have happend : (head ++ star :: tail).idxOf star =
        head.length + (star :: tail).idxOf star := List.idxOf_append_of_notMem h
    simpa [star] using happend
  have hlen : head.length ≠ (head ++ star :: tail).length := by simp
  rw [List.prefix_iff_eq_take]
  simp only [globMatch, hidx, if_neg hlen, List.take_left]
  by_cases hshort : text.length < head.length
  · have hne : head ≠ text.take head.length := by
      intro heq
      have hl := congrArg List.length heq
      simp at hl
      omega
    simp [hshort, hne]
  · simp [hshort]

theorem globMatch_iff : globMatch pattern text = true ↔ Covers pattern text := by
  by_cases hnil : pattern = []
  · simp [hnil, globMatch, Covers]
  · by_cases hstar : star ∈ pattern
    · obtain ⟨head, tail, rfl, hhead⟩ := List.eq_append_cons_of_mem hstar
      rw [globMatch_star hhead]
      constructor
      · exact fun hp => Or.inr (Or.inr ⟨head, tail, rfl, hhead, hp⟩)
      · rintro (h | ⟨h, -⟩ | ⟨head', tail', heq, hhead', hp⟩)
        · exact absurd h hnil
        · exact absurd hstar h
        · have hsame : head.length = head'.length := by
            have hidx := congrArg (List.idxOf star) heq
            rw [List.idxOf_append_of_notMem hhead, List.idxOf_append_of_notMem hhead'] at hidx
            simpa using hidx
          obtain ⟨rfl, -⟩ := List.append_inj heq hsame
          exact hp
    · rw [globMatch_starless hnil hstar]
      constructor
      · exact fun h => Or.inr (Or.inl ⟨hstar, h⟩)
      · rintro (h | ⟨-, h⟩ | ⟨head, tail, heq, -, -⟩)
        · exact absurd h hnil
        · exact h
        · exact absurd (by simp [heq]) hstar

theorem keyAllowed_iff {pol : HdEnrollPolicy} {key : Key} :
    keyAllowed pol key = true ↔ KeyAdmitted Covers pol key := by
  simp [keyAllowed, KeyAdmitted, globMatch_iff]

/-! ### Prefix lengths -/

theorem not_isDigit {c : Byte} : c < 0x30 ∨ 0x39 < c ↔ ¬ isDigit c = true := by
  simp only [isDigit, decide_eq_true_eq, not_and_or, UInt8.not_le]

/-- The value of digits that follow the number `n`. -/
def digitsFrom (n : ℕ) (digits : Bytes) : ℕ :=
  digits.foldl (fun n c => 10 * n + (c.toNat - 0x30)) n

theorem le_digitsFrom (digits : Bytes) (n : ℕ) : n ≤ digitsFrom n digits := by
  induction digits generalizing n with
  | nil => exact Nat.le_refl n
  | cons c cs ih =>
    have hstep : digitsFrom n (c :: cs) = digitsFrom (10 * n + (c.toNat - 0x30)) cs := rfl
    have hrest := ih (10 * n + (c.toNat - 0x30))
    omega

theorem cidrBits_digits (digits : Bytes) (n : ℕ) (hd : ∀ c ∈ digits, isDigit c = true)
    (hlt : digitsFrom n digits < 2 ^ 31) : cidrBits digits n = some (digitsFrom n digits : ℤ) := by
  induction digits generalizing n with
  | nil => rfl
  | cons c cs ih =>
    have hstep : digitsFrom n (c :: cs) = digitsFrom (10 * n + (c.toNat - 0x30)) cs := rfl
    have hc : isDigit c = true := hd c List.mem_cons_self
    have hlow : 0x30 ≤ c.toNat := by
      simp only [isDigit, decide_eq_true_eq, UInt8.le_iff_toNat_le] at hc
      exact hc.1
    have hle := le_digitsFrom cs (10 * n + (c.toNat - 0x30))
    have hnext : (((n : ℤ) * 10 + ((c.toNat : ℤ) - 0x30)).bmod (2 ^ 32)) =
        ((10 * n + (c.toNat - 0x30) : ℕ) : ℤ) := by
      rw [Int.bmod_eq_of_le_mul_two] <;> omega
    rw [cidrBits, if_neg (by rw [not_isDigit]; exact not_not_intro hc), hnext, hstep]
    exact ih _ (fun c hc => hd c (List.mem_cons_of_mem _ hc)) (by omega)

theorem cidrBits_stray (digits : Bytes) (bits : ℤ) (h : ∃ c ∈ digits, ¬ isDigit c = true) :
    cidrBits digits bits = none := by
  induction digits generalizing bits with
  | nil => simp at h
  | cons c cs ih =>
    rw [cidrBits]
    by_cases hc : isDigit c = true
    · have hrest : ∃ c ∈ cs, ¬ isDigit c = true := by simpa [hc] using h
      simp only [not_isDigit, hc, not_true_eq_false, if_false]
      exact ih _ hrest
    · rw [if_pos (not_isDigit.2 hc)]

theorem digitsValue_eq (hd : ∀ c ∈ digits, isDigit c = true) :
    digitsValue digits = digitsFrom 0 digits := by
  rw [digitsValue, List.takeWhile_eq_self_iff.2 hd]
  rfl

/-! ### Ranges -/

/-- The mask of `ParseCidrV4` for a prefix of `n` bits. -/
def prefixMask (n : ℕ) : BitVec 32 := if n = 0 then 0 else BitVec.allOnes 32 <<< (32 - n)

theorem getMsbD_prefixMask {n : ℕ} (hn : n ≤ 32) (i : ℕ) :
    (prefixMask n).getMsbD i = decide (i < n) := by
  unfold prefixMask
  split
  · next h => simp [h]
  · rw [BitVec.getMsbD_shiftLeft, BitVec.getMsbD_allOnes]
    have heq : i + (32 - n) < 32 ↔ i < n := by omega
    simp [heq]

theorem and_prefixMask_inj {n : ℕ} (hn : n ≤ 32) :
    addr &&& prefixMask n = net &&& prefixMask n ↔ ∀ i < n, addr.getMsbD i = net.getMsbD i := by
  constructor
  · intro h i hi
    have hbit := congrArg (fun x => x.getMsbD i) h
    simpa [BitVec.getMsbD_and, getMsbD_prefixMask hn, hi] using hbit
  · intro h
    refine BitVec.eq_of_getMsbD_eq fun i _ => ?_
    rw [BitVec.getMsbD_and, BitVec.getMsbD_and, getMsbD_prefixMask hn]
    by_cases hi : i < n
    · rw [h i hi]
    · simp [hi]

theorem cString_of_notMem {s : Bytes} (h : 0 ∉ s) : cString s = s := by
  refine List.takeWhile_eq_self_iff.2 fun c hc => ?_
  simp only [decide_eq_true_eq, ne_eq]
  exact fun h0 => h (h0 ▸ hc)

theorem range_split (h : slash ∉ dotted) :
    (dotted ++ slash :: digits).idxOf 0x2f = dotted.length := by
  have happend : (dotted ++ slash :: digits).idxOf slash =
      dotted.length + (slash :: digits).idxOf slash := List.idxOf_append_of_notMem h
  simpa [slash] using happend

theorem parseCidrV4_slashless (h : slash ∉ range) : parseCidrV4 ext range = none := by
  have hidx : range.idxOf 0x2f = range.length := List.idxOf_eq_length h
  simp [parseCidrV4, hidx]

theorem parseCidrV4_stray (h : slash ∉ dotted) (hd : ∃ c ∈ digits, ¬ isDigit c = true) :
    parseCidrV4 ext (dotted ++ slash :: digits) = none := by
  have hdrop : (dotted ++ slash :: digits).drop (dotted.length + 1) = digits := by simp
  unfold parseCidrV4
  simp only [range_split h, hdrop, cidrBits_stray digits 0 hd, ite_self]

theorem parseCidrV4_digits (h : slash ∉ dotted) (hnul : 0 ∉ dotted)
    (hd : ∀ c ∈ digits, isDigit c = true) (hlt : digitsValue digits < 2 ^ 31) :
    parseCidrV4 ext (dotted ++ slash :: digits) =
      if 32 < digitsValue digits then none
      else (ext.inetAton dotted).map fun a =>
        (a &&& prefixMask (digitsValue digits), prefixMask (digitsValue digits)) := by
  have hlen : dotted.length ≠ (dotted ++ slash :: digits).length := by simp
  have hdrop : (dotted ++ slash :: digits).drop (dotted.length + 1) = digits := by simp
  have hbits : cidrBits digits 0 = some (digitsValue digits : ℤ) := by
    rw [digitsValue_eq hd] at hlt ⊢
    exact cidrBits_digits digits 0 hd hlt
  have hmask : (if (digitsValue digits : ℤ) = 0 then (0 : BitVec 32)
      else BitVec.allOnes 32 <<< (32 - (digitsValue digits : ℤ)).toNat) =
        prefixMask (digitsValue digits) := by
    have hshift : (32 - (digitsValue digits : ℤ)).toNat = 32 - digitsValue digits := by omega
    simp only [prefixMask, hshift, Int.natCast_eq_zero]
  unfold parseCidrV4
  simp only [range_split h, if_neg hlen, hdrop, hbits, List.take_left, cString_of_notMem hnul, hmask]
  by_cases hbig : 32 < digitsValue digits
  · rw [if_pos (by omega), if_pos hbig]
  · rw [if_neg (by omega), if_neg hbig]
    cases ext.inetAton dotted <;> rfl

theorem range_inj {dotted' digits' : Bytes} (h : slash ∉ dotted) (h' : slash ∉ dotted')
    (heq : dotted ++ slash :: digits = dotted' ++ slash :: digits') :
    dotted = dotted' ∧ digits = digits' := by
  have hlen : dotted.length = dotted'.length := by
    have hidx := congrArg (List.idxOf 0x2f) heq
    rwa [range_split h, range_split h'] at hidx
  obtain ⟨hhead, htail⟩ := List.append_inj heq hlen
  exact ⟨hhead, (List.cons.inj htail).2⟩

theorem ipRefused_iff {pol : HdEnrollPolicy} (haddr : addr ≠ 0)
    (hregular : Regular pol.requireIpRange) :
    ipRefused ext pol addr = none ↔ RangeAdmitted ext pol addr := by
  unfold ipRefused RangeAdmitted
  generalize pol.requireIpRange = range at hregular
  by_cases hempty : range = []
  · simp [hempty]
  have hgoes : ¬ (range.isEmpty = true ∨ addr = 0) := by
    rw [List.isEmpty_iff, not_or]
    exact ⟨hempty, haddr⟩
  rw [if_neg hgoes, or_iff_right hempty]
  by_cases hslash : slash ∈ range
  · obtain ⟨dotted, digits, rfl, hdotted⟩ := List.eq_append_cons_of_mem hslash
    obtain ⟨hnul, hne, hsmall⟩ := hregular dotted digits rfl hdotted
    by_cases hd : ∀ c ∈ digits, isDigit c = true
    · rw [parseCidrV4_digits hdotted hnul hd (hsmall hd)]
      constructor
      · intro h
        by_cases hbig : 32 < digitsValue digits
        · simp [hbig] at h
        · rw [if_neg hbig] at h
          cases hnet : ext.inetAton dotted with
          | none => simp [hnet] at h
          | some net =>
            have hsame : addr &&& prefixMask (digitsValue digits) =
                net &&& prefixMask (digitsValue digits) := by simpa [hnet] using h
            exact ⟨dotted, digits, net, rfl, hdotted, hnet, hne, hd, by omega,
              (and_prefixMask_inj (by omega)).1 hsame⟩
      · rintro ⟨dotted', digits', net, heq, hdotted', hnet, -, -, hle, hbits⟩
        obtain ⟨rfl, rfl⟩ := range_inj hdotted hdotted' heq
        rw [if_neg (by omega), hnet]
        simpa using (and_prefixMask_inj hle).2 hbits
    · rw [parseCidrV4_stray hdotted (by simpa using hd)]
      constructor
      · exact nofun
      · rintro ⟨dotted', digits', net, heq, hdotted', -, -, hd', -, -⟩
        obtain ⟨rfl, rfl⟩ := range_inj hdotted hdotted' heq
        exact absurd hd' hd
  · rw [parseCidrV4_slashless hslash]
    constructor
    · exact nofun
    · rintro ⟨dotted, digits, net, rfl, -⟩
      exact absurd (by simp) hslash

/-! ### Admission -/

/-- With room left, an address is admitted exactly when a pattern covers the key and the range
contains the address. -/
theorem admits_iff (pol : HdEnrollPolicy) (reg : HdPeerRegistry) (key : Key)
    (hroom : HasRoom pol reg) (haddr : addr ≠ 0) (hregular : Regular pol.requireIpRange) :
    hdPolicyRejects ext pol reg key addr = none ↔
      KeyAdmitted Covers pol key ∧ RangeAdmitted ext pol addr := by
  have hcap : ¬ pol.capped reg := by
    unfold HdEnrollPolicy.capped
    obtain h | h := hroom <;> omega
  rw [hdPolicyRejects, if_neg hcap]
  by_cases hkey : keyAllowed pol key = true
  · simp only [hkey, Bool.not_true, Bool.false_eq_true, if_false, ipRefused_iff haddr hregular]
    exact (and_iff_right (keyAllowed_iff.1 hkey)).symm
  · have hnot : ¬ KeyAdmitted Covers pol key := fun h => hkey (keyAllowed_iff.2 h)
    simp [hkey, hnot]

/-- An `inet_aton` that knows the address 10.0.0.0. -/
def tenNet : EnrolExtern where
  authVerify _ _ _ := true
  inetAton s := if s = utf8 "10.0.0.0" then some 0x0a000000 else none

def tenPolicy : HdEnrollPolicy where
  maxPeers := 5
  allowedKeys := [utf8 "ck_00*"]
  requireIpRange := utf8 "10.0.0.0/8"

theorem admits_ten : hdPolicyRejects tenNet tenPolicy {} zeroKey 0x0a010203 = none ↔
    KeyAdmitted Covers tenPolicy zeroKey ∧ RangeAdmitted tenNet tenPolicy 0x0a010203 := by
  refine admits_iff tenPolicy {} zeroKey ?_ (by decide) ?_
  · exact Or.inr (by decide)
  · intro dotted digits heq hdotted
    have hsplit : utf8 "10.0.0.0/8" = utf8 "10.0.0.0" ++ slash :: utf8 "8" := by decide
    have hparts := range_inj hdotted (by decide) (heq.symm.trans hsplit)
    rw [hparts.1, hparts.2]
    decide +kernel

theorem globs_starless (h : Globs pattern text) (hs : star ∉ pattern) : pattern = text := by
  induction h with
  | nil => rfl
  | char _ _ ih => rw [ih fun hc => hs (List.mem_cons_of_mem _ hc)]
  | skip => exact absurd List.mem_cons_self hs
  | take => exact absurd List.mem_cons_self hs

theorem globs_suffix (h : Globs (star :: pattern) text) (hs : star ∉ pattern) :
    pattern <:+ text := by
  generalize hp : star :: pattern = starred at h
  induction h with
  | nil => cases hp
  | char hc => exact absurd (List.cons.inj hp).1.symm hc
  | skip rest =>
    obtain ⟨-, rfl⟩ := List.cons.inj hp
    rw [globs_starless rest hs]
  | take _ ih => exact (ih hp).trans (List.suffix_cons _ _)

/-- Text after the star, nothing at all, and a range without a prefix length. -/
def tailPolicy : HdEnrollPolicy where
  allowedKeys := [utf8 "*zz"]

def blankPolicy : HdEnrollPolicy where
  allowedKeys := [[]]

def openPolicy : HdEnrollPolicy where
  requireIpRange := utf8 "10.0.0.0/"

theorem rejects_none (pol : HdEnrollPolicy) (hkey : keyAllowed pol zeroKey = true)
    (hrange : ipRefused tenNet pol 0x0b010203 = none) (hcap : pol.maxPeers = 0) :
    hdPolicyRejects tenNet pol {} zeroKey 0x0b010203 = none := by
  have hroom : ¬ pol.capped {} := by simp [HdEnrollPolicy.capped, hcap]
  rw [hdPolicyRejects, if_neg hroom, hkey]
  exact hrange

/-- What follows a star is not read, an empty pattern covers every key, and an empty prefix length
is that of every address. -/
theorem not_exact :
    ¬ (hdPolicyRejects tenNet tailPolicy {} zeroKey 0x0b010203 = none ↔
      KeyAdmitted Globs tailPolicy zeroKey ∧ RangeAdmitted tenNet tailPolicy 0x0b010203) ∧
    ¬ (hdPolicyRejects tenNet blankPolicy {} zeroKey 0x0b010203 = none ↔
      KeyAdmitted Globs blankPolicy zeroKey ∧ RangeAdmitted tenNet blankPolicy 0x0b010203) ∧
    ¬ (hdPolicyRejects tenNet openPolicy {} zeroKey 0x0b010203 = none ↔
      KeyAdmitted Globs openPolicy zeroKey ∧ RangeAdmitted tenNet openPolicy 0x0b010203) := by
  refine ⟨fun h => ?_, fun h => ?_, fun h => ?_⟩
  · obtain ⟨hkey, -⟩ := h.1 (rejects_none _ (by decide) (by decide) rfl)
    have hpats : tailPolicy.allowedKeys = [[star, 0x7a, 0x7a]] := by decide
    rw [KeyAdmitted, hpats] at hkey
    obtain h | ⟨pat, hpat, hglob⟩ := hkey
    · cases h
    · rw [List.mem_singleton.1 hpat] at hglob
      have hck : ¬ [0x7a, 0x7a] <:+ keyToCkString zeroKey := by decide
      have hhex : ¬ [0x7a, 0x7a] <:+ keyHex zeroKey := by decide
      obtain hglob | hglob := hglob
      · exact hck (globs_suffix hglob (by decide))
      · exact hhex (globs_suffix hglob (by decide))
  · obtain ⟨hkey, -⟩ := h.1 (rejects_none _ (by decide) (by decide) rfl)
    obtain h | ⟨pat, hpat, hglob⟩ := hkey
    · cases h
    · rw [List.mem_singleton.1 hpat] at hglob
      have hck : [] ≠ keyToCkString zeroKey := by decide
      have hhex : [] ≠ keyHex zeroKey := by decide
      obtain hglob | hglob := hglob
      · exact hck (globs_starless hglob (by decide))
      · exact hhex (globs_starless hglob (by decide))
  · obtain ⟨-, hrange⟩ := h.1 (rejects_none _ (by decide) (by decide) rfl)
    obtain h | ⟨dotted, digits, net, heq, hdotted, -, hne, -⟩ := hrange
    · exact absurd h (by decide)
    · have hsplit : openPolicy.requireIpRange = utf8 "10.0.0.0" ++ slash :: [] := by decide
      exact hne (range_inj hdotted (by decide) (heq.symm.trans hsplit)).2

end Admission

end HyperDerp
