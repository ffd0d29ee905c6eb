import HyperDerp.Fleet.Bundle
import HyperDerp.Lib.Base64
import HyperDerp.WgRelay.Mac1

/-!
# The two base64 decoders (`fleet_controller.cc:62-94`, `wg_relay.cc:474-505`)

Both shift every character into an accumulator of 32 bits and never mask it.
-/

namespace HyperDerp.Base64Text

open Base64
open Text (utf8)

theorem fleet_b64Val_digit {s : ℕ} (h : s < 64) :
    Bundle.b64Val (digit s) = some (UInt32.ofNat s) := by
  have hall : ∀ s < 64, Bundle.b64Val (digit s) = some (UInt32.ofNat s) := by decide
  exact hall s h

theorem relay_b64Val_digit {s : ℕ} (h : s < 64) : b64Val (digit s) = some (UInt32.ofNat s) := by
  have hall : ∀ s < 64, b64Val (digit s) = some (UInt32.ofNat s) := by decide
  exact hall s h

/-! ### The loops, by the character in front -/

theorem b64Loop_blank {c : Byte} (hc : Blank c) (text : Bytes) (bits : ℕ) (held : UInt32) :
    Bundle.b64Loop (c :: text) bits held = Bundle.b64Loop text bits held :=
  (if_neg hc.ne_pad).trans (if_pos hc)

theorem b64Loop_pad (text : Bytes) (bits : ℕ) (held : UInt32) :
    Bundle.b64Loop (pad :: text) bits held = some [] := if_pos rfl

theorem b64Loop_digit {s : ℕ} (hs : s < 64) (text : Bytes) (bits : ℕ) (held : UInt32) :
    Bundle.b64Loop (digit s :: text) bits held =
      let held := held <<< 6 ||| UInt32.ofNat s
      if 8 ≤ bits + 6 then
        (Bundle.b64Loop text (bits - 2) held).map
          ((held >>> UInt32.ofNat (bits - 2)).toUInt8 :: ·)
      else Bundle.b64Loop text (bits + 6) held := by
  refine ((if_neg (digit_ne_pad hs)).trans (if_neg (digit_not_blank hs))).trans ?_
  rw [fleet_b64Val_digit hs]

theorem decodeLoop_blank {c : Byte} (hc : Blank c) (text : Bytes) (held : UInt32) (bits : ℕ)
    (out : Bytes) : decodeLoop (c :: text) held bits out = decodeLoop text held bits out :=
  (if_neg hc.ne_pad).trans (if_pos hc)

theorem decodeLoop_pad (text : Bytes) (held : UInt32) (bits : ℕ) (out : Bytes) :
    decodeLoop (pad :: text) held bits out = some out := if_pos rfl

theorem decodeLoop_digit {s : ℕ} (hs : s < 64) (text : Bytes) (held : UInt32) (bits : ℕ)
    (out : Bytes) :
    decodeLoop (digit s :: text) held bits out =
      let held := held <<< 6 ||| UInt32.ofNat s
      if 8 ≤ bits + 6 then
        if 32 ≤ out.length then none
        else decodeLoop text held (bits - 2)
          (out ++ [(held >>> UInt32.ofNat (bits - 2)).toUInt8])
      else decodeLoop text held (bits + 6) out := by
  refine ((if_neg (digit_ne_pad hs)).trans (if_neg (digit_not_blank hs))).trans ?_
  rw [relay_b64Val_digit hs]
  rfl

/-! ### The loops over a text -/

theorem spread_cons {c : Byte} {text : Bytes} {ss : List ℕ} {n : ℕ}
    (h : Spreads (c :: text) (ss.map digit ++ List.replicate n pad)) :
    (Blank c ∧ Spreads text (ss.map digit ++ List.replicate n pad)) ∨
    (c = pad ∧ ss = []) ∨
    (∃ s rest, c = digit s ∧ ss = s :: rest ∧
      Spreads text (rest.map digit ++ List.replicate n pad)) := by
  unfold Spreads at *
  by_cases hc : Blank c
  · left
    simp only [List.filter_cons, hc, not_true_eq_false, decide_false, Bool.false_eq_true,
      if_false] at h
    exact ⟨hc, h⟩
  · right
    simp only [List.filter_cons, hc, not_false_eq_true, decide_true, if_true] at h
    cases ss with
    | nil =>
      left
      cases n with
      | zero => simp at h
      | succ n => exact ⟨(List.cons.inj h).1, rfl⟩
    | cons s rest =>
      right
      exact ⟨s, rest, (List.cons.inj h).1, rfl, (List.cons.inj h).2⟩

theorem spread_nil {ss : List ℕ} {n : ℕ} (h : Spreads [] (ss.map digit ++ List.replicate n pad)) :
    ss = [] := by
  cases ss with
  | nil => rfl
  | cons s rest => simp [Spreads] at h

theorem b64Loop_spread (text : Bytes) (ss : List ℕ) (n bits : ℕ) (held : UInt32)
    (hss : ∀ s ∈ ss, s < 64) (h : Spreads text (ss.map digit ++ List.replicate n pad)) :
    Bundle.b64Loop text bits held = some (drain held bits ss) := by
  induction text generalizing ss bits held with
  | nil =>
    rw [spread_nil h]
    rfl
  | cons c text ih =>
    rcases spread_cons h with ⟨hblank, htext⟩ | ⟨hpad, hnil⟩ | ⟨s, rest, hc, hcons, htext⟩
    · rw [b64Loop_blank hblank]
      exact ih ss bits held hss htext
    · rw [hpad, hnil, b64Loop_pad]
      rfl
    · rw [hcons] at hss ⊢
      have hs : s < 64 := hss s (List.mem_cons_self ..)
      have hrest : ∀ z ∈ rest, z < 64 := fun z hz => hss z (List.mem_cons_of_mem _ hz)
      rw [hc, b64Loop_digit hs]
      dsimp only
      by_cases hbits : 8 ≤ bits + 6
      · rw [if_pos hbits, drain_emit held hbits, ih rest _ _ hrest htext]
        rfl
      · rw [if_neg hbits, drain_hold held hbits]
        exact ih rest _ _ hrest htext

theorem decodeLoop_spread (text : Bytes) (ss : List ℕ) (n bits : ℕ) (held : UInt32) (out : Bytes)
    (hss : ∀ s ∈ ss, s < 64) (hout : out.length ≤ 32)
    (h : Spreads text (ss.map digit ++ List.replicate n pad)) :
    decodeLoop text held bits out =
      if out.length + (drain held bits ss).length ≤ 32 then some (out ++ drain held bits ss)
      else none := by
  induction text generalizing ss bits held out with
  | nil =>
    rw [spread_nil h]
    simp [decodeLoop, drain, hout]
  | cons c text ih =>
    rcases spread_cons h with ⟨hblank, htext⟩ | ⟨hpad, hnil⟩ | ⟨s, rest, hc, hcons, htext⟩
    · rw [decodeLoop_blank hblank]
      exact ih ss bits held out hss hout htext
    · rw [hpad, hnil, decodeLoop_pad]
      simp [drain, hout]
    · rw [hcons] at hss ⊢
      have hs : s < 64 := hss s (List.mem_cons_self ..)
      have hrest : ∀ z ∈ rest, z < 64 := fun z hz => hss z (List.mem_cons_of_mem _ hz)
      rw [hc, decodeLoop_digit hs]
      dsimp only
      by_cases hbits : 8 ≤ bits + 6
      · rw [if_pos hbits, drain_emit held hbits]
        by_cases hfull : 32 ≤ out.length
        · rw [if_pos hfull, if_neg]
          simp only [List.length_cons]
          omega
        · have hroom : (out ++ [((held <<< 6 ||| UInt32.ofNat s) >>>
              UInt32.ofNat (bits - 2)).toUInt8]).length ≤ 32 := by
            simp only [List.length_append, List.length_cons, List.length_nil]
            omega
          rw [if_neg hfull, ih rest _ _ _ hrest hroom htext]
          simp [Nat.add_assoc, Nat.add_comm 1]
      · rw [if_neg hbits, drain_hold held hbits]
        exact ih rest _ _ out hrest hout htext

/-! ### The decoders -/

theorem b64Decode_spread {b text : Bytes} (h : Spreads text (encode b)) :
    Bundle.b64Decode text = some b := by
  unfold Bundle.b64Decode
  rw [b64Loop_spread text (sextets b) _ 0 0 (sextets_lt b) h, drain_sextets]

theorem decodeWgPubkey_spread {b text : Bytes} (h : Spreads text (encode b)) :
    decodeWgPubkey text = if b.length = 32 then some b else none := by
  have hlen := h.length_le
  have hloop := decodeLoop_spread text (sextets b) _ 0 0 [] (sextets_lt b) (by simp) h
  rw [drain_sextets, List.nil_append, List.length_nil, Nat.zero_add] at hloop
  unfold decodeWgPubkey
  rw [hloop]
  by_cases hb : b.length = 32
  · rw [length_encode, hb] at hlen
    rw [if_neg (by omega), if_pos hb.le, if_pos hb]
    exact if_pos hb
  · rw [if_neg hb]
    by_cases hle : b.length ≤ 32
    · simp [hle, hb]
    · simp [hle]

/-- Both decoders give back what the standard encoding was made of, whatever blanks stand in
it, and a key is 32 bytes. -/
theorem decoders_invert :
    (∀ b text : Bytes, Spreads text (encode b) → Bundle.b64Decode text = some b) ∧
    (∀ k text : Bytes, Spreads text (encode k) → k.length = 32 →
      decodeWgPubkey text = some k) ∧
    (∀ b text : Bytes, Spreads text (encode b) → b.length ≠ 32 →
      decodeWgPubkey text = none) := by
  refine ⟨?_, ?_, ?_⟩
  · intro b text h
    exact b64Decode_spread h
  · intro k text h hk
    rw [decodeWgPubkey_spread h, if_pos hk]
  · intro b text h hb
    rw [decodeWgPubkey_spread h, if_neg hb]

/-- A text with a line break in a group, a key and a text one byte too long for a key. -/
theorem decoders_invert_foobar :
    Bundle.b64Decode (utf8 "Zm\n9v YmE=\n") = some (utf8 "fooba") ∧
    decodeWgPubkey (encode (List.replicate 32 0xab)) = some (List.replicate 32 0xab) ∧
    decodeWgPubkey (encode (List.replicate 33 0xab)) = none := by
  refine ⟨decoders_invert.1 _ _ ?_, decoders_invert.2.1 _ _ (spreads_self _) ?_,
    decoders_invert.2.2 (List.replicate 33 0xab) _ (spreads_self _) ?_⟩
  · decide
  · rfl
  · decide

end HyperDerp.Base64Text
