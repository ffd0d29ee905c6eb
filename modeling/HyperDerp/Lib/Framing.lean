import Mathlib.Data.List.Basic

/-!
# Length-prefixed streams

A stream is a concatenation of frames, each a fixed-size header followed by a
payload whose length the header announces. `parse` is the reference parser: it
cuts off complete frames from the front and returns them together with the
unparsed rest. The results that matter to an incremental receiver are that the
parser may be interrupted anywhere (`parse_append`) and that the rest it leaves
is never a complete frame (`parse_rest`).
-/

namespace Framing

structure Format (α : Type) where
  hdr : ℕ
  len : List α → ℕ
  hdr_pos : 0 < hdr
  len_append : ∀ s t, hdr ≤ s.length → len (s ++ t) = len s

variable {α : Type} (F : Format α)

/-- Total size of the frame that starts `s`. -/
def Format.size (s : List α) : ℕ := F.hdr + F.len s

/-- `s` starts with a whole frame. -/
def Format.Complete (s : List α) : Prop := F.hdr ≤ s.length ∧ F.size s ≤ s.length

instance (s : List α) : Decidable (F.Complete s) :=
  inferInstanceAs (Decidable (_ ∧ _))

/-- At most `n` frames from the front of the stream, and what is left. -/
def parseN : ℕ → List α → List (List α) × List α
  | 0, s => ([], s)
  | n + 1, s =>
    if F.Complete s then
      let r := parseN n (s.drop (F.size s))
      (s.take (F.size s) :: r.1, r.2)
    else ([], s)

/-- Reference parser: all complete frames, then the rest. -/
def parse (s : List α) : List (List α) × List α := parseN F s.length s

theorem size_append {s : List α} (t : List α) (h : F.hdr ≤ s.length) :
    F.size (s ++ t) = F.size s := by
  simp only [Format.size, F.len_append s t h]

theorem Format.Complete.append {s : List α} (h : F.Complete s) (t : List α) :
    F.Complete (s ++ t) := by
  obtain ⟨h1, h2⟩ := h
  refine ⟨by simp only [List.length_append]; omega, ?_⟩
  rw [size_append F t h1, List.length_append]
  omega

theorem Format.Complete.drop_lt {s : List α} (h : F.Complete s) :
    (s.drop (F.size s)).length < s.length := by
  have hp := F.hdr_pos
  have h2 := h.2
  simp only [List.length_drop, Format.size] at h2 ⊢
  omega

theorem parseN_incomplete {s : List α} (n : ℕ) (h : ¬F.Complete s) :
    parseN F n s = ([], s) := by
  cases n with
  | zero => rfl
  | succ n => simp only [parseN, h, ite_false]

theorem parseN_fuel (n m : ℕ) (s : List α) (hn : s.length ≤ n) (hm : s.length ≤ m) :
    parseN F n s = parseN F m s := by
  induction n generalizing m s with
  | zero =>
    have hc : ¬F.Complete s := by
      intro hc
      have h1 := hc.1
      have hp := F.hdr_pos
      omega
    rw [parseN_incomplete F m hc, parseN]
  | succ n ih =>
    by_cases hc : F.Complete s
    · have hd := hc.drop_lt F
      cases m with
      | zero => omega
      | succ m =>
        simp only [parseN, hc, ite_true]
        rw [ih m _ (by omega) (by omega)]
    · rw [parseN_incomplete F _ hc, parseN_incomplete F _ hc]

theorem parse_incomplete {s : List α} (h : ¬F.Complete s) : parse F s = ([], s) :=
  parseN_incomplete F _ h

theorem parse_complete {s : List α} (h : F.Complete s) :
    parse F s = (s.take (F.size s) :: (parse F (s.drop (F.size s))).1,
      (parse F (s.drop (F.size s))).2) := by
  have hd := h.drop_lt F
  have hs : parse F s = parseN F (s.length + 1) s := parseN_fuel F _ _ s (by omega) (by omega)
  rw [hs]
  simp only [parseN, h, ite_true]
  rw [parseN_fuel F s.length (s.drop (F.size s)).length _ (by omega) (Nat.le_refl _)]
  rfl

theorem drop_append_of_complete {s : List α} (t : List α) (h : F.Complete s) :
    (s ++ t).drop (F.size s) = s.drop (F.size s) ++ t :=
  List.drop_append_of_le_length h.2

theorem parse_append (s t : List α) :
    parse F (s ++ t) = ((parse F s).1 ++ (parse F ((parse F s).2 ++ t)).1,
      (parse F ((parse F s).2 ++ t)).2) := by
  induction hn : s.length using Nat.strongRecOn generalizing s with
  | _ n ih =>
    by_cases hc : F.Complete s
    · have hd := hc.drop_lt F
      have hrec := ih (s.drop (F.size s)).length (by omega) (s.drop (F.size s)) rfl
      have hst := parse_complete F (hc.append F t)
      rw [size_append F t hc.1, drop_append_of_complete F t hc, hrec,
        List.take_append_of_le_length hc.2] at hst
      rw [hst, parse_complete F hc]
      simp only [List.cons_append]
    · rw [parse_incomplete F hc]
      simp only [List.nil_append]

theorem parse_rest (s : List α) : ¬F.Complete (parse F s).2 := by
  induction hn : s.length using Nat.strongRecOn generalizing s with
  | _ n ih =>
    by_cases hc : F.Complete s
    · have hd := hc.drop_lt F
      rw [parse_complete F hc]
      exact ih _ (by omega) (s.drop (F.size s)) rfl
    · rw [parse_incomplete F hc]
      exact hc

theorem parse_flatten (s : List α) : (parse F s).1.flatten ++ (parse F s).2 = s := by
  induction hn : s.length using Nat.strongRecOn generalizing s with
  | _ n ih =>
    by_cases hc : F.Complete s
    · have hd := hc.drop_lt F
      have hrec := ih _ (by omega) (s.drop (F.size s)) rfl
      rw [parse_complete F hc]
      simp only [List.flatten_cons, List.append_assoc, hrec, List.take_append_drop]
    · rw [parse_incomplete F hc]
      rfl

/-! ### Streams whose headers are all acceptable -/

/-- Every header the reference parser meets on `s` announces an acceptable
payload length. -/
inductive HeadersOk (ok : ℕ → Prop) : List α → Prop
  | short (s) : s.length < F.hdr → HeadersOk ok s
  | cut (s) : ok (F.len s) → ¬F.Complete s → HeadersOk ok s
  | frame (s) : ok (F.len s) → F.Complete s → HeadersOk ok (s.drop (F.size s)) →
      HeadersOk ok s

variable {ok : ℕ → Prop}

theorem HeadersOk.head {s : List α} (h : HeadersOk F ok s) (hs : F.hdr ≤ s.length) :
    ok (F.len s) := by
  cases h with
  | short _ h => omega
  | cut _ h _ => exact h
  | frame _ h _ _ => exact h

theorem HeadersOk.tail {s : List α} (h : HeadersOk F ok s) (hs : F.Complete s) :
    HeadersOk F ok (s.drop (F.size s)) := by
  cases h with
  | short _ h => exact absurd hs.1 (by omega)
  | cut _ _ h => exact absurd hs h
  | frame _ _ _ h => exact h

theorem HeadersOk.of_append {s t : List α} (h : HeadersOk F ok (s ++ t)) :
    HeadersOk F ok s := by
  induction hn : s.length using Nat.strongRecOn generalizing s with
  | _ n ih =>
    by_cases hs : s.length < F.hdr
    · exact .short s hs
    · have hl : F.hdr ≤ s.length := by omega
      have hk : ok (F.len s) := by
        have hh := h.head F (by rw [List.length_append]; omega)
        rwa [F.len_append s t hl] at hh
      by_cases hc : F.Complete s
      · have hd := hc.drop_lt F
        have ht := h.tail F (hc.append F t)
        rw [size_append F t hl, drop_append_of_complete F t hc] at ht
        exact .frame s hk hc (ih _ (by omega) ht rfl)
      · exact .cut s hk hc

theorem HeadersOk.rest_append {s t : List α} (h : HeadersOk F ok (s ++ t)) :
    HeadersOk F ok ((parse F s).2 ++ t) := by
  induction hn : s.length using Nat.strongRecOn generalizing s with
  | _ n ih =>
    by_cases hc : F.Complete s
    · have hd := hc.drop_lt F
      have ht := h.tail F (hc.append F t)
      rw [size_append F t hc.1, drop_append_of_complete F t hc] at ht
      rw [parse_complete F hc]
      exact ih _ (by omega) ht rfl
    · rw [parse_incomplete F hc]
      exact h

/-! ### Stopping at an unacceptable header -/

/-- What a scan of a stream yields: the frames before the first unacceptable header, the
rest from there or from the incomplete frame on, and whether there was such a header. -/
structure Scan (α : Type) where
  frames : List (List α)
  rest : List α
  stopped : Bool

def scanN (ok : ℕ → Bool) : ℕ → List α → Scan α
  | 0, s => ⟨[], s, false⟩
  | n + 1, s =>
    if s.length < F.hdr then ⟨[], s, false⟩
    else if ok (F.len s) = false then ⟨[], s, true⟩
    else if s.length < F.size s then ⟨[], s, false⟩
    else
      let r := scanN ok n (s.drop (F.size s))
      { r with frames := s.take (F.size s) :: r.frames }

def scan (ok : ℕ → Bool) (s : List α) : Scan α := scanN F ok s.length s

/-- Neither a whole frame nor an unacceptable header yet. -/
def Pending (ok : ℕ → Bool) (s : List α) : Prop :=
  s.length < F.hdr ∨ ok (F.len s) = true ∧ s.length < F.size s

section scan

variable (p : ℕ → Bool)

theorem pending_nil : Pending F p [] := .inl F.hdr_pos

theorem scan_pending {s : List α} (h : Pending F p s) : scan F p s = ⟨[], s, false⟩ := by
  unfold scan
  cases hn : s.length with
  | zero => rfl
  | succ n =>
    rw [scanN]
    rcases h with h | ⟨hok, h⟩
    · rw [if_pos h]
    · rw [hok, if_pos h, if_neg (show ¬(true = false) from nofun), ite_self]

theorem scan_bad {s : List α} (hs : F.hdr ≤ s.length) (h : p (F.len s) = false) :
    scan F p s = ⟨[], s, true⟩ := by
  have hpos := F.hdr_pos
  obtain ⟨n, hn⟩ : ∃ n, s.length = n + 1 := ⟨s.length - 1, by omega⟩
  unfold scan
  rw [hn, scanN, if_neg (by omega), if_pos h]

theorem scanN_fuel (n m : ℕ) (s : List α) (hn : s.length ≤ n) (hm : s.length ≤ m) :
    scanN F p n s = scanN F p m s := by
  have hpos := F.hdr_pos
  induction n generalizing m s with
  | zero =>
    cases m with
    | zero => rfl
    | succ m => rw [scanN, scanN, if_pos (by omega)]
  | succ n ih =>
    cases m with
    | zero => rw [scanN, scanN, if_pos (by omega)]
    | succ m =>
      rw [scanN, scanN]
      split
      · rfl
      split
      · rfl
      split
      · rfl
      have hlen : (s.drop (F.size s)).length < s.length := by
        simp only [List.length_drop, Format.size] at *
        omega
      rw [ih m (s.drop (F.size s)) (by omega) (by omega)]

theorem scan_frame {s : List α} (hok : p (F.len s) = true) (hc : F.Complete s) :
    scan F p s = { scan F p (s.drop (F.size s)) with
      frames := s.take (F.size s) :: (scan F p (s.drop (F.size s))).frames } := by
  have hd := hc.drop_lt F
  have hs : scan F p s = scanN F p (s.length + 1) s :=
    scanN_fuel F p _ _ s (Nat.le_refl _) (Nat.le_succ _)
  rw [hs, scanN, if_neg (Nat.not_lt.2 hc.1), hok, if_neg Bool.noConfusion, if_neg (Nat.not_lt.2 hc.2),
    scanN_fuel F p s.length (s.drop (F.size s)).length _ (by omega) (Nat.le_refl _)]
  rfl

theorem scan_cases (s : List α) :
    Pending F p s ∨ F.hdr ≤ s.length ∧ p (F.len s) = false ∨ p (F.len s) = true ∧ F.Complete s := by
  by_cases hs : s.length < F.hdr
  · exact .inl (.inl hs)
  · cases hok : p (F.len s) with
    | false => exact .inr (.inl ⟨Nat.not_lt.1 hs, rfl⟩)
    | true =>
      by_cases hlt : s.length < F.size s
      · exact .inl (.inr ⟨hok, hlt⟩)
      · exact .inr (.inr ⟨rfl, Nat.not_lt.1 hs, Nat.not_lt.1 hlt⟩)

theorem scan_append (s t : List α) :
    scan F p (s ++ t) =
      if (scan F p s).stopped then ⟨(scan F p s).frames, (scan F p s).rest ++ t, true⟩
      else { scan F p ((scan F p s).rest ++ t) with
        frames := (scan F p s).frames ++ (scan F p ((scan F p s).rest ++ t)).frames } := by
  induction hn : s.length using Nat.strongRecOn generalizing s with
  | _ n ih =>
    rcases scan_cases F p s with h | ⟨hs, h⟩ | ⟨hok, hc⟩
    · rw [scan_pending F p h]
      rfl
    · have hst : F.hdr ≤ (s ++ t).length := by
        rw [List.length_append]
        omega
      rw [scan_bad F p hs h, scan_bad F p hst (by rw [F.len_append s t hs, h])]
      rfl
    · have hd := hc.drop_lt F
      have hrec := ih _ (by omega) (s.drop (F.size s)) rfl
      have hst := scan_frame F p (by rw [F.len_append s t hc.1, hok]) (hc.append F t)
      rw [size_append F t hc.1, drop_append_of_complete F t hc, hrec,
        List.take_append_of_le_length hc.2] at hst
      rw [hst, scan_frame F p hok hc]
      dsimp only
      split <;> rfl

theorem scan_rest (s : List α) (h : (scan F p s).stopped = false) :
    Pending F p (scan F p s).rest := by
  induction hn : s.length using Nat.strongRecOn generalizing s with
  | _ n ih =>
    rcases scan_cases F p s with hpend | ⟨hs, hbad⟩ | ⟨hok, hc⟩
    · rw [scan_pending F p hpend]
      exact hpend
    · rw [scan_bad F p hs hbad] at h
      cases h
    · have hd := hc.drop_lt F
      rw [scan_frame F p hok hc] at h ⊢
      exact ih _ (by omega) _ h rfl

theorem scan_stopped (s : List α) (h : (scan F p s).stopped = true) :
    F.hdr ≤ (scan F p s).rest.length ∧ p (F.len (scan F p s).rest) = false := by
  induction hn : s.length using Nat.strongRecOn generalizing s with
  | _ n ih =>
    rcases scan_cases F p s with hpend | ⟨hs, hbad⟩ | ⟨hok, hc⟩
    · rw [scan_pending F p hpend] at h
      cases h
    · rw [scan_bad F p hs hbad]
      exact ⟨hs, hbad⟩
    · have hd := hc.drop_lt F
      rw [scan_frame F p hok hc] at h ⊢
      exact ih _ (by omega) _ h rfl

theorem scan_frames_ne_nil (s : List α) :
    (scan F p s).frames ≠ [] ↔ p (F.len s) = true ∧ F.Complete s := by
  rcases scan_cases F p s with hpend | ⟨hs, hbad⟩ | ⟨hok, hc⟩
  · rw [scan_pending F p hpend]
    refine ⟨fun h => (h rfl).elim, fun ⟨hok, hc⟩ => ?_⟩
    rcases hpend with h | ⟨-, h⟩
    · exact absurd hc.1 (Nat.not_le.2 h)
    · exact absurd hc.2 (Nat.not_le.2 h)
  · rw [scan_bad F p hs hbad, hbad]
    exact ⟨fun h => (h rfl).elim, fun ⟨h, _⟩ => nomatch h⟩
  · rw [scan_frame F p hok hc]
    exact ⟨fun _ => ⟨hok, hc⟩, fun _ => List.cons_ne_nil _ _⟩

theorem scan_of_headersOk {s : List α} (h : HeadersOk F (fun n => p n = true) s) :
    scan F p s = ⟨(parse F s).1, (parse F s).2, false⟩ := by
  induction h with
  | short s hs =>
    rw [scan_pending F p (.inl hs), parse_incomplete F fun hc => absurd hc.1 (Nat.not_le.2 hs)]
  | cut s hok hc =>
    have hpend : Pending F p s := by
      by_cases hs : s.length < F.hdr
      · exact .inl hs
      · exact .inr ⟨hok, Nat.not_le.1 fun hle => hc ⟨Nat.not_lt.1 hs, hle⟩⟩
    rw [scan_pending F p hpend, parse_incomplete F hc]
  | frame s hok hc _ ih => rw [scan_frame F p hok hc, parse_complete F hc, ih]

end scan

end Framing
