import HyperDerp.WgRelay.RosterInv
import HyperDerp.Lib.LastSplit
import HyperDerp.Lib.Lines

/-!
# The text of a roster file (`wg_relay.cc:70-136`, `:172-216`, `:347-414`)

The file is lines of words. A word is read back whole, and a line is what it was
written for when its names and keys are words; the endpoint text is split at its
last colon.
-/

namespace HyperDerp.RosterFile

/-! ### Words -/

/-- What one `>>` reads. -/
def Word (s : Bytes) : Prop := s ≠ [] ∧ ∀ b ∈ s, isSpace b = false

instance : DecidablePred Word := fun _ => inferInstanceAs (Decidable (_ ∧ _))

def Ended (s : Bytes) : Prop := ∀ b ∈ s.head?, isSpace b = true

theorem ended_nil : Ended [] := by
  intro b hb
  cases hb

theorem ended_space (s : Bytes) : Ended (0x20 :: s) := by
  intro b hb
  cases hb
  decide

theorem Word.newline {s : Bytes} (h : Word s) : (0x0a : Byte) ∉ s := by
  intro hmem
  have hspace := h.2 _ hmem
  revert hspace
  decide

theorem readToken_word {w rest : Bytes} (h : Word w) (hrest : Ended rest) :
    readToken (w ++ rest) = (w, rest) := by
  have hall : ∀ b ∈ w, (fun c => !isSpace c) b = true := by
    intro b hb
    simp [h.2 b hb]
  have hskip : (w ++ rest).dropWhile isSpace = w ++ rest := by
    cases w with
    | nil => exact absurd rfl h.1
    | cons b w => simp [h.2 b (List.mem_cons_self ..)]
  have hstop : rest.takeWhile (fun c => !isSpace c) = [] ∧
      rest.dropWhile (fun c => !isSpace c) = rest := by
    cases rest with
    | nil => exact ⟨rfl, rfl⟩
    | cons b rest =>
      have hb := hrest b rfl
      simp [hb]
  unfold readToken
  simp only [hskip, List.takeWhile_append_of_pos hall, List.dropWhile_append_of_pos hall, hstop,
    List.append_nil]

theorem readToken_space (s : Bytes) : readToken (0x20 :: s) = readToken s := by
  have hspace : isSpace 0x20 = true := by decide
  simp only [readToken, List.dropWhile_cons, hspace, if_true]

theorem readToken_nil : readToken [] = ([], []) := rfl

theorem readToken_cases (s : Bytes) : readToken s = ([], []) ∨ Word (readToken s).1 := by
  unfold readToken
  dsimp only
  cases hs : s.dropWhile isSpace with
  | nil => exact .inl rfl
  | cons b t =>
    have hb : isSpace b = false := by
      have h := List.head?_dropWhile_not isSpace s
      simpa [hs] using h
    right
    constructor
    · simp [hb]
    · intro x hx
      simpa using List.mem_takeWhile_imp hx

theorem readToken_mem {s : Bytes} {b : Byte} (h : b ∈ (readToken s).2) : b ∈ s :=
  (List.dropWhile_suffix _).subset ((List.dropWhile_suffix _).subset h)

/-! ### Endpoints -/

/-- Hosts in brackets are not numeric hosts, nor names. -/
def Brackets (c : Libc) : Prop :=
  ∀ host port, host.head? = some 0x5b → c.getaddrinfo host port = none

def dotted (addr : UInt32) : Bytes :=
  decimal (addr.toNat / 2 ^ 24) ++ [0x2e] ++ decimal (addr.toNat / 2 ^ 16 % 256) ++ [0x2e] ++
    decimal (addr.toNat / 2 ^ 8 % 256) ++ [0x2e] ++ decimal (addr.toNat % 256)

theorem formatV4_eq (addr : UInt32) (port : UInt16) :
    formatV4 addr port = dotted addr ++ 0x3a :: decimal port.toNat := by
  simp only [formatV4, dotted, List.append_assoc, List.singleton_append]

theorem mem_toList_loop (bs : ByteArray) (i : ℕ) (acc : List UInt8) {b : UInt8}
    (h : b ∈ ByteArray.toList.loop bs i acc) : b ∈ acc ∨ b ∈ bs.data.toList := by
  fun_induction ByteArray.toList.loop bs i acc with
  | case1 i acc hi ih =>
    have hget : bs.get! i ∈ bs.data.toList := by
      change bs.data[i]! ∈ _
      rw [getElem!_pos bs.data i hi]
      exact Array.mem_toList_iff.2 (Array.getElem_mem hi)
    rcases ih h with h | h
    · rw [List.mem_cons] at h
      rcases h with rfl | h
      · exact .inr hget
      · exact .inl h
    · exact .inr h
  | case2 i acc hi => exact .inl (List.mem_reverse.1 h)

theorem mem_decimal {n : ℕ} {b : Byte} (h : b ∈ decimal n) : 48 ≤ b.toNat ∧ b.toNat ≤ 57 := by
  have hmem : b ∈ (Nat.repr n).toByteArray.data.toList :=
    (mem_toList_loop _ _ _ h).resolve_left List.not_mem_nil
  rw [Nat.repr_eq_ofList_toDigits, String.toByteArray_ofList, List.utf8Encode] at hmem
  simp only [List.toList_data_toByteArray, List.mem_flatMap] at hmem
  obtain ⟨ch, hch, hb⟩ := hmem
  have hdigit := Nat.isDigit_of_mem_toDigits (by decide) (by decide) hch
  rw [Char.isDigit, Bool.and_eq_true, decide_eq_true_eq, decide_eq_true_eq] at hdigit
  have hlow : 48 ≤ ch.val.toNat := UInt32.le_iff_toNat_le.1 hdigit.1
  have hhigh : ch.val.toNat ≤ 57 := UInt32.le_iff_toNat_le.1 hdigit.2
  -- a digit is one byte of UTF-8
  have hsize : ch.utf8Size = 1 := by
    rw [Char.utf8Size_eq_one_iff, UInt32.le_iff_toNat_le]
    exact hhigh.trans (by decide)
  rw [String.utf8EncodeChar_eq_singleton hsize, List.mem_singleton] at hb
  have hval : b.toNat = ch.val.toNat := by
    rw [hb, UInt32.toNat_toUInt8]
    omega
  omega

theorem mem_dotted {addr : UInt32} {b : Byte} (h : b ∈ dotted addr) :
    b = 0x2e ∨ 48 ≤ b.toNat ∧ b.toNat ≤ 57 := by
  simp only [dotted, List.mem_append, List.mem_singleton] at h
  rcases h with (((((h | h) | h) | h) | h) | h) | h
  · exact .inr (mem_decimal h)
  · exact .inl h
  · exact .inr (mem_decimal h)
  · exact .inl h
  · exact .inr (mem_decimal h)
  · exact .inl h
  · exact .inr (mem_decimal h)

theorem isSpace_digit {b : Byte} (h : 48 ≤ b.toNat ∧ b.toNat ≤ 57) : isSpace b = false := by
  simp only [isSpace, Bool.or_eq_false_iff, decide_eq_false_iff_not, Bool.and_eq_false_iff,
    UInt8.le_iff_toNat_le, ← UInt8.toNat_inj]
  refine ⟨?_, .inr ?_⟩
  · change b.toNat ≠ 32
    omega
  · change ¬ b.toNat ≤ 13
    omega

theorem word_formatV4 (addr : UInt32) (port : UInt16) : Word (formatV4 addr port) := by
  rw [formatV4_eq]
  refine ⟨by simp, ?_⟩
  intro b hb
  rw [List.mem_append, List.mem_cons] at hb
  rcases hb with hb | rfl | hb
  · rcases mem_dotted hb with rfl | hd
    · decide
    · exact isSpace_digit hd
  · decide
  · exact isSpace_digit (mem_decimal hb)

theorem parseHostPort_eq (c : Libc) (s : Bytes) :
    parseHostPort c s =
      (LastSplit.splitLast 0x3a s).bind fun t => c.getaddrinfo (cStr t.1) (cStr t.2) := by
  unfold parseHostPort LastSplit.splitLast LastSplit.tail
  dsimp only
  split
  · rfl
  · rfl

theorem cStr_clean {s : Bytes} (h : (0 : Byte) ∉ s) : cStr s = s := by
  apply List.takeWhile_eq_self_iff.mpr
  intro b hb
  exact decide_eq_true fun hzero => h (hzero ▸ hb)

theorem parseHostPort_formatV4 (c : Libc) (addr : UInt32) (port : UInt16) :
    parseHostPort c (formatV4 addr port) = c.getaddrinfo (dotted addr) (decimal port.toNat) := by
  have hcolon : (0x3a : Byte) ∉ decimal port.toNat := by
    intro h
    have hd := mem_decimal h
    revert hd
    decide
  have hport : (0 : Byte) ∉ decimal port.toNat := by
    intro h
    have hd := mem_decimal h
    revert hd
    decide
  have hhost : (0 : Byte) ∉ dotted addr := by
    intro h
    have hd := mem_dotted h
    revert hd
    decide
  rw [formatV4_eq, parseHostPort_eq, LastSplit.splitLast_append _ hcolon, Option.bind_some,
    cStr_clean hhost, cStr_clean hport]

theorem parseHostPort_bracket {c : Libc} (hc : Brackets c) {s : Bytes} {ep : Sockaddr}
    (h : parseHostPort c s = some ep) : s.head? ≠ some 0x5b := by
  intro hhead
  rw [parseHostPort_eq, Option.bind_eq_some_iff] at h
  obtain ⟨⟨host, port⟩, hsplit, hres⟩ := h
  obtain ⟨rfl, -⟩ := LastSplit.splitLast_some.mp hsplit
  cases host with
  | nil => cases hhead
  | cons b host =>
    obtain rfl : b = 0x5b := Option.some.inj hhead
    have hnone := hc (cStr (0x5b :: host)) (cStr port) rfl
    rw [hnone] at hres
    cases hres

/-! ### The lines of a roster -/

abbrev unlines (ls : List Bytes) : Bytes := Lines.join 0x0a ls

def peerTail (p : WgRelayPeer) : Bytes :=
  if p.pubkeyB64 = [] then []
  else 0x20 :: (p.pubkeyB64 ++ if p.label = [] then [] else 0x20 :: p.label)

def peerLine (p : WgRelayPeer) : Bytes :=
  kwPeer ++ 0x20 :: (p.name ++ 0x20 :: (p.endpointStr ++ peerTail p))

def linkLine (l : WgRelayLink) : Bytes := kwLink ++ 0x20 :: (l.a ++ 0x20 :: l.b)

def nicLine (p : WgRelayPeer) : Bytes := kwNic ++ 0x20 :: (p.name ++ 0x20 :: p.nic)

def bound (peers : List WgRelayPeer) : List WgRelayPeer := peers.filter fun p => p.nic ≠ []

theorem flatMap_bound (peers : List WgRelayPeer) (f : WgRelayPeer → Bytes) :
    (peers.flatMap fun p => if p.nic = [] then [] else f p) = (bound peers).flatMap f := by
  induction peers with
  | nil => rfl
  | cons p peers ih =>
    unfold bound at ih ⊢
    by_cases hp : p.nic = []
    · simp [hp, ih]
    · simp [hp, ih]

theorem serializeRoster_eq (peers : List WgRelayPeer) (links : List WgRelayLink) :
    serializeRoster peers links =
      unlines (peers.map peerLine ++ links.map linkLine ++ (bound peers).map nicLine) := by
  have hpeer : ∀ p : WgRelayPeer, (kwPeer ++ [0x20] ++ p.name ++ [0x20] ++ p.endpointStr ++
      (if p.pubkeyB64 = [] then []
       else [0x20] ++ p.pubkeyB64 ++ if p.label = [] then [] else [0x20] ++ p.label) ++ [0x0a]) =
      peerLine p ++ [0x0a] := by
    intro p
    unfold peerLine peerTail
    split
    · simp
    · simp
  unfold serializeRoster
  rw [flatMap_bound]
  simp only [hpeer]
  simp [Lines.join, linkLine, nicLine, List.flatMap_map]

def headerLines : List Bytes := (rosterHeader.splitOn 0x0a).dropLast

theorem rosterHeader_eq : rosterHeader = unlines headerLines := by decide +kernel

theorem headerLines_clean :
    ∀ l ∈ headerLines, (0x0a : Byte) ∉ l ∧ l.head? = some 0x23 := by decide +kernel

end HyperDerp.RosterFile
