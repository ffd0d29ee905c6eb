import Mathlib.Data.List.Infix
import Mathlib.Data.List.TakeWhile
import Mathlib.Data.Nat.Digits.Lemmas
import Mathlib.Tactic.Common

/-!
# Byte strings

Searching, splitting, lines and decimal numbers. A position in a string is the
suffix that starts there.
-/

namespace Text

abbrev Str := List UInt8

def utf8 (s : String) : Str := s.toUTF8.data.toList

/-! ### Searching -/

/-- The first suffix that begins with `needle`. -/
def seek (needle : Str) : Str → Option Str
  | [] => if needle = [] then some [] else none
  | b :: s => if needle.isPrefixOf (b :: s) then some (b :: s) else seek needle s

/-- The suffix from the first `c` on. -/
def skipTo (c : UInt8) (s : Str) : Str := s.dropWhile fun b => decide (b ≠ c)

variable {needle s t : Str}

theorem seek_suffix (h : seek needle s = some t) : t <:+ s := by
  induction s with
  | nil =>
    simp only [seek, Option.ite_none_right_eq_some, Option.some.injEq] at h
    rw [← h.2]
  | cons b s ih =>
    simp only [seek] at h
    split at h
    · cases h
      exact List.suffix_rfl
    · exact (ih h).trans (List.suffix_cons b s)

theorem seek_prefixed (h : seek needle s = some t) : needle <+: t := by
  induction s with
  | nil =>
    simp only [seek, Option.ite_none_right_eq_some, Option.some.injEq] at h
    rw [h.1]
    exact List.nil_prefix
  | cons b s ih =>
    simp only [seek] at h
    split at h
    · next hp =>
      cases h
      exact List.isPrefixOf_iff_prefix.1 hp
    · exact ih h

theorem seek_append (h : seek needle s = some t) (u : Str) :
    seek needle (s ++ u) = some (t ++ u) := by
  induction s with
  | nil =>
    simp only [seek, Option.ite_none_right_eq_some, Option.some.injEq] at h
    obtain ⟨rfl, rfl⟩ := h
    cases u <;> simp [seek]
  | cons b s ih =>
    simp only [seek] at h
    rw [List.cons_append, seek]
    split at h
    · next hp =>
      cases h
      have hlonger : needle.isPrefixOf (b :: (s ++ u)) = true := by
        rw [List.isPrefixOf_iff_prefix] at hp ⊢
        exact hp.trans ⟨u, rfl⟩
      rw [if_pos hlonger]
      rfl
    · next hp =>
      have hfits : needle.length ≤ (b :: s).length := by
        have hprefix := (seek_prefixed h).length_le
        have hsuffix := (seek_suffix h).length_le
        rw [List.length_cons]
        omega
      have hnot : ¬ needle.isPrefixOf (b :: (s ++ u)) = true := by
        rw [List.isPrefixOf_iff_prefix] at hp ⊢
        exact fun hlong => hp (List.prefix_of_prefix_length_le hlong ⟨u, rfl⟩ hfits)
      rw [if_neg hnot]
      exact ih h

theorem seek_isSome (u rest : Str) : (seek needle (u ++ (needle ++ rest))).isSome = true := by
  induction u with
  | nil =>
    cases h : needle ++ rest with
    | nil => simp [seek, (List.append_eq_nil_iff.1 h).1]
    | cons b s =>
      have hp : needle.isPrefixOf (b :: s) = true := by
        rw [List.isPrefixOf_iff_prefix, ← h]
        exact List.prefix_append ..
      rw [List.nil_append, seek, if_pos hp]
      rfl
  | cons b u ih =>
    rw [List.cons_append, seek]
    split
    · rfl
    · exact ih

theorem seek_occurs (h : seek needle s = some t) : ∃ u rest, s = u ++ (needle ++ rest) := by
  obtain ⟨u, hu⟩ := seek_suffix h
  obtain ⟨rest, hrest⟩ := seek_prefixed h
  exact ⟨u, rest, by rw [hrest, hu]⟩

theorem seek_first {u rest : Str} (h : s = u ++ (needle ++ rest))
    (hfirst : ∀ u' rest', s = u' ++ (needle ++ rest') → u.length ≤ u'.length) :
    seek needle s = some (needle ++ rest) := by
  induction u generalizing s with
  | nil =>
    rw [h, List.nil_append]
    cases hs : needle ++ rest with
    | nil => simp [seek, (List.append_eq_nil_iff.1 hs).1]
    | cons b s =>
      have hp : needle.isPrefixOf (b :: s) = true := by
        rw [List.isPrefixOf_iff_prefix, ← hs]
        exact List.prefix_append ..
      rw [seek, if_pos hp]
  | cons b u ih =>
    rw [h, List.cons_append, seek, if_neg]
    · apply ih rfl
      intro u' rest' hu'
      have hle := hfirst (b :: u') rest' (by rw [h, List.cons_append, hu', List.cons_append])
      simpa using hle
    · intro hp
      obtain ⟨rest', hrest'⟩ := List.isPrefixOf_iff_prefix.1 hp
      have hle := hfirst [] rest' (by rw [h, List.cons_append, ← hrest', List.nil_append])
      simp at hle

theorem skipTo_append {c : UInt8} (h : c ∉ s) (rest : Str) : skipTo c (s ++ c :: rest) = c :: rest := by
  unfold skipTo
  rw [List.dropWhile_append_of_pos]
  · simp
  · intro b hb
    apply decide_eq_true
    rintro rfl
    exact h hb

/-! ### Lines -/

def newline : UInt8 := 0x0a
def tab : UInt8 := 0x09

/-- The lines of a file; a last one without a newline counts. -/
def lines : Str → List Str
  | [] => []
  | b :: s =>
    if b = newline then [] :: lines s
    else
      match lines s with
      | [] => [[b]]
      | l :: ls => (b :: l) :: ls

theorem lines_cons (l rest : Str) (h : newline ∉ l) :
    lines (l ++ newline :: rest) = l :: lines rest := by
  induction l with
  | nil => simp [lines]
  | cons b l ih =>
    rw [List.mem_cons, not_or] at h
    rw [List.cons_append, lines, if_neg (Ne.symm h.1), ih h.2]

theorem lines_flatMap (ls : List Str) (h : ∀ l ∈ ls, newline ∉ l) :
    lines (ls.flatMap fun l => l ++ [newline]) = ls := by
  induction ls with
  | nil => rfl
  | cons l ls ih =>
    have hl := h l (List.mem_cons_self ..)
    have hrest : ∀ l ∈ ls, newline ∉ l := fun l hl => h l (List.mem_cons_of_mem _ hl)
    rw [List.flatMap_cons, List.append_assoc, List.singleton_append, lines_cons l _ hl, ih hrest]

theorem lines_ne_nil {s : Str} (h : s ≠ []) : lines s ≠ [] := by
  cases s with
  | nil => exact absurd rfl h
  | cons b s =>
    rw [lines]
    split
    · nofun
    · split <;> nofun

theorem lines_append (s t : Str) :
    lines (s ++ newline :: t) = lines (s ++ [newline]) ++ lines t := by
  induction s with
  | nil => simp [lines]
  | cons b s ih =>
    rw [List.cons_append, List.cons_append, lines, lines, ih]
    split
    · rw [List.cons_append]
    · obtain ⟨l, ls, hl⟩ := List.exists_cons_of_ne_nil (lines_ne_nil (s := s ++ [newline]) (by simp))
      rw [hl]
      rfl

theorem lines_length (s : Str) : (lines (s ++ [newline])).length = s.count newline + 1 := by
  induction s with
  | nil => rfl
  | cons b s ih =>
    rw [List.cons_append, lines, List.count_cons]
    split
    · next hb => simp [hb, ih]
    · next hb =>
      obtain ⟨l, ls, hl⟩ := List.exists_cons_of_ne_nil (lines_ne_nil (s := s ++ [newline]) (by simp))
      rw [hl] at ih ⊢
      simp [hb] at ih ⊢
      exact ih

def fields (s : Str) : List Str := s.splitOn tab

def joinFields (fs : List Str) : Str := [tab].intercalate fs

theorem fields_join {fs : List Str} (h : ∀ f ∈ fs, tab ∉ f) (hne : fs ≠ []) :
    fields (joinFields fs) = fs := List.splitOn_intercalate tab h hne

theorem joinFields_cons (f : Str) (fs : List Str) :
    joinFields (f :: fs) = f ++ fs.flatMap fun g => tab :: g := by
  induction fs generalizing f with
  | nil => simp [joinFields]
  | cons g fs ih =>
    have hstep : joinFields (f :: g :: fs) = f ++ tab :: joinFields (g :: fs) := by
      simp [joinFields, List.intercalate]
    rw [hstep, ih g, List.flatMap_cons, List.cons_append]

theorem fields_ne_nil (s : Str) : fields s ≠ [] := List.splitOn_ne_nil tab s

theorem tab_not_mem_fields {s f : Str} (h : f ∈ fields s) : tab ∉ f := by
  induction s generalizing f with
  | nil =>
    rw [fields, List.splitOn_nil, List.mem_singleton] at h
    rw [h]
    exact List.not_mem_nil
  | cons b s ih =>
    rw [fields, List.splitOn_cons_eq_if_modifyHead] at h
    split at h
    · rcases List.mem_cons.1 h with rfl | h
      · exact List.not_mem_nil
      · exact ih h
    · next hb =>
      obtain ⟨g, gs, hg⟩ := List.exists_cons_of_ne_nil (fields_ne_nil s)
      rw [show s.splitOn tab = g :: gs from hg, List.modifyHead_cons] at h
      rcases List.mem_cons.1 h with rfl | h
      · rw [List.mem_cons, not_or]
        refine ⟨fun hbt => hb (by simp [hbt]), ih ?_⟩
        rw [hg]
        exact List.mem_cons_self ..
      · apply ih
        rw [hg]
        exact List.mem_cons_of_mem _ h

theorem fields_cons {f : Str} (h : tab ∉ f) (rest : Str) :
    fields (f ++ tab :: rest) = f :: fields rest :=
  List.splitOn_append_cons_self_of_not_mem h rest

theorem fields_single {f : Str} (h : tab ∉ f) : fields f = [f] := List.splitOn_eq_singleton h

theorem mem_joinFields {c : UInt8} {f : Str} {fs : List Str} (hf : f ∈ fs) (hc : c ∈ f) :
    c ∈ joinFields fs := by
  cases fs with
  | nil => cases hf
  | cons g gs =>
    rw [joinFields_cons, List.mem_append, List.mem_flatMap]
    rcases List.mem_cons.1 hf with rfl | hf
    · exact .inl hc
    · exact .inr ⟨f, hf, List.mem_cons_of_mem _ hc⟩

theorem fields_prefix {fs : List Str} (h : ∀ f ∈ fs, tab ∉ f) (hne : fs ≠ []) {t : Str}
    (ht : t <+: joinFields fs) : t.count tab < fs.length ∧
      ∃ g, g <+: fs.getD (t.count tab) [] ∧ fields t = fs.take (t.count tab) ++ [g] := by
  induction fs generalizing t with
  | nil => exact absurd rfl hne
  | cons f fs ih =>
    have hf := h f (List.mem_cons_self ..)
    -- cut in the first field
    have hfirst : t <+: f → t.count tab < (f :: fs).length ∧ ∃ g,
        g <+: (f :: fs).getD (t.count tab) [] ∧ fields t = (f :: fs).take (t.count tab) ++ [g] := by
      intro htf
      have hnot : tab ∉ t := fun hmem => hf (htf.subset hmem)
      rw [List.count_eq_zero_of_not_mem hnot]
      exact ⟨by simp, t, htf, fields_single hnot⟩
    cases fs with
    | nil => exact hfirst (by simpa [joinFields] using ht)
    | cons g gs =>
      have hjoin : joinFields (f :: g :: gs) = f ++ tab :: joinFields (g :: gs) := by
        rw [joinFields_cons, joinFields_cons, List.flatMap_cons, List.cons_append]
      rw [hjoin] at ht
      rcases List.prefix_or_prefix_of_prefix ht (List.prefix_append f _) with htf | ⟨u, rfl⟩
      · exact hfirst htf
      rw [List.prefix_append_right_inj] at ht
      cases u with
      | nil => exact hfirst (by simp)
      | cons b u =>
        obtain ⟨rfl, hu⟩ := List.cons_prefix_cons.1 ht
        obtain ⟨hlt, x, hx, hfields⟩ := ih (fun f hf => h f (List.mem_cons_of_mem _ hf)) nofun hu
        have hcount : (f ++ tab :: u).count tab = u.count tab + 1 := by
          rw [List.count_append, List.count_eq_zero_of_not_mem hf, List.count_cons_self, Nat.zero_add]
        rw [hcount]
        refine ⟨by simpa using hlt, x, hx, ?_⟩
        rw [fields_cons hf, hfields, List.take_succ_cons, List.cons_append]

/-! ### Numbers -/

def isDigit (c : UInt8) : Bool := decide (0x30 ≤ c ∧ c ≤ 0x39)

def isSpace (c : UInt8) : Bool := decide (c = 0x20 ∨ 0x09 ≤ c ∧ c ≤ 0x0d)

def digitsValue (s : Str) : ℕ :=
  (s.takeWhile isDigit).foldl (fun n c => 10 * n + (c.toNat - 0x30)) 0

def digit (d : ℕ) : UInt8 := UInt8.ofNat (0x30 + d)

def decimal (n : ℕ) : Str := if n = 0 then [0x30] else (Nat.digits 10 n).reverse.map digit

theorem isDigit_digit {d : ℕ} (h : d < 10) : isDigit (digit d) = true := by
  have hd : ∀ d : Fin 10, isDigit (digit d) = true := by decide
  exact hd ⟨d, h⟩

theorem digit_value {d : ℕ} (h : d < 10) : (digit d).toNat - 0x30 = d := by
  have hd : ∀ d : Fin 10, (digit d).toNat - 0x30 = d := by decide
  exact hd ⟨d, h⟩

theorem isDigit_decimal {n : ℕ} : ∀ c ∈ decimal n, isDigit c = true := by
  intro c hc
  unfold decimal at hc
  split at hc
  · rw [List.mem_singleton.1 hc]
    decide
  · rw [List.mem_map] at hc
    obtain ⟨d, hd, rfl⟩ := hc
    exact isDigit_digit (Nat.digits_lt_base (by decide) (List.mem_reverse.1 hd))

theorem decimal_ne_nil (n : ℕ) : decimal n ≠ [] := by
  unfold decimal
  split
  · exact nofun
  · next h => simpa [Nat.digits_eq_nil_iff_eq_zero] using h

theorem foldr_digits (ds : List ℕ) (h : ∀ d ∈ ds, d < 10) :
    ds.foldr (fun d n => 10 * n + ((digit d).toNat - 0x30)) 0 = Nat.ofDigits 10 ds := by
  induction ds with
  | nil => rfl
  | cons d ds ih =>
    have hrest : ∀ d ∈ ds, d < 10 := fun d hd => h d (List.mem_cons_of_mem _ hd)
    rw [List.foldr_cons, ih hrest, digit_value (h d (List.mem_cons_self ..)), Nat.ofDigits_cons,
      Nat.add_comm]

theorem digitsValue_decimal_append (n : ℕ) (rest : Str)
    (h : ∀ c, rest.head? = some c → isDigit c = false) : digitsValue (decimal n ++ rest) = n := by
  have hrest : rest.takeWhile isDigit = [] := by
    cases rest with
    | nil => rfl
    | cons c rest => rw [List.takeWhile_cons, h c rfl, if_neg Bool.false_ne_true]
  have hall : (decimal n ++ rest).takeWhile isDigit = decimal n := by
    rw [List.takeWhile_append_of_pos isDigit_decimal, hrest, List.append_nil]
  unfold digitsValue
  rw [hall]
  unfold decimal
  split
  · next h => rw [h]; rfl
  · rw [List.foldl_map, List.foldl_reverse,
      foldr_digits _ fun d hd => Nat.digits_lt_base (by decide) hd, Nat.ofDigits_digits]

theorem digitsValue_decimal (n : ℕ) : digitsValue (decimal n) = n := by
  have h := digitsValue_decimal_append n [] nofun
  rwa [List.append_nil] at h

theorem isDigit_first {c : UInt8} (h : isDigit c = true) :
    isSpace c = false ∧ c ≠ 0x2d ∧ c ≠ 0x2b := by
  simp only [isDigit, isSpace, decide_eq_true_eq, decide_eq_false_iff_not,
    UInt8.le_iff_toNat_le] at h ⊢
  have hne : ∀ k : UInt8, k.toNat < 0x30 → c ≠ k := by
    intro k hk hc
    rw [hc] at h
    exact absurd h.1 (Nat.not_le.2 hk)
  refine ⟨?_, hne _ (by decide), hne _ (by decide)⟩
  rintro (hc | hc)
  · exact hne _ (by decide) hc
  · exact absurd (h.1.trans hc.2) (by decide)

/-- What `strtol` and `strtoull` read: blanks, a sign, digits. The sign, the magnitude and
the number of bytes read. -/
def readInteger (s : Str) : Option (Bool × ℕ × ℕ) :=
  let t := s.dropWhile isSpace
  let u := if t.head? = some 0x2d ∨ t.head? = some 0x2b then t.tail else t
  let ds := u.takeWhile isDigit
  if ds = [] then none
  else some (decide (t.head? = some 0x2d), digitsValue u, s.length - (u.length - ds.length))

theorem readInteger_decimal (n : ℕ) :
    readInteger (decimal n) = some (false, n, (decimal n).length) := by
  obtain ⟨c, cs, hc⟩ : ∃ c cs, decimal n = c :: cs := List.exists_cons_of_ne_nil (decimal_ne_nil n)
  have hdigit : isDigit c = true := isDigit_decimal c (by rw [hc]; exact List.mem_cons_self ..)
  have hall : (decimal n).takeWhile isDigit = decimal n :=
    List.takeWhile_eq_self_iff.2 isDigit_decimal
  obtain ⟨hspace, hminus, hplus⟩ := isDigit_first hdigit
  have hdrop : (decimal n).dropWhile isSpace = decimal n := by
    rw [hc, List.dropWhile_cons, hspace, if_neg Bool.false_ne_true]
  have hminus' : ¬(decimal n).head? = some 0x2d := by
    rw [hc, List.head?_cons, Option.some.injEq]
    exact hminus
  have hplus' : ¬(decimal n).head? = some 0x2b := by
    rw [hc, List.head?_cons, Option.some.injEq]
    exact hplus
  simp only [readInteger, hdrop, hminus', hplus', or_self, if_false, hall, decimal_ne_nil,
    digitsValue_decimal, decide_false, Nat.sub_self, Nat.sub_zero]

end Text
