import HyperDerp.Accept.HttpLines

/-!
# HTTP texts made of lines (`client.cc:205-258`, `http.cc:128-260`)

The requests and answers that the program writes are lines without a carriage return inside, each
ended by a line break, and a blank line behind them.
-/

namespace HyperDerp

namespace HttpLines

open Text (seek utf8)

variable {first input line u : Bytes} {lines : List Bytes}

def textOf (lines : List Bytes) : Bytes := (lines.flatMap fun l => l ++ crlf) ++ crlf

theorem textOf_cons (line : Bytes) (lines : List Bytes) :
    textOf (line :: lines) = line ++ (crlf ++ textOf lines) := by
  simp [textOf]

theorem seek_blank_skip (h : 0x0d ∉ line) (rest : Bytes) :
    seek blankLine (line ++ rest) = seek blankLine rest := by
  induction line with
  | nil => rfl
  | cons b line ih =>
    simp only [List.mem_cons, not_or] at h
    have hno : ¬blankLine.isPrefixOf (b :: (line ++ rest)) = true := by
      rw [List.isPrefixOf_iff_prefix]
      intro hpre
      exact h.1 (List.cons_prefix_cons.1 hpre).1
    rw [List.cons_append, seek, if_neg hno, ih h.2]

theorem seek_blank_crlf {b : Byte} (hb : b ≠ 0x0d) (rest : Bytes) :
    seek blankLine (crlf ++ b :: rest) = seek blankLine (b :: rest) := by
  have hno : ¬blankLine.isPrefixOf (0x0d :: 0x0a :: b :: rest) = true := by
    rw [List.isPrefixOf_iff_prefix]
    intro hpre
    have hthird := (List.cons_prefix_cons.1 (List.cons_prefix_cons.1 hpre).2).2
    exact hb (List.cons_prefix_cons.1 hthird).1.symm
  have hno' : ¬blankLine.isPrefixOf (0x0a :: b :: rest) = true := by
    rw [List.isPrefixOf_iff_prefix]
    intro hpre
    exact absurd (List.cons_prefix_cons.1 hpre).1 (by decide)
  change seek blankLine (0x0d :: 0x0a :: b :: rest) = _
  rw [seek, if_neg hno, seek, if_neg hno']

theorem isBlock_textOf (hne : lines ≠ []) (h : ∀ l ∈ lines, l ≠ [] ∧ 0x0d ∉ l) :
    IsBlock (textOf lines) := by
  induction lines with
  | nil => exact absurd rfl hne
  | cons line lines ih =>
    rw [List.forall_mem_cons] at h
    rw [IsBlock, findHeaderEnd_eq, textOf_cons, seek_blank_skip h.1.2]
    cases lines with
    | nil => rfl
    | cons next lines =>
      obtain ⟨hnext, hcr⟩ := (List.forall_mem_cons.1 h.2).1
      obtain ⟨b, next, rfl⟩ := List.exists_cons_of_ne_nil hnext
      have hb : b ≠ 0x0d := fun heq => hcr (by simp [heq])
      have hrest := ih (List.cons_ne_nil _ _) h.2
      rw [IsBlock, findHeaderEnd_eq, textOf_cons, List.cons_append] at hrest
      rw [textOf_cons, List.cons_append, seek_blank_crlf hb]
      exact hrest

theorem crlf_absent (h : 0x0d ∉ line) : ¬crlf <:+: line := by
  rintro ⟨u, v, rfl⟩
  simp [crlf] at h

theorem linesUpTo_flatMap {n : ℕ} (hn : lines.length ≤ n) (h : ∀ l ∈ lines, 0x0d ∉ l) :
    linesUpTo n (lines.flatMap fun l => l ++ crlf) = lines := by
  induction lines generalizing n with
  | nil =>
    cases n with
    | zero => rfl
    | succ n => rfl
  | cons line lines ih =>
    rw [List.forall_mem_cons] at h
    cases n with
    | zero => simp at hn
    | succ n =>
      have hle : lines.length ≤ n := by simpa using hn
      simp only [linesUpTo, List.flatMap_cons, List.append_assoc, seek_line (crlf_absent h.1),
        take_line]
      exact congrArg _ (ih hle h.2)

theorem length_le_flatMap (lines : List Bytes) :
    lines.length ≤ (lines.flatMap fun l => l ++ crlf).length := by
  induction lines with
  | nil => exact Nat.le_refl _
  | cons line lines ih =>
    simp only [List.flatMap_cons, List.length_append, List.length_cons, crlf] at ih ⊢
    omega

theorem headerLines_textOf (h : ∀ l ∈ first :: lines, 0x0d ∉ l) :
    headerLines (textOf (first :: lines)) = lines ++ [[]] := by
  rw [List.forall_mem_cons] at h
  have hlast : textOf lines = (lines ++ [[]]).flatMap fun l => l ++ crlf := by
    simp [textOf]
  have hall : ∀ l ∈ lines ++ [[]], 0x0d ∉ l := by
    intro l hl
    rcases List.mem_append.1 hl with hl | hl
    · exact h.2 l hl
    · rw [List.mem_singleton.1 hl]
      exact List.not_mem_nil
  have hlen : (lines ++ [[]]).length ≤ (crlf ++ textOf lines).length := by
    have hle := length_le_flatMap (lines ++ [[]])
    rw [hlast]
    exact hle.trans ((List.suffix_append crlf _).length_le)
  simp only [headerLines, textOf_cons, seek_line (crlf_absent h.1)]
  change linesUpTo _ (textOf lines) = _
  rw [hlast] at hlen ⊢
  exact linesUpTo_flatMap hlen hall

theorem IsBlock.eq_of_ends (h : IsBlock input) (hu : u <+: input) (hends : blankLine <:+ u) :
    u = input := by
  obtain ⟨t, rfl⟩ := hu
  obtain ⟨v, rfl⟩ := hends
  have hsome : (seek blankLine (v ++ (blankLine ++ []))).isSome = true := Text.seek_isSome v []
  rw [List.append_nil] at hsome
  obtain ⟨x, hx⟩ := Option.isSome_iff_exists.1 hsome
  have hall := Text.seek_append hx t
  rw [IsBlock, findHeaderEnd_eq, hall] at h
  have hlen := congrArg List.length (Option.some.inj h)
  have hle := (Text.seek_prefixed hx).length_le
  rw [List.length_append] at hlen
  rw [List.eq_nil_of_length_eq_zero (show t.length = 0 by omega), List.append_nil]

theorem isHeader_textOf {method path rest : Bytes}
    (hwords : Words (textOf (first :: lines)) method path rest)
    (h : ∀ l ∈ first :: lines, l ≠ [] ∧ 0x0d ∉ l)
    (hsize : (textOf (first :: lines)).length ≤ kMaxHttpRequestSize) :
    IsHeader (textOf (first :: lines))
      (readLines { method := method, path := path } (lines ++ [[]])) := by
  have hblock := isBlock_textOf (List.cons_ne_nil first lines) h
  have hparse : parseHttpRequest (textOf (first :: lines) ++ []) = _ :=
    hblock.parse (by rwa [List.append_nil])
  rw [List.append_nil, hblock.reads hwords, headerLines_textOf fun l hl => (h l hl).2] at hparse
  exact ⟨hparse⟩

end HttpLines

end HyperDerp
