import HyperDerp.Audit.Ring

/-!
# The files of the log (`hd_audit.cc:162-275`)

A record is one line. The lines of all files, unlinked ones included, change only
where a line is appended.
-/

namespace HyperDerp.Audit

/-! ### The text of a record is one line -/

/-- `strftime` writes no newline for the format of `FormatTs`. -/
def OneLine (cal : Calendar) : Prop := ∀ secs, (0x0a : Byte) ∉ cal.utc secs

theorem digit_clean {d : ℕ} (h : d < 10) : Text.digit d ≠ 0x0a := by
  intro heq
  have hdigit := Text.isDigit_digit h
  rw [heq] at hdigit
  revert hdigit
  decide

theorem formatTs_clean {cal : Calendar} (h : OneLine cal) (ns : ℕ) :
    (0x0a : Byte) ∉ formatTs cal ns := by
  have h1 := digit_clean (d := ns % 1000000000 / 1000000 / 100) (by omega)
  have h2 := digit_clean (d := ns % 1000000000 / 1000000 / 10 % 10) (by omega)
  have h3 := digit_clean (d := ns % 1000000000 / 1000000 % 10) (by omega)
  simp [formatTs, h _, h1.symm, h2.symm, h3.symm]

theorem hexDigit_clean {n : Byte} (h : n.toNat < 16) : hexDigit n ≠ 0x0a := by
  intro heq
  have hval := congrArg UInt8.toNat heq
  unfold hexDigit at hval
  split at hval
  · rw [UInt8.toNat_add] at hval
    simp at hval
    omega
  · rw [UInt8.toNat_add] at hval
    simp at hval
    omega

theorem keyToCkString_clean (key : Key) : (0x0a : Byte) ∉ keyToCkString key := by
  have hpre : (0x0a : Byte) ∉ kKeyPrefixClient := by decide
  rw [keyToCkString, List.mem_append, not_or]
  refine ⟨hpre, ?_⟩
  simp only [keyHex, List.mem_flatMap, List.mem_cons, List.not_mem_nil, or_false, not_exists,
    not_and, not_or]
  intro b _
  have hhigh : (b / 16).toNat < 16 := by
    have hb := b.toNat_lt
    rw [UInt8.toNat_div]
    change b.toNat / 16 < 16
    omega
  have hlow : (b % 16).toNat < 16 := by
    rw [UInt8.toNat_mod]
    exact Nat.mod_lt _ (by decide)
  exact ⟨(hexDigit_clean hhigh).symm, (hexDigit_clean hlow).symm⟩

theorem intentName_clean (i : HdIntent) : (0x0a : Byte) ∉ intentName i := by
  unfold intentName
  split
  · decide
  split
  · decide
  split
  · decide
  split <;> decide

theorem modeName_clean (m : HdConnMode) : (0x0a : Byte) ∉ modeName m := by
  unfold modeName
  split
  · decide
  split
  · decide
  split <;> decide

theorem denyName_clean (r : HdDenyReason) : (0x0a : Byte) ∉ denyName r := by
  have hnames : ∀ e ∈ denyNames, (0x0a : Byte) ∉ e.2 := by decide
  unfold denyName
  split
  · next e he => exact hnames e (List.mem_of_find?_eq_some he)
  · decide

theorem reasonField_clean (r : HdDenyReason) : (0x0a : Byte) ∉ reasonField r := by
  unfold reasonField
  split
  · simp only [List.mem_append, not_or, denyName_clean, not_false_eq_true, and_true]
    decide
  · exact List.not_mem_nil

theorem chainEntry_clean (record : HdAuditRecord) (i : Fin 5) :
    (0x0a : Byte) ∉ chainEntry record i := by
  have hnames : ∀ i, (0x0a : Byte) ∉ kNames i ∧ (0x0a : Byte) ∉ comma i := by decide
  have hallowed : ∀ direct relayed, (0x0a : Byte) ∉ allowedList direct relayed := by
    decide
  simp only [chainEntry, appendAllowed, List.mem_append, not_or, hnames, hallowed,
    not_false_eq_true, true_and, and_true]
  decide

theorem hdAuditToJson_clean {cal : Calendar} (h : OneLine cal) (record : HdAuditRecord) :
    (0x0a : Byte) ∉ hdAuditToJson cal record := by
  have hbool : ∀ b, (0x0a : Byte) ∉ boolName b := by decide
  have hchain : (0x0a : Byte) ∉ (List.finRange 5).flatMap (chainEntry record) := by
    rw [List.mem_flatMap]
    exact fun ⟨i, _, hi⟩ => chainEntry_clean record i hi
  unfold hdAuditToJson
  simp only [List.mem_append, not_or, formatTs_clean h, keyToCkString_clean,
    intentName_clean, modeName_clean, reasonField_clean, hbool, hchain, not_false_eq_true,
    and_true]
  decide

/-! ### Lines -/

def completeLines (content : Bytes) : List Bytes := Lines.complete 0x0a content

/-- The complete lines of the files that are left, the oldest first. -/
def shown (f : HdAuditFlusher) (s : State) : List Bytes :=
  Rotation.oldestFirst (fun i => (s.files i).elim [] completeLines) f.kept

def ever (f : HdAuditFlusher) (s : State) : List Bytes :=
  s.unlinked.flatMap completeLines ++ shown f s

/-! ### The files -/

theorem kept_pos (f : HdAuditFlusher) : 1 ≤ f.kept := by
  unfold HdAuditFlusher.kept
  split
  · omega
  · omega

/-- The file is open, every file ends with a line, and these are all the lines. -/
structure Holds (f : HdAuditFlusher) (s : State) (lines : List Bytes) : Prop where
  fd : s.fd = true
  whole : ∀ j c, s.files j = some c → Lines.Whole 0x0a c
  lines : ever f s = lines

section files

variable {f : HdAuditFlusher} {s : State} {lines : List Bytes}

theorem ever_rotateFiles (f : HdAuditFlusher) (s : State) :
    ever f (rotateFiles f s) = ever f s := by
  have hrotate := Rotation.oldestFirst_rotate (kept_pos f) s.files completeLines
  have hgone : (s.files f.kept).toList.flatMap completeLines =
      (s.files f.kept).elim [] completeLines := by
    cases s.files f.kept with
    | none => rfl
    | some c => simp
  unfold ever shown rotateFiles
  dsimp only
  rw [List.flatMap_append, List.append_assoc, hgone, hrotate]

theorem whole_rotateFiles (h : ∀ j c, s.files j = some c → Lines.Whole 0x0a c) :
    ∀ j c, (rotateFiles f s).files j = some c → Lines.Whole 0x0a c := by
  intro j c hj
  unfold rotateFiles at hj
  dsimp only at hj
  rw [Rotation.rotate_apply (kept_pos f)] at hj
  split at hj
  · cases hj
  · split at hj
    · exact h _ c hj
    · exact h _ c hj

theorem whole_active (h : ∀ j c, s.files j = some c → Lines.Whole 0x0a c) :
    Lines.Whole 0x0a ((s.files 0).getD []) := by
  cases hc : s.files 0 with
  | none => exact Lines.whole_nil
  | some c => exact h 0 c hc

theorem ever_congr {s' : State} (hu : s'.unlinked = s.unlinked) (hf : s'.files = s.files) :
    ever f s' = ever f s := by
  unfold ever shown
  rw [hu, hf]

theorem ever_appendActive {bytes : Bytes} {more : List Bytes}
    (hmore : completeLines ((s.files 0).getD [] ++ bytes) =
      completeLines ((s.files 0).getD []) ++ more) :
    ever f (appendActive bytes s) = ever f s ++ more := by
  have hactive : (s.files 0).elim [] completeLines = completeLines ((s.files 0).getD []) := by
    cases s.files 0 with
    | none => rfl
    | some c => rfl
  unfold ever shown appendActive
  dsimp only
  rw [List.append_assoc]
  congr 1
  apply Rotation.oldestFirst_append
  · rw [Function.update_self, hactive]
    exact hmore
  · intro i hi
    rw [Function.update_of_ne hi]

theorem ever_appendNothing (f : HdAuditFlusher) (s : State) :
    ever f (appendActive [] s) = ever f s := by
  have h : ever f (appendActive [] s) = ever f s ++ [] := by
    apply ever_appendActive
    rw [List.append_nil, List.append_nil]
  rw [h, List.append_nil]

theorem whole_update {content : Bytes} (h : ∀ j c, s.files j = some c → Lines.Whole 0x0a c)
    (hc : Lines.Whole 0x0a content) :
    ∀ j c, Function.update s.files 0 (some content) j = some c → Lines.Whole 0x0a c := by
  intro j c hj
  by_cases h0 : j = 0
  · rw [h0, Function.update_self] at hj
    cases hj
    exact hc
  · rw [Function.update_of_ne h0] at hj
    exact h j c hj

theorem Holds.open (hw : ∀ j c, s.files j = some c → Lines.Whole 0x0a c) (he : ever f s = lines) :
    Holds f (openForAppend true s) lines where
  fd := rfl
  whole := whole_update hw (whole_active hw)
  lines := by
    have hfiles : (openForAppend true s).files = (appendActive [] s).files := by
      simp [openForAppend, appendActive]
    have hunlinked : (openForAppend true s).unlinked = (appendActive [] s).unlinked := rfl
    rw [ever_congr hunlinked hfiles, ever_appendNothing, he]

theorem Holds.rotateIfFull (h : Holds f s lines) {o : Outcome} (ho : o.opens = true)
    (line : Bytes) : Holds f (rotateIfFull f o line s) lines := by
  unfold Audit.rotateIfFull
  split
  · rw [ho]
    apply Holds.open (whole_rotateFiles h.whole)
    rw [ever_rotateFiles]
    exact h.lines
  · exact h

theorem Holds.appendLine (h : Holds f s lines) {l : Bytes} (hl : (0x0a : Byte) ∉ l) :
    Holds f (appendActive (l ++ [0x0a]) s) (lines ++ [l]) := by
  obtain ⟨hwhole, hcomplete⟩ := (whole_active h.whole).snoc hl
  refine ⟨h.fd, whole_update h.whole hwhole, ?_⟩
  rw [ever_appendActive hcomplete, h.lines]

theorem Holds.appendNothing (h : Holds f s lines) : Holds f (appendActive [] s) lines := by
  refine ⟨h.fd, whole_update h.whole ?_, ?_⟩
  · rw [List.append_nil]
    exact whole_active h.whole
  · rw [ever_appendNothing, h.lines]

theorem Holds.congr {s' : State} (h : Holds f s lines) (hfd : s'.fd = s.fd)
    (hu : s'.unlinked = s.unlinked) (hf : s'.files = s.files) : Holds f s' lines where
  fd := hfd.trans h.fd
  whole := by
    rw [hf]
    exact h.whole
  lines := (ever_congr hu hf).trans h.lines

end files

end HyperDerp.Audit
