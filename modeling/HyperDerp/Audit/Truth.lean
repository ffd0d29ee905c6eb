import HyperDerp.Audit.Files
import HyperDerp.Audit.Slots
import HyperDerp.Lib.Runs

/-!
# What the audit log says (`hd_audit.cc:124-291`)

A turn of the loop adds the line of the decision that the pass is at, and a rotation
moves lines without changing their order. So the lines are those of an increasing
sequence of decisions, as long as slots are read when they hold their decision.
-/

namespace HyperDerp.Audit

def jsonAt (cal : Calendar) (s : State) (i : ℕ) : Bytes :=
  hdAuditToJson cal ((s.recorded[i]?).getD {})

/-- The log tells the truth: its lines are decisions in the order of their numbers,
without repetition; one that was passed over was lapped; and the file is open. -/
def Truthful (cal : Calendar) (f : HdAuditFlusher) (s : State) : Prop :=
  ∃ gone kept : List ℕ, (gone ++ kept).Pairwise (· < ·) ∧
    (∀ i ∈ gone ++ kept, i < s.recorded.length) ∧
    s.unlinked.flatMap completeLines = gone.map (jsonAt cal s) ∧
    shown f s = kept.map (jsonAt cal s) ∧
    (∀ i < s.flushIdx, i ∈ gone ++ kept ∨ i + kHdAuditRingSize < s.recorded.length) ∧
    s.fd = true

/-- Calls do not share a slot, the flusher reads settled slots, `open` succeeds, and a
failing `write` writes nothing. -/
def Careful (s : State) : Label → Prop
  | .claim _ => ∀ w ∈ s.writers, w.seq % kHdAuditRingSize ≠ s.writeIdx % kHdAuditRingSize
  | .item o => (∀ p ∈ s.pass, Settled s p.2) ∧ o.opens = true ∧ ∀ n ∈ o.fails, n = 0
  | _ => True

instance (s : State) : DecidablePred (Careful s)
  | .claim _ => inferInstanceAs (Decidable (∀ w ∈ s.writers, _))
  | .item _ => inferInstanceAs (Decidable (_ ∧ _ ∧ _))
  | .store _ | .beginPass | .endPass => .isTrue trivial

/-! ### Runs -/

def pos (s : State) : ℕ :=
  match s.pass with
  | some (_, i) => i
  | none => s.flushIdx

structure LogInv (cal : Calendar) (f : HdAuditFlusher) (s : State) : Prop where
  ring : RingInv s
  ahead : s.flushIdx ≤ pos s ∧ pos s ≤ s.writeIdx ∧ ∀ w i, s.pass = some (w, i) → w ≤ s.writeIdx
  told : ∃ seqs : List ℕ, seqs.Pairwise (· < ·) ∧ (∀ i ∈ seqs, i < pos s) ∧
    Holds f s (seqs.map (jsonAt cal s)) ∧
    ∀ i < pos s, i ∈ seqs ∨ i + kHdAuditRingSize < s.writeIdx

section runs

variable {cal : Calendar} {f : HdAuditFlusher} {s : State}

theorem jsonAt_map {s' : State} {more : List HdAuditRecord} {seqs : List ℕ}
    (hr : s'.recorded = s.recorded ++ more) (hlt : ∀ i ∈ seqs, i < s.recorded.length) :
    seqs.map (jsonAt cal s') = seqs.map (jsonAt cal s) := by
  apply List.map_congr_left
  intro i hi
  unfold jsonAt
  rw [hr, List.getElem?_append_left (hlt i hi)]

theorem logInv_claim (h : LogInv cal f s) (record : HdAuditRecord)
    (hfree : ∀ w ∈ s.writers, w.seq % kHdAuditRingSize ≠ s.writeIdx % kHdAuditRingSize) :
    LogInv cal f { s with
      writeIdx := s.writeIdx + 1
      writers := s.writers ++ [⟨s.writeIdx, record, 0⟩]
      recorded := s.recorded ++ [record] } := by
  obtain ⟨hflushed, hpos, hpass⟩ := h.ahead
  obtain ⟨seqs, hsorted, hlt, hholds, hall⟩ := h.told
  have hlen := h.ring.length
  refine ⟨ringInv_claim h.ring record hfree, ⟨hflushed, ?_, ?_⟩, seqs, hsorted, hlt, ?_, ?_⟩
  · exact Nat.le_succ_of_le hpos
  · exact fun w i hw => Nat.le_succ_of_le (hpass w i hw)
  · rw [jsonAt_map rfl fun i hi => by
      have hi' := hlt i hi
      omega]
    exact hholds.congr rfl rfl rfl
  · intro i hi
    exact (hall i hi).imp_right Nat.lt_succ_of_lt

theorem logInv_beginPass (h : LogInv cal f s) (hpass : s.pass = none) :
    LogInv cal f { s with
      pass := some (s.writeIdx, if kHdAuditRingSize < s.writeIdx - s.flushIdx then
        s.writeIdx - kHdAuditRingSize else s.flushIdx) } := by
  obtain ⟨-, hpos, -⟩ := h.ahead
  obtain ⟨seqs, hsorted, hlt, hholds, hall⟩ := h.told
  have hidle : pos s = s.flushIdx := by
    unfold pos
    rw [hpass]
  rw [hidle] at hpos hlt hall
  refine ⟨h.ring.congr rfl rfl rfl rfl, ⟨?_, ?_, ?_⟩, seqs, hsorted, ?_, ?_, ?_⟩
  · dsimp only [pos]
    split <;> omega
  · dsimp only [pos]
    split <;> omega
  · intro w i hw
    cases hw
    exact le_rfl
  · intro i hi
    have hi' := hlt i hi
    dsimp only [pos]
    split <;> omega
  · exact hholds.congr rfl rfl rfl
  · -- the decisions that are passed over are lapped
    intro i hi
    dsimp only [pos] at hi ⊢
    by_cases hold : i < s.flushIdx
    · exact hall i hold
    · right
      split at hi <;> omega

theorem logInv_endPass (h : LogInv cal f s) {w i : ℕ} (hpass : s.pass = some (w, i)) :
    LogInv cal f (leave i s) := by
  obtain ⟨-, hpos, -⟩ := h.ahead
  have hat : pos s = i := by
    unfold pos
    rw [hpass]
  rw [hat] at hpos
  obtain ⟨seqs, hsorted, hlt, hholds, hall⟩ := h.told
  rw [hat] at hlt hall
  exact ⟨h.ring.congr rfl rfl rfl rfl, ⟨le_rfl, hpos, nofun⟩, seqs, hsorted, hlt,
    hholds.congr rfl rfl rfl, hall⟩

theorem rotateIfFull_ring (o : Outcome) (line : Bytes) (s : State) :
    (rotateIfFull f o line s).slots = s.slots ∧ (rotateIfFull f o line s).writeIdx = s.writeIdx ∧
      (rotateIfFull f o line s).writers = s.writers ∧
      (rotateIfFull f o line s).recorded = s.recorded ∧
      (rotateIfFull f o line s).flushIdx = s.flushIdx := by
  unfold rotateIfFull
  split
  · unfold openForAppend
    split
    · exact ⟨rfl, rfl, rfl, rfl, rfl⟩
    · exact ⟨rfl, rfl, rfl, rfl, rfl⟩
  · exact ⟨rfl, rfl, rfl, rfl, rfl⟩

theorem logInv_writeItem (hring : RingInv s) {w i : ℕ} {o : Outcome} {seqs : List ℕ}
    (hflushed : s.flushIdx ≤ i) (hlt : i < w) (hw : w ≤ s.writeIdx)
    (hfails : ∀ n ∈ o.fails, n = 0)
    (hclean : (0x0a : Byte) ∉ jsonAt cal s i) (hsorted : seqs.Pairwise (· < ·))
    (hbound : ∀ j ∈ seqs, j < i) (hholds : Holds f s (seqs.map (jsonAt cal s)))
    (hall : ∀ j < i, j ∈ seqs ∨ j + kHdAuditRingSize < s.writeIdx) :
    LogInv cal f (writeItem w i o (jsonAt cal s i ++ [0x0a]) s) := by
  unfold writeItem
  rw [if_neg (by rw [hholds.fd]; nofun)]
  cases hf : o.fails with
  | some n =>
    have hn := hfails n hf
    subst hn
    exact ⟨hring.congr rfl rfl rfl rfl, ⟨le_rfl, hlt.le.trans hw, nofun⟩, seqs, hsorted, hbound,
      hholds.appendNothing.congr rfl rfl rfl, hall⟩
  | none =>
    refine ⟨hring.congr rfl rfl rfl rfl, ⟨?_, ?_, ?_⟩, seqs ++ [i], ?_, ?_, ?_, ?_⟩
    · exact hflushed.trans (Nat.le_succ i)
    · exact hlt.trans_le hw
    · intro w' i' heq
      cases heq
      exact hw
    · rw [List.pairwise_append]
      refine ⟨hsorted, List.pairwise_singleton _ _, fun j hj k hk => ?_⟩
      rw [List.mem_singleton.1 hk]
      exact hbound j hj
    · intro j hj
      rw [List.mem_append, List.mem_singleton] at hj
      rcases hj with hj | rfl
      · exact (hbound j hj).trans (Nat.lt_succ_self i)
      · exact Nat.lt_succ_self j
    · rw [List.map_append]
      exact (hholds.appendLine hclean).congr rfl rfl rfl
    · intro j hj
      rw [List.mem_append, List.mem_singleton]
      rcases Nat.lt_succ_iff_lt_or_eq.1 hj with hj | rfl
      · exact (hall j hj).imp_left .inl
      · exact .inl (.inr rfl)

theorem logInv_item (hcal : OneLine cal)
    (h : LogInv cal f s) {w i : ℕ} (hpass : s.pass = some (w, i)) (hlt : i < w) {o : Outcome}
    (hset : Settled s i) (hopens : o.opens = true) (hfails : ∀ n ∈ o.fails, n = 0) :
    LogInv cal f (flushItem cal f w i o s) := by
  obtain ⟨hflushed, -, hahead⟩ := h.ahead
  obtain ⟨seqs, hsorted, hbound, hholds, hall⟩ := h.told
  have hat : pos s = i := by
    unfold pos
    rw [hpass]
  rw [hat] at hflushed hbound hall
  have hw := hahead w i hpass
  have hi : i < s.recorded.length := by
    have hlen := h.ring.length
    omega
  -- the slot is read when it holds decision `i`
  have hslot : hdAuditToJson cal (s.slots (i % kHdAuditRingSize)) = jsonAt cal s i := by
    have hrecord := List.getElem?_eq_getElem hi
    rw [h.ring.settled i _ hrecord hset, jsonAt, hrecord]
    rfl
  unfold flushItem
  rw [hslot]
  have hrot := hholds.rotateIfFull hopens (jsonAt cal s i ++ [0x0a])
  obtain ⟨hslots, hwrite, hwriters, hrec, hflush⟩ :=
    rotateIfFull_ring (f := f) o (jsonAt cal s i ++ [0x0a]) s
  dsimp only
  generalize rotateIfFull f o (jsonAt cal s i ++ [0x0a]) s = s1 at *
  have hjson : jsonAt cal s1 = jsonAt cal s := by
    funext j
    rw [jsonAt, jsonAt, hrec]
  rw [← hjson] at hrot ⊢
  apply logInv_writeItem (h.ring.congr hwrite hrec hwriters hslots)
  · exact hflush ▸ hflushed
  · exact hlt
  · exact hwrite ▸ hw
  · exact hfails
  · exact hdAuditToJson_clean hcal _
  · exact hsorted
  · exact hbound
  · exact hrot
  · exact hwrite ▸ hall

theorem logInv_step (hcal : OneLine cal)
    (h : LogInv cal f s) {l : Label} (hok : Careful s l) {s' : State}
    (hs : step cal f s l = some s') : LogInv cal f s' := by
  cases l with
  | claim record =>
    cases hs
    exact logInv_claim h record hok
  | store seq =>
    simp only [step] at hs
    split at hs
    · cases hs
    · next w hw =>
      cases hs
      have hstore := ringInv_store h.ring (List.mem_of_find?_eq_some hw)
      obtain ⟨seqs, hsorted, hbound, hholds, hall⟩ := h.told
      exact ⟨hstore, h.ahead, seqs, hsorted, hbound, hholds.congr rfl rfl rfl, hall⟩
  | beginPass =>
    simp only [step] at hs
    split at hs
    · cases hs
    · next hpass =>
      cases hs
      exact logInv_beginPass h hpass
  | item o =>
    simp only [step] at hs
    split at hs
    · cases hs
    · next w i hpass =>
      split at hs
      · next hlt =>
        cases hs
        obtain ⟨hset, hopens, hfails⟩ := hok
        exact logInv_item hcal h hpass hlt (hset _ hpass) hopens hfails
      · cases hs
  | endPass =>
    simp only [step] at hs
    split at hs
    · cases hs
    · next w i hpass =>
      split at hs
      · cases hs
      · cases hs
        exact logInv_endPass h hpass

theorem logInv_start : LogInv cal f start := by
  refine ⟨⟨rfl, ?_, ?_, ?_⟩, ⟨le_rfl, le_rfl, nofun⟩, [], .nil, ?_, ?_, ?_⟩
  · exact fun w hw => (List.not_mem_nil hw).elim
  · exact fun v hv => (List.not_mem_nil hv).elim
  · intro i record hi
    cases hi
  · exact fun i hi => (List.not_mem_nil hi).elim
  · apply Holds.open
    · intro j c hj
      cases hj
    · unfold ever shown
      change Rotation.oldestFirst (fun _ => []) f.kept = []
      generalize f.kept = n
      induction n with
      | zero => rfl
      | succ n ih => rw [Rotation.oldestFirst, ih]; rfl
  · exact fun i hi => (Nat.not_lt_zero i hi).elim

end runs

/-! ### Main result -/

theorem LogInv.truthful {cal : Calendar} {f : HdAuditFlusher} {s : State} (h : LogInv cal f s) :
    Truthful cal f s := by
  obtain ⟨hflushed, hpos, -⟩ := h.ahead
  obtain ⟨seqs, hsorted, hbound, hholds, hall⟩ := h.told
  have hlen := h.ring.length
  obtain ⟨gone, kept, rfl, hgone, hkept⟩ := List.map_eq_append_iff.1 hholds.lines.symm
  refine ⟨gone, kept, hsorted, ?_, hgone.symm, hkept.symm, ?_, hholds.fd⟩
  · intro i hi
    have hi' := hbound i hi
    omega
  · intro i hi
    rw [← hlen]
    exact hall i (hi.trans_le hflushed)

/-- In every run with these steps the log tells the truth. -/
theorem audit_truthful (cal : Calendar) (hcal : OneLine cal) (f : HdAuditFlusher) {s : State}
    (h : Runs.Reach (· = start) (step cal f) Careful s) : Truthful cal f s := by
  apply LogInv.truthful
  apply Runs.Reach.invariant _ _ h
  · rintro s rfl
    exact logInv_start
  · exact fun s s' l hinv hok hs => logInv_step hcal hinv hok hs

/-! Decisions in the first second after the epoch, and a log that is rotated before every line. -/

def epoch : Calendar := ⟨fun _ => Text.utf8 "1970-01-01T00:00:00"⟩

def eachLine : HdAuditFlusher := ⟨1, 3⟩

def relayed : HdAuditRecord :=
  hdAuditRecord 500000000 (byteKey 1) (byteKey 2) {} { mode := .kRelayed } fun _ => kModeRelayed

theorem oneLine_epoch : OneLine epoch := by
  have h : (0x0a : Byte) ∉ Text.utf8 "1970-01-01T00:00:00" := by decide
  exact fun _ => h

def denied : HdAuditRecord :=
  hdAuditRecord 700000000 (byteKey 2) (byteKey 1) { intent := .kRequireDirect }
    { mode := .kDenied, denyReason := .kIntentConflict } fun _ => 0

def recordOps (seq : ℕ) (record : HdAuditRecord) : List Label :=
  .claim record :: List.replicate kStores (.store seq)

/-- The first line is in an older file when a write of the second fails; the next pass writes it. -/
def twoDecisions : List Label :=
  recordOps 0 relayed ++ [Label.beginPass, Label.item ⟨true, none⟩, Label.endPass] ++
    recordOps 1 denied ++
    [Label.beginPass, Label.item ⟨true, some 0⟩, Label.beginPass, Label.item ⟨true, none⟩]

theorem audit_truthful_two :
    ∃ s, Runs.Reach (· = start) (step epoch eachLine) Careful s ∧
      shown eachLine s = [hdAuditToJson epoch relayed, hdAuditToJson epoch denied] ∧
      Truthful epoch eachLine s := by
  have hrun : (Runs.run (Runs.guarded (step epoch eachLine) Careful) start twoDecisions).map
      (shown eachLine) = some [hdAuditToJson epoch relayed, hdAuditToJson epoch denied] := by
    decide +kernel
  obtain ⟨s, hs, hshown⟩ := Option.map_eq_some_iff.1 hrun
  have hreach : Runs.Reach (· = start) (step epoch eachLine) Careful s :=
    Runs.reach_of_guarded (.start start rfl) hs
  exact ⟨s, hreach, hshown, audit_truthful epoch oneLine_epoch eachLine hreach⟩

/-- A pass between the increment and the first store: the log has a line for a decision
that nobody made. -/
theorem unstored_logged :
    ∃ s, Runs.Reach (· = start) (step epoch eachLine) Runs.Any s ∧
      ¬ Truthful epoch eachLine s := by
  have hrun : (Runs.run (step epoch eachLine) start
      [.claim relayed, .beginPass, .item ⟨true, none⟩]).map (fun s =>
        ((shown eachLine s).length, s.recorded.length,
          decide (shown eachLine s = [jsonAt epoch s 0]))) = some (1, 1, false) := by
    decide +kernel
  obtain ⟨s, hs, hfacts⟩ := Option.map_eq_some_iff.1 hrun
  refine ⟨s, Runs.reach_of_run rfl hs, ?_⟩
  rintro ⟨gone, kept, -, hbound, -, hshown, -, -⟩
  simp only [Prod.mk.injEq, decide_eq_false_iff_not] at hfacts
  obtain ⟨hone, hrecorded, hne⟩ := hfacts
  rw [hshown, List.length_map, List.length_eq_one_iff] at hone
  obtain ⟨i, rfl⟩ := hone
  have hi := hbound i (List.mem_append_right _ (List.mem_singleton_self _))
  obtain rfl : i = 0 := by omega
  exact hne hshown

end HyperDerp.Audit