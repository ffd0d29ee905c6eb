import Mathlib.Data.List.Count
import Mathlib.Tactic.Common

/-!
# Streams read in chunks

A source is what is still to come of a stream and the outcomes of the coming reads:
0 for a read that brings nothing, `n` for one that brings at most `n` elements. A
read after the last element brings nothing, and so does one past the end of the
list.
-/

namespace ByteStream

variable {α : Type}

structure Source (α : Type) where
  stream : List α
  reads : List ℕ

namespace Source

def timeouts (s : Source α) : ℕ := s.reads.countP (· = 0)

def arrivals (s : Source α) : ℕ := s.reads.countP (0 < ·)

def Enough (s : Source α) : Prop := s.stream.length ≤ s.arrivals

/-- Between two points of a run on a source whose reads suffice, `cost` reads timed out. -/
def Later (cost : ℕ) (s s' : Source α) : Prop :=
  s.Enough → s'.Enough ∧ s'.timeouts + cost ≤ s.timeouts

theorem Later.refl (s : Source α) : Later 0 s s := fun h => ⟨h, Nat.le_refl _⟩

variable {s s' : Source α} {n : ℕ} {stream : List α}

theorem Later.trans {c c' : ℕ} {s'' : Source α} (h : Later c s s') (h' : Later c' s' s'') :
    Later (c + c') s s'' := by
  intro henough
  obtain ⟨henough', hle⟩ := h henough
  obtain ⟨henough'', hle'⟩ := h' henough'
  exact ⟨henough'', by omega⟩

theorem later_read {space : ℕ} (reads : List ℕ) (hn : n ≠ 0) (hspace : space ≠ 0)
    (hstream : stream ≠ []) :
    Later 0 ⟨stream, n :: reads⟩ ⟨stream.drop (min n space), reads⟩ := by
  have hpos := List.length_pos_iff.mpr hstream
  intro henough
  simp only [Enough, arrivals, timeouts, List.countP_cons, List.length_drop] at henough ⊢
  simp only [hn, Nat.pos_of_ne_zero hn, decide_true, decide_false, ite_true,
    Bool.false_eq_true, ite_false] at henough ⊢
  omega

theorem later_timeout (stream : List α) (reads : List ℕ) :
    Later 1 ⟨stream, 0 :: reads⟩ ⟨stream, reads⟩ := by
  intro henough
  simp only [Enough, arrivals, timeouts, List.countP_cons, Nat.lt_irrefl, decide_false,
    Bool.false_eq_true, ite_false, Nat.add_zero, decide_true, ite_true] at henough ⊢
  exact ⟨henough, Nat.le_refl _⟩

/-! ### Reading an exact number of elements -/

/-- Read until `want` elements have come, behind those in `got`. -/
def readAllLoop (want : ℕ) (got stream : List α) (reads : List ℕ) :
    Option (List α × Source α) :=
  if want ≤ got.length then some (got, ⟨stream, reads⟩)
  else
    match reads with
    | [] => none
    | n :: reads =>
      if n = 0 ∨ stream.isEmpty then none
      else
        readAllLoop want (got ++ stream.take (min n (want - got.length)))
          (stream.drop (min n (want - got.length))) reads

def readAll (n : ℕ) (s : Source α) : Option (List α × Source α) :=
  readAllLoop n [] s.stream s.reads

/-- Reads that suffice, none of which times out. -/
structure Prompt (s : Source α) : Prop where
  enough : s.Enough
  timely : s.timeouts = 0

theorem Prompt.later (h : s.Prompt) (hl : Later 0 s s') : s'.Prompt := by
  obtain ⟨henough, hle⟩ := hl h.enough
  have htimely := h.timely
  exact ⟨henough, by omega⟩

theorem Prompt.read_pos {reads : List ℕ} (h : Prompt ⟨stream, n :: reads⟩) : n ≠ 0 := by
  rintro rfl
  have htimely := h.timely
  simp [timeouts] at htimely

theorem Prompt.stream_nil (h : Prompt ⟨stream, []⟩) : stream = [] :=
  List.eq_nil_of_length_eq_zero (Nat.le_zero.mp h.enough)

theorem readAllLoop_eq (want : ℕ) (reads : List ℕ) (got stream : List α)
    (h : Prompt ⟨stream, reads⟩) (hgot : got.length ≤ want)
    (hle : want ≤ got.length + stream.length) :
    ∃ reads', readAllLoop want got stream reads = some
        (got ++ stream.take (want - got.length), ⟨stream.drop (want - got.length), reads'⟩) ∧
      Prompt ⟨stream.drop (want - got.length), reads'⟩ := by
  induction reads generalizing got stream with
  | nil =>
    have hnil := h.stream_nil
    subst hnil
    have hwant : want = got.length := by simpa using Nat.le_antisymm hle hgot
    refine ⟨[], ?_, by simpa using h⟩
    unfold readAllLoop
    rw [if_pos (by omega)]
    simp
  | cons n reads ih =>
    unfold readAllLoop
    by_cases hdone : want ≤ got.length
    · have hzero : want - got.length = 0 := by omega
      rw [if_pos hdone, hzero]
      exact ⟨n :: reads, by simp, by simpa using h⟩
    · rw [if_neg hdone]
      have hn := h.read_pos
      have hstream : stream ≠ [] := by
        rintro rfl
        simp only [List.length_nil] at hle
        omega
      have hmore : Prompt ⟨stream.drop (min n (want - got.length)), reads⟩ :=
        h.later (later_read reads hn (by omega) hstream)
      have hlen : (stream.take (min n (want - got.length))).length =
          min n (want - got.length) := List.length_take_of_le (by omega)
      obtain ⟨reads', heq, hprompt⟩ := ih (got ++ stream.take (min n (want - got.length))) _ hmore
        (by rw [List.length_append]; omega)
        (by rw [List.length_append, List.length_drop]; omega)
      have hwant : want - got.length = min n (want - got.length) +
          (want - (got ++ stream.take (min n (want - got.length))).length) := by
        rw [List.length_append, hlen]
        omega
      rw [List.drop_drop, ← hwant] at heq hprompt
      rw [List.append_assoc, ← List.take_add, ← hwant] at heq
      refine ⟨reads', ?_, hprompt⟩
      dsimp only
      rw [if_neg (by simp [hn, hstream]), heq]

theorem readAll_eq (h : s.Prompt) (hn : n ≤ s.stream.length) :
    ∃ reads', s.readAll n = some (s.stream.take n, ⟨s.stream.drop n, reads'⟩) ∧
      Prompt ⟨s.stream.drop n, reads'⟩ := by
  have hall := readAllLoop_eq n s.reads [] s.stream h (Nat.zero_le n) (by simpa using hn)
  simpa [readAll] using hall

theorem readAllLoop_some {want : ℕ} {reads : List ℕ} {got out : List α}
    (h : readAllLoop want got stream reads = some (out, s')) (hgot : got.length ≤ want) :
    out = got ++ stream.take (want - got.length) ∧
      s'.stream = stream.drop (want - got.length) ∧ want ≤ got.length + stream.length := by
  induction reads generalizing got stream with
  | nil =>
    unfold readAllLoop at h
    split at h
    · next hle =>
      have hzero : want - got.length = 0 := by omega
      rw [hzero]
      cases h
      exact ⟨by simp, rfl, by omega⟩
    · cases h
  | cons n reads ih =>
    unfold readAllLoop at h
    split at h
    · next hle =>
      have hzero : want - got.length = 0 := by omega
      rw [hzero]
      cases h
      exact ⟨by simp, rfl, by omega⟩
    · dsimp only at h
      split at h
      · cases h
      · next hle _ =>
        have htake : (stream.take (min n (want - got.length))).length ≤ want - got.length := by
          rw [List.length_take]
          omega
        obtain ⟨hout, hrest, hlen⟩ := ih h (by rw [List.length_append]; omega)
        rw [List.length_append, List.length_take] at hout hrest hlen
        rw [List.length_drop] at hlen
        rw [List.drop_drop] at hrest
        by_cases hn : min n (want - got.length) ≤ stream.length
        · have hwant : want - got.length = min n (want - got.length) +
              (want - (got.length + min n (want - got.length))) := by omega
          rw [Nat.min_eq_left hn, List.append_assoc, ← List.take_add, ← hwant] at hout
          rw [Nat.min_eq_left hn, ← hwant] at hrest
          exact ⟨hout, hrest, by omega⟩
        · omega

theorem readAll_some {out : List α} (h : s.readAll n = some (out, s')) :
    out = s.stream.take n ∧ s'.stream = s.stream.drop n ∧ n ≤ s.stream.length := by
  simpa using readAllLoop_some h (Nat.zero_le n)

theorem readAllLoop_short (want : ℕ) (reads : List ℕ) (got stream : List α)
    (hlt : got.length + stream.length < want) : readAllLoop want got stream reads = none := by
  induction reads generalizing got stream with
  | nil =>
    unfold readAllLoop
    exact if_neg (by omega)
  | cons n reads ih =>
    unfold readAllLoop
    rw [if_neg (by omega)]
    dsimp only
    split
    · rfl
    · apply ih
      rw [List.length_append, List.length_take, List.length_drop]
      omega

theorem readAll_short (h : s.stream.length < n) : s.readAll n = none :=
  readAllLoop_short n s.reads [] s.stream (by simpa using h)

end Source

end ByteStream
