import HyperDerp.Lib.Runs
import HyperDerp.Protocol

/-!
# Pump between a local socket and a tunnel (`sdk/libs/hd_bridge/bridge.cc:100-147`)

The local application and the kernel are the environment: the one writes and
closes, the other picks the poll flags and the chunks of the reads. `Send`
succeeds throughout.
-/

namespace HyperDerp

/-- `sizeof(buf)`. -/
def kBridgeBufSize : ℕ := 4096

namespace BridgePump

/-- Where the thread of `ConnectionPump` is. -/
inductive Phase where
  | check
  | poll
  | read
  | ended
  deriving DecidableEq

structure Pump where
  phase : Phase := .check
  running : Bool := true
  /-- what the application wrote, and what of it is still in the socket -/
  written : Bytes := []
  unread : Bytes := []
  closed : Bool := false
  /-- the payloads sent through the tunnel -/
  sent : List Bytes := []

inductive PollResult where
  | interrupted
  | failed
  | timeout
  | ready (pollin pollhup pollerr : Bool)

inductive ReadResult where
  | bytes (n : ℕ)
  | eof
  | failed

inductive Event where
  | write (data : Bytes)
  | close
  /-- a payload of the tunnel, with what the writes to the socket return -/
  | data (size : ℕ) (writes : List ℤ)
  | check
  | poll (result : PollResult)
  | read (result : ReadResult)

/-- The loop of the data callback: whether it gets to the end. -/
def writeAll (size total : ℕ) : List ℤ → Bool
  | [] => true
  | w :: ws =>
    if total < size then
      if w ≤ 0 then false else writeAll size (total + w.toNat) ws
    else true

def onPoll (s : Pump) : PollResult → Option Pump
  | .interrupted => some { s with phase := .check }
  | .failed => some { s with phase := .ended }
  | .timeout => some { s with phase := .check }
  | .ready pollin pollhup pollerr =>
    -- a hang-up is of the other end, and there is something to read or an end of file
    if (pollhup = true → s.closed = true) ∧ (pollin = true → s.unread ≠ [] ∨ s.closed = true) ∧
        (pollin || pollhup || pollerr) = true then
      if pollerr || pollhup then some { s with phase := .ended }
      else some { s with phase := .read }
    else none

def onRead (s : Pump) : ReadResult → Option Pump
  | .bytes n =>
    if 0 < n ∧ n ≤ kBridgeBufSize ∧ n ≤ s.unread.length then
      some { s with
        phase := .check
        unread := s.unread.drop n
        sent := s.sent ++ [s.unread.take n] }
    else none
  | .eof => if s.unread = [] ∧ s.closed = true then some { s with phase := .ended } else none
  | .failed => some { s with phase := .ended }

def step (s : Pump) : Event → Option Pump
  | .write data =>
    if s.closed then none
    else some { s with written := s.written ++ data, unread := s.unread ++ data }
  | .close => some { s with closed := true }
  | .data size writes =>
    if s.running then some { s with running := writeAll size 0 writes } else some s
  | .check =>
    if s.phase ≠ .check then none
    else if s.running then some { s with phase := .poll }
    else some { s with phase := .ended }
  | .poll result => if s.phase = .poll then onPoll s result else none
  | .read result => if s.phase = .read then onRead s result else none

def Init (s : Pump) : Prop := s = {}

/-- The pump has closed the tunnel only after sending all that was written. -/
def Complete (s : Pump) : Prop := s.phase = .ended → s.sent.flatten = s.written

def Leaves (s : Pump) : Event → Prop
  | .check => s.running = false
  | .poll .failed => True
  | .poll (.ready _ pollhup pollerr) => (pollerr || pollhup) = true
  | .read .eof => True
  | .read .failed => True
  | _ => False

/-- The loop is left with nothing to read, and nothing is written afterwards. -/
def stepOk (s : Pump) (e : Event) : Prop :=
  (Leaves s e → s.unread = []) ∧ ∀ data, e = .write data → s.phase = .ended → data = []

/-! ### Bytes in order -/

variable {s s' : Pump} {e : Event}

def Ordered (s : Pump) : Prop := s.written = s.sent.flatten ++ s.unread

theorem onPoll_frame {result : PollResult} (h : onPoll s result = some s') :
    s' = { s with phase := s'.phase } := by
  cases result with
  | interrupted => cases h; rfl
  | failed => cases h; rfl
  | timeout => cases h; rfl
  | ready pollin pollhup pollerr =>
    simp only [onPoll] at h
    split at h
    · split at h
      · cases h
        rfl
      · cases h
        rfl
    · cases h

theorem Ordered.read (h : Ordered s) {result : ReadResult} (hs : onRead s result = some s') :
    Ordered s' := by
  cases result with
  | bytes n =>
    simp only [onRead] at hs
    split at hs
    · cases hs
      unfold Ordered at *
      simp [h, List.append_assoc]
    · cases hs
  | eof =>
    simp only [onRead] at hs
    split at hs
    · cases hs
      exact h
    · cases hs
  | failed =>
    cases hs
    exact h

theorem Ordered.step (h : Ordered s) (hs : step s e = some s') : Ordered s' := by
  cases e with
  | write data =>
    simp only [BridgePump.step] at hs
    split at hs
    · cases hs
    · cases hs
      unfold Ordered at *
      simp [h]
  | close =>
    cases hs
    exact h
  | data size writes =>
    simp only [BridgePump.step] at hs
    split at hs
    · cases hs
      exact h
    · cases hs
      exact h
  | check =>
    simp only [BridgePump.step] at hs
    split at hs
    · cases hs
    split at hs
    · cases hs
      exact h
    · cases hs
      exact h
  | poll result =>
    simp only [BridgePump.step] at hs
    split at hs
    · rw [onPoll_frame hs]
      exact h
    · cases hs
  | read result =>
    simp only [BridgePump.step] at hs
    split at hs
    · exact h.read hs
    · cases hs

theorem Ordered.complete_iff_drained (h : Ordered s) :
    Complete s ↔ (s.phase = .ended → s.unread = []) := by
  unfold Ordered at h
  unfold Complete
  rw [h]
  simp

/-! ### Leaving the loop -/

def Drained (s : Pump) : Prop := s.phase = .ended → s.unread = []

theorem drained_stay {phase : Phase} (hne : phase ≠ .ended) : Drained { s with phase := phase } :=
  fun h => absurd h hne

theorem drained_leave (h : Leaves s e) (hwrite : ∀ data, e ≠ .write data) :
    Drained { s with phase := .ended } ↔ stepOk s e :=
  ⟨fun hdrained => ⟨fun _ => hdrained rfl, fun data he => absurd he (hwrite data)⟩,
    fun hok _ => hok.1 h⟩

theorem stepOk_stay (h : ¬Leaves s e) (hwrite : ∀ data, e ≠ .write data) : stepOk s e :=
  ⟨fun hl => absurd hl h, fun data he => absurd he (hwrite data)⟩

theorem drained_poll {result : PollResult} (hs : onPoll s result = some s') :
    Drained s' ↔ stepOk s (.poll result) := by
  cases result with
  | interrupted =>
    cases hs
    exact iff_of_true (drained_stay nofun) (stepOk_stay id nofun)
  | failed =>
    cases hs
    exact drained_leave trivial nofun
  | timeout =>
    cases hs
    exact iff_of_true (drained_stay nofun) (stepOk_stay id nofun)
  | ready pollin pollhup pollerr =>
    simp only [onPoll] at hs
    split at hs
    · split at hs
      · next hbreak =>
        cases hs
        exact drained_leave hbreak nofun
      · next hgo =>
        cases hs
        exact iff_of_true (drained_stay nofun) (stepOk_stay hgo nofun)
    · cases hs

theorem drained_read {result : ReadResult} (hs : onRead s result = some s') :
    Drained s' ↔ stepOk s (.read result) := by
  cases result with
  | bytes n =>
    simp only [onRead] at hs
    split at hs
    · cases hs
      exact iff_of_true (fun hend => nomatch hend) (stepOk_stay id nofun)
    · cases hs
  | eof =>
    simp only [onRead] at hs
    split at hs
    · cases hs
      exact drained_leave trivial nofun
    · cases hs
  | failed =>
    cases hs
    exact drained_leave trivial nofun

theorem drained_step (h : Drained s) (hs : step s e = some s') : Drained s' ↔ stepOk s e := by
  cases e with
  | write data =>
    simp only [step] at hs
    split at hs
    · cases hs
    · cases hs
      refine ⟨fun h' => ⟨False.elim, fun data' he hend => ?_⟩, fun hok hend => ?_⟩
      · cases he
        exact (List.append_eq_nil_iff.mp (h' hend)).2
      · rw [hok.2 data rfl hend]
        simpa using h hend
  | close =>
    cases hs
    exact iff_of_true h (stepOk_stay id nofun)
  | data size writes =>
    have hsame : Drained s' := by
      simp only [step] at hs
      split at hs
      · cases hs
        exact h
      · cases hs
        exact h
    exact iff_of_true hsame (stepOk_stay id nofun)
  | check =>
    simp only [step] at hs
    split at hs
    · cases hs
    split at hs
    · next hrun =>
      cases hs
      exact iff_of_true (drained_stay nofun) (stepOk_stay (by simp [Leaves, hrun]) nofun)
    · next hstop =>
      cases hs
      exact drained_leave (Bool.eq_false_of_not_eq_true hstop) nofun
  | poll result =>
    simp only [step] at hs
    split at hs
    · exact drained_poll hs
    · cases hs
  | read result =>
    simp only [step] at hs
    split at hs
    · exact drained_read hs
    · cases hs

theorem reach_ordered {ok : Pump → Event → Prop} (h : Runs.Reach Init step ok s) : Ordered s := by
  apply Runs.Reach.invariant _ _ h
  · rintro _ rfl
    rfl
  · exact fun _ _ _ ih _ hs => ih.step hs

theorem reach_drained (h : Runs.Reach Init step stepOk s) : Drained s := by
  apply Runs.Reach.invariant _ _ h
  · rintro _ rfl
    exact nofun
  · exact fun _ _ _ ih hok hs => (drained_step ih hs).mpr hok

theorem pump_complete_iff (h : Runs.Reach Init step stepOk s) :
    Complete s ∧ ∀ e s', step s e = some s' → (Complete s' ↔ stepOk s e) := by
  have hordered := reach_ordered h
  have hdrained := reach_drained h
  refine ⟨hordered.complete_iff_drained.mpr hdrained, fun e s' hs => ?_⟩
  rw [(hordered.step hs).complete_iff_drained]
  exact drained_step hdrained hs

/-- Five bytes, read before the kernel tells of the hang-up. -/
theorem pump_complete_all : Complete {
    phase := .ended
    written := [1, 2, 3, 4, 5]
    closed := true
    sent := [[1, 2, 3, 4, 5]] } := by
  have hstart : Runs.Reach Init step stepOk {} := .start _ rfl
  have hwritten := hstart.next _ _ (.write [1, 2, 3, 4, 5]) ⟨False.elim, nofun⟩ rfl
  have hchecked := hwritten.next _ _ .check (stepOk_stay nofun nofun) rfl
  have hreadable := hchecked.next _ _ (.poll (.ready true false false)) (stepOk_stay nofun nofun) rfl
  have hread := hreadable.next _ _ (.read (.bytes 5)) (stepOk_stay id nofun) rfl
  have hclosed := hread.next _ _ .close (stepOk_stay id nofun) rfl
  have hagain := hclosed.next _ _ .check (stepOk_stay nofun nofun) rfl
  have hended := hagain.next _ _ (.poll (.ready true true false)) ⟨fun _ => rfl, nofun⟩ rfl
  exact (pump_complete_iff hended).1

/-- Five bytes and a close, told of together after the first chunk was read. -/
theorem hangup_loses : ¬∀ s, Runs.Reach Init step Runs.Any s → Complete s := by
  intro h
  have hrun : Runs.run step {} [.write [1, 2, 3, 4, 5], .check, .poll (.ready true false false),
      .read (.bytes 3), .close, .check, .poll (.ready true true false)] = some {
        phase := .ended
        written := [1, 2, 3, 4, 5]
        unread := [4, 5]
        closed := true
        sent := [[1, 2, 3]] } := rfl
  have hlost := h _ (Runs.reach_of_run rfl hrun) rfl
  exact absurd hlost (by decide)

end BridgePump

end HyperDerp
