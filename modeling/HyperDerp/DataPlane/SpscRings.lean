import HyperDerp.DataPlane.Types
import HyperDerp.Lib.SpscRing

/-!
# The rings between threads (`data_plane.cc:338-403`)

`CmdRing` carries the commands of the control plane to a worker and `XferSpscRing`
the frames from one worker to another. Indices are `uint32_t`.
-/

namespace HyperDerp

inductive RingKind where
  | cmd
  | xfer
  deriving DecidableEq

/-- `RingPush` and `RingPop` load their own index again before each use. -/
def cmdRing : SpscRing.Code where
  size := kCmdRingSize
  next i := (i + 1) % 2 ^ 32 % kCmdRingSize
  again _ current := current
  found _ _ := 0

/-- `XferSpscPush` and `XferSpscPop` keep their own index in a local. A push into what
looked empty returns 1, for the caller to signal the consumer. -/
def xferSpscRing : SpscRing.Code where
  size := kXferSpscSize
  next i := (i + 1) % 2 ^ 32 &&& (kXferSpscSize - 1)
  again first _ := first
  found head tail := if head = tail then 1 else 0

def RingKind.code : RingKind → SpscRing.Code
  | .cmd => cmdRing
  | .xfer => xferSpscRing

theorem cmdRing_ok : cmdRing.Ok where
  size := by decide
  next := by
    intro i hi
    simp only [cmdRing, kCmdRingSize] at hi ⊢
    omega
  again := fun _ => rfl
  found := fun _ _ => by simp [cmdRing]

theorem xferSpscRing_ok : xferSpscRing.Ok where
  size := by decide
  next := by
    intro i hi
    have hmask : kXferSpscSize - 1 = 2 ^ 14 - 1 := rfl
    have hsize : kXferSpscSize = 2 ^ 14 := rfl
    simp only [xferSpscRing] at hi ⊢
    rw [hmask, Nat.and_two_pow_sub_one_eq_mod, hsize]
    omega
  again := fun _ => rfl
  found := by
    intro head tail
    simp only [xferSpscRing]
    split <;> decide

theorem RingKind.code_ok (k : RingKind) : k.code.Ok := by
  cases k with
  | cmd => exact cmdRing_ok
  | xfer => exact xferSpscRing_ok

/-- Every interleaving of the loads and stores of one producer and one consumer leaves the
popped items a prefix of the pushed ones, the rest in the ring in order, as many of each as
calls succeeded, and no call failed on a ring that was not full (or not empty) at some moment
of it. -/
theorem ring_fifo {α : Type} (k : RingKind) {s : SpscRing.State α}
    (h : Runs.Reach SpscRing.Init (SpscRing.step k.code) Runs.Any s) : SpscRing.Fifo k.code s :=
  SpscRing.fifo k.code_ok h

/-- A pop that starts before the push has published finds the item, and the next one fails. -/
theorem ring_fifo_overlapping : ∃ s : SpscRing.State ℕ,
    s.pushed = [7] ∧ s.popped = [7] ∧ s.pops.map (·.code) = [0, -1] ∧
      SpscRing.Fifo RingKind.cmd.code s := by
  obtain ⟨s, hrun, hs⟩ := Option.map_eq_some_iff.mp
    (show ((Runs.run (SpscRing.step RingKind.cmd.code)
      { ring := { items := fun _ => 0, head := 0, tail := 0 } : SpscRing.State ℕ }
      [.push 7, .producer, .producer, .pop, .producer, .producer, .consumer, .consumer,
        .consumer, .consumer, .consumer, .pop, .consumer, .consumer]).map
      fun s => (s.pushed, s.popped, s.pops.map (·.code))) = some ([7], [7], [0, -1]) by
      decide)
  simp only [Prod.mk.injEq] at hs
  refine ⟨s, hs.1, hs.2.1, hs.2.2, ring_fifo .cmd (Runs.reach_of_run ?_ hrun)⟩
  exact ⟨rfl, rfl, rfl, rfl, rfl, rfl, rfl, rfl⟩

end HyperDerp
