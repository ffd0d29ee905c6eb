import HyperDerp.Lib.Runs
import HyperDerp.WgRelay.Strikes

/-!
# What is kept of offenders (`wg_relay.cc:585-603`, `:660-765`)

A sweep drops the strike records whose first strike is too old. A record that was reset
when its source was blocked has no first strike and is never dropped.
-/

namespace HyperDerp

namespace Offenders

/-! ### Strikes and sweeps -/

inductive Event
  | strike (ip : UInt32) (time : ℕ)
  /-- the end of a sweep, with the reading at its start -/
  | swept (now : ℕ)
  deriving DecidableEq

structure State where
  relay : WgRelay
  history : List Event
  clock : ℕ

def marks (src : Sockaddr) (time : ℕ) : List Event :=
  if extractV4SrcHostOrder src = 0 then [] else [.strike (extractV4SrcHostOrder src) time]

def peerMarks (c : SweepClock) (i : ℕ) (p : WgRelayPeer) : List Event :=
  match p.candidateEndpoint with
  | none => []
  | some src =>
    if kCandidateTimeoutNs < sub64 c.now p.candidateSetNs then marks src (c.strike i) else []

/-- The strikes for the peers from the `i`-th on. -/
def sweepMarks (c : SweepClock) : ℕ → List WgRelayPeer → List Event
  | _, [] => []
  | i, p :: ps => peerMarks c i p ++ sweepMarks c (i + 1) ps

def State.sweep (s : State) (c : SweepClock) (done : ℕ) : State where
  relay := expireCandidatesLocked s.relay c
  history := s.history ++ sweepMarks c 0 s.relay.peers ++ [.swept c.now]
  clock := done

inductive Label
  /-- a sweep, and the clock when it is over -/
  | sweep (c : SweepClock) (done : ℕ)
  /-- the rest of the relay works on the peers -/
  | peers (peers : List WgRelayPeer)

/-- The clock does not go back. -/
def State.Timely (s : State) (c : SweepClock) (done : ℕ) : Prop :=
  (s.clock :: c.now :: ((List.range s.relay.peers.length).map c.strike ++ [done])).Pairwise (· ≤ ·)

instance (s : State) (c : SweepClock) (done : ℕ) : Decidable (s.Timely c done) :=
  inferInstanceAs (Decidable (List.Pairwise _ _))

def step (s : State) : Label → Option State
  | .sweep c done => if s.Timely c done then some (s.sweep c done) else none
  | .peers peers => some { s with relay := { s.relay with peers := peers } }

theorem step_sweep {s : State} {c : SweepClock} {done : ℕ} (h : s.Timely c done) :
    step s (.sweep c done) = some (s.sweep c done) := if_pos h

def Init (s : State) : Prop :=
  s.history = [] ∧ s.relay.strikes = (fun _ => none) ∧ s.relay.blocklist = (fun _ => none) ∧
    s.relay.xdp.wgBlocklist = fun _ => none

/-- After a sweep at `t`: every source on record struck in the 24 hours before, or in the sweep,
every block is still running, and the program has the same blocks. -/
structure Bounded (s : State) (t : ℕ) : Prop where
  strikes : ∀ ip record, s.relay.strikes ip = some record →
    ∃ τ, .strike ip τ ∈ s.history ∧ τ ≤ s.clock ∧ t ≤ τ + kWidestWindowNs
  blocklist : ∀ ip expiry, s.relay.blocklist ip = some expiry → t < expiry
  xdp : s.relay.xdp.attached = true → s.relay.xdp.wgBlocklist = s.relay.blocklist

/-- Every source whose record was reset struck in the 24 hours before the sweep, or strikes in it. -/
def ResetsRecent (s : State) (c : SweepClock) : Prop :=
  ∀ ip record, s.relay.strikes ip = some record → record.firstStrikeNs = 0 →
    (∃ τ, .strike ip τ ∈ s.history ∧ c.now ≤ τ + kWidestWindowNs) ∨
      ∃ τ, .strike ip τ ∈ sweepMarks c 0 s.relay.peers

/-! ### The records follow the history -/

/-- A first strike is one of the history, and the program has the blocks. -/
structure Tracks (r : WgRelay) (history : List Event) : Prop where
  first : ∀ ip record, r.strikes ip = some record → record.firstStrikeNs ≠ 0 →
    .strike ip record.firstStrikeNs ∈ history
  xdp : r.xdp.attached = true → r.xdp.wgBlocklist = r.blocklist

variable {r : WgRelay} {history : List Event} {s s' : State} {c : SweepClock} {done : ℕ}

theorem counted_first (record : WgRelayStrike) (now : ℕ) :
    (record.counted now).firstStrikeNs = now ∨
      (record.counted now).firstStrikeNs = record.firstStrikeNs ∧ record.firstStrikeNs ≠ 0 := by
  unfold WgRelayStrike.counted
  dsimp only
  split
  · exact .inl rfl
  · next h => exact .inr ⟨rfl, fun h0 => h (.inl h0)⟩

theorem recordStrike_other {src : Sockaddr} {now : ℕ} {ip : UInt32}
    (h : ip ≠ extractV4SrcHostOrder src) :
    (recordStrikeLocked r src now).strikes ip = r.strikes ip := by
  unfold recordStrikeLocked
  dsimp only
  split
  · rfl
  split
  · dsimp only
    rw [Function.update_of_ne h]
    unfold xdpBlocklistInsert
    split <;> rfl
  · exact Function.update_of_ne h ..

theorem recordStrike_own {src : Sockaddr} {now : ℕ} (h : extractV4SrcHostOrder src ≠ 0)
    {record : WgRelayStrike}
    (hr : (recordStrikeLocked r src now).strikes (extractV4SrcHostOrder src) = some record) :
    record.firstStrikeNs = 0 ∨ record.firstStrikeNs = now ∨
      ∃ old, r.strikes (extractV4SrcHostOrder src) = some old ∧ old.firstStrikeNs ≠ 0 ∧
        record.firstStrikeNs = old.firstStrikeNs := by
  unfold recordStrikeLocked at hr
  dsimp only at hr
  rw [if_neg h] at hr
  split at hr
  · left
    dsimp only at hr
    rw [Function.update_self] at hr
    cases hr
    rfl
  · dsimp only at hr
    rw [Function.update_self] at hr
    cases hr
    rcases counted_first ((r.strikes (extractV4SrcHostOrder src)).getD {}) now with hnow | ⟨hold, hne⟩
    · exact .inr (.inl hnow)
    · cases ho : r.strikes (extractV4SrcHostOrder src) with
      | none =>
        rw [ho] at hne
        exact absurd rfl hne
      | some old =>
        rw [ho] at hold hne
        exact .inr (.inr ⟨old, rfl, hne, hold⟩)

theorem recordStrike_xdp (h : r.xdp.attached = true → r.xdp.wgBlocklist = r.blocklist)
    (src : Sockaddr) (now : ℕ) : (recordStrikeLocked r src now).xdp.attached = true →
      (recordStrikeLocked r src now).xdp.wgBlocklist = (recordStrikeLocked r src now).blocklist := by
  unfold recordStrikeLocked
  dsimp only
  split
  · exact h
  split
  · unfold xdpBlocklistInsert
    dsimp only
    split
    · next hoff =>
      intro hon
      rw [hon] at hoff
      cases hoff
    · intro hon
      dsimp only at hon ⊢
      rw [h hon]
  · exact h

theorem Tracks.strike (h : Tracks r history) (src : Sockaddr) (now : ℕ) :
    Tracks (recordStrikeLocked r src now) (history ++ marks src now) := by
  refine ⟨fun ip record hr h0 => ?_, recordStrike_xdp h.xdp src now⟩
  rw [List.mem_append]
  by_cases hip : ip = extractV4SrcHostOrder src
  · by_cases hzero : extractV4SrcHostOrder src = 0
    · unfold recordStrikeLocked at hr
      rw [if_pos hzero] at hr
      exact .inl (h.first ip record hr h0)
    · rw [hip] at hr ⊢
      unfold marks
      rw [if_neg hzero]
      rcases recordStrike_own hzero hr with hreset | hnow | ⟨old, hold, hne, hsame⟩
      · exact absurd hreset h0
      · exact .inr (by rw [hnow]; exact List.mem_singleton_self _)
      · exact .inl (by rw [hsame]; exact h.first _ old hold hne)
  · rw [recordStrike_other hip] at hr
    exact .inl (h.first ip record hr h0)

/-! ### A sweep -/

theorem Tracks.peer (h : Tracks r history) (c : SweepClock) (i : ℕ) (p : WgRelayPeer) :
    Tracks (strikeExpired c.now (c.strike i) r p) (history ++ peerMarks c i p) := by
  unfold strikeExpired peerMarks
  cases p.candidateEndpoint with
  | none => simpa using h
  | some src =>
    dsimp only
    split
    · have hs := h.strike src (c.strike i)
      exact ⟨hs.first, hs.xdp⟩
    · simpa using h

theorem Tracks.peers (h : Tracks r history) (c : SweepClock) (i : ℕ) (ps : List WgRelayPeer) :
    Tracks (strikePeers c i ps r) (history ++ sweepMarks c i ps) := by
  induction ps generalizing r history i with
  | nil => simpa [strikePeers, sweepMarks] using h
  | cons p ps ih =>
    rw [strikePeers, sweepMarks, ← List.append_assoc]
    exact ih (h.peer c i p) (i + 1)

theorem strikeExpired_other {i : ℕ} {p : WgRelayPeer} {ip : UInt32}
    (h : ∀ τ, .strike ip τ ∉ peerMarks c i p) :
    (strikeExpired c.now (c.strike i) r p).strikes ip = r.strikes ip := by
  unfold strikeExpired
  unfold peerMarks at h
  cases hc : p.candidateEndpoint with
  | none => rfl
  | some src =>
    rw [hc] at h
    dsimp only at h ⊢
    split
    · next hexp =>
      rw [if_pos hexp] at h
      dsimp only
      by_cases hzero : extractV4SrcHostOrder src = 0
      · unfold recordStrikeLocked
        rw [if_pos hzero]
      · apply recordStrike_other
        rintro rfl
        unfold marks at h
        rw [if_neg hzero] at h
        exact h _ (List.mem_singleton_self _)
    · rfl

theorem strikePeers_other {ip : UInt32} (ps : List WgRelayPeer) (i : ℕ)
    (h : ∀ τ, .strike ip τ ∉ sweepMarks c i ps) :
    (strikePeers c i ps r).strikes ip = r.strikes ip := by
  induction ps generalizing r i with
  | nil => rfl
  | cons p ps ih =>
    simp only [sweepMarks, List.mem_append, not_or, forall_and] at h
    rw [strikePeers, ih _ h.2, strikeExpired_other h.1]

theorem expire_strikes (r : WgRelay) (c : SweepClock) (ip : UInt32) :
    (expireCandidatesLocked r c).strikes ip =
      ((strikePeers c 0 r.peers r).strikes ip).filter fun record => !record.stale c.now := by
  unfold expireCandidatesLocked
  dsimp only
  split <;> rfl

theorem expire_blocklist (r : WgRelay) (c : SweepClock) (ip : UInt32) :
    (expireCandidatesLocked r c).blocklist ip =
      ((strikePeers c 0 r.peers r).blocklist ip).filter fun e => c.now < e := by
  unfold expireCandidatesLocked
  dsimp only
  split <;> rfl

theorem expire_xdp (h : Tracks (strikePeers c 0 r.peers r) history) :
    (expireCandidatesLocked r c).xdp.attached = true →
      (expireCandidatesLocked r c).xdp.wgBlocklist = (expireCandidatesLocked r c).blocklist := by
  have hx := h.xdp
  unfold expireCandidatesLocked
  dsimp only
  split
  · next hoff =>
    intro hon
    dsimp only at hon hoff
    rw [hon] at hoff
    cases hoff
  · intro hon
    dsimp only at hon ⊢
    rw [hx hon]
    funext ip
    cases (strikePeers c 0 r.peers r).blocklist ip with
    | none => rfl
    | some e =>
      by_cases he : c.now < e
      · simp [Option.filter, he]
      · simp [Option.filter, he, not_lt.1 he]

theorem Tracks.sweep (h : Tracks r history) (c : SweepClock) :
    Tracks (expireCandidatesLocked r c) (history ++ sweepMarks c 0 r.peers ++ [Event.swept c.now]) := by
  have hfold := h.peers c 0 r.peers
  refine ⟨fun ip record hr h0 => ?_, expire_xdp hfold⟩
  rw [expire_strikes, Option.filter_eq_some_iff] at hr
  exact List.mem_append_left _ (hfold.first ip record hr.1 h0)

theorem mem_sweepMarks {ip : UInt32} {τ i : ℕ} {ps : List WgRelayPeer}
    (h : .strike ip τ ∈ sweepMarks c i ps) : ∃ j, j < i + ps.length ∧ τ = c.strike j := by
  induction ps generalizing i with
  | nil => cases h
  | cons p ps ih =>
    rw [sweepMarks, List.mem_append] at h
    rw [List.length_cons]
    rcases h with h | h
    · unfold peerMarks marks at h
      split at h
      · cases h
      split at h
      · split at h
        · cases h
        · cases List.mem_singleton.1 h
          exact ⟨i, by omega, rfl⟩
      · cases h
    · obtain ⟨j, hj, hτ⟩ := ih h
      exact ⟨j, by omega, hτ⟩

theorem State.Timely.start (h : s.Timely c done) : s.clock ≤ c.now :=
  (List.pairwise_cons.1 h).1 _ (List.mem_cons_self ..)

theorem State.Timely.over (h : s.Timely c done) : c.now ≤ done :=
  (List.pairwise_cons.1 (List.pairwise_cons.1 h).2).1 _ (by simp)

theorem State.Timely.mark (h : s.Timely c done) {ip : UInt32} {τ : ℕ}
    (hτ : .strike ip τ ∈ sweepMarks c 0 s.relay.peers) : c.now ≤ τ ∧ τ ≤ done := by
  obtain ⟨j, hj, rfl⟩ := mem_sweepMarks hτ
  have hmem : c.strike j ∈ (List.range s.relay.peers.length).map c.strike :=
    List.mem_map_of_mem (List.mem_range.2 (by omega))
  have hlater := List.pairwise_cons.1 (List.pairwise_cons.1 h).2
  constructor
  · exact hlater.1 _ (List.mem_append_left _ hmem)
  · exact (List.pairwise_append.1 hlater.2).2.2 _ hmem _ (List.mem_singleton_self _)

/-! ### Runs -/

structure Inv (s : State) : Prop where
  tracks : Tracks s.relay s.history
  past : ∀ ip τ, .strike ip τ ∈ s.history → τ ≤ s.clock

theorem init_inv (h : Init s) : Inv s := by
  obtain ⟨hhistory, hstrikes, hblocks, hxdp⟩ := h
  refine ⟨⟨fun ip record hr => ?_, fun _ => hxdp.trans hblocks.symm⟩, fun ip τ hτ => ?_⟩
  · rw [hstrikes] at hr
    cases hr
  · rw [hhistory] at hτ
    cases hτ

theorem mem_history_sweep {ip : UInt32} {τ : ℕ} :
    .strike ip τ ∈ (s.sweep c done).history ↔
      .strike ip τ ∈ s.history ∨ .strike ip τ ∈ sweepMarks c 0 s.relay.peers := by
  simp [State.sweep]

theorem Inv.sweep (h : Inv s) (ht : s.Timely c done) : Inv (s.sweep c done) := by
  refine ⟨h.tracks.sweep c, fun ip τ hτ => ?_⟩
  rcases mem_history_sweep.1 hτ with hτ | hτ
  · exact ((h.past ip τ hτ).trans ht.start).trans ht.over
  · exact (ht.mark hτ).2

theorem step_inv {l : Label} (h : Inv s) (hs : step s l = some s') : Inv s' := by
  cases l with
  | sweep c done =>
    simp only [step, Option.ite_none_right_eq_some, Option.some.injEq] at hs
    obtain ⟨ht, rfl⟩ := hs
    exact h.sweep ht
  | peers ps =>
    cases hs
    exact ⟨⟨h.tracks.first, h.tracks.xdp⟩, h.past⟩

theorem reach_inv (h : Runs.Reach Init step Runs.Any s) : Inv s := by
  apply h.invariant
  · exact fun s hs => init_inv hs
  · exact fun s s' l hs _ hstep => step_inv hs hstep

/-- After every run, a sweep leaves bounded state if and only if no source stays on record that
was blocked and has been quiet for 24 hours since. -/
theorem sweep_bounded_iff (h : Runs.Reach Init step Runs.Any s) (ht : s.Timely c done) :
    Bounded (s.sweep c done) c.now ↔ ResetsRecent s c := by
  have hinv := reach_inv h
  have hnow := hinv.sweep ht
  constructor
  · intro hb ip record hr h0
    by_cases hmark : ∃ τ, .strike ip τ ∈ sweepMarks c 0 s.relay.peers
    · exact .inr hmark
    · -- nothing removes the record
      have hkept : (expireCandidatesLocked s.relay c).strikes ip = some record := by
        rw [expire_strikes, strikePeers_other _ _ (not_exists.1 hmark), hr]
        simp [Option.filter, WgRelayStrike.stale, h0]
      obtain ⟨τ, hτ, -, hrecent⟩ := hb.strikes ip record hkept
      rcases mem_history_sweep.1 hτ with hτ | hτ
      · exact .inl ⟨τ, hτ, hrecent⟩
      · exact .inr ⟨τ, hτ⟩
  · intro hrecent
    refine ⟨fun ip record hr => ?_, fun ip expiry he => ?_,
      expire_xdp (hinv.tracks.peers c 0 s.relay.peers)⟩
    · have hstruck : ∃ τ, .strike ip τ ∈ (s.sweep c done).history ∧
          c.now ≤ τ + kWidestWindowNs := by
        by_cases hmark : ∃ τ, .strike ip τ ∈ sweepMarks c 0 s.relay.peers
        · obtain ⟨τ, hτ⟩ := hmark
          have hafter := (ht.mark hτ).1
          exact ⟨τ, mem_history_sweep.2 (.inr hτ), by omega⟩
        · have hr' : (expireCandidatesLocked s.relay c).strikes ip = some record := hr
          rw [expire_strikes, strikePeers_other _ _ (not_exists.1 hmark),
            Option.filter_eq_some_iff] at hr'
          obtain ⟨hold, hyoung⟩ := hr'
          by_cases h0 : record.firstStrikeNs = 0
          · rcases hrecent ip record hold h0 with ⟨τ, hτ, hday⟩ | hsweep
            · exact ⟨τ, mem_history_sweep.2 (.inl hτ), hday⟩
            · exact absurd hsweep hmark
          · have hfirst := hinv.tracks.first ip record hold h0
            have hpast := (hinv.past _ _ hfirst).trans ht.start
            refine ⟨_, mem_history_sweep.2 (.inl hfirst), ?_⟩
            rw [WgRelayStrike.stale, sub64_of_le hpast] at hyoung
            simp only [ne_eq, h0, not_false_eq_true, decide_true, Bool.true_and,
              Bool.not_eq_true', decide_eq_false_iff_not, not_lt] at hyoung
            omega
      obtain ⟨τ, hτ, hday⟩ := hstruck
      exact ⟨τ, hτ, hnow.past ip τ hτ, hday⟩
    · have he' : (expireCandidatesLocked s.relay c).blocklist ip = some expiry := he
      rw [expire_blocklist, Option.filter_eq_some_iff] at he'
      exact of_decide_eq_true he'.2

/-! ### One offender -/

def offender : Sockaddr := .in4 1 1

/-- A peer whose candidate slot is the offender's. -/
def offered (name : Bytes) (time : ℕ) : WgRelayPeer where
  name := name
  endpoint := .in4 0 0
  endpointStr := []
  label := []
  candidateEndpoint := some offender
  candidateSetNs := time

def ticking (now : ℕ) : SweepClock := ⟨now, fun i => now + i + 1⟩

def twoSlots : List WgRelayPeer := [offered [0x61] kSecondNs, offered [0x62] kSecondNs]

/-- Both slots have run out in one sweep, which blocks the offender for a minute. -/
def struckTwice : State :=
  (⟨{ peers := twoSlots }, [], 0⟩ : State).sweep (ticking (100 * kSecondNs)) (101 * kSecondNs)

theorem struckTwice_reach : Runs.Reach Init step Runs.Any struckTwice := by
  have hstart : Runs.Reach Init step Runs.Any (⟨{}, [], 0⟩ : State) := .start _ ⟨rfl, rfl, rfl, rfl⟩
  have hslots := hstart.next _ _ (.peers twoSlots) trivial rfl
  have ht : (⟨{ peers := twoSlots }, [], 0⟩ : State).Timely (ticking (100 * kSecondNs))
    (101 * kSecondNs) := by decide
  exact hslots.next _ _ (.sweep (ticking (100 * kSecondNs)) (101 * kSecondNs)) trivial (step_sweep ht)

theorem struckTwice_record (ip : UInt32) :
    struckTwice.relay.strikes ip = if ip = 1 then some ⟨0, 0, 2⟩ else none := by
  by_cases h : ip = 1
  · rw [h]
    decide
  · have hmarks : sweepMarks (ticking (100 * kSecondNs)) 0 twoSlots =
        [.strike 1 (100 * kSecondNs + 1), .strike 1 (100 * kSecondNs + 2)] := by decide
    have hother : ∀ τ, .strike ip τ ∉ sweepMarks (ticking (100 * kSecondNs)) 0 twoSlots := by
      intro τ hτ
      rw [hmarks] at hτ
      simp [h] at hτ
    have hnone : struckTwice.relay.strikes ip = none := by
      unfold struckTwice State.sweep
      dsimp only
      rw [expire_strikes, strikePeers_other _ _ hother]
      rfl
    rw [if_neg h, hnone]

/-- A minute later it is still an offender of the day. -/
theorem sweep_bounded_minute :
    Bounded (struckTwice.sweep (ticking (162 * kSecondNs)) (163 * kSecondNs)) (162 * kSecondNs) := by
  apply (sweep_bounded_iff struckTwice_reach (by decide)).2
  intro ip record hr _
  rw [struckTwice_record] at hr
  split at hr
  · next hip =>
    left
    rw [hip]
    exact ⟨100 * kSecondNs + 2, by decide, by decide⟩
  · cases hr

/-- A month later its record is still there. -/
theorem record_outlives_day : ¬∀ (s : State) (c : SweepClock) (done : ℕ),
    Runs.Reach Init step Runs.Any s → s.Timely c done → Bounded (s.sweep c done) c.now := by
  intro h
  have hb := h struckTwice (ticking (30 * 86400 * kSecondNs)) (31 * 86400 * kSecondNs)
    struckTwice_reach (by decide)
  have hrecord : (expireCandidatesLocked struckTwice.relay
      (ticking (30 * 86400 * kSecondNs))).strikes 1 = some ⟨0, 0, 2⟩ := by decide
  obtain ⟨τ, hτ, -, hday⟩ := hb.strikes 1 _ hrecord
  have hhistory : (struckTwice.sweep (ticking (30 * 86400 * kSecondNs))
      (31 * 86400 * kSecondNs)).history = [.strike 1 (100 * kSecondNs + 1),
        .strike 1 (100 * kSecondNs + 2), .swept (100 * kSecondNs),
        .swept (30 * 86400 * kSecondNs)] := by decide
  rw [hhistory] at hτ
  simp only [List.mem_cons, Event.strike.injEq, true_and, List.not_mem_nil, or_false,
    reduceCtorEq] at hτ
  have hlast : τ ≤ 101 * kSecondNs := by
    unfold kSecondNs at hτ ⊢
    omega
  have hnow : (ticking (30 * 86400 * kSecondNs)).now = 30 * 86400 * kSecondNs := rfl
  rw [hnow] at hday
  unfold kWidestWindowNs kSecondNs at *
  omega

end Offenders

end HyperDerp
