import HyperDerp.WgRelay.Offenders

/-!
# Strike escalation (`wg_relay.cc:448-465`, `:660-758`)

The published tiers are sliding windows over the strikes of a source. The code
keeps one counter and the time of one strike, so it only sees the strikes of the
current round: those since the last escalation, or since the first of them fell
out of the widest window, or since a sweep dropped the record. The first part
describes rounds and blocks as functions of what has happened; the second shows
that the relay's record is exactly that; the third says at which strikes the tiers
are met.
-/

namespace HyperDerp

namespace Offenders

/-! ### Rounds -/

/-- The round the strike at `now` belongs to, with it. A strike at clock 0 leaves no
first-strike time, so the next one starts over. -/
def joinRound (round : List ℕ) (now : ℕ) : List ℕ :=
  if round.headD 0 = 0 ∨ kWidestWindowNs < sub64 now (round.headD 0) then [now]
  else round ++ [now]

def roundTier (round : List ℕ) (now : ℕ) : Option StrikePolicy :=
  kStrikePolicy.find? fun pol =>
    pol.strikes ≤ round.length && sub64 now (round.headD 0) ≤ pol.windowNs

def strikeRound (st : List ℕ × Option ℕ) (now : ℕ) : List ℕ × Option ℕ :=
  let round := joinRound st.1 now
  match roundTier round now with
  | some pol => ([], some (now + pol.blockNs))
  | none => (round, st.2)

def sweepRound (round : List ℕ) (now : ℕ) : List ℕ :=
  if round.headD 0 ≠ 0 ∧ kWidestWindowNs < sub64 now (round.headD 0) then [] else round

def roundStep (ip : UInt32) (st : List ℕ × Option ℕ) : Event → List ℕ × Option ℕ
  | .strike ip' time => if ip' = ip then strikeRound st time else st
  | .swept now => (sweepRound st.1 now, st.2.filter fun e => now < e)

/-- The open round of a source and the end of its last block. -/
def rounds (ip : UInt32) (history : List Event) : List ℕ × Option ℕ :=
  history.foldl (roundStep ip) ([], none)

theorem rounds_append (ip : UInt32) (xs ys : List Event) :
    rounds ip (xs ++ ys) = ys.foldl (roundStep ip) (rounds ip xs) := List.foldl_append

/-! ### The relay keeps the round -/

def roundRecord (round : List ℕ) (total : ℕ) : WgRelayStrike :=
  ⟨round.length, round.headD 0, total⟩

theorem roundRecord_counted (round : List ℕ) (total now : ℕ) :
    (roundRecord round total).counted now = roundRecord (joinRound round now) (total + 1) := by
  unfold WgRelayStrike.counted roundRecord joinRound
  dsimp only
  split
  · rfl
  · next hcut =>
    cases round with
    | nil =>
      exfalso
      apply hcut
      exact Or.inl rfl
    | cons first rest => simp

theorem roundRecord_escalates (round : List ℕ) (total now : ℕ) :
    (roundRecord round total).escalates now = roundTier round now := rfl

def Follows (r : WgRelay) (history : List Event) : Prop :=
  ∀ ip, (∃ total, (r.strikes ip).getD {} = roundRecord (rounds ip history).1 total) ∧
    r.blocklist ip = (rounds ip history).2

theorem recordStrike_block_other {src : Sockaddr} {now : ℕ} {ip : UInt32}
    (h : ip ≠ extractV4SrcHostOrder src) :
    (recordStrikeLocked r src now).blocklist ip = r.blocklist ip := by
  unfold recordStrikeLocked
  dsimp only
  split
  · rfl
  split
  · unfold xdpBlocklistInsert
    split <;> exact Function.update_of_ne h ..
  · rfl

theorem recordStrike_own_round {src : Sockaddr} {round : List ℕ} {total : ℕ}
    (hip : extractV4SrcHostOrder src ≠ 0)
    (hs : (r.strikes (extractV4SrcHostOrder src)).getD {} = roundRecord round total) (now : ℕ) :
    (recordStrikeLocked r src now).strikes (extractV4SrcHostOrder src) =
        some (roundRecord (strikeRound (round, r.blocklist (extractV4SrcHostOrder src)) now).1
          (total + 1)) ∧
      (recordStrikeLocked r src now).blocklist (extractV4SrcHostOrder src) =
        (strikeRound (round, r.blocklist (extractV4SrcHostOrder src)) now).2 := by
  unfold recordStrikeLocked strikeRound
  dsimp only
  rw [if_neg hip, hs, roundRecord_counted, roundRecord_escalates]
  cases roundTier (joinRound round now) now with
  | none => simp
  | some pol =>
    unfold xdpBlocklistInsert
    dsimp only
    split
    · simp [roundRecord]
    · simp [roundRecord]

theorem Follows.strike (h : Follows r history) (src : Sockaddr) (time : ℕ) :
    Follows (recordStrikeLocked r src time) (history ++ marks src time) := by
  by_cases hzero : extractV4SrcHostOrder src = 0
  · unfold recordStrikeLocked marks
    rw [if_pos hzero, if_pos hzero, List.append_nil]
    exact h
  · intro ip
    rw [marks, if_neg hzero, rounds_append, List.foldl_cons, List.foldl_nil, roundStep]
    by_cases hip : extractV4SrcHostOrder src = ip
    · obtain ⟨⟨total, hs⟩, hb⟩ := h ip
      rw [← hip] at hs hb ⊢
      obtain ⟨hrecord, hblock⟩ := recordStrike_own_round hzero hs time
      rw [hb] at hrecord hblock
      rw [if_pos rfl, hrecord, hblock]
      exact ⟨⟨total + 1, rfl⟩, rfl⟩
    · rw [if_neg hip, recordStrike_other (Ne.symm hip), recordStrike_block_other (Ne.symm hip)]
      exact h ip

theorem Follows.peer (h : Follows r history) (c : SweepClock) (i : ℕ) (p : WgRelayPeer) :
    Follows (strikeExpired c.now (c.strike i) r p) (history ++ peerMarks c i p) := by
  unfold strikeExpired peerMarks
  cases p.candidateEndpoint with
  | none => simpa using h
  | some src =>
    dsimp only
    split
    · exact h.strike src (c.strike i)
    · simpa using h

theorem Follows.peers (h : Follows r history) (c : SweepClock) (i : ℕ) (ps : List WgRelayPeer) :
    Follows (strikePeers c i ps r) (history ++ sweepMarks c i ps) := by
  induction ps generalizing r history i with
  | nil => simpa [strikePeers, sweepMarks] using h
  | cons p ps ih =>
    rw [strikePeers, sweepMarks, ← List.append_assoc]
    exact ih (h.peer c i p) (i + 1)

theorem Follows.sweep (h : Follows r history) (c : SweepClock) :
    Follows (expireCandidatesLocked r c) (history ++ sweepMarks c 0 r.peers ++ [Event.swept c.now]) := by
  intro ip
  obtain ⟨⟨total, hs⟩, hb⟩ := h.peers c 0 r.peers ip
  rw [expire_strikes, expire_blocklist, rounds_append, List.foldl_cons, List.foldl_nil, roundStep,
    hb]
  refine ⟨?_, rfl⟩
  generalize (rounds ip (history ++ sweepMarks c 0 r.peers)).1 = round at hs ⊢
  have hstale : (roundRecord round total).stale c.now = true ↔
      round.headD 0 ≠ 0 ∧ kWidestWindowNs < sub64 c.now (round.headD 0) := by
    simp [WgRelayStrike.stale, roundRecord]
  unfold sweepRound
  cases hrecord : (strikePeers c 0 r.peers r).strikes ip with
  | none =>
    -- no record is the record of an empty round
    rw [hrecord, Option.getD_none] at hs
    have hempty : round = [] := List.eq_nil_of_length_eq_zero (congrArg WgRelayStrike.count hs).symm
    exact ⟨0, by rw [hempty]; rfl⟩
  | some record =>
    rw [hrecord, Option.getD_some] at hs
    rw [hs]
    by_cases h1 : (roundRecord round total).stale c.now = true
    · rw [if_pos (hstale.1 h1)]
      refine ⟨0, ?_⟩
      rw [Option.filter_some, h1]
      rfl
    · rw [if_neg fun h2 => h1 (hstale.2 h2)]
      refine ⟨total, ?_⟩
      rw [Option.filter_some, eq_false_of_ne_true h1]
      rfl

theorem reach_follows (h : Runs.Reach Init step Runs.Any s) : Follows s.relay s.history := by
  apply h.invariant (P := fun s => Follows s.relay s.history)
  · intro s h0 ip
    obtain ⟨hhistory, hstrikes, hblocks, -⟩ := h0
    rw [hhistory, hstrikes, hblocks]
    exact ⟨⟨0, rfl⟩, rfl⟩
  · intro s s' l hi _ hs
    cases l with
    | sweep c done =>
      simp only [step, Option.ite_none_right_eq_some, Option.some.injEq] at hs
      obtain ⟨-, rfl⟩ := hs
      exact hi.sweep c
    | peers ps =>
      cases hs
      exact hi

/-! ### Published tiers -/

def strikesOf (ip : UInt32) (history : List Event) : List ℕ :=
  history.filterMap fun
    | .strike ip' time => if ip' = ip then some time else none
    | .swept _ => none

/-- The strikes at these times that lie in `[now - window, now]`. -/
def inStrikeWindow (times : List ℕ) (now window : ℕ) : List ℕ :=
  times.filter fun x => x ≤ now && now ≤ x + window

/-- With the strike at `now`, the tier's window holds its number of strikes. -/
def TierFull (times : List ℕ) (now : ℕ) (pol : StrikePolicy) : Prop :=
  pol.strikes ≤ (inStrikeWindow (times ++ [now]) now pol.windowNs).length

/-- What the strike at `now` owes, given the end of the source's block before and after
it: every full tier is in force, and a block that is still running is not shortened. -/
structure StrikeEnforced (times : List ℕ) (now : ℕ) (before after : Option ℕ) : Prop where
  tiers : ∀ pol ∈ kStrikePolicy, TierFull times now pol →
    ∃ e, after = some e ∧ now + pol.blockNs ≤ e
  kept : ∀ e, before = some e → now < e → ∃ e', after = some e' ∧ e ≤ e'

/-- The round keeps up with the windows at the strike at `now`. When the round meets a
tier, that tier blocks for as long as every full one and past the end of a running
block; when it meets none, the running block already lasts as long as every full tier
asks for. -/
def RoundCovers (ip : UInt32) (past : List Event) (now : ℕ) : Prop :=
  (∀ met ∈ roundTier (joinRound (rounds ip past).1 now) now,
    (∀ pol ∈ kStrikePolicy, TierFull (strikesOf ip past) now pol → pol.blockNs ≤ met.blockNs) ∧
      ∀ e ∈ (rounds ip past).2, now < e → e ≤ now + met.blockNs) ∧
  (roundTier (joinRound (rounds ip past).1 now) now = none →
    ∀ pol ∈ kStrikePolicy, TierFull (strikesOf ip past) now pol →
      ∃ e ∈ (rounds ip past).2, now + pol.blockNs ≤ e)

instance (times : List ℕ) (now : ℕ) (pol : StrikePolicy) : Decidable (TierFull times now pol) :=
  inferInstanceAs (Decidable (_ ≤ _))

instance (ip : UInt32) (past : List Event) (now : ℕ) : Decidable (RoundCovers ip past now) :=
  inferInstanceAs (Decidable (_ ∧ _))

theorem strikeEnforced_iff (ip : UInt32) (past : List Event) (now : ℕ) :
    StrikeEnforced (strikesOf ip past) now (rounds ip past).2 (strikeRound (rounds ip past) now).2 ↔
      RoundCovers ip past now := by
  unfold RoundCovers strikeRound
  dsimp only
  cases roundTier (joinRound (rounds ip past).1 now) now with
  | none =>
    constructor
    · intro h
      exact ⟨fun met hmet => (Option.not_mem_none met hmet).elim, fun _ => h.tiers⟩
    · intro h
      exact ⟨h.2 rfl, fun e he _ => ⟨e, he, le_refl e⟩⟩
  | some met =>
    constructor
    · intro h
      refine ⟨fun met' hmet => ?_, fun hnone => nomatch hnone⟩
      cases hmet
      constructor
      · intro pol hpol hfull
        obtain ⟨e, he, hle⟩ := h.tiers pol hpol hfull
        cases he
        omega
      · intro e he hrun
        obtain ⟨e', he', hle⟩ := h.kept e he hrun
        cases he'
        exact hle
    · intro h
      have hmet := h.1 met rfl
      constructor
      · intro pol hpol hfull
        have hle := hmet.1 pol hpol hfull
        exact ⟨_, rfl, by omega⟩
      · intro e he hrun
        exact ⟨_, rfl, hmet.2 e he hrun⟩

/-! ### Strikes in a sweep -/

theorem sweepMarks_append (c : SweepClock) (i : ℕ) (ps qs : List WgRelayPeer) :
    sweepMarks c i (ps ++ qs) = sweepMarks c i ps ++ sweepMarks c (i + ps.length) qs := by
  induction ps generalizing i with
  | nil => rfl
  | cons p ps ih =>
    rw [List.cons_append, sweepMarks, sweepMarks, ih, List.append_assoc, List.length_cons,
      Nat.add_right_comm, Nat.add_assoc]

/-- What has happened before the strike of the peer that comes after `before`. -/
def pastOf (s : State) (c : SweepClock) (before : List WgRelayPeer) : List Event :=
  s.history ++ sweepMarks c 0 before

/-- The peer holds a candidate slot of this source that has run out at the sweep. -/
structure RunsOut (c : SweepClock) (p : WgRelayPeer) (src : Sockaddr) : Prop where
  slot : p.candidateEndpoint = some src
  late : kCandidateTimeoutNs < sub64 c.now p.candidateSetNs

/-- After every run, for every strike of an IPv4 source in a sweep: the tiers are in force after it
and a running block is not shortened, if and only if the round covers the windows. And the sweep
removes no block that is still running. -/
theorem strikes_enforced_iff (h : Runs.Reach Init step Runs.Any s) (c : SweepClock) :
    (∀ before p after src, s.relay.peers = before ++ p :: after → RunsOut c p src →
      extractV4SrcHostOrder src ≠ 0 →
      (StrikeEnforced (strikesOf (extractV4SrcHostOrder src) (pastOf s c before))
          (c.strike before.length)
          ((strikePeers c 0 before s.relay).blocklist (extractV4SrcHostOrder src))
          ((strikePeers c 0 (before ++ [p]) s.relay).blocklist (extractV4SrcHostOrder src)) ↔
        RoundCovers (extractV4SrcHostOrder src) (pastOf s c before) (c.strike before.length))) ∧
    ∀ ip e, (strikePeers c 0 s.relay.peers s.relay).blocklist ip = some e → c.now < e →
      (expireCandidatesLocked s.relay c).blocklist ip = some e := by
  constructor
  · intro before p after src _ hout hip
    have hbefore := (reach_follows h).peers c 0 before
    have hafter := (reach_follows h).peers c 0 (before ++ [p])
    have hmarks : sweepMarks c 0 (before ++ [p]) = sweepMarks c 0 before ++
        [.strike (extractV4SrcHostOrder src) (c.strike before.length)] := by
      rw [sweepMarks_append, sweepMarks, sweepMarks, List.append_nil, peerMarks, hout.slot]
      simp [hout.late, marks, hip]
    rw [(hbefore _).2, (hafter _).2, hmarks, ← List.append_assoc, rounds_append _ (_ ++ _),
      List.foldl_cons, List.foldl_nil, roundStep, if_pos rfl]
    exact strikeEnforced_iff ..
  · intro ip e he hrun
    rw [expire_blocklist, he, Option.filter_some, decide_eq_true hrun]
    rfl

/-! ### Strikes of one offender -/

/-- After its block the offender holds two slots again, beside one of another source. -/
def threeSlots : List WgRelayPeer :=
  [{ offered [0x63] (200 * kSecondNs) with candidateEndpoint := some (.in4 2 2) },
    offered [0x61] (200 * kSecondNs), offered [0x62] (200 * kSecondNs)]

def struckAgain : State :=
  { struckTwice with relay := { struckTwice.relay with peers := threeSlots } }

/-- The second strike of the second sweep is enforced, with two strikes a few minutes before. -/
theorem strikes_enforced_again :
    StrikeEnforced [100 * kSecondNs + 1, 100 * kSecondNs + 2, 300 * kSecondNs + 2]
      (300 * kSecondNs + 3)
      ((strikePeers (ticking (300 * kSecondNs)) 0 (threeSlots.take 2) struckAgain.relay).blocklist 1)
      ((strikePeers (ticking (300 * kSecondNs)) 0 (threeSlots.take 2 ++ [offered [0x62]
        (200 * kSecondNs)]) struckAgain.relay).blocklist 1) := by
  have hreach : Runs.Reach Init step Runs.Any struckAgain :=
    struckTwice_reach.next _ _ (.peers threeSlots) trivial rfl
  have h := ((strikes_enforced_iff hreach (ticking (300 * kSecondNs))).1 (threeSlots.take 2)
    (offered [0x62] (200 * kSecondNs)) [] offender rfl ⟨rfl, by decide⟩ (by decide)).2 (by decide)
  exact h

def struckOnce : State :=
  (⟨{ peers := [offered [0x61] kSecondNs] }, [], 0⟩ : State).sweep (ticking (100 * kSecondNs))
    (101 * kSecondNs)

def heldAgain : State :=
  { struckOnce with relay := { struckOnce.relay with peers := [offered [0x61] (105 * kSecondNs)] } }

theorem heldAgain_reach : Runs.Reach Init step Runs.Any heldAgain := by
  have hstart : Runs.Reach Init step Runs.Any (⟨{}, [], 0⟩ : State) := .start _ ⟨rfl, rfl, rfl, rfl⟩
  have hslot := hstart.next _ _ (.peers [offered [0x61] kSecondNs]) trivial rfl
  have ht : (⟨{ peers := [offered [0x61] kSecondNs] }, [], 0⟩ : State).Timely
    (ticking (100 * kSecondNs)) (101 * kSecondNs) := by decide
  have honce := hslot.next _ _ (.sweep (ticking (100 * kSecondNs)) (101 * kSecondNs)) trivial
    (step_sweep ht)
  exact honce.next _ _ (.peers [offered [0x61] (105 * kSecondNs)]) trivial rfl

/-- Two strikes 40 seconds apart, each in a sweep of its own, do not block: the first sweep has
dropped the record of its own strike. -/
theorem lone_strikes_not_enforced : ¬∀ (s : State) (c : SweepClock) (done : ℕ) (before : List WgRelayPeer)
    (p : WgRelayPeer) (after : List WgRelayPeer) (src : Sockaddr),
    Runs.Reach Init step Runs.Any s → s.Timely c done → s.relay.peers = before ++ p :: after →
    RunsOut c p src → extractV4SrcHostOrder src ≠ 0 →
    StrikeEnforced (strikesOf (extractV4SrcHostOrder src) (pastOf s c before))
      (c.strike before.length)
      ((strikePeers c 0 before s.relay).blocklist (extractV4SrcHostOrder src))
      ((strikePeers c 0 (before ++ [p]) s.relay).blocklist (extractV4SrcHostOrder src)) := by
  intro h
  have hstrike := h heldAgain (ticking (140 * kSecondNs)) (141 * kSecondNs) []
    (offered [0x61] (105 * kSecondNs)) [] offender heldAgain_reach (by decide) rfl
    ⟨rfl, by decide⟩ (by decide)
  obtain ⟨e, he, -⟩ := hstrike.tiers ⟨2, 60 * kSecondNs, 60 * kSecondNs⟩ (by decide) (by decide)
  have hnone : (strikePeers (ticking (140 * kSecondNs)) 0 [offered [0x61] (105 * kSecondNs)]
      heldAgain.relay).blocklist 1 = none := by decide
  exact absurd (he.symm.trans hnone) (by simp)

end Offenders

end HyperDerp
