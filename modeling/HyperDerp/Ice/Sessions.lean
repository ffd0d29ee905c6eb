import HyperDerp.ControlPlane.Frames
import HyperDerp.Lib.FrontScan
import HyperDerp.Lib.Runs

/-!
# Connectivity checks (`ice.cc:49-201`, `control_plane.cc:297-364`, `:859-903`)

The sessions with their pair flags and the nominated index. Sorting leaves the order of
equal priorities open: a label says which order came out.
-/

namespace HyperDerp.IceChecks

deriving instance DecidableEq for IceCandidate, IceCandidatePair

structure CheckedPair extends IceCandidatePair where
  nominated : Bool := false
  succeeded : Bool := false
  inProgress : Bool := false
  failed : Bool := false
  transactionId : Bytes := []

structure Session where
  peerKey : Key := zeroKey
  state : IceState := .kNew
  localCandidates : List IceCandidate := []
  remoteCandidates : List IceCandidate := []
  pairs : List CheckedPair := []
  nominatedPair : ℤ := 0
  occupied : Bool := false

instance : NeZero kIceMaxSessions := ⟨by decide⟩

abbrev Index := Fin kIceMaxSessions

structure Agent where
  sessions : Index → Session := fun _ => {}
  sessionCount : ℤ := 0

def Session.base (s : Session) : IceSession where
  peerKey := s.peerKey
  state := s.state
  localCandidates := s.localCandidates
  remoteCandidates := s.remoteCandidates
  pairs := s.pairs.map CheckedPair.toIceCandidatePair
  occupied := s.occupied

def Agent.base (agent : Agent) : IceAgent := ⟨fun i => (agent.sessions i).base⟩

def Agent.set (agent : Agent) (i : Index) (s : Session) : Agent :=
  { agent with sessions := Function.update agent.sessions i s }

def iceStartSession (agent : Agent) (peerKey : Key) : Option Index × Agent :=
  if (kIceMaxSessions : ℤ) ≤ agent.sessionCount then (none, agent)
  else
    match FrontScan.first agent.sessions fun s => !s.occupied with
    | none => (none, agent)
    | some i =>
      let s : Session :=
        { peerKey := peerKey, state := .kGathering, nominatedPair := -1, occupied := true }
      (some i, { agent.set i s with sessionCount := agent.sessionCount + 1 })

def iceAddLocalCandidate (s : Session) (type : Byte) (ip port : Bytes) : Bool × Session :=
  if kIceMaxCandidates ≤ s.localCandidates.length then (false, s)
  else
    (true, { s with
      localCandidates := s.localCandidates ++ [⟨type, ip, port, iceCalcPriority type⟩] })

/-- `IceAddRemoteCandidate` and `IceParseCandidates` touch the remote candidates alone. -/
def addRemote (s : Session) (type : Byte) (ip port : Bytes) : Session :=
  { s with remoteCandidates := (iceAddRemoteCandidate s.base type ip port).remoteCandidates }

def parseCandidates (s : Session) (data : Bytes) : Option Session :=
  (iceParseCandidates s.base data).map fun b => { s with remoteCandidates := b.remoteCandidates }

/-- The combinations that `IceFormPairs` makes, before it sorts them. -/
def combinations (ls rs : List IceCandidate) : List IceCandidatePair :=
  (ls.flatMap fun l => rs.map fun r =>
    (⟨l, r, iceCalcPairPriority l.priority r.priority⟩ : IceCandidatePair)).take kIceMaxPairs

/-- What `std::sort` may make of the pairs. -/
def SortOf (pairs order : List IceCandidatePair) : Prop :=
  order.Perm pairs ∧ order.Pairwise fun a b => b.priority ≤ a.priority

instance (pairs order : List IceCandidatePair) : Decidable (SortOf pairs order) :=
  inferInstanceAs (Decidable (_ ∧ _))

/-- `IceFormPairs`, with the order that the sort gave. -/
def formPairs (s : Session) (order : List IceCandidatePair) : Session :=
  { s with pairs := order.map fun p => { toIceCandidatePair := p }, state := .kChecking }

def unchecked (p : CheckedPair) : Bool := !p.inProgress && !p.succeeded && !p.failed

/-- `tid` is what `randombytes_buf` gives. -/
def iceNextCheck (s : Session) (tid : Bytes) : Option ℕ × Session :=
  match s.pairs.findIdx? unchecked with
  | none => (none, s)
  | some i =>
    (some i, { s with
      pairs := s.pairs.modify i fun p => { p with inProgress := true, transactionId := tid } })

def awaits (tid : Bytes) (p : CheckedPair) : Bool := decide (p.transactionId = tid) && p.inProgress

def iceProcessResponse (s : Session) (tid : Bytes) : Bool × Session :=
  match s.pairs.findIdx? (awaits tid) with
  | none => (false, s)
  | some i =>
    if s.nominatedPair < 0 then
      (true, { s with
        pairs := s.pairs.modify i fun p =>
          { p with succeeded := true, inProgress := false, nominated := true }
        nominatedPair := i
        state := .kConnected })
    else
      (false, { s with
        pairs := s.pairs.modify i fun p => { p with succeeded := true, inProgress := false } })

def markFailed (s : Session) (tid : Bytes) : Session :=
  match s.pairs.findIdx? (awaits tid) with
  | none => s
  | some i =>
    { s with pairs := s.pairs.modify i fun p => { p with failed := true, inProgress := false } }

def iceCheckFailed (s : Session) (tid : Bytes) : Session :=
  let s := markFailed s tid
  if (s.pairs.any fun p => !p.succeeded && !p.failed) = false ∧ s.nominatedPair < 0 then
    { s with state := .kFailed }
  else s

/-- The loops of `HandleStunResponse` and `HandleIceTimer` look at these only. -/
def checking (s : Session) : Bool := s.occupied && decide (s.state = .kChecking)

/-- `HandleStunResponse`, once the message has parsed as a Binding Response. -/
def handleStunResponse (tid : Bytes) : List Index → Agent → Agent
  | [], agent => agent
  | i :: is, agent =>
    if checking (agent.sessions i) then
      let r := iceProcessResponse (agent.sessions i) tid
      if r.1 then agent.set i r.2 else handleStunResponse tid is (agent.set i r.2)
    else handleStunResponse tid is agent

/-- One round of `HandleIceTimer`. -/
def handleIceTimer (tids : Index → Bytes) (agent : Agent) : Agent :=
  (List.finRange kIceMaxSessions).foldl
    (fun agent i =>
      if checking (agent.sessions i) then
        agent.set i (iceNextCheck (agent.sessions i) (tids i)).2
      else agent) agent

/-- `CpHandleHdPeerInfo`: the session that the frame names, with the candidates added. -/
def peerInfoSession (agent : Agent) (payload : Bytes) : Option (Index × Session) :=
  if payload.length < kKeySize then none
  else
    (iceFindSession agent.base (payload.take kKeySize)).bind fun i =>
      (parseCandidates (agent.sessions i) (payload.drop kKeySize)).map fun s => (i, s)

def readyToForm (s : Session) : Bool :=
  !s.localCandidates.isEmpty && !s.remoteCandidates.isEmpty && decide (s.state = .kGathering)

/-! ### Runs -/

/-- An agent, and for each session the candidates its pairs were formed from. -/
structure State where
  agent : Agent := {}
  formed : Index → Option (List IceCandidate × List IceCandidate) := fun _ => none

inductive Label where
  | start (key : Key)
  | addLocal (i : Index) (type : Byte) (ip port : Bytes)
  | addRemote (i : Index) (type : Byte) (ip port : Bytes)
  | peerInfo (payload : Bytes) (order : List IceCandidatePair)
  | timer (tids : Index → Bytes)
  | stunResponse (tid : Bytes)
  | checkFailed (i : Index) (tid : Bytes)

/-- The session is stored, with pairs in an order that the sort may give. -/
def store (st : State) (i : Index) (s : Session) (order : List IceCandidatePair) : Option State :=
  if readyToForm s then
    if SortOf (combinations s.localCandidates s.remoteCandidates) order then
      some ⟨st.agent.set i (formPairs s order),
        Function.update st.formed i (some (s.localCandidates, s.remoteCandidates))⟩
    else none
  else some { st with agent := st.agent.set i s }

def peerInfo (st : State) (payload : Bytes) (order : List IceCandidatePair) : Option State :=
  match peerInfoSession st.agent payload with
  | none => some st
  | some (i, s) => store st i s order

def step (st : State) : Label → Option State
  | .start key =>
    match iceStartSession st.agent key with
    | (none, _) => some st
    | (some i, agent) => some ⟨agent, Function.update st.formed i none⟩
  | .addLocal i type ip port =>
    some { st with
      agent := st.agent.set i (iceAddLocalCandidate (st.agent.sessions i) type ip port).2 }
  | .addRemote i type ip port =>
    some { st with agent := st.agent.set i (addRemote (st.agent.sessions i) type ip port) }
  | .peerInfo payload order => peerInfo st payload order
  | .timer tids => some { st with agent := handleIceTimer tids st.agent }
  | .stunResponse tid =>
    some { st with agent := handleStunResponse tid (List.finRange kIceMaxSessions) st.agent }
  | .checkFailed i tid =>
    some { st with agent := st.agent.set i (iceCheckFailed (st.agent.sessions i) tid) }

/-- `IceInit`. -/
def Init (st : State) : Prop := st = {}

structure Nominee (nominatedPair : ℤ) (pairs : List CheckedPair) (i : ℕ) : Prop where
  index : nominatedPair = i
  pair : ∃ p, pairs[i]? = some p ∧ p.nominated = true ∧ p.succeeded = true
  only : ∀ j p, pairs[j]? = some p → p.nominated = true → j = i

def Exclusive (p : CheckedPair) : Prop :=
  ¬(p.inProgress = true ∧ p.succeeded = true) ∧ ¬(p.inProgress = true ∧ p.failed = true) ∧
    ¬(p.succeeded = true ∧ p.failed = true)

structure SessionOk (s : Session) (formed : Option (List IceCandidate × List IceCandidate)) :
    Prop where
  connected : s.state = .kConnected ↔ ∃ i, Nominee s.nominatedPair s.pairs i
  exclusive : ∀ p ∈ s.pairs, Exclusive p
  pairs : SortOf (match formed with
    | none => []
    | some (ls, rs) => combinations ls rs) (s.pairs.map CheckedPair.toIceCandidatePair)
  failed : s.state = .kFailed → ∀ p ∈ s.pairs,
    unchecked p = false ∧ p.inProgress = false ∧ p.nominated = false

/-- A connected session stays so, with the nominated pair it has. -/
def Keeps (s s' : Session) : Prop :=
  s.occupied = true → s.state = .kConnected → s'.occupied = true ∧ s'.state = .kConnected ∧
    s'.nominatedPair = s.nominatedPair ∧ s'.pairs[s.nominatedPair.toNat]? =
      s.pairs[s.nominatedPair.toNat]?

/-! ### What holds in each state -/

def Phase (s : Session) : Prop :=
  match s.state with
  | .kGathering => s.nominatedPair = -1 ∧ s.pairs = []
  | .kChecking => s.nominatedPair = -1 ∧
      ∀ p ∈ s.pairs, p.nominated = false ∧ p.succeeded = false
  | .kConnected => ∃ i, Nominee s.nominatedPair s.pairs i
  | .kFailed => s.nominatedPair = -1 ∧
      ∀ p ∈ s.pairs, p.nominated = false ∧ p.succeeded = false ∧ p.inProgress = false ∧
        p.failed = true
  | _ => False

structure Inv (s : Session) (formed : Option (List IceCandidate × List IceCandidate)) : Prop where
  phase : Phase s
  exclusive : ∀ p ∈ s.pairs, Exclusive p
  pairs : SortOf (match formed with
    | none => []
    | some (ls, rs) => combinations ls rs) (s.pairs.map CheckedPair.toIceCandidatePair)

variable {s : Session} {formed : Option (List IceCandidate × List IceCandidate)} {tid : Bytes}

theorem not_nominee (h : s.nominatedPair = -1) : ¬∃ i, Nominee s.nominatedPair s.pairs i := by
  rintro ⟨i, hi⟩
  have hx := hi.index
  omega

theorem Inv.sessionOk (h : Inv s formed) : SessionOk s formed := by
  refine ⟨?_, h.exclusive, h.pairs, fun hf p hp => ?_⟩
  · have hphase := h.phase
    unfold Phase at hphase
    cases hs : s.state with
    | kConnected =>
      rw [hs] at hphase
      exact ⟨fun _ => hphase, fun _ => rfl⟩
    | kGathering =>
      rw [hs] at hphase
      exact ⟨nofun, fun hn => absurd hn (not_nominee hphase.1)⟩
    | kChecking =>
      rw [hs] at hphase
      exact ⟨nofun, fun hn => absurd hn (not_nominee hphase.1)⟩
    | kFailed =>
      rw [hs] at hphase
      exact ⟨nofun, fun hn => absurd hn (not_nominee hphase.1)⟩
    | kNew =>
      rw [hs] at hphase
      exact hphase.elim
    | kClosed =>
      rw [hs] at hphase
      exact hphase.elim
  · have hphase := h.phase
    unfold Phase at hphase
    rw [hf] at hphase
    obtain ⟨hn, hsucc, hprog, hfail⟩ := hphase.2 p hp
    simp [unchecked, hprog, hn, hfail]

theorem modify_base {f : CheckedPair → CheckedPair}
    (hf : ∀ p, (f p).toIceCandidatePair = p.toIceCandidatePair) (ps : List CheckedPair) (i : ℕ) :
    (ps.modify i f).map CheckedPair.toIceCandidatePair =
      ps.map CheckedPair.toIceCandidatePair := by
  apply List.ext_getElem?
  intro j
  rw [List.getElem?_map, List.getElem?_map, List.getElem?_modify, Option.map_eq_map, Option.map_map]
  congr 1
  funext p
  simp only [Function.comp_apply]
  split
  · exact hf p
  · rfl

theorem mem_modify {f : CheckedPair → CheckedPair} {ps : List CheckedPair} {i : ℕ}
    {p : CheckedPair} (h : p ∈ ps.modify i f) : p ∈ ps ∨ ∃ q, ps[i]? = some q ∧ p = f q := by
  obtain ⟨j, hj⟩ := List.mem_iff_getElem?.mp h
  rw [List.getElem?_modify, Option.map_eq_map, Option.map_eq_some_iff] at hj
  obtain ⟨q, hq, rfl⟩ := hj
  split
  · next hij =>
    rw [hij]
    exact .inr ⟨q, hq, rfl⟩
  · exact .inl (List.mem_of_getElem? hq)

theorem findIdx_some {p : CheckedPair → Bool} {i : ℕ} (h : s.pairs.findIdx? p = some i) :
    ∃ q, s.pairs[i]? = some q ∧ q ∈ s.pairs ∧ p q = true := by
  obtain ⟨hi, hp, -⟩ := List.findIdx?_eq_some_iff_getElem.mp h
  exact ⟨s.pairs[i], List.getElem?_eq_getElem hi, List.getElem_mem hi, hp⟩

/-! ### The operations on one session -/

theorem Inv.addLocal (h : Inv s formed) (type : Byte) (ip port : Bytes) :
    Inv (iceAddLocalCandidate s type ip port).2 formed := by
  unfold iceAddLocalCandidate
  split
  · exact h
  · exact ⟨h.phase, h.exclusive, h.pairs⟩

theorem Inv.remote (h : Inv s formed) (rs : List IceCandidate) :
    Inv { s with remoteCandidates := rs } formed := ⟨h.phase, h.exclusive, h.pairs⟩

theorem started_inv (key : Key) :
    Inv { peerKey := key, state := .kGathering, nominatedPair := -1, occupied := true } none := by
  refine ⟨⟨rfl, rfl⟩, fun p hp => absurd hp List.not_mem_nil, ?_⟩
  exact ⟨.nil, .nil⟩

theorem form_inv {order : List IceCandidatePair} (h : Inv s formed) (hg : s.state = .kGathering)
    (hs : SortOf (combinations s.localCandidates s.remoteCandidates) order) :
    Inv (formPairs s order) (some (s.localCandidates, s.remoteCandidates)) := by
  have hphase := h.phase
  unfold Phase at hphase
  rw [hg] at hphase
  refine ⟨⟨hphase.1, ?_⟩, ?_, ?_⟩
  · intro p hp
    obtain ⟨q, -, rfl⟩ := List.mem_map.mp hp
    exact ⟨rfl, rfl⟩
  · intro p hp
    obtain ⟨q, -, rfl⟩ := List.mem_map.mp hp
    simp [Exclusive]
  · have hback : (formPairs s order).pairs.map CheckedPair.toIceCandidatePair = order := by
      unfold formPairs
      dsimp only
      rw [List.map_map]
      exact List.map_id order
    rw [hback]
    exact hs

theorem Inv.nextCheck (h : Inv s formed) (hc : s.state = .kChecking) (tid : Bytes) :
    Inv (iceNextCheck s tid).2 formed := by
  unfold iceNextCheck
  split
  · exact h
  · next i hi =>
    obtain ⟨q, hq, hmem, hun⟩ := findIdx_some hi
    have hphase := h.phase
    unfold Phase at hphase
    rw [hc] at hphase
    obtain ⟨hnp, hall⟩ := hphase
    simp only [unchecked, Bool.and_eq_true, Bool.not_eq_true'] at hun
    refine ⟨?_, ?_, ?_⟩
    · unfold Phase
      dsimp only
      rw [hc]
      refine ⟨hnp, fun p hp => ?_⟩
      rcases mem_modify hp with hold | ⟨r, hr, rfl⟩
      · exact hall p hold
      · exact hall r (List.mem_of_getElem? hr)
    · intro p hp
      rcases mem_modify hp with hold | ⟨r, hr, rfl⟩
      · exact h.exclusive p hold
      · rw [hq] at hr
        cases hr
        simp [Exclusive, hun.1.2, hun.2]
    · dsimp only
      rw [modify_base]
      · exact h.pairs
      · exact fun _ => rfl

theorem Inv.processResponse (h : Inv s formed) (hc : s.state = .kChecking) (tid : Bytes) :
    Inv (iceProcessResponse s tid).2 formed := by
  have hphase := h.phase
  unfold Phase at hphase
  rw [hc] at hphase
  obtain ⟨hnp, hall⟩ := hphase
  unfold iceProcessResponse
  split
  · exact h
  · next i hi =>
    obtain ⟨q, hq, hmem, haw⟩ := findIdx_some hi
    have hprog : q.inProgress = true := (Bool.and_eq_true _ _ ▸ haw).2
    have hnf : q.failed = false := by
      have hx := (h.exclusive q hmem).2.1
      simpa [hprog] using hx
    rw [if_pos (by omega)]
    dsimp only
    refine ⟨⟨i, rfl, ⟨{ q with succeeded := true, inProgress := false, nominated := true }, ?_, rfl,
      rfl⟩, ?_⟩, ?_, ?_⟩
    · rw [List.getElem?_modify_eq, hq]
      rfl
    · -- every other pair was not nominated before
      intro j p hp hn
      by_contra hne
      rw [List.getElem?_modify_ne _ _ (Ne.symm hne)] at hp
      rw [(hall p (List.mem_of_getElem? hp)).1] at hn
      cases hn
    · intro p hp
      rcases mem_modify hp with hold | ⟨r, hr, rfl⟩
      · exact h.exclusive p hold
      · rw [hq] at hr
        cases hr
        simp [Exclusive, hnf]
    · rw [modify_base]
      · exact h.pairs
      · exact fun _ => rfl

theorem Inv.markFailed (h : Inv s formed) (tid : Bytes) :
    Inv (IceChecks.markFailed s tid) formed := by
  unfold IceChecks.markFailed
  split
  · exact h
  · next i hi =>
    obtain ⟨q, hq, hmem, haw⟩ := findIdx_some hi
    have hprog : q.inProgress = true := (Bool.and_eq_true _ _ ▸ haw).2
    have hns : q.succeeded = false := by
      have hx := (h.exclusive q hmem).1
      simpa [hprog] using hx
    refine ⟨?_, ?_, ?_⟩
    · have hphase := h.phase
      unfold Phase at hphase ⊢
      dsimp only
      cases hs : s.state with
      | kGathering =>
        rw [hs] at hphase
        rw [hphase.2] at hmem
        cases hmem
      | kChecking =>
        rw [hs] at hphase
        refine ⟨hphase.1, fun p hp => ?_⟩
        rcases mem_modify hp with hold | ⟨r, hr, rfl⟩
        · exact hphase.2 p hold
        · exact hphase.2 r (List.mem_of_getElem? hr)
      | kConnected =>
        rw [hs] at hphase
        obtain ⟨k, hidx, ⟨r, hr, hrn, hrs⟩, honly⟩ := hphase
        have hik : i ≠ k := by
          rintro rfl
          rw [hq] at hr
          cases hr
          rw [hns] at hrs
          cases hrs
        refine ⟨k, hidx, ⟨r, ?_, hrn, hrs⟩, fun j p hp hn => ?_⟩
        · rw [List.getElem?_modify_ne _ _ hik]
          exact hr
        · by_cases hij : i = j
          · subst hij
            rw [List.getElem?_modify_eq, hq] at hp
            cases hp
            exact honly i q hq hn
          · rw [List.getElem?_modify_ne _ _ hij] at hp
            exact honly j p hp hn
      | kFailed =>
        rw [hs] at hphase
        rw [(hphase.2 q hmem).2.2.1] at hprog
        cases hprog
      | kNew =>
        rw [hs] at hphase
        exact hphase
      | kClosed =>
        rw [hs] at hphase
        exact hphase
    · intro p hp
      rcases mem_modify hp with hold | ⟨r, hr, rfl⟩
      · exact h.exclusive p hold
      · rw [hq] at hr
        cases hr
        simp [Exclusive, hns]
    · dsimp only
      rw [modify_base]
      · exact h.pairs
      · exact fun _ => rfl

theorem Inv.none_succeeded (h : Inv s formed) (hn : s.nominatedPair < 0) :
    s.nominatedPair = -1 ∧ ∀ p ∈ s.pairs, p.nominated = false ∧ p.succeeded = false := by
  have hphase := h.phase
  unfold Phase at hphase
  cases hs : s.state with
  | kGathering =>
    rw [hs] at hphase
    refine ⟨hphase.1, fun p hp => ?_⟩
    rw [hphase.2] at hp
    cases hp
  | kChecking =>
    rw [hs] at hphase
    exact hphase
  | kConnected =>
    rw [hs] at hphase
    obtain ⟨k, hk⟩ := hphase
    have hx := hk.index
    omega
  | kFailed =>
    rw [hs] at hphase
    exact ⟨hphase.1, fun p hp => ⟨(hphase.2 p hp).1, (hphase.2 p hp).2.1⟩⟩
  | kNew =>
    rw [hs] at hphase
    exact hphase.elim
  | kClosed =>
    rw [hs] at hphase
    exact hphase.elim

theorem Inv.checkFailed (h : Inv s formed) (tid : Bytes) : Inv (iceCheckFailed s tid) formed := by
  have h1 := h.markFailed tid
  unfold iceCheckFailed
  dsimp only
  generalize IceChecks.markFailed s tid = s1 at h1 ⊢
  split
  · next hend =>
    obtain ⟨hn, hall⟩ := h1.none_succeeded hend.2
    refine ⟨⟨hn, fun p hp => ?_⟩, h1.exclusive, h1.pairs⟩
    have hdone := List.any_eq_false.mp hend.1 p hp
    have hfail : p.failed = true := by simpa [(hall p hp).2] using hdone
    have hprog : p.inProgress = false := by
      have hx := (h1.exclusive p hp).2.1
      simpa [hfail] using hx
    exact ⟨(hall p hp).1, (hall p hp).2, hprog, hfail⟩
  · exact h1

/-! ### What a connected session keeps -/

theorem Keeps.refl (s : Session) : Keeps s s := fun ho hc => ⟨ho, hc, rfl, rfl⟩

theorem Keeps.trans {s1 s2 s3 : Session} (h1 : Keeps s1 s2) (h2 : Keeps s2 s3) : Keeps s1 s3 := by
  intro ho hc
  obtain ⟨ho2, hc2, hn2, hp2⟩ := h1 ho hc
  obtain ⟨ho3, hc3, hn3, hp3⟩ := h2 ho2 hc2
  rw [hn2] at hp3 hn3
  exact ⟨ho3, hc3, hn3, hp3.trans hp2⟩

theorem keeps_checkFailed (h : Inv s formed) (tid : Bytes) : Keeps s (iceCheckFailed s tid) := by
  intro ho hc
  have hphase := h.phase
  unfold Phase at hphase
  rw [hc] at hphase
  obtain ⟨k, hidx, ⟨r, hr, hrn, hrs⟩, -⟩ := hphase
  have hmark : (IceChecks.markFailed s tid).occupied = true ∧
      (IceChecks.markFailed s tid).state = .kConnected ∧
      (IceChecks.markFailed s tid).nominatedPair = s.nominatedPair ∧
      (IceChecks.markFailed s tid).pairs[s.nominatedPair.toNat]? =
        s.pairs[s.nominatedPair.toNat]? := by
    unfold IceChecks.markFailed
    split
    · exact ⟨ho, hc, rfl, rfl⟩
    · next i hi =>
      obtain ⟨q, hq, hmem, haw⟩ := findIdx_some hi
      have hprog : q.inProgress = true := (Bool.and_eq_true _ _ ▸ haw).2
      have hik : i ≠ s.nominatedPair.toNat := by
        rw [hidx, Int.toNat_natCast]
        rintro rfl
        rw [hq] at hr
        cases hr
        exact (h.exclusive _ hmem).1 ⟨hprog, hrs⟩
      exact ⟨ho, hc, rfl, List.getElem?_modify_ne _ _ hik⟩
  unfold iceCheckFailed
  dsimp only
  rw [if_neg]
  · exact hmark
  · intro hend
    rw [hmark.2.2.1] at hend
    omega

/-! ### The agent -/

section

variable {P : Index → Session → Prop} {agent : Agent}

theorem set_holds (h : ∀ j, P j (agent.sessions j)) {i : Index} {s : Session} (hs : P i s)
    (j : Index) : P j ((agent.set i s).sessions j) := by
  unfold Agent.set
  dsimp only
  by_cases hj : j = i
  · rw [hj, Function.update_self]
    exact hs
  · rw [Function.update_of_ne hj]
    exact h j

theorem handleStunResponse_holds (tid : Bytes)
    (hp : ∀ i s, P i s → checking s = true → P i (iceProcessResponse s tid).2) (is : List Index)
    (h : ∀ i, P i (agent.sessions i)) (i : Index) :
    P i ((handleStunResponse tid is agent).sessions i) := by
  induction is generalizing agent with
  | nil => exact h i
  | cons j is ih =>
    unfold handleStunResponse
    split
    · next hc =>
      have hset := set_holds h (hp j _ (h j) hc)
      dsimp only
      split
      · exact hset i
      · exact ih hset
    · exact ih h

theorem handleIceTimer_holds (tids : Index → Bytes)
    (hp : ∀ i s, P i s → checking s = true → P i (iceNextCheck s (tids i)).2)
    (h : ∀ i, P i (agent.sessions i)) (i : Index) :
    P i ((handleIceTimer tids agent).sessions i) := by
  unfold handleIceTimer
  generalize List.finRange kIceMaxSessions = is
  induction is generalizing agent with
  | nil => exact h i
  | cons j is ih =>
    rw [List.foldl_cons]
    split
    · next hc => exact ih (set_holds h (hp j _ (h j) hc))
    · exact ih h

end

theorem checking_iff : checking s = true ↔ s.occupied = true ∧ s.state = .kChecking := by
  simp [checking]

theorem Keeps.of_checking {s' s'' : Session} (h : Keeps s s') (hc : checking s' = true) :
    Keeps s s'' := by
  intro ho hcon
  have hx := (h ho hcon).2.1
  rw [(checking_iff.mp hc).2] at hx
  cases hx

structure StateInv (st : State) : Prop where
  sessions : ∀ i, (st.agent.sessions i).occupied = true → Inv (st.agent.sessions i) (st.formed i)

theorem StateInv.set {st : State} (h : StateInv st) (i : Index) {s : Session}
    (hs : s.occupied = true → Inv s (st.formed i)) (hk : Keeps (st.agent.sessions i) s) :
    StateInv { st with agent := st.agent.set i s } ∧
      ∀ j, Keeps (st.agent.sessions j) ((st.agent.set i s).sessions j) :=
  ⟨⟨set_holds (P := fun j s => s.occupied = true → Inv s (st.formed j)) h.sessions hs⟩,
    set_holds (P := fun j s => Keeps (st.agent.sessions j) s) (fun _ => Keeps.refl _) hk⟩

theorem StateInv.start {st : State} (h : StateInv st) {key : Key} {i : Index} {agent : Agent}
    (hs : iceStartSession st.agent key = (some i, agent)) :
    StateInv ⟨agent, Function.update st.formed i none⟩ ∧
      ∀ j, Keeps (st.agent.sessions j) (agent.sessions j) := by
  unfold iceStartSession at hs
  split at hs
  · cases hs
  · split at hs
    · cases hs
    · next k hk =>
      have hfree := FrontScan.first_some hk
      rw [Bool.not_eq_true'] at hfree
      cases hs
      refine ⟨⟨fun j hj => ?_⟩, ?_⟩
      · unfold Agent.set at hj ⊢
        dsimp only at hj ⊢
        by_cases hji : j = i
        · rw [hji, Function.update_self, Function.update_self]
          exact started_inv key
        · rw [Function.update_of_ne hji] at hj ⊢
          rw [Function.update_of_ne hji]
          exact h.sessions j hj
      · apply set_holds (P := fun j s => Keeps (st.agent.sessions j) s) (fun _ => Keeps.refl _)
        intro ho
        rw [hfree] at ho
        cases ho

theorem peerInfoSession_some {agent : Agent} {payload : Bytes} {i : Index} {s : Session}
    (h : peerInfoSession agent payload = some (i, s)) :
    ∃ rs, s = { agent.sessions i with remoteCandidates := rs } := by
  unfold peerInfoSession at h
  split at h
  · cases h
  · obtain ⟨j, -, hj⟩ := Option.bind_eq_some_iff.mp h
    obtain ⟨s', hs', he⟩ := Option.map_eq_some_iff.mp hj
    cases he
    obtain ⟨b, -, rfl⟩ := Option.map_eq_some_iff.mp hs'
    exact ⟨b.remoteCandidates, rfl⟩

theorem StateInv.peerInfo {st st' : State} (h : StateInv st) {payload : Bytes}
    {order : List IceCandidatePair} (hs : IceChecks.peerInfo st payload order = some st') :
    StateInv st' ∧ ∀ j, Keeps (st.agent.sessions j) (st'.agent.sessions j) := by
  unfold IceChecks.peerInfo at hs
  split at hs
  · cases hs
    exact ⟨h, fun j => Keeps.refl _⟩
  · next i s hi =>
    obtain ⟨rs, rfl⟩ := peerInfoSession_some hi
    unfold store at hs
    split at hs
    · next hready =>
      have hg : (st.agent.sessions i).state = .kGathering := by
        simp only [readyToForm, Bool.and_eq_true, decide_eq_true_eq] at hready
        exact hready.2
      split at hs
      · next hsort =>
        rw [← Option.some.inj hs]
        refine ⟨⟨fun j hj => ?_⟩, ?_⟩
        · unfold Agent.set at hj ⊢
          dsimp only at hj ⊢
          by_cases hji : j = i
          · rw [hji, Function.update_self] at hj
            rw [hji, Function.update_self, Function.update_self]
            exact form_inv ((h.sessions i hj).remote rs) hg hsort
          · rw [Function.update_of_ne hji] at hj ⊢
            rw [Function.update_of_ne hji]
            exact h.sessions j hj
        · apply set_holds (P := fun j s => Keeps (st.agent.sessions j) s) (fun _ => Keeps.refl _)
          intro _ hc
          rw [hg] at hc
          cases hc
      · cases hs
    · rw [← Option.some.inj hs]
      exact h.set i (fun ho => (h.sessions i ho).remote rs) fun ho hc => ⟨ho, hc, rfl, rfl⟩

theorem addLocal_keeps (s : Session) (type : Byte) (ip port : Bytes) :
    (iceAddLocalCandidate s type ip port).2.occupied = s.occupied ∧
      Keeps s (iceAddLocalCandidate s type ip port).2 := by
  unfold iceAddLocalCandidate
  split
  · exact ⟨rfl, Keeps.refl s⟩
  · exact ⟨rfl, fun ho hc => ⟨ho, hc, rfl, rfl⟩⟩

theorem checkFailed_occupied (s : Session) (tid : Bytes) :
    (iceCheckFailed s tid).occupied = s.occupied := by
  have hmark : (IceChecks.markFailed s tid).occupied = s.occupied := by
    unfold IceChecks.markFailed
    split <;> rfl
  unfold iceCheckFailed
  dsimp only
  split
  · exact hmark
  · exact hmark

theorem step_inv {st st' : State} {l : Label} (h : StateInv st) (hs : step st l = some st') :
    StateInv st' ∧ ∀ i, Keeps (st.agent.sessions i) (st'.agent.sessions i) := by
  cases l with
  | start key =>
    simp only [step] at hs
    split at hs
    · cases hs
      exact ⟨h, fun j => Keeps.refl _⟩
    · next i agent hi =>
      rw [← Option.some.inj hs]
      exact h.start hi
  | addLocal i type ip port =>
    simp only [step] at hs
    rw [← Option.some.inj hs]
    obtain ⟨hocc, hk⟩ := addLocal_keeps (st.agent.sessions i) type ip port
    exact h.set i (fun ho => (h.sessions i (hocc ▸ ho)).addLocal type ip port) hk
  | addRemote i type ip port =>
    simp only [step] at hs
    rw [← Option.some.inj hs]
    exact h.set i (fun ho => (h.sessions i ho).remote _) fun ho hc => ⟨ho, hc, rfl, rfl⟩
  | peerInfo payload order =>
    simp only [step] at hs
    exact h.peerInfo hs
  | timer tids =>
    have hinv := handleIceTimer_holds tids
      (P := fun j s => s.occupied = true → Inv s (st.formed j)) (fun i s hi hc _ => by
        obtain ⟨ho, hstate⟩ := checking_iff.mp hc
        exact (hi ho).nextCheck hstate (tids i)) h.sessions
    have hk := handleIceTimer_holds tids
      (P := fun j s => Keeps (st.agent.sessions j) s) (fun i s hk hc => hk.of_checking hc)
      fun _ => Keeps.refl _
    simp only [step] at hs
    generalize handleIceTimer tids st.agent = agent at hs hinv hk
    rw [← Option.some.inj hs]
    exact ⟨⟨hinv⟩, hk⟩
  | stunResponse tid =>
    have hinv := handleStunResponse_holds tid
      (P := fun j s => s.occupied = true → Inv s (st.formed j)) (fun i s hi hc _ => by
        obtain ⟨ho, hstate⟩ := checking_iff.mp hc
        exact (hi ho).processResponse hstate tid) (List.finRange kIceMaxSessions) h.sessions
    have hk := handleStunResponse_holds tid
      (P := fun j s => Keeps (st.agent.sessions j) s) (fun i s hk hc => hk.of_checking hc)
      (List.finRange kIceMaxSessions) fun _ => Keeps.refl _
    simp only [step] at hs
    generalize handleStunResponse tid (List.finRange kIceMaxSessions) st.agent = agent
      at hs hinv hk
    rw [← Option.some.inj hs]
    exact ⟨⟨hinv⟩, hk⟩
  | checkFailed i tid =>
    simp only [step] at hs
    rw [← Option.some.inj hs]
    have hocc := checkFailed_occupied (st.agent.sessions i) tid
    refine h.set i (fun ho => (h.sessions i (hocc ▸ ho)).checkFailed tid) fun ho hc => ?_
    exact keeps_checkFailed (h.sessions i ho) tid ho hc

theorem reach_inv {st : State} (h : Runs.Reach Init step Runs.Any st) : StateInv st := by
  apply Runs.Reach.invariant _ _ h
  · rintro _ rfl
    exact ⟨nofun⟩
  · exact fun st st' l ih _ hs => (step_inv ih hs).1

theorem run_keeps {st st' : State} (h : StateInv st) {ls : List Label}
    (hs : Runs.run step st ls = some st') (i : Index) :
    Keeps (st.agent.sessions i) (st'.agent.sessions i) := by
  induction ls generalizing st with
  | nil =>
    cases hs
    exact Keeps.refl _
  | cons l ls ih =>
    simp only [Runs.run] at hs
    split at hs
    · next st1 hst1 =>
      obtain ⟨h1, hk⟩ := step_inv h hst1
      exact (hk i).trans (ih h1 hs)
    · cases hs

theorem session_invariant {st : State} (h : Runs.Reach Init step Runs.Any st) :
    (∀ i, (st.agent.sessions i).occupied = true →
      SessionOk (st.agent.sessions i) (st.formed i)) ∧
    ∀ ls st', Runs.run step st ls = some st' →
      ∀ i, Keeps (st.agent.sessions i) (st'.agent.sessions i) := by
  have hinv := reach_inv h
  exact ⟨fun i hi => (hinv.sessions i hi).sessionOk, fun ls st' hs i => run_keeps hinv hs i⟩

def relayCandidate : IceCandidate := ⟨1, [10, 0, 0, 1], [13, 150], iceCalcPriority 1⟩

def peerCandidate : IceCandidate := ⟨0, [10, 0, 0, 2], [200, 0], iceCalcPriority 0⟩

/-- A session that forms its only pair, checks it and gets the response. -/
def oneCheck : List Label :=
  [.start zeroKey, .addLocal 0 1 [10, 0, 0, 1] [13, 150],
    .peerInfo (List.replicate kKeySize 0 ++ [1, 0, 10, 0, 0, 2, 200, 0])
      (combinations [relayCandidate] [peerCandidate]),
    .timer fun _ => List.replicate 12 7, .stunResponse (List.replicate 12 7)]

theorem one_check_connects : ∃ st, Runs.run step {} oneCheck = some st ∧
    (st.agent.sessions 0).state = .kConnected ∧
    (∀ i, (st.agent.sessions i).occupied = true →
      SessionOk (st.agent.sessions i) (st.formed i)) ∧
    ∀ ls st', Runs.run step st ls = some st' →
      ∀ i, Keeps (st.agent.sessions i) (st'.agent.sessions i) := by
  have hrun : ((Runs.run step {} oneCheck).map fun st => (st.agent.sessions 0).state) =
      some .kConnected := by
    decide +kernel
  obtain ⟨st, hst, hstate⟩ := Option.map_eq_some_iff.mp hrun
  exact ⟨st, hst, hstate, session_invariant (Runs.reach_of_run rfl hst)⟩

end HyperDerp.IceChecks
