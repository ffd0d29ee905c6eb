import HyperDerp.WgRelay.RosterInv

/-!
# Roaming (`wg_relay.cc:714-734`, `:796-1022`, `:1063-1233`)

A committed endpoint moves only when a candidate is confirmed. What the candidate
record stands for is read off the run that led to it: the datagram that registered
it, those that refreshed its index, and the response that made it eligible. States
of a run are numbered; `stateAt i` is the relay before operation `i`.
-/

namespace HyperDerp

/-! ### What an operation does to one peer -/

structure SameRoam (p p' : WgRelayPeer) : Prop where
  name : p'.name = p.name
  endpoint : p'.endpoint = p.endpoint
  cand : p'.candidateEndpoint = p.candidateEndpoint
  setNs : p'.candidateSetNs = p.candidateSetNs
  index : p'.candidateInitSenderIndex = p.candidateInitSenderIndex
  responded : p'.candidatePartnerResponded = p.candidatePartnerResponded
  relearn : p'.lastRelearnNs = p.lastRelearnNs

theorem SameRoam.refl (p : WgRelayPeer) : SameRoam p p := ⟨rfl, rfl, rfl, rfl, rfl, rfl, rfl⟩

variable {p p' : WgRelayPeer}

theorem SameRoam.of_bare (h : p'.bare = p.bare) : SameRoam p p' where
  name := (congrArg WgRelayPeer.name h :)
  endpoint := (congrArg WgRelayPeer.endpoint h :)
  cand := (congrArg WgRelayPeer.candidateEndpoint h :)
  setNs := (congrArg WgRelayPeer.candidateSetNs h :)
  index := (congrArg WgRelayPeer.candidateInitSenderIndex h :)
  responded := (congrArg WgRelayPeer.candidatePartnerResponded h :)
  relearn := (congrArg WgRelayPeer.lastRelearnNs h :)

inductive PeerFrom (c : Libc) (r : WgRelay) (op : WgOp) (p' : WgRelayPeer) : Prop
  | kept (p : WgRelayPeer) (hp : p ∈ r.peers) (h : SameRoam p p')
  | fresh (hname : p'.name ∉ r.names) (hcand : p'.candidateEndpoint = none)
      (hrelearn : p'.lastRelearnNs = 0)
  | swept (clock : SweepClock) (hop : op = .sweep clock) (p : WgRelayPeer) (hp : p ∈ r.peers)
      (h : p' = p.swept clock.now)
  | packet (d : Datagram) (hop : op = .packet d) (p : WgRelayPeer) (hp : p ∈ r.peers)
      (h : PacketEff c r d (handlePacket c r d).2 p.bare p'.bare)

theorem exists_of_forall₂ {α β : Type} {R : α → β → Prop} {xs : List α} {ys : List β}
    (h : List.Forall₂ R xs ys) {y : β} (hy : y ∈ ys) : ∃ x ∈ xs, R x y := by
  induction h with
  | nil => cases hy
  | cons hx _ ih =>
    rw [List.mem_cons] at hy
    rcases hy with rfl | hy
    · exact ⟨_, List.mem_cons_self .., hx⟩
    · obtain ⟨x, hmem, hR⟩ := ih hy
      exact ⟨x, List.mem_cons_of_mem _ hmem, hR⟩

theorem mem_modifyFirst {α : Type} {p : α → Bool} {f : α → α} {xs : List α} {y : α}
    (h : y ∈ modifyFirst p f xs) : ∃ x ∈ xs, y = x ∨ y = f x := by
  induction xs with
  | nil => cases h
  | cons x xs ih =>
    simp only [modifyFirst] at h
    split at h
    · rw [List.mem_cons] at h
      rcases h with rfl | h
      · exact ⟨x, List.mem_cons_self .., .inr rfl⟩
      · exact ⟨y, List.mem_cons_of_mem _ h, .inl rfl⟩
    · rw [List.mem_cons] at h
      rcases h with rfl | h
      · exact ⟨y, List.mem_cons_self .., .inl rfl⟩
      · obtain ⟨x', hx', h'⟩ := ih h
        exact ⟨x', List.mem_cons_of_mem _ hx', h'⟩

theorem mem_modifyPeer_same {r : WgRelay} {name : Bytes} {f : WgRelayPeer → WgRelayPeer}
    (h : p' ∈ (r.modifyPeer name f).peers) (hf : ∀ p, SameRoam p (f p)) :
    ∃ p ∈ r.peers, SameRoam p p' := by
  obtain ⟨p, hp, heq⟩ := mem_modifyFirst h
  rcases heq with rfl | rfl
  · exact ⟨_, hp, .refl _⟩
  · exact ⟨p, hp, hf p⟩

theorem wgStep_peer {c : Libc} {r : WgRelay} {op : WgOp} (h : p' ∈ (wgStep c r op).1.peers) :
    PeerFrom c r op p' := by
  have hold : p' ∈ r.peers → PeerFrom c r op p' := fun hp => .kept p' hp (.refl p')
  have hedit : (∃ p ∈ r.peers, SameRoam p p') → PeerFrom c r op p' := by
    intro hex
    obtain ⟨p, hp, hs⟩ := hex
    exact .kept p hp hs
  cases op with
  | peerAdd name endpoint label =>
    simp only [wgStep, wgRelayPeerAdd] at h
    rcases peerAddLocked_cases c r name endpoint label with heq | ⟨q, hq, hname, -, hcand, hrelearn, -, heq⟩
    · rw [heq] at h
      exact hold h
    · rw [heq] at h
      simp only [persistRosterLocked_peers, List.mem_append, List.mem_singleton] at h
      rcases h with h | rfl
      · exact hold h
      · exact .fresh (hq ▸ hname) hcand hrelearn
  | peerKey name pubkey =>
    simp only [wgStep, wgRelayPeerKey] at h
    split at h
    · next r1 heq =>
      have hr1 : r1 = (peerKeyLocked r name pubkey).1 := (congrArg Prod.fst heq).symm
      rw [persistRosterLocked_peers, hr1] at h
      apply hedit
      apply mem_modifyPeer_same h
      exact fun _ => ⟨rfl, rfl, rfl, rfl, rfl, rfl, rfl⟩
    · next heq =>
      rw [peerKeyLocked_rejected heq] at h
      exact hold h
  | peerNic name nic =>
    simp only [wgStep, wgRelayPeerNic] at h
    split at h
    · exact hold h
    split at h
    · next r1 heq =>
      have hr1 : r1 = (peerNicLocked r name nic).1 := (congrArg Prod.fst heq).symm
      rw [persistRosterLocked_peers, (foldl_xdpInsert_tables _ _).1, hr1] at h
      apply hedit
      apply mem_modifyPeer_same h
      exact fun _ => ⟨rfl, rfl, rfl, rfl, rfl, rfl, rfl⟩
    · next heq =>
      rw [peerNicLocked_rejected heq] at h
      exact hold h
  | peerRemove name =>
    simp only [wgStep, wgRelayPeerRemove] at h
    have hsub : (peerRemoveLocked r name).1.peers.Sublist r.peers := List.eraseP_sublist
    split at h
    · next r1 heq =>
      have hr1 : r1 = (peerRemoveLocked r name).1 := (congrArg Prod.fst heq).symm
      rw [persistRosterLocked_peers, (foldl_xdpRemove_tables _ _).1, hr1] at h
      exact hold (hsub.subset h)
    · next r1 heq =>
      have hr1 : r1 = (peerRemoveLocked r name).1 := (congrArg Prod.fst heq).symm
      rw [hr1] at h
      exact hold (hsub.subset h)
  | linkAdd a b =>
    have hpeers : (wgRelayLinkAddDetail r a b).1.peers = r.peers := by
      unfold wgRelayLinkAddDetail
      rcases linkAddLocked_cases r a b with ⟨heq, hrc⟩ | ⟨-, -, -, -, heq⟩
      · cases hla : linkAddLocked r a b with
        | mk r1 rc =>
          rw [hla] at heq hrc
          cases rc <;> first | exact (hrc rfl).elim | exact congrArg WgRelay.peers heq
      · rw [heq]
        simp
    change p' ∈ (wgRelayLinkAddDetail r a b).1.peers at h
    rw [hpeers] at h
    exact hold h
  | linkRemove a b =>
    simp only [wgStep, wgRelayLinkRemove] at h
    split at h
    · next r1 heq =>
      have hr1 : r1 = (linkRemoveLocked r a b).1 := (congrArg Prod.fst heq).symm
      rw [persistRosterLocked_peers, xdpRemoveLinkByNameLocked_peers, hr1] at h
      exact hold h
    · next heq =>
      rw [linkRemoveLocked_rejected heq] at h
      exact hold h
  | packet d =>
    obtain ⟨q, hq, heff⟩ := exists_of_forall₂ (handlePacket_effect c r d) (List.mem_map_of_mem h)
    obtain ⟨p, hp, rfl⟩ := List.mem_map.1 hq
    exact .packet d rfl p hp heff
  | sweep clock =>
    obtain ⟨p, hp, heq⟩ := mem_expireCandidatesLocked h
    exact .swept clock rfl p hp heq

/-! ### The sweep of one peer -/

theorem swept_of_some {now : ℕ} {s : Sockaddr} (h : (p.swept now).candidateEndpoint = some s) :
    p.swept now = p ∧ sub64 now p.candidateSetNs ≤ kCandidateTimeoutNs := by
  unfold WgRelayPeer.swept at h ⊢
  split at h
  · cases h
  · next hexp =>
    refine ⟨if_neg hexp, ?_⟩
    unfold WgRelayPeer.expired at hexp
    rw [h, Option.isSome_some, Bool.true_and, decide_eq_true_eq] at hexp
    omega

theorem swept_of_none {now : ℕ} (h : (p.swept now).candidateEndpoint = none)
    (hp : p.candidateEndpoint ≠ none) : kCandidateTimeoutNs < sub64 now p.candidateSetNs := by
  unfold WgRelayPeer.swept at h
  split at h
  · next hexp =>
    unfold WgRelayPeer.expired at hexp
    rw [Bool.and_eq_true, decide_eq_true_eq] at hexp
    exact hexp.2
  · exact (hp h).elim

@[simp] theorem swept_lastRelearnNs (p : WgRelayPeer) (now : ℕ) :
    (p.swept now).lastRelearnNs = p.lastRelearnNs := by
  unfold WgRelayPeer.swept
  split <;> rfl

/-! ### Runs and their clock -/

/-- The reading an operation's sweep compares with; operator calls do not read the clock. -/
def opSweep : WgOp → Option ℕ
  | .packet d => some d.clock.sweep.now
  | .sweep clock => some clock.now
  | _ => none

/-- The reading at which an operation registers or confirms a candidate. -/
def opClock : WgOp → Option ℕ
  | .packet d => some d.now
  | .sweep clock => some clock.now
  | _ => none

/-- The steady clock does not go back, and it is past zero when the relay runs. -/
structure Clocked (ops : List WgOp) : Prop where
  mono : ops.Pairwise fun o o' => ∀ s ∈ opClock o, ∀ t ∈ opSweep o', s ≤ t
  within : ∀ o ∈ ops, ∀ s ∈ opSweep o, ∀ t ∈ opClock o, s ≤ t
  pos : ∀ o ∈ ops, ∀ t ∈ opClock o, 0 < t

section runs

variable (c : Libc) (r0 : WgRelay) (ops : List WgOp)

/-- The relay before operation `i`. -/
def stateAt (i : ℕ) : WgRelay := wgRun c r0 (ops.take i)

variable {c r0 ops}

variable {i j t : ℕ} {op : WgOp} {p p' : WgRelayPeer} {s : Sockaddr} {d : Datagram}
  {out : List Sent}

theorem stateAt_succ (h : ops[i]? = some op) :
    stateAt c r0 ops (i + 1) = (wgStep c (stateAt c r0 ops i) op).1 := by
  unfold stateAt wgRun
  rw [List.take_add_one, h, Option.toList_some, List.foldl_append, List.foldl_cons, List.foldl_nil]

theorem stateAt_past (h : ops[i]? = none) :
    stateAt c r0 ops (i + 1) = stateAt c r0 ops i := by
  unfold stateAt
  rw [List.take_add_one, h, Option.toList_none, List.append_nil]

theorem Clocked.le (hclock : Clocked ops) {o o' : WgOp} {s : ℕ} (hij : i < j)
    (hi : ops[i]? = some o) (hj : ops[j]? = some o') (hs : opClock o = some s)
    (ht : opSweep o' = some t) : s ≤ t := by
  obtain ⟨hilt, rfl⟩ := List.getElem?_eq_some_iff.1 hi
  obtain ⟨hjlt, rfl⟩ := List.getElem?_eq_some_iff.1 hj
  exact List.pairwise_iff_getElem.1 hclock.mono i j hilt hjlt hij s hs t ht

theorem stateAt_ok (hr0 : RosterOk r0.names r0.links) (i : ℕ) :
    RosterOk (stateAt c r0 ops i).names (stateAt c r0 ops i).links := by
  induction i with
  | zero => exact hr0
  | succ i ih =>
    cases hop : ops[i]? with
    | none =>
      rw [stateAt_past hop]
      exact ih
    | some op =>
      rw [stateAt_succ hop]
      exact (wgStep_effect c _ op).ok ih

/-! ### Events of a run -/

variable (c r0 ops)

/-- Operation `i` is a handshake initiation from `s` that the key of the link partner of
`name` verifies, with this sender index. -/
def InitAt (i : ℕ) (name : Bytes) (s : Sockaddr) (index : ℕ) : Prop :=
  ∃ d, ops[i]? = some (.packet d) ∧ d.src = s ∧ msgType d.pkt = 1 ∧ d.pkt.length = 148 ∧
    readIndex d.pkt 4 = index ∧
    ∃ dest, findLinkPartnerLocked (stateAt c r0 ops i) name = some dest ∧
      keyVerifies dest d.pkt = true

/-- Operation `i`, handled at time `t`, is such an initiation and makes `s` the candidate
of the peer, which has none once the sweep has passed. -/
def RegistersAt (i : ℕ) (name : Bytes) (s : Sockaddr) (t : ℕ) : Prop :=
  (∃ index, InitAt c r0 ops i name s index) ∧
    (∃ op u, ops[i]? = some op ∧ opClock op = some t ∧ opSweep op = some u ∧
      ∃ p ∈ (stateAt c r0 ops i).peers, p.name = name ∧ (p.swept u).candidateEndpoint = none) ∧
    ∃ p ∈ (stateAt c r0 ops (i + 1)).peers, p.name = name ∧ p.candidateEndpoint = some s ∧
      p.candidateSetNs = t

/-- Operation `k` is a response from the committed endpoint of the link partner of
`name`, with this receiver index, that is forwarded to the peer. -/
def AnsweredAt (k : ℕ) (name : Bytes) (index : ℕ) : Prop :=
  ∃ d, ops[k]? = some (.packet d) ∧ msgType d.pkt = 2 ∧ d.sendOk = true ∧
    readIndex d.pkt 8 = index ∧
    (∃ partner, findLinkPartnerLocked (stateAt c r0 ops k) name = some partner ∧
      endpointMatches partner d.src = true) ∧
    ∃ p ∈ (stateAt c r0 ops k).peers, p.name = name ∧
      (p.endpoint, d.pkt) ∈ (handlePacket c (stateAt c r0 ops k) d).2

/-- The peer is registered in every state from `j` to `i`. -/
def PresentFrom (j i : ℕ) (name : Bytes) : Prop :=
  ∀ t, j ≤ t → t ≤ i → name ∈ (stateAt c r0 ops t).names

structure Traced (i : ℕ) (p : WgRelayPeer) (s : Sockaddr) (j : ℕ) : Prop where
  lt : j < i
  registered : RegistersAt c r0 ops j p.name s p.candidateSetNs
  present : PresentFrom c r0 ops j i p.name
  index : ∃ m, j ≤ m ∧ m < i ∧ InitAt c r0 ops m p.name s p.candidateInitSenderIndex
  answered : p.candidatePartnerResponded = true →
    ∃ m k index, j ≤ m ∧ m < k ∧ k < i ∧ index ≠ 0 ∧ InitAt c r0 ops m p.name s index ∧
      AnsweredAt c r0 ops k p.name index

variable {c r0 ops}

theorem PresentFrom.snoc {name : Bytes} (h : PresentFrom c r0 ops j i name)
    (hname : name ∈ (stateAt c r0 ops (i + 1)).names) : PresentFrom c r0 ops j (i + 1) name := by
  intro t hj ht
  rcases Nat.lt_or_ge t (i + 1) with hlt | hge
  · exact h t hj (by omega)
  · have heq : t = i + 1 := by omega
    rw [heq]
    exact hname

theorem Traced.kept (h : Traced c r0 ops i p s j) (hsame : SameRoam p p')
    (hname : p'.name ∈ (stateAt c r0 ops (i + 1)).names) :
    Traced c r0 ops (i + 1) p' s j := by
  obtain ⟨hlt, hreg, hpres, ⟨m, hjm, hmi, hinit⟩, hans⟩ := h
  rw [hsame.name] at hname
  refine ⟨by omega, ?_, ?_, ⟨m, hjm, by omega, ?_⟩, fun hresp => ?_⟩
  · rw [hsame.name, hsame.setNs]
    exact hreg
  · rw [hsame.name]
    exact hpres.snoc hname
  · rw [hsame.name, hsame.index]
    exact hinit
  · rw [hsame.responded] at hresp
    obtain ⟨m', k, index, h1, h2, h3, h4, h5, h6⟩ := hans hresp
    rw [hsame.name]
    exact ⟨m', k, index, h1, h2, by omega, h4, h5, h6⟩

theorem length_of_init {pkt : Bytes} (hshape : isWgShaped pkt = true) (htype : msgType pkt = 1) :
    pkt.length = 148 := by
  cases pkt with
  | nil => cases htype
  | cons b bs =>
    have hb : b = 1 := htype
    subst hb
    exact of_decide_eq_true hshape

theorem initAt_of_key (hr0 : RosterOk r0.names r0.links) (hop : ops[i]? = some (.packet d))
    (hshape : isWgShaped d.pkt = true) (htype : msgType d.pkt = 1) {dest : WgRelayPeer}
    {name : Bytes} (hdest : dest ∈ (stateAt c r0 ops i).peers)
    (hkey : keyVerifies dest d.pkt = true) (hlink : Linked (stateAt c r0 ops i) dest.name name) :
    InitAt c r0 ops i name d.src (readIndex d.pkt 4) :=
  ⟨d, hop, rfl, htype, length_of_init hshape htype, rfl, dest,
    findLinkPartnerLocked_of_linked (stateAt_ok hr0 i) hlink.symm hdest, hkey⟩

theorem traced_packet (hr0 : RosterOk r0.names r0.links)
    (hop : ops[i]? = some (.packet d))
    (hp : p ∈ (stateAt c r0 ops i).peers) (hp' : p' ∈ (stateAt c r0 ops (i + 1)).peers)
    (heff : PacketEff c (stateAt c r0 ops i) d (handlePacket c (stateAt c r0 ops i) d).2
      p.bare p'.bare)
    (ih : ∀ s, p.candidateEndpoint = some s → ∃ j, Traced c r0 ops i p s j)
    (hs : p'.candidateEndpoint = some s) : ∃ j, Traced c r0 ops (i + 1) p' s j := by
  have hname' : p'.name ∈ (stateAt c r0 ops (i + 1)).names := List.mem_map_of_mem hp'
  have hsame : SameRoam p p' → ∃ j, Traced c r0 ops (i + 1) p' s j := by
    intro h
    obtain ⟨j, hj⟩ := ih s (h.cand ▸ hs)
    exact ⟨j, hj.kept h hname'⟩
  rcases heff with heq | ⟨hshape, heff⟩
  · exact hsame (.of_bare heq)
  have hpn : (p.bare.swept d.clock.sweep.now).name = p.name := swept_name _ _
  generalize hq : p.bare.swept d.clock.sweep.now = q at heff hpn
  generalize hq' : p'.bare = q' at heff
  -- while `q` still has a candidate, the sweep has left the peer alone
  have hkept : ∀ s', q.candidateEndpoint = some s' → q = p.bare := by
    intro s' h
    rw [← hq] at h
    rw [← hq]
    exact (swept_of_some h).1
  have hcand' : q'.candidateEndpoint = some s := by
    rw [← hq']
    exact hs
  cases heff with
  | idle =>
    apply hsame
    apply SameRoam.of_bare
    rw [hq']
    exact hkept s hcand'
  | registered dest hdest hkey hlink htype hnone hcool =>
    rw [hpn] at hlink
    have hinit := initAt_of_key hr0 hop hshape htype hdest hkey hlink
    have hsrc : s = d.src := (Option.some.inj hcand').symm
    have hpname : p'.name = p.name := by
      rw [← hpn]
      exact (congrArg WgRelayPeer.name hq' :)
    have hset : p'.candidateSetNs = d.now := (congrArg WgRelayPeer.candidateSetNs hq' :)
    have hidx : p'.candidateInitSenderIndex = readIndex d.pkt 4 :=
      (congrArg WgRelayPeer.candidateInitSenderIndex hq' :)
    have hresp : p'.candidatePartnerResponded = false :=
      (congrArg WgRelayPeer.candidatePartnerResponded hq' :)
    have hswept : (p.swept d.clock.sweep.now).candidateEndpoint = none := by
      have hb : (p.swept d.clock.sweep.now).candidateEndpoint =
          (p.bare.swept d.clock.sweep.now).candidateEndpoint :=
        (congrArg WgRelayPeer.candidateEndpoint (swept_bare p _) :)
      rw [hb, hq]
      exact hnone
    subst hsrc
    refine ⟨i, by omega, ?_, ?_, ⟨i, le_refl i, by omega, ?_⟩, fun h => ?_⟩
    · rw [hpname, hset]
      exact ⟨⟨_, hinit⟩, ⟨_, _, hop, rfl, rfl, p, hp, rfl, hswept⟩, p', hp', hpname, hs, hset⟩
    · intro t h1 h2
      rcases Nat.lt_or_ge t (i + 1) with hlt | hge
      · have heq : t = i := by omega
        rw [heq, hpname]
        exact List.mem_map_of_mem hp
      · have heq : t = i + 1 := by omega
        rw [heq]
        exact hname'
    · rw [hpname, hidx]
      exact hinit
    · rw [hresp] at h
      cases h
  | retried dest hdest hkey hlink htype hcand =>
    rw [hpn] at hlink
    have hinit := initAt_of_key hr0 hop hshape htype hdest hkey hlink
    have hsrc : s = d.src := Option.some.inj (hcand'.symm.trans hcand)
    have hqp := hkept d.src hcand
    subst hqp
    subst hsrc
    obtain ⟨j, hlt, hreg, hpres, -, hans⟩ := ih d.src hcand
    have hpname : p'.name = p.name := (congrArg WgRelayPeer.name hq' :)
    have hset : p'.candidateSetNs = p.candidateSetNs :=
      (congrArg WgRelayPeer.candidateSetNs hq' :)
    have hidx : p'.candidateInitSenderIndex = readIndex d.pkt 4 :=
      (congrArg WgRelayPeer.candidateInitSenderIndex hq' :)
    have hresp : p'.candidatePartnerResponded = p.candidatePartnerResponded :=
      (congrArg WgRelayPeer.candidatePartnerResponded hq' :)
    refine ⟨j, by omega, ?_, ?_, ⟨i, by omega, by omega, ?_⟩, fun h => ?_⟩
    · rw [hpname, hset]
      exact hreg
    · rw [hpname] at hname' ⊢
      exact hpres.snoc hname'
    · rw [hpname, hidx]
      exact hinit
    · rw [hresp] at h
      obtain ⟨m, k, index, h1, h2, h3, h4, h5, h6⟩ := hans h
      rw [hpname]
      exact ⟨m, k, index, h1, h2, by omega, h4, h5, h6⟩
  | responded src hsrc hmatch hlink htype hsent hout hidx hrecv =>
    have hqp := hkept s hcand'
    subst hqp
    obtain ⟨j, hlt, hreg, hpres, ⟨m, hjm, hmi, hinit⟩, -⟩ := ih s hcand'
    have hpname : p'.name = p.name := (congrArg WgRelayPeer.name hq' :)
    have hset : p'.candidateSetNs = p.candidateSetNs :=
      (congrArg WgRelayPeer.candidateSetNs hq' :)
    have hidx' : p'.candidateInitSenderIndex = p.candidateInitSenderIndex :=
      (congrArg WgRelayPeer.candidateInitSenderIndex hq' :)
    have hpart := findLinkPartnerLocked_of_linked (stateAt_ok hr0 i) hlink.symm hsrc
    refine ⟨j, by omega, ?_, ?_, ⟨m, hjm, by omega, ?_⟩, fun _ => ?_⟩
    · rw [hpname, hset]
      exact hreg
    · rw [hpname] at hname' ⊢
      exact hpres.snoc hname'
    · rw [hpname, hidx']
      exact hinit
    · rw [hpname]
      exact ⟨m, i, p.candidateInitSenderIndex, hjm, hmi, by omega, hidx, hinit,
        d, hop, htype, hsent, hrecv, ⟨src, hpart, hmatch⟩, p, hp, rfl, hout⟩
  | confirmed htype hcand hresp hnew => cases hcand'

theorem candidate_traced (hr0 : RosterOk r0.names r0.links)
    (hnone : ∀ p ∈ r0.peers, p.candidateEndpoint = none) (i : ℕ) :
    ∀ p ∈ (stateAt c r0 ops i).peers, ∀ s, p.candidateEndpoint = some s →
      ∃ j, Traced c r0 ops i p s j := by
  induction i with
  | zero =>
    intro p hp s hs
    rw [hnone p hp] at hs
    cases hs
  | succ i ih =>
    intro p' hp' s hs
    have hname' : p'.name ∈ (stateAt c r0 ops (i + 1)).names := List.mem_map_of_mem hp'
    cases hop : ops[i]? with
    | none =>
      have hp := hp'
      rw [stateAt_past hop] at hp
      obtain ⟨j, hj⟩ := ih p' hp s hs
      exact ⟨j, hj.kept (.refl p') hname'⟩
    | some op =>
      have hfrom := hp'
      rw [stateAt_succ hop] at hfrom
      cases wgStep_peer hfrom with
      | kept p hp hsame =>
        obtain ⟨j, hj⟩ := ih p hp s (hsame.cand ▸ hs)
        exact ⟨j, hj.kept hsame hname'⟩
      | fresh hname hcand _ =>
        rw [hcand] at hs
        cases hs
      | swept clock hsweep p hp heq =>
        rw [heq] at hs
        have hpp : p' = p := heq.trans (swept_of_some hs).1
        rw [← heq, hpp] at hs
        obtain ⟨j, hj⟩ := ih p hp s hs
        rw [hpp]
        exact ⟨j, hj.kept (.refl p) (hpp ▸ hname')⟩
      | packet d hpkt p hp heff =>
        rw [hpkt] at hop
        exact traced_packet hr0 hop hp hp' heff (ih p hp) hs

/-! ### A committed endpoint moves -/

theorem peer_eq_of_name (hr0 : RosterOk r0.names r0.links) {q : WgRelayPeer}
    (hp : p ∈ (stateAt c r0 ops i).peers) (hq : q ∈ (stateAt c r0 ops i).peers)
    (h : q.name = p.name) : q = p :=
  List.inj_on_of_nodup_map (stateAt_ok hr0 i).nodup hq hp h

theorem PacketEff.name {r : WgRelay} {q q' : WgRelayPeer} (h : PacketEff c r d out q q') :
    q'.name = q.name := by
  rcases h with rfl | ⟨-, h⟩
  · rfl
  · rw [← swept_name q d.clock.sweep.now]
    cases h <;> rfl

theorem PacketEff.endpoint {r : WgRelay} (h : PacketEff c r d out p.bare p'.bare)
    (hne : p'.endpoint ≠ p.endpoint) :
    isWgShaped d.pkt = true ∧ msgType d.pkt = 4 ∧ p'.endpoint = d.src ∧
      p.candidateEndpoint = some d.src ∧ p.candidatePartnerResponded = true ∧
      sub64 d.clock.sweep.now p.candidateSetNs ≤ kCandidateTimeoutNs := by
  rcases h with heq | ⟨hshape, heff⟩
  · exact (hne (SameRoam.of_bare heq).endpoint).elim
  have hep : (p.bare.swept d.clock.sweep.now).endpoint = p.endpoint := swept_endpoint _ _
  generalize hq : p.bare.swept d.clock.sweep.now = q at heff hep
  generalize hq' : p'.bare = q' at heff
  have hep' : p'.endpoint = q'.endpoint := (congrArg WgRelayPeer.endpoint hq' :)
  rw [hep', ← hep] at hne
  cases heff with
  | idle => exact (hne rfl).elim
  | registered dest hdest hkey hlink htype hnone hcool => exact (hne rfl).elim
  | retried dest hdest hkey hlink htype hcand => exact (hne rfl).elim
  | responded src hsrc hmatch hlink htype hsent hout hidx hrecv => exact (hne rfl).elim
  | confirmed htype hcand hresp hnew =>
    have hsome := hcand
    rw [← hq] at hsome
    obtain ⟨hqp, htime⟩ := swept_of_some hsome
    rw [hq] at hqp
    subst hqp
    exact ⟨hshape, htype, hep', hcand, hresp, htime⟩

theorem set_before (hr0 : RosterOk r0.names r0.links)
    (hnone : ∀ p ∈ r0.peers, p.candidateEndpoint = none) (hclk : Clocked ops) {u : ℕ}
    (hop : ops[i]? = some op) (hu : opSweep op = some u) (hp : p ∈ (stateAt c r0 ops i).peers)
    (hsome : p.candidateEndpoint ≠ none) :
    p.candidateSetNs ≤ u := by
  obtain ⟨s, hs⟩ := Option.ne_none_iff_exists'.1 hsome
  obtain ⟨j, hj⟩ := candidate_traced hr0 hnone i p hp s hs
  obtain ⟨opj, -, hopj, hclkj, -⟩ := hj.registered.2.1
  exact hclk.le hj.lt hopj hop hclkj hu

/-- Why the endpoint of the peer may move to `s` with operation `i`, whose sweep reads `now`. -/
structure RoamsAt (c : Libc) (r0 : WgRelay) (ops : List WgOp) (i : ℕ) (name : Bytes)
    (s : Sockaddr) (now : ℕ) : Prop where
  /-- A transport message from `s`, no more than the timeout after `s` was registered;
  since then the partner has answered an initiation from `s`. -/
  confirmed : ∃ d j t, ops[i]? = some (.packet d) ∧ d.clock.sweep.now = now ∧ d.src = s ∧
    isWgShaped d.pkt = true ∧ msgType d.pkt = 4 ∧
    j < i ∧ RegistersAt c r0 ops j name s t ∧ now ≤ t + kCandidateTimeoutNs ∧
    PresentFrom c r0 ops j i name ∧
    ∃ m k index, j ≤ m ∧ m < k ∧ k < i ∧ index ≠ 0 ∧ InitAt c r0 ops m name s index ∧
      AnsweredAt c r0 ops k name index

theorem endpoint_moves (hr0 : RosterOk r0.names r0.links)
    (hnone : ∀ p ∈ r0.peers, p.candidateEndpoint = none) (hclk : Clocked ops) {now : ℕ}
    (hop : ops[i]? = some op) (hclock : opSweep op = some now) (hp : p ∈ (stateAt c r0 ops i).peers)
    (hp' : p' ∈ (stateAt c r0 ops (i + 1)).peers) (hname : p'.name = p.name)
    (hne : p'.endpoint ≠ p.endpoint) :
    RoamsAt c r0 ops i p.name p'.endpoint now := by
  have hfrom := hp'
  rw [stateAt_succ hop] at hfrom
  cases wgStep_peer hfrom with
  | kept q hq hsame =>
    have hqp := peer_eq_of_name hr0 hp hq (hsame.name.symm.trans hname)
    subst hqp
    exact (hne hsame.endpoint).elim
  | fresh hfresh => exact (hfresh (hname ▸ List.mem_map_of_mem hp)).elim
  | swept t hsweep q hq heq =>
    have hqp := peer_eq_of_name hr0 hp hq (by rw [← hname, heq, swept_name])
    subst hqp
    rw [heq, swept_endpoint] at hne
    exact (hne rfl).elim
  | packet d hpkt q hq heff =>
    have hqp := peer_eq_of_name hr0 hp hq (heff.name.symm.trans hname)
    subst hqp
    subst hpkt
    have hnow : d.clock.sweep.now = now := Option.some.inj hclock
    obtain ⟨hshape, htype, hsrc, hcand, hresp, htime⟩ := heff.endpoint hne
    have hset := set_before hr0 hnone hclk hop hclock hq (by rw [hcand]; nofun)
    rw [hnow, sub64_of_le hset] at htime
    obtain ⟨j, hlt, hreg, hpres, -, hans⟩ := candidate_traced hr0 hnone i q hq d.src hcand
    rw [hsrc]
    exact ⟨d, j, q.candidateSetNs, hop, hnow, rfl, hshape, htype, hlt, hreg, by omega, hpres,
      hans hresp⟩

/-! ### Registrations are spaced -/

variable (c r0 ops) in
/-- What the peer's record says about an earlier registration at `t`: it is pending, or
was confirmed at or after `t`, or the clock has passed its timeout. -/
def RegAccounted (i : ℕ) (p : WgRelayPeer) (t : ℕ) : Prop :=
  (p.candidateEndpoint ≠ none ∧ t ≤ p.candidateSetNs) ∨
    (p.lastRelearnNs ≠ 0 ∧ t ≤ p.lastRelearnNs) ∨
    ∃ k op u, k < i ∧ ops[k]? = some op ∧ opSweep op = some u ∧ t + kCandidateTimeoutNs < u

theorem RegAccounted.same (h : RegAccounted ops i p t) (hsame : SameRoam p p') :
    RegAccounted ops (i + 1) p' t := by
  rcases h with ⟨h1, h2⟩ | ⟨h1, h2⟩ | ⟨k, op, u, h1, h2, h3, h4⟩
  · exact .inl ⟨hsame.cand ▸ h1, hsame.setNs ▸ h2⟩
  · exact .inr (.inl ⟨hsame.relearn ▸ h1, hsame.relearn ▸ h2⟩)
  · exact .inr (.inr ⟨k, op, u, by omega, h2, h3, h4⟩)

theorem RegAccounted.swept {now : ℕ} (h : RegAccounted ops i p t) (hop : ops[i]? = some op)
    (hclock : opSweep op = some now) (hset : p.candidateEndpoint ≠ none → p.candidateSetNs ≤ now) :
    RegAccounted ops (i + 1) (p.swept now) t := by
  cases hs : (p.swept now).candidateEndpoint with
  | some s => 
    rw [(swept_of_some hs).1]
    exact h.same (.refl p)
  | none =>
    rcases h with ⟨h1, h2⟩ | ⟨h1, h2⟩ | ⟨k, op', u, h1, h2, h3, h4⟩
    · have hexp := swept_of_none hs h1
      rw [sub64_of_le (hset h1)] at hexp
      exact .inr (.inr ⟨i, op, now, by omega, hop, hclock, by omega⟩)
    · exact .inr (.inl (by rw [swept_lastRelearnNs]; exact ⟨h1, h2⟩))
    · exact .inr (.inr ⟨k, op', u, by omega, h2, h3, h4⟩)

theorem RegistersAt.clock {name : Bytes} (h : RegistersAt c r0 ops i name s t) :
    ∃ op u, ops[i]? = some op ∧ opClock op = some t ∧ opSweep op = some u := by
  obtain ⟨op, u, hop, hclock, hsweep, -⟩ := h.2.1
  exact ⟨op, u, hop, hclock, hsweep⟩

theorem accounted_packet (hclk : Clocked ops) (hop : ops[i]? = some (.packet d)) {r : WgRelay}
    (heff : PacketEff c r d out p.bare p'.bare) (ht : t ≤ d.now)
    (hset : p.candidateEndpoint ≠ none → p.candidateSetNs ≤ d.clock.sweep.now)
    (h : RegAccounted ops i p t) : RegAccounted ops (i + 1) p' t := by
  rcases heff with heq | ⟨-, heff⟩
  · exact h.same (.of_bare heq)
  have hb : RegAccounted ops i p.bare t := h
  have hq := hb.swept hop rfl hset
  generalize p.bare.swept d.clock.sweep.now = q at heff hq
  generalize hq' : p'.bare = q' at heff
  have hgoal : RegAccounted ops (i + 1) q' t → RegAccounted ops (i + 1) p' t := by
    intro hacc
    rw [← hq'] at hacc
    exact hacc
  apply hgoal
  cases heff with
  | idle => exact hq
  | registered dest hdest hkey hlink htype hnone hcool => exact .inl ⟨nofun, ht⟩
  | retried dest hdest hkey hlink htype hcand => exact hq
  | responded src hsrc hmatch hlink htype hsent hout hidx hrecv => exact hq
  | confirmed htype hcand hresp hnew =>
    have hpos := hclk.pos _ (List.mem_of_getElem? hop) d.now rfl
    exact .inr (.inl ⟨Nat.ne_of_gt hpos, ht⟩)

theorem registrations_accounted (hr0 : RosterOk r0.names r0.links)
    (hnone : ∀ p ∈ r0.peers, p.candidateEndpoint = none) (hclk : Clocked ops) {name : Bytes}
    (hreg : RegistersAt c r0 ops j name s t) (i : ℕ) (hji : j < i)
    (hpres : PresentFrom c r0 ops j i name) :
    ∀ p ∈ (stateAt c r0 ops i).peers, p.name = name → RegAccounted ops i p t := by
  induction i with
  | zero => omega
  | succ i ih =>
    intro p' hp' hname
    rcases Nat.lt_or_ge j i with hlt | hge
    · have hpres' : PresentFrom c r0 ops j i name := fun t h1 h2 => hpres t h1 (by omega)
      have ih' := ih hlt hpres'
      cases hop : ops[i]? with
      | none =>
        have hp := hp'
        rw [stateAt_past hop] at hp
        exact (ih' p' hp hname).same (.refl p')
      | some op =>
        have hfrom := hp'
        rw [stateAt_succ hop] at hfrom
        cases wgStep_peer hfrom with
        | kept q hq hsame => exact (ih' q hq (hsame.name.symm.trans hname)).same hsame
        | fresh hfresh =>
          exact (hfresh (hname ▸ hpres i (by omega) (by omega))).elim
        | swept u hsweep q hq heq =>
          have hqname : q.name = name := by rw [← hname, heq, swept_name]
          subst hsweep
          rw [heq]
          exact (ih' q hq hqname).swept hop rfl (set_before hr0 hnone hclk hop rfl hq)
        | packet d hpkt q hq heff =>
          subst hpkt
          obtain ⟨opj, -, hopj, hclkj, -⟩ := hreg.clock
          have ht : t ≤ d.now := (hclk.le hlt hopj hop hclkj rfl).trans
            (hclk.within _ (List.mem_of_getElem? hop) _ rfl _ rfl)
          exact accounted_packet hclk hop heff ht (set_before hr0 hnone hclk hop rfl hq)
            (ih' q hq (heff.name.symm.trans hname))
    · -- the registration itself is the last operation
      have hij : i = j := by omega
      subst hij
      obtain ⟨-, -, q, hq, hqname, hcand, hset⟩ := hreg
      have hpq := peer_eq_of_name hr0 hq hp' (hname.trans hqname.symm)
      subst hpq
      exact .inl ⟨by rw [hcand]; nofun, by omega⟩

theorem RegistersAt.cooled (hr0 : RosterOk r0.names r0.links)
    (h0 : ∀ p ∈ r0.peers, p.candidateEndpoint = none) (hclk : Clocked ops) {name : Bytes}
    (h : RegistersAt c r0 ops i name s t) :
    ∃ op u, ops[i]? = some op ∧ opSweep op = some u ∧
      ∃ p ∈ (stateAt c r0 ops i).peers, p.name = name ∧ (p.swept u).candidateEndpoint = none ∧
        (p.lastRelearnNs = 0 ∨ kRelearnCooldownNs ≤ sub64 t p.lastRelearnNs) := by
  obtain ⟨⟨index, d, hop, -⟩, ⟨op, u, hop', hclock, hsweep, p, hp, hpname, hnone⟩, p', hp', hname',
    hcand, hset⟩ := h
  rw [hop] at hop'
  cases hop'
  have hnow : d.now = t := Option.some.inj hclock
  have hu : d.clock.sweep.now = u := Option.some.inj hsweep
  subst hnow hu
  refine ⟨_, _, hop, rfl, p, hp, hpname, hnone, ?_⟩
  have hfrom := hp'
  rw [stateAt_succ hop] at hfrom
  -- a candidate set at this very reading cannot have run out
  have hstuck : ∀ q ∈ (stateAt c r0 ops i).peers, q.candidateEndpoint = some s →
      q.candidateSetNs = d.now → (q.swept d.clock.sweep.now).candidateEndpoint = none → False := by
    intro q hq h1 h2 h3
    have hsome : q.candidateEndpoint ≠ none := by rw [h1]; nofun
    have h4 := swept_of_none h3 hsome
    have h5 := set_before hr0 h0 hclk hop rfl hq hsome
    have h6 := hclk.within _ (List.mem_of_getElem? hop) _ rfl d.now rfl
    rw [sub64_of_le h5] at h4
    omega
  cases wgStep_peer hfrom with
  | kept q hq hsame =>
    have hqp := peer_eq_of_name hr0 hp hq (hsame.name.symm.trans (hname'.trans hpname.symm))
    subst hqp
    exact (hstuck q hq (hsame.cand ▸ hcand) (hsame.setNs ▸ hset) hnone).elim
  | fresh hfresh hcand' _ =>
    rw [hcand'] at hcand
    cases hcand
  | swept u hsweep q hq heq => cases hsweep
  | packet d' hpkt q hq heff =>
    cases hpkt
    have hqp := peer_eq_of_name hr0 hp hq
      ((PacketEff.name heff).symm.trans (hname'.trans hpname.symm))
    subst hqp
    rcases heff with heq | ⟨-, heff⟩
    · have hsame := SameRoam.of_bare heq
      exact (hstuck q hq (hsame.cand ▸ hcand) (hsame.setNs ▸ hset) hnone).elim
    have hqnone : (q.bare.swept d.clock.sweep.now).candidateEndpoint = none := by
      rw [← swept_bare]
      exact hnone
    have hlast : (q.bare.swept d.clock.sweep.now).lastRelearnNs = q.lastRelearnNs :=
      swept_lastRelearnNs _ _
    generalize q.bare.swept d.clock.sweep.now = m at heff hqnone hlast
    generalize hq' : p'.bare = m' at heff
    have hcand' : m'.candidateEndpoint = some s := by
      rw [← hq']
      exact hcand
    cases heff with
    | idle => rw [hqnone] at hcand'; cases hcand'
    | registered dest hdest hkey hlink htype hnone' hcool =>
      rw [hlast] at hcool
      exact hcool
    | retried dest hdest hkey hlink htype hcand'' => rw [hqnone] at hcand''; cases hcand''
    | responded src hsrc hmatch hlink htype hsent hout hidx hrecv =>
      have hm : m.candidateEndpoint = some s := hcand'
      rw [hqnone] at hm
      cases hm
    | confirmed htype hcand'' hresp hnew => rw [hqnone] at hcand''; cases hcand''

theorem relearn_traced (hzero : ∀ p ∈ r0.peers, p.lastRelearnNs = 0) (i : ℕ) :
    ∀ p ∈ (stateAt c r0 ops i).peers, p.lastRelearnNs ≠ 0 →
      ∃ k op, k < i ∧ ops[k]? = some op ∧ opClock op = some p.lastRelearnNs := by
  induction i with
  | zero =>
    intro p hp hne
    exact (hne (hzero p hp)).elim
  | succ i ih =>
    have hearlier : ∀ p ∈ (stateAt c r0 ops i).peers, ∀ last, p.lastRelearnNs = last → last ≠ 0 →
        ∃ k op, k < i + 1 ∧ ops[k]? = some op ∧ opClock op = some last := by
      rintro p hp _ rfl hne
      obtain ⟨k, op, hk, hop⟩ := ih p hp hne
      exact ⟨k, op, by omega, hop⟩
    intro p' hp' hne
    cases hop : ops[i]? with
    | none =>
      rw [stateAt_past hop] at hp'
      exact hearlier p' hp' _ rfl hne
    | some op =>
      rw [stateAt_succ hop] at hp'
      cases wgStep_peer hp' with
      | kept q hq hsame => exact hearlier q hq _ hsame.relearn.symm hne
      | fresh _ _ hrelearn => exact (hne hrelearn).elim
      | swept clock _ q hq heq =>
        exact hearlier q hq _ (by rw [heq, swept_lastRelearnNs]) hne
      | packet d hpkt q hq heff =>
        rcases heff with heq | ⟨-, heff⟩
        · exact hearlier q hq _ (SameRoam.of_bare heq).relearn.symm hne
        have hlast : (q.bare.swept d.clock.sweep.now).lastRelearnNs = q.lastRelearnNs :=
          swept_lastRelearnNs _ _
        generalize q.bare.swept d.clock.sweep.now = m at heff hlast
        generalize hq' : p'.bare = m' at heff
        have hp'' : p'.lastRelearnNs = m'.lastRelearnNs :=
          (congrArg WgRelayPeer.lastRelearnNs hq' :)
        rw [hp''] at hne ⊢
        cases heff with
        | idle | registered | retried | responded => exact hearlier q hq _ hlast.symm hne
        | confirmed => exact ⟨i, op, by omega, hop, by rw [hpkt]; rfl⟩

theorem registrations_spaced (hr0 : RosterOk r0.names r0.links)
    (h0 : ∀ p ∈ r0.peers, p.candidateEndpoint = none ∧ p.lastRelearnNs = 0) (hclk : Clocked ops)
    {t' : ℕ} {name : Bytes} {s' : Sockaddr} (hj : RegistersAt c r0 ops j name s t)
    (hi : RegistersAt c r0 ops i name s' t') (hji : j < i) (hpres : PresentFrom c r0 ops j i name) :
    t + kRelearnCooldownNs ≤ t' := by
  have hnone0 : ∀ p ∈ r0.peers, p.candidateEndpoint = none := fun p hp => (h0 p hp).1
  obtain ⟨op, u, hop, hu, p, hp, hname, hnone, hcool⟩ := hi.cooled hr0 hnone0 hclk
  obtain ⟨opi, ui, hopi, hclki, hui⟩ := hi.clock
  rw [hop] at hopi
  cases hopi
  rw [hu] at hui
  cases hui
  have hut : u ≤ t' := hclk.within _ (List.mem_of_getElem? hop) u hu t' hclki
  have hlong : kRelearnCooldownNs < kCandidateTimeoutNs := by decide
  rcases registrations_accounted hr0 hnone0 hclk hj i hji hpres p hp hname with
    ⟨h1, h2⟩ | ⟨h1, h2⟩ | ⟨k, opk, v, h1, h2, h3, h4⟩
  · have h3 := swept_of_none hnone h1
    rw [sub64_of_le (set_before hr0 hnone0 hclk hop hu hp h1)] at h3
    omega
  · obtain ⟨k, opk, hk, hopk, hclkk⟩ := relearn_traced (fun p hp => (h0 p hp).2) i p hp h1
    have hlast : p.lastRelearnNs ≤ t' := (hclk.le hk hopk hop hclkk hu).trans hut
    rcases hcool with hcool | hcool
    · exact (h1 hcool).elim
    · rw [sub64_of_le hlast] at hcool
      have hpos : 0 < kRelearnCooldownNs := by decide
      omega
  · -- the sweep that saw the timeout is an earlier operation's
    obtain ⟨hklt, rfl⟩ := List.getElem?_eq_some_iff.1 h2
    have hsome : ∃ w, opClock ops[k] = some w := by
      cases hk : ops[k] <;> simp_all [opClock, opSweep]
    obtain ⟨w, hw⟩ := hsome
    have h5 := hclk.within _ (List.getElem_mem hklt) v h3 w hw
    have h6 := hclk.le h1 h2 hop hw hu
    omega

theorem candidate_stays (hr0 : RosterOk r0.names r0.links)
    (hnone : ∀ p ∈ r0.peers, p.candidateEndpoint = none) (hclk : Clocked ops)
    (hop : ops[i]? = some op) (hp : p ∈ (stateAt c r0 ops i).peers)
    (hp' : p' ∈ (stateAt c r0 ops (i + 1)).peers) (hname : p'.name = p.name)
    (hs : p.candidateEndpoint = some s) :
    p'.candidateEndpoint = some s ∨
      (∃ now, opSweep op = some now ∧ p.candidateSetNs + kCandidateTimeoutNs < now) ∨
      ∃ d, op = .packet d ∧ d.src = s ∧ msgType d.pkt = 4 ∧ p'.candidateEndpoint = none ∧
        p'.endpoint = s := by
  have hsome : p.candidateEndpoint ≠ none := by rw [hs]; nofun
  have hexpired : ∀ now, opSweep op = some now → kCandidateTimeoutNs < sub64 now p.candidateSetNs →
      p.candidateSetNs + kCandidateTimeoutNs < now := by
    intro now hnow h
    rw [sub64_of_le (set_before hr0 hnone hclk hop hnow hp hsome)] at h
    omega
  have hfrom := hp'
  rw [stateAt_succ hop] at hfrom
  cases wgStep_peer hfrom with
  | kept q hq hsame =>
    have hqp := peer_eq_of_name hr0 hp hq (hsame.name.symm.trans hname)
    subst hqp
    exact .inl (hsame.cand.trans hs)
  | fresh hfresh => exact (hfresh (hname ▸ List.mem_map_of_mem hp)).elim
  | swept clock hsweep q hq heq =>
    have hqp := peer_eq_of_name hr0 hp hq (by rw [← hname, heq, swept_name])
    subst hqp
    subst hsweep
    cases hsw : (q.swept clock.now).candidateEndpoint with
    | none => exact .inr (.inl ⟨_, rfl, hexpired _ rfl (swept_of_none hsw hsome)⟩)
    | some s' =>
      rw [heq, (swept_of_some hsw).1]
      exact .inl hs
  | packet d hpkt q hq heff =>
    have hqp := peer_eq_of_name hr0 hp hq (heff.name.symm.trans hname)
    subst hqp
    subst hpkt
    rcases heff with heq | ⟨-, heff⟩
    · exact .inl ((SameRoam.of_bare heq).cand.trans hs)
    cases hsw : (q.bare.swept d.clock.sweep.now).candidateEndpoint with
    | none =>
      have hexp := swept_of_none hsw hsome
      exact .inr (.inl ⟨_, rfl, hexpired _ rfl hexp⟩)
    | some s' =>
      have hqs := (swept_of_some hsw).1
      rw [hqs] at heff hsw
      have hss : s' = s := Option.some.inj (hsw.symm.trans hs)
      subst hss
      generalize hm : q.bare = m at heff
      generalize hm' : p'.bare = m' at heff
      have hms : m.candidateEndpoint = some s' := by
        rw [← hm]
        exact hs
      have hc : p'.candidateEndpoint = m'.candidateEndpoint :=
        (congrArg WgRelayPeer.candidateEndpoint hm' :)
      rw [hc]
      cases heff with
      | idle => exact .inl hms
      | registered dest hdest hkey hlink htype hnone hcool => rw [hnone] at hms; cases hms
      | retried dest hdest hkey hlink htype hcand => exact .inl hms
      | responded src hsrc hmatch hlink htype hsent hout hidx hrecv => exact .inl hms
      | confirmed htype hcand hresp hnew =>
        have hsrc : d.src = s' := Option.some.inj (hcand.symm.trans hms)
        have hep : p'.endpoint = d.src := (congrArg WgRelayPeer.endpoint hm' :)
        exact .inr (.inr ⟨d, rfl, hsrc, htype, rfl, hep.trans hsrc⟩)

end runs

/-! ### Main result -/

theorem candidates_none_kept (c : Libc) :
    KeptByRoster c fun r => ∀ p ∈ r.peers, p.candidateEndpoint = none ∧ p.lastRelearnNs = 0 where
  add r name endpoint label h := by
    rcases peerAddLocked_cases c r name endpoint label with heq | ⟨q, -, -, -, hcand, hrelearn, -, heq⟩
    · rw [heq]
      exact h
    · rw [heq]
      intro p hp
      rw [List.mem_append, List.mem_singleton] at hp
      rcases hp with hp | rfl
      · exact h p hp
      · exact ⟨hcand, hrelearn⟩
  key r name pubkey h := by
    intro p hp
    obtain ⟨q, hq, heq⟩ := mem_modifyFirst hp
    rcases heq with rfl | rfl
    · exact h _ hq
    · exact h q hq
  nic r name nic h := by
    intro p hp
    obtain ⟨q, hq, heq⟩ := mem_modifyFirst hp
    rcases heq with rfl | rfl
    · exact h _ hq
    · exact h q hq
  remove r name h := fun p hp => h p (List.eraseP_sublist.subset hp)
  link r a b h := by
    rcases linkAddLocked_cases r a b with ⟨heq, -⟩ | ⟨-, -, -, -, heq⟩
    · rw [heq]
      exact h
    · rw [heq]
      exact h
  persist r h := by
    rw [persistRosterLocked_peers]
    exact h

/-- What a run of the relay guarantees about endpoints and candidates. -/
structure RoamingSafe (c : Libc) (r0 : WgRelay) (ops : List WgOp) : Prop where
  /-- An endpoint moves, other than by an operator call, only to a source that was
  registered, answered and then confirmed. -/
  moves : ∀ i op now p p', ops[i]? = some op → opSweep op = some now →
    p ∈ (stateAt c r0 ops i).peers → p' ∈ (stateAt c r0 ops (i + 1)).peers → p'.name = p.name →
    p'.endpoint ≠ p.endpoint → RoamsAt c r0 ops i p.name p'.endpoint now
  /-- Two registrations for a peer are at least the cooldown apart. -/
  spaced : ∀ j i name s s' t t', RegistersAt c r0 ops j name s t →
    RegistersAt c r0 ops i name s' t' → j < i → PresentFrom c r0 ops j i name →
    t + kRelearnCooldownNs ≤ t'
  /-- A pending candidate stays until it has timed out or is confirmed. -/
  pending : ∀ i op p p' s, ops[i]? = some op → p ∈ (stateAt c r0 ops i).peers →
    p' ∈ (stateAt c r0 ops (i + 1)).peers → p'.name = p.name → p.candidateEndpoint = some s →
    p'.candidateEndpoint = some s ∨
      (∃ now, opSweep op = some now ∧ p.candidateSetNs + kCandidateTimeoutNs < now) ∨
      ∃ d, op = .packet d ∧ d.src = s ∧ msgType d.pkt = 4 ∧ p'.candidateEndpoint = none ∧
        p'.endpoint = s

theorem roamingSafe_of_quiet {c : Libc} {r0 : WgRelay} {ops : List WgOp}
    (hr0 : RosterOk r0.names r0.links)
    (h0 : ∀ p ∈ r0.peers, p.candidateEndpoint = none ∧ p.lastRelearnNs = 0) (hclk : Clocked ops) :
    RoamingSafe c r0 ops := by
  have hnone : ∀ p ∈ r0.peers, p.candidateEndpoint = none := fun p hp => (h0 p hp).1
  constructor
  · intro i op now p p' hop hclock hp hp' hname hne
    exact endpoint_moves hr0 hnone hclk hop hclock hp hp' hname hne
  · intro j i name s s' t t' hj hi hji hpres
    exact registrations_spaced hr0 h0 hclk hj hi hji hpres
  · intro i op p p' s hop hp hp' hname hs
    exact candidate_stays hr0 hnone hclk hop hp hp' hname hs

/-- Every run of a started relay, with any datagrams and operator calls, XDP attached or
not. -/
theorem roaming_safe (c : Libc) (cfg : WgRelayConfig) (file : Option Bytes) (xdp : WgXdpCtx)
    (ops : List WgOp) (hclk : Clocked ops) :
    RoamingSafe c { wgRelayStart c cfg file with xdp := xdp } ops := by
  apply roamingSafe_of_quiet
  · exact (rosterOk_kept c).start cfg file .empty
  · exact (candidates_none_kept c).start cfg file fun _ h => (List.not_mem_nil h).elim
  · exact hclk

/-! A peer at 1.1.1.1:10, linked to one at 2.2.2.2:20, roams to 3.3.3.3:30. -/

def twoHosts : Libc where
  getaddrinfo host port :=
    -- "1.1.1.1" "10" and "2.2.2.2" "20"
    if host = [0x31, 0x2e, 0x31, 0x2e, 0x31, 0x2e, 0x31] ∧ port = [0x31, 0x30] then
      some (.in4 0x01010101 10)
    else if host = [0x32, 0x2e, 0x32, 0x2e, 0x32, 0x2e, 0x32] ∧ port = [0x32, 0x30] then
      some (.in4 0x02020202 20)
    else none
  inetNtop6 _ _ := []

/-- 43 characters `A` and a `=`: the key of 32 zero bytes. -/
def zeroKeyB64 : Bytes := List.replicate 43 0x41 ++ [0x3d]

def roamCfg : WgRelayConfig where
  rosterPath := []
  peers :=
    [⟨[0x61], [0x31, 0x2e, 0x31, 0x2e, 0x31, 0x2e, 0x31, 0x3a, 0x31, 0x30], [], []⟩,
     ⟨[0x62], [0x32, 0x2e, 0x32, 0x2e, 0x32, 0x2e, 0x32, 0x3a, 0x32, 0x30], zeroKeyB64, []⟩]
  links := [⟨[0x61], [0x62]⟩]

def roamSrc : Sockaddr := .in6 kV4Prefix 0x03030303 30 0 0

def initBody : Bytes := [1, 0, 0, 0, 5, 0, 0, 0] ++ List.replicate 108 0

def initPkt : Bytes :=
  initBody ++ blake2s 16 (deriveMac1Key (List.replicate 32 0)) initBody ++ List.replicate 16 0

def responsePkt : Bytes := [2, 0, 0, 0, 9, 0, 0, 0, 5, 0, 0, 0] ++ List.replicate 80 0

/-- The clock ticks between the sweep and the confirmation of the third datagram, with the candidate
exactly as old as the timeout. -/
def tickingClock : PacketClock where
  arrival := 31 * kSecondNs
  sweep := ⟨31 * kSecondNs, fun _ => 31 * kSecondNs⟩
  now := 31 * kSecondNs + 1
  last := 31 * kSecondNs + 1

def roamOps : List WgOp :=
  [.packet ⟨initPkt, roamSrc, .still (1 * kSecondNs), true⟩,
   .packet ⟨responsePkt, .in6 kV4Prefix 0x02020202 20 0 0, .still (2 * kSecondNs), true⟩,
   .packet ⟨4 :: List.replicate 31 0, roamSrc, tickingClock, true⟩]

def roamRelay : WgRelay := { wgRelayStart twoHosts roamCfg none with xdp := {} }

theorem roam_moves : ∃ p ∈ (stateAt twoHosts roamRelay roamOps 2).peers,
    ∃ p' ∈ (stateAt twoHosts roamRelay roamOps 3).peers,
      p.name = [0x61] ∧ p'.name = p.name ∧ p'.endpoint ≠ p.endpoint ∧ p'.endpoint = roamSrc := by
  decide +kernel

/-- The endpoint does move with the third datagram, and the run explains it. -/
theorem roaming_safe_moved :
    Clocked roamOps ∧
      RoamsAt twoHosts { wgRelayStart twoHosts roamCfg none with xdp := {} } roamOps 2 [0x61] roamSrc
        (31 * kSecondNs) := by
  have hclk : Clocked roamOps := ⟨by decide, by decide, by decide⟩
  obtain ⟨p, hp, p', hp', hname, hname', hne, hsrc⟩ := roam_moves
  have hroam := (roaming_safe twoHosts roamCfg none {} roamOps hclk).moves 2 _ (31 * kSecondNs) p p'
    rfl rfl hp hp' hname' hne
  rw [hname, hsrc] at hroam
  exact ⟨hclk, hroam⟩

/-- Against the reading at which it is confirmed, the candidate may be older than the timeout. -/
theorem confirmed_after_timeout :
    ¬∀ (c : Libc) (cfg : WgRelayConfig) (file : Option Bytes) (xdp : WgXdpCtx) (ops : List WgOp),
      Clocked ops → ∀ i op now p p', ops[i]? = some op → opClock op = some now →
        p ∈ (stateAt c { wgRelayStart c cfg file with xdp := xdp } ops i).peers →
        p' ∈ (stateAt c { wgRelayStart c cfg file with xdp := xdp } ops (i + 1)).peers →
        p'.name = p.name → p'.endpoint ≠ p.endpoint →
        ∃ j t, j < i ∧ RegistersAt c { wgRelayStart c cfg file with xdp := xdp } ops j p.name
          p'.endpoint t ∧ now ≤ t + kCandidateTimeoutNs := by
  intro h
  have hset : ∀ j < 2, ∀ p ∈ (stateAt twoHosts roamRelay roamOps (j + 1)).peers, p.name = [0x61] →
      p.candidateSetNs = 1 * kSecondNs := by
    decide +kernel
  obtain ⟨p, hp, p', hp', hname, hname', hne, hsrc⟩ := roam_moves
  obtain ⟨j, t, hj, hreg, hle⟩ := h twoHosts roamCfg none {} roamOps ⟨by decide, by decide, by decide⟩
    2 _ (31 * kSecondNs + 1) p p' rfl rfl hp hp' hname' hne
  obtain ⟨-, -, q, hq, hqname, -, hqset⟩ := hreg
  have hone := hset j hj q hq (hqname.trans hname)
  rw [← hqset, hone] at hle
  revert hle
  decide

end HyperDerp
