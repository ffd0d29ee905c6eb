import HyperDerp.WgRelay.Api
import Mathlib.Data.List.Forall2

/-!
# What a datagram can do to the peers

Counters aside, a datagram changes at most the candidate of a peer, or confirms it.
`RoamEff` lists the cases with all that is known where they happen; it relates the
peers without their counters (`bare`) before and after. The tables of names and
links never change.
-/

namespace HyperDerp

/-! ### Tables that are left alone -/

section frame

variable (r : WgRelay)

@[simp] theorem setStats_peers (f : WgRelayStats → WgRelayStats) :
    (r.setStats f).peers = r.peers := rfl

@[simp] theorem setStats_links (f : WgRelayStats → WgRelayStats) :
    (r.setStats f).links = r.links := rfl

@[simp] theorem countForward_peers : (countForward r).peers = r.peers := rfl

@[simp] theorem countForward_links : (countForward r).links = r.links := rfl

@[simp] theorem modifyPeer_links (name : Bytes) (f : WgRelayPeer → WgRelayPeer) :
    (r.modifyPeer name f).links = r.links := rfl

@[simp] theorem persistRosterLocked_peers : (persistRosterLocked r).peers = r.peers := by
  unfold persistRosterLocked
  split <;> rfl

@[simp] theorem persistRosterLocked_links : (persistRosterLocked r).links = r.links := by
  unfold persistRosterLocked
  split <;> rfl

theorem recordDropBySrcLocked_tables (src : Sockaddr) (which : WgDropClass) (now : ℕ) :
    (recordDropBySrcLocked r src which now).peers = r.peers ∧
      (recordDropBySrcLocked r src which now).links = r.links ∧
      (recordDropBySrcLocked r src which now).xdp = r.xdp ∧
      (recordDropBySrcLocked r src which now).blocklist = r.blocklist := by
  unfold recordDropBySrcLocked
  dsimp only
  split
  · exact ⟨rfl, rfl, rfl, rfl⟩
  · exact ⟨rfl, rfl, rfl, rfl⟩

@[simp] theorem dropUnknownSrc_peers (d : Datagram) : (dropUnknownSrc r d).peers = r.peers :=
  (recordDropBySrcLocked_tables _ d.src .kUnknownSrc d.clock.last).1

@[simp] theorem dropUnknownSrc_links (d : Datagram) : (dropUnknownSrc r d).links = r.links :=
  (recordDropBySrcLocked_tables _ d.src .kUnknownSrc d.clock.last).2.1

theorem xdpInsertLinkDir_tables (src dst : Sockaddr) (i : ℕ) :
    (xdpInsertLinkDir r src dst i).peers = r.peers ∧
      (xdpInsertLinkDir r src dst i).links = r.links := by
  unfold xdpInsertLinkDir
  split
  · exact ⟨rfl, rfl⟩
  · split
    · exact ⟨rfl, rfl⟩
    · exact ⟨rfl, rfl⟩

theorem xdpRemoveLinkDir_tables (src : Sockaddr) :
    (xdpRemoveLinkDir r src).peers = r.peers ∧ (xdpRemoveLinkDir r src).links = r.links := by
  unfold xdpRemoveLinkDir
  split
  · exact ⟨rfl, rfl⟩
  · split
    · exact ⟨rfl, rfl⟩
    · exact ⟨rfl, rfl⟩

@[simp] theorem xdpInsertLinkByNameLocked_peers (a b : Bytes) :
    (xdpInsertLinkByNameLocked r a b).peers = r.peers := by
  unfold xdpInsertLinkByNameLocked
  split
  · rw [(xdpInsertLinkDir_tables _ _ _ _).1, (xdpInsertLinkDir_tables _ _ _ _).1]
  · rfl

@[simp] theorem xdpInsertLinkByNameLocked_links (a b : Bytes) :
    (xdpInsertLinkByNameLocked r a b).links = r.links := by
  unfold xdpInsertLinkByNameLocked
  split
  · rw [(xdpInsertLinkDir_tables _ _ _ _).2, (xdpInsertLinkDir_tables _ _ _ _).2]
  · rfl

theorem xdpRemoveLinkByNameLocked_tables (a b : Bytes) :
    (xdpRemoveLinkByNameLocked r a b).peers = r.peers ∧
      (xdpRemoveLinkByNameLocked r a b).links = r.links := by
  unfold xdpRemoveLinkByNameLocked
  cases r.lastPeer a with
  | none =>
    cases r.lastPeer b with
    | none => exact ⟨rfl, rfl⟩
    | some pb => exact xdpRemoveLinkDir_tables r pb.endpoint
  | some pa =>
    have ha := xdpRemoveLinkDir_tables r pa.endpoint
    cases r.lastPeer b with
    | none => exact ha
    | some pb =>
      have hb := xdpRemoveLinkDir_tables (xdpRemoveLinkDir r pa.endpoint) pb.endpoint
      exact ⟨hb.1.trans ha.1, hb.2.trans ha.2⟩

@[simp] theorem xdpRemoveLinkByNameLocked_peers (a b : Bytes) :
    (xdpRemoveLinkByNameLocked r a b).peers = r.peers := (xdpRemoveLinkByNameLocked_tables r a b).1

@[simp] theorem xdpRemoveLinkByNameLocked_links (a b : Bytes) :
    (xdpRemoveLinkByNameLocked r a b).links = r.links := (xdpRemoveLinkByNameLocked_tables r a b).2

theorem recordStrikeLocked_tables (src : Sockaddr) (now : ℕ) :
    (recordStrikeLocked r src now).peers = r.peers ∧
      (recordStrikeLocked r src now).links = r.links := by
  unfold recordStrikeLocked
  dsimp only
  split
  · exact ⟨rfl, rfl⟩
  · split
    · unfold xdpBlocklistInsert
      dsimp only
      split
      · exact ⟨rfl, rfl⟩
      · exact ⟨rfl, rfl⟩
    · exact ⟨rfl, rfl⟩

theorem strikeExpired_tables (now strikeNow : ℕ) (p : WgRelayPeer) :
    (strikeExpired now strikeNow r p).peers = r.peers ∧
      (strikeExpired now strikeNow r p).links = r.links := by
  unfold strikeExpired
  split
  · exact ⟨rfl, rfl⟩
  · next src _ =>
    split
    · exact recordStrikeLocked_tables r src strikeNow
    · exact ⟨rfl, rfl⟩

theorem strikePeers_tables (c : SweepClock) (i : ℕ) (ps : List WgRelayPeer) :
    (strikePeers c i ps r).peers = r.peers ∧ (strikePeers c i ps r).links = r.links := by
  induction ps generalizing r i with
  | nil => exact ⟨rfl, rfl⟩
  | cons p ps ih =>
    have hp := strikeExpired_tables r c.now (c.strike i) p
    have hps := ih (strikeExpired c.now (c.strike i) r p) (i + 1)
    exact ⟨hps.1.trans hp.1, hps.2.trans hp.2⟩

@[simp] theorem expireCandidatesLocked_peers (c : SweepClock) :
    (expireCandidatesLocked r c).peers = r.peers.map (WgRelayPeer.swept · c.now) := by
  unfold expireCandidatesLocked
  dsimp only
  split
  · rw [(strikePeers_tables r c 0 r.peers).1]
  · rw [(strikePeers_tables r c 0 r.peers).1]

@[simp] theorem expireCandidatesLocked_links (c : SweepClock) :
    (expireCandidatesLocked r c).links = r.links := by
  unfold expireCandidatesLocked
  dsimp only
  split
  · rw [(strikePeers_tables r c 0 r.peers).2]
  · rw [(strikePeers_tables r c 0 r.peers).2]

end frame

/-! ### Peers without their counters -/

def WgRelayPeer.bare (p : WgRelayPeer) : WgRelayPeer :=
  { p with
    lastSeenNs := 0
    rxBytes := 0
    fwdBytes := 0
    dropNoLinkPeer := 0
    dropPubkeyMismatchPeer := 0
    candidateLastForwardNs := 0 }

def WgRelay.bares (r : WgRelay) : List WgRelayPeer := r.peers.map WgRelayPeer.bare

theorem setStats_bares (r : WgRelay) (f : WgRelayStats → WgRelayStats) :
    (r.setStats f).bares = r.bares := rfl

theorem countForward_bares (r : WgRelay) : (countForward r).bares = r.bares := rfl

def LinkedIn (links : List WgRelayLink) (a b : Bytes) : Prop := ∃ l ∈ links, l.joins a b = true

abbrev Linked (r : WgRelay) (a b : Bytes) : Prop := LinkedIn r.links a b

theorem WgRelayLink.joins_iff {l : WgRelayLink} {a b : Bytes} :
    l.joins a b = true ↔ l.a = a ∧ l.b = b ∨ l.a = b ∧ l.b = a := by
  simp [WgRelayLink.joins]

variable {name : Bytes} {r r' : WgRelay} {p q : WgRelayPeer} {c : Libc} {d : Datagram}
  {out : List Sent}

theorem WgRelayLink.touches_iff {l : WgRelayLink} :
    l.touches name = true ↔ l.a = name ∨ l.b = name := by
  simp [WgRelayLink.touches]

theorem LinkedIn.symm {links : List WgRelayLink} {a b : Bytes} (h : LinkedIn links a b) :
    LinkedIn links b a := by
  obtain ⟨l, hl, hj⟩ := h
  refine ⟨l, hl, ?_⟩
  rw [WgRelayLink.joins_iff] at hj ⊢
  exact hj.symm.imp id id

/-- The cases of the change to one peer, counters aside: `q` before, the second index
after. `r` is the relay when the datagram is handled, `out` what is sent. -/
inductive RoamEff (c : Libc) (r : WgRelay) (d : Datagram) (out : List Sent) :
    WgRelayPeer → WgRelayPeer → Prop
  | idle (q : WgRelayPeer) : RoamEff c r d out q q
  | registered (q dest : WgRelayPeer) (hdest : dest ∈ r.peers) (hkey : keyVerifies dest d.pkt = true)
      (hlink : Linked r dest.name q.name) (htype : msgType d.pkt = 1)
      (hnone : q.candidateEndpoint = none)
      (hcool : q.lastRelearnNs = 0 ∨ kRelearnCooldownNs ≤ sub64 d.now q.lastRelearnNs) :
      RoamEff c r d out q (q.registerCandidate d).bare
  | retried (q dest : WgRelayPeer) (hdest : dest ∈ r.peers) (hkey : keyVerifies dest d.pkt = true)
      (hlink : Linked r dest.name q.name) (htype : msgType d.pkt = 1)
      (hcand : q.candidateEndpoint = some d.src) :
      RoamEff c r d out q { q with candidateInitSenderIndex := readIndex d.pkt 4 }
  | responded (q src : WgRelayPeer) (hsrc : src ∈ r.peers) (hmatch : endpointMatches src d.src = true)
      (hlink : Linked r src.name q.name) (htype : msgType d.pkt = 2) (hsent : d.sendOk = true)
      (hout : (q.endpoint, d.pkt) ∈ out) (hidx : q.candidateInitSenderIndex ≠ 0)
      (hrecv : readIndex d.pkt 8 = q.candidateInitSenderIndex) :
      RoamEff c r d out q { q with candidatePartnerResponded := true }
  | confirmed (q : WgRelayPeer) (htype : msgType d.pkt = 4)
      (hcand : q.candidateEndpoint = some d.src) (hresp : q.candidatePartnerResponded = true)
      (hnew : ∀ p ∈ r.peers, endpointMatches p d.src = false) :
      RoamEff c r d out q (q.confirm c d.src d.now).bare

/-! ### One edit of the peer list -/

theorem map_modifyFirst_comm {α β : Type} {g : α → β} {p : α → Bool} {p' : β → Bool} {f : α → α}
    {f' : β → β} (hp : ∀ x, p' (g x) = p x) (hf : ∀ x, g (f x) = f' (g x)) (xs : List α) :
    (modifyFirst p f xs).map g = modifyFirst p' f' (xs.map g) := by
  induction xs with
  | nil => rfl
  | cons x xs ih =>
    simp only [modifyFirst, List.map_cons, hp]
    split
    · simp [hf]
    · simp [ih]

theorem forall₂_modifyFirst {α : Type} {R : α → α → Prop} (p : α → Bool) (f : α → α) (xs : List α)
    (hrefl : ∀ x, R x x) (hf : ∀ x, xs.find? p = some x → R x (f x)) :
    List.Forall₂ R xs (modifyFirst p f xs) := by
  induction xs with
  | nil => exact .nil
  | cons x xs ih =>
    simp only [modifyFirst]
    cases hx : p x with
    | true =>
      simp only [if_true]
      refine .cons (hf x (by simp [List.find?, hx])) ?_
      exact List.forall₂_same.2 fun y _ => hrefl y
    | false =>
      simp only [Bool.false_eq_true, if_false]
      refine .cons (hrefl x) (ih fun y hy => hf y ?_)
      rw [List.find?_cons_of_neg (by simp [hx])]
      exact hy

theorem modifyPeer_bares {f : WgRelayPeer → WgRelayPeer} (hf : ∀ p, (f p).bare = p.bare) :
    (r.modifyPeer name f).bares = r.bares :=
  map_modifyFirst WgRelayPeer.bare _ f hf r.peers

theorem modifyPeer_forall₂ {R : WgRelayPeer → WgRelayPeer → Prop} {f : WgRelayPeer → WgRelayPeer}
    (f' : WgRelayPeer → WgRelayPeer) (hrefl : ∀ q, R q q) (hp : r.findPeer p.name = some p)
    (hf : ∀ q, (f q).bare = f' q.bare) (h : R p.bare (f' p.bare)) :
    List.Forall₂ R r.bares (r.modifyPeer p.name f).bares := by
  have hcomm : (r.modifyPeer p.name f).bares =
      modifyFirst (fun q => q.name = p.name) f' r.bares := by
    apply map_modifyFirst_comm
    · intro q
      rfl
    · exact hf
  rw [hcomm]
  refine forall₂_modifyFirst _ _ _ hrefl fun q hq => ?_
  have hfind : r.bares.find? (fun q => q.name = p.name) =
      (r.findPeer p.name).map WgRelayPeer.bare := by
    unfold WgRelay.bares WgRelay.findPeer
    rw [List.find?_map]
    rfl
  rw [hfind, hp] at hq
  cases hq
  exact h

theorem findPeer_name (h : r.findPeer name = some p) : p.name = name := by
  have := List.find?_some h
  simpa using this

theorem findPeer_mem (h : r.findPeer name = some p) : p ∈ r.peers :=
  List.mem_of_find?_eq_some h

theorem findPeer_self (h : r.findPeer name = some p) : r.findPeer p.name = some p := by
  rw [findPeer_name h]
  exact h

theorem findLinkPartnerLocked_linked (h : findLinkPartnerLocked r name = some q) :
    Linked r name q.name ∧ r.findPeer q.name = some q := by
  unfold findLinkPartnerLocked at h
  obtain ⟨l, hl, hq⟩ := List.exists_of_findSome?_eq_some h
  split at hq
  · next ha =>
    exact ⟨⟨l, hl, WgRelayLink.joins_iff.2 (.inl ⟨ha, (findPeer_name hq).symm⟩)⟩, findPeer_self hq⟩
  · split at hq
    · next hb =>
      exact ⟨⟨l, hl, WgRelayLink.joins_iff.2 (.inr ⟨(findPeer_name hq).symm, hb⟩)⟩,
        findPeer_self hq⟩
    · cases hq

theorem forwardDst_linked (h : forwardDst r name = some q) :
    Linked r name q.name ∧ r.findPeer q.name = some q := by
  unfold forwardDst at h
  split at h
  · next l hl =>
    have hmem := List.mem_of_find?_eq_some hl
    have htouch : l.touches name = true := by
      have := List.find?_some hl
      exact this
    split at h
    · next ha =>
      exact ⟨⟨l, hmem, WgRelayLink.joins_iff.2 (.inl ⟨ha, (findPeer_name h).symm⟩)⟩,
        findPeer_self h⟩
    · next ha =>
      have hb := (WgRelayLink.touches_iff.1 htouch).resolve_left ha
      exact ⟨⟨l, hmem, WgRelayLink.joins_iff.2 (.inr ⟨(findPeer_name h).symm, hb⟩)⟩,
        findPeer_self h⟩
  · cases h

/-! ### The parts of `HandlePacket` -/

section parts

variable {c : Libc} {r : WgRelay} {d : Datagram} {out : List Sent}

theorem roamEff_same {qs : List WgRelayPeer} : List.Forall₂ (RoamEff c r d out) qs qs :=
  List.forall₂_same.2 fun q _ => .idle q

theorem handshakeTarget_spec {p sender : WgRelayPeer} {pkt : Bytes}
    (h : handshakeTarget r pkt = some (p, sender)) :
    p ∈ r.peers ∧ keyVerifies p pkt = true ∧ findLinkPartnerLocked r p.name = some sender := by
  unfold handshakeTarget at h
  obtain ⟨p', hp', hsome⟩ := List.exists_of_findSome?_eq_some h
  split at hsome
  · next hkey =>
    rw [Option.map_eq_some_iff] at hsome
    obtain ⟨q, hq, heq⟩ := hsome
    cases heq
    exact ⟨hp', hkey, hq⟩
  · cases hsome

theorem handleUnknownSrcHandshakeLocked_links (r : WgRelay) (d : Datagram) :
    (handleUnknownSrcHandshakeLocked r d).1.links = r.links := by
  unfold handleUnknownSrcHandshakeLocked
  dsimp only
  split
  · simp
  · split
    · exact (recordDropBySrcLocked_tables _ _ _ _).2.1
    · split
      · simp
      · split
        · split
          · split
            · simp
            · split <;> simp
          · simp
        · split <;> simp

theorem handleUnknownSrcHandshakeLocked_effect (r : WgRelay) (d : Datagram) :
    List.Forall₂ (RoamEff c r d out) r.bares (handleUnknownSrcHandshakeLocked r d).1.bares := by
  have hdrop : ∀ r' : WgRelay, (dropUnknownSrc r' d).bares = r'.bares := by
    intro r'
    simp [WgRelay.bares]
  have hfwd : ∀ (b : Bool) (r' : WgRelay),
      (if b then countForward r' else r').bares = r'.bares := by
    intro b r'
    cases b <;> rfl
  unfold handleUnknownSrcHandshakeLocked
  dsimp only
  split
  · rw [hdrop]
    exact roamEff_same
  next htype =>
  rw [not_not] at htype
  split
  · rw [show ∀ r' : WgRelay, (recordDropBySrcLocked r' d.src .kHandshakeNoPubkeyMatch d.clock.last).bares =
      r'.bares from fun r' => by
        unfold WgRelay.bares
        rw [(recordDropBySrcLocked_tables _ _ _ _).1]]
    exact roamEff_same
  next p sender htarget =>
  obtain ⟨hmem, hkey, hpartner⟩ := handshakeTarget_spec htarget
  obtain ⟨hlink, hfind⟩ := findLinkPartnerLocked_linked hpartner
  split
  · rw [hdrop]
    exact roamEff_same
  next hcool =>
  have hcool' : sender.lastRelearnNs = 0 ∨ kRelearnCooldownNs ≤ sub64 d.now sender.lastRelearnNs := by
    by_cases h0 : sender.lastRelearnNs = 0
    · exact .inl h0
    · exact .inr (Nat.le_of_not_lt fun hlt => hcool ⟨h0, hlt⟩)
  split
  · next old hcand =>
    split
    · next heq =>
      have hsrc : old = d.src := of_decide_eq_true heq
      subst hsrc
      have heff : List.Forall₂ (RoamEff c r d out) r.bares (r.modifyPeer sender.name fun s =>
          { s with candidateInitSenderIndex := readIndex d.pkt 4 }).bares := by
        apply modifyPeer_forall₂ (fun q => { q with candidateInitSenderIndex := readIndex d.pkt 4 })
          (fun q => .idle q) hfind
        · intro q
          rfl
        · exact .retried sender.bare p hmem hkey hlink htype hcand
      split
      · rw [hdrop]
        exact heff
      · rw [hfwd, modifyPeer_bares]
        · exact heff
        · intro q
          rfl
    · rw [hdrop]
      exact roamEff_same
  · next hcand =>
    rw [hfwd]
    apply modifyPeer_forall₂ (fun q => (q.registerCandidate d).bare) (fun q => .idle q) hfind
    · intro q
      rfl
    · exact .registered sender.bare p hmem hkey hlink htype hcand hcool'

theorem mirrorResponse_links (r : WgRelay) (dst : WgRelayPeer) (pkt : Bytes) :
    (mirrorResponse r dst pkt).1.links = r.links := by
  unfold mirrorResponse
  split <;> rfl

theorem mirrorResponse_effect {r r0 : WgRelay} {src dst : WgRelayPeer} (hlinks : r0.links = r.links)
    (hsrc : src ∈ r.peers) (hmatch : endpointMatches src d.src = true)
    (hlink : Linked r0 src.name dst.name) (hfind : r0.findPeer dst.name = some dst)
    (htype : msgType d.pkt = 2) (hsent : d.sendOk = true) (hout : (dst.endpoint, d.pkt) ∈ out) :
    List.Forall₂ (RoamEff c r d out) r0.bares (mirrorResponse r0 dst d.pkt).1.bares := by
  unfold mirrorResponse
  split
  · exact roamEff_same
  · apply modifyPeer_forall₂ (fun p =>
        if p.candidateInitSenderIndex ≠ 0 ∧ readIndex d.pkt 8 = p.candidateInitSenderIndex then
          { p with candidatePartnerResponded := true }
        else p) (fun q => .idle q) hfind
    · intro q
      split
      · next h => exact (if_pos h).symm
      · next h => exact (if_neg h).symm
    · split
      · next h =>
        have hlink' : Linked r src.name dst.name := by
          rw [Linked, ← hlinks]
          exact hlink
        exact .responded dst.bare src hsrc hmatch hlink' htype hsent hout h.1 h.2
      · exact .idle _

theorem forwardFrom_links (r : WgRelay) (src : WgRelayPeer) (d : Datagram) :
    (forwardFrom r src d).1.links = r.links := by
  unfold forwardFrom
  dsimp only
  split
  · rfl
  · split
    · rfl
    · split
      · rfl
      · split
        · simp [mirrorResponse_links]
        · rfl

theorem forwardFrom_bares (r : WgRelay) (src : WgRelayPeer) {d : Datagram}
    (htype : msgType d.pkt ≠ 2) : (forwardFrom r src d).1.bares = r.bares := by
  unfold forwardFrom
  dsimp only
  split
  · rw [modifyPeer_bares, setStats_bares, modifyPeer_bares]
    · exact fun _ => rfl
    · exact fun _ => rfl
  split
  · rw [modifyPeer_bares, setStats_bares, modifyPeer_bares]
    · exact fun _ => rfl
    · exact fun _ => rfl
  split
  · exact modifyPeer_bares fun _ => rfl
  · dsimp only
    rw [modifyPeer_bares, countForward_bares, modifyPeer_bares]
    · exact fun _ => rfl
    · exact fun _ => rfl

theorem forwardFrom_effect {src : WgRelayPeer} (hsrc : src ∈ r.peers)
    (hmatch : endpointMatches src d.src = true) :
    List.Forall₂ (RoamEff c r d (forwardFrom r src d).2) r.bares (forwardFrom r src d).1.bares := by
  by_cases htype : msgType d.pkt = 2
  swap
  · rw [forwardFrom_bares r src htype]
    exact roamEff_same
  have hrx : (r.modifyPeer src.name fun p =>
      { p with rxBytes := p.rxBytes + d.pkt.length, lastSeenNs := d.clock.last }).bares = r.bares :=
    modifyPeer_bares fun _ => rfl
  unfold forwardFrom
  dsimp only
  obtain ⟨r0, hr0⟩ : ∃ r0, r0 = r.modifyPeer src.name fun p =>
    { p with rxBytes := p.rxBytes + d.pkt.length, lastSeenNs := d.clock.last } := ⟨_, rfl⟩
  have hlinks : r0.links = r.links := by
    rw [hr0]
    rfl
  rw [← hr0] at hrx ⊢
  split
  · rw [modifyPeer_bares, setStats_bares, hrx]
    · exact roamEff_same
    · exact fun _ => rfl
  next dst hdst =>
  obtain ⟨hlink, hfind⟩ := forwardDst_linked hdst
  split
  · rw [modifyPeer_bares, setStats_bares, hrx]
    · exact roamEff_same
    · exact fun _ => rfl
  split
  · rw [hrx]
    exact roamEff_same
  next hsend =>
  rw [Bool.not_eq_false] at hsend
  dsimp only
  rw [modifyPeer_bares, countForward_bares, ← hrx]
  · apply mirrorResponse_effect hlinks hsrc hmatch hlink hfind htype hsend
    exact List.mem_cons_self ..
  · exact fun _ => rfl

theorem confirmCandidateLocked_links (c : Libc) (r : WgRelay) (src : Sockaddr) (now : ℕ) :
    (confirmCandidateLocked c r src now).1.links = r.links := by
  unfold confirmCandidateLocked
  dsimp only
  split
  · rfl
  · cases findLinkPartnerLocked r _ with
    | none =>
      dsimp only
      split <;> simp
    | some q =>
      dsimp only
      split <;> simp

theorem confirmCandidateLocked_peers (c : Libc) (r : WgRelay) (src : Sockaddr) (now : ℕ) :
    (confirmCandidateLocked c r src now).1.peers =
      modifyFirst (WgRelayPeer.confirmable · src) (WgRelayPeer.confirm c · src now) r.peers := by
  unfold confirmCandidateLocked
  dsimp only
  split
  · next hnone =>
    rw [List.find?_eq_none] at hnone
    rw [modifyFirst_of_none fun p hp => Bool.eq_false_iff.2 (hnone p hp)]
  · cases findLinkPartnerLocked r _ with
    | none =>
      dsimp only
      split <;> simp
    | some q =>
      dsimp only
      split <;> simp

theorem confirmable_iff {p : WgRelayPeer} {src : Sockaddr} :
    p.confirmable src = true ↔
      p.candidateEndpoint = some src ∧ p.candidatePartnerResponded = true := by
  unfold WgRelayPeer.confirmable sockaddrEqual
  cases p.candidateEndpoint with
  | none => simp
  | some ep => simp

theorem confirmCandidateLocked_effect (htype : msgType d.pkt = 4)
    (hnew : ∀ p ∈ r.peers, endpointMatches p d.src = false) :
    List.Forall₂ (RoamEff c r d out) r.bares (confirmCandidateLocked c r d.src d.now).1.bares := by
  have hcomm : (confirmCandidateLocked c r d.src d.now).1.bares =
      modifyFirst (WgRelayPeer.confirmable · d.src) (fun q => (q.confirm c d.src d.now).bare)
        r.bares := by
    unfold WgRelay.bares
    rw [confirmCandidateLocked_peers]
    apply map_modifyFirst_comm
    · intro q
      rfl
    · intro q
      rfl
  rw [hcomm]
  refine forall₂_modifyFirst _ _ _ (fun q => .idle q) fun q hq => ?_
  have hq' : q.confirmable d.src = true := by
    have h := List.find?_some hq
    exact h
  obtain ⟨hcand, hresp⟩ := confirmable_iff.1 hq'
  exact .confirmed q htype hcand hresp hnew

end parts

/-! ### `HandlePacket` -/

@[simp] theorem swept_name (p : WgRelayPeer) (now : ℕ) : (p.swept now).name = p.name := by
  unfold WgRelayPeer.swept
  split <;> rfl

@[simp] theorem swept_endpoint (p : WgRelayPeer) (now : ℕ) :
    (p.swept now).endpoint = p.endpoint := by
  unfold WgRelayPeer.swept
  split <;> rfl

@[simp] theorem swept_pubkeyB64 (p : WgRelayPeer) (now : ℕ) :
    (p.swept now).pubkeyB64 = p.pubkeyB64 := by
  unfold WgRelayPeer.swept
  split <;> rfl

@[simp] theorem swept_nic (p : WgRelayPeer) (now : ℕ) : (p.swept now).nic = p.nic := by
  unfold WgRelayPeer.swept
  split <;> rfl

theorem swept_bare (p : WgRelayPeer) (now : ℕ) : (p.swept now).bare = p.bare.swept now := by
  unfold WgRelayPeer.swept
  split
  · next h => exact (if_pos h).symm
  · next h => exact (if_neg h).symm

theorem expireCandidatesLocked_bares (r : WgRelay) (c : SweepClock) :
    (expireCandidatesLocked r c).bares = r.bares.map (WgRelayPeer.swept · c.now) := by
  unfold WgRelay.bares
  rw [expireCandidatesLocked_peers, List.map_map, List.map_map]
  exact List.map_congr_left fun p _ => swept_bare p c.now

theorem keyVerifies_congr (h : p.pubkeyB64 = q.pubkeyB64) (pkt : Bytes) :
    keyVerifies p pkt = keyVerifies q pkt := by
  unfold keyVerifies
  rw [h]

theorem endpointMatches_congr (h : p.endpoint = q.endpoint) (src : Sockaddr) :
    endpointMatches p src = endpointMatches q src := by
  unfold endpointMatches
  rw [h]

theorem mem_expireCandidatesLocked {c : SweepClock} (h : q ∈ (expireCandidatesLocked r c).peers) :
    ∃ p ∈ r.peers, q = p.swept c.now := by
  rw [expireCandidatesLocked_peers, List.mem_map] at h
  obtain ⟨p, hp, hq⟩ := h
  exact ⟨p, hp, hq.symm⟩

theorem Linked.of_expire {c : SweepClock} {a b : Bytes}
    (h : Linked (expireCandidatesLocked r c) a b) : Linked r a b := by
  rw [Linked, expireCandidatesLocked_links] at h
  exact h

theorem RoamEff.of_tables {q' : WgRelayPeer} (hpeers : r'.peers = r.peers)
    (hlinks : r'.links = r.links) (h : RoamEff c r' d out q q') : RoamEff c r d out q q' := by
  have hl : ∀ {a b : Bytes}, Linked r' a b → Linked r a b := by
    intro a b hab
    rwa [Linked, hlinks] at hab
  cases h with
  | idle => exact .idle _
  | registered dest hdest hkey hlink htype hnone hcool =>
    exact .registered q dest (hpeers ▸ hdest) hkey (hl hlink) htype hnone hcool
  | retried dest hdest hkey hlink htype hcand =>
    exact .retried q dest (hpeers ▸ hdest) hkey (hl hlink) htype hcand
  | responded src hsrc hmatch hlink htype hsent hout hidx hrecv =>
    exact .responded q src (hpeers ▸ hsrc) hmatch (hl hlink) htype hsent hout hidx hrecv
  | confirmed htype hcand hresp hnew =>
    exact .confirmed q htype hcand hresp fun p hp => hnew p (hpeers ▸ hp)

theorem RoamEff.of_expire {clock : SweepClock} {q' : WgRelayPeer}
    (h : RoamEff c (expireCandidatesLocked r clock) d out q q') :
    RoamEff c r d out q q' := by
  cases h with
  | idle => exact .idle _
  | registered dest hdest hkey hlink htype hnone hcool =>
    obtain ⟨p, hp, rfl⟩ := mem_expireCandidatesLocked hdest
    rw [keyVerifies_congr (swept_pubkeyB64 p clock.now)] at hkey
    rw [swept_name] at hlink
    exact .registered q p hp hkey hlink.of_expire htype hnone hcool
  | retried dest hdest hkey hlink htype hcand =>
    obtain ⟨p, hp, rfl⟩ := mem_expireCandidatesLocked hdest
    rw [keyVerifies_congr (swept_pubkeyB64 p clock.now)] at hkey
    rw [swept_name] at hlink
    exact .retried q p hp hkey hlink.of_expire htype hcand
  | responded src hsrc hmatch hlink htype hsent hout hidx hrecv =>
    obtain ⟨p, hp, rfl⟩ := mem_expireCandidatesLocked hsrc
    rw [endpointMatches_congr (swept_endpoint p clock.now)] at hmatch
    rw [swept_name] at hlink
    exact .responded q p hp hmatch hlink.of_expire htype hsent hout hidx hrecv
  | confirmed htype hcand hresp hnew =>
    refine .confirmed q htype hcand hresp fun p hp => ?_
    have h := hnew (p.swept clock.now)
      (by rw [expireCandidatesLocked_peers]; exact List.mem_map_of_mem hp)
    rwa [endpointMatches_congr (swept_endpoint p clock.now)] at h

def PacketEff (c : Libc) (r : WgRelay) (d : Datagram) (out : List Sent) (q q' : WgRelayPeer) :
    Prop :=
  q' = q ∨ isWgShaped d.pkt = true ∧ RoamEff c r d out (q.swept d.clock.sweep.now) q'

theorem packetEff_of_expire {r0 : WgRelay}
    (hpeers : r0.peers = r.peers) (hlinks : r0.links = r.links) (hshape : isWgShaped d.pkt = true)
    (h : List.Forall₂ (RoamEff c (expireCandidatesLocked r0 d.clock.sweep) d out)
      (expireCandidatesLocked r0 d.clock.sweep).bares r'.bares) :
    List.Forall₂ (PacketEff c r d out) r.bares r'.bares := by
  have hbares : r0.bares = r.bares := congrArg (List.map WgRelayPeer.bare) hpeers
  rw [expireCandidatesLocked_bares, hbares, List.forall₂_map_left_iff] at h
  exact h.imp fun q q' heff => .inr ⟨hshape, heff.of_expire.of_tables hpeers hlinks⟩

theorem packetEff_same (h : r'.peers = r.peers) :
    List.Forall₂ (PacketEff c r d out) r.bares r'.bares := by
  unfold WgRelay.bares
  rw [h]
  exact List.forall₂_same.2 fun q _ => .inl rfl

theorem handlePacket_links (c : Libc) (r : WgRelay) (d : Datagram) :
    (handlePacket c r d).1.links = r.links := by
  unfold handlePacket
  dsimp only
  split
  · rfl
  split
  · exact (recordDropBySrcLocked_tables _ _ _ _).2.1
  split
  · rw [forwardFrom_links]
    simp
  split
  · rw [handleUnknownSrcHandshakeLocked_links]
    simp
  split
  · split
    · next hconf =>
      have hlinks := congrArg (fun x => x.1.links) hconf
      rw [forwardFrom_links, ← hlinks, confirmCandidateLocked_links]
      simp
    · simp
  · simp

theorem handlePacket_effect (c : Libc) (r : WgRelay) (d : Datagram) :
    List.Forall₂ (PacketEff c r d (handlePacket c r d).2) r.bares (handlePacket c r d).1.bares := by
  unfold handlePacket
  dsimp only
  obtain ⟨r0, hr0⟩ : ∃ r0, r0 = r.setStats fun s => { s with rxPackets := s.rxPackets + 1 } :=
    ⟨_, rfl⟩
  rw [← hr0]
  have hpeers : r0.peers = r.peers := by
    rw [hr0]
    rfl
  have hlinks : r0.links = r.links := by
    rw [hr0]
    rfl
  split
  · exact packetEff_same hpeers
  split
  · exact packetEff_same ((recordDropBySrcLocked_tables _ _ _ _).1.trans hpeers)
  next hshape =>
  rw [Bool.not_eq_false] at hshape
  split
  · next p hp =>
    apply packetEff_of_expire hpeers hlinks hshape
    apply forwardFrom_effect (List.mem_of_find?_eq_some hp)
    have h := List.find?_some hp
    exact h
  next hnone =>
  have hnew : ∀ p ∈ (expireCandidatesLocked r0 d.clock.sweep).peers, endpointMatches p d.src = false := by
    intro p hp
    have h := List.find?_eq_none.1 hnone p hp
    exact Bool.eq_false_iff.2 h
  have hdrop : (dropUnknownSrc (expireCandidatesLocked r0 d.clock.sweep) d).bares =
      (expireCandidatesLocked r0 d.clock.sweep).bares := by
    simp [WgRelay.bares]
  split
  · apply packetEff_of_expire hpeers hlinks hshape
    exact handleUnknownSrcHandshakeLocked_effect _ d
  split
  · next htype =>
    split
    · next r1 p heq =>
      have hr1 : r1 = (confirmCandidateLocked c (expireCandidatesLocked r0 d.clock.sweep) d.src d.now).1 := by
        rw [heq]
      apply packetEff_of_expire hpeers hlinks hshape
      rw [forwardFrom_bares r1 p (by rw [htype]; decide), hr1]
      exact confirmCandidateLocked_effect htype hnew
    · apply packetEff_of_expire hpeers hlinks hshape
      rw [hdrop]
      exact roamEff_same
  · apply packetEff_of_expire hpeers hlinks hshape
    rw [hdrop]
    exact roamEff_same

end HyperDerp
