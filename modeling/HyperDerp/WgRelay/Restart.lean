import HyperDerp.WgRelay.RosterFile
import HyperDerp.Lib.Text

/-!
# Which rosters survive a restart (`wg_relay.cc:70-136`, `:172-216`, `:347-414`, `:989-1009`)

The endpoint text of a peer is what the operator gave, or what `FormatEndpoint` wrote
when the peer roamed. Of the latter only the IPv4 notation is read back, and a label
is written only after a key.
-/

namespace HyperDerp.RosterFile

/-! ### Where an endpoint text comes from -/

def Resolved (c : Libc) (p : WgRelayPeer) : Prop :=
  Word p.endpointStr ∧ parseHostPort c p.endpointStr = some p.endpoint ∨
    p.endpointStr = formatEndpoint c p.endpoint

section step

variable {c : Libc}

theorem Resolved.congr {p q : WgRelayPeer} (h : Resolved c p) (he : q.endpoint = p.endpoint)
    (hs : q.endpointStr = p.endpointStr) : Resolved c q := by
  unfold Resolved
  rw [he, hs]
  exact h

theorem resolved_swept {p : WgRelayPeer} (h : Resolved c p) (now : ℕ) :
    Resolved c (p.swept now) := by
  unfold WgRelayPeer.swept
  split
  · exact h
  · exact h

theorem resolved_packet {r : WgRelay} {d : Datagram} {out : List Sent} {p p' : WgRelayPeer}
    (h : Resolved c p) (heff : PacketEff c r d out p.bare p'.bare) : Resolved c p' := by
  have hbare : Resolved c p'.bare := by
    rcases heff with heq | ⟨-, heff⟩
    · rw [heq]
      exact h
    have hp : Resolved c p.bare := h
    have hswept := resolved_swept hp d.clock.sweep.now
    generalize p.bare.swept d.clock.sweep.now = q at heff hswept
    generalize p'.bare = q' at heff
    cases heff with
    | idle => exact hswept
    | registered => exact hswept
    | retried => exact hswept
    | responded => exact hswept
    | confirmed => exact .inr rfl
  exact hbare

theorem resolved_edit {r : WgRelay} {name : Bytes} {f : WgRelayPeer → WgRelayPeer}
    (h : ∀ p ∈ r.peers, Resolved c p)
    (hf : ∀ p, (f p).endpoint = p.endpoint ∧ (f p).endpointStr = p.endpointStr) :
    ∀ p ∈ (r.modifyPeer name f).peers, Resolved c p := by
  intro p hp
  obtain ⟨q, hq, heq⟩ := mem_modifyFirst hp
  rcases heq with rfl | rfl
  · exact h _ hq
  · exact (h q hq).congr (hf q).1 (hf q).2

/-! ### Runs -/

def step (c : Libc) (r : WgRelay) (op : WgOp) : Option WgRelay := some (wgStep c r op).1

def Empty (r : WgRelay) : Prop := ∃ path xdp, r = { rosterPath := path, xdp := xdp }

def Worded (_ : WgRelay) : WgOp → Prop
  | .peerAdd _ endpoint _ => Word endpoint
  | _ => True

instance (r : WgRelay) : DecidablePred (Worded r)
  | .peerAdd _ endpoint _ => inferInstanceAs (Decidable (Word endpoint))
  | .peerKey _ _ | .peerNic _ _ | .peerRemove _ | .linkAdd _ _ | .linkRemove _ _ | .packet _
  | .sweep _ => .isTrue trivial

theorem resolved_step {r : WgRelay} {op : WgOp} (h : ∀ p ∈ r.peers, Resolved c p)
    (hop : Worded r op) : ∀ p ∈ (wgStep c r op).1.peers, Resolved c p := by
  cases op with
  | peerAdd name endpoint label =>
    have hadd : ∀ p ∈ (peerAddLocked c r name endpoint label).1.peers, Resolved c p := by
      unfold peerAddLocked
      split
      · exact h
      split
      · exact h
      · next ep hep =>
        intro p hp
        rw [List.mem_append, List.mem_singleton] at hp
        rcases hp with hp | rfl
        · exact h p hp
        · exact .inl ⟨hop, hep⟩
    simp only [wgStep, wgRelayPeerAdd]
    split
    · next heq =>
      rw [heq] at hadd
      rw [persistRosterLocked_peers]
      exact hadd
    · next heq =>
      rw [heq] at hadd
      exact hadd
  | peerKey name pubkey =>
    have hkey : ∀ p ∈ (peerKeyLocked r name pubkey).1.peers, Resolved c p :=
      resolved_edit h fun _ => ⟨rfl, rfl⟩
    simp only [wgStep, wgRelayPeerKey]
    split
    · next heq =>
      rw [heq] at hkey
      rw [persistRosterLocked_peers]
      exact hkey
    · next heq =>
      rw [heq] at hkey
      exact hkey
  | peerNic name nic =>
    have hnic : ∀ p ∈ (peerNicLocked r name nic).1.peers, Resolved c p :=
      resolved_edit h fun _ => ⟨rfl, rfl⟩
    simp only [wgStep, wgRelayPeerNic]
    split
    · exact h
    split
    · next heq =>
      rw [heq] at hnic
      rw [persistRosterLocked_peers, (foldl_xdpInsert_tables _ _).1]
      exact hnic
    · next heq =>
      rw [heq] at hnic
      exact hnic
  | peerRemove name =>
    have hrem : ∀ p ∈ (peerRemoveLocked r name).1.peers, Resolved c p :=
      fun p hp => h p (List.eraseP_sublist.subset hp)
    simp only [wgStep, wgRelayPeerRemove]
    split
    · next heq =>
      rw [heq] at hrem
      rw [persistRosterLocked_peers, (foldl_xdpRemove_tables _ _).1]
      exact hrem
    · next heq =>
      rw [heq] at hrem
      exact hrem
  | linkAdd a b =>
    have hlink : (linkAddLocked r a b).1.peers = r.peers := by
      rcases linkAddLocked_cases r a b with ⟨heq, -⟩ | ⟨-, -, -, -, heq⟩
      · rw [heq]
      · rw [heq]
    simp only [wgStep, wgRelayLinkAdd, wgRelayLinkAddDetail]
    split
    · next heq =>
      rw [heq] at hlink
      rw [persistRosterLocked_peers, xdpInsertLinkByNameLocked_peers, hlink]
      exact h
    · next heq =>
      rw [heq] at hlink
      rw [hlink]
      exact h
  | linkRemove a b =>
    simp only [wgStep, wgRelayLinkRemove]
    split
    · next r1 heq =>
      have hr1 : r1 = (linkRemoveLocked r a b).1 := (congrArg Prod.fst heq).symm
      rw [persistRosterLocked_peers, xdpRemoveLinkByNameLocked_peers, hr1]
      exact h
    · next heq =>
      rw [linkRemoveLocked_rejected heq]
      exact h
  | packet d =>
    intro p hp
    obtain ⟨q', hq', heff⟩ := exists_of_forall₂ (handlePacket_effect c r d) (List.mem_map_of_mem hp)
    obtain ⟨q, hq, rfl⟩ := List.mem_map.1 hq'
    exact resolved_packet (h q hq) heff
  | sweep clock =>
    intro p hp
    obtain ⟨q, hq, rfl⟩ := mem_expireCandidatesLocked hp
    exact resolved_swept (h q hq) clock.now

structure Kept (c : Libc) (r : WgRelay) : Prop where
  ok : RosterOk r.names r.links
  resolved : ∀ p ∈ r.peers, Resolved c p

theorem kept_reach {r : WgRelay} (h : Runs.Reach Empty (step c) Worded r) : Kept c r := by
  apply Runs.Reach.invariant _ _ h
  · rintro s ⟨path, xdp, rfl⟩
    exact ⟨.empty, fun _ hp => (List.not_mem_nil hp).elim⟩
  · intro s s' op hs hop hstep
    cases hstep
    exact ⟨(wgStep_effect c s op).ok hs.ok, resolved_step hs.resolved hop⟩

/-! ### The round trip -/

/-- The name service takes the numeric IPv4 hosts of the roster. -/
def NumericHosts (c : Libc) (r : WgRelay) : Prop :=
  ∀ p ∈ r.peers, ∀ addr port, plain p.endpoint = .in4 addr port →
    c.getaddrinfo (dotted addr) (decimal port.toNat) = some (.in4 addr port)

theorem formatEndpoint_cases (c : Libc) (ep : Sockaddr) :
    (∃ addr port, plain ep = .in4 addr port ∧ formatEndpoint c ep = formatV4 addr port) ∨
      (formatEndpoint c ep).head? = some 0x5b := by
  cases ep with
  | in4 addr port => exact .inl ⟨addr, port, rfl, rfl⟩
  | in6 head tail port flowinfo scopeId =>
    by_cases hmapped : head = kV4Prefix
    · exact .inl ⟨tail, port, if_pos hmapped, if_pos hmapped⟩
    · right
      simp [formatEndpoint, hmapped]

theorem Resolved.text {p : WgRelayPeer} (h : Resolved c p) (hs : Saveable p)
    (hnum : ∀ addr port, plain p.endpoint = .in4 addr port →
      c.getaddrinfo (dotted addr) (decimal port.toNat) = some (.in4 addr port)) :
    Word p.endpointStr ∧
      ∃ ep, parseHostPort c p.endpointStr = some ep ∧ plain ep = plain p.endpoint := by
  rcases h with ⟨hword, hparse⟩ | hformat
  · exact ⟨hword, p.endpoint, hparse, rfl⟩
  rcases formatEndpoint_cases c p.endpoint with ⟨addr, port, hplain, heq⟩ | hhead
  · rw [hformat, heq, parseHostPort_formatV4, hnum addr port hplain, hplain]
    exact ⟨word_formatV4 addr port, _, rfl, rfl⟩
  · exact absurd (hformat ▸ hhead) hs.endpoint

theorem saved_restored {p : WgRelayPeer} {ep : Sockaddr}
    (hparse : parseHostPort c p.endpointStr = some ep) (hplain : plain ep = plain p.endpoint) :
    saved (restored c p) = saved p := by
  simp [saved, restored, reread, hparse, hplain]

theorem roundTrips_of_saveable {r : WgRelay} (h : Kept c r) (hnum : NumericHosts c r)
    (hsave : ∀ p ∈ r.peers, Saveable p) : RoundTrips c r := by
  have htext := fun p hp => (h.resolved p hp).text (hsave p hp) (hnum p hp)
  have hreload := reload_eq c h.ok hsave fun p hp => by
    obtain ⟨hword, ep, hparse, -⟩ := htext p hp
    exact ⟨hword, by simp [hparse]⟩
  unfold RoundTrips
  rw [hreload]
  refine ⟨?_, rfl⟩
  rw [List.map_map]
  apply List.map_congr_left
  intro p hp
  obtain ⟨-, ep, hparse, hplain⟩ := htext p hp
  exact saved_restored hparse hplain

end step

/-- A roster comes back from its file just when the file can hold every peer of it. -/
theorem round_trips_iff (c : Libc) (hc : Brackets c) {r : WgRelay}
    (hr : Runs.Reach Empty (step c) Worded r) (hnum : NumericHosts c r) :
    RoundTrips c r ↔ ∀ p ∈ r.peers, Saveable p := by
  constructor
  · exact saveable_of_roundTrips hc
  · exact roundTrips_of_saveable (kept_reach hr) hnum

/-! Three peers, the last added under its IPv6 address; the first then roams. -/

open Text in
def hostTable : List (Bytes × Bytes × Sockaddr) :=
  [(utf8 "1.1.1.1", utf8 "10", .in4 0x01010101 10), (utf8 "2.2.2.2", utf8 "20", .in4 0x02020202 20),
    (utf8 "3.3.3.3", utf8 "30", .in4 0x03030303 30),
    (utf8 "2001:db8::1", utf8 "40", .in6 0x20010db80000000000000000 1 40 0 0)]

/-- Numeric hosts only; the one IPv6 address of the runs is 2001:db8::1. -/
def numericLibc : Libc where
  getaddrinfo host port :=
    (hostTable.find? fun e => decide (e.1 = host ∧ e.2.1 = port)).map fun e => e.2.2
  inetNtop6 _ _ := Text.utf8 "2001:db8::1"

theorem brackets_numericLibc : Brackets numericLibc := by
  have hplain : ∀ e ∈ hostTable, e.1.head? ≠ some 0x5b := by decide
  intro host port hhead
  simp only [numericLibc, Option.map_eq_none_iff, List.find?_eq_none, decide_eq_true_eq]
  rintro e he ⟨rfl, -⟩
  exact hplain e he hhead

open Text in
def setupOps : List WgOp :=
  [.peerAdd (utf8 "a") (utf8 "1.1.1.1:10") [],
    .peerAdd (utf8 "b") (utf8 "2.2.2.2:20") (utf8 "desk 2"), .peerKey (utf8 "b") zeroKeyB64,
    .peerAdd (utf8 "c") (utf8 "2001:db8::1:40") [], .linkAdd (utf8 "a") (utf8 "b"),
    .peerNic (utf8 "b") (utf8 "eth0")]

theorem run_step (c : Libc) (r : WgRelay) (ops : List WgOp) :
    Runs.run (step c) r ops = some (wgRun c r ops) := by
  induction ops generalizing r with
  | nil => rfl
  | cons op ops ih => exact ih (wgStep c r op).1

theorem worded_setup (r : WgRelay) : ∀ op ∈ setupOps, Worded r op := by
  have hwords : ∀ op ∈ setupOps, Worded {} op := by decide +kernel
  intro op hop
  have h := hwords op hop
  cases op <;> exact h

def numericAt (c : Libc) : Sockaddr → Bool
  | .in4 addr port =>
    decide (c.getaddrinfo (dotted addr) (decimal port.toNat) = some (.in4 addr port))
  | .in6 .. => true

theorem numericHosts_of_all {c : Libc} {r : WgRelay}
    (h : ∀ p ∈ r.peers, numericAt c (plain p.endpoint) = true) : NumericHosts c r := by
  intro p hp addr port hplain
  have hat := h p hp
  rw [hplain] at hat
  exact of_decide_eq_true hat

/-- Keys, labels, interfaces and an IPv6 address of the operator come back. -/
theorem round_trips_setup : RoundTrips numericLibc (wgRun numericLibc {} setupOps) := by
  have hreach : Runs.Reach Empty (step numericLibc) Worded (wgRun numericLibc {} setupOps) :=
    Runs.reach_run (.start {} ⟨[], {}, rfl⟩) (Runs.runOk_of_forall worded_setup {})
      (run_step numericLibc {} setupOps)
  have hpeers : ∀ p ∈ (wgRun numericLibc {} setupOps).peers,
      numericAt numericLibc (plain p.endpoint) = true ∧ Saveable p := by decide +kernel
  have hnum := numericHosts_of_all fun p hp => (hpeers p hp).1
  have hiff := round_trips_iff numericLibc brackets_numericLibc hreach hnum
  exact hiff.2 fun p hp => (hpeers p hp).2

/-- The first peer is seen at 2001:db8::1, port 30, answered and confirmed there. -/
def roamOps6 : List WgOp :=
  [.packet ⟨initPkt, .in6 0x20010db80000000000000000 1 30 0 0, .still (1 * kSecondNs), true⟩,
   .packet ⟨responsePkt, .in4 0x02020202 20, .still (2 * kSecondNs), true⟩,
   .packet ⟨4 :: List.replicate 31 0, .in6 0x20010db80000000000000000 1 30 0 0,
     .still (3 * kSecondNs), true⟩]

/-- Its line is then not read back. -/
theorem roamed6_lost :
    let r := wgRun numericLibc {} (setupOps ++ roamOps6)
    Runs.Reach Empty (step numericLibc) Worded r ∧ Brackets numericLibc ∧
      NumericHosts numericLibc r ∧ ¬ RoundTrips numericLibc r := by
  intro r
  have hpackets : ∀ s, ∀ op ∈ roamOps6, Worded s op := by
    intro s op hop
    simp only [roamOps6, List.mem_cons, List.not_mem_nil, or_false] at hop
    rcases hop with rfl | rfl | rfl
    · trivial
    · trivial
    · trivial
  have hreach : Runs.Reach Empty (step numericLibc) Worded r := by
    apply Runs.reach_run (.start {} ⟨[], {}, rfl⟩) _ (run_step numericLibc {} _)
    apply Runs.runOk_of_forall
    intro s op hop
    exact (List.mem_append.1 hop).elim (worded_setup s op) (hpackets s op)
  have hpeers : (∀ p ∈ r.peers, numericAt numericLibc (plain p.endpoint) = true) ∧
      ∃ p ∈ r.peers, p.endpointStr.head? = some 0x5b := by decide +kernel
  obtain ⟨hnum, p, hp, hhead⟩ := hpeers
  refine ⟨hreach, brackets_numericLibc, numericHosts_of_all hnum, fun h => ?_⟩
  exact (saveable_of_roundTrips brackets_numericLibc h p hp).endpoint hhead

end HyperDerp.RosterFile
