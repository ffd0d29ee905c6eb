import HyperDerp.WgRelay.Effects
import Mathlib.Data.List.Nodup
import Mathlib.Data.List.Pairwise

/-!
# Roster invariant (`wg_relay.cc:234-414`, `:1842-1866`)

Names are distinct, and the links form a matching of existing peers. The invariant
is a property of the list of names and the list of links; every operation either
leaves both alone or changes them in one of four ways.
-/

namespace HyperDerp

/-! ### Matchings on a list of names -/

def WgRelayLink.Apart (l m : WgRelayLink) : Prop := ∀ n, l.touches n = true → m.touches n = false

instance : Std.Symm WgRelayLink.Apart where
  symm l m h n hn := by
    by_contra hm
    rw [Bool.not_eq_false] at hm
    rw [h n hm] at hn
    cases hn

structure RosterOk (names : List Bytes) (links : List WgRelayLink) : Prop where
  nodup : names.Nodup
  ends : ∀ l ∈ links, l.a ≠ l.b ∧ l.a ∈ names ∧ l.b ∈ names
  apart : links.Pairwise WgRelayLink.Apart

namespace RosterOk

variable {names : List Bytes} {links : List WgRelayLink}

theorem empty : RosterOk [] [] := ⟨List.nodup_nil, fun _ h => (List.not_mem_nil h).elim, .nil⟩

theorem mem_of_touches (h : RosterOk names links) {l : WgRelayLink} {n : Bytes} (hl : l ∈ links)
    (ht : l.touches n = true) : n ∈ names := by
  obtain ⟨-, ha, hb⟩ := h.ends l hl
  rcases WgRelayLink.touches_iff.1 ht with rfl | rfl
  · exact ha
  · exact hb

theorem addPeer (h : RosterOk names links) {name : Bytes} (hname : name ∉ names) :
    RosterOk (names ++ [name]) links := by
  refine ⟨?_, fun l hl => ?_, h.apart⟩
  · apply h.nodup.append (List.nodup_singleton name)
    intro n hn hn'
    rw [List.mem_singleton] at hn'
    exact hname (hn' ▸ hn)
  · obtain ⟨hne, ha, hb⟩ := h.ends l hl
    exact ⟨hne, List.mem_append_left _ ha, List.mem_append_left _ hb⟩

theorem removePeer (h : RosterOk names links) (name : Bytes) :
    RosterOk (names.erase name) (links.filter fun l => !l.touches name) := by
  refine ⟨h.nodup.erase name, fun l hl => ?_, h.apart.filter _⟩
  rw [List.mem_filter, Bool.not_eq_true', ← Bool.not_eq_true, WgRelayLink.touches_iff,
    not_or] at hl
  obtain ⟨hmem, hna, hnb⟩ := hl
  obtain ⟨hne, ha, hb⟩ := h.ends l hmem
  exact ⟨hne, (List.mem_erase_of_ne hna).2 ha, (List.mem_erase_of_ne hnb).2 hb⟩

theorem addLink (h : RosterOk names links) {a b : Bytes} (hne : a ≠ b) (ha : a ∈ names)
    (hb : b ∈ names) (hfree : ∀ l ∈ links, l.touches a = false ∧ l.touches b = false) :
    RosterOk names (links ++ [⟨a, b⟩]) := by
  refine ⟨h.nodup, fun l hl => ?_, ?_⟩
  · rw [List.mem_append, List.mem_singleton] at hl
    rcases hl with hl | rfl
    · exact h.ends l hl
    · exact ⟨hne, ha, hb⟩
  · rw [List.pairwise_append]
    refine ⟨h.apart, List.pairwise_singleton _ _, fun l hl m hm => ?_⟩
    rw [List.mem_singleton] at hm
    subst hm
    intro n hn
    rw [← Bool.not_eq_true, WgRelayLink.touches_iff]
    rintro (rfl | rfl)
    · rw [(hfree l hl).1] at hn
      cases hn
    · rw [(hfree l hl).2] at hn
      cases hn

theorem removeLink (h : RosterOk names links) {links' : List WgRelayLink}
    (hsub : links'.Sublist links) : RosterOk names links' :=
  ⟨h.nodup, fun l hl => h.ends l (hsub.subset hl), h.apart.sublist hsub⟩

theorem link_unique (h : RosterOk names links) {l m : WgRelayLink} {n : Bytes} (hl : l ∈ links)
    (hm : m ∈ links) (hln : l.touches n = true) (hmn : m.touches n = true) : l = m := by
  by_contra hne
  have hoff := h.apart.forall hl hm hne n hln
  rw [hoff] at hmn
  cases hmn

end RosterOk

section linked

variable {names : List Bytes} {links : List WgRelayLink}

theorem LinkedIn.unique (hr : RosterOk names links) {a b b' : Bytes} (h : LinkedIn links a b)
    (h' : LinkedIn links a b') : b = b' := by
  obtain ⟨l, hl, hj⟩ := h
  obtain ⟨m, hm, hj'⟩ := h'
  rw [WgRelayLink.joins_iff] at hj hj'
  have hla : l.touches a = true := WgRelayLink.touches_iff.2 (hj.imp And.left And.right)
  have hma : m.touches a = true := WgRelayLink.touches_iff.2 (hj'.imp And.left And.right)
  have hlm := hr.link_unique hl hm hla hma
  subst hlm
  obtain ⟨hne, -, -⟩ := hr.ends l hl
  rcases hj with ⟨h1, h2⟩ | ⟨h1, h2⟩ <;> rcases hj' with ⟨h3, h4⟩ | ⟨h3, h4⟩
  · exact h2.symm.trans h4
  · exact (hne (h1.trans h4.symm)).elim
  · exact (hne (h3.trans h2.symm)).elim
  · exact h1.symm.trans h3

theorem LinkedIn.ne (hr : RosterOk names links) {a b : Bytes} (h : LinkedIn links a b) : a ≠ b := by
  obtain ⟨l, hl, hj⟩ := h
  obtain ⟨hne, -, -⟩ := hr.ends l hl
  rcases WgRelayLink.joins_iff.1 hj with ⟨rfl, rfl⟩ | ⟨rfl, rfl⟩
  · exact hne
  · exact hne.symm

theorem LinkedIn.mem (hr : RosterOk names links) {a b : Bytes} (h : LinkedIn links a b) :
    a ∈ names := by
  obtain ⟨l, hl, hj⟩ := h
  obtain ⟨-, ha, hb⟩ := hr.ends l hl
  rcases WgRelayLink.joins_iff.1 hj with ⟨rfl, -⟩ | ⟨-, rfl⟩
  · exact ha
  · exact hb

end linked

/-! ### What an operation does to names and links -/

def WgRelay.names (r : WgRelay) : List Bytes := r.peers.map WgRelayPeer.name

inductive RosterEff (r r' : WgRelay) : Prop
  | same (hn : r'.names = r.names) (hl : r'.links = r.links)
  | addPeer (name : Bytes) (hname : name ∉ r.names) (hn : r'.names = r.names ++ [name])
      (hl : r'.links = r.links)
  | removePeer (name : Bytes) (hn : r'.names = r.names.erase name)
      (hl : r'.links = r.links.filter fun l => !l.touches name)
  | addLink (a b : Bytes) (hne : a ≠ b) (ha : a ∈ r.names) (hb : b ∈ r.names)
      (hfree : ∀ l ∈ r.links, l.touches a = false ∧ l.touches b = false)
      (hn : r'.names = r.names) (hl : r'.links = r.links ++ [⟨a, b⟩])
  | removeLink (hn : r'.names = r.names) (hl : r'.links.Sublist r.links)

variable {r r1 : WgRelay} {name : Bytes}

theorem RosterEff.ok {r' : WgRelay} (h : RosterEff r r') (hr : RosterOk r.names r.links) :
    RosterOk r'.names r'.links := by
  cases h with
  | same hn hl =>
    rw [hn, hl]
    exact hr
  | addPeer name hname hn hl =>
    rw [hn, hl]
    exact hr.addPeer hname
  | removePeer name hn hl =>
    rw [hn, hl]
    exact hr.removePeer name
  | addLink a b hne ha hb hfree hn hl =>
    rw [hn, hl]
    exact hr.addLink hne ha hb hfree
  | removeLink hn hl =>
    rw [hn]
    exact hr.removeLink hl

theorem peerKnown_iff :
    peerKnown r.peers name = true ↔ name ∈ r.names := by
  simp [peerKnown, WgRelay.names]

theorem names_of_peers {r' : WgRelay} (h : r'.peers = r.peers) : r'.names = r.names :=
  congrArg (List.map WgRelayPeer.name) h

theorem modifyPeer_names {f : WgRelayPeer → WgRelayPeer} (hf : ∀ p, (f p).name = p.name) :
    (r.modifyPeer name f).names = r.names :=
  map_modifyFirst WgRelayPeer.name _ f hf r.peers

theorem modifyPeer_unknown {f : WgRelayPeer → WgRelayPeer} (h : peerKnown r.peers name = false) :
    r.modifyPeer name f = r := by
  have hnone : ∀ p ∈ r.peers, decide (p.name = name) = false := by
    intro p hp
    rw [decide_eq_false_iff_not]
    intro heq
    have hk : peerKnown r.peers name = true := peerKnown_iff.2 (heq ▸ List.mem_map_of_mem hp)
    rw [hk] at h
    cases h
  unfold WgRelay.modifyPeer
  rw [modifyFirst_of_none hnone]

theorem map_eq_of_forall₂ {α β : Type} {g : α → β} {xs ys : List α}
    (h : List.Forall₂ (fun x y => g y = g x) xs ys) : ys.map g = xs.map g := by
  induction h with
  | nil => rfl
  | cons hx _ ih => simp only [List.map_cons, hx, ih]

/-! ### One lemma for each operation -/

section ops

variable (c : Libc) (r : WgRelay)

theorem peerAddLocked_cases (name endpoint label : Bytes) :
    peerAddLocked c r name endpoint label = (r, false) ∨
      ∃ p : WgRelayPeer, p.name = name ∧ name ∉ r.names ∧ parseHostPort c endpoint = some p.endpoint ∧
        p.candidateEndpoint = none ∧ p.lastRelearnNs = 0 ∧ p.candidatePartnerResponded = false ∧
        peerAddLocked c r name endpoint label = ({ r with peers := r.peers ++ [p] }, true) := by
  unfold peerAddLocked
  split
  · exact .inl rfl
  · next hfresh =>
    have hname : name ∉ r.names := fun h => hfresh (peerKnown_iff.2 h)
    split
    · exact .inl rfl
    · next ep hep => exact .inr ⟨_, rfl, hname, hep, rfl, rfl, rfl, rfl⟩

theorem peerAddLocked_effect (name endpoint label : Bytes) :
    RosterEff r (peerAddLocked c r name endpoint label).1 := by
  rcases peerAddLocked_cases c r name endpoint label with h | ⟨p, hp, hname, -, -, -, -, h⟩
  · rw [h]
    exact .same rfl rfl
  · rw [h]
    refine .addPeer name hname ?_ rfl
    simp [WgRelay.names, hp]

theorem peerKeyLocked_effect (name pubkey : Bytes) : RosterEff r (peerKeyLocked r name pubkey).1 :=
  .same (modifyPeer_names fun _ => rfl) rfl

theorem peerNicLocked_effect (name nic : Bytes) : RosterEff r (peerNicLocked r name nic).1 :=
  .same (modifyPeer_names fun _ => rfl) rfl

theorem peerRemoveLocked_effect (name : Bytes) : RosterEff r (peerRemoveLocked r name).1 := by
  refine .removePeer name ?_ rfl
  unfold WgRelay.names peerRemoveLocked
  dsimp only
  rw [List.erase_eq_eraseP, List.eraseP_map]
  congr 2
  funext p
  rw [Bool.eq_iff_iff, Function.comp, beq_iff_eq, decide_eq_true_eq]
  exact eq_comm

theorem linkAddLocked_cases (a b : Bytes) :
    (linkAddLocked r a b).1 = r ∧ (linkAddLocked r a b).2 ≠ .kWgLinkOk ∨
      a ≠ b ∧ a ∈ r.names ∧ b ∈ r.names ∧
        (∀ l ∈ r.links, l.touches a = false ∧ l.touches b = false) ∧
        linkAddLocked r a b = ({ r with links := r.links ++ [⟨a, b⟩] }, .kWgLinkOk) := by
  unfold linkAddLocked
  split
  · exact .inl ⟨rfl, nofun⟩
  next hne =>
  split
  · exact .inl ⟨rfl, nofun⟩
  next hknown =>
  split
  · exact .inl ⟨rfl, nofun⟩
  split
  · exact .inl ⟨rfl, nofun⟩
  next hfree =>
  simp only [Bool.or_eq_true, Bool.not_eq_true', not_or, Bool.not_eq_false] at hknown
  have hoff : ∀ n, ¬ peerHasLink r.links n = true → ∀ l ∈ r.links, l.touches n = false := by
    intro n hn l hl
    by_contra ht
    rw [Bool.not_eq_false] at ht
    exact hn (List.any_eq_true.2 ⟨l, hl, ht⟩)
  rw [Bool.or_eq_true, not_or] at hfree
  exact .inr ⟨hne, peerKnown_iff.1 hknown.1, peerKnown_iff.1 hknown.2,
    fun l hl => ⟨hoff a hfree.1 l hl, hoff b hfree.2 l hl⟩, rfl⟩

theorem linkAddLocked_effect (a b : Bytes) : RosterEff r (linkAddLocked r a b).1 := by
  rcases linkAddLocked_cases r a b with ⟨h, -⟩ | ⟨hne, ha, hb, hfree, h⟩
  · rw [h]
    exact .same rfl rfl
  · rw [h]
    exact .addLink a b hne ha hb hfree rfl rfl

theorem linkRemoveLocked_effect (a b : Bytes) : RosterEff r (linkRemoveLocked r a b).1 :=
  .removeLink rfl List.eraseP_sublist

theorem handlePacket_names (d : Datagram) : (handlePacket c r d).1.names = r.names := by
  have hbare : ∀ r' : WgRelay, r'.names = r'.bares.map WgRelayPeer.name := by
    intro r'
    simp only [WgRelay.names, WgRelay.bares, List.map_map]
    rfl
  have hname : ∀ q q', PacketEff c r d (handlePacket c r d).2 q q' → q'.name = q.name := by
    intro q q' h
    rcases h with rfl | ⟨-, h⟩
    · rfl
    · rw [← swept_name q d.clock.sweep.now]
      cases h <;> rfl
  rw [hbare, hbare]
  exact map_eq_of_forall₂ ((handlePacket_effect c r d).imp hname)

end ops

/-! ### Operator calls -/

theorem RosterEff.of_tables {r2 : WgRelay} (h : RosterEff r r1) (hp : r2.peers = r1.peers)
    (hl : r2.links = r1.links) : RosterEff r r2 := by
  have hn := names_of_peers hp
  cases h with
  | same h1 h2 => exact .same (hn.trans h1) (hl.trans h2)
  | addPeer name hname h1 h2 => exact .addPeer name hname (hn.trans h1) (hl.trans h2)
  | removePeer name h1 h2 => exact .removePeer name (hn.trans h1) (hl.trans h2)
  | addLink a b hne ha hb hfree h1 h2 =>
    exact .addLink a b hne ha hb hfree (hn.trans h1) (hl.trans h2)
  | removeLink h1 h2 => exact .removeLink (hn.trans h1) (hl ▸ h2)

theorem foldl_tables {f : WgRelay → WgRelayLink → WgRelay}
    (hf : ∀ r l, (f r l).peers = r.peers ∧ (f r l).links = r.links) (r : WgRelay)
    (ls : List WgRelayLink) :
    (ls.foldl f r).peers = r.peers ∧ (ls.foldl f r).links = r.links := by
  induction ls generalizing r with
  | nil => exact ⟨rfl, rfl⟩
  | cons l ls ih =>
    obtain ⟨hpeers, hlinks⟩ := hf r l
    exact ⟨(ih _).1.trans hpeers, (ih _).2.trans hlinks⟩

theorem foldl_xdpInsert_tables (r : WgRelay) (ls : List WgRelayLink) :
    (ls.foldl (fun r l => xdpInsertLinkByNameLocked r l.a l.b) r).peers = r.peers ∧
      (ls.foldl (fun r l => xdpInsertLinkByNameLocked r l.a l.b) r).links = r.links :=
  foldl_tables (fun _ _ => ⟨xdpInsertLinkByNameLocked_peers .., xdpInsertLinkByNameLocked_links ..⟩)
    r ls

theorem foldl_xdpRemove_tables (r : WgRelay) (ls : List WgRelayLink) :
    (ls.foldl (fun r l => xdpRemoveLinkByNameLocked r l.a l.b) r).peers = r.peers ∧
      (ls.foldl (fun r l => xdpRemoveLinkByNameLocked r l.a l.b) r).links = r.links :=
  foldl_tables (fun _ _ => ⟨xdpRemoveLinkByNameLocked_peers .., xdpRemoveLinkByNameLocked_links ..⟩)
    r ls

theorem wgStep_effect (c : Libc) (r : WgRelay) (op : WgOp) : RosterEff r (wgStep c r op).1 := by
  cases op with
  | peerAdd name endpoint label =>
    have h := peerAddLocked_effect c r name endpoint label
    simp only [wgStep, wgRelayPeerAdd]
    split
    · next heq =>
      rw [heq] at h
      exact h.of_tables (by simp) (by simp)
    · next heq =>
      rw [heq] at h
      exact h
  | peerKey name pubkey =>
    have h := peerKeyLocked_effect r name pubkey
    simp only [wgStep, wgRelayPeerKey]
    split
    · next heq =>
      rw [heq] at h
      exact h.of_tables (by simp) (by simp)
    · next heq =>
      rw [heq] at h
      exact h
  | peerNic name nic =>
    have h := peerNicLocked_effect r name nic
    simp only [wgStep, wgRelayPeerNic]
    split
    · exact .same rfl rfl
    · split
      · next r1 heq =>
        rw [heq] at h
        have hx := foldl_xdpInsert_tables r1 (r1.links.filter fun l => l.touches name)
        exact h.of_tables (by simpa using hx.1) (by simpa using hx.2)
      · next heq =>
        rw [heq] at h
        exact h
  | peerRemove name =>
    have h := peerRemoveLocked_effect r name
    simp only [wgStep, wgRelayPeerRemove]
    split
    · next r1 heq =>
      rw [heq] at h
      have hx := foldl_xdpRemove_tables r1 (r.links.filter fun l => l.touches name)
      exact h.of_tables (by simpa using hx.1) (by simpa using hx.2)
    · next heq =>
      rw [heq] at h
      exact h
  | linkAdd a b =>
    have h := linkAddLocked_effect r a b
    simp only [wgStep, wgRelayLinkAdd, wgRelayLinkAddDetail]
    split
    · next heq =>
      rw [heq] at h
      exact h.of_tables (by simp) (by simp)
    · next heq =>
      rw [heq] at h
      exact h
  | linkRemove a b =>
    have h := linkRemoveLocked_effect r a b
    simp only [wgStep, wgRelayLinkRemove]
    split
    · next heq =>
      rw [heq] at h
      exact h.of_tables (by simp) (by simp)
    · next heq =>
      rw [heq] at h
      exact h
  | packet d => exact .same (handlePacket_names c r d) (handlePacket_links c r d)
  | sweep clock =>
    refine .same ?_ (expireCandidatesLocked_links r clock)
    simp only [wgStep, WgRelay.names, expireCandidatesLocked_peers, List.map_map]
    exact List.map_congr_left fun p _ => swept_name p clock.now

/-! ### Loading and merging -/

structure KeptByRoster (c : Libc) (P : WgRelay → Prop) : Prop where
  add : ∀ r name endpoint label, P r → P (peerAddLocked c r name endpoint label).1
  key : ∀ r name pubkey, P r → P (peerKeyLocked r name pubkey).1
  nic : ∀ r name nic, P r → P (peerNicLocked r name nic).1
  remove : ∀ r name, P r → P (peerRemoveLocked r name).1
  link : ∀ r a b, P r → P (linkAddLocked r a b).1
  persist : ∀ r, P r → P (persistRosterLocked r)

namespace KeptByRoster

variable {c : Libc} {P : WgRelay → Prop} (hP : KeptByRoster c P)

include hP

theorem loadLine (r : WgRelay) (n : RosterCounts) (line : Bytes) (h : P r) :
    P (loadRosterLine c r n line).1 := by
  unfold loadRosterLine
  dsimp only
  split
  · exact h
  split
  · split
    · exact h
    have hadd := hP.add r (readToken (readToken line).2).1
      (readToken (readToken (readToken line).2).2).1
      ((readToken (readToken (readToken (readToken line).2).2).2).2.dropWhile (· = 0x20)) h
    split
    · next heq =>
      rw [heq] at hadd
      split
      · exact hadd
      · exact hP.key _ _ _ hadd
    · next heq =>
      rw [heq] at hadd
      exact hadd
  split
  · split
    · exact h
    have hlink := hP.link r (readToken (readToken line).2).1
      (readToken (readToken (readToken line).2).2).1 h
    split
    · next heq =>
      rw [heq] at hlink
      exact hlink
    · next _ heq =>
      rw [heq] at hlink
      exact hlink
  split
  · split
    · exact h
    have hnic := hP.nic r (readToken (readToken line).2).1
      (readToken (readToken (readToken line).2).2).1 h
    split
    · next heq =>
      rw [heq] at hnic
      exact hnic
    · next heq =>
      rw [heq] at hnic
      exact hnic
  · exact h

theorem load (r : WgRelay) (file : Bytes) (h : P r) : P (loadRosterFile c r file).1 := by
  unfold loadRosterFile
  generalize file.splitOn 0x0a = lines
  generalize ({} : RosterCounts) = n
  -- one line after the other, each from the tables the last one left
  induction lines generalizing r n with
  | nil => exact h
  | cons line lines ih => exact ih _ (hP.loadLine r n line h) _

theorem mergeEntry (r : WgRelay) (p : PeerEntry) (h : P r) : P (mergePeer c r p) := by
  have hadd := hP.add _ p.name p.endpoint p.label (hP.remove r p.name h)
  unfold mergePeer
  dsimp only
  split
  · next heq =>
    rw [heq] at hadd
    split
    · exact hadd
    · exact hP.key _ _ _ hadd
  · next heq =>
    rw [heq] at hadd
    exact hadd

theorem merge (r : WgRelay) (cfg : WgRelayConfig) (h : P r) : P (mergeConfig c r cfg) := by
  have hpeers : ∀ (ps : List PeerEntry) (r : WgRelay), P r → P (ps.foldl (mergePeer c) r) := by
    intro ps
    induction ps with
    | nil => exact fun _ h => h
    | cons p ps ih => exact fun r h => ih _ (hP.mergeEntry r p h)
  have hlinks : ∀ (ls : List WgRelayLink) (r : WgRelay), P r →
      P (ls.foldl (fun r l => (linkAddLocked r l.a l.b).1) r) := by
    intro ls
    induction ls with
    | nil => exact fun _ h => h
    | cons l ls ih => exact fun r h => ih _ (hP.link r l.a l.b h)
  have hmerged := hlinks cfg.links _ (hpeers cfg.peers r h)
  unfold mergeConfig
  dsimp only
  split
  · exact hmerged
  · exact hP.persist _ hmerged

theorem start (cfg : WgRelayConfig) (file : Option Bytes)
    (h : P { rosterPath := cfg.rosterPath, rosterFile := file.getD [] }) :
    P (wgRelayStart c cfg file) := by
  unfold wgRelayStart
  dsimp only
  apply hP.merge
  split
  · split
    · exact h
    · exact hP.load _ _ h
  · exact h

end KeptByRoster

theorem rosterOk_kept (c : Libc) : KeptByRoster c fun r => RosterOk r.names r.links where
  add r name endpoint label h := (peerAddLocked_effect c r name endpoint label).ok h
  key r name pubkey h := (peerKeyLocked_effect r name pubkey).ok h
  nic r name nic h := (peerNicLocked_effect r name nic).ok h
  remove r name h := (peerRemoveLocked_effect r name).ok h
  link r a b h := (linkAddLocked_effect r a b).ok h
  persist r h := by
    rw [persistRosterLocked_links, names_of_peers (persistRosterLocked_peers _)]
    exact h

theorem rosterStep_keeps (c : Libc) (r : WgRelay) (op : RosterOp) (h : RosterOk r.names r.links) :
    RosterOk (rosterStep c r op).1.names (rosterStep c r op).1.links := by
  cases op with
  | load file => exact (rosterOk_kept c).load r file h
  | merge cfg => exact (rosterOk_kept c).merge r cfg h
  | op o => exact (wgStep_effect c r o).ok h

theorem rosterRun_ok (c : Libc) (r : WgRelay) (hr : RosterOk r.names r.links)
    (ops : List RosterOp) : RosterOk (rosterRun c r ops).names (rosterRun c r ops).links := by
  unfold rosterRun
  induction ops generalizing r with
  | nil => exact hr
  | cons op ops ih => exact ih _ (rosterStep_keeps c r op hr)

/-! ### Rejected operations -/

theorem peerAddLocked_rejected {c : Libc} {endpoint label : Bytes}
    (h : peerAddLocked c r name endpoint label = (r1, false)) : r1 = r := by
  rcases peerAddLocked_cases c r name endpoint label with heq | ⟨p, -, -, -, -, -, -, heq⟩
  · rw [heq] at h
    cases h
    rfl
  · rw [heq] at h
    cases h

theorem linkAddLocked_rejected {a b : Bytes} {rc : WgRelayLinkAddResult}
    (h : linkAddLocked r a b = (r1, rc)) (hrc : rc ≠ .kWgLinkOk) : r1 = r := by
  rcases linkAddLocked_cases r a b with ⟨heq, -⟩ | ⟨-, -, -, -, heq⟩
  · rw [h] at heq
    exact heq
  · rw [heq] at h
    cases h
    exact (hrc rfl).elim

theorem peerKeyLocked_rejected {pubkey : Bytes} (h : peerKeyLocked r name pubkey = (r1, false)) :
    r1 = r := by
  rw [show r1 = (peerKeyLocked r name pubkey).1 from (congrArg Prod.fst h).symm]
  exact modifyPeer_unknown (congrArg Prod.snd h)

theorem peerNicLocked_rejected {nic : Bytes} (h : peerNicLocked r name nic = (r1, false)) :
    r1 = r := by
  rw [show r1 = (peerNicLocked r name nic).1 from (congrArg Prod.fst h).symm]
  exact modifyPeer_unknown (congrArg Prod.snd h)

theorem peerRemoveLocked_rejected (hr : RosterOk r.names r.links)
    (h : peerRemoveLocked r name = (r1, false)) : r1 = r := by
  have hname : name ∉ r.names := by
    intro hmem
    have hk : (peerRemoveLocked r name).2 = true := peerKnown_iff.2 hmem
    rw [h] at hk
    cases hk
  have hlinks : (r.links.filter fun l => !l.touches name) = r.links := by
    rw [List.filter_eq_self]
    intro l hl
    rw [Bool.not_eq_true', ← Bool.not_eq_true]
    exact fun ht => hname (hr.mem_of_touches hl ht)
  have hpeers : (r.peers.eraseP fun p => p.name = name) = r.peers := by
    apply List.eraseP_of_forall_not
    intro p hp hdec
    exact hname (of_decide_eq_true hdec ▸ List.mem_map_of_mem hp)
  rw [show r1 = (peerRemoveLocked r name).1 from (congrArg Prod.fst h).symm]
  unfold peerRemoveLocked
  rw [hlinks, hpeers]

theorem linkRemoveLocked_rejected {a b : Bytes} (h : linkRemoveLocked r a b = (r1, false)) :
    r1 = r := by
  have hnone : ∀ l ∈ r.links, ¬ l.joins a b = true := by
    intro l hl hj
    have hany : (linkRemoveLocked r a b).2 = true := List.any_eq_true.2 ⟨l, hl, hj⟩
    rw [h] at hany
    cases hany
  rw [show r1 = (linkRemoveLocked r a b).1 from (congrArg Prod.fst h).symm]
  unfold linkRemoveLocked
  rw [List.eraseP_of_forall_not hnone]

theorem wgStep_rejected {c : Libc} (hr : RosterOk r.names r.links) {op : WgOp}
    (h : (wgStep c r op).2 = false) : (wgStep c r op).1 = r := by
  cases op with
  | peerAdd name endpoint label =>
    simp only [wgStep, wgRelayPeerAdd] at h ⊢
    split at h
    · cases h
    · next heq => exact peerAddLocked_rejected heq
  | peerKey name pubkey =>
    simp only [wgStep, wgRelayPeerKey] at h ⊢
    split at h
    · cases h
    · next heq => exact peerKeyLocked_rejected heq
  | peerNic name nic =>
    simp only [wgStep, wgRelayPeerNic] at h ⊢
    split
    · rfl
    · next hnic =>
      rw [if_neg hnic] at h
      split at h
      · cases h
      · next heq => exact peerNicLocked_rejected heq
  | peerRemove name =>
    simp only [wgStep, wgRelayPeerRemove] at h ⊢
    split at h
    · cases h
    · next heq => exact peerRemoveLocked_rejected hr heq
  | linkAdd a b =>
    have hrc : (wgRelayLinkAddDetail r a b).2 ≠ .kWgLinkOk := of_decide_eq_false h
    change (wgRelayLinkAddDetail r a b).1 = r
    unfold wgRelayLinkAddDetail at hrc ⊢
    cases heq : linkAddLocked r a b with
    | mk r1 rc =>
      rw [heq] at hrc
      cases rc with
      | kWgLinkOk => exact (hrc rfl).elim
      | kWgLinkUnknownPeer => exact linkAddLocked_rejected heq nofun
      | kWgLinkSelfLink => exact linkAddLocked_rejected heq nofun
      | kWgLinkAlreadyLinked => exact linkAddLocked_rejected heq nofun
      | kWgLinkDuplicate => exact linkAddLocked_rejected heq nofun
  | linkRemove a b =>
    simp only [wgStep, wgRelayLinkRemove] at h ⊢
    split at h
    · cases h
    · next heq => exact linkRemoveLocked_rejected heq
  | packet d => cases h
  | sweep => cases h

theorem loadRosterLine_rejected {c : Libc} {n : RosterCounts} {line : Bytes}
    (h : (loadRosterLine c r n line).2.bad ≠ n.bad) : (loadRosterLine c r n line).1 = r := by
  unfold loadRosterLine at h ⊢
  dsimp only at h ⊢
  split
  · rfl
  next h0 =>
  rw [if_neg h0] at h
  split
  · next hk =>
    rw [if_pos hk] at h
    split
    · rfl
    next he =>
    rw [if_neg he] at h
    split
    · next heq =>
      rw [heq] at h
      exact (h rfl).elim
    · next heq => exact peerAddLocked_rejected heq
  next hk =>
  rw [if_neg hk] at h
  split
  · next hk2 =>
    rw [if_pos hk2] at h
    split
    · rfl
    next he =>
    rw [if_neg he] at h
    split
    · next heq =>
      rw [heq] at h
      exact (h rfl).elim
    · next hne heq => exact linkAddLocked_rejected heq hne
  next hk2 =>
  rw [if_neg hk2] at h
  split
  · next hk3 =>
    rw [if_pos hk3] at h
    split
    · rfl
    next he =>
    rw [if_neg he] at h
    split
    · next heq =>
      rw [heq] at h
      exact (h rfl).elim
    · next heq => exact peerNicLocked_rejected heq
  · rfl

/-! ### Link partners -/

section partners

variable {r : WgRelay}

theorem findPeer_of_mem {name : Bytes} (h : name ∈ r.names) : ∃ p, r.findPeer name = some p := by
  obtain ⟨p, hp, hname⟩ := List.mem_map.1 h
  have hsome : (r.findPeer name).isSome = true :=
    List.find?_isSome.2 ⟨p, hp, decide_eq_true hname⟩
  exact Option.isSome_iff_exists.1 hsome

theorem findPeer_of_peer (hr : RosterOk r.names r.links) {p : WgRelayPeer} (hp : p ∈ r.peers) :
    r.findPeer p.name = some p := by
  obtain ⟨q, hq⟩ := findPeer_of_mem (List.mem_map_of_mem hp)
  have hqp : q = p := List.inj_on_of_nodup_map hr.nodup (findPeer_mem hq) hp (findPeer_name hq)
  rw [hq, hqp]

theorem findLinkPartnerLocked_of_linked (hr : RosterOk r.names r.links) {a : Bytes}
    {q : WgRelayPeer} (h : Linked r a q.name) (hq : q ∈ r.peers) :
    findLinkPartnerLocked r a = some q := by
  have hfind := findPeer_of_peer hr hq
  have hsome : (findLinkPartnerLocked r a).isSome = true := by
    obtain ⟨l, hl, hj⟩ := h
    rw [findLinkPartnerLocked, List.findSome?_isSome_iff]
    refine ⟨l, hl, ?_⟩
    rcases WgRelayLink.joins_iff.1 hj with ⟨ha, hb⟩ | ⟨ha, hb⟩
    · rw [if_pos ha, hb, hfind]
      rfl
    · have hne : l.a ≠ a := fun h => (hr.ends l hl).1 (h.trans hb.symm)
      rw [if_neg hne, if_pos hb, ha, hfind]
      rfl
  obtain ⟨q', hq'⟩ := Option.isSome_iff_exists.1 hsome
  obtain ⟨hlink, hfind'⟩ := findLinkPartnerLocked_linked hq'
  rw [← h.unique hr hlink, hfind] at hfind'
  cases hfind'
  exact hq'

theorem forwardDst_eq (hr : RosterOk r.names r.links) (name : Bytes) :
    forwardDst r name = findLinkPartnerLocked r name := by
  cases hpart : findLinkPartnerLocked r name with
  | none =>
    cases hdst : forwardDst r name with
    | none => rfl
    | some q =>
      obtain ⟨hlink, hfind⟩ := forwardDst_linked hdst
      rw [findLinkPartnerLocked_of_linked hr hlink (findPeer_mem hfind)] at hpart
      cases hpart
  | some q =>
    obtain ⟨hlink, hfind⟩ := findLinkPartnerLocked_linked hpart
    obtain ⟨l, hl, hj⟩ := hlink
    rw [WgRelayLink.joins_iff] at hj
    have htouch : l.touches name = true := WgRelayLink.touches_iff.2 (hj.imp And.left And.right)
    have hsome : (r.links.find? fun l => l.touches name).isSome = true :=
      List.find?_isSome.2 ⟨l, hl, htouch⟩
    obtain ⟨m, hm⟩ := Option.isSome_iff_exists.1 hsome
    have hm' : m.touches name = true := by
      have h := List.find?_some hm
      exact h
    have hml := hr.link_unique (List.mem_of_find?_eq_some hm) hl hm' htouch
    subst hml
    unfold forwardDst
    rw [hm]
    dsimp only
    rcases hj with ⟨ha, hb⟩ | ⟨ha, hb⟩
    · rw [if_pos ha, hb]
      exact hfind
    · have hne : m.a ≠ name := fun h => (hr.ends m hl).1 (h.trans hb.symm)
      rw [if_neg hne, ha]
      exact hfind

theorem findLinkPartnerLocked_involutive (hr : RosterOk r.names r.links) {name : Bytes}
    {q : WgRelayPeer} (h : findLinkPartnerLocked r name = some q) :
    q.name ≠ name ∧ ∃ p, r.findPeer name = some p ∧ findLinkPartnerLocked r q.name = some p := by
  obtain ⟨hlink, hfind⟩ := findLinkPartnerLocked_linked h
  obtain ⟨p, hp⟩ := findPeer_of_mem (hlink.mem hr)
  refine ⟨(hlink.ne hr).symm, p, hp, ?_⟩
  apply findLinkPartnerLocked_of_linked hr _ (findPeer_mem hp)
  rw [findPeer_name hp]
  exact hlink.symm

end partners

/-! ### Main result -/

/-- What holds of the tables in every state. -/
structure RosterInvariant (c : Libc) (r : WgRelay) : Prop where
  names : (r.peers.map WgRelayPeer.name).Nodup
  ends : ∀ l ∈ r.links, l.a ≠ l.b ∧ (∃ p ∈ r.peers, p.name = l.a) ∧ ∃ p ∈ r.peers, p.name = l.b
  once : ∀ name, (r.links.filter fun l => l.touches name).length ≤ 1
  rejected : ∀ op, (rosterStep c r op).2 = false →
    (rosterStep c r op).1.peers = r.peers ∧ (rosterStep c r op).1.links = r.links
  destination : ∀ name, forwardDst r name = findLinkPartnerLocked r name
  involution : ∀ name q, findLinkPartnerLocked r name = some q →
    q.name ≠ name ∧ ∃ p, r.findPeer name = some p ∧ findLinkPartnerLocked r q.name = some p

/-- The calls that loading and merging are made of, in whatever state they happen: one
that is rejected, or a line that is counted as bad, changes nothing. -/
structure RejectsCleanly (c : Libc) (r : WgRelay) : Prop where
  line : ∀ n line, (loadRosterLine c r n line).2.bad ≠ n.bad → (loadRosterLine c r n line).1 = r
  peer : ∀ name endpoint label, (peerAddLocked c r name endpoint label).2 = false →
    (peerAddLocked c r name endpoint label).1 = r
  link : ∀ a b, (linkAddLocked r a b).2 ≠ .kWgLinkOk → (linkAddLocked r a b).1 = r

theorem RosterOk.once {names : List Bytes} {links : List WgRelayLink} (h : RosterOk names links)
    (name : Bytes) : (links.filter fun l => l.touches name).length ≤ 1 := by
  have hall : ∀ l ∈ links.filter (fun l => l.touches name), l.touches name = true :=
    fun l hl => (List.mem_filter.1 hl).2
  have hapart := h.apart.filter fun l => l.touches name
  cases hf : links.filter fun l => l.touches name with
  | nil => simp
  | cons l rest =>
    cases rest with
    | nil => simp
    | cons m rest =>
      rw [hf] at hapart hall
      have hl := hall l (List.mem_cons_self ..)
      have hm := hall m (List.mem_cons_of_mem _ (List.mem_cons_self ..))
      have hoff := (List.pairwise_cons.1 hapart).1 m (List.mem_cons_self ..) name hl
      rw [hoff] at hm
      cases hm

/-- Over every sequence of loading, merging, operator calls, datagrams and sweeps, from
a relay with empty tables. -/
theorem roster_invariant (c : Libc) (path : Bytes) (xdp : WgXdpCtx) (ops : List RosterOp) :
    RosterInvariant c (rosterRun c { rosterPath := path, xdp := xdp } ops) ∧
      ∀ r, RejectsCleanly c r := by
  have hr := rosterRun_ok c { rosterPath := path, xdp := xdp } .empty ops
  refine ⟨?_, fun r => ⟨?_, ?_, ?_⟩⟩
  · refine ⟨hr.nodup, ?_, hr.once, ?_, forwardDst_eq hr, ?_⟩
    · intro l hl
      obtain ⟨hne, ha, hb⟩ := hr.ends l hl
      exact ⟨hne, List.mem_map.1 ha, List.mem_map.1 hb⟩
    · intro op hrej
      cases op with
      | load file => cases hrej
      | merge cfg => cases hrej
      | op o =>
        have h := wgStep_rejected hr hrej
        exact ⟨congrArg WgRelay.peers h, congrArg WgRelay.links h⟩
    · exact fun name q h => findLinkPartnerLocked_involutive hr h
  · exact fun n line h => loadRosterLine_rejected h
  · exact fun name endpoint label h => peerAddLocked_rejected (Prod.ext rfl h)
  · exact fun a b h => linkAddLocked_rejected rfl h

end HyperDerp
