import HyperDerp.Lib.Runs
import HyperDerp.WgRelay.EndpointMap
import HyperDerp.WgRelay.XdpProgram

/-!
# The fast path's map over runs (`wg_relay.cc:1068-1135`, `:1767-1799`, `:1976-2021`)

The relay keeps `wg_peers` in step with its tables as long as no linked peer is removed
and peers are linked only when their traffic is attributed to them: one lemma for each
operation, and `fastInv_start` for the replay of the links when the program is attached.
-/

namespace HyperDerp

/-! ### The relay's map -/

def WgRelayPeer.view (p : WgRelayPeer) : PeerView := ⟨p.name, p.endpoint, p.nic⟩

def WgRelay.views (r : WgRelay) : List PeerView := r.peers.map WgRelayPeer.view

/-- IPv4 endpoints as `getaddrinfo` and the dual-stack socket give them. -/
def V4Addr : Sockaddr → Prop
  | .in4 _ _ => True
  | .in6 head _ _ flowinfo scopeId => head = kV4Prefix ∧ flowinfo = 0 ∧ scopeId = 0

def v4Source (k : EpKey) : Sockaddr := .in6 kV4Prefix k.ip k.port 0 0

theorem key_of_v4 {s : Sockaddr} (h : V4Addr s) : endpointToV4 s ≠ none := by
  cases s with
  | in4 addr port => nofun
  | in6 head tail port flowinfo scopeId =>
    obtain ⟨rfl, -, -⟩ := h
    rw [endpointToV4, if_pos rfl]
    nofun

theorem endpointMatches_v4 {p : WgRelayPeer} (h : V4Addr p.endpoint) (k : EpKey) :
    endpointMatches p (v4Source k) = true ↔ p.view.key = some k := by
  unfold endpointMatches sockaddrEqual v4Source PeerView.key WgRelayPeer.view
  dsimp only
  cases he : p.endpoint with
  | in4 addr port =>
    have hne : decide (Sockaddr.in4 addr port = .in6 kV4Prefix k.ip k.port 0 0) = false := by simp
    simp only [hne, Bool.false_or, endpointToV4, decide_true, Bool.true_and, Bool.and_eq_true,
      decide_eq_true_eq]
    constructor
    · intro ⟨hport, hip⟩
      rw [← hport, ← hip]
    · intro hk
      cases hk
      exact ⟨rfl, rfl⟩
  | in6 head tail port flowinfo scopeId =>
    rw [he] at h
    obtain ⟨rfl, rfl, rfl⟩ := h
    simp only [Bool.or_false, decide_eq_true_eq, endpointToV4, if_true]
    constructor
    · intro hk
      cases hk
      rfl
    · intro hk
      cases hk
      rfl

structure FastInv (r : WgRelay) : Prop where
  attached : r.xdp.attached = true
  v4 : ∀ v ∈ r.views, V4Addr v.endpoint
  map : MapOk r.views r.links (resolveNicIfindex r) r.xdp.wgPeers
  blocks : r.xdp.wgBlocklist = r.blocklist

theorem views_names (r : WgRelay) : r.views.map PeerView.name = r.names := by
  unfold WgRelay.views WgRelay.names
  rw [List.map_map]
  rfl

variable {r : WgRelay}

theorem FastInv.roster (h : FastInv r) : RosterOk r.names r.links := by
  rw [← views_names]
  exact h.map.roster

theorem resolveNicIfindex_congr {r' : WgRelay} (ha : r'.xdp.attached = r.xdp.attached)
    (hs : r'.xdp.attachments = r.xdp.attachments) :
    resolveNicIfindex r' = resolveNicIfindex r := by
  funext nic
  unfold resolveNicIfindex
  rw [ha, hs]

structure SameMap (r r' : WgRelay) : Prop where
  views : r'.views = r.views
  links : r'.links = r.links
  attached : r'.xdp.attached = r.xdp.attached
  attachments : r'.xdp.attachments = r.xdp.attachments
  wgPeers : r'.xdp.wgPeers = r.xdp.wgPeers
  blocks : r.xdp.attached = true → r.xdp.wgBlocklist = r.blocklist →
    r'.xdp.wgBlocklist = r'.blocklist

namespace SameMap

variable {r r' r'' : WgRelay}

theorem refl (r : WgRelay) : SameMap r r := ⟨rfl, rfl, rfl, rfl, rfl, fun _ h => h⟩

theorem trans (h1 : SameMap r r') (h2 : SameMap r' r'') : SameMap r r'' where
  views := h2.views.trans h1.views
  links := h2.links.trans h1.links
  attached := h2.attached.trans h1.attached
  attachments := h2.attachments.trans h1.attachments
  wgPeers := h2.wgPeers.trans h1.wgPeers
  blocks ha hb := h2.blocks (h1.attached.trans ha) (h1.blocks ha hb)

theorem fastInv (h : SameMap r r') (hr : FastInv r) : FastInv r' where
  attached := h.attached.trans hr.attached
  v4 := h.views ▸ hr.v4
  map := by
    rw [h.views, h.links, h.wgPeers, resolveNicIfindex_congr h.attached h.attachments]
    exact hr.map
  blocks := h.blocks hr.attached hr.blocks

theorem modifyPeer {name : Bytes} {f : WgRelayPeer → WgRelayPeer} (hf : ∀ p, (f p).view = p.view) :
    SameMap r (r.modifyPeer name f) :=
  ⟨map_modifyFirst WgRelayPeer.view _ f hf r.peers, rfl, rfl, rfl, rfl, fun _ h => h⟩

theorem setStats (f : WgRelayStats → WgRelayStats) : SameMap r (r.setStats f) :=
  ⟨rfl, rfl, rfl, rfl, rfl, fun _ h => h⟩

theorem countForward : SameMap r (countForward r) := .setStats _

theorem persist : SameMap r (persistRosterLocked r) := by
  unfold persistRosterLocked
  split
  · exact .refl r
  · exact ⟨rfl, rfl, rfl, rfl, rfl, fun _ h => h⟩

theorem recordDrop (src : Sockaddr) (which : WgDropClass) (now : ℕ) :
    SameMap r (recordDropBySrcLocked r src which now) := by
  unfold recordDropBySrcLocked
  dsimp only
  split
  · exact .refl r
  · exact ⟨rfl, rfl, rfl, rfl, rfl, fun _ h => h⟩

theorem dropUnknownSrc (d : Datagram) : SameMap r (dropUnknownSrc r d) :=
  (SameMap.setStats _).trans (.recordDrop _ _ _)

theorem recordStrike (src : Sockaddr) (now : ℕ) : SameMap r (recordStrikeLocked r src now) := by
  unfold recordStrikeLocked
  dsimp only
  split
  · exact .refl r
  split
  · unfold xdpBlocklistInsert
    dsimp only
    split
    · next hoff => exact ⟨rfl, rfl, rfl, rfl, rfl, fun ha _ => by rw [ha] at hoff; cases hoff⟩
    · refine ⟨rfl, rfl, rfl, rfl, rfl, fun _ hb => ?_⟩
      dsimp only
      rw [hb]
  · exact ⟨rfl, rfl, rfl, rfl, rfl, fun _ h => h⟩

theorem strikeExpired (now strikeNow : ℕ) (p : WgRelayPeer) :
    SameMap r (strikeExpired now strikeNow r p) := by
  unfold HyperDerp.strikeExpired
  split
  · exact .refl r
  · split
    · exact (SameMap.recordStrike _ strikeNow).trans ⟨rfl, rfl, rfl, rfl, rfl, fun _ h => h⟩
    · exact .refl r

theorem strikePeers (c : SweepClock) (i : ℕ) (ps : List WgRelayPeer) :
    SameMap r (strikePeers c i ps r) := by
  induction ps generalizing r i with
  | nil => exact .refl r
  | cons p ps ih => exact (SameMap.strikeExpired c.now (c.strike i) p).trans (ih _)

theorem expire (c : SweepClock) : SameMap r (expireCandidatesLocked r c) := by
  have hfold := SameMap.strikePeers (r := r) c 0 r.peers
  unfold expireCandidatesLocked
  dsimp only
  generalize HyperDerp.strikePeers c 0 r.peers r = r1 at hfold
  refine hfold.trans ?_
  have hviews : (r1.peers.map (WgRelayPeer.swept · c.now)).map WgRelayPeer.view =
      r1.peers.map WgRelayPeer.view := by
    rw [List.map_map]
    apply List.map_congr_left
    intro p _
    rw [Function.comp]
    unfold WgRelayPeer.view
    rw [swept_name, swept_endpoint, swept_nic]
  have hlive : ∀ o : Option ℕ, (if o.any (· ≤ c.now) then none else o) = o.filter (c.now < ·) := by
    intro o
    cases o with
    | none => rfl
    | some e =>
      by_cases he : e ≤ c.now
      · simp [he, Option.filter]
      · have hlt : c.now < e := by omega
        simp [he, hlt, Option.filter]
  split
  · next hoff =>
    refine ⟨hviews, rfl, rfl, rfl, rfl, fun ha _ => ?_⟩
    rw [ha] at hoff
    cases hoff
  · refine ⟨hviews, rfl, rfl, rfl, rfl, fun _ hb => ?_⟩
    dsimp only
    funext ip
    rw [hb]
    exact hlive (r1.blocklist ip)

theorem ite_countForward (b : Bool) : SameMap r (if b then HyperDerp.countForward r else r) := by
  cases b
  · exact .refl r
  · exact .countForward

theorem handleUnknown (d : Datagram) : SameMap r (handleUnknownSrcHandshakeLocked r d).1 := by
  unfold handleUnknownSrcHandshakeLocked
  dsimp only
  split
  · exact .dropUnknownSrc d
  split
  · exact (SameMap.setStats _).trans (.recordDrop _ _ _)
  split
  · exact .dropUnknownSrc d
  split
  · split
    · split
      · refine (SameMap.modifyPeer fun _ => ?_).trans (.dropUnknownSrc d)
        exact rfl
      · refine (SameMap.modifyPeer fun _ => ?_).trans
          ((SameMap.modifyPeer fun _ => ?_).trans (.ite_countForward _))
        · exact rfl
        · exact rfl
    · exact .dropUnknownSrc d
  · refine (SameMap.modifyPeer fun _ => ?_).trans (.ite_countForward _)
    exact rfl

theorem mirror (dst : WgRelayPeer) (pkt : Bytes) : SameMap r (mirrorResponse r dst pkt).1 := by
  unfold mirrorResponse
  split
  · exact .refl r
  · refine SameMap.modifyPeer fun p => ?_
    split <;> rfl

theorem forwardFrom (src : WgRelayPeer) (d : Datagram) : SameMap r (forwardFrom r src d).1 := by
  unfold HyperDerp.forwardFrom
  dsimp only
  have hrx : SameMap r (r.modifyPeer src.name fun p =>
      { p with rxBytes := p.rxBytes + d.pkt.length, lastSeenNs := d.clock.last }) :=
    .modifyPeer fun _ => rfl
  refine hrx.trans ?_
  split
  · refine (SameMap.setStats _).trans (.modifyPeer fun _ => ?_)
    exact rfl
  split
  · refine (SameMap.setStats _).trans (.modifyPeer fun _ => ?_)
    exact rfl
  split
  · exact .refl _
  split
  · refine (SameMap.mirror _ _).trans (SameMap.countForward.trans (.modifyPeer fun _ => ?_))
    exact rfl
  · refine SameMap.countForward.trans (.modifyPeer fun _ => ?_)
    exact rfl

end SameMap

/-! ### Writing and deleting the entries of a link -/

theorem lastPeer_of_mem (hr : RosterOk r.names r.links) {p : WgRelayPeer} (hp : p ∈ r.peers) :
    r.lastPeer p.name = some p := by
  unfold WgRelay.lastPeer
  cases hf : r.peers.reverse.find? fun q => q.name = p.name with
  | none =>
    rw [List.find?_eq_none] at hf
    exact (hf p (List.mem_reverse.2 hp) (decide_eq_true rfl)).elim
  | some q =>
    have hq : q ∈ r.peers := List.mem_reverse.1 (List.mem_of_find?_eq_some hf)
    have hname : q.name = p.name := by
      have h := List.find?_some hf
      exact of_decide_eq_true h
    rw [List.inj_on_of_nodup_map hr.nodup hq hp hname]

def WgRelay.putLink (r : WgRelay) (pa pb : WgRelayPeer) (ka kb : EpKey) : WgRelay :=
  { r with xdp := { r.xdp with
      wgPeers := Function.update
        (Function.update r.xdp.wgPeers ka (pb.view.entry (resolveNicIfindex r))) kb
        (pa.view.entry (resolveNicIfindex r)) } }

theorem xdpInsertLinkByNameLocked_eq (hr : RosterOk r.names r.links) (hatt : r.xdp.attached = true)
    {pa pb : WgRelayPeer} (ha : pa ∈ r.peers) (hb : pb ∈ r.peers) {ka kb : EpKey}
    (hka : pa.view.key = some ka) (hkb : pb.view.key = some kb) :
    xdpInsertLinkByNameLocked r pa.name pb.name = r.putLink pa pb ka kb := by
  have hka' : endpointToV4 pa.endpoint = some ka := hka
  have hkb' : endpointToV4 pb.endpoint = some kb := hkb
  have hea : pa.view.entry (resolveNicIfindex r) =
      some ⟨ka.ip, ka.port, resolveNicIfindex r pa.nic⟩ := by
    unfold PeerView.entry
    rw [hka]
    rfl
  have heb : pb.view.entry (resolveNicIfindex r) =
      some ⟨kb.ip, kb.port, resolveNicIfindex r pb.nic⟩ := by
    unfold PeerView.entry
    rw [hkb]
    rfl
  unfold xdpInsertLinkByNameLocked WgRelay.putLink
  rw [lastPeer_of_mem hr ha, lastPeer_of_mem hr hb, hea, heb]
  simp only [xdpInsertLinkDir, hatt, hka', hkb', Bool.true_eq_false, if_false]

theorem xdpRemoveLinkByNameLocked_maps (hr : RosterOk r.names r.links)
    (hatt : r.xdp.attached = true) {pa pb : WgRelayPeer} (ha : pa ∈ r.peers) (hb : pb ∈ r.peers)
    {ka kb : EpKey} (hka : pa.view.key = some ka) (hkb : pb.view.key = some kb) :
    (xdpRemoveLinkByNameLocked r pa.name pb.name).xdp.wgPeers =
        Function.update (Function.update r.xdp.wgPeers ka none) kb none ∧
      (xdpRemoveLinkByNameLocked r pa.name pb.name).xdp.attached = true ∧
      (xdpRemoveLinkByNameLocked r pa.name pb.name).xdp.attachments = r.xdp.attachments ∧
      (xdpRemoveLinkByNameLocked r pa.name pb.name).xdp.wgBlocklist = r.xdp.wgBlocklist ∧
      (xdpRemoveLinkByNameLocked r pa.name pb.name).blocklist = r.blocklist := by
  have hka' : endpointToV4 pa.endpoint = some ka := hka
  have hkb' : endpointToV4 pb.endpoint = some kb := hkb
  unfold xdpRemoveLinkByNameLocked
  rw [lastPeer_of_mem hr ha, lastPeer_of_mem hr hb]
  simp only [xdpRemoveLinkDir, hatt, hka', hkb', Bool.true_eq_false, if_false]
  exact ⟨trivial, trivial, trivial, trivial, trivial⟩

/-! ### One lemma for each operation -/

/-- The endpoints of the run are IPv4: those the name service returns for a new peer, and
the sources of datagrams. -/
def V4Op (c : Libc) : WgOp → Prop
  | .peerAdd _ endpoint _ => ∀ s, parseHostPort c endpoint = some s → V4Addr s
  | .packet d => ∃ k, d.src = v4Source k
  | _ => True

/-- The step does not take the branch that goes wrong: the peer that is removed is in no
link, and two peers are linked only when each is the first with its endpoint. -/
def CleanOp (r : WgRelay) : WgOp → Prop
  | .peerRemove name => peerHasLink r.links name = false
  | .linkAdd a b => (linkAddLocked r a b).2 = .kWgLinkOk →
      ∀ p ∈ r.peers, p.name = a ∨ p.name = b → Front r.views p.view
  | _ => True

section ops

variable {c : Libc} {r : WgRelay}

variable {p : WgRelayPeer} {name : Bytes}

theorem mem_views (hp : p ∈ r.peers) : p.view ∈ r.views :=
  List.mem_map_of_mem hp

theorem FastInv.key (h : FastInv r) (hp : p ∈ r.peers) :
    ∃ k, p.view.key = some k :=
  Option.ne_none_iff_exists'.1 (h.map.v4 _ (mem_views hp))

theorem peer_of_name (hn : name ∈ r.names) :
    ∃ p ∈ r.peers, p.name = name := List.mem_map.1 hn

theorem fastInv_peerAdd (h : FastInv r) {endpoint label : Bytes}
    (hv4 : ∀ s, parseHostPort c endpoint = some s → V4Addr s) :
    FastInv (wgRelayPeerAdd c r name endpoint label).1 := by
  unfold wgRelayPeerAdd
  rcases peerAddLocked_cases c r name endpoint label with heq | ⟨p, hp, hname, hep, -, -, -, heq⟩
  · rw [heq]
    exact h
  · rw [heq]
    refine SameMap.persist.fastInv ?_
    have hviews : ({ r with peers := r.peers ++ [p] } : WgRelay).views = r.views ++ [p.view] := by
      simp [WgRelay.views]
    refine ⟨h.attached, ?_, ?_, h.blocks⟩
    · rw [hviews]
      intro v hv
      rw [List.mem_append, List.mem_singleton] at hv
      rcases hv with hv | rfl
      · exact h.v4 v hv
      · exact hv4 _ hep
    · rw [hviews]
      apply h.map.addPeer
      · rw [views_names]
        change p.name ∉ r.names
        rw [hp]
        exact hname
      · exact key_of_v4 (hv4 _ hep)

theorem fastInv_peerRemove (h : FastInv r) (hfree : peerHasLink r.links name = false) :
    FastInv (wgRelayPeerRemove r name).1 := by
  have hoff : ∀ l ∈ r.links, l.touches name = false := by
    intro l hl
    by_contra ht
    rw [Bool.not_eq_false] at ht
    have hany : peerHasLink r.links name = true := List.any_eq_true.2 ⟨l, hl, ht⟩
    rw [hfree] at hany
    cases hany
  have hnone : (r.links.filter fun l => l.touches name) = [] := by
    rw [List.filter_eq_nil_iff]
    intro l hl
    rw [hoff l hl]
    decide
  have hall : (r.links.filter fun l => !l.touches name) = r.links := by
    rw [List.filter_eq_self]
    intro l hl
    rw [hoff l hl]
    rfl
  have hinv : FastInv (peerRemoveLocked r name).1 := by
    have hviews : (peerRemoveLocked r name).1.views = r.views.eraseP fun v => v.name = name := by
      unfold WgRelay.views peerRemoveLocked
      dsimp only
      rw [List.eraseP_map]
      rfl
    refine ⟨h.attached, ?_, ?_, h.blocks⟩
    · rw [hviews]
      exact fun v hv => h.v4 v (List.eraseP_sublist.subset hv)
    · rw [hviews]
      unfold peerRemoveLocked
      rw [hall]
      exact h.map.removePeer hoff
  unfold wgRelayPeerRemove
  dsimp only
  split
  · next heq =>
    rw [heq] at hinv
    rw [hnone, List.foldl_nil]
    exact SameMap.persist.fastInv hinv
  · next heq =>
    rw [heq] at hinv
    exact hinv

theorem fastInv_linkAdd (h : FastInv r) {a b : Bytes}
    (hclean : (linkAddLocked r a b).2 = .kWgLinkOk →
      ∀ p ∈ r.peers, p.name = a ∨ p.name = b → Front r.views p.view) :
    FastInv (wgRelayLinkAdd r a b).1 := by
  change FastInv (wgRelayLinkAddDetail r a b).1
  rcases linkAddLocked_cases r a b with ⟨heq, hrc⟩ | ⟨hne, ha, hb, hfree, heq⟩
  · have hsame : (wgRelayLinkAddDetail r a b).1 = r := by
      unfold wgRelayLinkAddDetail
      cases hla : linkAddLocked r a b with
      | mk r1 rc =>
        rw [hla] at heq hrc
        cases rc <;> first | exact (hrc rfl).elim | exact heq
    rw [hsame]
    exact h
  · obtain ⟨pa, hpa, rfl⟩ := peer_of_name ha
    obtain ⟨pb, hpb, rfl⟩ := peer_of_name hb
    obtain ⟨ka, hka⟩ := h.key hpa
    obtain ⟨kb, hkb⟩ := h.key hpb
    have hfront := hclean (by rw [heq])
    have hmap := h.map.addLink (mem_views hpa) (mem_views hpb) hne hfree
      (hfront pa hpa (.inl rfl)) (hfront pb hpb (.inr rfl)) hka hkb
    unfold wgRelayLinkAddDetail
    rw [heq]
    refine SameMap.persist.fastInv ?_
    have hroster : RosterOk r.names (r.links ++ [⟨pa.name, pb.name⟩]) :=
      h.roster.addLink hne ha hb hfree
    rw [xdpInsertLinkByNameLocked_eq (r := { r with links := r.links ++ [⟨pa.name, pb.name⟩] })
      hroster h.attached hpa hpb hka hkb]
    exact ⟨h.attached, h.v4, hmap, h.blocks⟩

theorem fastInv_linkRemove (h : FastInv r) {a b : Bytes} :
    FastInv (wgRelayLinkRemove r a b).1 := by
  unfold wgRelayLinkRemove
  split
  · next r1 heq =>
    have hany : (r.links.any fun l => l.joins a b) = true := (congrArg Prod.snd heq :)
    have hr1 : { r with links := r.links.eraseP fun l => l.joins a b } = r1 :=
      (congrArg Prod.fst heq :)
    obtain ⟨l, hl, hj⟩ := List.any_eq_true.1 hany
    have hlink : LinkedIn r.links a b := ⟨l, hl, hj⟩
    obtain ⟨pa, hpa, rfl⟩ := peer_of_name (hlink.mem h.roster)
    obtain ⟨pb, hpb, rfl⟩ := peer_of_name (hlink.symm.mem h.roster)
    obtain ⟨ka, hka⟩ := h.key hpa
    obtain ⟨kb, hkb⟩ := h.key hpb
    have hmap := h.map.removeLink (mem_views hpa) (mem_views hpb) hlink hka hkb
    refine SameMap.persist.fastInv ?_
    subst hr1
    have hroster : RosterOk r.names (r.links.eraseP fun l => l.joins pa.name pb.name) :=
      h.roster.removeLink List.eraseP_sublist
    obtain ⟨hpeers, hatt, hnics, hbl, hbl'⟩ := xdpRemoveLinkByNameLocked_maps
      (r := { r with links := r.links.eraseP fun l => l.joins pa.name pb.name })
      hroster h.attached hpa hpb hka hkb
    refine ⟨hatt, ?_, ?_, ?_⟩
    · unfold WgRelay.views
      rw [xdpRemoveLinkByNameLocked_peers]
      exact h.v4
    · unfold WgRelay.views
      rw [xdpRemoveLinkByNameLocked_peers, xdpRemoveLinkByNameLocked_links, hpeers,
        resolveNicIfindex_congr (hatt.trans h.attached.symm) hnics]
      exact hmap
    · rw [hbl, hbl']
      exact h.blocks
  · next heq =>
    rw [linkRemoveLocked_rejected heq]
    exact h

theorem views_modifyFirst (h : FastInv r) {P : WgRelayPeer → Bool} {f : WgRelayPeer → WgRelayPeer}
    (hp : r.peers.find? P = some p) :
    (modifyFirst P f r.peers).map WgRelayPeer.view =
      r.views.map fun x => if x.name = p.name then (f p).view else x := by
  have hnodup := h.roster.nodup
  unfold WgRelay.names at hnodup
  unfold WgRelay.views
  generalize r.peers = ps at hp hnodup
  induction ps with
  | nil => cases hp
  | cons q ps ih =>
    rw [List.map_cons, List.nodup_cons] at hnodup
    rw [List.find?_cons] at hp
    simp only [modifyFirst, List.map_cons]
    cases hq : P q with
    | true =>
      rw [hq] at hp
      cases hp
      have hrest : ((ps.map WgRelayPeer.view).map fun x =>
          if x.name = p.name then (f p).view else x) = (ps.map WgRelayPeer.view).map id := by
        apply List.map_congr_left
        intro x hx
        obtain ⟨y, hy, rfl⟩ := List.mem_map.1 hx
        have hne : y.name ≠ p.name := fun heq => hnodup.1 (heq ▸ List.mem_map_of_mem hy)
        exact if_neg hne
      have hself : (if p.view.name = p.name then (f p).view else p.view) = (f p).view := if_pos rfl
      rw [if_pos rfl, hrest, List.map_id, List.map_cons, hself]
    | false =>
      rw [hq] at hp
      have hne : q.name ≠ p.name := by
        intro heq
        apply hnodup.1
        rw [heq]
        exact List.mem_map_of_mem (List.mem_of_find?_eq_some hp)
      have hother : (if q.view.name = p.name then (f p).view else q.view) = q.view := if_neg hne
      rw [if_neg (by decide), List.map_cons, ih hp hnodup.2, hother]

theorem filter_touches_linked (h : FastInv r) {q : WgRelayPeer}
    (hlink : LinkedIn r.links p.name q.name) :
    (r.links.filter fun l => l.touches p.name) = [⟨p.name, q.name⟩] ∨
      (r.links.filter fun l => l.touches p.name) = [⟨q.name, p.name⟩] := by
  obtain ⟨l, hl, hj⟩ := hlink
  rw [WgRelayLink.joins_iff] at hj
  have ht : l.touches p.name = true := WgRelayLink.touches_iff.2 (hj.imp And.left And.right)
  have hmem : l ∈ r.links.filter fun l => l.touches p.name := List.mem_filter.2 ⟨hl, ht⟩
  have honce := h.roster.once p.name
  generalize (r.links.filter fun l => l.touches p.name) = ls at hmem honce
  cases ls with
  | nil => cases hmem
  | cons x xs =>
    have hxs : xs = [] := by
      rw [List.length_cons] at honce
      exact List.length_eq_zero_iff.1 (by omega)
    subst hxs
    rw [List.mem_singleton] at hmem
    subst hmem
    exact hj.imp (fun hj => congrArg (· :: []) (by cases l; exact congrArg₂ _ hj.1 hj.2))
      fun hj => congrArg (· :: []) (by cases l; exact congrArg₂ _ hj.1 hj.2)

theorem mem_modifyFirst_self {α : Type} {P : α → Bool} {f : α → α} {xs : List α} {x : α}
    (h : xs.find? P = some x) : f x ∈ modifyFirst P f xs := by
  induction xs with
  | nil => cases h
  | cons y ys ih =>
    rw [List.find?_cons] at h
    simp only [modifyFirst]
    cases hy : P y with
    | true =>
      rw [hy] at h
      cases h
      exact List.mem_cons_self ..
    | false =>
      rw [hy] at h
      exact List.mem_cons_of_mem _ (ih h)

theorem mem_modifyFirst_other {α : Type} {P : α → Bool} {f : α → α} {xs : List α} {x y : α}
    (h : xs.find? P = some x) (hy : y ∈ xs) (hne : y ≠ x) : y ∈ modifyFirst P f xs := by
  induction xs with
  | nil => cases h
  | cons z zs ih =>
    rw [List.find?_cons] at h
    simp only [modifyFirst]
    rw [List.mem_cons] at hy
    cases hz : P z with
    | true =>
      rw [hz] at h
      cases h
      exact List.mem_cons_of_mem _ (hy.resolve_left hne)
    | false =>
      rw [hz] at h
      rcases hy with rfl | hy
      · exact List.mem_cons_self ..
      · exact List.mem_cons_of_mem _ (ih h hy)

/-- The relay `r1` in which one peer has been edited: `p`, which a scan stops at, has
become `f p` with the same name. Its key is the old one or one that nobody has. -/
structure Edited (r r1 : WgRelay) (P : WgRelayPeer → Bool) (f : WgRelayPeer → WgRelayPeer)
    (p : WgRelayPeer) : Prop where
  found : r.peers.find? P = some p
  peers : r1.peers = modifyFirst P f r.peers
  links : r1.links = r.links
  attached : r1.xdp.attached = r.xdp.attached
  attachments : r1.xdp.attachments = r.xdp.attachments
  blocks : r1.xdp.wgBlocklist = r1.blocklist
  name : (f p).name = p.name
  v4 : V4Addr (f p).endpoint
  key : (f p).view.key = p.view.key ∨ ∀ x ∈ r.views, x.key ≠ (f p).view.key

namespace Edited

variable {r1 : WgRelay} {P : WgRelayPeer → Bool} {f : WgRelayPeer → WgRelayPeer} {p q : WgRelayPeer}

theorem mem (he : Edited r r1 P f p) : p ∈ r.peers := List.mem_of_find?_eq_some he.found

theorem becomes (he : Edited r r1 P f p) (h : FastInv r) :
    MapOk.Becomes r.views r1.views r.links p.view (f p).view := by
  have hviews : r1.views = r.views.map fun x => if x.name = p.name then (f p).view else x := by
    unfold WgRelay.views
    rw [he.peers]
    exact views_modifyFirst h he.found
  rw [hviews]
  exact becomes_of_map h.map (mem_views he.mem) he.name (key_of_v4 he.v4) he.key

theorem v4_all (he : Edited r r1 P f p) (h : FastInv r) : ∀ v ∈ r1.views, V4Addr v.endpoint := by
  intro v hv
  rcases ((he.becomes h).mem v).1 hv with ⟨hv, -⟩ | rfl
  · exact h.v4 v hv
  · exact he.v4

theorem roster (he : Edited r r1 P f p) (h : FastInv r) : RosterOk r1.names r1.links := by
  rw [← views_names, (he.becomes h).names, he.links, views_names]
  exact h.roster

theorem resolve (he : Edited r r1 P f p) : resolveNicIfindex r1 = resolveNicIfindex r :=
  resolveNicIfindex_congr he.attached he.attachments

theorem fastInv_free (he : Edited r r1 P f p) (h : FastInv r) (hm : r1.xdp.wgPeers = r.xdp.wgPeers)
    (hfree : ∀ n, ¬ LinkedIn r.links p.name n) :
    FastInv r1 := by
  refine ⟨he.attached.trans h.attached, he.v4_all h, ?_, he.blocks⟩
  rw [he.links, hm, he.resolve]
  exact h.map.change (he.becomes h) hfree

theorem fastInv_linked (he : Edited r r1 P f p) (h : FastInv r) (hq : q ∈ r.peers)
    (hlink : LinkedIn r.links p.name q.name) {kp kp' kq : EpKey} (hkp : p.view.key = some kp)
    (hkp' : (f p).view.key = some kp') (hkq : q.view.key = some kq)
    (hm : ∀ k, k ≠ kq → k ≠ kp' → r1.xdp.wgPeers k = if k = kp then none else r.xdp.wgPeers k)
    {r2 : WgRelay} (hr2 : r2 = r1.putLink (f p) q kp' kq ∨ r2 = r1.putLink q (f p) kq kp') :
    FastInv r2 := by
  have hpq : (f p).view.name ≠ q.view.name := by
    change (f p).name ≠ q.name
    rw [he.name]
    exact hlink.ne h.roster
  have hbec := he.becomes h
  have hfp := hbec.frontSelf ⟨_, hlink⟩
  have hfq := hbec.front q.view (mem_views hq) (hlink.ne h.roster).symm ⟨_, hlink.symm⟩
  have hkne : kp' ≠ kq := by
    intro heq
    have hv := MapOk.front_inj hfp hfq (by rw [hkp', hkq, heq])
    exact hpq (congrArg PeerView.name hv)
  have hinv : ∀ m', (m' = Function.update (Function.update r1.xdp.wgPeers kp'
        (q.view.entry (resolveNicIfindex r1))) kq ((f p).view.entry (resolveNicIfindex r1)) ∨
      m' = Function.update (Function.update r1.xdp.wgPeers kq
        ((f p).view.entry (resolveNicIfindex r1))) kp' (q.view.entry (resolveNicIfindex r1))) →
      MapOk r1.views r.links (resolveNicIfindex r) m' := by
    intro m' hm'
    rw [he.resolve] at hm'
    have hvals : m' kq = (f p).view.entry (resolveNicIfindex r) ∧
        m' kp' = q.view.entry (resolveNicIfindex r) ∧
        ∀ k, k ≠ kq → k ≠ kp' → m' k = r1.xdp.wgPeers k := by
      rcases hm' with rfl | rfl
      · refine ⟨Function.update_self .., ?_, fun k h1 h2 => ?_⟩
        · rw [Function.update_of_ne hkne, Function.update_self]
        · rw [Function.update_of_ne h1, Function.update_of_ne h2]
      · refine ⟨?_, Function.update_self .., fun k h1 h2 => ?_⟩
        · rw [Function.update_of_ne hkne.symm, Function.update_self]
        · rw [Function.update_of_ne h2, Function.update_of_ne h1]
    obtain ⟨h1, h2, h3⟩ := hvals
    apply h.map.changeLinked hbec (mem_views he.mem) (mem_views hq) hlink hkp hkp' hkq h1 h2
    · intro hne
      have hkpq : kp ≠ kq := by
        intro heq
        have hv := MapOk.front_inj (h.map.front _ (mem_views he.mem) _ hlink)
          (h.map.front _ (mem_views hq) _ hlink.symm) (by rw [hkp, hkq, heq])
        exact hlink.ne h.roster (congrArg PeerView.name hv)
      rw [h3 kp hkpq hne, hm kp hkpq hne, if_pos rfl]
    · intro k hk1 hk2 hk3
      rw [h3 k hk1 hk2, hm k hk1 hk2, if_neg hk3]
  rcases hr2 with rfl | rfl
  · refine ⟨he.attached.trans h.attached, he.v4_all h, ?_, he.blocks⟩
    have hmap := hinv _ (.inl rfl)
    rw [← he.resolve, ← he.links] at hmap
    exact hmap
  · refine ⟨he.attached.trans h.attached, he.v4_all h, ?_, he.blocks⟩
    have hmap := hinv _ (.inr rfl)
    rw [← he.resolve, ← he.links] at hmap
    exact hmap

end Edited

theorem filter_touches_none (h : ¬ ∃ n, LinkedIn r.links p.name n) :
    (r.links.filter fun l => l.touches p.name) = [] := by
  rw [List.filter_eq_nil_iff]
  intro l hl ht
  apply h
  rcases WgRelayLink.touches_iff.1 ht with ha | hb
  · exact ⟨l.b, l, hl, WgRelayLink.joins_iff.2 (.inl ⟨ha, rfl⟩)⟩
  · exact ⟨l.a, l, hl, WgRelayLink.joins_iff.2 (.inr ⟨rfl, hb⟩)⟩

theorem fastInv_peerNic (h : FastInv r) {nic : Bytes} :
    FastInv (wgRelayPeerNic r name nic).1 := by
  unfold wgRelayPeerNic
  split
  · exact h
  split
  swap
  · next heq =>
    rw [peerNicLocked_rejected heq]
    exact h
  next r1 heq =>
  have hknown : peerKnown r.peers name = true := (congrArg Prod.snd heq :)
  have hr1 : r.modifyPeer name (fun p => { p with nic := nic }) = r1 := (congrArg Prod.fst heq :)
  obtain ⟨p, hp, rfl⟩ := peer_of_name (peerKnown_iff.1 hknown)
  have hfind := findPeer_of_peer h.roster hp
  have hed : Edited r r1 (fun q => q.name = p.name) (fun q => { q with nic := nic }) p := by
    subst hr1
    exact ⟨hfind, rfl, rfl, rfl, rfl, h.blocks, rfl, h.v4 _ (mem_views hp), .inl rfl⟩
  have hmaps : r1.xdp.wgPeers = r.xdp.wgPeers := by
    subst hr1
    rfl
  refine SameMap.persist.fastInv ?_
  by_cases hlinked : ∃ n, LinkedIn r.links p.name n
  swap
  · rw [hed.links, filter_touches_none hlinked, List.foldl_nil]
    exact hed.fastInv_free h hmaps fun n hn => hlinked ⟨n, hn⟩
  obtain ⟨n, hn⟩ := hlinked
  obtain ⟨q, hq, rfl⟩ := peer_of_name (hn.symm.mem h.roster)
  obtain ⟨kp, hkp⟩ := h.key hp
  obtain ⟨kq, hkq⟩ := h.key hq
  have hp1 : ({ p with nic := nic } : WgRelayPeer) ∈ r1.peers := by
    rw [hed.peers]
    exact mem_modifyFirst_self hfind
  have hq1 : q ∈ r1.peers := by
    rw [hed.peers]
    apply mem_modifyFirst_other hfind hq
    intro heq
    exact hn.ne h.roster (congrArg WgRelayPeer.name heq.symm)
  have hkeep : ∀ k, k ≠ kq → k ≠ kp →
      r1.xdp.wgPeers k = if k = kp then none else r.xdp.wgPeers k := by
    intro k _ hk
    rw [hmaps, if_neg hk]
  have hatt : r1.xdp.attached = true := hed.attached.trans h.attached
  rw [hed.links]
  rcases filter_touches_linked h hn with hone | hone
  · rw [hone, List.foldl_cons, List.foldl_nil]
    apply hed.fastInv_linked h hq hn hkp hkp hkq hkeep
    exact .inl (xdpInsertLinkByNameLocked_eq (hed.roster h) hatt hp1 hq1 hkp hkq)
  · rw [hone, List.foldl_cons, List.foldl_nil]
    apply hed.fastInv_linked h hq hn hkp hkp hkq hkeep
    exact .inr (xdpInsertLinkByNameLocked_eq (hed.roster h) hatt hq1 hp1 hkq hkp)

theorem fastInv_confirm (h : FastInv r) {k : EpKey} (now : ℕ)
    (hnew : ∀ p ∈ r.peers, endpointMatches p (v4Source k) = false) :
    FastInv (confirmCandidateLocked c r (v4Source k) now).1 := by
  unfold confirmCandidateLocked
  split
  · exact h
  next p hfind =>
  have hp : p ∈ r.peers := List.mem_of_find?_eq_some hfind
  obtain ⟨kp, hkp⟩ := h.key hp
  have hfresh : ∀ x ∈ r.views, x.key ≠ (p.confirm c (v4Source k) now).view.key := by
    intro x hx
    obtain ⟨y, hy, rfl⟩ := List.mem_map.1 hx
    have hno := hnew y hy
    intro heq
    have hyes := (endpointMatches_v4 (h.v4 _ (mem_views hy)) k).2 heq
    rw [hno] at hyes
    cases hyes
  have hstrikes : ∀ r2 : WgRelay, FastInv r2 → FastInv
      (if extractV4SrcHostOrder (v4Source k) ≠ 0 then
        { persistRosterLocked r2 with
          strikes := Function.update (persistRosterLocked r2).strikes
            (extractV4SrcHostOrder (v4Source k)) none }
      else persistRosterLocked r2) := by
    intro r2 hr2
    have hper := SameMap.persist.fastInv hr2
    split
    · exact ⟨hper.attached, hper.v4, hper.map, hper.blocks⟩
    · exact hper
  dsimp only
  cases hpart : findLinkPartnerLocked r p.name with
  | none =>
    apply hstrikes
    have hed : Edited r { r with
        peers := modifyFirst (WgRelayPeer.confirmable · (v4Source k))
          (WgRelayPeer.confirm c · (v4Source k) now) r.peers }
        (WgRelayPeer.confirmable · (v4Source k)) (WgRelayPeer.confirm c · (v4Source k) now) p :=
      ⟨hfind, rfl, rfl, rfl, rfl, h.blocks, rfl, ⟨rfl, rfl, rfl⟩, .inr hfresh⟩
    apply hed.fastInv_free h rfl
    intro n hn
    obtain ⟨q, hq, rfl⟩ := peer_of_name (hn.symm.mem h.roster)
    rw [findLinkPartnerLocked_of_linked h.roster hn hq] at hpart
    cases hpart
  | some q =>
    obtain ⟨hlink, hfq⟩ := findLinkPartnerLocked_linked hpart
    have hq := findPeer_mem hfq
    obtain ⟨kq, hkq⟩ := h.key hq
    obtain ⟨hpeers, hatt, hnics, hbl, hbl'⟩ :=
      xdpRemoveLinkByNameLocked_maps h.roster h.attached hp hq hkp hkq
    apply hstrikes
    dsimp only
    have hed : Edited r { xdpRemoveLinkByNameLocked r p.name q.name with
        peers := modifyFirst (WgRelayPeer.confirmable · (v4Source k))
          (WgRelayPeer.confirm c · (v4Source k) now)
          (xdpRemoveLinkByNameLocked r p.name q.name).peers }
        (WgRelayPeer.confirmable · (v4Source k)) (WgRelayPeer.confirm c · (v4Source k) now) p := by
      refine ⟨hfind, ?_, ?_, hatt.trans h.attached.symm, hnics, ?_, rfl, ⟨rfl, rfl, rfl⟩,
        .inr hfresh⟩
      · rw [xdpRemoveLinkByNameLocked_peers]
      · exact xdpRemoveLinkByNameLocked_links r p.name q.name
      · exact (hbl.trans h.blocks).trans hbl'.symm
    have hp1 : p.confirm c (v4Source k) now ∈ modifyFirst (WgRelayPeer.confirmable · (v4Source k))
        (WgRelayPeer.confirm c · (v4Source k) now)
        (xdpRemoveLinkByNameLocked r p.name q.name).peers := by
      rw [xdpRemoveLinkByNameLocked_peers]
      exact mem_modifyFirst_self hfind
    have hq1 : q ∈ modifyFirst (WgRelayPeer.confirmable · (v4Source k))
        (WgRelayPeer.confirm c · (v4Source k) now)
        (xdpRemoveLinkByNameLocked r p.name q.name).peers := by
      rw [xdpRemoveLinkByNameLocked_peers]
      apply mem_modifyFirst_other hfind hq
      intro heq
      exact hlink.ne h.roster (congrArg WgRelayPeer.name heq.symm)
    have hkp' : (p.confirm c (v4Source k) now).view.key = some k := rfl
    apply hed.fastInv_linked h hq hlink hkp hkp' hkq
    · intro k' hk1 _
      dsimp only
      rw [hpeers, Function.update_of_ne hk1]
      by_cases hkk : k' = kp
      · rw [if_pos hkk, hkk, Function.update_self]
      · rw [if_neg hkk, Function.update_of_ne hkk]
    · exact .inl (xdpInsertLinkByNameLocked_eq (hed.roster h) hatt hp1 hq1 hkp' hkq)

theorem fastInv_packet (h : FastInv r) {d : Datagram} (hsrc : ∃ k, d.src = v4Source k) :
    FastInv (handlePacket c r d).1 := by
  obtain ⟨k, hk⟩ := hsrc
  unfold handlePacket
  dsimp only
  have h0 : FastInv (r.setStats fun s => { s with rxPackets := s.rxPackets + 1 }) :=
    (SameMap.setStats _).fastInv h
  split
  · exact h0
  split
  · exact ((SameMap.setStats _).trans (.recordDrop _ _ _)).fastInv h0
  have h1 := (SameMap.expire d.clock.sweep).fastInv h0
  split
  · exact (SameMap.forwardFrom _ d).fastInv h1
  next hnone =>
  have hnew : ∀ p ∈ (expireCandidatesLocked (r.setStats fun s =>
      { s with rxPackets := s.rxPackets + 1 }) d.clock.sweep).peers,
      endpointMatches p (v4Source k) = false := by
    intro p hp
    rw [← hk]
    exact Bool.eq_false_iff.2 (List.find?_eq_none.1 hnone p hp)
  split
  · exact (SameMap.handleUnknown d).fastInv h1
  split
  · have hconf := fastInv_confirm (c := c) h1 d.now hnew
    rw [← hk] at hconf
    split
    · next heq =>
      rw [heq] at hconf
      exact (SameMap.forwardFrom _ d).fastInv hconf
    · exact (SameMap.dropUnknownSrc d).fastInv h1
  · exact (SameMap.dropUnknownSrc d).fastInv h1

theorem wgStep_fastInv (h : FastInv r) {op : WgOp} (hv4 : V4Op c op) (hclean : CleanOp r op) :
    FastInv (wgStep c r op).1 := by
  cases op with
  | peerAdd name endpoint label => exact fastInv_peerAdd h hv4
  | peerKey name pubkey =>
    simp only [wgStep, wgRelayPeerKey]
    have hkey : SameMap r (peerKeyLocked r name pubkey).1 := .modifyPeer fun _ => rfl
    split
    · next heq =>
      rw [heq] at hkey
      exact (hkey.trans .persist).fastInv h
    · next heq =>
      rw [heq] at hkey
      exact hkey.fastInv h
  | peerNic name nic => exact fastInv_peerNic h
  | peerRemove name => exact fastInv_peerRemove h hclean
  | linkAdd a b => exact fastInv_linkAdd h hclean
  | linkRemove a b => exact fastInv_linkRemove h
  | packet d => exact fastInv_packet h hv4
  | sweep clock => exact (SameMap.expire clock).fastInv h

/-! ### Attaching -/

theorem foldl_xdpInsert_map {r : WgRelay} (hr : RosterOk r.names r.links)
    (hatt : r.xdp.attached = true) (hfront : ∀ p ∈ r.peers, ∀ n, LinkedIn r.links p.name n →
      Front r.views p.view) {todo : List WgRelayLink} :
    ∀ {d : List WgRelayLink} {r1 : WgRelay}, d ++ todo = r.links → r1.peers = r.peers →
      r1.links = r.links → r1.xdp.attached = true → r1.xdp.attachments = r.xdp.attachments →
      MapOk r.views d (resolveNicIfindex r) r1.xdp.wgPeers →
      MapOk r.views r.links (resolveNicIfindex r)
        (todo.foldl (fun r l => xdpInsertLinkByNameLocked r l.a l.b) r1).xdp.wgPeers ∧
      (todo.foldl (fun r l => xdpInsertLinkByNameLocked r l.a l.b) r1).xdp.attached = true ∧
      (todo.foldl (fun r l => xdpInsertLinkByNameLocked r l.a l.b) r1).xdp.attachments =
        r.xdp.attachments ∧
      (todo.foldl (fun r l => xdpInsertLinkByNameLocked r l.a l.b) r1).xdp.wgBlocklist =
        r1.xdp.wgBlocklist ∧
      (todo.foldl (fun r l => xdpInsertLinkByNameLocked r l.a l.b) r1).blocklist =
        r1.blocklist := by
  induction todo with
  | nil =>
    intro d r1 hdone _ _ hatt1 hnics hmap
    rw [List.append_nil] at hdone
    subst hdone
    exact ⟨hmap, hatt1, hnics, rfl, rfl⟩
  | cons l todo ih =>
    intro d r1 hdone hpeers hlinks hatt1 hnics hmap
    have hl : l ∈ r.links := by
      rw [← hdone]
      exact List.mem_append_right _ (List.mem_cons_self ..)
    obtain ⟨hne, ha, hb⟩ := hr.ends l hl
    obtain ⟨pa, hpa, hna⟩ := peer_of_name ha
    obtain ⟨pb, hpb, hnb⟩ := peer_of_name hb
    obtain ⟨ka, hka⟩ := Option.ne_none_iff_exists'.1 (hmap.v4 _ (mem_views hpa))
    obtain ⟨kb, hkb⟩ := Option.ne_none_iff_exists'.1 (hmap.v4 _ (mem_views hpb))
    have hlink : LinkedIn r.links pa.name pb.name :=
      ⟨l, hl, WgRelayLink.joins_iff.2 (.inl ⟨hna.symm, hnb.symm⟩)⟩
    have hap := hr.apart
    rw [← hdone, List.pairwise_append] at hap
    have hfree : ∀ x ∈ d, x.touches pa.name = false ∧ x.touches pb.name = false := by
      intro x hx
      have hxl := hap.2.2 x hx l (List.mem_cons_self ..)
      have hta : l.touches pa.name = true := WgRelayLink.touches_iff.2 (.inl hna.symm)
      have htb : l.touches pb.name = true := WgRelayLink.touches_iff.2 (.inr hnb.symm)
      constructor
      · by_contra ht
        rw [Bool.not_eq_false] at ht
        rw [hxl _ ht] at hta
        cases hta
      · by_contra ht
        rw [Bool.not_eq_false] at ht
        rw [hxl _ ht] at htb
        cases htb
    have hstep := hmap.addLink (mem_views hpa) (mem_views hpb) (hlink.ne hr) hfree
      (hfront pa hpa _ hlink) (hfront pb hpb _ hlink.symm) hka hkb
    have hr1 : RosterOk r1.names r1.links := by
      rw [names_of_peers hpeers, hlinks]
      exact hr
    have hput := xdpInsertLinkByNameLocked_eq hr1 hatt1 (hpeers ▸ hpa) (hpeers ▸ hpb) hka hkb
    have hifx : resolveNicIfindex r1 = resolveNicIfindex r :=
      resolveNicIfindex_congr (hatt1.trans hatt.symm) hnics
    rw [List.foldl_cons, ← hna, ← hnb, hput]
    apply ih (d := d ++ [l])
    · rw [List.append_assoc]
      exact hdone
    · exact hpeers
    · exact hlinks
    · exact hatt1
    · exact hnics
    · have hll : l = ⟨pa.name, pb.name⟩ := by
        rw [hna, hnb]
      rw [hll]
      unfold WgRelay.putLink
      dsimp only
      rw [hifx]
      exact hstep

/-- The endpoints are IPv4 and every linked peer is the first with its own. -/
structure CleanStart (r : WgRelay) : Prop where
  v4 : ∀ p ∈ r.peers, V4Addr p.endpoint
  front : ∀ p ∈ r.peers, ∀ n, LinkedIn r.links p.name n → Front r.views p.view

theorem blocklist_kept (c : Libc) : KeptByRoster c fun r => r.blocklist = fun _ => none where
  add r name endpoint label h := by
    rcases peerAddLocked_cases c r name endpoint label with heq | ⟨p, -, -, -, -, -, -, heq⟩
    · rw [heq]
      exact h
    · rw [heq]
      exact h
  key _ _ _ h := h
  nic _ _ _ h := h
  remove _ _ h := h
  link r a b h := by
    rcases linkAddLocked_cases r a b with ⟨heq, -⟩ | ⟨-, -, -, -, heq⟩
    · rw [heq]
      exact h
    · rw [heq]
      exact h
  persist r h := by
    unfold persistRosterLocked
    split
    · exact h
    · exact h

theorem fastInv_start {cfg : WgRelayConfig} {file : Option Bytes}
    (hstart : CleanStart (wgRelayStart c cfg file)) (atts : List WgXdpAttachment) :
    FastInv (xdpStart (wgRelayStart c cfg file) atts) := by
  have hr := (rosterOk_kept c).start cfg file .empty
  have hblk : (wgRelayStart c cfg file).blocklist = fun _ => none :=
    (blocklist_kept c).start cfg file rfl
  generalize wgRelayStart c cfg file = r at hstart hr hblk
  have hv4 : ∀ v ∈ r.views, V4Addr v.endpoint := by
    intro v hv
    obtain ⟨p, hp, rfl⟩ := List.mem_map.1 hv
    exact hstart.v4 p hp
  -- the maps start empty, with no link written
  have hempty : MapOk r.views [] (resolveNicIfindex { r with
      xdp := { attached := true, attachments := atts } }) fun _ => none := by
    have hnone : ∀ {a b : Bytes}, ¬ LinkedIn [] a b := fun ⟨_, hl, _⟩ => nomatch hl
    refine ⟨⟨?_, nofun, .nil⟩, fun v hv => key_of_v4 (hv4 v hv),
      fun v _ n hn => (hnone hn).elim, fun k e => ⟨nofun, fun ⟨_, _, _, _, hn, _⟩ => (hnone hn).elim⟩⟩
    rw [views_names]
    exact hr.nodup
  obtain ⟨hmap, hatt, hnics, hbl, hbl'⟩ := foldl_xdpInsert_map
    (r := { r with xdp := { attached := true, attachments := atts } }) hr rfl hstart.front
    (List.nil_append r.links) rfl rfl rfl rfl hempty
  obtain ⟨hpeers, hlinks⟩ := foldl_xdpInsert_tables
    { r with xdp := { attached := true, attachments := atts } } r.links
  have hviews : (xdpStart r atts).views = r.views := congrArg (List.map WgRelayPeer.view) hpeers
  have hifx : resolveNicIfindex (xdpStart r atts) = resolveNicIfindex { r with
      xdp := { attached := true, attachments := atts } } := resolveNicIfindex_congr hatt hnics
  refine ⟨hatt, ?_, ?_, ?_⟩
  · rw [hviews]
    exact hv4
  · rw [hviews, hifx, show (xdpStart r atts).links = r.links from hlinks]
    exact hmap
  · exact hbl.trans (hblk.symm.trans hbl'.symm)

end ops

end HyperDerp
