import HyperDerp.WgDaemon.Stores
import Mathlib.Data.Fintype.EquivFin

/-!
# Coherence of the peer stores of hdwg

Peers are found by their HD key, proxy entries are added by peer id and removed by WireGuard key.
The invariant `Inv` says that the three keys name the same peer wherever an entry stands.
-/

namespace HyperDerp.WgDaemon

open FrontScan

def WgPeerState.Exchanged (st : WgPeerState) : Prop := st ≠ .kNew ∧ st ≠ .kWgexSent

/-- Every relayed peer has one proxy entry, with its id and its WireGuard key, and every proxy
entry is that of a peer in the table. -/
structure Coherent (s : State) : Prop where
  relayed : ∀ i, (s.peers i).active → (s.peers i).state = .kRelayed →
    ∃ j, (∀ k, (s.proxyPeers k).active ∧ (s.proxyPeers k).hdKey = (s.peers i).hdKey ↔ k = j) ∧
      (s.proxyPeers j).hdPeerId = (s.peers i).hdPeerId ∧
      (s.proxyPeers j).wgPubkey = (s.peers i).wgPubkey
  owned : ∀ j, (s.proxyPeers j).active →
    ∃ i, (s.peers i).active ∧ (s.peers i).hdKey = (s.proxyPeers j).hdKey

/-- The step from `s` to `s'` takes nothing away from a peer other than that of the key. -/
structure RemovesOnly (hdKey : Key) (s s' : State) : Prop where
  wg : ∀ wgPubkey, s'.wg wgPubkey ≠ s.wg wgPubkey →
    (∃ i, (s.peers i).active ∧ (s.peers i).hdKey = hdKey ∧ (s.peers i).wgPubkey = wgPubkey) ∧
      ∀ i, (s.peers i).active → (s.peers i).state.Configured →
        (s.peers i).wgPubkey = wgPubkey → (s.peers i).hdKey = hdKey
  proxy : ∀ j, (s.proxyPeers j).active → (s.proxyPeers j).hdKey ≠ hdKey →
    s'.proxyPeers j = s.proxyPeers j
  peers : ∀ i, (s.peers i).active → (s.peers i).hdKey ≠ hdKey → s'.peers i = s.peers i

/-! ### What the steps need -/

/-- The proxy entries under the peer's id are those under its HD key. -/
def RelayOk (s : State) (i : Fin kWgMaxPeers) : Prop :=
  ∀ j, (s.proxyPeers j).active →
    ((s.proxyPeers j).hdPeerId = (s.peers i).hdPeerId ↔
      (s.proxyPeers j).hdKey = (s.peers i).hdKey)

def WgPeer.FallsBack (p : WgPeer) (env : Env) : Prop :=
  (p.state = .kWgexDone ∧ 500 < env.now - p.wgexStartNs) ∨
  (p.state = .kDirect ∧ ¬ env.now - p.directLastCheckNs < 2000 ∧ p.directLastRxChangeNs ≠ 0 ∧
    p.stalled env) ∨
  (p.state = .kIceChecking ∧ ¬ p.iceBaselineHs < env.handshake ∧ 10000 < env.now - p.iceStartNs)

def WgexOk (s : State) (i : Fin kWgMaxPeers) (wgPubkey : Key) : Prop :=
  ∀ j, j ≠ i → (s.peers j).active → (s.peers j).state.Exchanged → (s.peers j).wgPubkey ≠ wgPubkey

def GoneOk (s : State) (i : Fin kWgMaxPeers) : Prop :=
  ¬ (s.peers i).state.Exchanged → ∀ j, (s.peers j).active → (s.peers j).state.Configured →
    (s.peers j).wgPubkey ≠ (s.peers i).wgPubkey

def FrameOk (s : State) (type : HdFrameType) (buf : Bytes) : Prop :=
  (type = .kPeerInfo → ∀ i, s.wgPeerFind (keyAt buf 0) = some i →
    (s.peers i).state = .kRelayed → readU16 buf 32 = (s.peers i).hdPeerId) ∧
  (type = .kMeshData → ∀ i, s.wgPeerFindById (readU16 buf 0) = some i →
    (∀ wgPubkey tunnelIp, wgParseWgex (buf.drop 2) = some (wgPubkey, tunnelIp) →
      ¬ (s.peers i).state.Configured → WgexOk s i wgPubkey) ∧
    ((buf.drop 2).take 4 = kFallMagic → (s.peers i).state = .kDirect → RelayOk s i)) ∧
  (type = .kPeerGone → ∀ i, s.wgPeerFind (keyAt buf 0) = some i → GoneOk s i)

def StepOk (s : State) : Label → Prop
  | .frame type buf _ => FrameOk s type buf
  | .udp _ => True
  | .check i env => (s.peers i).active → (s.peers i).FallsBack env → RelayOk s i

structure Inv (s : State) : Prop where
  keys : ∀ i j, (s.peers i).active → (s.peers j).active →
    (s.peers i).hdKey = (s.peers j).hdKey → i = j
  owner : ∀ j, (s.proxyPeers j).active → ∃ i, (s.peers i).active ∧
    (s.peers i).hdKey = (s.proxyPeers j).hdKey ∧
    (s.peers i).wgPubkey = (s.proxyPeers j).wgPubkey ∧ (s.peers i).state.Configured
  once : ∀ j k, (s.proxyPeers j).active → (s.proxyPeers k).active →
    (s.proxyPeers j).hdKey = (s.proxyPeers k).hdKey → j = k
  relayed : ∀ i, (s.peers i).active → (s.peers i).state = .kRelayed → ∃ j,
    (s.proxyPeers j).active ∧ (s.proxyPeers j).hdKey = (s.peers i).hdKey ∧
    (s.proxyPeers j).hdPeerId = (s.peers i).hdPeerId
  wgKeys : ∀ i j, (s.peers i).active → (s.peers j).active → (s.peers i).state.Exchanged →
    (s.peers j).state.Exchanged → (s.peers i).wgPubkey = (s.peers j).wgPubkey → i = j

variable {cfg : WgDaemonConfig} {s s' : State} {i : Fin kWgMaxPeers} {j : Fin kWgMaxProxyPeers}
  {p : WgPeer} {env : Env}

theorem WgPeerState.Configured.exchanged {st : WgPeerState} (h : st.Configured) :
    st.Exchanged := by
  obtain rfl | rfl | rfl := h <;> exact ⟨nofun, nofun⟩

theorem coherent_of_inv (h : Inv s) : Coherent s := by
  refine ⟨?_, ?_⟩
  · intro i hi hst
    obtain ⟨j, hj, hkey, hid⟩ := h.relayed i hi hst
    refine ⟨j, ?_, hid, ?_⟩
    · intro k
      constructor
      · rintro ⟨hk, hkk⟩
        exact h.once k j hk hj (hkk.trans hkey.symm)
      · rintro rfl
        exact ⟨hj, hkey⟩
    · obtain ⟨i', hi', hkey', hwg, -⟩ := h.owner j hj
      have heq := h.keys i' i hi' hi (hkey'.trans hkey)
      rw [← heq, hwg]
  · intro j hj
    obtain ⟨i, hi, hkey, -⟩ := h.owner j hj
    exact ⟨i, hi, hkey⟩

namespace State

variable {x y : Fin kWgMaxPeers} {q : WgProxyPeer} {k : Fin kWgMaxProxyPeers}

@[simp] theorem peers_setPeer_self : (s.setPeer i p).peers i = p := Function.update_self ..

theorem peers_setPeer_ne (h : x ≠ i) : (s.setPeer i p).peers x = s.peers x :=
  Function.update_of_ne h ..

@[simp] theorem proxyPeers_setPeer : (s.setPeer i p).proxyPeers = s.proxyPeers := rfl

@[simp] theorem wg_setPeer : (s.setPeer i p).wg = s.wg := rfl

@[simp] theorem proxyPeers_setProxyPeer_self : (s.setProxyPeer j q).proxyPeers j = q :=
  Function.update_self ..

theorem proxyPeers_setProxyPeer_ne (h : k ≠ j) :
    (s.setProxyPeer j q).proxyPeers k = s.proxyPeers k :=
  Function.update_of_ne h ..

@[simp] theorem peers_setProxyPeer : (s.setProxyPeer j q).peers = s.peers := rfl

variable {ok : Bool} {wgPubkey hdKey : Key} {wpc : WgPeerConfig} {hdPeerId tunnelIp : ℕ}

@[simp] theorem peers_wgNlSetPeer : (s.wgNlSetPeer ok wgPubkey wpc).peers = s.peers := by
  unfold wgNlSetPeer
  split <;> rfl

@[simp] theorem proxyPeers_wgNlSetPeer :
    (s.wgNlSetPeer ok wgPubkey wpc).proxyPeers = s.proxyPeers := by
  unfold wgNlSetPeer
  split <;> rfl

@[simp] theorem peers_wgNlRemovePeer : (s.wgNlRemovePeer ok wgPubkey).peers = s.peers := by
  unfold wgNlRemovePeer
  split <;> rfl

@[simp] theorem proxyPeers_wgNlRemovePeer :
    (s.wgNlRemovePeer ok wgPubkey).proxyPeers = s.proxyPeers := by
  unfold wgNlRemovePeer
  split <;> rfl

theorem wg_wgNlRemovePeer_ne {wgPubkey' : Key} (h : wgPubkey' ≠ wgPubkey) :
    (s.wgNlRemovePeer ok wgPubkey).wg wgPubkey' = s.wg wgPubkey' := by
  unfold wgNlRemovePeer
  split
  · exact Function.update_of_ne h ..
  · rfl

theorem find_active (h : s.wgPeerFind hdKey = some i) :
    (s.peers i).active ∧ (s.peers i).hdKey = hdKey := by
  have hi := first_some h
  simpa using hi

theorem findById_active (h : s.wgPeerFindById hdPeerId = some i) :
    (s.peers i).active ∧ (s.peers i).hdPeerId = hdPeerId := by
  have hi := first_some h
  simpa using hi

theorem find_none (h : s.wgPeerFind hdKey = none) (hx : (s.peers x).active) :
    (s.peers x).hdKey ≠ hdKey := by
  have hx' := first_none.1 h x
  simpa [hx] using hx'

end State

/-! ### Writes to one peer -/

/-- A record that keeps what the stores say about its peer. -/
structure Follows (p p' : WgPeer) : Prop where
  active : p'.active = p.active
  hdKey : p'.hdKey = p.hdKey
  wgPubkey : p'.wgPubkey = p.wgPubkey
  configured : p.state.Configured → p'.state.Configured
  exchanged : p'.state.Exchanged → p.state.Exchanged
  relayed : p'.state = .kRelayed → p.state = .kRelayed ∧ p'.hdPeerId = p.hdPeerId

theorem Follows.of_eq {p' : WgPeer} (hactive : p'.active = p.active) (hkey : p'.hdKey = p.hdKey)
    (hwg : p'.wgPubkey = p.wgPubkey) (hst : p'.state = p.state) (hid : p'.hdPeerId = p.hdPeerId) :
    Follows p p' := by
  constructor
  · exact hactive
  · exact hkey
  · exact hwg
  · rw [hst]
    exact id
  · rw [hst]
    exact id
  · rw [hst]
    exact fun h => ⟨h, hid⟩

theorem Inv.congr (h : Inv s) (hp : s'.peers = s.peers) (hq : s'.proxyPeers = s.proxyPeers) :
    Inv s' := by
  obtain ⟨keys, owner, once, relayed, wgKeys⟩ := h
  constructor
  · rwa [hp]
  · rwa [hp, hq]
  · rwa [hq]
  · rwa [hp, hq]
  · rwa [hp]

theorem Inv.setPeer (h : Inv s) (hf : Follows (s.peers i) p) : Inv (s.setPeer i p) := by
  have hview : ∀ x, Follows (s.peers x) ((s.setPeer i p).peers x) := by
    intro x
    by_cases hx : x = i
    · subst hx
      rw [State.peers_setPeer_self]
      exact hf
    · rw [State.peers_setPeer_ne hx]
      exact .of_eq rfl rfl rfl rfl rfl
  constructor
  · intro x y hx hy hkey
    rw [(hview x).active] at hx
    rw [(hview y).active] at hy
    rw [(hview x).hdKey, (hview y).hdKey] at hkey
    exact h.keys x y hx hy hkey
  · intro j hj
    obtain ⟨x, hx, hkey, hwg, hst⟩ := h.owner j hj
    refine ⟨x, ?_, ?_, ?_, (hview x).configured hst⟩
    · rw [(hview x).active]
      exact hx
    · rw [(hview x).hdKey]
      exact hkey
    · rw [(hview x).wgPubkey]
      exact hwg
  · exact h.once
  · intro x hx hst
    rw [(hview x).active] at hx
    obtain ⟨hst', hid⟩ := (hview x).relayed hst
    rw [(hview x).hdKey, hid]
    exact h.relayed x hx hst'
  · intro x y hx hy hxe hye hwg
    rw [(hview x).active] at hx
    rw [(hview y).active] at hy
    rw [(hview x).wgPubkey, (hview y).wgPubkey] at hwg
    exact h.wgKeys x y hx hy ((hview x).exchanged hxe) ((hview y).exchanged hye) hwg

theorem Inv.setFresh (h : Inv s)
    (hkey : ∀ x, x ≠ i → (s.peers x).active → (s.peers x).hdKey ≠ p.hdKey)
    (hold : (s.peers i).active → ¬ (s.peers i).state.Configured) (hnew : ¬ p.state.Configured)
    (hwg : p.state.Exchanged → WgexOk s i p.wgPubkey) : Inv (s.setPeer i p) := by
  constructor
  · intro x y hx hy hxy
    by_cases hxi : x = i <;> by_cases hyi : y = i
    · rw [hxi, hyi]
    · subst hxi
      rw [State.peers_setPeer_self, State.peers_setPeer_ne hyi] at hxy
      rw [State.peers_setPeer_ne hyi] at hy
      exact absurd hxy.symm (hkey y hyi hy)
    · subst hyi
      rw [State.peers_setPeer_self, State.peers_setPeer_ne hxi] at hxy
      rw [State.peers_setPeer_ne hxi] at hx
      exact absurd hxy (hkey x hxi hx)
    · rw [State.peers_setPeer_ne hxi] at hx hxy
      rw [State.peers_setPeer_ne hyi] at hy hxy
      exact h.keys x y hx hy hxy
  · intro j hj
    obtain ⟨x, hx, hxkey, hxwg, hconf⟩ := h.owner j hj
    have hxi : x ≠ i := by
      rintro rfl
      exact hold hx hconf
    refine ⟨x, ?_⟩
    rw [State.peers_setPeer_ne hxi]
    exact ⟨hx, hxkey, hxwg, hconf⟩
  · exact h.once
  · intro x hx hst
    have hxi : x ≠ i := by
      rintro rfl
      rw [State.peers_setPeer_self] at hst
      exact hnew (.inr (.inl hst))
    rw [State.peers_setPeer_ne hxi] at hx hst ⊢
    exact h.relayed x hx hst
  · intro x y hx hy hxe hye hxy
    by_cases hxi : x = i <;> by_cases hyi : y = i
    · rw [hxi, hyi]
    · subst hxi
      rw [State.peers_setPeer_self] at hxe hxy
      rw [State.peers_setPeer_ne hyi] at hy hye hxy
      exact absurd hxy.symm (hwg hxe y hyi hy hye)
    · subst hyi
      rw [State.peers_setPeer_self] at hye hxy
      rw [State.peers_setPeer_ne hxi] at hx hxe hxy
      exact absurd hxy (hwg hye x hxi hx hxe)
    · rw [State.peers_setPeer_ne hxi] at hx hxe hxy
      rw [State.peers_setPeer_ne hyi] at hy hye hxy
      exact h.wgKeys x y hx hy hxe hye hxy

/-! ### The relay fallback -/

theorem Inv.exists_free (h : Inv s)
    (hnone : ∀ j, (s.proxyPeers j).active → (s.proxyPeers j).hdKey ≠ (s.peers i).hdKey) :
    ∃ j, (s.proxyPeers j).active = false := by
  by_contra hall
  simp only [not_exists, Bool.not_eq_false] at hall
  choose f hf using fun j => h.owner j (hall j)
  have hinj : Function.Injective f := by
    intro j k hjk
    apply h.once j k (hall j) (hall k)
    rw [← (hf j).2.1, ← (hf k).2.1, hjk]
  have hsurj := ((Fintype.bijective_iff_injective_and_card f).2 ⟨hinj, rfl⟩).2
  obtain ⟨j, hj⟩ := hsurj i
  apply hnone j (hall j)
  rw [← (hf j).2.1, hj]

theorem Inv.toRelay (h : Inv s) (hi : (s.peers i).active) (hex : (s.peers i).state.Exchanged)
    (hpeers : s'.peers = Function.update s.peers i { s.peers i with state := .kRelayed })
    (hj : (s'.proxyPeers j).active ∧ (s'.proxyPeers j).hdKey = (s.peers i).hdKey ∧
      (s'.proxyPeers j).hdPeerId = (s.peers i).hdPeerId ∧
      (s'.proxyPeers j).wgPubkey = (s.peers i).wgPubkey)
    (hother : ∀ k, k ≠ j → s'.proxyPeers k = s.proxyPeers k)
    (hown : ∀ k, (s.proxyPeers k).active → (s.proxyPeers k).hdKey = (s.peers i).hdKey → k = j)
    (hslot : (s.proxyPeers j).active → (s.proxyPeers j).hdKey = (s.peers i).hdKey) :
    Inv s' := by
  have hself : s'.peers i = { s.peers i with state := .kRelayed } := by
    rw [hpeers, Function.update_self]
  have hne : ∀ x, x ≠ i → s'.peers x = s.peers x := by
    intro x hx
    rw [hpeers, Function.update_of_ne hx]
  have hsame : ∀ x, (s'.peers x).active = (s.peers x).active ∧
      (s'.peers x).hdKey = (s.peers x).hdKey ∧ (s'.peers x).wgPubkey = (s.peers x).wgPubkey ∧
      ((s'.peers x).state.Exchanged → (s.peers x).state.Exchanged) := by
    intro x
    by_cases hx : x = i
    · subst hx
      rw [hself]
      exact ⟨rfl, rfl, rfl, fun _ => hex⟩
    · rw [hne x hx]
      exact ⟨rfl, rfl, rfl, id⟩
  constructor
  · intro x y hx hy hxy
    rw [(hsame x).1] at hx
    rw [(hsame y).1] at hy
    rw [(hsame x).2.1, (hsame y).2.1] at hxy
    exact h.keys x y hx hy hxy
  · intro k hk
    by_cases hkj : k = j
    · subst hkj
      refine ⟨i, ?_⟩
      rw [hself]
      exact ⟨hi, hj.2.1.symm, hj.2.2.2.symm, .inr (.inl rfl)⟩
    · rw [hother k hkj] at hk ⊢
      obtain ⟨x, hx, hxkey, hxwg, hconf⟩ := h.owner k hk
      refine ⟨x, ?_, ?_, ?_, ?_⟩
      · rw [(hsame x).1]
        exact hx
      · rw [(hsame x).2.1]
        exact hxkey
      · rw [(hsame x).2.2.1]
        exact hxwg
      · by_cases hxi : x = i
        · subst hxi
          rw [hself]
          exact .inr (.inl rfl)
        · rw [hne x hxi]
          exact hconf
  · intro k l hk hl hkl
    by_cases hkj : k = j <;> by_cases hlj : l = j
    · rw [hkj, hlj]
    · subst hkj
      rw [hother l hlj] at hl hkl
      exact (hown l hl (hkl.symm.trans hj.2.1)).symm
    · subst hlj
      rw [hother k hkj] at hk hkl
      exact hown k hk (hkl.trans hj.2.1)
    · rw [hother k hkj] at hk hkl
      rw [hother l hlj] at hl hkl
      exact h.once k l hk hl hkl
  · intro x hx hst
    by_cases hxi : x = i
    · subst hxi
      rw [hself]
      exact ⟨j, hj.1, hj.2.1, hj.2.2.1⟩
    · rw [hne x hxi] at hx hst ⊢
      obtain ⟨k, hk, hkkey, hkid⟩ := h.relayed x hx hst
      have hkj : k ≠ j := by
        rintro rfl
        exact hxi (h.keys x i hx hi (hkkey.symm.trans (hslot hk)))
      refine ⟨k, ?_⟩
      rw [hother k hkj]
      exact ⟨hk, hkkey, hkid⟩
  · intro x y hx hy hxe hye hxy
    rw [(hsame x).1] at hx
    rw [(hsame y).1] at hy
    rw [(hsame x).2.2.1, (hsame y).2.2.1] at hxy
    exact h.wgKeys x y hx hy ((hsame x).2.2.2 hxe) ((hsame y).2.2.2 hye) hxy

theorem State.peers_startRelay :
    (s.startRelay cfg i env).peers =
      Function.update s.peers i { s.peers i with state := .kRelayed } := by
  have hadd : ∀ (t : State) hdKey hdPeerId wgPubkey tunnelIp,
      (t.wgProxyAddPeer hdKey hdPeerId wgPubkey tunnelIp).peers = t.peers := by
    intro t hdKey hdPeerId wgPubkey tunnelIp
    unfold State.wgProxyAddPeer
    split
    · rfl
    · split <;> rfl
  simp only [State.startRelay, State.setPeer, hadd, State.peers_wgNlSetPeer]

variable (cfg env) in
theorem State.proxyPeers_startRelay :
    (s.startRelay cfg i env).proxyPeers = (s.wgProxyAddPeer (s.peers i).hdKey
      (s.peers i).hdPeerId (s.peers i).wgPubkey (s.peers i).tunnelIp).proxyPeers := by
  simp only [State.startRelay, State.proxyPeers_setPeer, State.wgProxyAddPeer,
    State.wgProxyFindByHdId, State.proxyPeers_wgNlSetPeer]
  split
  · exact State.proxyPeers_wgNlSetPeer
  · split
    · simp only [State.setProxyPeer, State.proxyPeers_wgNlSetPeer]
    · exact State.proxyPeers_wgNlSetPeer

theorem Inv.startRelay (h : Inv s) (hi : (s.peers i).active) (hex : (s.peers i).state.Exchanged)
    (hok : RelayOk s i) : Inv (s.startRelay cfg i env) := by
  have hproxy := State.proxyPeers_startRelay cfg env (s := s) (i := i)
  unfold State.wgProxyAddPeer at hproxy
  split at hproxy
  · next j hj =>
    have hid := first_some hj
    simp only [Bool.and_eq_true, decide_eq_true_eq] at hid
    have hkey := (hok j hid.1).1 hid.2
    obtain ⟨x, hx, hxkey, hxwg, -⟩ := h.owner j hid.1
    have hxi := h.keys x i hx hi (hxkey.trans hkey)
    subst hxi
    apply h.toRelay hi hex State.peers_startRelay
    · rw [hproxy]
      exact ⟨hid.1, hkey, hid.2, hxwg.symm⟩
    · intro k _
      rw [hproxy]
    · intro k hk hkkey
      exact h.once k j hk hid.1 (hkkey.trans hkey.symm)
    · intro _
      exact hkey
  · next hnone =>
    have hnokey : ∀ k, (s.proxyPeers k).active →
        (s.proxyPeers k).hdKey ≠ (s.peers i).hdKey := by
      intro k hk hkkey
      have hk' := first_none.1 hnone k
      simp [hk, (hok k hk).2 hkkey] at hk'
    obtain ⟨k, hfree⟩ := h.exists_free hnokey
    split at hproxy
    · next j hj =>
      have hjfree := first_some hj
      apply h.toRelay (j := j) hi hex State.peers_startRelay
      · rw [hproxy]
        simp
      · intro k hk
        rw [hproxy]
        exact State.proxyPeers_setProxyPeer_ne hk
      · intro k hk hkkey
        exact absurd hkkey (hnokey k hk)
      · intro hactive
        simp [hactive] at hjfree
    · next hfull =>
      have hk := first_none.1 hfull k
      simp [hfree] at hk

theorem Inv.fallBack (h : Inv s) (hi : (s.peers i).active) (hst : (s.peers i).state = .kDirect)
    (hok : RelayOk s i) : Inv (s.fallBack cfg i env) := by
  let s₁ := s.wgNlRemovePeer env.removeOk (s.peers i).wgPubkey
  have hpeers : s₁.peers = s.peers := State.peers_wgNlRemovePeer
  have hproxy : s₁.proxyPeers = s.proxyPeers := State.proxyPeers_wgNlRemovePeer
  have h₁ : Inv s₁ := h.congr hpeers hproxy
  have hrelay : Inv (s₁.startRelay cfg i env) := by
    apply h₁.startRelay
    · rw [hpeers]
      exact hi
    · rw [hpeers, hst]
      exact ⟨nofun, nofun⟩
    · intro j hj
      rw [hproxy] at hj ⊢
      rw [hpeers]
      exact hok j hj
  exact hrelay.setPeer (.of_eq rfl rfl rfl rfl rfl)

theorem RelayOk.setPeer (h : RelayOk s i) (hkey : p.hdKey = (s.peers i).hdKey)
    (hid : p.hdPeerId = (s.peers i).hdPeerId) : RelayOk (s.setPeer i p) i := by
  intro j hj
  rw [State.peers_setPeer_self, hkey, hid]
  exact h j hj

theorem Inv.checkDirectPromotion (h : Inv s) (hi : (s.peers i).active)
    (hok : (s.peers i).FallsBack env → RelayOk s i) :
    Inv (s.checkDirectPromotion cfg i env) := by
  unfold State.checkDirectPromotion
  dsimp only
  split
  · next hdone =>
    apply h.startRelay hi
    · rw [hdone.1]
      exact ⟨nofun, nofun⟩
    · exact hok (.inl hdone)
  split
  · next hdirect =>
    split
    · exact h
    · next hdue =>
      split
      · exact h.setPeer (.of_eq rfl rfl rfl rfl rfl)
      · next hseen =>
        have hsampled : Inv (s.setPeer i ((s.peers i).sampled env)) :=
          h.setPeer (.of_eq rfl rfl rfl rfl rfl)
        split
        · next hstalled =>
          apply hsampled.fallBack
          · rw [State.peers_setPeer_self]
            exact hi
          · rw [State.peers_setPeer_self]
            exact hdirect
          · exact (hok (.inr (.inl ⟨hdirect, hdue, hseen, hstalled⟩))).setPeer rfl rfl
        · exact hsampled
  split
  · exact h
  · next hice =>
    have hice : (s.peers i).state = .kIceChecking := by simpa using hice
    split
    · apply h.setPeer
      constructor
      · rfl
      · rfl
      · rfl
      · exact fun _ => .inl rfl
      · rw [hice]
        exact fun _ => ⟨nofun, nofun⟩
      · nofun
    · next hsilent =>
      split
      · next hlate =>
        apply Inv.startRelay
        · exact h.setPeer (.of_eq rfl rfl rfl rfl rfl)
        · rw [State.peers_setPeer_self]
          exact hi
        · rw [State.peers_setPeer_self]
          change (s.peers i).state.Exchanged
          rw [hice]
          exact ⟨nofun, nofun⟩
        · exact (hok (.inr (.inr ⟨hice, hsilent, hlate⟩))).setPeer rfl rfl
      · exact h.setPeer (.of_eq rfl rfl rfl rfl rfl)

/-! ### Frames and packets -/

theorem Inv.handlePeerInfo {payload : Bytes} (h : Inv s)
    (hok : ∀ i, s.wgPeerFind (keyAt payload 0) = some i →
      (s.peers i).state = .kRelayed → readU16 payload 32 = (s.peers i).hdPeerId) :
    Inv (s.handlePeerInfo cfg payload) := by
  have hsent : ∀ (t : State) (x : Fin kWgMaxPeers), Inv t → Inv (if (t.peers x).state = .kNew then
      t.setPeer x { t.peers x with state := .kWgexSent } else t) := by
    intro t x ht
    split
    · next hnew =>
      apply ht.setPeer
      constructor
      · rfl
      · rfl
      · rfl
      · rw [hnew]
        rintro (h | h | h) <;> cases h
      · exact fun h => absurd rfl h.2
      · nofun
    · exact ht
  unfold State.handlePeerInfo
  split
  · exact h
  split
  · exact h
  cases hadd : s.wgPeerAdd (keyAt payload 0) (readU16 payload 32) with
  | none => exact h
  | some r =>
    obtain ⟨t, x⟩ := r
    apply hsent t x
    unfold State.wgPeerAdd at hadd
    split at hadd
    · next i hfind =>
      cases hadd
      apply h.setPeer
      exact ⟨rfl, rfl, rfl, id, id, fun hst => ⟨hst, hok _ hfind hst⟩⟩
    · next hnone =>
      split at hadd
      · next i hfree =>
        have hfree := first_some hfree
        cases hadd
        refine Inv.congr (h.setFresh (i := x) ?_ ?_ ?_ ?_) rfl rfl
        · intro y _ hy
          exact State.find_none hnone hy
        · intro hactive
          simp [hactive] at hfree
        · rintro (h | h | h) <;> cases h
        · exact fun h => absurd rfl h.1
      · cases hadd

theorem Inv.handleWgex {data : Bytes} (h : Inv s) (hi : (s.peers i).active)
    (hok : ∀ wgPubkey tunnelIp, wgParseWgex data = some (wgPubkey, tunnelIp) →
      ¬ (s.peers i).state.Configured → WgexOk s i wgPubkey) :
    Inv (s.handleWgex i env data) := by
  unfold State.handleWgex
  split
  · exact h
  · next wgPubkey tunnelIp hparse =>
    split
    · exact h
    · next hconf =>
      apply h.setFresh
      · intro x hx hactive hkey
        exact hx (h.keys x i hactive hi hkey)
      · exact fun _ => hconf
      · rintro (h | h | h) <;> cases h
      · exact fun _ => hok wgPubkey tunnelIp hparse hconf

theorem Inv.handleCandidates {data : Bytes} (h : Inv s) :
    Inv (s.handleCandidates cfg i env data) := by
  unfold State.handleCandidates
  split
  · exact h
  split
  · exact h
  dsimp only
  split
  · next hst =>
    split
    · exact h
    · split
      · have hset : ∀ wpc, Inv (s.wgNlSetPeer true (s.peers i).wgPubkey wpc) :=
          fun _ => h.congr State.peers_wgNlSetPeer State.proxyPeers_wgNlSetPeer
        apply (hset _).setPeer
        rw [State.peers_wgNlSetPeer]
        constructor
        · rfl
        · rfl
        · rfl
        · exact fun _ => .inr (.inr rfl)
        · intro _
          obtain hst | hst := hst <;> rw [hst] <;> exact ⟨nofun, nofun⟩
        · nofun
      · exact h
  · exact h

theorem Inv.handleMeshData {srcId : ℕ} {payload : Bytes} (h : Inv s)
    (hok : ∀ i, s.wgPeerFindById srcId = some i →
      (∀ wgPubkey tunnelIp, wgParseWgex payload = some (wgPubkey, tunnelIp) →
        ¬ (s.peers i).state.Configured → WgexOk s i wgPubkey) ∧
      (payload.take 4 = kFallMagic → (s.peers i).state = .kDirect → RelayOk s i)) :
    Inv (s.handleMeshData cfg srcId payload env) := by
  unfold State.handleMeshData
  split
  · exact h
  · next i hfind =>
    have hi := (State.findById_active hfind).1
    split
    · exact h.handleWgex hi (hok i hfind).1
    split
    · exact h.handleCandidates
    split
    · next hfall => exact h.fallBack hi hfall.2 ((hok i hfind).2 hfall.1 hfall.2)
    · exact h

theorem Inv.wgProxyHandleUdp {srcPort : ℕ} (h : Inv s) : Inv (s.wgProxyHandleUdp srcPort) := by
  unfold State.wgProxyHandleUdp
  split
  · exact h
  split
  · next j hj =>
    have hview : ∀ k, ∃ port, (s.setProxyPeer j
        { s.proxyPeers j with wgSrcPort := srcPort }).proxyPeers k =
          { s.proxyPeers k with wgSrcPort := port } := by
      intro k
      by_cases hk : k = j
      · subst hk
        exact ⟨srcPort, State.proxyPeers_setProxyPeer_self⟩
      · exact ⟨(s.proxyPeers k).wgSrcPort, State.proxyPeers_setProxyPeer_ne hk⟩
    constructor
    · exact h.keys
    · intro k hk
      obtain ⟨port, hport⟩ := hview k
      rw [hport] at hk ⊢
      exact h.owner k hk
    · intro k l hk hl hkl
      obtain ⟨port, hport⟩ := hview k
      obtain ⟨port', hport'⟩ := hview l
      rw [hport] at hk hkl
      rw [hport'] at hl hkl
      exact h.once k l hk hl hkl
    · intro x hx hst
      obtain ⟨k, hk⟩ := h.relayed x hx hst
      obtain ⟨port, hport⟩ := hview k
      refine ⟨k, ?_⟩
      rw [hport]
      exact hk
    · exact h.wgKeys
  · exact h

/-! ### Removals -/

theorem Inv.proxy_of_wgPubkey (h : Inv s) (hi : (s.peers i).active) (hok : GoneOk s i)
    (hj : (s.proxyPeers j).active) (hwg : (s.proxyPeers j).wgPubkey = (s.peers i).wgPubkey) :
    (s.proxyPeers j).hdKey = (s.peers i).hdKey := by
  obtain ⟨x, hx, hkey, hxwg, hconf⟩ := h.owner j hj
  have hxi : (s.peers x).wgPubkey = (s.peers i).wgPubkey := hxwg.trans hwg
  by_cases hex : (s.peers i).state.Exchanged
  · rw [← hkey, h.wgKeys x i hx hi hconf.exchanged hex hxi]
  · exact absurd hxi (hok hex x hx hconf)

theorem State.peers_wgProxyRemovePeer {wgPubkey : Key} :
    (s.wgProxyRemovePeer wgPubkey).peers = s.peers := by
  unfold State.wgProxyRemovePeer
  split <;> rfl

theorem State.wg_wgProxyRemovePeer {wgPubkey : Key} :
    (s.wgProxyRemovePeer wgPubkey).wg = s.wg := by
  unfold State.wgProxyRemovePeer
  split <;> rfl

theorem Inv.proxyPeers_removed (h : Inv s) (hi : (s.peers i).active) (hok : GoneOk s i)
    (k : Fin kWgMaxProxyPeers) :
    ((s.proxyPeers k).hdKey = (s.peers i).hdKey →
      ((s.wgProxyRemovePeer (s.peers i).wgPubkey).proxyPeers k).active = false) ∧
    ((s.proxyPeers k).hdKey ≠ (s.peers i).hdKey →
      (s.wgProxyRemovePeer (s.peers i).wgPubkey).proxyPeers k = s.proxyPeers k) := by
  unfold State.wgProxyRemovePeer
  cases hfind : first s.proxyPeers fun q => q.active && q.wgPubkey = (s.peers i).wgPubkey with
  | some j =>
    have hj := first_some hfind
    simp only [Bool.and_eq_true, decide_eq_true_eq] at hj
    have hjkey := h.proxy_of_wgPubkey hi hok hj.1 hj.2
    change (_ → ((s.setProxyPeer j { s.proxyPeers j with active := false }).proxyPeers
      k).active = false) ∧ (_ → (s.setProxyPeer j _).proxyPeers k = _)
    by_cases hkj : k = j
    · subst hkj
      rw [State.proxyPeers_setProxyPeer_self]
      exact ⟨fun _ => rfl, fun hne => absurd hjkey hne⟩
    · rw [State.proxyPeers_setProxyPeer_ne hkj]
      refine ⟨?_, fun _ => rfl⟩
      intro hkey
      by_contra hactive
      rw [Bool.not_eq_false] at hactive
      exact hkj (h.once k j hactive hj.1 (hkey.trans hjkey.symm))
  | none =>
    refine ⟨?_, fun _ => rfl⟩
    intro hkey
    by_contra hactive
    rw [Bool.not_eq_false] at hactive
    obtain ⟨x, hx, hxkey, hxwg, -⟩ := h.owner k hactive
    have hxi := h.keys x i hx hi (hxkey.trans hkey)
    subst hxi
    have hk := first_none.1 hfind k
    simp [hactive, hxwg] at hk

variable (env) in
theorem State.handlePeerGone_eq {payload : Bytes} (hlen : ¬ payload.length < 32)
    (hfind : s.wgPeerFind (keyAt payload 0) = some i) :
    (s.handlePeerGone env payload).peers =
        Function.update s.peers i { s.peers i with active := false } ∧
      (s.handlePeerGone env payload).proxyPeers =
        (s.wgProxyRemovePeer (s.peers i).wgPubkey).proxyPeers ∧
      (s.handlePeerGone env payload).wg =
        (s.wgNlRemovePeer env.removeOk (s.peers i).wgPubkey).wg := by
  let t := (s.wgNlRemovePeer env.removeOk (s.peers i).wgPubkey).wgProxyRemovePeer
    (s.peers i).wgPubkey
  have hpeers : t.peers = s.peers :=
    State.peers_wgProxyRemovePeer.trans State.peers_wgNlRemovePeer
  have hproxy : t.proxyPeers = (s.wgProxyRemovePeer (s.peers i).wgPubkey).proxyPeers := by
    simp only [t, State.wgProxyRemovePeer, State.proxyPeers_wgNlRemovePeer]
    split
    · simp only [State.setProxyPeer, State.proxyPeers_wgNlRemovePeer]
    · exact State.proxyPeers_wgNlRemovePeer
  have hfind' : t.wgPeerFind (keyAt payload 0) = some i := by
    unfold State.wgPeerFind at hfind ⊢
    rw [hpeers]
    exact hfind
  have heq : s.handlePeerGone env payload =
      { t.setPeer i { t.peers i with active := false } with count := t.count - 1 } := by
    simp only [State.handlePeerGone, if_neg hlen, hfind, State.wgPeerRemove]
    split
    · next j hj =>
      cases hj.symm.trans hfind'
      rfl
    · next hnone => cases hnone.symm.trans hfind'
  rw [heq]
  refine ⟨?_, hproxy, State.wg_wgProxyRemovePeer⟩
  change Function.update t.peers i { t.peers i with active := false } = _
  rw [hpeers]

theorem Inv.handlePeerGone {payload : Bytes} (h : Inv s)
    (hok : ∀ i, s.wgPeerFind (keyAt payload 0) = some i → GoneOk s i) :
    Inv (s.handlePeerGone env payload) := by
  by_cases hlen : payload.length < 32
  · unfold State.handlePeerGone
    rwa [if_pos hlen]
  cases hfind : s.wgPeerFind (keyAt payload 0) with
  | none =>
    unfold State.handlePeerGone
    rw [if_neg hlen, hfind]
    exact h
  | some i =>
    obtain ⟨hpeers, hproxy, -⟩ := State.handlePeerGone_eq env hlen hfind
    have hi := (State.find_active hfind).1
    have hkept : ∀ x, ((s.handlePeerGone env payload).peers x).active →
        x ≠ i ∧ (s.handlePeerGone env payload).peers x = s.peers x := by
      intro x hx
      rw [hpeers] at hx ⊢
      have hxi : x ≠ i := by
        rintro rfl
        rw [Function.update_self] at hx
        cases hx
      exact ⟨hxi, Function.update_of_ne hxi ..⟩
    have hother : ∀ x, x ≠ i → (s.handlePeerGone env payload).peers x = s.peers x := by
      intro x hx
      rw [hpeers]
      exact Function.update_of_ne hx ..
    have hentry : ∀ k, ((s.handlePeerGone env payload).proxyPeers k).active →
        (s.proxyPeers k).hdKey ≠ (s.peers i).hdKey ∧
          (s.handlePeerGone env payload).proxyPeers k = s.proxyPeers k := by
      intro k hk
      obtain ⟨hgone, hstays⟩ := h.proxyPeers_removed hi (hok i hfind) k
      rw [hproxy] at hk ⊢
      by_cases hkey : (s.proxyPeers k).hdKey = (s.peers i).hdKey
      · rw [hgone hkey] at hk
        cases hk
      · exact ⟨hkey, hstays hkey⟩
    constructor
    · intro x y hx hy hxy
      have hxs := (hkept x hx).2
      have hys := (hkept y hy).2
      rw [hxs] at hx hxy
      rw [hys] at hy hxy
      exact h.keys x y hx hy hxy
    · intro k hk
      obtain ⟨hkey, hsame⟩ := hentry k hk
      rw [hsame] at hk ⊢
      obtain ⟨x, hx, hxkey, hrest⟩ := h.owner k hk
      have hxi : x ≠ i := by
        rintro rfl
        exact hkey hxkey.symm
      refine ⟨x, ?_⟩
      rw [hother x hxi]
      exact ⟨hx, hxkey, hrest⟩
    · intro k l hk hl hkl
      have hks := (hentry k hk).2
      have hls := (hentry l hl).2
      rw [hks] at hk hkl
      rw [hls] at hl hkl
      exact h.once k l hk hl hkl
    · intro x hx hst
      obtain ⟨hxi, hsame⟩ := hkept x hx
      rw [hsame] at hx hst ⊢
      obtain ⟨k, hk, hkey, hid⟩ := h.relayed x hx hst
      have hne : (s.proxyPeers k).hdKey ≠ (s.peers i).hdKey := by
        intro heq
        exact hxi (h.keys x i hx hi (hkey.symm.trans heq))
      refine ⟨k, ?_⟩
      rw [hproxy, (h.proxyPeers_removed hi (hok i hfind) k).2 hne]
      exact ⟨hk, hkey, hid⟩
    · intro x y hx hy hxe hye hxy
      have hxs := (hkept x hx).2
      have hys := (hkept y hy).2
      rw [hxs] at hx hxe hxy
      rw [hys] at hy hye hxy
      exact h.wgKeys x y hx hy hxe hye hxy

theorem Inv.removesOnly {payload : Bytes} (h : Inv s)
    (hok : ∀ i, s.wgPeerFind (keyAt payload 0) = some i → GoneOk s i) :
    RemovesOnly (keyAt payload 0) s (s.handlePeerGone env payload) := by
  by_cases hlen : payload.length < 32
  · unfold State.handlePeerGone
    rw [if_pos hlen]
    exact ⟨fun _ hne => absurd rfl hne, fun _ _ _ => rfl, fun _ _ _ => rfl⟩
  cases hfind : s.wgPeerFind (keyAt payload 0) with
  | none =>
    unfold State.handlePeerGone
    rw [if_neg hlen, hfind]
    exact ⟨fun _ hne => absurd rfl hne, fun _ _ _ => rfl, fun _ _ _ => rfl⟩
  | some i =>
    obtain ⟨hpeers, hproxy, hwg⟩ := State.handlePeerGone_eq env hlen hfind
    obtain ⟨hi, hikey⟩ := State.find_active hfind
    constructor
    · intro wgPubkey hne
      have heq : (s.peers i).wgPubkey = wgPubkey := by
        by_contra hdiff
        apply hne
        rw [hwg]
        exact State.wg_wgNlRemovePeer_ne fun h => hdiff h.symm
      refine ⟨⟨i, hi, hikey, heq⟩, ?_⟩
      intro x hx hconf hxwg
      by_cases hex : (s.peers i).state.Exchanged
      · rw [h.wgKeys x i hx hi hconf.exchanged hex (hxwg.trans heq.symm), hikey]
      · exact absurd (hxwg.trans heq.symm) (hok i hfind hex x hx hconf)
    · intro j _ hkey
      rw [← hikey] at hkey
      rw [hproxy]
      exact (h.proxyPeers_removed hi (hok i hfind) j).2 hkey
    · intro x _ hkey
      rw [hpeers]
      apply Function.update_of_ne
      rintro rfl
      exact hkey hikey

/-! ### Runs -/

theorem init_inv : Inv {} := by
  constructor <;> nofun

theorem step_inv {l : Label} (h : Inv s) (hok : StepOk s l) (hs : step cfg s l = some s') :
    Inv s' := by
  cases l with
  | frame type buf env =>
    obtain ⟨hinfo, hmesh, hgone⟩ := hok
    simp only [step] at hs
    split at hs
    · next htype =>
      cases hs
      exact h.handlePeerInfo (hinfo htype)
    split at hs
    · next htype =>
      split at hs <;> cases hs
      · exact h
      · exact h.handleMeshData (hmesh htype)
    split at hs <;> cases hs
    · next htype => exact h.handlePeerGone (hgone htype)
    · exact h
  | udp srcPort =>
    cases hs
    exact h.wgProxyHandleUdp
  | check i env =>
    simp only [step] at hs
    split at hs <;> cases hs
    · next hi => exact h.checkDirectPromotion hi (hok hi)
    · exact h

theorem inv_reach (h : Runs.Reach Init (step cfg) StepOk s) : Inv s := by
  apply Runs.Reach.invariant _ _ h
  · rintro s rfl
    exact init_inv
  · exact fun s s' l hs hok hstep => step_inv hs hok hstep

/-- The three stores stay coherent in every run of steps that keep the keys apart. -/
theorem stores_coherent (h : Runs.Reach Init (step cfg) StepOk s) :
    Coherent s ∧ ∀ buf env s', StepOk s (.frame .kPeerGone buf env) →
      step cfg s (.frame .kPeerGone buf env) = some s' → RemovesOnly (keyAt buf 0) s s' := by
  have hinv := inv_reach h
  refine ⟨coherent_of_inv hinv, ?_⟩
  rintro buf env s' ⟨-, -, hgone⟩ hs
  cases hs
  exact hinv.removesOnly (hgone rfl)

def relayedRun (hdKey : Key) (hdPeerId : Byte) (wgPubkey : Key) : List Label :=
  [.frame .kPeerInfo (hdKey.data ++ [0, hdPeerId]) {},
    .frame .kMeshData ([0, hdPeerId] ++ kWgexMagic ++ wgPubkey.data ++ [10, 0, 0, 2]) {},
    .check ⟨0, by decide⟩ { now := 1000 }]

theorem relayedRun_ok {hdKey wgPubkey : Key} {hdPeerId : Byte} {s₁ s₂ s₃ : State}
    (h₁ : Runs.run (step cfg) {} ((relayedRun hdKey hdPeerId wgPubkey).take 1) = some s₁)
    (h₂ : Runs.run (step cfg) {} ((relayedRun hdKey hdPeerId wgPubkey).take 2) = some s₂)
    (h₃ : Runs.run (step cfg) {} (relayedRun hdKey hdPeerId wgPubkey) = some s₃)
    (hone : ∀ i j, (s₁.peers i).active → (s₁.peers j).active → i = j)
    (hnone : ∀ j, (s₂.proxyPeers j).active = false) :
    Runs.Reach Init (step cfg) StepOk s₃ := by
  have hstart : Runs.Reach Init (step cfg) StepOk {} := .start _ rfl
  apply Runs.reach_run hstart _ h₃
  simp only [relayedRun, List.take_succ_cons, List.take_zero, Runs.run] at h₁ h₂
  refine ⟨⟨?_, ?_, ?_⟩, ?_⟩
  · intro _ i hfind
    cases (State.find_active hfind).1
  · intro htype
    cases htype
  · intro htype
    cases htype
  intro s hs
  rw [hs] at h₁ h₂
  cases h₁
  refine ⟨⟨?_, ?_, ?_⟩, ?_⟩
  · intro htype
    cases htype
  · intro _ i hfind
    refine ⟨?_, ?_⟩
    · intro _ _ _ _ j hj hactive
      exact absurd (hone j i hactive (State.findById_active hfind).1) hj
    · intro hfall
      cases hfall
  · intro htype
    cases htype
  intro t ht
  simp only [ht] at h₂
  cases h₂
  refine ⟨?_, fun _ _ => trivial⟩
  intro _ _ j hj
  rw [hnone j] at hj
  cases hj

/-- The proxy entry of a relayed peer keeps the id the peer was first announced under. -/
theorem not_coherent_new_id : ¬ ∀ (cfg : WgDaemonConfig) (ls : List Label) (s : State),
    Runs.run (step cfg) {} ls = some s → Coherent s := by
  intro h
  have hrun : ((Runs.run (step { publicKey := byteKey 9 }) {}
      (relayedRun (byteKey 1) 1 (byteKey 7) ++
        [Label.frame .kPeerInfo ((byteKey 1).data ++ [0, 2]) {}])).map fun s =>
      ((s.peers ⟨0, by decide⟩).active, decide ((s.peers ⟨0, by decide⟩).state = .kRelayed),
        (s.peers ⟨0, by decide⟩).hdPeerId,
        decide (∀ k : Fin 256, (s.proxyPeers k).active → (s.proxyPeers k).hdPeerId = 1))) =
      some (true, true, 2, true) := by
    decide +kernel
  obtain ⟨s, hs, hview⟩ := Option.map_eq_some_iff.1 hrun
  simp only [Prod.mk.injEq, decide_eq_true_eq] at hview
  obtain ⟨hactive, hst, hid, hold⟩ := hview
  obtain ⟨j, hj, hjid, -⟩ := (h _ _ s hs).relayed _ hactive hst
  have hone := hold j ((hj j).2 rfl).1
  rw [hone, hid] at hjid
  cases hjid

/-- A relayed peer that leaves takes its own entry with it. -/
theorem relayed_peer_leaves :
    ∃ s s', Runs.run (step { publicKey := byteKey 9 }) {}
        (relayedRun (byteKey 1) 1 (byteKey 7)) = some s ∧
      step { publicKey := byteKey 9 } s (.frame .kPeerGone (byteKey 1).data {}) = some s' ∧
      Coherent s ∧ RemovesOnly (byteKey 1) s s' := by
  have hrun₁ : ((Runs.run (step { publicKey := byteKey 9 }) {}
      ((relayedRun (byteKey 1) 1 (byteKey 7)).take 1)).map fun s =>
      decide (∀ i : Fin 256, (s.peers i).active → i = 0)) = some true := by decide +kernel
  have hrun₂ : ((Runs.run (step { publicKey := byteKey 9 }) {}
      ((relayedRun (byteKey 1) 1 (byteKey 7)).take 2)).map fun s =>
      decide (∀ j : Fin 256, (s.proxyPeers j).active = false)) = some true := by decide +kernel
  have hrun₃ : ((Runs.run (step { publicKey := byteKey 9 }) {}
      (relayedRun (byteKey 1) 1 (byteKey 7))).map fun s =>
      decide (∀ i : Fin 256, (s.peers i).active → (s.peers i).state = .kRelayed)) = some true := by
    decide +kernel
  obtain ⟨s₁, h₁, hone⟩ := Option.map_eq_some_iff.1 hrun₁
  obtain ⟨s₂, h₂, hnone⟩ := Option.map_eq_some_iff.1 hrun₂
  obtain ⟨s, h₃, hrelayed⟩ := Option.map_eq_some_iff.1 hrun₃
  rw [decide_eq_true_eq] at hone hnone hrelayed
  have hreach := relayedRun_ok h₁ h₂ h₃
    (fun i j hi hj => (hone i hi).trans (hone j hj).symm) hnone
  obtain ⟨hcoherent, hremoves⟩ := stores_coherent hreach
  have hkey : keyAt (byteKey 1).data 0 = byteKey 1 := by decide
  refine ⟨s, _, h₃, rfl, hcoherent, ?_⟩
  rw [← hkey]
  refine hremoves (byteKey 1).data {} _ ⟨nofun, nofun, ?_⟩ rfl
  intro _ i hfind hex
  rw [hrelayed i (State.find_active hfind).1] at hex
  exact absurd ⟨nofun, nofun⟩ hex

end HyperDerp.WgDaemon
