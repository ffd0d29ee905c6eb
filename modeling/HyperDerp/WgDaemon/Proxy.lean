import HyperDerp.WgDaemon.Coherence

/-!
# Whom the proxy takes a packet for (`wg_proxy.cc:107-154`, `hd_wg.cc:362-379`)

wireguard.ko sends the packets for all peers behind the proxy from its one listen port.
The proxy tells peers apart by the source port of their packets.
-/

namespace HyperDerp.WgDaemon

open FrontScan

/-- The entry whose peer `WgProxyHandleUdp` sends a packet to. -/
def State.wgProxyTarget (s : State) (srcPort : ℕ) : Option (Fin kWgMaxProxyPeers) :=
  match first s.proxyPeers fun q => q.active && q.wgSrcPort = srcPort with
  | some j => some j
  | none => first s.proxyPeers fun q => q.active && q.wgSrcPort = 0

def State.wgProxySend (s : State) (srcPort : ℕ) : Option ℕ :=
  (s.wgProxyTarget srcPort).map fun j => (s.proxyPeers j).hdPeerId

/-- Every packet of wireguard.ko comes from its listen port. -/
def FromListenPort (listenPort : ℕ) (_ : State) (l : Label) : Prop :=
  ∀ srcPort, l = .udp srcPort → srcPort = listenPort

/-- The entry has learnt the port, or none has and it is the first one. -/
def Learner (listenPort : ℕ) (s : State) (j : Fin kWgMaxProxyPeers) : Prop :=
  (s.proxyPeers j).wgSrcPort = listenPort ∨
    ∀ k, (s.proxyPeers k).active → (s.proxyPeers k).wgSrcPort ≠ listenPort ∧ j ≤ k

/-- A packet for the peer in slot `i` goes to its id, which no other relayed peer has. -/
structure ProxiedRight (listenPort : ℕ) (s : State) (i : Fin kWgMaxPeers) : Prop where
  own : s.wgProxySend listenPort = some (s.peers i).hdPeerId
  other : ∀ k, k ≠ i → (s.peers k).active → (s.peers k).state = .kRelayed →
    s.wgProxySend listenPort ≠ some (s.peers k).hdPeerId

/-- The entry that answers to the listen port has the id that the peer has now, and no other
relayed peer has it. -/
def Attributed (listenPort : ℕ) (s : State) (i : Fin kWgMaxPeers) : Prop :=
  (∃ j, (s.proxyPeers j).active ∧ Learner listenPort s j ∧
    (s.proxyPeers j).hdPeerId = (s.peers i).hdPeerId) ∧
  ∀ k, k ≠ i → (s.peers k).active → (s.peers k).state = .kRelayed →
    (s.peers k).hdPeerId ≠ (s.peers i).hdPeerId

variable {cfg : WgDaemonConfig} {s s' : State} {i : Fin kWgMaxPeers} {env : Env} {l : Label}
  {listenPort : ℕ} {j k : Fin kWgMaxProxyPeers}

/-! ### What writes the proxy table -/

structure ProxyKept (ok : ℕ → Prop) (P : (Fin kWgMaxProxyPeers → WgProxyPeer) → Prop) : Prop where
  add : ∀ (s : State) hdKey hdPeerId wgPubkey tunnelIp, P s.proxyPeers →
    P (s.wgProxyAddPeer hdKey hdPeerId wgPubkey tunnelIp).proxyPeers
  remove : ∀ (s : State) wgPubkey, P s.proxyPeers → P (s.wgProxyRemovePeer wgPubkey).proxyPeers
  udp : ∀ (s : State) srcPort, ok srcPort → P s.proxyPeers →
    P (s.wgProxyHandleUdp srcPort).proxyPeers

section kept

variable {ok : ℕ → Prop} {P : (Fin kWgMaxProxyPeers → WgProxyPeer) → Prop}

theorem ProxyKept.startRelay (hP : ProxyKept ok P) (h : P s.proxyPeers) :
    P (s.startRelay cfg i env).proxyPeers := by
  rw [State.proxyPeers_startRelay]
  exact hP.add _ _ _ _ _ h

theorem ProxyKept.fallBack (hP : ProxyKept ok P) (h : P s.proxyPeers) :
    P (s.fallBack cfg i env).proxyPeers := by
  unfold State.fallBack
  rw [State.proxyPeers_setPeer]
  apply hP.startRelay
  rw [State.proxyPeers_wgNlRemovePeer]
  exact h

theorem ProxyKept.check (hP : ProxyKept ok P) (h : P s.proxyPeers) :
    P (s.checkDirectPromotion cfg i env).proxyPeers := by
  unfold State.checkDirectPromotion
  dsimp only
  split
  · exact hP.startRelay h
  split
  · split
    · exact h
    · split
      · exact h
      · split
        · exact hP.fallBack h
        · exact h
  split
  · exact h
  split
  · exact h
  split
  · exact hP.startRelay h
  · exact h

theorem proxyPeers_handleCandidates {data : Bytes} :
    (s.handleCandidates cfg i env data).proxyPeers = s.proxyPeers := by
  unfold State.handleCandidates
  split
  · rfl
  split
  · rfl
  dsimp only
  split
  · split
    · rfl
    · split
      · exact State.proxyPeers_wgNlSetPeer
      · rfl
  · rfl

theorem proxyPeers_handleWgex {data : Bytes} :
    (s.handleWgex i env data).proxyPeers = s.proxyPeers := by
  unfold State.handleWgex
  split
  · rfl
  · split <;> rfl

theorem proxyPeers_handlePeerInfo {payload : Bytes} :
    (s.handlePeerInfo cfg payload).proxyPeers = s.proxyPeers := by
  have hadd : ∀ hdKey hdPeerId t x, s.wgPeerAdd hdKey hdPeerId = some (t, x) →
      t.proxyPeers = s.proxyPeers := by
    intro hdKey hdPeerId t x h
    unfold State.wgPeerAdd at h
    split at h
    · cases h
      rfl
    · split at h
      · cases h
        rfl
      · cases h
  unfold State.handlePeerInfo
  split
  · rfl
  split
  · rfl
  split
  · rfl
  · next t x h =>
    split
    · rw [State.proxyPeers_setPeer]
      exact hadd _ _ _ _ h
    · exact hadd _ _ _ _ h

theorem ProxyKept.peerGone (hP : ProxyKept ok P) (h : P s.proxyPeers) {payload : Bytes} :
    P (s.handlePeerGone env payload).proxyPeers := by
  by_cases hlen : payload.length < 32
  · unfold State.handlePeerGone
    rw [if_pos hlen]
    exact h
  cases hfind : s.wgPeerFind (keyAt payload 0) with
  | none =>
    unfold State.handlePeerGone
    rw [if_neg hlen, hfind]
    exact h
  | some i =>
    rw [(State.handlePeerGone_eq env hlen hfind).2.1]
    exact hP.remove _ _ h

theorem ProxyKept.meshData (hP : ProxyKept ok P) (h : P s.proxyPeers) {srcId : ℕ}
    {payload : Bytes} : P (s.handleMeshData cfg srcId payload env).proxyPeers := by
  unfold State.handleMeshData
  split
  · exact h
  split
  · rw [proxyPeers_handleWgex]
    exact h
  split
  · rw [proxyPeers_handleCandidates]
    exact h
  split
  · exact hP.fallBack h
  · exact h

theorem ProxyKept.step (hP : ProxyKept ok P) (h : P s.proxyPeers)
    (hok : ∀ srcPort, l = .udp srcPort → ok srcPort) (hs : step cfg s l = some s') :
    P s'.proxyPeers := by
  cases l with
  | frame type buf env =>
    simp only [WgDaemon.step] at hs
    split at hs
    · cases hs
      rw [proxyPeers_handlePeerInfo]
      exact h
    split at hs
    · split at hs
      · cases hs
        exact h
      · cases hs
        exact hP.meshData h
    split at hs
    · cases hs
      exact hP.peerGone h
    · cases hs
      exact h
  | udp srcPort =>
    cases hs
    exact hP.udp _ _ (hok srcPort rfl) h
  | check i env =>
    simp only [WgDaemon.step] at hs
    split at hs
    · cases hs
      exact hP.check h
    · cases hs
      exact h

end kept

/-! ### One entry learns the port -/

structure OneLearner (listenPort : ℕ) (f : Fin kWgMaxProxyPeers → WgProxyPeer) : Prop where
  ids : ∀ j k, (f j).active → (f k).active → (f j).hdPeerId = (f k).hdPeerId → j = k
  ports : ∀ j, (f j).active → (f j).wgSrcPort = 0 ∨ (f j).wgSrcPort = listenPort
  once : ∀ j k, (f j).active → (f k).active → (f j).wgSrcPort = listenPort →
    (f k).wgSrcPort = listenPort → j = k

theorem OneLearner.add (hport : listenPort ≠ 0) (h : OneLearner listenPort s.proxyPeers)
    (hdKey : Key) (hdPeerId : ℕ) (wgPubkey : Key) (tunnelIp : ℕ) :
    OneLearner listenPort (s.wgProxyAddPeer hdKey hdPeerId wgPubkey tunnelIp).proxyPeers := by
  unfold State.wgProxyAddPeer
  split
  · exact h
  next hnew =>
  split
  · next j hj =>
    have hids : ∀ k, (s.proxyPeers k).active → (s.proxyPeers k).hdPeerId ≠ hdPeerId := by
      intro k hk heq
      have hfail := first_none.1 hnew k
      simp [hk, heq] at hfail
    dsimp only [State.setProxyPeer]
    refine ⟨fun a b => ?_, fun a => ?_, fun a b => ?_⟩
    · by_cases ha : a = j <;> by_cases hb : b = j
      · exact fun _ _ _ => ha.trans hb.symm
      · rw [ha, Function.update_self, Function.update_of_ne hb]
        exact fun _ hact heq => absurd heq.symm (hids b hact)
      · rw [hb, Function.update_self, Function.update_of_ne ha]
        exact fun hact _ heq => absurd heq (hids a hact)
      · rw [Function.update_of_ne ha, Function.update_of_ne hb]
        exact h.ids a b
    · by_cases ha : a = j
      · rw [ha, Function.update_self]
        exact fun _ => .inl rfl
      · rw [Function.update_of_ne ha]
        exact h.ports a
    · by_cases ha : a = j <;> by_cases hb : b = j
      · exact fun _ _ _ _ => ha.trans hb.symm
      · rw [ha, Function.update_self]
        exact fun _ _ hzero _ => absurd hzero.symm hport
      · rw [hb, Function.update_self]
        exact fun _ _ _ hzero => absurd hzero.symm hport
      · rw [Function.update_of_ne ha, Function.update_of_ne hb]
        exact h.once a b
  · exact h

theorem OneLearner.remove (h : OneLearner listenPort s.proxyPeers) (wgPubkey : Key) :
    OneLearner listenPort (s.wgProxyRemovePeer wgPubkey).proxyPeers := by
  unfold State.wgProxyRemovePeer
  split
  · next j hj =>
    have hsame : ∀ a, (Function.update s.proxyPeers j { s.proxyPeers j with active := false } a).active →
        Function.update s.proxyPeers j { s.proxyPeers j with active := false } a = s.proxyPeers a := by
      intro a ha
      by_cases haj : a = j
      · rw [haj, Function.update_self] at ha
        cases ha
      · exact Function.update_of_ne haj ..
    dsimp only [State.setProxyPeer]
    refine ⟨fun a b ha hb => ?_, fun a ha => ?_, fun a b ha hb => ?_⟩
    · have hea := hsame a ha
      have heb := hsame b hb
      rw [hea] at ha ⊢
      rw [heb] at hb ⊢
      exact h.ids a b ha hb
    · have hea := hsame a ha
      rw [hea] at ha ⊢
      exact h.ports a ha
    · have hea := hsame a ha
      have heb := hsame b hb
      rw [hea] at ha ⊢
      rw [heb] at hb ⊢
      exact h.once a b ha hb
  · exact h

theorem OneLearner.udp (h : OneLearner listenPort s.proxyPeers) :
    OneLearner listenPort (s.wgProxyHandleUdp listenPort).proxyPeers := by
  unfold State.wgProxyHandleUdp
  split
  · exact h
  next hnone =>
  have hfresh : ∀ k, (s.proxyPeers k).active → (s.proxyPeers k).wgSrcPort ≠ listenPort := by
    intro k hk heq
    have hfail := first_none.1 hnone k
    simp [hk, heq] at hfail
  split
  · next j hj =>
    have hview : ∀ a, (Function.update s.proxyPeers j { s.proxyPeers j with wgSrcPort := listenPort }
        a).active = (s.proxyPeers a).active ∧ (Function.update s.proxyPeers j
          { s.proxyPeers j with wgSrcPort := listenPort } a).hdPeerId = (s.proxyPeers a).hdPeerId := by
      intro a
      by_cases haj : a = j
      · rw [haj, Function.update_self]
        exact ⟨rfl, rfl⟩
      · rw [Function.update_of_ne haj]
        exact ⟨rfl, rfl⟩
    dsimp only [State.setProxyPeer]
    refine ⟨fun a b => ?_, fun a => ?_, fun a b => ?_⟩
    · rw [(hview a).1, (hview b).1, (hview a).2, (hview b).2]
      exact h.ids a b
    · by_cases haj : a = j
      · rw [haj, Function.update_self]
        exact fun _ => .inr rfl
      · rw [Function.update_of_ne haj]
        exact h.ports a
    · by_cases ha : a = j <;> by_cases hb : b = j
      · exact fun _ _ _ _ => ha.trans hb.symm
      · rw [Function.update_of_ne hb]
        exact fun _ hact _ heq => absurd heq (hfresh b hact)
      · rw [Function.update_of_ne ha]
        exact fun hact _ heq _ => absurd heq (hfresh a hact)
      · rw [Function.update_of_ne ha, Function.update_of_ne hb]
        exact h.once a b
  · exact h

theorem oneLearner_reach (hport : listenPort ≠ 0)
    (h : Runs.Reach Init (step cfg) (FromListenPort listenPort) s) :
    OneLearner listenPort s.proxyPeers := by
  have hkept : ProxyKept (· = listenPort) (OneLearner listenPort) :=
    ⟨fun s hdKey hdPeerId wgPubkey tunnelIp hs => hs.add hport hdKey hdPeerId wgPubkey tunnelIp,
      fun s wgPubkey hs => hs.remove wgPubkey, fun s srcPort heq hs => by rw [heq]; exact hs.udp⟩
  apply h.invariant
  · rintro s rfl
    exact ⟨nofun, nofun, nofun⟩
  · exact fun s s' l hs hok hstep => hkept.step hs hok hstep

/-! ### Main result -/

theorem target_eq_some_iff (h : OneLearner listenPort s.proxyPeers)
    (hj : (s.proxyPeers j).active = true) :
    s.wgProxyTarget listenPort = some j ↔ Learner listenPort s j := by
  unfold State.wgProxyTarget Learner
  cases hfirst : first s.proxyPeers fun q => q.active && q.wgSrcPort = listenPort with
  | some x =>
    have hx := first_some hfirst
    simp only [Bool.and_eq_true, decide_eq_true_eq] at hx
    rw [Option.some.injEq]
    constructor
    · rintro rfl
      exact .inl hx.2
    · rintro (hlearnt | hnone)
      · exact h.once x j hx.1 hj hx.2 hlearnt
      · exact absurd hx.2 (hnone x hx.1).1
  | none =>
    have hfresh : ∀ k, (s.proxyPeers k).active = true → (s.proxyPeers k).wgSrcPort ≠ listenPort := by
      intro k hk heq
      have hfail := first_none.1 hfirst k
      simp [hk, heq] at hfail
    have hzero : ∀ k, (s.proxyPeers k).active = true → (s.proxyPeers k).wgSrcPort = 0 :=
      fun k hk => (h.ports k hk).resolve_right (hfresh k hk)
    dsimp only
    constructor
    · intro htarget
      refine .inr fun k hk => ⟨hfresh k hk, ?_⟩
      by_contra hlt
      have hbefore := first_before htarget (not_le.1 hlt)
      simp [hk, hzero k hk] at hbefore
    · rintro (hlearnt | hnone)
      · exact absurd hlearnt (hfresh j hj)
      · apply first_eq_some
        · simp [hj, hzero j hj]
        · intro k hk
          by_contra hpass
          simp only [Bool.not_eq_false, Bool.and_eq_true, decide_eq_true_eq] at hpass
          exact absurd (hnone k hpass.1).2 (not_le.2 hk)

theorem target_active {srcPort : ℕ} (h : s.wgProxyTarget srcPort = some j) :
    (s.proxyPeers j).active = true := by
  unfold State.wgProxyTarget at h
  split at h
  · next hfirst =>
    have hpass := first_some hfirst
    simp only [Bool.and_eq_true] at hpass
    cases h
    exact hpass.1
  · have hpass := first_some h
    simp only [Bool.and_eq_true] at hpass
    exact hpass.1

/-- In every run, packets of wireguard.ko for a peer of the table go to that peer, under the id it
has now, if and only if the entry that answers to the listen port has this id. -/
theorem proxied_right_iff (hport : listenPort ≠ 0)
    (h : Runs.Reach Init (step cfg) (FromListenPort listenPort) s) (i : Fin kWgMaxPeers) :
    ProxiedRight listenPort s i ↔ Attributed listenPort s i := by
  have hone := oneLearner_reach hport h
  constructor
  · intro hright
    have hown := hright.own
    obtain ⟨j, hj, hid⟩ := Option.map_eq_some_iff.1 hown
    have hactive := target_active hj
    refine ⟨⟨j, hactive, (target_eq_some_iff hone hactive).1 hj, hid⟩, ?_⟩
    intro k hk hkactive hrelayed heq
    exact hright.other k hk hkactive hrelayed (heq ▸ hown)
  · rintro ⟨⟨j, hactive, hlearner, hid⟩, hother⟩
    have hsend : s.wgProxySend listenPort = some (s.peers i).hdPeerId :=
      Option.map_eq_some_iff.2 ⟨j, (target_eq_some_iff hone hactive).2 hlearner, hid⟩
    refine ⟨hsend, fun k hk hkactive hrelayed heq => ?_⟩
    rw [hsend, Option.some.injEq] at heq
    exact hother k hk hkactive hrelayed heq.symm

/-! ### Two peers -/

def ownCfg : WgDaemonConfig := { publicKey := byteKey 9 }

/-- Two relayed peers, and a packet for the first. -/
def relayedTwo : List Label :=
  relayedRun (byteKey 1) 1 (byteKey 7) ++
    [Label.frame .kPeerInfo ((byteKey 2).data ++ [0, 2]) {},
      .frame .kMeshData ([0, 2] ++ kWgexMagic ++ (byteKey 8).data ++ [10, 0, 0, 3]) {},
      .check ⟨1, by decide⟩ { now := 1000 }, .udp 51820]

theorem relayedTwo_reach (h : Runs.run (step ownCfg) {} relayedTwo = some s) :
    Runs.Reach Init (step ownCfg) (FromListenPort 51820) s := by
  have hstart : Runs.Reach Init (step ownCfg) (FromListenPort 51820) {} := .start _ rfl
  apply Runs.reach_run hstart _ h
  apply Runs.runOk_of_forall
  simp [relayedTwo, relayedRun, FromListenPort]

def isRelayed (s : State) (i : Fin kWgMaxPeers) : Bool :=
  (s.peers i).active && (s.peers i).state = .kRelayed

theorem first_of_two_right : ∃ s, Runs.run (step ownCfg) {} relayedTwo = some s ∧
    isRelayed s ⟨0, by decide⟩ = true ∧ isRelayed s ⟨1, by decide⟩ = true ∧
      ProxiedRight 51820 s ⟨0, by decide⟩ := by
  have hrun : ((Runs.run (step ownCfg) {} relayedTwo).map fun s =>
      decide (isRelayed s ⟨0, by decide⟩ = true ∧ isRelayed s ⟨1, by decide⟩ = true ∧
        ((s.proxyPeers ⟨0, by decide⟩).active = true ∧
          (s.proxyPeers ⟨0, by decide⟩).wgSrcPort = 51820 ∧
          (s.proxyPeers ⟨0, by decide⟩).hdPeerId = (s.peers ⟨0, by decide⟩).hdPeerId) ∧
        ∀ k : Fin 256, k ≠ ⟨0, by decide⟩ → (s.peers k).active → (s.peers k).state = .kRelayed →
          (s.peers k).hdPeerId ≠ (s.peers ⟨0, by decide⟩).hdPeerId)) = some true := by
    decide +kernel
  obtain ⟨s, hs, hview⟩ := Option.map_eq_some_iff.1 hrun
  obtain ⟨hfirst, hsecond, ⟨hactive, hport, hid⟩, hother⟩ := of_decide_eq_true hview
  refine ⟨s, hs, hfirst, hsecond, ?_⟩
  apply (proxied_right_iff (by decide) (relayedTwo_reach hs) ⟨0, by decide⟩).2
  exact ⟨⟨⟨0, by decide⟩, hactive, .inl hport, hid⟩, hother⟩

/-- A packet for the second peer is sent to the first. -/
theorem second_peer_missed : ¬∀ (cfg : WgDaemonConfig) (listenPort : ℕ) (s : State)
    (i : Fin kWgMaxPeers), listenPort ≠ 0 →
    Runs.Reach Init (step cfg) (FromListenPort listenPort) s → isRelayed s i = true →
      ProxiedRight listenPort s i := by
  intro h
  have hrun : ((Runs.run (step ownCfg) {} relayedTwo).map fun s =>
      decide (isRelayed s ⟨1, by decide⟩ = true ∧ (s.peers ⟨1, by decide⟩).hdPeerId = 2 ∧
        s.wgProxySend 51820 = some 1)) = some true := by
    decide +kernel
  obtain ⟨s, hs, hview⟩ := Option.map_eq_some_iff.1 hrun
  obtain ⟨hrelayed, hid, hsend⟩ := of_decide_eq_true hview
  have hright := (h ownCfg 51820 s ⟨1, by decide⟩ (by decide) (relayedTwo_reach hs) hrelayed).own
  rw [hsend, hid] at hright
  cases hright

end HyperDerp.WgDaemon
