import HyperDerp.Config.Paths
import HyperDerp.HdProtocol
import HyperDerp.Lib.KeyedList
import HyperDerp.Lib.Runs

/-!
# Peers the SDK knows (`client.cc:354-404`, `:567-614`)

The map from peer ids to peers, as a list in the order a loop over it runs; an insertion may
change that order. Beside it stands what the relays have announced: the address of every key
that was announced and has not gone since.
-/

namespace HyperDerp.SdkPeers

open KeyedList

structure PeerInfo where
  publicKey : Key
  peerId : ℕ
  relayId : ℕ := 0
  name : Bytes
  connected : Bool := true
  deriving DecidableEq

structure Addr where
  relayId : ℕ
  peerId : ℕ
  deriving DecidableEq

structure State where
  peers : List PeerInfo := []
  announced : Key → Option Addr := fun _ => none

structure Label where
  type : HdFrameType
  payload : Bytes
  /-- the order of the map after an insertion -/
  order : List PeerInfo := []

/-- `sodium_bin2hex` of the first eight bytes. -/
def peerName (key : Key) : Bytes := (keyHex key).take 16

def payloadKey (payload : Bytes) : Key :=
  if h : kKeySize ≤ payload.length then toKey payload h else zeroKey

def parsePeerInfo (payload : Bytes) : PeerInfo where
  publicKey := payloadKey payload
  peerId := readU16 payload 32
  relayId := if 36 ≤ payload.length then readU16 payload 34 else 0
  name := peerName (payloadKey payload)

def PeerInfo.addr (p : PeerInfo) : Addr := ⟨p.relayId, p.peerId⟩

/-- What a PeerGone frame does to the map: an entry under id 0 stays. -/
def removeGone (key : Key) (peers : List PeerInfo) : List PeerInfo :=
  match peers.find? (·.publicKey = key) with
  | some p => if 0 < p.peerId then erase PeerInfo.peerId p.peerId peers else peers
  | none => peers

/-- `DispatchFrame`. -/
def step (s : State) (l : Label) : Option State :=
  if l.type = .kPeerInfo ∧ 34 ≤ l.payload.length then
    let p := parsePeerInfo l.payload
    if l.order.Perm (assign PeerInfo.peerId p s.peers) then
      some
        { peers := l.order
          announced := Function.update s.announced p.publicKey (some p.addr) }
    else none
  else if l.type = .kPeerGone ∧ 32 ≤ l.payload.length then
    let key := payloadKey l.payload
    some
      { peers := removeGone key s.peers
        announced := Function.update s.announced key none }
  else some s

def Init (s : State) : Prop := s = {}

/-- The id that `Open` finds for a name, 0 for none. -/
def findId (s : State) (peerName : Bytes) : ℕ :=
  match s.peers.find? (·.name = peerName) with
  | some p => p.peerId
  | none => 0

def numericId (s : State) (peerName : Bytes) : ℕ :=
  match Config.stoi peerName with
  | none => 0
  | some (x, _) =>
    let num := (x % 2 ^ 16).toNat
    if s.peers.any (·.peerId = num) then num else 0

/-- The address that `Open` sends its request to. -/
def openAddr (s : State) (peerName : Bytes) : Option Addr :=
  let found := findId s peerName
  let peerId := if found = 0 then numericId s peerName else found
  if peerId = 0 then none
  else
    match s.peers.find? (·.peerId = peerId) with
    | some p => some ⟨p.relayId, peerId⟩
    | none => some ⟨0, peerId⟩

/-- Every peer announced and not gone is in the list once, under its own key, and an open by its
name goes to its address. -/
def Sound (s : State) : Prop :=
  ∀ key addr, s.announced key = some addr →
    (∃ p, s.peers.filter (·.publicKey = key) = [p] ∧ p.addr = addr) ∧
      openAddr s (peerName key) = some addr

/-- A peer is announced under an id that no other known peer has and that is the one it had, if
it is known, and its name is its own. -/
def StepOk (s : State) (l : Label) : Prop :=
  l.type = .kPeerInfo → 34 ≤ l.payload.length →
    let p := parsePeerInfo l.payload
    p.peerId ≠ 0 ∧
      (∀ addr, s.announced p.publicKey = some addr → addr.peerId = p.peerId) ∧
      ∀ key addr, s.announced key = some addr → key ≠ p.publicKey →
        addr.peerId ≠ p.peerId ∧ peerName key ≠ p.name

structure Inv (s : State) : Prop where
  keyed : Keyed PeerInfo.peerId s.peers
  entry : ∀ p ∈ s.peers, s.announced p.publicKey = some p.addr ∧ p.name = peerName p.publicKey ∧
    p.peerId ≠ 0
  listed : ∀ key addr, s.announced key = some addr → ∃ p ∈ s.peers, p.publicKey = key
  names : ∀ k k' a a', s.announced k = some a → s.announced k' = some a' →
    peerName k = peerName k' → k = k'

variable {s s' : State} {l : Label}

theorem Inv.addr_inj (h : Inv s) {p q : PeerInfo} (hp : p ∈ s.peers) (hq : q ∈ s.peers)
    (heq : p.publicKey = q.publicKey) : p = q := by
  have haddr := (h.entry p hp).1.symm.trans ((congrArg s.announced heq).trans (h.entry q hq).1)
  exact h.keyed.inj hp hq (congrArg Addr.peerId (Option.some.inj haddr))

theorem sound_of_inv (h : Inv s) : Sound s := by
  intro key addr hann
  obtain ⟨p, hp, rfl⟩ := h.listed key addr hann
  obtain ⟨hentry, hname, hid⟩ := h.entry p hp
  have haddr : p.addr = addr := Option.some.inj (hentry.symm.trans hann)
  refine ⟨⟨p, ?_, haddr⟩, ?_⟩
  · apply filter_unique h.keyed.of_map hp (decide_eq_true rfl)
    exact fun q hq hkey => h.addr_inj hq hp (of_decide_eq_true hkey)
  · have hfind : s.peers.find? (·.name = peerName p.publicKey) = some p := by
      apply find?_unique hp (decide_eq_true hname)
      intro q hq hqname
      obtain ⟨hqentry, hqn, -⟩ := h.entry q hq
      have hsame := hqn.symm.trans (of_decide_eq_true hqname)
      exact h.addr_inj hq hp (h.names _ _ _ _ hqentry hentry hsame)
    have hlook : s.peers.find? (·.peerId = p.peerId) = some p := by
      apply find?_unique hp (decide_eq_true rfl)
      exact fun q hq hqid => h.keyed.inj hq hp (of_decide_eq_true hqid)
    unfold openAddr findId
    rw [hfind]
    dsimp only
    rw [if_neg hid, if_neg hid, hlook, ← haddr]
    rfl

theorem mem_removeGone (h : Inv s) (key : Key) (q : PeerInfo) :
    q ∈ removeGone key s.peers ↔ q ∈ s.peers ∧ q.publicKey ≠ key := by
  unfold removeGone
  split
  · next p hfind =>
    have hp := List.mem_of_find?_eq_some hfind
    have hkey : p.publicKey = key := of_decide_eq_true (List.find?_some hfind :)
    rw [if_pos (Nat.pos_of_ne_zero (h.entry p hp).2.2), mem_erase]
    apply and_congr_right
    intro hq
    apply not_congr
    constructor
    · intro hid
      rw [h.keyed.inj hq hp hid, hkey]
    · intro hqk
      rw [h.addr_inj hq hp (hqk.trans hkey.symm)]
  · next hfind =>
    refine ⟨fun hq => ⟨hq, ?_⟩, And.left⟩
    simpa using List.find?_eq_none.mp hfind q hq

theorem keyed_removeGone (h : Inv s) (key : Key) :
    Keyed PeerInfo.peerId (removeGone key s.peers) := by
  unfold removeGone
  split
  · split
    · exact h.keyed.erase
    · exact h.keyed
  · exact h.keyed

theorem Inv.gone (h : Inv s) (key : Key) :
    Inv { peers := removeGone key s.peers
          announced := Function.update s.announced key none } where
  keyed := keyed_removeGone h key
  entry q hq := by
    obtain ⟨hq, hne⟩ := (mem_removeGone h key q).mp hq
    dsimp only
    rw [Function.update_of_ne hne]
    exact h.entry q hq
  listed k a hk := by
    dsimp only at hk ⊢
    by_cases hkey : k = key
    · rw [hkey, Function.update_self] at hk
      cases hk
    · rw [Function.update_of_ne hkey] at hk
      obtain ⟨q, hq, rfl⟩ := h.listed k a hk
      exact ⟨q, (mem_removeGone h key q).mpr ⟨hq, hkey⟩, rfl⟩
  names k k' a a' hk hk' := by
    have hold : ∀ {j b}, Function.update s.announced key none j = some b →
        s.announced j = some b := by
      intro j b hj
      by_cases hkey : j = key
      · rw [hkey, Function.update_self] at hj
        cases hj
      · rwa [Function.update_of_ne hkey] at hj
    exact h.names k k' a a' (hold hk) (hold hk')

theorem Inv.info (h : Inv s) {p : PeerInfo} {order : List PeerInfo}
    (hname : p.name = peerName p.publicKey)
    (horder : order.Perm (assign PeerInfo.peerId p s.peers)) (hid : p.peerId ≠ 0)
    (hsame : ∀ addr, s.announced p.publicKey = some addr → addr.peerId = p.peerId)
    (hother : ∀ key addr, s.announced key = some addr → key ≠ p.publicKey →
      addr.peerId ≠ p.peerId ∧ peerName key ≠ p.name) :
    Inv { peers := order
          announced := Function.update s.announced p.publicKey (some p.addr) } where
  keyed := h.keyed.assign.perm horder
  entry q hq := by
    rcases mem_assign.mp (horder.mem_iff.mp hq) with rfl | ⟨hq, hne⟩
    · exact ⟨Function.update_self .., hname, hid⟩
    · have hkey : q.publicKey ≠ p.publicKey := by
        intro heq
        exact hne (hsame q.addr (heq ▸ (h.entry q hq).1))
      dsimp only
      rw [Function.update_of_ne hkey]
      exact h.entry q hq
  listed k a hk := by
    dsimp only at hk ⊢
    by_cases hkey : k = p.publicKey
    · exact ⟨p, horder.mem_iff.mpr (mem_assign.mpr (.inl rfl)), hkey.symm⟩
    · rw [Function.update_of_ne hkey] at hk
      obtain ⟨q, hq, rfl⟩ := h.listed k a hk
      have hne := (hother _ _ (h.entry q hq).1 hkey).1
      exact ⟨q, horder.mem_iff.mpr (mem_assign.mpr (.inr ⟨hq, hne⟩)), rfl⟩
  names k k' a a' hk hk' heq := by
    dsimp only at hk hk'
    by_cases hkey : k = p.publicKey
    · by_cases hkey' : k' = p.publicKey
      · rw [hkey, hkey']
      · rw [Function.update_of_ne hkey'] at hk'
        have hne := (hother k' a' hk' hkey').2
        rw [hkey, ← hname] at heq
        exact (hne heq.symm).elim
    · rw [Function.update_of_ne hkey] at hk
      by_cases hkey' : k' = p.publicKey
      · have hne := (hother k a hk hkey).2
        rw [hkey', ← hname] at heq
        exact (hne heq).elim
      · rw [Function.update_of_ne hkey'] at hk'
        exact h.names k k' a a' hk hk' heq

theorem step_inv (h : Inv s) (hok : StepOk s l) (hs : step s l = some s') : Inv s' := by
  unfold step at hs
  split at hs
  · next htype =>
    dsimp only at hs
    split at hs
    · next horder =>
      cases hs
      obtain ⟨hid, hsame, hother⟩ := hok htype.1 htype.2
      exact h.info rfl horder hid hsame hother
    · cases hs
  · split at hs
    · cases hs
      exact h.gone _
    · cases hs
      exact h

/-! ### What a frame needs, exactly -/

theorem openAddr_ne_zero {name : Bytes} {addr : Addr} (h : openAddr s name = some addr) :
    addr.peerId ≠ 0 := by
  unfold openAddr at h
  dsimp only at h
  generalize (if findId s name = 0 then numericId s name else findId s name) = id at h
  by_cases hid : id = 0
  · rw [if_pos hid] at h
    cases h
  · rw [if_neg hid] at h
    split at h <;>
    · cases h
      exact hid

theorem ok_of_sound (h : Inv s) (hs : step s l = some s') (h' : Sound s') : StepOk s l := by
  intro htype hlen
  unfold step at hs
  rw [if_pos ⟨htype, hlen⟩] at hs
  dsimp only at hs ⊢
  have hname : (parsePeerInfo l.payload).name = peerName (parsePeerInfo l.payload).publicKey := rfl
  generalize parsePeerInfo l.payload = p at hs hname ⊢
  split at hs
  · next horder =>
    cases hs
    have hmem : ∀ q, q ∈ l.order ↔ q = p ∨ q ∈ s.peers ∧ q.peerId ≠ p.peerId := fun q =>
      horder.mem_iff.trans mem_assign
    obtain ⟨⟨p', hlist, -⟩, hopen⟩ := h' p.publicKey p.addr (Function.update_self ..)
    have honly : ∀ q ∈ l.order, q.publicKey = p.publicKey → q = p' := by
      intro q hq hkey
      have hfilter : q ∈ l.order.filter (·.publicKey = p.publicKey) :=
        List.mem_filter.mpr ⟨hq, decide_eq_true hkey⟩
      rw [hlist, List.mem_singleton] at hfilter
      exact hfilter
    have hp' : p = p' := honly p ((hmem p).mpr (.inl rfl)) rfl
    refine ⟨openAddr_ne_zero hopen, ?_, ?_⟩
    · intro addr haddr
      obtain ⟨q, hq, hkey⟩ := h.listed _ addr haddr
      have hqaddr : q.addr = addr := Option.some.inj ((hkey ▸ (h.entry q hq).1).symm.trans haddr)
      by_contra hne
      rw [← hqaddr] at hne
      have hqp := (honly q ((hmem q).mpr (.inr ⟨hq, hne⟩)) hkey).trans hp'.symm
      exact hne (congrArg PeerInfo.peerId hqp)
    · intro key addr haddr hkey
      have hann : Function.update s.announced p.publicKey (some p.addr) key = some addr := by
        rw [Function.update_of_ne hkey, haddr]
      obtain ⟨⟨r, hr, hraddr⟩, hropen⟩ := h' key addr hann
      have hrmem : r ∈ l.order ∧ r.publicKey = key := by
        have hin : r ∈ l.order.filter (·.publicKey = key) := by
          rw [hr]
          exact List.mem_singleton_self r
        rw [List.mem_filter] at hin
        exact ⟨hin.1, of_decide_eq_true hin.2⟩
      have hid : addr.peerId ≠ p.peerId := by
        rcases (hmem r).mp hrmem.1 with rfl | ⟨-, hne⟩
        · exact (hkey hrmem.2.symm).elim
        · exact hraddr ▸ hne
      refine ⟨hid, fun hsame => hid ?_⟩
      rw [hsame, hname, hopen] at hropen
      exact congrArg Addr.peerId (Option.some.inj hropen).symm
  · cases hs

theorem init_inv (hs : Init s) : Inv s := by
  rw [hs]
  exact ⟨List.nodup_nil, nofun, nofun, nofun⟩

/-- In every run whose frames meet the condition the list is right after each frame; and a frame
that follows such a run keeps it right exactly when it meets the condition. -/
theorem sound_iff_frames_ok (h : Runs.Reach Init step StepOk s) :
    Sound s ∧ ∀ l s', step s l = some s' → (Sound s' ↔ StepOk s l) := by
  have hinv : Inv s := by
    apply Runs.Reach.invariant _ _ h
    · exact fun s hs => init_inv hs
    · exact fun s s' l hinv hok hs => step_inv hinv hok hs
  refine ⟨sound_of_inv hinv, fun l s' hs => ⟨ok_of_sound hinv hs, fun hok => ?_⟩⟩
  exact sound_of_inv (step_inv hinv hok hs)

def localPeer : PeerInfo where
  publicKey := byteKey 1
  peerId := 1
  name := peerName (byteKey 1)

def remotePeer : PeerInfo where
  publicKey := byteKey 2
  peerId := 1
  relayId := 2
  name := peerName (byteKey 2)

def localInfo : Label where
  type := .kPeerInfo
  payload := (byteKey 1).data ++ [0, 1]
  order := [localPeer]

def remoteInfo : Label where
  type := .kPeerInfo
  payload := (byteKey 2).data ++ [0, 1, 0, 2]
  order := [remotePeer]

/-- The condition on a frame, read off the list. -/
def Listed (s : State) (l : Label) : Prop :=
  l.type = .kPeerInfo → 34 ≤ l.payload.length →
    let p := parsePeerInfo l.payload
    p.peerId ≠ 0 ∧ ∀ q ∈ s.peers,
      if q.publicKey = p.publicKey then q.peerId = p.peerId
      else q.peerId ≠ p.peerId ∧ q.name ≠ p.name

instance (s : State) (l : Label) : Decidable (Listed s l) :=
  inferInstanceAs (Decidable (_ → _ → _ ∧ _))

theorem Inv.stepOk (h : Inv s) (hl : Listed s l) : StepOk s l := by
  intro htype hlen
  obtain ⟨hid, hall⟩ := hl htype hlen
  refine ⟨hid, fun addr haddr => ?_, fun key addr haddr hne => ?_⟩
  · obtain ⟨q, hq, hkey⟩ := h.listed _ addr haddr
    have hqaddr : q.addr = addr := by
      rw [← Option.some.injEq, ← (h.entry q hq).1, hkey, haddr]
    have hsame := hall q hq
    rw [if_pos hkey] at hsame
    rw [← hqaddr]
    exact hsame
  · obtain ⟨q, hq, hkey⟩ := h.listed key addr haddr
    have hqaddr : q.addr = addr := by
      rw [← Option.some.injEq, ← (h.entry q hq).1, hkey, haddr]
    have hother := hall q hq
    rw [if_neg (by rw [hkey]; exact hne), (h.entry q hq).2.1, hkey] at hother
    rw [← hqaddr]
    exact hother

theorem reach_listed (h : Runs.Reach Init step Listed s) :
    Runs.Reach Init step StepOk s ∧ Inv s := by
  induction h with
  | start s hs => exact ⟨.start s hs, init_inv hs⟩
  | next s s' l _ hl hs ih =>
    have hok := ih.2.stepOk hl
    exact ⟨.next s s' l ih.1 hok hs, step_inv ih.2 hok hs⟩

def secondPeer : PeerInfo where
  publicKey := byteKey 2
  peerId := 2
  relayId := 2
  name := peerName (byteKey 2)

def thirdPeer : PeerInfo where
  publicKey := byteKey 3
  peerId := 3
  relayId := 3
  name := peerName (byteKey 3)

/-- Peers of the client's relay and of two others; the first of them leaves. -/
def threeRelays : List Label :=
  [localInfo,
    { type := .kPeerInfo
      payload := (byteKey 2).data ++ [0, 2, 0, 2]
      order := [secondPeer, localPeer] },
    { type := .kPeerGone, payload := (byteKey 1).data },
    { type := .kPeerInfo
      payload := (byteKey 3).data ++ [0, 3, 0, 3]
      order := [secondPeer, thirdPeer] }]

theorem peers_known_three_relays : ∃ s, Runs.run (Runs.guarded step Listed) {} threeRelays = some s ∧
    Sound s ∧ s.peers = [secondPeer, thirdPeer] ∧ s.announced (byteKey 1) = none ∧
      openAddr s (peerName (byteKey 2)) = some ⟨2, 2⟩ ∧
      openAddr s (peerName (byteKey 3)) = some ⟨3, 3⟩ := by
  have hrun : ((Runs.run (Runs.guarded step Listed) {} threeRelays).map fun s =>
      (s.peers, s.announced (byteKey 1), openAddr s (peerName (byteKey 2)),
        openAddr s (peerName (byteKey 3)))) =
      some ([secondPeer, thirdPeer], none, some ⟨2, 2⟩, some ⟨3, 3⟩) := by
    decide
  obtain ⟨s, hs, hval⟩ := Option.map_eq_some_iff.mp hrun
  rw [Prod.mk.injEq, Prod.mk.injEq, Prod.mk.injEq] at hval
  have hstart : Runs.Reach Init step Listed {} := .start _ rfl
  have hreach := (reach_listed (Runs.reach_of_guarded hstart hs)).1
  exact ⟨s, hs, (sound_iff_frames_ok hreach).1, hval⟩

/-- Each relay announces its first peer, under id 1. -/
theorem not_sound_two_relays :
    ¬ ∀ (ls : List Label) (s : State), Runs.run step {} ls = some s → Sound s := by
  intro h
  have hrun : ((Runs.run step {} [localInfo, remoteInfo]).map fun s =>
      (s.peers, s.announced (byteKey 1))) = some ([remotePeer], some ⟨0, 1⟩) := by
    decide
  obtain ⟨s, hs, hfields⟩ := Option.map_eq_some_iff.mp hrun
  obtain ⟨hpeers, hann⟩ := Prod.mk.inj hfields
  obtain ⟨⟨p, hp, -⟩, -⟩ := h _ s hs _ _ hann
  have hempty : [remotePeer].filter (·.publicKey = byteKey 1) = [] := by decide
  rw [hpeers, hempty] at hp
  cases hp

end HyperDerp.SdkPeers
