import HyperDerp.DataPlane.Tables

/-!
# Control plane peer registry (`control_plane.cc:31-123`)

An open-addressing table from keys to fds. Lookup and removal walk past
tombstones up to the first empty slot; insertion stops at the first slot that is
not live, so it can miss a live slot of the same key further on.
-/

namespace HyperDerp

open LinearProbe (Occ View Holds Inv Fits)

def kCpMaxPeers : ℕ := 4096

instance : NeZero kCpMaxPeers := ⟨by decide⟩

abbrev CpSlot := Fin kCpMaxPeers

structure CpPeer where
  key : Key := zeroKey
  fd : Fd := -1
  occupied : Occ := .empty
  preferred : Byte := 0

/-- The registry part of `ControlPlane`. -/
structure CpRegistry where
  peers : CpSlot → CpPeer := fun _ => {}
  fdMap : Fd → Option CpSlot := fun _ => none
  peerCount : ℤ := 0

def cpView : View Key CpPeer := ⟨CpPeer.occupied, CpPeer.key⟩

namespace CpRegistry

def setPeer (r : CpRegistry) (a : CpSlot) (p : CpPeer) : CpRegistry :=
  { r with peers := Function.update r.peers a p }

/-- `fd_map[fd] = p` under the guard `fd >= 0 && fd < kMaxFd`. -/
def setFd (r : CpRegistry) (fd : Fd) (a : Option CpSlot) : CpRegistry :=
  if validFd fd then { r with fdMap := Function.update r.fdMap fd a } else r

end CpRegistry

def cpRegistryLookup (r : CpRegistry) (key : Key) : Option CpSlot :=
  LinearProbe.seek cpView keyHash r.peers key

/-- `CpRegistryInsert` (`control_plane.cc:67-99`): a reconnect moves the fd, any
other slot is filled anew. -/
def cpRegistryInsert (r : CpRegistry) (key : Key) (fd : Fd) : CpRegistry :=
  match LinearProbe.claim cpView keyHash r.peers key with
  | none => r
  | some a =>
    let p := r.peers a
    if p.occupied = .live ∧ p.key = key then
      ((r.setFd p.fd none).setPeer a { p with fd := fd }).setFd fd (some a)
    else
      { (r.setPeer a ⟨key, fd, .live, 0⟩).setFd fd (some a) with peerCount := r.peerCount + 1 }

/-- `CpRegistryRemove` (`control_plane.cc:101-123`). -/
def cpRegistryRemove (r : CpRegistry) (key : Key) : CpRegistry :=
  match cpRegistryLookup r key with
  | none => r
  | some a =>
    let p := r.peers a
    { (r.setFd p.fd none).setPeer a { p with occupied := .tombstone, fd := -1 } with
      peerCount := r.peerCount - 1 }

/-! ### What each operation does to the table -/

namespace CpRegistry

variable {r : CpRegistry} {key : Key}

@[simp] theorem setFd_peers (fd : Fd) (a : Option CpSlot) : (r.setFd fd a).peers = r.peers := by
  unfold setFd
  split <;> rfl

@[simp] theorem setFd_peerCount (fd : Fd) (a : Option CpSlot) :
    (r.setFd fd a).peerCount = r.peerCount := by
  unfold setFd
  split <;> rfl

/-- Slot `a` is live and registered for `key`. -/
abbrev Live (r : CpRegistry) (key : Key) (a : CpSlot) : Prop := Holds cpView r.peers key a

end CpRegistry

theorem cpRegistryInsert_none {r : CpRegistry} {key : Key}
    (h : LinearProbe.claim cpView keyHash r.peers key = none) (fd : Fd) :
    cpRegistryInsert r key fd = r := by
  simp only [cpRegistryInsert, h]

theorem cpRegistryInsert_some {r : CpRegistry} {key : Key} {a : CpSlot}
    (h : LinearProbe.claim cpView keyHash r.peers key = some a) (fd : Fd) :
    ∃ p : CpPeer, p.key = key ∧ p.fd = fd ∧ p.occupied = .live ∧
      (cpRegistryInsert r key fd).peers = Function.update r.peers a p ∧
      (cpRegistryInsert r key fd).peerCount =
        if (r.peers a).occupied = .live then r.peerCount else r.peerCount + 1 := by
  obtain ⟨-, -, -, hstop, -⟩ := LinearProbe.claim_some cpView keyHash h
  simp only [cpRegistryInsert, h]
  by_cases hh : (r.peers a).occupied = .live ∧ (r.peers a).key = key
  · rw [if_pos hh, if_pos hh.1]
    exact ⟨{ r.peers a with fd := fd }, hh.2, rfl, hh.1, by simp [CpRegistry.setPeer],
      by simp [CpRegistry.setPeer]⟩
  · have hno : (r.peers a).occupied ≠ .live := by
      rcases hstop with h1 | h1
      · exact absurd h1 hh
      · exact h1
    rw [if_neg hh, if_neg hno]
    exact ⟨⟨key, fd, .live, 0⟩, rfl, rfl, rfl, by simp [CpRegistry.setPeer], rfl⟩

theorem cpRegistryRemove_none {r : CpRegistry} {key : Key}
    (h : cpRegistryLookup r key = none) : cpRegistryRemove r key = r := by
  simp only [cpRegistryRemove, h]

theorem cpRegistryRemove_some {r : CpRegistry} {key : Key} {a : CpSlot}
    (h : cpRegistryLookup r key = some a) :
    ∃ p : CpPeer, p.occupied = .tombstone ∧
      (cpRegistryRemove r key).peers = Function.update r.peers a p ∧
      (cpRegistryRemove r key).peerCount = r.peerCount - 1 := by
  simp only [cpRegistryRemove, h]
  refine ⟨{ r.peers a with occupied := .tombstone, fd := -1 }, rfl, ?_, ?_⟩
  · simp [CpRegistry.setPeer]
  · trivial

/-! ### The registry as a finite map -/

namespace CpRegistry

structure Ok (r : CpRegistry) : Prop where
  inv : Inv cpView keyHash r.peers
  count : r.peerCount = LinearProbe.liveCount cpView r.peers

def toMap (r : CpRegistry) : Key → Option Fd :=
  LinearProbe.toMap cpView keyHash CpPeer.fd r.peers

/-- What a connect of `key` must find: no tombstone before the live slot of the
key on its probe path, and a slot for the key if it has none. -/
structure ConnectOk (r : CpRegistry) (key : Key) : Prop where
  direct : ∀ i < kCpMaxPeers, r.Live key (LinearProbe.slot kCpMaxPeers (keyHash key) i) →
    ∀ j < i, (r.peers (LinearProbe.slot kCpMaxPeers (keyHash key) j)).occupied = .live
  room : (∃ a, r.Live key a) ∨ ∃ a, (r.peers a).occupied ≠ .live

variable {r : CpRegistry} {key : Key}

theorem ConnectOk.claim (hc : r.ConnectOk key) :
    ∃ a, LinearProbe.claim cpView keyHash r.peers key = some a ∧
      (r.Live key a ∨ ∀ b, ¬r.Live key b) := by
  cases hcl : LinearProbe.claim cpView keyHash r.peers key with
  | none =>
    have hfull := LinearProbe.claim_none cpView keyHash hcl
    rcases hc.room with ⟨a, ha⟩ | ⟨a, ha⟩
    · exact absurd ha (hfull a).2
    · exact absurd (hfull a).1 ha
  | some a =>
    refine ⟨a, rfl, ?_⟩
    by_cases hlive : ∃ b, r.Live key b
    · obtain ⟨b, hb⟩ := hlive
      left
      obtain ⟨i, hi, hia, hstop, hprev⟩ := LinearProbe.claim_some cpView keyHash hcl
      obtain ⟨j, hj, hjb⟩ := LinearProbe.slot_surj (keyHash key) b
      subst hjb
      rcases Nat.lt_trichotomy i j with hij | hij | hij
      · rcases hstop with hh | ho
        · exact hh
        · rw [← hia] at ho
          exact absurd (hc.direct j hj hb i hij) ho
      · rw [← hia, hij]
        exact hb
      · exact absurd hb (hprev j hij).2
    · exact .inr (not_exists.mp hlive)

theorem Ok.insert (h : r.Ok) (hc : r.ConnectOk key) (fd : Fd) :
    (cpRegistryInsert r key fd).Ok ∧
      (cpRegistryInsert r key fd).toMap = Function.update r.toMap key (some fd) := by
  obtain ⟨a, hcl, hk⟩ := hc.claim
  have hfit := LinearProbe.claim_fits cpView keyHash hcl hk
  obtain ⟨p, hpk, hpf, hpo, hpeers, hcount⟩ := cpRegistryInsert_some hcl fd
  refine ⟨⟨?_, ?_⟩, ?_⟩
  · rw [hpeers]
    exact h.inv.put cpView keyHash hfit hpo hpk
  · rw [hpeers, hcount, LinearProbe.liveCount_update_live cpView hpo, h.count]
    have hocc : cpView.occ (r.peers a) = (r.peers a).occupied := rfl
    rw [hocc]
    by_cases hl : (r.peers a).occupied = .live
    · rw [if_pos hl, if_pos hl]
    · rw [if_neg hl, if_neg hl]
      omega
  · rw [toMap, hpeers, LinearProbe.toMap_put cpView keyHash CpPeer.fd h.inv hfit hpo hpk, hpf]
    rfl

theorem Ok.lookup_iff (h : r.Ok) {a : CpSlot} : cpRegistryLookup r key = some a ↔ r.Live key a := by
  rw [cpRegistryLookup, ← LinearProbe.lookup_eq_seek]
  exact LinearProbe.lookup_eq_some cpView keyHash h.inv key a

theorem Ok.lookup_none (h : r.Ok) : cpRegistryLookup r key = none ↔ ∀ a, ¬r.Live key a := by
  rw [cpRegistryLookup, ← LinearProbe.lookup_eq_seek]
  exact LinearProbe.lookup_eq_none cpView keyHash h.inv key

theorem toMap_eq (r : CpRegistry) (key : Key) :
    r.toMap key = (cpRegistryLookup r key).map fun a => (r.peers a).fd := by
  rw [toMap, LinearProbe.toMap, LinearProbe.lookup_eq_seek]
  rfl

theorem Ok.remove (h : r.Ok) (key : Key) :
    (cpRegistryRemove r key).Ok ∧
      (cpRegistryRemove r key).toMap = Function.update r.toMap key none := by
  cases hl : cpRegistryLookup r key with
  | none =>
    rw [cpRegistryRemove_none hl]
    refine ⟨h, ?_⟩
    have hnone : r.toMap key = none := by rw [toMap_eq, hl]; rfl
    rw [← hnone, Function.update_eq_self]
  | some a =>
    have ha := h.lookup_iff.mp hl
    obtain ⟨p, hpo, hpeers, hcount⟩ := cpRegistryRemove_some hl
    refine ⟨⟨?_, ?_⟩, ?_⟩
    · rw [hpeers]
      exact h.inv.bury cpView keyHash a hpo
    · have hd := LinearProbe.liveCount_update_dead cpView (t := r.peers) (a := a) (e := p)
        (by rw [show cpView.occ p = p.occupied from rfl, hpo]; decide) ha.1
      rw [hpeers, hcount, h.count]
      omega
    · rw [toMap, hpeers, LinearProbe.toMap_bury cpView keyHash CpPeer.fd h.inv ha hpo]
      rfl

theorem Ok.insert_bad (h : r.Ok) (hc : ¬r.ConnectOk key) (fd : Fd) :
    (∃ a b, a ≠ b ∧ (cpRegistryInsert r key fd).Live key a ∧
        (cpRegistryInsert r key fd).Live key b) ∨
      (cpRegistryInsert r key fd).toMap key = none := by
  cases hcl : LinearProbe.claim cpView keyHash r.peers key with
  | none =>
    right
    rw [cpRegistryInsert_none hcl, toMap_eq,
      h.lookup_none.mpr fun a => (LinearProbe.claim_none cpView keyHash hcl a).2]
    rfl
  | some a =>
    left
    obtain ⟨i, hi, hia, hstop, hprev⟩ := LinearProbe.claim_some cpView keyHash hcl
    have hroom : (∃ b, r.Live key b) ∨ ∃ b, (r.peers b).occupied ≠ .live := by
      rcases hstop with hh | ho
      · exact .inl ⟨a, hh⟩
      · exact .inr ⟨a, ho⟩
    -- so it is a tombstone before the live slot that was missed
    have hdir : ¬∀ j < kCpMaxPeers,
        r.Live key (LinearProbe.slot kCpMaxPeers (keyHash key) j) → ∀ l < j,
          (r.peers (LinearProbe.slot kCpMaxPeers (keyHash key) l)).occupied = .live :=
      fun hd => hc ⟨hd, hroom⟩
    push Not at hdir
    obtain ⟨j, hj, hb, l, hlj, hl⟩ := hdir
    have hne : a ≠ LinearProbe.slot kCpMaxPeers (keyHash key) j := by
      rintro rfl
      rw [LinearProbe.slot_inj hi hj hia] at hprev
      exact hl (hprev l hlj).1
    obtain ⟨p, hpk, hpf, hpo, hpeers, -⟩ := cpRegistryInsert_some hcl fd
    refine ⟨a, _, hne, ?_, ?_⟩
    · rw [Live, Holds, hpeers, Function.update_self]
      exact ⟨hpo, hpk⟩
    · rw [Live, Holds, hpeers, Function.update_of_ne hne.symm]
      exact hb

end CpRegistry

end HyperDerp
