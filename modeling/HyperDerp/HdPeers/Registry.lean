import HyperDerp.HdPeers
import HyperDerp.Lib.Runs

/-!
# Operations of the HD peer registry (`hd_peers.cc:186-320`)

Every operation writes at most one slot: an enrolment the first free one, an
admin operation that of the key. Under the invariant that no two live entries
have one key, the slot of a key is the only one that a lookup can find.
-/

namespace HyperDerp

abbrev HdSlot := Fin kHdMaxPeers

instance : NeZero kHdMaxPeers := ⟨by decide⟩

def HdPeer.Live (p : HdPeer) : Prop := p.occupied = .live

instance (p : HdPeer) : Decidable p.Live := inferInstanceAs (Decidable (_ = _))

def HdPeer.holds (key : Key) (p : HdPeer) : Bool :=
  decide (p.occupied = .live) && decide (p.key = key)

theorem HdPeer.holds_iff {key : Key} {p : HdPeer} : p.holds key = true ↔ p.Live ∧ p.key = key := by
  unfold HdPeer.holds HdPeer.Live
  rw [Bool.and_eq_true, decide_eq_true_eq, decide_eq_true_eq]

namespace HdPeerRegistry

variable {reg : HdPeerRegistry} {key k : Key} {i j : HdSlot}

theorem lookup_eq (reg : HdPeerRegistry) (key : Key) :
    hdPeersLookup reg key = FrontScan.first reg.peers (HdPeer.holds key) := rfl

theorem lookup_some (h : hdPeersLookup reg key = some i) :
    (reg.peers i).Live ∧ (reg.peers i).key = key := by
  rw [lookup_eq] at h
  exact HdPeer.holds_iff.1 (FrontScan.first_some h)

theorem lookup_none : hdPeersLookup reg key = none ↔
    ∀ i, (reg.peers i).Live → (reg.peers i).key ≠ key := by
  rw [lookup_eq, FrontScan.first_none]
  constructor
  · intro h i hl hk
    have hi := h i
    rw [HdPeer.holds_iff.2 ⟨hl, hk⟩] at hi
    cases hi
  · intro h i
    rw [Bool.eq_false_iff]
    intro hi
    obtain ⟨hl, hk⟩ := HdPeer.holds_iff.1 hi
    exact h i hl hk

def freeSlot (reg : HdPeerRegistry) : Option HdSlot :=
  FrontScan.first reg.peers fun p => decide (p.occupied ≠ .live)

theorem freeSlot_some (h : reg.freeSlot = some i) : ¬(reg.peers i).Live := by
  have hi := FrontScan.first_some h
  rw [decide_eq_true_eq] at hi
  exact hi

/-- A new entry in a slot, with the next peer id (`hd_peers.cc:248-261`). -/
def enrol (reg : HdPeerRegistry) (i : HdSlot) (key : Key) (fd : Fd) : HdPeerRegistry :=
  let next := (reg.nextPeerId + 1) % 2 ^ 16
  { reg with
    peers := Function.update reg.peers i
      { key := key
        fd := fd
        peerId := reg.nextPeerId
        state := if reg.enrollMode = .kAutoApprove then .kApproved else .kPending
        occupied := .live }
    peerCount := reg.peerCount + 1
    nextPeerId := if next = 0 then 1 else next }

theorem hdPeersInsert_known (h : hdPeersLookup reg key = some i) (fd : Fd) :
    hdPeersInsert reg key fd = reg := by
  unfold hdPeersInsert
  unfold hdPeersLookup at h
  rw [h, Option.isSome_some, if_pos rfl]

theorem hdPeersInsert_new (h : hdPeersLookup reg key = none) (fd : Fd) :
    hdPeersInsert reg key fd =
      match reg.freeSlot with
      | none => reg
      | some i => reg.enrol i key fd := by
  have hfree : reg.freeSlot = (List.finRange kHdMaxPeers).find? fun i =>
      decide ((reg.peers i).occupied ≠ .live) := rfl
  unfold hdPeersInsert
  unfold hdPeersLookup at h
  rw [h, hfree, Option.isSome_none, if_neg Bool.false_ne_true]
  cases (List.finRange kHdMaxPeers).find? fun i => decide ((reg.peers i).occupied ≠ .live) with
  | none => rfl
  | some i => rfl

theorem not_live_empty (i : HdSlot) : ¬(({} : HdPeerRegistry).peers i).Live := nofun

/-- The enrolment makes an entry in slot `i`. -/
def Takes (reg : HdPeerRegistry) (key : Key) (i : HdSlot) : Prop :=
  hdPeersLookup reg key = none ∧ reg.freeSlot = some i

instance (reg : HdPeerRegistry) (key : Key) (i : HdSlot) : Decidable (reg.Takes key i) :=
  inferInstanceAs (Decidable (_ ∧ _))

theorem hdPeersInsert_takes (h : reg.Takes key i) (fd : Fd) :
    hdPeersInsert reg key fd = reg.enrol i key fd := by
  rw [hdPeersInsert_new h.1, h.2]

theorem hdPeersInsert_cases (reg : HdPeerRegistry) (key : Key) (fd : Fd) :
    ((∀ i, ¬reg.Takes key i) ∧ hdPeersInsert reg key fd = reg) ∨
      ∃ i, reg.Takes key i ∧ hdPeersInsert reg key fd = reg.enrol i key fd := by
  cases hl : hdPeersLookup reg key with
  | some i =>
    refine .inl ⟨?_, hdPeersInsert_known hl fd⟩
    intro j hj
    rw [hj.1] at hl
    cases hl
  | none =>
    cases hf : reg.freeSlot with
    | some i => exact .inr ⟨i, ⟨hl, hf⟩, hdPeersInsert_takes ⟨hl, hf⟩ fd⟩
    | none =>
      refine .inl ⟨?_, ?_⟩
      · intro j hj
        rw [hj.2] at hf
        cases hf
      · rw [hdPeersInsert_new hl, hf]

@[simp] theorem enrol_self (reg : HdPeerRegistry) (i : HdSlot) (key : Key) (fd : Fd) :
    (reg.enrol i key fd).peers i =
      { key := key
        fd := fd
        peerId := reg.nextPeerId
        state := if reg.enrollMode = .kAutoApprove then .kApproved else .kPending
        occupied := .live } := Function.update_self ..

theorem enrol_ne (reg : HdPeerRegistry) (h : j ≠ i) (key : Key) (fd : Fd) :
    (reg.enrol i key fd).peers j = reg.peers j := Function.update_of_ne h ..

@[simp] theorem enrol_policies (reg : HdPeerRegistry) (i : HdSlot) (key : Key) (fd : Fd) :
    (reg.enrol i key fd).policies = reg.policies := rfl

theorem lookup_enrol_ne (h : reg.Takes key i) (hk : k ≠ key) (fd : Fd) :
    hdPeersLookup (reg.enrol i key fd) k = hdPeersLookup reg k := by
  rw [lookup_eq, lookup_eq]
  apply FrontScan.first_update
  have hold : ¬(reg.peers i).holds k = true := fun hh =>
    freeSlot_some h.2 (HdPeer.holds_iff.1 hh).1
  rw [Bool.not_eq_true] at hold
  rw [hold, Bool.eq_false_iff]
  intro hnew
  exact hk (HdPeer.holds_iff.1 hnew).2.symm

theorem takes_empty (mode : HdEnrollMode) (key : Key) : Takes { enrollMode := mode } key 0 := by
  constructor
  · exact lookup_none.2 fun _ hl => absurd hl nofun
  · apply FrontScan.first_eq_some
    · rfl
    · exact fun j hj => absurd hj (Fin.not_lt_zero j)

theorem lookup_enrol_self (h : reg.Takes key i) (fd : Fd) :
    hdPeersLookup (reg.enrol i key fd) key = some i := by
  have hnone := h.1
  rw [lookup_eq] at hnone ⊢
  apply FrontScan.first_update_new hnone
  exact HdPeer.holds_iff.2 ⟨rfl, rfl⟩

theorem lookup_bury_ne (h : hdPeersLookup reg key = some i) (hk : k ≠ key) :
    hdPeersLookup (reg.bury i) k = hdPeersLookup reg k := by
  rw [lookup_eq, lookup_eq]
  apply FrontScan.first_update
  have hold : (reg.peers i).holds k = false := by
    rw [Bool.eq_false_iff]
    intro hh
    exact hk ((HdPeer.holds_iff.1 hh).2.symm.trans (lookup_some h).2)
  rw [hold]
  rfl

theorem hdPeersRemove_some (h : hdPeersLookup reg key = some i) :
    hdPeersRemove reg key = reg.bury i := by
  unfold hdPeersRemove
  rw [h]

theorem hdPeersRemove_none (h : hdPeersLookup reg key = none) : hdPeersRemove reg key = reg := by
  unfold hdPeersRemove
  rw [h]

/-! ### No key twice -/

def KeysDistinct (reg : HdPeerRegistry) : Prop :=
  ∀ i j, (reg.peers i).Live → (reg.peers j).Live → (reg.peers i).key = (reg.peers j).key → i = j

theorem KeysDistinct.lookup (h : reg.KeysDistinct) (hl : (reg.peers i).Live)
    (hk : (reg.peers i).key = key) : hdPeersLookup reg key = some i := by
  rw [lookup_eq]
  apply FrontScan.first_of_unique (HdPeer.holds_iff.2 ⟨hl, hk⟩)
  intro j hj
  obtain ⟨hlj, hkj⟩ := HdPeer.holds_iff.1 hj
  exact h j i hlj hl (hkj.trans hk.symm)

theorem KeysDistinct.lookup_bury_self (h : reg.KeysDistinct)
    (hi : hdPeersLookup reg key = some i) : hdPeersLookup (reg.bury i) key = none := by
  rw [lookup_eq]
  apply FrontScan.first_update_gone _ rfl
  intro j hj
  obtain ⟨hlj, hkj⟩ := HdPeer.holds_iff.1 hj
  obtain ⟨hli, hki⟩ := lookup_some hi
  exact h j i hlj hli (hkj.trans hki.symm)

theorem KeysDistinct.enrol (h : reg.KeysDistinct) (ht : reg.Takes key i) (fd : Fd) :
    (reg.enrol i key fd).KeysDistinct := by
  have hnew := lookup_none.1 ht.1
  intro a b ha hb hab
  by_cases hai : a = i
  · by_cases hbi : b = i
    · rw [hai, hbi]
    · rw [hai, enrol_self, enrol_ne reg hbi] at hab
      rw [enrol_ne reg hbi] at hb
      exact absurd hab.symm (hnew b hb)
  · rw [enrol_ne reg hai] at ha hab
    by_cases hbi : b = i
    · rw [hbi, enrol_self] at hab
      exact absurd hab (hnew a ha)
    · rw [enrol_ne reg hbi] at hb hab
      exact h a b ha hb hab

theorem KeysDistinct.of_sub {reg' : HdPeerRegistry} (h : reg.KeysDistinct)
    (hsub : ∀ i, (reg'.peers i).Live → (reg.peers i).Live ∧
      (reg'.peers i).key = (reg.peers i).key) : reg'.KeysDistinct := by
  intro a b ha hb hab
  obtain ⟨hla, hka⟩ := hsub a ha
  obtain ⟨hlb, hkb⟩ := hsub b hb
  apply h a b hla hlb
  rw [← hka, ← hkb, hab]

theorem bury_live (h : ((reg.bury i).peers j).Live) :
    j ≠ i ∧ (reg.bury i).peers j = reg.peers j := by
  have hj : j ≠ i := by
    intro hj
    have hb : (reg.bury i).peers i = { reg.peers i with occupied := .tombstone } :=
      Function.update_self ..
    rw [hj, HdPeer.Live, hb] at h
    cases h
  exact ⟨hj, Function.update_of_ne hj ..⟩

theorem KeysDistinct.remove (h : reg.KeysDistinct) (key : Key) :
    (hdPeersRemove reg key).KeysDistinct := by
  unfold hdPeersRemove
  split
  · exact h
  · apply h.of_sub
    intro j hj
    obtain ⟨-, hsame⟩ := bury_live hj
    rw [hsame] at hj ⊢
    exact ⟨hj, rfl⟩

theorem KeysDistinct.insert (h : reg.KeysDistinct) (key : Key) (fd : Fd) :
    (hdPeersInsert reg key fd).KeysDistinct := by
  rcases hdPeersInsert_cases reg key fd with ⟨-, heq⟩ | ⟨i, ht, heq⟩
  · rw [heq]
    exact h
  · rw [heq]
    exact h.enrol ht fd

theorem hdPeersRevoke_peers (reg : HdPeerRegistry) (key : Key) :
    ∃ d, hdPeersRevoke reg key = hdPeersRemove { reg with denylist := d } key := by
  unfold hdPeersRevoke
  split
  · exact ⟨reg.denylist, rfl⟩
  · exact ⟨reg.denylist ++ [key], rfl⟩

end HdPeerRegistry

end HyperDerp
