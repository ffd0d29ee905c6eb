import HyperDerp.Fleet.Bundle
import HyperDerp.HdPeers.Registry

/-!
# From bundles to revoked keys (`fleet_controller.cc:358-402`, `server.cc:1153-1205`)

The thread of the controller replaces the list of revoked fingerprints; the poller
of the server copies it, revokes the keys one by one and then clears it in a second
critical section. The fds that the poller closes are in `HdPeers.Sockets`.
-/

namespace HyperDerp

namespace Revocations

open HyperDerp.Bundle
open Text (utf8)

variable {sodium : Sodium}

def fingerprintKey (sodium : Sodium) (fp : Bytes) : Option Key :=
  (parseKeyString sodium fp).map Prod.snd

def keysOf (sodium : Sodium) (fps : List Bytes) : List Key := fps.filterMap (fingerprintKey sodium)

inductive Poller where
  | idle
  /-- Fingerprints of the copy still to be revoked; whether the copy had any. -/
  | round (todo : List Bytes) (nonempty : Bool)
  | stopped

def Poller.todo : Poller → List Bytes
  | .round todo _ => todo
  | .idle | .stopped => []

def Poller.clears : Poller → Bool
  | .round _ nonempty => nonempty
  | .idle | .stopped => false

structure State where
  fc : FleetController := {}
  reg : HdPeerRegistry := {}
  /-- A bundle whose list is written, its flag and version not yet. -/
  publishing : Option (Bool × ℤ) := none
  poller : Poller := .idle
  /-- Fingerprints of all accepted bundles. -/
  accepted : List Bytes := []

inductive Label where
  /-- A bundle is checked and, if it passes, the policy and the list are written. -/
  | bundle (body : Bytes)
  | publish
  /-- The poller looks at the flag and copies the list. -/
  | copy
  | revoke
  | clear

def bundlePeers (sodium : Sodium) (fc : FleetController) (body : Bytes) : List Bytes :=
  match checkBundle sodium fc body with
  | .error _ => []
  | .ok (inner, _) => revokedFingerprints inner

def bundle (sodium : Sodium) (s : State) (body : Bytes) : Option State :=
  if s.publishing.isSome then none
  else
    match checkBundle sodium s.fc body with
    | .error _ => some s
    | .ok (inner, version) =>
      let (fc, self) := writeBundle s.fc inner
      some { s with
        fc := fc
        publishing := some (self, version)
        accepted := s.accepted ++ revokedFingerprints inner }

def finishBundle (s : State) : Option State :=
  s.publishing.map fun p => { s with fc := (publish s.fc p.1 p.2).1, publishing := none }

def copyList (s : State) : Option State :=
  match s.poller with
  | .idle =>
    if s.fc.selfRevoked then some { s with poller := .stopped }
    else some { s with poller := .round s.fc.revokedPeers !s.fc.revokedPeers.isEmpty }
  | _ => none

/-- `HdPeersRevoke` on a valid fingerprint; an invalid one is skipped. -/
def revokeNext (sodium : Sodium) (s : State) : Option State :=
  match s.poller with
  | .round (fp :: todo) nonempty =>
    let reg := match fingerprintKey sodium fp with
      | none => s.reg
      | some key => hdPeersRevoke s.reg key
    some { s with reg := reg, poller := .round todo nonempty }
  | _ => none

def clearList (s : State) : Option State :=
  match s.poller with
  | .round [] nonempty =>
    some { s with
      fc := if nonempty then { s.fc with revokedPeers := [] } else s.fc
      poller := .idle }
  | _ => none

def step (sodium : Sodium) (s : State) : Label → Option State
  | .bundle body => bundle sodium s body
  | .publish => finishBundle s
  | .copy => copyList s
  | .revoke => revokeNext sodium s
  | .clear => clearList s

structure Init (s : State) : Prop where
  publishing : s.publishing = none
  poller : s.poller = .idle
  revokedPeers : s.fc.revokedPeers = []
  accepted : s.accepted = []

/-! ### Nothing lost -/

/-- Passed to `HdPeersRevoke`, or still with the poller or in the list. -/
def Kept (sodium : Sodium) (s : State) (key : Key) : Prop :=
  hdPeersIsDenied s.reg key = true ∨ key ∈ keysOf sodium s.fc.revokedPeers ∨
    key ∈ keysOf sodium s.poller.todo

def NothingLost (sodium : Sodium) (s : State) : Prop :=
  ∀ key ∈ keysOf sodium s.accepted, Kept sodium s key

/-- Revoked, or will be before the round in progress ends. -/
def InHand (sodium : Sodium) (s : State) (key : Key) : Prop :=
  hdPeersIsDenied s.reg key = true ∨ key ∈ keysOf sodium s.poller.todo

instance (s : State) (key : Key) : Decidable (InHand sodium s key) :=
  inferInstanceAs (Decidable (_ ∨ _))

/-- A bundle with fingerprints that lands before the list is copied repeats the keys that are
pending there; one that lands while a copy is worked off names no key outside that copy. -/
def BundleOk (sodium : Sodium) (s : State) (body : Bytes) : Prop :=
  bundlePeers sodium s.fc body ≠ [] →
    if s.poller.clears then ∀ key ∈ keysOf sodium (bundlePeers sodium s.fc body), InHand sodium s key
    else ∀ key ∈ keysOf sodium s.fc.revokedPeers,
      InHand sodium s key ∨ key ∈ keysOf sodium (bundlePeers sodium s.fc body)

instance (s : State) (key : Key) : Decidable (Kept sodium s key) :=
  inferInstanceAs (Decidable (_ ∨ _))

instance (s : State) (body : Bytes) : Decidable (BundleOk sodium s body) :=
  inferInstanceAs (Decidable (_ → _))

def StepOk (sodium : Sodium) (s : State) : Label → Prop
  | .bundle body => BundleOk sodium s body
  | _ => True

instance (s : State) (l : Label) : Decidable (StepOk sodium s l) :=
  match l with
  | .bundle body => inferInstanceAs (Decidable (BundleOk sodium s body))
  | .publish | .copy | .revoke | .clear => inferInstanceAs (Decidable True)

structure Inv (sodium : Sodium) (s : State) : Prop where
  kept : NothingLost sodium s
  /-- What the round in progress will clear has been copied. -/
  copied : s.poller.clears = true → ∀ key ∈ keysOf sodium s.fc.revokedPeers, InHand sodium s key

variable {s s' : State} {key k : Key} {l : Label} {body : Bytes}

@[simp] theorem denylist_bury (reg : HdPeerRegistry) (i : Fin kHdMaxPeers) :
    (reg.bury i).denylist = reg.denylist := rfl

theorem denylist_remove (reg : HdPeerRegistry) (key : Key) :
    (hdPeersRemove reg key).denylist = reg.denylist := by
  unfold hdPeersRemove
  split <;> simp

theorem denied_revoke_self (reg : HdPeerRegistry) (key : Key) :
    hdPeersIsDenied (hdPeersRevoke reg key) key = true := by
  unfold hdPeersIsDenied hdPeersRevoke
  rw [denylist_remove, decide_eq_true_eq]
  split
  · next h => exact of_decide_eq_true h
  · simp

theorem denied_revoke (reg : HdPeerRegistry) (key : Key) (h : hdPeersIsDenied reg k = true) :
    hdPeersIsDenied (hdPeersRevoke reg key) k = true := by
  unfold hdPeersIsDenied at h ⊢
  unfold hdPeersRevoke
  rw [denylist_remove, decide_eq_true_eq]
  rw [decide_eq_true_eq] at h
  split
  · exact h
  · exact List.mem_append_left _ h

/-! ### One step -/

theorem keysOf_append (xs ys : List Bytes) :
    keysOf sodium (xs ++ ys) = keysOf sodium xs ++ keysOf sodium ys := List.filterMap_append ..

theorem writeBundle_revokedPeers (fc : FleetController) (inner : Bytes) :
    (writeBundle fc inner).1.revokedPeers =
      if (revokedFingerprints inner).isEmpty then fc.revokedPeers
      else revokedFingerprints inner := by
  unfold writeBundle applyRevocations applyInner
  dsimp only
  split <;> rfl

theorem InHand.kept (h : InHand sodium s key) : Kept sodium s key := by
  rcases h with h | h
  · exact .inl h
  · exact .inr (.inr h)

theorem bundle_cases (h : bundle sodium s body = some s') :
    s' = s ∨ s'.reg = s.reg ∧ s'.poller = s.poller ∧
      s'.accepted = s.accepted ++ bundlePeers sodium s.fc body ∧
      s'.fc.revokedPeers = if (bundlePeers sodium s.fc body).isEmpty then s.fc.revokedPeers
        else bundlePeers sodium s.fc body := by
  unfold bundle at h
  unfold bundlePeers
  split at h
  · cases h
  · split at h
    · cases h
      exact .inl rfl
    · next inner version hc =>
      cases h
      exact .inr ⟨rfl, rfl, rfl, writeBundle_revokedPeers ..⟩

theorem inv_bundle (hi : Inv sodium s) (hok : BundleOk sodium s body)
    (h : bundle sodium s body = some s') : Inv sodium s' := by
  rcases bundle_cases h with rfl | ⟨hreg, hpoller, haccepted, hlist⟩
  · exact hi
  have hhand : ∀ k, InHand sodium s' k ↔ InHand sodium s k := by
    intro k
    unfold InHand
    rw [hreg, hpoller]
  unfold BundleOk at hok
  by_cases hnew : bundlePeers sodium s.fc body = []
  · rw [hnew, List.isEmpty_nil, if_pos rfl] at hlist
    rw [hnew, List.append_nil] at haccepted
    constructor
    · intro key hkey
      rw [haccepted] at hkey
      have hkept := hi.kept key hkey
      unfold Kept at hkept ⊢
      rw [hreg, hlist, hpoller]
      exact hkept
    · intro hclears key hkey
      rw [hpoller] at hclears
      rw [hlist] at hkey
      exact (hhand key).2 (hi.copied hclears key hkey)
  · rw [List.isEmpty_eq_false_iff.2 hnew, if_neg Bool.false_ne_true] at hlist
    have hpending := hok hnew
    constructor
    · intro key hkey
      rw [haccepted, keysOf_append, List.mem_append] at hkey
      rcases hkey with hkey | hkey
      · rcases hi.kept key hkey with hdenied | hold | htodo
        · exact ((hhand key).2 (.inl hdenied)).kept
        · split at hpending
          · next hclears => exact ((hhand key).2 (hi.copied hclears key hold)).kept
          · rcases hpending key hold with hin | hagain
            · exact ((hhand key).2 hin).kept
            · right
              left
              rw [hlist]
              exact hagain
        · exact ((hhand key).2 (.inr htodo)).kept
      · right
        left
        rw [hlist]
        exact hkey
    · intro hclears key hkey
      rw [hpoller] at hclears
      rw [hlist] at hkey
      rw [hclears, if_pos rfl] at hpending
      exact (hhand key).2 (hpending key hkey)

theorem inv_publish (hi : Inv sodium s) (h : finishBundle s = some s') : Inv sodium s' := by
  simp only [finishBundle, Option.map_eq_some_iff] at h
  obtain ⟨⟨self, version⟩, -, rfl⟩ := h
  have hlist : (publish s.fc self version).1.revokedPeers = s.fc.revokedPeers := by
    cases self <;> rfl
  constructor
  · intro key hkey
    have hkept := hi.kept key hkey
    unfold Kept at hkept ⊢
    rw [hlist]
    exact hkept
  · intro hclears key hkey
    rw [hlist] at hkey
    exact hi.copied hclears key hkey

theorem inv_copy (hi : Inv sodium s) (h : copyList s = some s') : Inv sodium s' := by
  unfold copyList at h
  split at h
  · next hidle =>
    have hkept : ∀ key ∈ keysOf sodium s.accepted,
        hdPeersIsDenied s.reg key = true ∨ key ∈ keysOf sodium s.fc.revokedPeers := by
      intro key hkey
      rcases hi.kept key hkey with hdenied | hlist | htodo
      · exact .inl hdenied
      · exact .inr hlist
      · rw [hidle] at htodo
        cases htodo
    split at h
    · cases h
      refine ⟨fun key hkey => ?_, nofun⟩
      rcases hkept key hkey with hdenied | hlist
      · exact .inl hdenied
      · exact .inr (.inl hlist)
    · cases h
      refine ⟨fun key hkey => ?_, fun _ key hkey => .inr hkey⟩
      rcases hkept key hkey with hdenied | hlist
      · exact .inl hdenied
      · exact .inr (.inl hlist)
  · cases h

theorem inHand_revoke (h : revokeNext sodium s = some s') (hk : InHand sodium s k) :
    InHand sodium s' k := by
  unfold revokeNext at h
  split at h
  · next fp todo nonempty hround =>
    cases h
    unfold InHand at hk ⊢
    rw [hround] at hk
    dsimp only [Poller.todo] at hk ⊢
    cases hfp : fingerprintKey sodium fp with
    | none =>
      rw [keysOf, List.filterMap_cons_none hfp] at hk
      exact hk
    | some key =>
      rw [keysOf, List.filterMap_cons_some hfp, List.mem_cons] at hk
      rcases hk with hdenied | rfl | htodo
      · exact .inl (denied_revoke s.reg key hdenied)
      · exact .inl (denied_revoke_self s.reg k)
      · exact .inr htodo
  · cases h

theorem inv_revoke (hi : Inv sodium s) (h : revokeNext sodium s = some s') : Inv sodium s' := by
  have hsame : s'.fc = s.fc ∧ s'.accepted = s.accepted ∧ s'.poller.clears = s.poller.clears := by
    unfold revokeNext at h
    split at h
    · next hround =>
      cases h
      rw [hround]
      exact ⟨rfl, rfl, rfl⟩
    · cases h
  obtain ⟨hfc, haccepted, hclears⟩ := hsame
  constructor
  · intro key hkey
    rw [haccepted] at hkey
    rcases hi.kept key hkey with hdenied | hlist | htodo
    · exact (inHand_revoke h (.inl hdenied)).kept
    · right
      left
      rw [hfc]
      exact hlist
    · exact (inHand_revoke h (.inr htodo)).kept
  · intro hc key hkey
    rw [hclears] at hc
    rw [hfc] at hkey
    exact inHand_revoke h (hi.copied hc key hkey)

theorem inv_clear (hi : Inv sodium s) (h : clearList s = some s') : Inv sodium s' := by
  unfold clearList at h
  split at h
  · next nonempty hround =>
    cases h
    have htodo : ∀ key, key ∉ keysOf sodium s.poller.todo := by
      intro key hkey
      rw [hround] at hkey
      cases hkey
    refine ⟨fun key hkey => ?_, nofun⟩
    cases nonempty with
    | false =>
      rcases hi.kept key hkey with hdenied | hlist | hcopy
      · exact .inl hdenied
      · exact .inr (.inl hlist)
      · exact absurd hcopy (htodo key)
    | true =>
      -- the whole list was copied, and the copy is worked off
      have hdenied : InHand sodium s key → hdPeersIsDenied s.reg key = true := by
        intro hin
        rcases hin with hd | hcopy
        · exact hd
        · exact absurd hcopy (htodo key)
      have hclears : s.poller.clears = true := by
        rw [hround]
        rfl
      rcases hi.kept key hkey with hd | hlist | hcopy
      · exact .inl hd
      · exact .inl (hdenied (hi.copied hclears key hlist))
      · exact absurd hcopy (htodo key)
  · cases h

theorem inv_step (hi : Inv sodium s) (hok : StepOk sodium s l) (h : step sodium s l = some s') :
    Inv sodium s' := by
  cases l with
  | bundle body => exact inv_bundle hi hok h
  | publish => exact inv_publish hi h
  | copy => exact inv_copy hi h
  | revoke => exact inv_revoke hi h
  | clear => exact inv_clear hi h

theorem Init.inv (h : Init s) : Inv sodium s := by
  constructor
  · intro key hkey
    rw [h.accepted] at hkey
    cases hkey
  · intro hclears
    rw [h.poller] at hclears
    cases hclears

/-! ### Runs -/

def Label.isPoller : Label → Bool
  | .copy | .revoke | .clear => true
  | .bundle _ | .publish => false

def Reachable (sodium : Sodium) (s : State) : Prop :=
  Runs.Reach Init (step sodium) (StepOk sodium) s

theorem Reachable.inv (h : Reachable sodium s) : Inv sodium s :=
  h.invariant (fun _ h0 => h0.inv) fun _ _ _ hi hok hs => inv_step hi hok hs

theorem writeBundle_selfRevoked (fc : FleetController) (inner : Bytes) :
    (writeBundle fc inner).1.selfRevoked = fc.selfRevoked := by
  unfold writeBundle applyRevocations applyInner
  dsimp only
  split <;> rfl

theorem stopped_step (h : step sodium s l = some s')
    (hi : s.poller = .stopped → s.fc.selfRevoked = true) (hp : s'.poller = .stopped) :
    s'.fc.selfRevoked = true := by
  cases l with
  | bundle body =>
    unfold step bundle at h
    dsimp only at h
    split at h
    · cases h
    · split at h
      · cases h
        exact hi hp
      · cases h
        exact (writeBundle_selfRevoked ..).trans (hi hp)
  | publish =>
    simp only [step, finishBundle, Option.map_eq_some_iff] at h
    obtain ⟨⟨self, version⟩, -, rfl⟩ := h
    cases self with
    | true => rfl
    | false => exact hi hp
  | copy =>
    unfold step copyList at h
    dsimp only at h
    split at h
    · split at h
      · next hself =>
        cases h
        exact hself
      · cases h
        cases hp
    · cases h
  | revoke =>
    unfold step revokeNext at h
    dsimp only at h
    split at h
    · cases h
      cases hp
    · cases h
  | clear =>
    unfold step clearList at h
    dsimp only at h
    split at h
    · cases h
      cases hp
    · cases h

theorem Reachable.stopped (h : Reachable sodium s) :
    s.poller = .stopped → s.fc.selfRevoked = true := by
  apply Runs.Reach.invariant (P := fun s => s.poller = .stopped → s.fc.selfRevoked = true) ?_ ?_ h
  · intro s h0 hp
    rw [h0.poller] at hp
    cases hp
  · exact fun s s' l hi _ hs => stopped_step hs hi

theorem revokeNext_round {fp : Bytes} {todo : List Bytes} {b : Bool}
    (hp : s.poller = .round (fp :: todo) b) :
    ∃ s1, revokeNext sodium s = some s1 ∧ s1.poller = .round todo b ∧ s1.fc = s.fc ∧
      s1.accepted = s.accepted := by
  unfold revokeNext
  rw [hp]
  exact ⟨_, rfl, rfl, rfl, rfl⟩

theorem run_revoke (todo : List Bytes) (b : Bool) (s : State) (hp : s.poller = .round todo b) :
    ∃ s', Runs.run (step sodium) s (List.replicate todo.length .revoke) = some s' ∧
      s'.poller = .round [] b ∧ s'.fc = s.fc ∧ s'.accepted = s.accepted ∧
      ∀ k, InHand sodium s k → hdPeersIsDenied s'.reg k = true := by
  induction todo generalizing s with
  | nil =>
    refine ⟨s, rfl, hp, rfl, rfl, fun k hk => ?_⟩
    rcases hk with hdenied | htodo
    · exact hdenied
    · rw [hp] at htodo
      cases htodo
  | cons fp todo ih =>
    obtain ⟨s1, hs1, hp1, hfc1, hacc1⟩ := @revokeNext_round sodium s fp todo b hp
    obtain ⟨s', hrun, hpoller, hfc, hacc, hdenied⟩ := ih s1 hp1
    refine ⟨s', ?_, hpoller, hfc.trans hfc1, hacc.trans hacc1, fun k hk => ?_⟩
    · rw [List.length_cons, List.replicate_succ]
      unfold Runs.run step
      rw [hs1]
      exact hrun
    · exact hdenied k (inHand_revoke hs1 hk)

theorem run_round (hp : s.poller = .idle) (hself : s.fc.selfRevoked = false) (hi : Inv sodium s) :
    ∃ ls, (∀ l ∈ ls, l.isPoller = true) ∧ ∃ s', Runs.run (step sodium) s ls = some s' ∧
      ∀ key ∈ keysOf sodium s.accepted, hdPeersIsDenied s'.reg key = true := by
  have hcopy : copyList s = some
      { s with poller := .round s.fc.revokedPeers !s.fc.revokedPeers.isEmpty } := by
    unfold copyList
    rw [hp, hself]
    rfl
  obtain ⟨s', hrun, -, -, -, hdenied⟩ := @run_revoke sodium s.fc.revokedPeers
    (!s.fc.revokedPeers.isEmpty)
    { s with poller := .round s.fc.revokedPeers !s.fc.revokedPeers.isEmpty } rfl
  refine ⟨.copy :: List.replicate s.fc.revokedPeers.length .revoke, ?_, s', ?_, ?_⟩
  · intro l hl
    rcases List.mem_cons.1 hl with rfl | hl
    · rfl
    · rw [List.eq_of_mem_replicate hl]
      rfl
  · unfold Runs.run step
    rw [hcopy]
    exact hrun
  · intro key hkey
    apply hdenied
    rcases hi.kept key hkey with hd | hlist | htodo
    · exact .inl hd
    · exact .inr hlist
    · rw [hp] at htodo
      cases htodo

/-- While every bundle respects what is pending, no revocation is lost, and unless the relay
itself is revoked the poller can still carry out all of them. -/
theorem revocations_kept (sodium : Sodium) {s : State}
    (h : Runs.Reach Init (step sodium) (StepOk sodium) s) :
    NothingLost sodium s ∧
      (s.fc.selfRevoked = false →
        ∃ ls, (∀ l ∈ ls, l.isPoller = true) ∧ ∃ s', Runs.run (step sodium) s ls = some s' ∧
          ∀ key ∈ keysOf sodium s.accepted, hdPeersIsDenied s'.reg key = true) := by
  have hreach : Reachable sodium s := h
  refine ⟨hreach.inv.kept, fun hself => ?_⟩
  cases hp : s.poller with
  | stopped =>
    have := hreach.stopped hp
    rw [hself] at this
    cases this
  | idle => exact run_round hp hself hreach.inv
  | round todo b =>
    obtain ⟨s1, hrun, hpoller, hfc, hacc, -⟩ := @run_revoke sodium todo b s hp
    have hclear : ∃ s2, clearList s1 = some s2 ∧ s2.poller = .idle ∧
        s2.fc.selfRevoked = s1.fc.selfRevoked ∧ s2.accepted = s1.accepted := by
      unfold clearList
      rw [hpoller]
      cases b <;> exact ⟨_, rfl, rfl, rfl, rfl⟩
    obtain ⟨s2, hstep, hidle, hsame, hacc2⟩ := hclear
    have hs2 : Runs.run (step sodium) s (List.replicate todo.length Label.revoke ++ [Label.clear]) =
        some s2 := by
      rw [Runs.run_snoc, hrun]
      exact hstep
    have hpoll : ∀ l ∈ List.replicate todo.length Label.revoke ++ [Label.clear], l.isPoller = true := by
      intro l hl
      rcases List.mem_append.1 hl with hl | hl
      · rw [List.eq_of_mem_replicate hl]
        rfl
      · rw [List.mem_singleton.1 hl]
        rfl
    have hreach2 : Reachable sodium s2 := by
      apply Runs.reach_run h ?_ hs2
      apply Runs.runOk_of_forall
      intro s l hl
      have hl := hpoll l hl
      cases l with
      | copy | revoke | clear => trivial
      | bundle _ | publish => cases hl
    have hself2 : s2.fc.selfRevoked = false := by rw [hsame, hfc, hself]
    obtain ⟨ls, hls, s3, hrun3, hdone⟩ := run_round hidle hself2 hreach2.inv
    refine ⟨List.replicate todo.length Label.revoke ++ [Label.clear] ++ ls, ?_, s3, ?_, ?_⟩
    · intro l hl
      rcases List.mem_append.1 hl with hl | hl
      · exact hpoll l hl
      · exact hls l hl
    · rw [Runs.run_append, hs2]
      exact hrun3
    · rw [hacc2, hacc] at hdone
      exact hdone

/-! ### A bundle between the copy and the clear -/

/-- Version 1 of the policy of fleet `f`; it revokes the key of 32 bytes 1. -/
def bundleOne : Bytes :=
  utf8 ("\x7b\"fleet_id\":\"f\",\"version\":1,\"signature_b64\":\"WdsBN0VJIY6pIrHdGGlsxLb7V5A" ++
    "fnUeozjpvphTEZSYb3aBd+wH4WFGdBg6G0BcUWQW8daWXDNXB8ICp92caCQ==\",\"signed_body_b64\":" ++
    "\"eyJmbGVldF9pZCI6ImYiLCJ2ZXJzaW9uIjoxLCJyZXZvY2F0aW9ucyI6eyJwZWVycyI6W3sicGVlcl9maW" ++
    "5nZXJwcmludCI6ImNrXzAxMDEwMTAxMDEwMTAxMDEwMTAxMDEwMTAxMDEwMTAxMDEwMTAxMDEwMTAxMDEwMT" ++
    "AxMDEwMTAxMDEwMTAxMDEifV19fQ==\"\x7d")

def bundleTwo : Bytes :=
  utf8 ("\x7b\"fleet_id\":\"f\",\"version\":2,\"signature_b64\":\"HEg+UlE8eXrENE8+X7d+W2oTl3y" ++
    "uLOX20g76QFH51F3DsbrEEzzzBFcasE+Kl1JErfiuF/6oH56EmqeZ3FbWCQ==\",\"signed_body_b64\":" ++
    "\"eyJmbGVldF9pZCI6ImYiLCJ2ZXJzaW9uIjoyLCJyZXZvY2F0aW9ucyI6eyJwZWVycyI6W3sicGVlcl9maW" ++
    "5nZXJwcmludCI6ImNrXzAyMDIwMjAyMDIwMjAyMDIwMjAyMDIwMjAyMDIwMjAyMDIwMjAyMDIwMjAyMDIwMj" ++
    "AyMDIwMjAyMDIwMjAyMDIifV19fQ==\"\x7d")

def hexNibble (c : Byte) : Option Byte :=
  if 0x30 ≤ c ∧ c ≤ 0x39 then some (c - 0x30)
  else if 0x61 ≤ c ∧ c ≤ 0x66 then some (c - 0x57)
  else if 0x41 ≤ c ∧ c ≤ 0x46 then some (c - 0x37)
  else none

def hexPairs : Bytes → Option Bytes
  | [] => some []
  | [_] => none
  | a :: b :: s => do
    let hi ← hexNibble a
    let lo ← hexNibble b
    let rest ← hexPairs s
    return (16 * hi + lo) :: rest

def fleetPubkeyB64 : Bytes := utf8 "11qYAYKxCrfVS/7TyWQHOg7hcvPapiMlrwIaaPcHURo="

/-- The two bundles are signed with the key of the fleet. -/
def fleetSodium : Sodium where
  verifyDetached sig msg pk :=
    decide (b64Decode fleetPubkeyB64 = some pk) &&
      ([bundleOne, bundleTwo].filterMap parseOuter).any fun outer =>
        decide (b64Decode outer.signedB64 = some msg) && decide (b64Decode outer.sigB64 = some sig)
  hex2bin := hexPairs

def fresh : State :=
  { fc := { config := { signingPubkeyB64 := fleetPubkeyB64, fleetId := utf8 "f" } } }

def allBytes (b : Byte) : Key := ⟨List.replicate 32 b, by simp [kKeySize]⟩

theorem fresh_init : Init fresh := ⟨rfl, rfl, rfl, rfl⟩

def lossRun : List Label :=
  [.bundle bundleOne, .publish, .copy, .bundle bundleTwo, .publish, .revoke, .clear]

/-- The clear drops the second bundle, which was never copied. -/
theorem list_cleared_unread :
    ¬∀ (sodium : Sodium) (s : State), Runs.Reach Init (step sodium) Runs.Any s →
      NothingLost sodium s := by
  intro h
  have hlost : ((Runs.run (step fleetSodium) fresh lossRun).map fun s =>
      decide (allBytes 2 ∈ keysOf fleetSodium s.accepted ∧ ¬Kept fleetSodium s (allBytes 2))) =
      some true := by decide +kernel
  rw [Option.map_eq_some_iff] at hlost
  obtain ⟨s, hrun, hs⟩ := hlost
  obtain ⟨haccepted, hgone⟩ := of_decide_eq_true hs
  exact hgone (h fleetSodium s (Runs.reach_of_run fresh_init hrun) _ haccepted)

def roundsRun : List Label :=
  [.bundle bundleOne, .publish, .copy, .revoke, .clear,
    .bundle bundleTwo, .publish, .copy, .revoke]

theorem revocations_kept_rounds :
    ∃ s, keysOf fleetSodium s.accepted = [allBytes 1, allBytes 2] ∧ NothingLost fleetSodium s ∧
      ∃ ls, (∀ l ∈ ls, l.isPoller = true) ∧ ∃ s', Runs.run (step fleetSodium) s ls = some s' ∧
        ∀ key ∈ keysOf fleetSodium s.accepted, hdPeersIsDenied s'.reg key = true := by
  have hrounds : ((Runs.run (Runs.guarded (step fleetSodium) (StepOk fleetSodium)) fresh
      roundsRun).map fun s => decide (keysOf fleetSodium s.accepted = [allBytes 1, allBytes 2] ∧
        s.fc.selfRevoked = false)) = some true := by decide +kernel
  rw [Option.map_eq_some_iff] at hrounds
  obtain ⟨s, hrun, hs⟩ := hrounds
  obtain ⟨haccepted, hself⟩ := of_decide_eq_true hs
  have hreach := Runs.reach_of_guarded (.start fresh fresh_init) hrun
  have hkept := revocations_kept fleetSodium hreach
  exact ⟨s, haccepted, hkept.1, hkept.2 hself⟩

end Revocations

end HyperDerp
