import HyperDerp.ControlPlane.Effects
import HyperDerp.Lib.Runs

/-!
# The registry along runs of control-plane events

Connects, disconnects and frames in any order. Next to the control plane, a
ghost map records for each key the fd of its last event if that was a connect.
The registry is that map as long as every connect finds the key's live slot
before any tombstone, and room for the key if it has none; a connect that does
not breaks it at once.
-/

namespace HyperDerp

inductive CpEvent where
  | connect (key : Key) (fd : Fd)
  | gone (key : Key) (fd : Fd) (reason : PeerGoneReason)
  | frame (fd : Fd) (type : FrameType) (payload : Bytes)

/-- A control plane with the last event of each key. -/
structure Tracked where
  cp : ControlPlane
  last : Key → Option Fd := fun _ => none

namespace Tracked

def step (t : Tracked) : CpEvent → Option Tracked
  | .connect key fd =>
    some ⟨cpOnPeerConnect t.cp key fd, Function.update t.last key (some fd)⟩
  | .gone key fd reason =>
    some ⟨cpOnPeerGone t.cp key fd reason, Function.update t.last key none⟩
  | .frame fd type payload =>
    some ⟨cpProcessFrame t.cp fd type payload,
      match frameGone type payload with
      | some k => Function.update t.last k none
      | none => t.last⟩

/-- The registry as `CpInit` leaves it. -/
def Init (t : Tracked) : Prop := t.cp.reg = {} ∧ t.last = fun _ => none

/-- The registry is a map from keys to the fds of their last connects. -/
structure Refines (t : Tracked) : Prop where
  unique : ∀ k a b, t.cp.reg.Live k a → t.cp.reg.Live k b → a = b
  count : t.cp.reg.peerCount = LinearProbe.liveCount cpView t.cp.reg.peers
  lookup : ∀ k, (cpRegistryLookup t.cp.reg k).map (fun a => (t.cp.reg.peers a).fd) = t.last k
  gone : ∀ k, t.last k = none → ∀ a, ¬t.cp.reg.Live k a

def connectOk (t : Tracked) : CpEvent → Prop
  | .connect key _ => t.cp.reg.ConnectOk key
  | _ => True

end Tracked

/-! ### One event -/

theorem handleNotePreferred_map {cp : ControlPlane} (h : cp.reg.Ok) (fd : Fd) (payload : Bytes) :
    (notePreferred cp fd payload).Ok ∧ (notePreferred cp fd payload).toMap = cp.reg.toMap := by
  unfold notePreferred handleNotePreferred
  split
  · exact ⟨h, rfl⟩
  · next b _ =>
    split
    · exact ⟨h, rfl⟩
    · next a _ =>
      -- the slot keeps its state, key and fd
      have same : ∀ {A : Type} (f : CpPeer → A), (∀ p : CpPeer, f { p with preferred := b } = f p) →
          ∀ c, f (Function.update cp.reg.peers a { cp.reg.peers a with preferred := b } c) =
            f (cp.reg.peers c) := by
        intro A f hf c
        by_cases hc : c = a
        · subst hc
          rw [Function.update_self, hf]
        · rw [Function.update_of_ne hc]
      have hocc := same CpPeer.occupied fun _ => rfl
      have hkey := same CpPeer.key fun _ => rfl
      refine ⟨⟨h.inv.congr cpView keyHash hocc hkey, ?_⟩, ?_⟩
      · exact h.count.trans (congrArg Nat.cast (LinearProbe.liveCount_congr cpView hocc).symm)
      · funext k
        simp only [CpRegistry.toMap, LinearProbe.toMap]
        rw [show LinearProbe.lookup cpView keyHash
          (cp.reg.setPeer a { cp.reg.peers a with preferred := b }).peers k = _ from
          LinearProbe.lookup_congr cpView keyHash hocc hkey k]
        exact congrArg (Option.map · _) (funext (same CpPeer.fd fun _ => rfl))

namespace Tracked

variable {t t' : Tracked} {l : CpEvent}

theorem step_registry (h : t.cp.reg.Ok) (hm : t.cp.reg.toMap = t.last) (hok : t.connectOk l)
    (hs : t.step l = some t') : t'.cp.reg.Ok ∧ t'.cp.reg.toMap = t'.last := by
  cases l with
  | connect key fd =>
    cases hs
    rw [cpOnPeerConnect, doConnect_reg, ← hm]
    exact h.insert hok fd
  | gone key fd reason =>
    cases hs
    rw [cpOnPeerGone, doDisconnect_reg, ← hm]
    exact h.remove key
  | frame fd type payload =>
    cases hs
    rw [(cpProcessFrame_effect t.cp fd type payload).reg, ← hm]
    unfold regAfter frameGone
    split
    · next hnp =>
      subst hnp
      exact handleNotePreferred_map h fd payload
    · cases hg : goneKey payload with
      | none =>
        simp only [ite_self]
        exact ⟨h, trivial⟩
      | some k =>
        dsimp only
        split
        · next hcl =>
          rw [if_pos (.inr hcl)]
          exact h.remove k
        · split
          · next hpg =>
            rw [if_pos (.inl hpg)]
            have h1 := h.remove k
            have h2 := h1.1.remove k
            refine ⟨h2.1, ?_⟩
            rw [h2.2, h1.2, Function.update_idem]
          · next hcl hpg =>
            rw [if_neg (by rintro (h1 | h1) <;> contradiction)]
            exact ⟨h, rfl⟩

theorem refines_of_ok (h : t.cp.reg.Ok) (hm : t.cp.reg.toMap = t.last) : t.Refines where
  unique k a b ha hb := h.inv.unique k a b ha hb
  count := h.count
  lookup k := by rw [← CpRegistry.toMap_eq, hm]
  gone k hk := by
    rw [← hm, CpRegistry.toMap_eq, Option.map_eq_none_iff] at hk
    exact h.lookup_none.mp hk

theorem Init.ok (h : t.Init) : t.cp.reg.Ok ∧ t.cp.reg.toMap = t.last := by
  have hinv : LinearProbe.Inv cpView keyHash t.cp.reg.peers := by
    rw [h.1]
    exact LinearProbe.inv_of_not_live cpView keyHash fun _ hl => by cases hl
  have hok : t.cp.reg.Ok := by
    refine ⟨hinv, ?_⟩
    rw [h.1]
    simp [LinearProbe.liveCount, cpView]
  refine ⟨hok, ?_⟩
  rw [h.2]
  funext k
  rw [CpRegistry.toMap_eq, hok.lookup_none.mpr]
  · rfl
  · intro a ha
    rw [h.1] at ha
    cases ha.1

theorem reach_ok (h : Runs.Reach Init step connectOk t) :
    t.cp.reg.Ok ∧ t.cp.reg.toMap = t.last :=
  h.invariant (P := fun t => t.cp.reg.Ok ∧ t.cp.reg.toMap = t.last) (fun _ h0 => h0.ok)
    fun _ _ _ hi hok hs => step_registry hi.1 hi.2 hok hs

/-- As long as every connect meets the condition the registry is the map of last
connects; and in each state so reached the next event keeps it so exactly when it
meets the condition. -/
theorem registry_refines_last_connects (h : Runs.Reach Init step connectOk t) :
    t.Refines ∧ ∀ l t', t.step l = some t' → (t'.Refines ↔ t.connectOk l) := by
  obtain ⟨hok, hm⟩ := reach_ok h
  refine ⟨refines_of_ok hok hm, fun l t' hs => ⟨fun href => ?_, fun hl => ?_⟩⟩
  · cases l with
    | gone key fd reason => trivial
    | frame fd type payload => trivial
    | connect key fd =>
      by_contra hbad
      cases hs
      have hreg : (cpOnPeerConnect t.cp key fd).reg = cpRegistryInsert t.cp.reg key fd :=
        doConnect_reg t.cp key fd
      rcases hok.insert_bad hbad fd with ⟨a, b, hne, ha, hb⟩ | hnone
      · exact hne (href.unique key a b (hreg ▸ ha) (hreg ▸ hb))
      · have hl := href.lookup key
        dsimp only at hl
        rw [hreg, ← CpRegistry.toMap_eq, hnone, Function.update_self] at hl
        cases hl
  · obtain ⟨h1, h2⟩ := step_registry hok hm hl hs
    exact refines_of_ok h1 h2

/-! ### The condition as the walks of the registry see it -/

def finds (r : CpRegistry) (key : Key) : Bool :=
  match LinearProbe.claim cpView keyHash r.peers key with
  | none => false
  | some a => decide (r.Live key a) || (cpRegistryLookup r key).isNone

theorem finds_iff {r : CpRegistry} (h : r.Ok) {key : Key} :
    finds r key = true ↔ r.ConnectOk key := by
  have hspec : finds r key = true ↔ ∃ a, LinearProbe.claim cpView keyHash r.peers key = some a ∧
      (r.Live key a ∨ cpRegistryLookup r key = none) := by
    unfold finds
    cases LinearProbe.claim cpView keyHash r.peers key <;> simp
  rw [hspec]
  constructor
  · rintro ⟨a, hcl, hold⟩
    obtain ⟨i, hi, hia, hstop, hprev⟩ := LinearProbe.claim_some cpView keyHash hcl
    refine ⟨fun k hk hlive j hj => ?_, ?_⟩
    · rcases hold with ha | hnone
      · rw [← hia] at ha
        have hki : k = i := LinearProbe.slot_inj hk hi (h.inv.unique key _ _ hlive ha)
        exact (hprev j (hki ▸ hj)).1
      · exact absurd hlive (h.lookup_none.mp hnone _)
    · rcases hstop with ha | ha
      · exact .inl ⟨a, ha⟩
      · exact .inr ⟨a, ha⟩
  · intro hc
    obtain ⟨a, hcl, ha | hnone⟩ := hc.claim
    · exact ⟨a, hcl, .inl ha⟩
    · exact ⟨a, hcl, .inr (h.lookup_none.mpr hnone)⟩

def eventFinds (t : Tracked) : CpEvent → Prop
  | .connect key _ => finds t.cp.reg key = true
  | _ => True

instance (t : Tracked) : (l : CpEvent) → Decidable (t.eventFinds l)
  | .connect key _ => inferInstanceAs (Decidable (finds t.cp.reg key = true))
  | .gone _ _ _ | .frame _ _ _ => .isTrue trivial

theorem reach_finds (h : Runs.Reach Init step eventFinds t) : Runs.Reach Init step connectOk t := by
  induction h with
  | start t h0 => exact .start t h0
  | next t t' l _ hl hs ih =>
    refine .next t t' l ih ?_ hs
    cases l with
    | connect key fd => exact (finds_iff (reach_ok ih).1).mp hl
    | gone | frame => trivial

/-! ### A reconnect behind a tombstone -/

def keyA : Key := clashKey 0 1
def keyB : Key := clashKey 33 242

def fresh : Tracked := { cp := { dataPlane := { workers := fun _ => {}, numWorkers := 1 } } }

/-- States and keys of the first two slots on the path of `keyB`. -/
def firstSlots (ls : List CpEvent) : Option (List (LinearProbe.Occ × Key)) :=
  (Runs.run step fresh ls).map fun t => [0, 1].map fun i =>
    let p := t.cp.reg.peers (LinearProbe.slot kCpMaxPeers (keyHash keyB) i)
    (p.occupied, p.key)

/-- The first key leaves a tombstone on the path of the second, whose reconnect
then takes a second slot. -/
theorem registry_duplicates_behind_tombstone :
    ¬∀ t, Runs.Reach Init step Runs.Any t → t.Refines := by
  intro hall
  have hrun : firstSlots [.connect keyA 3, .connect keyB 4, .gone keyA 3 .kDisconnected,
      .connect keyB 5] = some [(.live, keyB), (.live, keyB)] := by
    decide
  obtain ⟨t, ht, hslots⟩ := Option.map_eq_some_iff.mp hrun
  simp only [List.map_cons, List.map_nil, List.cons.injEq, Prod.mk.injEq, and_true] at hslots
  have href := hall t (Runs.reach_of_run (s := fresh) ⟨rfl, rfl⟩ ht)
  have hsame := href.unique keyB _ _ hslots.1 hslots.2
  exact absurd hsame (by decide)

/-- The second key reconnects behind the first, which leaves and comes back into its slot. -/
def reconnects : List CpEvent :=
  [.connect keyA 3, .connect keyB 4, .connect keyB 5, .gone keyA 3 .kDisconnected, .connect keyA 6]

theorem registry_refines_reconnects :
    ∃ t, Runs.Reach Init step connectOk t ∧ (t.last keyA, t.last keyB) = (some 6, some 5) ∧
      t.Refines ∧ ∀ l t', t.step l = some t' → (t'.Refines ↔ t.connectOk l) := by
  have hrun : (Runs.run (Runs.guarded step eventFinds) fresh reconnects).map (fun t =>
      (t.last keyA, t.last keyB)) = some (some 6, some 5) := by
    decide +kernel
  obtain ⟨t, ht, hlast⟩ := Option.map_eq_some_iff.mp hrun
  have hstart : Runs.Reach Init step eventFinds fresh := .start fresh ⟨rfl, rfl⟩
  have hreach := reach_finds (Runs.reach_of_guarded hstart ht)
  exact ⟨t, hreach, hlast, registry_refines_last_connects hreach⟩

end Tracked

end HyperDerp
