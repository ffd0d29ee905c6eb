import HyperDerp.ControlPlane.RegistryMap
import HyperDerp.Lib.Feed

/-!
# Subscriptions (`control_plane.cc:48-123`, `:167-182`)

Watchers are kept by fd and notified through the fd map. What the registry operations do to
the map, and what is then sent to whom.
-/

namespace HyperDerp

open Feed (Note notesTo fold)

namespace CpRegistry

/-- `fd_map[fd]` under its guard. -/
def behind (r : CpRegistry) (fd : Fd) : Option CpSlot := if validFd fd then r.fdMap fd else none

def Registered (r : CpRegistry) (key : Key) : Prop := ∃ a, r.Live key a

def Back (r : CpRegistry) : Prop :=
  ∀ fd a, r.behind fd = some a → (r.peers a).occupied = .live ∧ (r.peers a).fd = fd

variable {r r' : CpRegistry} {key : Key} {a b : CpSlot}

theorem behind_setFd (fd x : Fd) (o : Option CpSlot) :
    (r.setFd fd o).behind x = if x = fd ∧ validFd fd = true then o else r.behind x := by
  unfold behind setFd
  by_cases hx : x = fd
  · subst hx
    by_cases hv : validFd x = true <;> simp [hv]
  · by_cases hv : validFd fd = true <;> simp [hv, hx, Function.update_of_ne]

theorem behind_valid {fd : Fd} (h : r.behind fd = some a) : validFd fd = true := by
  unfold behind at h
  split at h
  · next hv => exact hv
  · cases h

theorem behind_setFd_self {fd : Fd} (h : (r.setFd fd (some a)).behind fd = some b) : b = a := by
  have hv := behind_valid h
  rw [behind_setFd, if_pos ⟨rfl, hv⟩] at h
  exact (Option.some.inj h).symm

structure Filled (r r' : CpRegistry) (key : Key) (fd : Fd) (a : CpSlot) (p : CpPeer) : Prop where
  keyIs : p.key = key
  fdIs : p.fd = fd
  live : p.occupied = .live
  peers : r'.peers = Function.update r.peers a p
  old : r.Live key a ∨ (r.peers a).occupied ≠ .live ∧ ∀ b, ¬r.Live key b
  here : ∀ b, r'.behind fd = some b → b = a
  there : ∀ x b, x ≠ fd → r'.behind x = some b → r.behind x = some b ∧ b ≠ a
  kept : ∀ x, x ≠ fd → ((r.peers a).occupied = .live → x ≠ (r.peers a).fd) →
    r'.behind x = r.behind x

theorem cpRegistryInsert_filled (hb : r.Back) (hc : r.ConnectOk key) (fd : Fd) :
    ∃ a p, Filled r (cpRegistryInsert r key fd) key fd a p := by
  obtain ⟨a, hcl, hold⟩ := hc.claim
  obtain ⟨-, -, -, hstop, -⟩ := LinearProbe.claim_some cpView keyHash hcl
  simp only [cpRegistryInsert, hcl]
  by_cases hh : (r.peers a).occupied = .live ∧ (r.peers a).key = key
  · rw [if_pos hh]
    refine ⟨a, { r.peers a with fd := fd }, hh.2, rfl, hh.1, ?_, .inl hh,
      fun b => behind_setFd_self, ?_, ?_⟩
    · simp [setPeer]
    · intro x b hx hbe
      rw [behind_setFd, if_neg fun h => hx h.1] at hbe
      change ((r.setFd (r.peers a).fd none).behind x) = some b at hbe
      rw [behind_setFd] at hbe
      split at hbe
      · cases hbe
      · next hne =>
        -- the only fd that led to the slot is the one just cleared
        refine ⟨hbe, fun hba => hne ?_⟩
        rw [hba] at hbe
        have hfd := (hb x a hbe).2
        rw [hfd]
        exact ⟨rfl, behind_valid hbe⟩
    · intro x hx hne
      rw [behind_setFd, if_neg fun h => hx h.1]
      change (r.setFd (r.peers a).fd none).behind x = r.behind x
      rw [behind_setFd, if_neg fun h => hne hh.1 h.1]
  · have hno : (r.peers a).occupied ≠ .live := by
      rcases hstop with h1 | h1
      · exact absurd h1 hh
      · exact h1
    have hnew : r.Live key a ∨ (r.peers a).occupied ≠ .live ∧ ∀ b, ¬r.Live key b := by
      rcases hold with h1 | h1
      · exact absurd h1 hh
      · exact .inr ⟨hno, h1⟩
    have hbehind : ∀ x, CpRegistry.behind { (r.setPeer a ⟨key, fd, .live, 0⟩).setFd fd (some a) with
        peerCount := r.peerCount + 1 } x = (r.setFd fd (some a)).behind x := by
      intro x
      change ((r.setPeer a ⟨key, fd, .live, 0⟩).setFd fd (some a)).behind x = _
      rw [behind_setFd, behind_setFd]
      rfl
    rw [if_neg hh]
    refine ⟨a, ⟨key, fd, .live, 0⟩, rfl, rfl, rfl, ?_, hnew, ?_, ?_, ?_⟩
    · simp [setPeer]
    · intro b hbe
      rw [hbehind] at hbe
      exact behind_setFd_self hbe
    · intro x b hx hbe
      rw [hbehind, behind_setFd, if_neg fun h => hx h.1] at hbe
      refine ⟨hbe, fun hba => hno ?_⟩
      rw [hba] at hbe
      exact (hb x a hbe).1
    · intro x hx _
      rw [hbehind, behind_setFd, if_neg fun h => hx h.1]

structure Emptied (r r' : CpRegistry) (key : Key) (a : CpSlot) (p : CpPeer) : Prop where
  live : r.Live key a
  dead : p.occupied = .tombstone
  peers : r'.peers = Function.update r.peers a p
  there : ∀ x b, r'.behind x = some b → r.behind x = some b ∧ b ≠ a
  kept : ∀ x, x ≠ (r.peers a).fd → r'.behind x = r.behind x

theorem cpRegistryRemove_emptied (h : r.Ok) (hb : r.Back) (ha : r.Live key a) :
    ∃ p, Emptied r (cpRegistryRemove r key) key a p := by
  have hl := h.lookup_iff.mpr ha
  have hbehind : ∀ x, (cpRegistryRemove r key).behind x =
      (r.setFd (r.peers a).fd none).behind x := by
    intro x
    simp only [cpRegistryRemove, hl]
    rfl
  refine ⟨{ r.peers a with occupied := .tombstone, fd := -1 }, ha, rfl, ?_, ?_, ?_⟩
  · simp only [cpRegistryRemove, hl]
    simp [setPeer]
  · intro x b hbe
    rw [hbehind, behind_setFd] at hbe
    split at hbe
    · cases hbe
    · next hne =>
      refine ⟨hbe, fun hba => hne ?_⟩
      rw [hba] at hbe
      have hfd := (hb x a hbe).2
      rw [hfd]
      exact ⟨rfl, behind_valid hbe⟩
  · intro x hx
    rw [hbehind, behind_setFd, if_neg fun h => hx h.1]

variable {fd : Fd} {p : CpPeer} {k j : Key} {c : CpSlot}

theorem Filled.back (hf : Filled r r' key fd a p) (hb : r.Back) : r'.Back := by
  intro x b hbe
  rw [hf.peers]
  by_cases hx : x = fd
  · rw [hx] at hbe ⊢
    rw [hf.here b hbe, Function.update_self]
    exact ⟨hf.live, hf.fdIs⟩
  · obtain ⟨hold, hne⟩ := hf.there x b hx hbe
    rw [Function.update_of_ne hne]
    exact hb x b hold

theorem Filled.live_iff (hf : Filled r r' key fd a p) (hk : k ≠ key) :
    r'.Live k c ↔ r.Live k c := by
  unfold Live LinearProbe.Holds
  rw [hf.peers]
  by_cases hc : c = a
  · rw [hc, Function.update_self]
    constructor
    · intro h
      exact absurd (h.2.symm.trans hf.keyIs) hk
    · intro h
      rcases hf.old with ha | ⟨hno, -⟩
      · exact absurd (h.2.symm.trans ha.2) hk
      · exact absurd h.1 hno
  · rw [Function.update_of_ne hc]

theorem Filled.registered (hf : Filled r r' key fd a p) :
    r'.Registered j ↔ j = key ∨ r.Registered j := by
  by_cases hj : j = key
  · refine ⟨fun _ => .inl hj, fun _ => ⟨a, ?_⟩⟩
    rw [Live, LinearProbe.Holds, hf.peers, Function.update_self, hj]
    exact ⟨hf.live, hf.keyIs⟩
  · have hiff : r'.Registered j ↔ r.Registered j := exists_congr fun c => hf.live_iff hj
    rw [hiff]
    exact ⟨.inr, fun h => h.resolve_left hj⟩

theorem Filled.slot_ne (hf : Filled r r' key fd a p) (h : r'.Live k c) (hk : k ≠ key) : c ≠ a := by
  rintro rfl
  have hkey := h.2
  rw [hf.peers, Function.update_self] at hkey
  exact hk (hkey.symm.trans hf.keyIs)

theorem Emptied.live_iff (he : Emptied r r' key a p) : r'.Live k c ↔ c ≠ a ∧ r.Live k c := by
  unfold Live LinearProbe.Holds
  rw [he.peers]
  by_cases hc : c = a
  · rw [hc, Function.update_self]
    have hdead : cpView.occ p = .tombstone := he.dead
    simp [hdead]
  · rw [Function.update_of_ne hc]
    simp [hc]

theorem Emptied.back (he : Emptied r r' key a p) (hb : r.Back) : r'.Back := by
  intro x b hbe
  obtain ⟨hold, hne⟩ := he.there x b hbe
  rw [he.peers, Function.update_of_ne hne]
  exact hb x b hold

theorem Emptied.registered (he : Emptied r r' key a p) (h : r.Ok) :
    r'.Registered j ↔ j ≠ key ∧ r.Registered j := by
  constructor
  · rintro ⟨c, hc⟩
    obtain ⟨hne, hold⟩ := he.live_iff.mp hc
    refine ⟨fun hj => hne ?_, c, hold⟩
    exact h.inv.unique key c a (hj ▸ hold) he.live
  · rintro ⟨hj, c, hc⟩
    refine ⟨c, he.live_iff.mpr ⟨fun hca => hj ?_, hc⟩⟩
    rw [hca] at hc
    exact hc.2.symm.trans he.live.2

end CpRegistry

namespace Watchers

open CpRegistry (behind Registered Back Filled Emptied)

/-! ### Who is notified -/

def target (r : CpRegistry) (wfd : Fd) : Option Key :=
  match behind r wfd with
  | none => none
  | some a => if (r.peers a).occupied = .live then some (r.peers a).key else none

/-- The keys that `CpNotifyWatchers` sends to. -/
def targets (r : CpRegistry) (ws : List Fd) : List Key := ws.filterMap (target r)

structure Wiring (r : CpRegistry) (ws : List Fd) (watched : Key → Bool) : Prop where
  reg : r.Ok
  back : r.Back
  nodup : ws.Nodup
  subscribed : ∀ k a, r.Live k a → watched k = true →
    r.behind (r.peers a).fd = some a ∧ (r.peers a).fd ∈ ws ∧
      ∀ b, (r.peers b).occupied = .live → (r.peers b).fd = (r.peers a).fd → b = a
  asked : ∀ fd ∈ ws, ∀ a, r.behind fd = some a → watched (r.peers a).key = true

section

variable {r r' : CpRegistry} {ws : List Fd} {watched : Key → Bool} {k key : Key} {fd : Fd}

theorem target_some (hb : r.Back) :
    target r fd = some k ↔ ∃ a, r.behind fd = some a ∧ (r.peers a).key = k := by
  unfold target
  cases hbe : r.behind fd with
  | none => simp
  | some a =>
    simp only [(hb fd a hbe).1, if_true, Option.some.injEq, exists_eq_left']

theorem Wiring.mem_targets (h : Wiring r ws watched) :
    k ∈ targets r ws ↔ watched k = true ∧ r.Registered k := by
  simp only [targets, List.mem_filterMap, target_some h.back]
  constructor
  · rintro ⟨fd, hfd, a, hbe, rfl⟩
    exact ⟨h.asked fd hfd a hbe, a, (h.back fd a hbe).1, rfl⟩
  · rintro ⟨hw, a, ha⟩
    obtain ⟨hbe, hmem, -⟩ := h.subscribed k a ha hw
    exact ⟨_, hmem, a, hbe, ha.2⟩

theorem Wiring.targets_nodup (h : Wiring r ws watched) : (targets r ws).Nodup := by
  apply List.Nodup.filterMap _ h.nodup
  intro fd fd' k hk hk'
  obtain ⟨a, hbe, ha⟩ := (target_some h.back).mp hk
  obtain ⟨b, hbe', hb⟩ := (target_some h.back).mp hk'
  have hla := h.back fd a hbe
  have hlb := h.back fd' b hbe'
  have hab := h.reg.inv.unique k a b ⟨hla.1, ha⟩ ⟨hlb.1, hb⟩
  rw [← hla.2, ← hlb.2, hab]

theorem Wiring.connect (h : Wiring r ws watched) (hc : r.ConnectOk key) (hfd : fd ∉ ws) :
    Wiring (cpRegistryInsert r key fd) ws (Function.update watched key false) := by
  obtain ⟨a, p, hf⟩ := CpRegistry.cpRegistryInsert_filled h.back hc fd
  refine ⟨(h.reg.insert hc fd).1, hf.back h.back, h.nodup, ?_, ?_⟩
  · intro k c hl hw
    have hk : k ≠ key := by
      rintro rfl
      rw [Function.update_self] at hw
      cases hw
    rw [Function.update_of_ne hk] at hw
    have hca := hf.slot_ne hl hk
    have hold := (hf.live_iff hk).mp hl
    obtain ⟨hbe, hmem, hone⟩ := h.subscribed k c hold hw
    have hpeer : (cpRegistryInsert r key fd).peers c = r.peers c := by
      rw [hf.peers, Function.update_of_ne hca]
    have hcfd : (r.peers c).fd ≠ fd := fun he => hfd (he ▸ hmem)
    rw [hpeer]
    refine ⟨?_, hmem, ?_⟩
    · rw [hf.kept _ hcfd fun hla he => hca (hone a hla he.symm).symm]
      exact hbe
    · intro b hlb hbfd
      rw [hf.peers] at hlb hbfd
      by_cases hb : b = a
      · rw [hb, Function.update_self] at hbfd
        exact absurd (hbfd.symm.trans hf.fdIs) hcfd
      · rw [Function.update_of_ne hb] at hlb hbfd
        exact hone b hlb hbfd
  · intro x hx c hbe
    have hxfd : x ≠ fd := fun he => hfd (he ▸ hx)
    obtain ⟨hold, hca⟩ := hf.there x c hxfd hbe
    rw [hf.peers, Function.update_of_ne hca]
    have hk : (r.peers c).key ≠ key := by
      intro hk
      have hl : r.Live key c := ⟨(h.back x c hold).1, hk⟩
      rcases hf.old with ha | ⟨-, hnone⟩
      · exact hca (h.reg.inv.unique key c a hl ha)
      · exact hnone c hl
    rw [Function.update_of_ne hk]
    exact h.asked x hx c hold

theorem Wiring.disconnect (h : Wiring r ws watched) (key : Key) {ws' : List Fd} (hnd : ws'.Nodup)
    (hsub : ∀ x ∈ ws', x ∈ ws)
    (hkeep : ∀ k c, k ≠ key → r.Live k c → watched k = true → (r.peers c).fd ∈ ws') :
    Wiring (cpRegistryRemove r key) ws' watched := by
  cases hl : cpRegistryLookup r key with
  | none =>
    have hkey : ∀ k c, r.Live k c → k ≠ key := fun k c hc he =>
      h.reg.lookup_none.mp hl c (he ▸ hc)
    rw [cpRegistryRemove_none hl]
    refine ⟨h.reg, h.back, hnd, fun k c hc hw => ?_, fun x hx => h.asked x (hsub x hx)⟩
    obtain ⟨hbe, -, hone⟩ := h.subscribed k c hc hw
    exact ⟨hbe, hkeep k c (hkey k c hc) hc hw, hone⟩
  | some a =>
    have ha := h.reg.lookup_iff.mp hl
    obtain ⟨p, he⟩ := CpRegistry.cpRegistryRemove_emptied h.reg h.back ha
    refine ⟨(h.reg.remove key).1, he.back h.back, hnd, ?_, ?_⟩
    · intro k c hc hw
      obtain ⟨hca, hold⟩ := he.live_iff.mp hc
      obtain ⟨hbe, -, hone⟩ := h.subscribed k c hold hw
      have hk : k ≠ key := fun hk => hca (h.reg.inv.unique key c a (hk ▸ hold) ha)
      rw [he.peers, Function.update_of_ne hca]
      refine ⟨?_, hkeep k c hk hold hw, ?_⟩
      · rw [he.kept _ fun hfd => hca (hone a ha.1 hfd.symm).symm]
        exact hbe
      · intro b hlb hbfd
        by_cases hb : b = a
        · rw [hb, Function.update_self, he.dead] at hlb
          cases hlb
        · rw [Function.update_of_ne hb] at hlb hbfd
          exact hone b hlb hbfd
    · intro x hx c hbe
      obtain ⟨hold, hca⟩ := he.there x c hbe
      rw [he.peers, Function.update_of_ne hca]
      exact h.asked x (hsub x hx) c hold

theorem Wiring.watch (h : Wiring r ws watched)
    (hok : ∀ a, (r.peers a).occupied = .live → (r.peers a).fd = fd → r.behind fd = some a)
    {ws' : List Fd} (hnd : ws'.Nodup) (hmem : ∀ x, x ∈ ws' ↔ x ∈ ws ∨ x = fd)
    {watched' : Key → Bool} (hw : ∀ k, watched' k = true ↔
      watched k = true ∨ ∃ a, r.Live k a ∧ (r.peers a).fd = fd) :
    Wiring r ws' watched' := by
  refine ⟨h.reg, h.back, hnd, fun k c hc hk => ?_, fun x hx a hbe => ?_⟩
  · rcases (hw k).mp hk with hold | ⟨a, ha, hafd⟩
    · obtain ⟨hbe, hin, hone⟩ := h.subscribed k c hc hold
      exact ⟨hbe, (hmem _).mpr (.inl hin), hone⟩
    · have hac := h.reg.inv.unique k a c ha hc
      rw [← hac, hafd]
      have hbe := hok a ha.1 hafd
      refine ⟨hbe, (hmem fd).mpr (.inr rfl), fun b hlb hbfd => ?_⟩
      exact Option.some.inj ((hok b hlb hbfd).symm.trans hbe)
  · rw [hw]
    rcases (hmem x).mp hx with hold | rfl
    · exact .inl (h.asked x hold a hbe)
    · obtain ⟨hl, hfd⟩ := h.back x a hbe
      exact .inr ⟨a, ⟨hl, rfl⟩, hfd⟩

/-! ### Views -/

/-- Connections that asked see the other keys, and the rest see nothing. -/
structure Views (r : CpRegistry) (watched : Key → Bool) (sent : Key → List (Note Key)) : Prop where
  view : ∀ k, r.Registered k → watched k = true → ∀ j,
    fold (sent k) j = true ↔ j ≠ k ∧ r.Registered j
  silent : ∀ k, watched k = false → sent k = []

/-- The keys in the initial sync of `fd`. -/
def synced (r : CpRegistry) (fd : Fd) : List Key :=
  (List.finRange kCpMaxPeers).filterMap fun i =>
    if (r.peers i).occupied = .live ∧ (r.peers i).fd ≠ fd then some (r.peers i).key else none

def syncSends (r : CpRegistry) (fd : Fd) : List (Key × Note Key) :=
  match behind r fd with
  | none => []
  | some b => ((synced r fd).map Note.present).map fun n => ((r.peers b).key, n)

variable {sent : Key → List (Note Key)}

theorem Wiring.notesTo_all (h : Wiring r ws watched) (n : Note Key) (hk : watched k = true)
    (hreg : r.Registered k) : notesTo ((targets r ws).map fun k => (k, n)) k = [n] := by
  rw [Feed.notesTo_all h.targets_nodup, if_pos (h.mem_targets.mpr ⟨hk, hreg⟩)]

theorem Wiring.notesTo_none (h : Wiring r ws watched) (n : Note Key) (hk : watched k = false) :
    notesTo ((targets r ws).map fun k => (k, n)) k = [] := by
  rw [Feed.notesTo_all h.targets_nodup, if_neg]
  rw [h.mem_targets, hk]
  exact fun hb => Bool.false_ne_true hb.1

theorem Wiring.sends_nodup (h : Wiring r ws watched) (n : Note Key) :
    ((targets r ws).map fun k => (k, n)).Nodup :=
  h.targets_nodup.map fun _ _ he => (Prod.mk.inj he).1

theorem Views.connect (hv : Views r watched sent) (h : Wiring r ws watched) (hc : r.ConnectOk key)
    (hfd : fd ∉ ws) :
    Views (cpRegistryInsert r key fd) (Function.update watched key false) fun k =>
      Function.update sent key [] k ++
        notesTo ((targets (cpRegistryInsert r key fd) ws).map fun k => (k, .present key)) k := by
  have h' := h.connect hc hfd
  obtain ⟨a, p, hf⟩ := CpRegistry.cpRegistryInsert_filled h.back hc fd
  constructor
  · intro k hk hw j
    have hne : k ≠ key := by
      rintro rfl
      rw [Function.update_self] at hw
      cases hw
    rw [h'.notesTo_all _ hw hk, Function.update_of_ne hne, Feed.fold_present, hf.registered]
    rw [Function.update_of_ne hne] at hw
    rw [hv.view k ((hf.registered.mp hk).resolve_left hne) hw]
    constructor
    · rintro (rfl | ⟨hj, hr⟩)
      · exact ⟨hne.symm, .inl rfl⟩
      · exact ⟨hj, .inr hr⟩
    · rintro ⟨hj, rfl | hr⟩
      · exact .inl rfl
      · exact .inr ⟨hj, hr⟩
  · intro k hw
    rw [h'.notesTo_none _ hw]
    by_cases hk : k = key
    · rw [hk, Function.update_self]
      rfl
    · rw [Function.update_of_ne hk] at hw ⊢
      rw [hv.silent k hw]
      rfl

theorem registered_remove (h : Wiring r ws watched) {j : Key} :
    (cpRegistryRemove r key).Registered j ↔ j ≠ key ∧ r.Registered j := by
  cases hl : cpRegistryLookup r key with
  | none =>
    rw [cpRegistryRemove_none hl]
    refine ⟨fun hj => ⟨?_, hj⟩, And.right⟩
    rintro rfl
    obtain ⟨a, ha⟩ := hj
    exact h.reg.lookup_none.mp hl a ha
  | some a =>
    obtain ⟨p, he⟩ := CpRegistry.cpRegistryRemove_emptied h.reg h.back (h.reg.lookup_iff.mp hl)
    exact he.registered h.reg

theorem Views.disconnect (hv : Views r watched sent) (h : Wiring r ws watched) {ws' : List Fd}
    (h' : Wiring (cpRegistryRemove r key) ws' watched) :
    Views (cpRegistryRemove r key) watched fun k => sent k ++
      notesTo ((targets (cpRegistryRemove r key) ws').map fun k => (k, .gone key)) k := by
  constructor
  · intro k hk hw j
    have hold := ((registered_remove h).mp hk).2
    rw [h'.notesTo_all _ hw hk, Feed.fold_gone, hv.view k hold hw, registered_remove h]
    exact and_left_comm
  · intro k hw
    rw [h'.notesTo_none _ hw, hv.silent k hw]
    rfl

theorem mem_synced {j : Key} :
    j ∈ synced r fd ↔ ∃ a, r.Live j a ∧ (r.peers a).fd ≠ fd := by
  simp only [synced, List.mem_filterMap, List.mem_finRange, true_and]
  refine exists_congr fun a => ⟨fun h => ?_, fun h => ?_⟩
  · split at h
    · next hl => exact ⟨⟨hl.1, Option.some.inj h⟩, hl.2⟩
    · cases h
  · rw [if_pos ⟨h.1.1, h.2⟩]
    exact congrArg some h.1.2

theorem synced_nodup (h : r.Ok) : (synced r fd).Nodup := by
  apply List.Nodup.filterMap _ (List.nodup_finRange _)
  intro a b k ha hb
  have hlive : ∀ c, k ∈ (if (r.peers c).occupied = .live ∧ (r.peers c).fd ≠ fd then
      some (r.peers c).key else none) → r.Live k c := by
    intro c hc
    split at hc
    · next hl => exact ⟨hl.1, Option.some.inj hc⟩
    · cases hc
  exact h.inv.unique k a b (hlive a ha) (hlive b hb)

theorem Views.watch (hv : Views r watched sent) (h : Wiring r ws watched)
    (hok : ∀ a, (r.peers a).occupied = .live → (r.peers a).fd = fd → r.behind fd = some a)
    {watched' : Key → Bool} (hw : ∀ k, watched' k = true ↔
      watched k = true ∨ ∃ a, r.Live k a ∧ (r.peers a).fd = fd) :
    Views r watched' fun k => sent k ++ notesTo (syncSends r fd) k := by
  have hsilent : ∀ k, watched' k = false → sent k = [] := by
    intro k hk
    apply hv.silent
    rw [← Bool.not_eq_true, hw, not_or] at hk
    exact Bool.eq_false_iff.mpr hk.1
  unfold syncSends
  cases hbe : r.behind fd with
  | none =>
    refine ⟨fun k hk hwk j => ?_, fun k hk => by rw [hsilent k hk]; rfl⟩
    have hold : watched k = true := by
      rcases (hw k).mp hwk with hold | ⟨a, ha, hafd⟩
      · exact hold
      · rw [hok a ha.1 hafd] at hbe
        cases hbe
    rw [← hv.view k hk hold j]
    simp [notesTo]
  | some b =>
    obtain ⟨hlb, hbfd⟩ := h.back fd b hbe
    have hone : ∀ a, (r.peers a).occupied = .live → (r.peers a).fd = fd → a = b := fun a hl hfd =>
      Option.some.inj ((hok a hl hfd).symm.trans hbe)
    dsimp only
    simp only [Feed.notesTo_one]
    constructor
    · intro k hk hwk j
      by_cases hkb : k = (r.peers b).key
      · have hsync : j ∈ synced r fd ↔ j ≠ k ∧ r.Registered j := by
          rw [mem_synced]
          constructor
          · rintro ⟨a, ha, hafd⟩
            refine ⟨fun hj => hafd ?_, a, ha⟩
            rw [h.reg.inv.unique k a b (hj ▸ ha) ⟨hlb, hkb.symm⟩, hbfd]
          · rintro ⟨hj, a, ha⟩
            refine ⟨a, ha, fun hafd => hj ?_⟩
            rw [hkb, ← hone a ha.1 hafd]
            exact ha.2.symm
        rw [if_pos hkb, Feed.fold_presents, hsync]
        cases hold : watched k with
        | true => rw [hv.view k hk hold, or_self]
        | false =>
          rw [hv.silent k hold]
          simp [fold]
      · have hold : watched k = true := by
          rcases (hw k).mp hwk with hold | ⟨a, ha, hafd⟩
          · exact hold
          · rw [hone a ha.1 hafd] at ha
            exact absurd ha.2.symm hkb
        rw [if_neg hkb, List.append_nil]
        exact hv.view k hk hold j
    · intro k hk
      have hkb : k ≠ (r.peers b).key := by
        rintro rfl
        rw [(hw (r.peers b).key).mpr (.inr ⟨b, ⟨hlb, rfl⟩, hbfd⟩)] at hk
        cases hk
      rw [if_neg hkb, hsilent k hk]
      rfl

theorem syncSends_nodup (h : r.Ok) : (syncSends r fd).Nodup := by
  unfold syncSends
  split
  · exact List.nodup_nil
  · apply ((synced_nodup h).map fun _ _ he => Note.present.inj he).map
    exact fun _ _ he => (Prod.mk.inj he).2

end

end Watchers

end HyperDerp
