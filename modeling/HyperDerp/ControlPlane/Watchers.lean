import HyperDerp.ControlPlane.Subscriptions

/-!
# Watchers (`control_plane.cc:125-234`, `:262-278`, `:517-527`)

Each key is given the notes sent to its last connection and whether that connection asked
for them. A note counts as sent when it is handed to `CpSendFrame`.
-/

namespace HyperDerp.Watchers

open Feed (Note notesTo fold)
open CpRegistry (behind)

/-! ### Events -/

inductive Event where
  | connect (key : Key) (fd : Fd)
  | watchConns (fd : Fd)
  | peerGone (fd : Fd) (payload : Bytes)
  | closePeer (fd : Fd) (payload : Bytes)

def apply (cp : ControlPlane) : Event → ControlPlane
  | .connect key fd => cpOnPeerConnect cp key fd
  | .watchConns fd => cpProcessFrame cp fd .kWatchConns []
  | .peerGone fd payload => cpProcessFrame cp fd .kPeerGone payload
  | .closePeer fd payload => cpProcessFrame cp fd .kClosePeer payload

def noteFrame : Note Key → Bytes
  | .present key => buildPeerPresent key
  | .gone key => buildPeerGone key .kDisconnected

def sendNote (cp : ControlPlane) (s : Key × Note Key) : ControlPlane :=
  cpSendFrame cp s.1 (noteFrame s.2)

/-- What `DoDisconnect` sends. -/
def goneSends (cp : ControlPlane) (key : Key) (fd : Fd) : List (Key × Note Key) :=
  (targets (cpRegistryRemove cp.reg key) (cpRemoveWatcher cp fd).watcherFds).map fun k =>
    (k, .gone key)

/-- The notes that an event hands to `CpSendFrame`, with their recipients. -/
def sends (cp : ControlPlane) : Event → List (Key × Note Key)
  | .connect key fd =>
    (targets (cpRegistryInsert cp.reg key fd) cp.watcherFds).map fun k => (k, .present key)
  | .watchConns fd => syncSends cp.reg fd
  | .peerGone fd payload =>
    match goneKey payload with
    | none => []
    | some key => goneSends { cp with reg := cpRegistryRemove cp.reg key } key fd
  | .closePeer _ payload =>
    match goneKey payload with
    | none => []
    | some key =>
      match cpRegistryLookup cp.reg key with
      | none => []
      | some a => goneSends cp key (cp.reg.peers a).fd

section

variable (cp : ControlPlane)

theorem cpSendFrame_watcherFds (key : Key) (frame : Bytes) :
    (cpSendFrame cp key frame).watcherFds = cp.watcherFds := by
  unfold cpSendFrame
  split <;> rfl

theorem sendNotes_kept (ns : List (Key × Note Key)) :
    (ns.foldl sendNote cp).reg = cp.reg ∧ (ns.foldl sendNote cp).watcherFds = cp.watcherFds := by
  induction ns generalizing cp with
  | nil => exact ⟨rfl, rfl⟩
  | cons s ns ih =>
    rw [List.foldl_cons, (ih _).1, (ih _).2]
    exact ⟨cpSendFrame_reg cp s.1 _, cpSendFrame_watcherFds cp s.1 _⟩

theorem cpNotifyWatchers_eq (n : Note Key) :
    cpNotifyWatchers cp (noteFrame n) =
      ((targets cp.reg cp.watcherFds).map fun k => (k, n)).foldl sendNote cp := by
  unfold cpNotifyWatchers
  generalize cp.watcherFds = ws
  induction ws generalizing cp with
  | nil => rfl
  | cons wfd ws ih =>
    have hpeer : cp.peerOf wfd = behind cp.reg wfd := rfl
    rw [List.foldl_cons, targets, List.filterMap_cons, target, hpeer]
    cases behind cp.reg wfd with
    | none => exact ih cp
    | some a =>
      dsimp only
      by_cases hl : (cp.reg.peers a).occupied = .live
      · rw [if_neg (not_not.mpr hl), if_pos hl, ih, cpSendFrame_reg]
        rfl
      · rw [if_pos hl, if_neg hl]
        exact ih cp

theorem doConnect_eq (key : Key) (fd : Fd) :
    doConnect cp key fd = (sends cp (.connect key fd)).foldl sendNote
      { cp with reg := cpRegistryInsert cp.reg key fd } :=
  cpNotifyWatchers_eq { cp with reg := cpRegistryInsert cp.reg key fd } (.present key)

theorem doDisconnect_eq (key : Key) (fd : Fd) :
    doDisconnect cp key fd .kDisconnected = (goneSends cp key fd).foldl sendNote { cp with
      reg := cpRegistryRemove cp.reg key
      watcherFds := (cpRemoveWatcher cp fd).watcherFds } := by
  obtain ⟨ws, hws⟩ := cpRemoveWatcher_eq cp fd
  unfold doDisconnect goneSends
  rw [hws]
  exact cpNotifyWatchers_eq { cp with reg := cpRegistryRemove cp.reg key, watcherFds := ws }
    (.gone key)

theorem handleWatchConns_eq (fd : Fd) :
    handleWatchConns cp fd = (syncSends cp.reg fd).foldl sendNote (cpAddWatcher cp fd) := by
  obtain ⟨ws, hws⟩ := cpAddWatcher_eq cp fd
  have hreg : (cpAddWatcher cp fd).reg = cp.reg := by rw [hws]
  unfold handleWatchConns syncSends synced
  rw [← hreg]
  generalize cpAddWatcher cp fd = cp1
  generalize List.finRange kCpMaxPeers = is
  induction is generalizing cp1 with
  | nil => cases behind cp1.reg fd <;> rfl
  | cons i is ih =>
    have hreply : cpReply cp1 fd (buildPeerPresent (cp1.reg.peers i).key) =
        match behind cp1.reg fd with
        | none => cp1
        | some b => sendNote cp1 ((cp1.reg.peers b).key, .present (cp1.reg.peers i).key) := rfl
    rw [List.foldl_cons, List.filterMap_cons]
    dsimp only
    by_cases hl : (cp1.reg.peers i).occupied = .live
    · by_cases hfd : (cp1.reg.peers i).fd = fd
      · rw [if_neg (not_not.mpr hl), if_pos hfd, if_neg fun h => h.2 hfd]
        exact ih cp1
      · rw [if_neg (not_not.mpr hl), if_neg hfd, if_pos ⟨hl, hfd⟩, hreply]
        cases hbe : behind cp1.reg fd with
        | none =>
          have hrest := ih cp1
          rw [hbe] at hrest
          exact hrest
        | some b =>
          have hrest := ih (sendNote cp1 ((cp1.reg.peers b).key, .present (cp1.reg.peers i).key))
          have hsame : (sendNote cp1 ((cp1.reg.peers b).key,
              .present (cp1.reg.peers i).key)).reg = cp1.reg := cpSendFrame_reg ..
          rw [hsame, hbe] at hrest
          exact hrest
    · rw [if_pos hl, if_neg fun h => hl h.1]
      exact ih cp1

theorem cpRemoveWatcher_congr {cp cp' : ControlPlane} (h : cp'.watcherFds = cp.watcherFds)
    (fd : Fd) : (cpRemoveWatcher cp' fd).watcherFds = (cpRemoveWatcher cp fd).watcherFds := by
  unfold cpRemoveWatcher
  rw [h]
  split
  · exact h
  · rfl

theorem goneSends_congr {cp cp' : ControlPlane} (hreg : cp'.reg = cp.reg)
    (hws : cp'.watcherFds = cp.watcherFds) (key : Key) (fd : Fd) :
    goneSends cp' key fd = goneSends cp key fd := by
  unfold goneSends
  rw [hreg, cpRemoveWatcher_congr hws]

theorem handlePeerGone_eq (fd : Fd) (payload : Bytes) :
    handlePeerGone cp fd payload =
      match goneKey payload with
      | none => cp
      | some key => cpRemovePeer (doDisconnect { cp with reg := cpRegistryRemove cp.reg key } key fd
          .kDisconnected) key := by
  unfold handlePeerGone goneKey
  split <;> rfl

theorem handleClosePeer_eq (payload : Bytes) :
    handleClosePeer cp payload =
      match goneKey payload with
      | none => cp
      | some key =>
        match cpRegistryLookup cp.reg key with
        | none => cp
        | some a =>
          doDisconnect (cpRemovePeer cp key) key (cp.reg.peers a).fd .kDisconnected := by
  unfold handleClosePeer goneKey
  split <;> rfl

end

/-! ### The watcher list -/

theorem swapRemove_perm {A : Type} (ys zs : List A) (x d : A) :
    (((ys ++ x :: zs).set ys.length ((ys ++ x :: zs).getLastD d)).dropLast).Perm (ys ++ zs) := by
  rcases zs.eq_nil_or_concat with rfl | ⟨zs, l, rfl⟩
  · simp
  · have hlast : (ys ++ x :: (zs ++ [l])).getLastD d = l := by
      rw [← List.cons_append, ← List.append_assoc, List.getLastD_concat]
    rw [List.concat_eq_append, hlast, List.set_append_right _ _ (Nat.le_refl _), Nat.sub_self,
      List.set_cons_zero, ← List.cons_append, ← List.append_assoc, List.dropLast_concat,
      ← List.append_assoc]
    exact List.perm_middle.trans (List.perm_append_singleton l (ys ++ zs)).symm

theorem cpRemoveWatcher_perm (cp : ControlPlane) (fd : Fd) :
    (cpRemoveWatcher cp fd).watcherFds.Perm (cp.watcherFds.erase fd) := by
  unfold cpRemoveWatcher
  split
  · next hnone =>
    rw [List.erase_of_not_mem (List.idxOf?_eq_none_iff.mp hnone)]
  · next i hi =>
    obtain ⟨hlt, hx, -⟩ := List.idxOf?_eq_some_iff.mp hi
    have hsplit : cp.watcherFds = cp.watcherFds.take i ++ fd :: cp.watcherFds.drop (i + 1) := by
      rw [← hx]
      simp
    have hlen : (cp.watcherFds.take i).length = i := by
      rw [List.length_take]
      omega
    have hperm := swapRemove_perm (cp.watcherFds.take i) (cp.watcherFds.drop (i + 1)) fd fd
    rw [← hsplit, hlen] at hperm
    rw [List.erase_eq_eraseIdx, hi]
    dsimp only
    rw [List.eraseIdx_eq_take_drop_succ]
    exact hperm

variable {cp : ControlPlane} {s : State}

theorem cpRemoveWatcher_absent {fd : Fd} (h : fd ∉ cp.watcherFds) :
    cpRemoveWatcher cp fd = cp := by
  unfold cpRemoveWatcher
  rw [List.idxOf?_eq_none_iff.mpr h]

section

variable {cp : ControlPlane} {fd : Fd} (h : cp.watcherFds.Nodup)
include h

theorem cpRemoveWatcher_nodup : (cpRemoveWatcher cp fd).watcherFds.Nodup :=
  (cpRemoveWatcher_perm cp fd).nodup_iff.mpr (h.erase fd)

theorem mem_cpRemoveWatcher (x : Fd) :
    x ∈ (cpRemoveWatcher cp fd).watcherFds ↔ x ≠ fd ∧ x ∈ cp.watcherFds := by
  rw [(cpRemoveWatcher_perm cp fd).mem_iff, h.mem_erase_iff]

theorem cpAddWatcher_nodup : (cpAddWatcher cp fd).watcherFds.Nodup := by
  unfold cpAddWatcher
  split
  · exact h
  · next hnot =>
    split
    · exact h
    · exact List.nodup_append.mpr ⟨h, List.nodup_singleton fd, fun x hx y hy hxy =>
        hnot (List.mem_singleton.mp hy ▸ hxy ▸ hx)⟩

end

theorem mem_cpAddWatcher (hroom : cp.watcherFds.length < kCpMaxWatchers) (fd x : Fd) :
    x ∈ (cpAddWatcher cp fd).watcherFds ↔ x ∈ cp.watcherFds ∨ x = fd := by
  unfold cpAddWatcher
  split
  · next hmem =>
    refine ⟨.inl, fun hx => ?_⟩
    rcases hx with hx | rfl
    · exact hx
    · exact hmem
  · rw [if_neg (not_le.mpr hroom)]
    simp

/-! ### Runs -/

/-- Of the last connection of each key: whether it asked, and the notes sent to it. `last`
holds the notes of the last event. -/
structure State where
  cp : ControlPlane
  watched : Key → Bool := fun _ => false
  sent : Key → List (Note Key) := fun _ => []
  last : List (Key × Note Key) := []

/-- The connection of `key` is registered with `fd`. -/
def issues (r : CpRegistry) (fd : Fd) (key : Key) : Bool :=
  (List.finRange kCpMaxPeers).any fun a =>
    decide ((r.peers a).occupied = .live ∧ (r.peers a).key = key ∧ (r.peers a).fd = fd)

def watchedAfter (s : State) : Event → Key → Bool
  | .connect key _ => Function.update s.watched key false
  | .watchConns fd => fun k => s.watched k || issues s.cp.reg fd k
  | _ => s.watched

def sentBefore (s : State) : Event → Key → List (Note Key)
  | .connect key _ => Function.update s.sent key []
  | _ => s.sent

def step (s : State) (e : Event) : Option State :=
  some {
    cp := apply s.cp e
    watched := watchedAfter s e
    sent := fun k => sentBefore s e k ++ notesTo (sends s.cp e) k
    last := sends s.cp e }

def Init (s : State) : Prop :=
  s.cp.reg = {} ∧ s.cp.watcherFds = [] ∧ s.watched = (fun _ => false) ∧ s.sent = (fun _ => []) ∧
    s.last = []

/-- Registered connections that asked know the other keys, the rest were sent nothing, and
no note went out twice. -/
structure Synced (s : State) : Prop where
  views : Views s.cp.reg s.watched s.sent
  once : s.last.Nodup

def roomOk (s : State) : Event → Prop
  | .watchConns _ => s.cp.watcherFds.length < kCpMaxWatchers
  | _ => True

/-- A connect finds its fd without a subscription; a subscription comes over an fd that leads
to every connection registered with it; and a PeerGone does not come over the subscribed fd of
another key. -/
def eventOk (s : State) : Event → Prop
  | .connect key fd => s.cp.reg.ConnectOk key ∧ fd ∉ s.cp.watcherFds
  | .watchConns fd => ∀ a, (s.cp.reg.peers a).occupied = .live → (s.cp.reg.peers a).fd = fd →
      behind s.cp.reg fd = some a
  | .peerGone fd payload => ∀ key, goneKey payload = some key → fd ∈ s.cp.watcherFds →
      ∀ a, (s.cp.reg.peers a).occupied = .live → (s.cp.reg.peers a).fd = fd →
        (s.cp.reg.peers a).key = key
  | .closePeer _ _ => True

def stepOk (s : State) (e : Event) : Prop := roomOk s e ∧ eventOk s e

structure Inv (s : State) : Prop where
  wiring : Wiring s.cp.reg s.cp.watcherFds s.watched
  synced : Synced s

theorem issues_iff {r : CpRegistry} {fd : Fd} {k : Key} :
    issues r fd k = true ↔ ∃ a, r.Live k a ∧ (r.peers a).fd = fd := by
  simp only [issues, List.any_eq_true, List.mem_finRange, true_and, decide_eq_true_eq]
  exact exists_congr fun a => and_assoc.symm

theorem Init.inv (h : Init s) : Inv s := by
  obtain ⟨hreg, hws, hwatched, hsent, hlast⟩ := h
  have htracked : Tracked.Init { cp := s.cp } := ⟨hreg, rfl⟩
  refine ⟨⟨htracked.ok.1, ?_, ?_, ?_, ?_⟩, ⟨?_, ?_⟩, ?_⟩
  · intro fd a hbe
    rw [hreg] at hbe
    unfold CpRegistry.behind at hbe
    split at hbe <;> cases hbe
  · rw [hws]
    exact List.nodup_nil
  · intro k a _ hw
    rw [hwatched] at hw
    cases hw
  · intro fd hfd
    rw [hws] at hfd
    cases hfd
  · intro k _ hw
    rw [hwatched] at hw
    cases hw
  · intro k _
    rw [hsent]
  · rw [hlast]
    exact List.nodup_nil

theorem Inv.disconnect (h : Inv s) (cp0 : ControlPlane) (key : Key) (fd : Fd)
    (hreg0 : cpRegistryRemove cp0.reg key = cpRegistryRemove s.cp.reg key)
    (hws0 : cp0.watcherFds = s.cp.watcherFds)
    (hreg : cp.reg = (doDisconnect cp0 key fd .kDisconnected).reg)
    (hws : cp.watcherFds = (doDisconnect cp0 key fd .kDisconnected).watcherFds)
    (hother : ∀ k c, k ≠ key → s.cp.reg.Live k c → s.watched k = true →
      (s.cp.reg.peers c).fd ≠ fd) :
    Inv ⟨cp, s.watched, fun k => s.sent k ++ notesTo (goneSends cp0 key fd) k,
      goneSends cp0 key fd⟩ := by
  have hw : Wiring (cpRegistryRemove s.cp.reg key) (cpRemoveWatcher s.cp fd).watcherFds
      s.watched := by
    apply h.wiring.disconnect key (cpRemoveWatcher_nodup h.wiring.nodup)
    · exact fun x hx => ((mem_cpRemoveWatcher h.wiring.nodup x).mp hx).2
    · intro k c hk hc hwk
      rw [mem_cpRemoveWatcher h.wiring.nodup]
      exact ⟨hother k c hk hc hwk, (h.wiring.subscribed k c hc hwk).2.1⟩
  have hwatch : (cpRemoveWatcher cp0 fd).watcherFds = (cpRemoveWatcher s.cp fd).watcherFds :=
    cpRemoveWatcher_congr hws0 fd
  have hsends : goneSends cp0 key fd = (targets (cpRegistryRemove s.cp.reg key)
      (cpRemoveWatcher s.cp fd).watcherFds).map fun k => (k, .gone key) := by
    unfold goneSends
    rw [hreg0, hwatch]
  rw [doDisconnect_eq, (sendNotes_kept _ _).1] at hreg
  rw [doDisconnect_eq, (sendNotes_kept _ _).2] at hws
  dsimp only at hreg hws
  rw [hreg0] at hreg
  rw [hwatch] at hws
  rw [hsends]
  refine ⟨?_, ?_, hw.sends_nodup _⟩
  · dsimp only
    rw [hreg, hws]
    exact hw
  · dsimp only
    rw [hreg]
    exact h.synced.views.disconnect h.wiring hw

theorem connect_kept (cp : ControlPlane) (key : Key) (fd : Fd) :
    (apply cp (.connect key fd)).reg = cpRegistryInsert cp.reg key fd ∧
      (apply cp (.connect key fd)).watcherFds = cp.watcherFds := by
  have happly : apply cp (.connect key fd) = _ := doConnect_eq cp key fd
  rw [happly]
  exact sendNotes_kept { cp with reg := cpRegistryInsert cp.reg key fd } _

theorem watchConns_kept (cp : ControlPlane) (fd : Fd) :
    (apply cp (.watchConns fd)).reg = cp.reg ∧
      (apply cp (.watchConns fd)).watcherFds = (cpAddWatcher cp fd).watcherFds := by
  have happly : apply cp (.watchConns fd) = _ := handleWatchConns_eq cp fd
  obtain ⟨ws, hws⟩ := cpAddWatcher_eq cp fd
  rw [happly, hws]
  exact sendNotes_kept { cp with watcherFds := ws } _

theorem removed_twice {r : CpRegistry} (h : r.Ok) (key : Key) :
    cpRegistryRemove (cpRegistryRemove r key) key = cpRegistryRemove r key := by
  obtain ⟨hok, hmap⟩ := h.remove key
  apply cpRegistryRemove_none
  have hnone : (cpRegistryRemove r key).toMap key = none := by rw [hmap, Function.update_self]
  rwa [CpRegistry.toMap_eq, Option.map_eq_none_iff] at hnone

theorem Inv.quiet (h : Inv s) :
    Inv ⟨s.cp, s.watched, fun k => s.sent k ++ notesTo [] k, []⟩ := by
  have hsent : (fun k => s.sent k ++ notesTo [] k) = s.sent := by
    funext k
    exact List.append_nil _
  rw [hsent]
  exact ⟨h.wiring, h.synced.views, List.nodup_nil⟩

theorem step_inv {s' : State} {e : Event} (h : Inv s) (hok : stepOk s e) (hs : step s e = some s') :
    Inv s' := by
  rw [← Option.some.inj hs]
  have hw := h.wiring
  cases e with
  | connect key fd =>
    obtain ⟨-, hc, hfd⟩ := hok
    obtain ⟨hreg, hws⟩ := connect_kept s.cp key fd
    have hw' := hw.connect hc hfd
    refine ⟨?_, ?_, hw'.sends_nodup _⟩
    · dsimp only
      rw [hreg, hws]
      exact hw'
    · dsimp only
      rw [hreg]
      exact h.synced.views.connect hw hc hfd
  | watchConns fd =>
    obtain ⟨hroom, hok⟩ := hok
    obtain ⟨hreg, hws⟩ := watchConns_kept s.cp fd
    have hwatched : ∀ k, watchedAfter s (.watchConns fd) k = true ↔
        s.watched k = true ∨ ∃ a, s.cp.reg.Live k a ∧ (s.cp.reg.peers a).fd = fd := by
      intro k
      rw [watchedAfter, Bool.or_eq_true, issues_iff]
    refine ⟨?_, ?_, syncSends_nodup hw.reg⟩
    · dsimp only
      rw [hreg, hws]
      exact hw.watch hok (cpAddWatcher_nodup hw.nodup) (mem_cpAddWatcher hroom fd) hwatched
    · dsimp only
      rw [hreg]
      exact h.synced.views.watch hw hok hwatched
  | peerGone fd payload =>
    obtain ⟨-, hok⟩ := hok
    have happly : apply s.cp (.peerGone fd payload) = _ := handlePeerGone_eq s.cp fd payload
    rw [happly]
    unfold eventOk at hok
    dsimp only at hok
    unfold sends
    dsimp only
    cases hg : goneKey payload with
    | none => exact h.quiet
    | some key =>
      apply h.disconnect { s.cp with reg := cpRegistryRemove s.cp.reg key } key fd
      · exact removed_twice hw.reg key
      · rfl
      · rfl
      · rfl
      · intro k c hk hc hwk hcfd
        have hmem := (hw.subscribed k c hc hwk).2.1
        exact hk (hc.2.symm.trans (hok key hg (hcfd ▸ hmem) c hc.1 hcfd))
  | closePeer fd payload =>
    have happly : apply s.cp (.closePeer fd payload) = _ := handleClosePeer_eq s.cp payload
    rw [happly]
    unfold sends
    dsimp only
    cases hg : goneKey payload with
    | none => exact h.quiet
    | some key =>
      dsimp only
      cases hl : cpRegistryLookup s.cp.reg key with
      | none => exact h.quiet
      | some a =>
        have ha := hw.reg.lookup_iff.mp hl
        have hsends : goneSends s.cp key (s.cp.reg.peers a).fd =
            goneSends (cpRemovePeer s.cp key) key (s.cp.reg.peers a).fd := by
          apply goneSends_congr
          · rfl
          · rfl
        dsimp only
        rw [hsends]
        apply h.disconnect (cpRemovePeer s.cp key) key (s.cp.reg.peers a).fd
        · rfl
        · rfl
        · rfl
        · rfl
        · intro k c hk hc hwk hcfd
          have hone := (hw.subscribed k c hc hwk).2.2 a ha.1 hcfd.symm
          exact hk (hc.2.symm.trans (hone ▸ ha.2))

theorem reach_inv (h : Runs.Reach Init step stepOk s) : Inv s := by
  apply Runs.Reach.invariant _ _ h
  · exact fun s hs => hs.inv
  · exact fun s s' e ih hok hs => step_inv ih hok hs

theorem watchers_see_registry {s : State} (h : Runs.Reach Init step stepOk s) : Synced s :=
  (reach_inv h).synced

/-! ### A subscription that outlives its connection -/

def fresh : State := { cp := { dataPlane := { workers := fun _ => {}, numWorkers := 1 } } }

theorem fresh_init : Init fresh := ⟨rfl, rfl, rfl, rfl, rfl⟩

def after (s : State) (e : Event) : State where
  cp := apply s.cp e
  watched := watchedAfter s e
  sent := fun k => sentBefore s e k ++ notesTo (sends s.cp e) k
  last := sends s.cp e

theorem step_after (s : State) (e : Event) : step s e = some (after s e) := rfl

section

variable (s : State) (key : Key) (fd : Fd)

theorem after_connect_reg :
    (after s (.connect key fd)).cp.reg = cpRegistryInsert s.cp.reg key fd := by
  unfold after
  exact (connect_kept s.cp key fd).1

theorem after_connect_watcherFds :
    (after s (.connect key fd)).cp.watcherFds = s.cp.watcherFds := by
  unfold after
  exact (connect_kept s.cp key fd).2

theorem after_connect_watched : (after s (.connect key fd)).watched key = false := by
  simp only [after, watchedAfter, Function.update_self]

theorem after_connect_sent :
    (after s (.connect key fd)).sent key = notesTo (sends s.cp (.connect key fd)) key := by
  simp only [after, sentBefore, Function.update_self, List.nil_append]

end

open Tracked (keyA keyB)

theorem connected_watcherFds : (after fresh (.connect keyA 5)).cp.watcherFds = [] := by
  rw [after_connect_watcherFds]
  rfl

def subscribed : State := after (after fresh (.connect keyA 5)) (.watchConns 5)

theorem subscribed_reg : subscribed.cp.reg = cpRegistryInsert {} keyA 5 := by
  have hreg := (watchConns_kept (after fresh (.connect keyA 5)).cp 5).1
  rw [after_connect_reg] at hreg
  unfold subscribed after
  exact hreg

theorem subscribed_watcherFds : subscribed.cp.watcherFds = [5] := by
  have hws := (watchConns_kept (after fresh (.connect keyA 5)).cp 5).2
  have hadd : (cpAddWatcher (after fresh (.connect keyA 5)).cp 5).watcherFds = [5] := by
    unfold cpAddWatcher
    rw [connected_watcherFds]
    rfl
  rw [hadd] at hws
  unfold subscribed after
  exact hws

theorem reach_connect (h : Runs.Reach Init step stepOk s) {key : Key} {fd : Fd}
    (hfinds : Tracked.finds s.cp.reg key = true) (hfd : fd ∉ s.cp.watcherFds) :
    Runs.Reach Init step stepOk (after s (.connect key fd)) := by
  refine .next _ _ (.connect key fd) h ⟨trivial, ?_, hfd⟩ (step_after _ _)
  exact (Tracked.finds_iff (reach_inv h).wiring.reg).mp hfinds

theorem connected_reach : Runs.Reach Init step stepOk (after fresh (.connect keyA 5)) :=
  reach_connect (.start fresh fresh_init) (by decide) List.not_mem_nil

theorem connected_behind (a : CpSlot)
    (hl : ((cpRegistryInsert {} keyA 5).peers a).occupied = .live) :
    behind (cpRegistryInsert {} keyA 5) 5 = some a := by
  have hclaim : LinearProbe.claim cpView keyHash (fun _ => {} : CpSlot → CpPeer) keyA =
      some (LinearProbe.slot kCpMaxPeers (keyHash keyA) 0) := by
    decide
  obtain ⟨p, -, -, -, hpeers, -⟩ := cpRegistryInsert_some (r := {}) hclaim 5
  have ha : a = LinearProbe.slot kCpMaxPeers (keyHash keyA) 0 := by
    by_contra hne
    rw [hpeers, Function.update_of_ne hne] at hl
    cases hl
  rw [ha]
  decide

theorem subscribed_reach : Runs.Reach Init step stepOk subscribed := by
  refine .next _ _ (.watchConns 5) connected_reach ⟨?_, ?_⟩ (step_after _ _)
  · unfold roomOk
    dsimp only
    rw [connected_watcherFds]
    decide
  · intro a hl _
    rw [after_connect_reg] at hl ⊢
    exact connected_behind a hl

/-- It reconnects, and its old fd goes to the second key. -/
theorem not_synced_stale_watcher : ¬∀ s, Runs.Reach Init step roomOk s → Synced s := by
  intro hall
  have hmoved : Runs.Reach Init step roomOk (after subscribed (.connect keyA 6)) :=
    .next _ _ (.connect keyA 6) (subscribed_reach.mono fun _ _ hok => hok.1) trivial
      (step_after _ _)
  have hreach : Runs.Reach Init step roomOk
      (after (after subscribed (.connect keyA 6)) (.connect keyB 5)) :=
    .next _ _ (.connect keyB 5) hmoved trivial (step_after _ _)
  have hsends : sends (after subscribed (.connect keyA 6)).cp (.connect keyB 5) =
      [(keyB, .present keyB)] := by
    have htarget : targets (cpRegistryInsert (cpRegistryInsert (cpRegistryInsert {} keyA 5) keyA 6)
        keyB 5) [5] = [keyB] := by
      decide
    unfold sends
    dsimp only
    rw [after_connect_reg, after_connect_watcherFds, subscribed_reg, subscribed_watcherFds, htarget]
    rfl
  have hsilent := (hall _ hreach).views.silent keyB (after_connect_watched _ _ _)
  rw [after_connect_sent, hsends] at hsilent
  cases hsilent

/-- Two more keys connect. -/
def joined : State := after (after subscribed (.connect keyB 6)) (.connect (byteKey 3) 7)

def joinedReg : CpRegistry :=
  cpRegistryInsert (cpRegistryInsert (cpRegistryInsert {} keyA 5) keyB 6) (byteKey 3) 7

theorem joined_reg : joined.cp.reg = joinedReg := by
  unfold joined joinedReg
  rw [after_connect_reg, after_connect_reg, subscribed_reg]

theorem joined_watcherFds : joined.cp.watcherFds = [5] := by
  unfold joined
  rw [after_connect_watcherFds, after_connect_watcherFds, subscribed_watcherFds]

theorem joined_reach : Runs.Reach Init step stepOk joined := by
  have hsecond : Runs.Reach Init step stepOk (after subscribed (.connect keyB 6)) := by
    apply reach_connect subscribed_reach
    · rw [subscribed_reg]
      decide
    · rw [subscribed_watcherFds]
      decide
  apply reach_connect hsecond
  · rw [after_connect_reg, subscribed_reg]
    decide
  · rw [after_connect_watcherFds, subscribed_watcherFds]
    decide

theorem joined_sent : joined.sent keyA =
    subscribed.sent keyA ++ [Note.present keyB, Note.present (byteKey 3)] := by
  have hsecond : sends subscribed.cp (.connect keyB 6) = [(keyA, .present keyB)] := by
    have htarget : targets (cpRegistryInsert (cpRegistryInsert {} keyA 5) keyB 6) [5] = [keyA] := by
      decide
    unfold sends
    dsimp only
    rw [subscribed_reg, subscribed_watcherFds, htarget]
    rfl
  have hthird : sends (after subscribed (.connect keyB 6)).cp (.connect (byteKey 3) 7) =
      [(keyA, .present (byteKey 3))] := by
    have htarget : targets joinedReg [5] = [keyA] := by
      decide
    unfold sends
    dsimp only
    rw [after_connect_reg, after_connect_watcherFds, subscribed_reg, subscribed_watcherFds]
    unfold joinedReg at htarget
    rw [htarget]
    rfl
  have hkept : ∀ s key fd, keyA ≠ key → (after s (.connect key fd)).sent keyA =
      s.sent keyA ++ notesTo (sends s.cp (.connect key fd)) keyA := by
    intro s key fd hne
    simp only [after, sentBefore]
    rw [Function.update_of_ne hne]
  unfold joined
  rw [hkept _ _ _ (by decide), hkept _ _ _ (by decide), hsecond, hthird, List.append_assoc]
  rfl

theorem departure_sends (hreg : cp.reg = joinedReg) (hws : cp.watcherFds = [5]) :
    sends cp (.peerGone 6 keyB.data) = [(keyA, .gone keyB)] := by
  have hkey : goneKey keyB.data = some keyB := by decide
  have htarget : targets (cpRegistryRemove (cpRegistryRemove joinedReg keyB) keyB) [5] =
      [keyA] := by
    decide
  have habsent : (6 : Fd) ∉ ([5] : List Fd) := by decide
  unfold sends
  dsimp only
  rw [hkey]
  dsimp only
  unfold goneSends
  rw [cpRemoveWatcher_absent (by rw [hws]; exact habsent), hws, hreg, htarget]
  rfl

/-- The second key leaves, and the one that asked hears of all three events. -/
theorem watchers_see_departure : Synced (after joined (.peerGone 6 keyB.data)) ∧
    (after joined (.peerGone 6 keyB.data)).sent keyA =
      subscribed.sent keyA ++ [Note.present keyB, Note.present (byteKey 3), Note.gone keyB] := by
  have hreach : Runs.Reach Init step stepOk (after joined (.peerGone 6 keyB.data)) := by
    refine .next _ _ (.peerGone 6 keyB.data) joined_reach ⟨trivial, ?_⟩ (step_after _ _)
    intro _ _ hfd
    rw [joined_watcherFds] at hfd
    exact absurd hfd (by decide)
  refine ⟨watchers_see_registry hreach, ?_⟩
  simp only [after, sentBefore]
  rw [joined_sent, departure_sends joined_reg joined_watcherFds, List.append_assoc]
  rfl

end HyperDerp.Watchers
