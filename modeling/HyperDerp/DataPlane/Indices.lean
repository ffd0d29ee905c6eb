import HyperDerp.DataPlane.Loop
import HyperDerp.DataPlane.WellFormed

/-!
# The indices of a worker (`types.h:320-332`)

A worker finds its peers by key in the hash table, by descriptor in `fd_map` and
by id in `peer_id_map`, and counts them in `peer_count`. Adds and removals keep
the four by hand. They agree after every sequence of commands in which an add
brings a new key on a descriptor of its own; the add of a key that is still
registered counts the peer twice and leaves its old entries behind.
-/

namespace HyperDerp

structure Coherent (w : Worker) : Prop where
  count : w.peerCount = LinearProbe.liveCount peerView w.ht
  owner : ∀ fd p, w.fdMap fd = some p → (w.ht p).occupied = .live ∧ (w.ht p).fd = fd
  reached : ∀ p, (w.ht p).occupied = .live → w.fdMap (w.ht p).fd = some p
  ids : ∀ m i p, w.peerIdMap = some m → m i = some p →
    (w.ht p).occupied = .live ∧ (w.ht p).peerId = i

def peerCmdStep (ctx : Ctx) (l : ℕ × Cmd) : Option Ctx :=
  match l.2 with
  | .addPeer .. | .removePeer _ | .setFwdRule .. => some (processCmd ctx l.1 l.2).1
  | _ => none

/-- The table has a slot for the key, and the slot its receive buffer. -/
def CanHold (w : Worker) (key : Key) : Prop :=
  ∃ p, htFind w key = some p ∧ ((w.ht p).rbufAlloc = true ∨ w.alloc.1 = true)

/-- An add brings a new key, on a descriptor that no live peer has. -/
def freshAdd (ctx : Ctx) (l : ℕ × Cmd) : Prop :=
  ∀ fd key protocol peerId, l.2 = .addPeer fd key protocol peerId → validFd fd = true →
    htLookup (ctx.workers l.1) key = none ∧ (CanHold (ctx.workers l.1) key →
      ∀ q, ((ctx.workers l.1).ht q).occupied = .live → ((ctx.workers l.1).ht q).fd ≠ fd)

/-! ### Indices and what the commands need beside them -/

/-- Live peers have a valid descriptor, and the id table has no entry for id 0. -/
structure Indexed (w : Worker) : Prop extends TableOk w, Coherent w where
  valid : ∀ p, (w.ht p).occupied = .live → validFd (w.ht p).fd = true
  pos : ∀ m i p, w.peerIdMap = some m → m i = some p → 0 < i

namespace Indexed

variable {w w' : Worker} {p : Slot}

theorem init : Indexed {} where
  toTableOk := tableOk_empty
  count := by
    have hnone : (Finset.univ.filter fun q => peerView.occ (({} : Worker).ht q) = .live) = ∅ :=
      Finset.filter_eq_empty_iff.mpr fun _ _ => LinearProbe.Occ.noConfusion
    rw [LinearProbe.liveCount, hnone]
    rfl
  owner _ _ h := by cases h
  reached _ h := by cases h
  ids _ _ _ h := by cases h
  valid _ h := by cases h
  pos _ _ _ h := by cases h

theorem congr (h : Indexed w) (hT : TableOk w')
    (ho : ∀ q, (w'.ht q).occupied = (w.ht q).occupied) (hf : ∀ q, (w'.ht q).fd = (w.ht q).fd)
    (hi : ∀ q, (w'.ht q).peerId = (w.ht q).peerId) (hm : w'.fdMap = w.fdMap)
    (hids : w'.peerIdMap = w.peerIdMap) (hc : w'.peerCount = w.peerCount) : Indexed w' where
  toTableOk := hT
  count := by
    rw [hc, LinearProbe.liveCount_congr peerView ho]
    exact h.count
  owner fd q hq := by
    rw [hm] at hq
    rw [ho, hf]
    exact h.owner fd q hq
  reached q hq := by
    rw [ho] at hq
    rw [hm, hf]
    exact h.reached q hq
  ids m i q hm' hq := by
    rw [hids] at hm'
    rw [ho, hi]
    exact h.ids m i q hm' hq
  valid q hq := by
    rw [ho] at hq
    rw [hf]
    exact h.valid q hq
  pos m i q hm' hq := by
    rw [hids] at hm'
    exact h.pos m i q hm' hq

theorem idsAfterAdd_entry {ok : Bool} {protocol : PeerProtocol} {peerId i : ℕ} {p q : Slot}
    {m : ℕ → Option Slot} (hm : idsAfterAdd w ok protocol peerId p = some m) (hq : m i = some q) :
    (i = peerId ∧ q = p ∧ 0 < i) ∨ ∃ m0, w.peerIdMap = some m0 ∧ m0 i = some q := by
  have hset : ∀ m0 : ℕ → Option Slot, 0 < peerId → Function.update m0 peerId (some p) i = some q →
      (i = peerId ∧ q = p ∧ 0 < i) ∨ m0 i = some q := by
    intro m0 hpos hi
    by_cases he : i = peerId
    · subst he
      rw [Function.update_self] at hi
      exact .inl ⟨rfl, (Option.some.inj hi).symm, hpos⟩
    · rw [Function.update_of_ne he] at hi
      exact .inr hi
  unfold idsAfterAdd at hm
  split at hm
  · next hhd =>
    split at hm
    · next m0 h0 =>
      cases hm
      rcases hset m0 hhd.2 hq with h | h
      · exact .inl h
      · exact .inr ⟨m0, h0, h⟩
    · split at hm
      · cases hm
        rcases hset _ hhd.2 hq with h | h
        · exact .inl h
        · cases h
      · cases hm
  · exact .inr ⟨m, hm, hq⟩

theorem added (h : Indexed w) {fd : Fd} {key : Key} {protocol : PeerProtocol} {peerId : ℕ}
    (hT : TableOk w') (hs : AddedAt w p fd key protocol peerId w') (hv : validFd fd = true)
    (hp : (w.ht p).occupied ≠ .live) (hfd : ∀ q, (w.ht q).occupied = .live → (w.ht q).fd ≠ fd) :
    Indexed w' := by
  obtain ⟨isUnix, ok, ao, routes, io, heq⟩ := hs.eq
  have hht : w'.ht = Function.update w.ht p (addedPeer (w.ht p) fd key protocol peerId isUnix) := by
    rw [heq]
  have hself : w'.ht p = addedPeer (w.ht p) fd key protocol peerId isUnix := by
    rw [hht, Function.update_self]
  have hother : ∀ q, q ≠ p → w'.ht q = w.ht q := fun q hq => by rw [hht, Function.update_of_ne hq]
  have hlive : ∀ q, (w.ht q).occupied = .live → q ≠ p := fun q hq he => hp (he ▸ hq)
  refine ⟨hT, ⟨?count, ?owner, ?reached, ?ids⟩, ?valid, ?pos⟩
  case count =>
    have hcount := LinearProbe.liveCount_update_live peerView (t := w.ht) (a := p)
      (e := addedPeer (w.ht p) fd key protocol peerId isUnix) rfl
    rw [if_neg (show peerView.occ (w.ht p) ≠ .live from hp)] at hcount
    have hpc : w'.peerCount = w.peerCount + 1 := by rw [heq]
    rw [hht, hcount, hpc, h.count]
    rfl
  case owner =>
    intro f q hq
    have hmap : w'.fdMap = Function.update w.fdMap fd (some p) := by rw [heq]
    rw [hmap] at hq
    by_cases hf : f = fd
    · subst hf
      rw [Function.update_self] at hq
      obtain rfl := Option.some.inj hq
      rw [hself]
      exact ⟨rfl, rfl⟩
    · rw [Function.update_of_ne hf] at hq
      have ho := h.owner f q hq
      rw [hother q (hlive q ho.1)]
      exact ho
  case reached =>
    intro q hq
    have hmap : w'.fdMap = Function.update w.fdMap fd (some p) := by rw [heq]
    by_cases he : q = p
    · subst he
      have hqfd : (w'.ht q).fd = fd := by rw [hself]; rfl
      rw [hmap, hqfd, Function.update_self]
    · rw [hother q he] at hq ⊢
      rw [hmap, Function.update_of_ne (hfd q hq)]
      exact h.reached q hq
  case ids =>
    intro m i q hm hq
    have hids : w'.peerIdMap = idsAfterAdd w ok protocol peerId p := by rw [heq]
    rw [hids] at hm
    rcases idsAfterAdd_entry hm hq with ⟨hi, hqp, -⟩ | ⟨m0, h0, hq0⟩
    · rw [hqp, hself]
      exact ⟨rfl, hi.symm⟩
    · have ho := h.ids m0 i q h0 hq0
      rw [hother q (hlive q ho.1)]
      exact ho
  case valid =>
    intro q hq
    by_cases he : q = p
    · rw [he, hself]
      exact hv
    · rw [hother q he] at hq ⊢
      exact h.valid q hq
  case pos =>
    intro m i q hm hq
    have hids : w'.peerIdMap = idsAfterAdd w ok protocol peerId p := by rw [heq]
    rw [hids] at hm
    rcases idsAfterAdd_entry hm hq with ⟨-, -, hi⟩ | ⟨m0, h0, hq0⟩
    · exact hi
    · exact h.pos m0 i q h0 hq0

theorem idsAfterRemove_entry (h : Indexed w) {m : ℕ → Option Slot} {i : ℕ} {q : Slot}
    (hm : idsAfterRemove w p = some m) (hq : m i = some q) :
    q ≠ p ∧ ∃ m0, w.peerIdMap = some m0 ∧ m0 i = some q := by
  unfold idsAfterRemove at hm
  split at hm
  · obtain ⟨m0, h0, rfl⟩ := Option.map_eq_some_iff.mp hm
    by_cases hi : i = (w.ht p).peerId
    · rw [hi, Function.update_self] at hq
      cases hq
    · rw [Function.update_of_ne hi] at hq
      refine ⟨fun he => hi ?_, m0, h0, hq⟩
      rw [← he]
      exact (h.ids m0 i q h0 hq).2.symm
  · next hzero =>
    refine ⟨fun he => hzero ?_, m, hm, hq⟩
    rw [← he, (h.ids m i q hm hq).2]
    exact h.pos m i q hm hq

theorem removed (h : Indexed w) (hT : TableOk w') (hs : RemovedAt w p w')
    (hc : w'.peerCount = if 0 < w.peerCount then w.peerCount - 1 else w.peerCount)
    (hp : (w.ht p).occupied = .live) : Indexed w' := by
  obtain ⟨peerCount, routes, io, heq⟩ := hs.eq
  have hht : w'.ht = Function.update w.ht p (buriedPeer (w.ht p)) := by rw [heq]
  have hmap : w'.fdMap = Function.update w.fdMap (w.ht p).fd none := by
    have hfd : fdMapAfterRemove w p = Function.update w.fdMap (w.ht p).fd none := by
      rw [fdMapAfterRemove, if_pos (h.valid p hp)]
    rw [heq]
    exact hfd
  have hids : w'.peerIdMap = idsAfterRemove w p := by rw [heq]
  have hother : ∀ q, q ≠ p → w'.ht q = w.ht q := fun q hq => by rw [hht, Function.update_of_ne hq]
  have hdead : ∀ q, (w'.ht q).occupied = .live → q ≠ p := by
    intro q hq he
    rw [he, hht, Function.update_self] at hq
    cases hq
  have hentry : ∀ fd q, w'.fdMap fd = some q → fd ≠ (w.ht p).fd ∧ w.fdMap fd = some q := by
    intro fd q hq
    rw [hmap] at hq
    by_cases hf : fd = (w.ht p).fd
    · rw [hf, Function.update_self] at hq
      cases hq
    · rw [Function.update_of_ne hf] at hq
      exact ⟨hf, hq⟩
  refine ⟨hT, ⟨?count, ?owner, ?reached, ?ids⟩, ?valid, ?pos⟩
  case count =>
    have hcount := LinearProbe.liveCount_update_dead peerView (t := w.ht) (a := p)
      (e := buriedPeer (w.ht p)) (fun hl => by cases hl) hp
    have hw := h.count
    rw [hht, hc]
    rw [if_pos (by omega)]
    omega
  case owner =>
    intro fd q hq
    obtain ⟨hf, hq'⟩ := hentry fd q hq
    have ho := h.owner fd q hq'
    rw [hother q fun he => hf (by rw [← ho.2, he])]
    exact ho
  case reached =>
    intro q hq
    have hne := hdead q hq
    rw [hother q hne] at hq ⊢
    have hr := h.reached q hq
    rw [hmap, Function.update_of_ne]
    · exact hr
    · intro hf
      rw [hf, h.reached p hp] at hr
      exact hne (Option.some.inj hr).symm
  case ids =>
    intro m i q hm hq
    rw [hids] at hm
    obtain ⟨hne, m0, h0, hq0⟩ := h.idsAfterRemove_entry hm hq
    rw [hother q hne]
    exact h.ids m0 i q h0 hq0
  case valid =>
    intro q hq
    have hne := hdead q hq
    rw [hother q hne] at hq ⊢
    exact h.valid q hq
  case pos =>
    intro m i q hm hq
    rw [hids] at hm
    obtain ⟨-, m0, h0, hq0⟩ := h.idsAfterRemove_entry hm hq
    exact h.pos m0 i q h0 hq0

end Indexed

/-! ### Adds -/

theorem htInsert_holds {w : Worker} (h : TableOk w) {key : Key} (hh : CanHold w key) (fd : Fd) :
    ∃ p, htLookup (htInsert w fd key).2 key = some p := by
  obtain ⟨p, hf, hr⟩ := hh
  rcases htInsert_cases w fd key with ⟨hnone, -⟩ | ⟨a, w1, ha, hrb, hal, -⟩ |
    ⟨a, w1, ha, hht, -, heq⟩
  · rw [hf] at hnone
    cases hnone
  · rw [hf] at ha
    obtain rfl := Option.some.inj ha
    rw [hrb, hal] at hr
    simp at hr
  · have hht' : (htInsert w fd key).2.ht = Function.update w.ht a (freshPeer (w.ht a) fd key) := by
      rw [heq, Worker.setPeer, hht]
    have hI : HtInv (htInsert w fd key).2 := by
      rw [HtInv, hht']
      exact h.inv.insert peerView keyHash ha rfl rfl
    refine ⟨a, (LinearProbe.lookup_eq_some peerView keyHash hI key a).mpr ?_⟩
    rw [LinearProbe.Holds, hht', Function.update_self]
    exact ⟨rfl, rfl⟩

theorem htInsert_refused {w : Worker} (h : TableOk w) {key : Key} (hh : ¬CanHold w key) (fd : Fd) :
    htLookup (htInsert w fd key).2 key = none := by
  have hnone : htLookup w key = none := by
    cases hl : htLookup w key with
    | none => rfl
    | some q =>
      have hq := h.lookup_iff.mp hl
      exact absurd ⟨q, LinearProbe.find_of_holds peerView keyHash h.inv hq, .inl (h.rbuf q hq.1)⟩ hh
  rcases htInsert_cases w fd key with ⟨-, heq⟩ | ⟨a, w1, -, -, hal, heq⟩ | ⟨a, w1, ha, -, hw, heq⟩
  · rw [heq]
    exact hnone
  · have hw1 := alloc_ht w
    rw [hal] at hw1
    rw [heq, htLookup, hw1]
    exact hnone
  · refine absurd ⟨a, ha, ?_⟩ hh
    by_cases hr : (w.ht a).rbufAlloc = true
    · exact .inl hr
    · right
      unfold htInsert at heq
      simp only [ha, if_neg hr] at heq
      split at heq
      · cases heq
      · next hal => rw [hal]

theorem processCmdAdd_effect {ctx : Ctx} {v : ℕ} (h : TableOk (ctx.workers v)) {fd : Fd}
    (hv : validFd fd = true) (key : Key) (protocol : PeerProtocol) (peerId : ℕ) :
    (¬CanHold (ctx.workers v) key ∧ ∃ ao, processCmdAdd ctx v fd key protocol peerId =
      ctx.setWorker v { ctx.workers v with allocOracle := ao }) ∨
    (CanHold (ctx.workers v) key ∧ ∃ p, htFind (ctx.workers v) key = some p ∧
      AddedAt (ctx.workers v) p fd key protocol peerId
        ((processCmdAdd ctx v fd key protocol peerId).workers v)) := by
  by_cases hh : CanHold (ctx.workers v) key
  · refine .inr ⟨hh, ?_⟩
    rcases processCmdAdd_record h fd key protocol peerId with ⟨ao, heq⟩ | ⟨p, -, hf, hadd, -⟩
    · obtain ⟨p, hp⟩ := htInsert_holds h hh fd
      obtain ⟨-, ao', hao⟩ := htInsert_lookup h hp
      obtain ⟨io, hw⟩ := processCmdAdd_workers protocol peerId hv hp v
      obtain ⟨ok, ao'', hreg⟩ := registerPeer_added hao protocol peerId (ctx.isUnix fd)
      rw [if_pos rfl, hreg, heq, Ctx.setWorker_self] at hw
      have hpc : (ctx.workers v).peerCount = (ctx.workers v).peerCount + 1 :=
        (congrArg Worker.peerCount hw :)
      omega
    · exact ⟨p, hf, hadd⟩
  · have hnone := htInsert_refused h hh fd
    obtain ⟨ao, hao⟩ := htInsert_lookup_none h hnone
    exact .inl ⟨hh, ao, by rw [processCmdAdd_unregistered hv hnone, hao]⟩

/-! ### Runs of commands -/

theorem peerCmdStep_loop {ctx ctx' : Ctx} {l : ℕ × Cmd} (hs : peerCmdStep ctx l = some ctx') :
    loopStep ctx (.cmd l.1 l.2) = some ctx' := by
  unfold peerCmdStep at hs
  split at hs <;> first | exact hs | cases hs

theorem peerCmdStep_indexed {ctx ctx' : Ctx} {l : ℕ × Cmd} (h : ∀ v, Indexed (ctx.workers v))
    (hok : freshAdd ctx l) (hs : peerCmdStep ctx l = some ctx') (v : ℕ) :
    Indexed (ctx'.workers v) := by
  have hT := loopStep_tableOk (fun v => (h v).toTableOk) (peerCmdStep_loop hs) v
  obtain ⟨u, c⟩ := l
  cases c with
  | write | movePeerOut | stop => cases hs
  | addPeer fd key protocol peerId =>
    cases hs
    simp only [processCmd] at hT ⊢
    rcases processCmdAdd_record (h u).toTableOk fd key protocol peerId with ⟨ao, heq⟩ |
      ⟨p, hvalid, hf, hadd, hothers⟩
    · rw [heq] at hT ⊢
      by_cases hv : v = u
      · subst hv
        rw [Ctx.setWorker_self] at hT ⊢
        exact (h v).congr hT (fun _ => rfl) (fun _ => rfl) (fun _ => rfl) rfl rfl rfl
      · rw [Ctx.setWorker_ne ctx _ hv]
        exact h v
    · by_cases hv : v = u
      · subst hv
        obtain ⟨hnone, hfree⟩ := hok fd key protocol peerId rfl hvalid
        have hdead : ((ctx.workers v).ht p).occupied ≠ .live := by
          rcases LinearProbe.find_some peerView keyHash hf with hh | ⟨hdead, -⟩
          · rw [(h v).lookup_iff.mpr hh] at hnone
            cases hnone
          · exact hdead
        refine (h v).added hT hadd hvalid hdead (hfree ?_)
        rcases processCmdAdd_effect (h v).toTableOk hvalid key protocol peerId with
          ⟨-, ao, heq⟩ | ⟨hh, -⟩
        · obtain ⟨isUnix, ok, ao', routes, io, hrec⟩ := hadd.eq
          rw [heq, Ctx.setWorker_self] at hrec
          have hpc : (ctx.workers v).peerCount = (ctx.workers v).peerCount + 1 :=
            (congrArg Worker.peerCount hrec :)
          omega
        · exact hh
      · obtain ⟨routes, hr⟩ := hothers v hv
        rw [hr] at hT ⊢
        exact (h v).congr hT (fun _ => rfl) (fun _ => rfl) (fun _ => rfl) rfl rfl rfl
  | removePeer key =>
    cases hs
    simp only [processCmd] at hT ⊢
    cases hp : htLookup (ctx.workers u) key with
    | none =>
      rw [processCmdRemove_none hp]
      exact h v
    | some p =>
      obtain ⟨hrem, hcount, hothers⟩ := processCmdRemove_record hp
      by_cases hv : v = u
      · subst hv
        exact (h v).removed hT hrem hcount ((h v).lookup_iff.mp hp).1
      · obtain ⟨routes, hr⟩ := hothers v hv
        rw [hr] at hT ⊢
        exact (h v).congr hT (fun _ => rfl) (fun _ => rfl) (fun _ => rfl) rfl rfl rfl
  | setFwdRule key dstKey =>
    cases hs
    simp only [processCmd, HyperDerp.setFwdRule] at hT ⊢
    split
    · exact h v
    · next p hp =>
      simp only [hp] at hT
      split
      · exact h v
      · next hfull =>
        rw [if_neg hfull] at hT
        obtain ⟨a, b, c, d, e, heq⟩ := addRule_same (ctx.workers u) p dstKey
        rw [heq] at hT ⊢
        by_cases hv : v = u
        · subst hv
          rw [Ctx.setWorker_self] at hT ⊢
          apply (h v).congr hT
          · intro q
            by_cases hq : q = p <;> simp [Worker.setPeer, hq]
          · intro q
            by_cases hq : q = p <;> simp [Worker.setPeer, hq]
          · intro q
            by_cases hq : q = p <;> simp [Worker.setPeer, hq]
          · rfl
          · rfl
          · rfl
        · rw [Ctx.setWorker_ne ctx _ hv]
          exact h v

theorem freshAdd_of_coherent {ctx ctx' : Ctx} {l : ℕ × Cmd} (h : ∀ v, Indexed (ctx.workers v))
    (hs : peerCmdStep ctx l = some ctx') (hc : Coherent (ctx'.workers l.1)) : freshAdd ctx l := by
  intro fd key protocol peerId hl hv
  obtain ⟨v, c⟩ := l
  subst hl
  cases hs
  simp only [processCmd] at hc ⊢
  have heffect := processCmdAdd_effect (h v).toTableOk hv key protocol peerId
  have hnone : htLookup (ctx.workers v) key = none := by
    cases hl : htLookup (ctx.workers v) key with
    | none => rfl
    | some q =>
      -- the key is live: the peer is counted again
      have hq := (h v).lookup_iff.mp hl
      have hfq := LinearProbe.find_of_holds peerView keyHash (h v).inv hq
      obtain ⟨hno, -⟩ | ⟨-, p, hf, hadd⟩ := heffect
      · exact absurd ⟨q, hfq, .inl ((h v).rbuf q hq.1)⟩ hno
      · obtain rfl : q = p := Option.some.inj (hfq.symm.trans hf)
        obtain ⟨isUnix, ok, ao, routes, io, heq⟩ := hadd.eq
        have hcount := hc.count
        have hlive := LinearProbe.liveCount_update_live peerView (t := (ctx.workers v).ht) (a := q)
          (e := addedPeer ((ctx.workers v).ht q) fd key protocol peerId isUnix) rfl
        rw [if_pos (show peerView.occ ((ctx.workers v).ht q) = .live from hq.1)] at hlive
        rw [heq] at hcount
        simp only [hlive] at hcount
        have hbefore := (h v).count
        omega
  refine ⟨hnone, fun hh q hq hfd => ?_⟩
  obtain ⟨hno, -⟩ | ⟨-, p, hf, hadd⟩ := heffect
  · exact hno hh
  · have hne : q ≠ p := by
      intro he
      subst he
      rcases LinearProbe.find_some peerView keyHash hf with hp | ⟨hdead, -⟩
      · rw [(h v).lookup_iff.mpr hp] at hnone
        cases hnone
      · exact hdead hq
    obtain ⟨isUnix, ok, ao, routes, io, heq⟩ := hadd.eq
    have hqht : ((processCmdAdd ctx v fd key protocol peerId).workers v).ht q =
        (ctx.workers v).ht q := by
      rw [heq]
      exact Function.update_of_ne hne _ _
    have hmap : ((processCmdAdd ctx v fd key protocol peerId).workers v).fdMap fd = some p := by
      rw [heq]
      exact Function.update_self ..
    have hreach := hc.reached q (by rw [hqht]; exact hq)
    rw [hqht, hfd, hmap] at hreach
    exact hne (Option.some.inj hreach).symm

theorem reach_indexed {ctx : Ctx} (h : Runs.Reach dpInit peerCmdStep freshAdd ctx) (v : ℕ) :
    Indexed (ctx.workers v) := by
  revert v
  apply h.invariant (P := fun ctx => ∀ v, Indexed (ctx.workers v))
  · intro ctx h0 v
    rw [h0 v]
    exact .init
  · intro ctx ctx' l hi hok hs
    exact peerCmdStep_indexed hi hok hs

/-- The indices are coherent along every run of commands whose adds are fresh, and
the first add that is not fresh breaks them. -/
theorem worker_indices_coherent {ctx : Ctx} (h : Runs.Reach dpInit peerCmdStep freshAdd ctx) :
    (∀ v, Coherent (ctx.workers v)) ∧
      ∀ l ctx', peerCmdStep ctx l = some ctx' →
        ((∀ v, Coherent (ctx'.workers v)) ↔ freshAdd ctx l) := by
  have hi := reach_indexed h
  refine ⟨fun v => (hi v).toCoherent, fun l ctx' hs => ⟨fun hc => ?_, fun hok v => ?_⟩⟩
  · exact freshAdd_of_coherent hi hs (hc l.1)
  · exact (peerCmdStep_indexed hi hok hs v).toCoherent

def twoPeers : List (ℕ × Cmd) :=
  [(0, .addPeer 3 (byteKey 1) .kDerp 0), (0, .addPeer 4 (byteKey 2) .kHd 7)]

theorem two_peers_coherent :
    ∃ ctx, Runs.run peerCmdStep twoWorkers twoPeers = some ctx ∧
      Runs.Reach dpInit peerCmdStep freshAdd ctx ∧ (ctx.workers 0).peerCount = 2 ∧
      ∀ v, Coherent (ctx.workers v) := by
  have hrun : (Runs.run peerCmdStep twoWorkers twoPeers).map
      (fun ctx => (ctx.workers 0).peerCount) = some 2 := by
    decide
  obtain ⟨ctx, hctx, hcount⟩ := Option.map_eq_some_iff.mp hrun
  have hadd : ∀ (ctx : Ctx) (fd : Fd) (key : Key) (protocol : PeerProtocol) (peerId : ℕ),
      Runs.Reach dpInit peerCmdStep freshAdd ctx → htLookup (ctx.workers 0) key = none →
      (ctx.workers 0).fdMap fd = none → freshAdd ctx (0, .addPeer fd key protocol peerId) := by
    intro ctx fd key protocol peerId hr hnone hfree fd' key' protocol' peerId' heq _
    cases heq
    refine ⟨hnone, fun _ q hq he => ?_⟩
    have hreach := (reach_indexed hr 0).reached q hq
    rw [he, hfree] at hreach
    cases hreach
  have h0 : Runs.Reach dpInit peerCmdStep freshAdd twoWorkers := .start _ twoWorkers_init
  have hok0 := hadd twoWorkers 3 (byteKey 1) .kDerp 0 h0 (by decide) rfl
  have hreach : Runs.Reach dpInit peerCmdStep freshAdd ctx := by
    refine Runs.reach_run h0 ?_ hctx
    refine ⟨hok0, fun c1 h1 => ⟨?_, fun _ _ => trivial⟩⟩
    have hr1 := Runs.Reach.next _ c1 _ h0 hok0 h1
    cases h1
    exact hadd _ 4 (byteKey 2) .kHd 7 hr1 (by decide) (by decide)
  exact ⟨ctx, hctx, hreach, hcount, (worker_indices_coherent hreach).1⟩

/-- A live key is added again on another descriptor. -/
theorem readd_leaves_entries :
    ¬∀ ctx, Runs.Reach dpInit peerCmdStep Runs.Any ctx → ∀ v, Coherent (ctx.workers v) := by
  intro hall
  have hrun : (Runs.run peerCmdStep twoWorkers
      [(0, .addPeer 3 zeroKey .kDerp 0), (0, .addPeer 4 zeroKey .kDerp 0)]).map (fun ctx =>
        ((ctx.workers 0).fdMap 3, ((ctx.workers 0).ht (homeSlot zeroKey)).fd)) =
      some (some (homeSlot zeroKey), 4) := by
    decide
  obtain ⟨ctx, hctx, heq⟩ := Option.map_eq_some_iff.mp hrun
  rw [Prod.mk.injEq] at heq
  have hc := hall ctx (Runs.reach_of_run twoWorkers_init hctx) 0
  have howner := (hc.owner 3 _ heq.1).2
  rw [heq.2] at howner
  exact absurd howner (by decide)

end HyperDerp
