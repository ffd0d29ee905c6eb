import HyperDerp.DataPlane.Effects
import HyperDerp.DataPlane.SendStream

/-!
# The representation of a send queue

A peer's queue is kept in three pointers (`send_head`, `send_tail`, `send_next`)
and two counters (`send_queued`, `send_inflight`), moved independently in ten
places of the source. `SendState.Rep` says how they fit together. It is proved
along all runs of the send path of one worker in which no short write loses its
remainder for want of a node, or leaves it unsubmitted with `send_next` behind
it; a step that does one of these breaks it.
-/

namespace HyperDerp

/-- The chain has distinct addresses below `n`, and `send_tail` is its end. -/
structure SendState.Linkage (s : SendState) (n : ℕ) : Prop where
  nodup : (s.queue.map SendItem.id).Nodup
  fresh : ∀ x ∈ s.queue, x.id < n
  tail : s.tail = s.queue.getLast?.map SendItem.id

namespace SendState.Linkage

variable {s s' : SendState} {n : ℕ}

theorem congr (h : s.Linkage n) (hq : s'.queue = s.queue) (ht : s'.tail = s.tail) :
    s'.Linkage n where
  nodup := by rw [hq]; exact h.nodup
  fresh := by rw [hq]; exact h.fresh
  tail := by rw [hq, ht]; exact h.tail

theorem mono (h : s.Linkage n) {m : ℕ} (hm : n ≤ m) : s.Linkage m :=
  { h with fresh := fun x hx => Nat.lt_of_lt_of_le (h.fresh x hx) hm }

theorem empty (hq : s.queue = []) (ht : s.tail = none) : s.Linkage n where
  nodup := by rw [hq]; exact List.nodup_nil
  fresh := by rw [hq]; simp
  tail := by rw [hq, ht]; rfl

theorem push_queue (h : s.Linkage n) (item : SendItem) :
    (s.push item).queue = s.queue ++ [item] :=
  HyperDerp.push_queue h.nodup h.tail item

theorem push (h : s.Linkage n) (data : Bytes) : (s.push ⟨n, data⟩).Linkage (n + 1) := by
  have hq := h.push_queue ⟨n, data⟩
  constructor
  · rw [hq, List.map_append]
    apply List.Nodup.append h.nodup (by simp)
    intro id hid hid'
    obtain ⟨x, hx, rfl⟩ := List.mem_map.mp hid
    have hlt := h.fresh x hx
    simp only [List.map_cons, List.map_nil, List.mem_singleton] at hid'
    omega
  · rw [hq]
    intro x hx
    rcases List.mem_append.mp hx with hx | hx
    · have hlt := h.fresh x hx
      omega
    · rw [List.mem_singleton.mp hx]
      exact Nat.lt_succ_self n
  · rw [hq]
    simp [SendState.push]

theorem dropHead (h : s.Linkage n) {y : SendItem} {q : List SendItem} (hq : s.queue = y :: q)
    (hq' : s'.queue = q) (ht : s'.tail = if q.isEmpty then none else s.tail) : s'.Linkage n := by
  have hnd := h.nodup
  have htail := h.tail
  rw [hq, List.map_cons, List.nodup_cons] at hnd
  rw [hq] at htail
  constructor
  · rw [hq']
    exact hnd.2
  · rw [hq']
    intro x hx
    exact h.fresh x (by rw [hq]; exact List.mem_cons_of_mem _ hx)
  · rw [hq', ht, htail]
    cases q with
    | nil => rfl
    | cons z q => simp

theorem replaceHead (h : s.Linkage n) {y : SendItem} {q : List SendItem} (hq : s.queue = y :: q)
    {data : Bytes} (hq' : s'.queue = ⟨n, data⟩ :: q)
    (ht : s'.tail = some ((if q.isEmpty then none else s.tail).getD n)) : s'.Linkage (n + 1) := by
  have hnd := h.nodup
  rw [hq, List.map_cons, List.nodup_cons] at hnd
  constructor
  · rw [hq', List.map_cons, List.nodup_cons]
    refine ⟨fun hmem => ?_, hnd.2⟩
    obtain ⟨x, hx, hxe⟩ := List.mem_map.mp hmem
    have hlt := h.fresh x (by rw [hq]; exact List.mem_cons_of_mem _ hx)
    simp only at hxe
    omega
  · rw [hq']
    intro x hx
    rcases List.mem_cons.mp hx with rfl | hx
    · exact Nat.lt_succ_self n
    · have hlt := h.fresh x (by rw [hq]; exact List.mem_cons_of_mem _ hx)
      omega
  · rw [hq', ht, h.tail, hq]
    cases q with
    | nil => rfl
    | cons z q =>
      obtain ⟨t, ht⟩ : ∃ t, (z :: q).getLast? = some t :=
        Option.isSome_iff_exists.mp (by simp)
      simp [ht]

end SendState.Linkage

/-- `send_next` stands at position `j`, not before the sends in flight. -/
structure SendState.Chain (s : SendState) (n j : ℕ) : Prop extends s.Linkage n where
  next : s.next = s.queue[j]?.map SendItem.id
  le : j ≤ s.queue.length
  nonneg : 0 ≤ s.inflight
  inflight_le : s.inflight ≤ j

namespace SendState.Chain

variable {s s' : SendState} {n j : ℕ}

theorem congr (h : s.Chain n j) (hq : s'.queue = s.queue) (ht : s'.tail = s.tail)
    (hn : s'.next = s.next) (hi : s'.inflight = s.inflight) : s'.Chain n j where
  toLinkage := h.toLinkage.congr hq ht
  next := by rw [hq, hn]; exact h.next
  le := by rw [hq]; exact h.le
  nonneg := by rw [hi]; exact h.nonneg
  inflight_le := by rw [hi]; exact h.inflight_le

theorem mono (h : s.Chain n j) {m : ℕ} (hm : n ≤ m) : s.Chain m j :=
  { h with toLinkage := h.toLinkage.mono hm }

theorem empty (hq : s.queue = []) (ht : s.tail = none) (hn : s.next = none) (hi : s.inflight = 0) :
    s.Chain n 0 where
  toLinkage := .empty hq ht
  next := by rw [hq, hn]; rfl
  le := Nat.zero_le _
  nonneg := by omega
  inflight_le := by omega

theorem push (h : s.Chain n j) (data : Bytes) : (s.push ⟨n, data⟩).Chain (n + 1) j := by
  have hq := h.push_queue ⟨n, data⟩
  refine ⟨h.toLinkage.push data, ?_, ?_, h.nonneg, h.inflight_le⟩
  · have hn := h.next
    rw [hq]
    simp only [SendState.push, hn]
    rcases Nat.lt_or_ge j s.queue.length with hlt | hge
    · rw [List.getElem?_append_left hlt, List.getElem?_eq_getElem hlt]
      rfl
    · have hj : j = s.queue.length := Nat.le_antisymm h.le hge
      rw [List.getElem?_eq_none_iff.mpr hge, List.getElem?_append_right hge, hj, Nat.sub_self]
      rfl
  · have hle := h.le
    rw [hq, List.length_append]
    omega

theorem submit (h : s.Chain n j) {id : ℕ} (hid : s.next = some id) :
    ∃ x, s.queue[j]? = some x ∧ nodeAt s.queue id = some x ∧
      { s with next := nodeNext s.queue id, inflight := s.inflight + 1 }.Chain n (j + 1) := by
  have hn := h.next
  rw [hid] at hn
  cases hx : s.queue[j]? with
  | none =>
    rw [hx] at hn
    cases hn
  | some x =>
    rw [hx] at hn
    obtain rfl : id = x.id := Option.some.inj hn
    obtain ⟨h1, h2⟩ := node_at_index h.nodup hx
    have hlt := (List.getElem?_eq_some_iff.mp hx).1
    have h3 := h.nonneg
    have h4 := h.inflight_le
    refine ⟨x, rfl, h1, ⟨⟨h.nodup, h.fresh, h.tail⟩, h2, hlt, ?_, ?_⟩⟩
    · change 0 ≤ s.inflight + 1
      omega
    · change s.inflight + 1 ≤ ((j + 1 : ℕ) : ℤ)
      omega

theorem queue_ne_nil (h : s.Chain n j) (hi : 0 < s.inflight) : s.queue ≠ [] := by
  intro hq
  have h1 := h.le
  have h2 := h.inflight_le
  rw [hq, List.length_nil] at h1
  omega

theorem pop (h : s.Chain n j) (hi : 0 < s.inflight) :
    { s.pop with inflight := s.inflight - 1 }.Chain n (j - 1) := by
  obtain ⟨y, q, hq⟩ := List.exists_cons_of_ne_nil (h.queue_ne_nil hi)
  have hnext := h.next
  have hle := h.le
  have hin := h.inflight_le
  rw [hq] at hnext hle
  simp only [List.length_cons] at hle
  obtain ⟨i, rfl⟩ : ∃ i, j = i + 1 := ⟨j - 1, by omega⟩
  refine ⟨h.toLinkage.dropHead hq ?_ ?_, ?_, ?_, ?_, ?_⟩
  · simp [SendState.pop, hq]
  · simp [SendState.pop, hq]
  · simp only [SendState.pop, hq, List.tail_cons, hnext]
    cases q with
    | nil => simp
    | cons z q => simp
  · simp only [SendState.pop, hq, List.tail_cons]
    omega
  · change 0 ≤ s.inflight - 1
    omega
  · change s.inflight - 1 ≤ ((i + 1 - 1 : ℕ) : ℤ)
    omega

theorem rewind (h : s.Chain n j) {i : ℕ} (hi : i ≤ s.queue.length) (hq : s'.queue = s.queue)
    (ht : s'.tail = s.tail) (hn : s'.next = s.queue[i]?.map SendItem.id) (hin : s'.inflight = i) :
    s'.Chain n i where
  toLinkage := h.toLinkage.congr hq ht
  next := by rw [hq]; exact hn
  le := by rw [hq]; exact hi
  nonneg := by rw [hin]; omega
  inflight_le := by rw [hin]

theorem replaceHead (h : s.Chain n j) (hj : 0 < j) {y : SendItem} {q : List SendItem}
    (hq : s.queue = y :: q) {data : Bytes} (hq' : s'.queue = ⟨n, data⟩ :: q)
    (ht : s'.tail = some ((if q.isEmpty then none else s.tail).getD n)) (hn : s'.next = s.next)
    (hi0 : 0 ≤ s'.inflight) (hi : s'.inflight ≤ s.inflight) :
    s'.Chain (n + 1) j := by
  have hle := h.le
  have hin := h.inflight_le
  refine ⟨h.toLinkage.replaceHead hq hq' ht, ?_, ?_, hi0, by omega⟩
  · obtain ⟨i, rfl⟩ : ∃ i, j = i + 1 := ⟨j - 1, by omega⟩
    rw [hn, h.next, hq, hq', List.getElem?_cons_succ, List.getElem?_cons_succ]
  · rw [hq']
    rw [hq] at hle
    exact hle

theorem next_ne (h : s.Chain n j) {i : ℕ} (hi : i < j) :
    s.next ≠ s.queue[i]?.map SendItem.id := by
  have hle := h.le
  have hlt : i < s.queue.length := by omega
  intro heq
  rw [h.next] at heq
  rcases Nat.lt_or_ge j s.queue.length with hj | hj
  · rw [← List.getElem?_map, ← List.getElem?_map] at heq
    have hij := (List.getElem?_inj (by simpa using hj) h.nodup).mp heq
    omega
  · rw [List.getElem?_eq_none_iff.mpr hj, List.getElem?_eq_getElem hlt] at heq
    cases heq

end SendState.Chain

/-! ### What a completion can do -/

/-- The completion reports a send of the peer registered on its fd. -/
structure Completes (w : Worker) (cqe : Cqe) (p : Slot) : Prop where
  notif : cqe.notif = false
  valid : validFd cqe.fd = true
  mapped : w.fdMap cqe.fd = some p

/-- Every way `HandleSendCqe` ends. -/
inductive SendCqeCase (w : Worker) (cqe : Cqe) : Worker → Prop
  | ignored (notifMap : Fd → List SendItem) : (∀ p, ¬Completes w cqe p) →
      SendCqeCase w cqe { w with notifMap := notifMap }
  | unsupported (p : Slot) : Completes w cqe p → cqe.res = -kEopnotsupp →
      SendCqeCase w cqe (sendUnsupported w p)
  | retry (p : Slot) (stats : WorkerStats) : Completes w cqe p → cqe.res < 0 →
      SendCqeCase w cqe (sendRetry { w with stats := stats } p cqe.fd)
  | done (p : Slot) (stats : WorkerStats) (pipe : List PipeMsg) : Completes w cqe p →
      SendCqeCase w cqe (drainSendQueue { w with stats := stats, pipe := pipe } p cqe.more)
  | short (p : Slot) (stats : WorkerStats) (item : SendItem) (rest : List SendItem) :
      Completes w cqe p → 0 ≤ cqe.res → (w.ht p).send.queue = item :: rest →
      cqe.res.toNat < item.data.length →
      SendCqeCase w cqe
        (sendShort { w with stats := stats } p cqe.fd cqe.res.toNat item rest cqe.more)

theorem handleSendCqe_case (w : Worker) (cqe : Cqe) :
    SendCqeCase w cqe (handleSendCqe w cqe) := by
  unfold handleSendCqe
  dsimp only
  split
  · next hn =>
    have hno : ∀ p, ¬Completes w cqe p := fun p h => by
      rw [h.notif] at hn
      cases hn
    split
    · exact .ignored _ hno
    · exact .ignored w.notifMap hno
  · next hn =>
    split
    · next hnone =>
      have hno : ∀ p, ¬Completes w cqe p := fun p h => by
        rw [if_pos h.valid, h.mapped] at hnone
        cases hnone
      split
      · exact .ignored _ hno
      · exact .ignored w.notifMap hno
    · next p hp =>
      have hc : Completes w cqe p := by
        split at hp
        · next hv => exact ⟨by simpa using hn, hv, hp⟩
        · cases hp
      split
      · next hneg =>
        split
        · next hres => exact .unsupported p hc hres
        · split
          · exact .retry p _ hc hneg
          · split
            · exact .retry p w.stats hc hneg
            · split
              · exact .done p _ _ hc
              · split
                · exact .done p _ _ hc
                · exact .done p _ w.pipe hc
      · next hpos =>
        split
        · next item rest hq =>
          split
          · next hlt => exact .short p _ item rest hc (by omega) hq hlt
          · exact .done p _ w.pipe hc
        · exact .done p _ w.pipe hc

theorem sendShort_cases (w : Worker) (p : Slot) (fd : Fd) (sent : ℕ) (x : SendItem)
    (rest : List SendItem) (b : Bool) :
    (w.alloc.1 = false ∧ sendShort w p fd sent x rest b = drainSendQueue w.alloc.2 p b) ∨
    (w.alloc.1 = true ∧ ∃ notifMap allocOracle w1,
      w1 = { w.setSend p { (w.ht p).send with
          queue := rest, tail := if rest.isEmpty then none else (w.ht p).send.tail } with
        notifMap := notifMap, allocOracle := allocOracle } ∧
      ((w.alloc.2.alloc.1 = false ∧ sendShort w p fd sent x rest b = dropRest w1 p) ∨
        (w.alloc.2.alloc.1 = true ∧
          sendShort w p fd sent x rest b = resubmitRest w1 p fd (x.data.drop sent)))) := by
  have hw1 := alloc_eq w
  unfold sendShort
  rcases hal1 : w.alloc with ⟨ok, w1⟩
  rw [hal1] at hw1
  simp only at hw1
  cases ok with
  | false => exact .inl ⟨rfl, rfl⟩
  | true =>
    refine .inr ⟨rfl, ?_⟩
    have hu : ∃ nm, unlinkHead w1 p fd x rest b = { w1.setSend p { (w1.ht p).send with
        queue := rest, tail := if rest.isEmpty then none else (w1.ht p).send.tail } with
        notifMap := nm } := by
      unfold unlinkHead Worker.park
      split
      · exact ⟨_, rfl⟩
      · exact ⟨w1.notifMap, rfl⟩
    obtain ⟨nm, hnm⟩ := hu
    have hw2 := alloc_eq (unlinkHead w1 p fd x rest b)
    have hok := (alloc_congr w1 (unlinkHead w1 p fd x rest b) (by rw [hnm]; rfl)).1
    simp only
    rcases hal2 : (unlinkHead w1 p fd x rest b).alloc with ⟨ok2, w2⟩
    rw [hal2] at hw2 hok
    simp only at hw2 hok
    rw [hnm, hw1] at hw2
    refine ⟨nm, w2.allocOracle, w2, hw2, ?_⟩
    cases ok2 with
    | false => exact .inl ⟨hok.symm, rfl⟩
    | true => exact .inr ⟨hok.symm, rfl⟩

/-! ### Steps on one peer, seen from the others -/

/-- The step changes the send state of slot `q` and submits sends on `fd` only. -/
structure Touches (q : Slot) (fd : Fd) (w w' : Worker) : Prop where
  other : ∀ r, r ≠ q → w'.ht r = w.ht r
  self : w'.ht q = { w.ht q with send := (w'.ht q).send }
  fdMap : w'.fdMap = w.fdMap
  nextItem : w.nextItem ≤ w'.nextItem
  sends : ∀ f, f ≠ fd → w'.io.sends f = w.io.sends f

namespace Touches

variable {q : Slot} {fd : Fd} {w w' w'' : Worker}

theorem refl (w : Worker) : Touches q fd w w :=
  ⟨fun _ _ => rfl, rfl, rfl, Nat.le_refl _, fun _ _ => rfl⟩

theorem trans (h1 : Touches q fd w w') (h2 : Touches q fd w' w'') : Touches q fd w w'' where
  other r hr := (h2.other r hr).trans (h1.other r hr)
  self := by rw [h2.self, h1.self]
  fdMap := h2.fdMap.trans h1.fdMap
  nextItem := Nat.le_trans h1.nextItem h2.nextItem
  sends f hf := (h2.sends f hf).trans (h1.sends f hf)

theorem of_sendOnly (h : SendOnly q w w') (hn : w.nextItem ≤ w'.nextItem)
    (hs : ∀ f, f ≠ fd → w'.io.sends f = w.io.sends f) : Touches q fd w w' where
  other r hr := (h.peer r).2 hr
  self := (h.peer q).1
  fdMap := by
    obtain ⟨s, io, pf, nm, ao, ni, sp, st, rfl⟩ := h
    rfl
  nextItem := hn
  sends := hs

theorem setSend (w : Worker) (s : SendState) : Touches q fd w (w.setSend q s) :=
  of_sendOnly (SendOnly.setSend q w s) (Nat.le_refl _) fun _ _ => rfl

theorem fd_eq (h : Touches q fd w w') (r : Slot) : (w'.ht r).fd = (w.ht r).fd := by
  by_cases hr : r = q
  · rw [hr, h.self]
  · rw [h.other r hr]

theorem registered {p : Slot} {f : Fd} (h : Touches q fd w w') (hr : Registered p f w) :
    Registered p f w' := by
  refine ⟨hr.valid, by rw [h.fdMap]; exact hr.mapped, fun g a hg => ?_⟩
  rw [h.fdMap] at hg
  rw [h.fd_eq]
  exact hr.own g a hg

end Touches

section

variable {q : Slot} {fd : Fd} {w : Worker}

theorem submitNext_touches (hfd : (w.ht q).fd = fd) : Touches q fd w (submitNext w q).2 := by
  obtain ⟨w', hw', hso, hni, hcases⟩ := submitNext_cases w q
  rw [hw']
  apply Touches.of_sendOnly hso (Nat.le_of_eq hni.symm)
  intro f hf
  rcases hcases with ⟨-, -, hio⟩ | ⟨id, item, -, -, -, hio⟩
  · exact hio f
  · rw [hio f, if_neg (by rw [hfd]; exact fun h => hf h.symm), List.append_nil]

theorem submitBatch_touches (n : ℕ) (hfd : (w.ht q).fd = fd) :
    Touches q fd w (submitBatch n w q) := by
  induction n generalizing w with
  | zero => exact Touches.refl w
  | succ n ih =>
    have hs := submitNext_touches hfd
    simp only [submitBatch]
    split
    · split
      · next heq =>
        rw [heq] at hs
        apply hs.trans
        apply ih
        rw [hs.fd_eq]
        exact hfd
      · next heq => rw [heq] at hs; exact hs
    · exact Touches.refl w

theorem alloc_touches (w : Worker) : Touches q fd w w.alloc.2 := by
  obtain ⟨hso, -, hio, hni⟩ := alloc_spec w q
  exact Touches.of_sendOnly hso (Nat.le_of_eq hni.symm) fun f _ => by rw [hio]

theorem kickSend_touches (hfd : (w.ht q).fd = fd) : Touches q fd w (kickSend w q) := by
  unfold kickSend
  dsimp only
  split
  · split
    · exact Touches.of_sendOnly ⟨_, _, _, _, _, _, _, _, rfl⟩ (Nat.le_refl _) fun _ _ => rfl
    · exact Touches.setSend w _
  · split
    · exact submitNext_touches hfd
    · exact Touches.refl w

theorem pauseRecv_touches (w : Worker) : Touches q fd w (pauseRecv w) := by
  unfold pauseRecv
  split
  · exact ⟨fun _ _ => rfl, rfl, rfl, Nat.le_refl _, fun _ _ => rfl⟩
  · exact Touches.refl w

theorem enqueueSend_touches (hfd : (w.ht q).fd = fd) (data : Bytes) :
    Touches q fd w (enqueueSend w q data) := by
  have ha : Touches q fd w w.alloc.2 := alloc_touches w
  unfold enqueueSend
  split
  · exact ⟨fun _ _ => rfl, rfl, rfl, Nat.le_refl _, fun _ _ => rfl⟩
  · split
    · next w1 heq =>
      rw [heq] at ha
      exact ha.trans ⟨fun _ _ => rfl, rfl, rfl, Nat.le_refl _, fun _ _ => rfl⟩
    · next w1 heq =>
      rw [heq] at ha
      have hp : Touches q fd w1 (pushItem w1 q data) :=
        Touches.of_sendOnly (pushItem_sendOnly w1 q data) (Nat.le_succ _) fun _ _ => rfl
      have hk : Touches q fd (pushItem w1 q data) (kickSend (pushItem w1 q data) q) := by
        apply kickSend_touches
        rw [hp.fd_eq, ha.fd_eq]
        exact hfd
      exact ((ha.trans hp).trans hk).trans (pauseRecv_touches _)

theorem popSend_touches (b : Bool) : Touches q fd w (popSend w q b) := by
  by_cases hq : (w.ht q).send.queue = []
  · unfold popSend
    simp only [hq]
    exact Touches.refl w
  · obtain ⟨hso, -, hni, hio⟩ := popSend_spec w q b hq
    exact Touches.of_sendOnly hso (Nat.le_of_eq hni.symm) fun f _ => hio f

theorem drainSendQueue_touches (hfd : (w.ht q).fd = fd) (b : Bool) :
    Touches q fd w (drainSendQueue w q b) := by
  have h1 : Touches q fd w (popSend w q b) := popSend_touches b
  unfold drainSendQueue
  dsimp only
  generalize popSend w q b = w1 at h1 ⊢
  have h2 : Touches q fd w (if 0 < (w1.ht q).send.inflight then
      w1.setSend q { (w1.ht q).send with inflight := (w1.ht q).send.inflight - 1 } else w1) := by
    split
    · exact h1.trans (Touches.setSend w1 _)
    · exact h1
  generalize (if 0 < (w1.ht q).send.inflight then
      w1.setSend q { (w1.ht q).send with inflight := (w1.ht q).send.inflight - 1 } else w1) = w2
    at h2 ⊢
  split
  · exact h2.trans (submitNext_touches (by rw [h2.fd_eq]; exact hfd))
  · exact h2

theorem armPollWrite_touches (f : Fd) : Touches q fd w (armPollWrite w q f) := by
  have hsq := prepSqe_sqes w.io (.pollOut f)
  unfold armPollWrite
  dsimp only
  split
  · exact Touches.refl w
  · rcases hp : prepSqe w.io (.pollOut f) with ⟨ok, io⟩
    rw [hp] at hsq
    have hio : Touches q fd w { w with io := io } := by
      apply Touches.of_sendOnly (IoOnly.sendOnly ⟨io, rfl⟩ q) (Nat.le_refl _)
      intro g _
      cases ok <;> simp_all [Io.sends]
    cases ok with
    | false => exact hio
    | true => exact hio.trans (Touches.setSend _ _)

theorem sendShort_touches (hfd : (w.ht q).fd = fd) (sent : ℕ) (item : SendItem)
    (rest : List SendItem) (b : Bool) :
    Touches q fd w (sendShort w q fd sent item rest b) := by
  have ha : Touches q fd w w.alloc.2 := alloc_touches w
  unfold sendShort
  split
  · next w1 heq =>
    rw [heq] at ha
    exact ha.trans (drainSendQueue_touches (by rw [ha.fd_eq]; exact hfd) b)
  · next w1 heq =>
    rw [heq] at ha
    obtain ⟨hso, -, hio, hni, -⟩ := unlinkHead_spec w1 q fd item rest b
    generalize unlinkHead w1 q fd item rest b = w2 at hso hio hni ⊢
    have h2 : Touches q fd w w2 := ha.trans
      (Touches.of_sendOnly hso (Nat.le_of_eq hni.symm) fun f _ => by rw [hio])
    have hb : Touches q fd w2 w2.alloc.2 := alloc_touches w2
    split
    · next w3 heq3 =>
      rw [heq3] at hb
      have h3 := h2.trans hb
      unfold dropRest
      dsimp only
      have h4 : Touches q fd w3 { w3.setSend q { (w3.ht q).send with
          inflight := (w3.ht q).send.inflight - 1 } with
          stats := { w3.stats with slabExhausts := w3.stats.slabExhausts + 1 } } :=
        Touches.of_sendOnly ⟨_, _, _, _, _, _, _, _, rfl⟩ (Nat.le_refl _) fun _ _ => rfl
      split
      · exact (h3.trans h4).trans (submitNext_touches (by
          rw [(h3.trans h4).fd_eq]
          exact hfd))
      · exact h3.trans h4
    · next w3 heq3 =>
      rw [heq3] at hb
      apply (h2.trans hb).trans
      unfold resubmitRest
      dsimp only
      generalize { (w3.ht q).send with
        queue := ⟨w3.nextItem, item.data.drop sent⟩ :: (w3.ht q).send.queue
        tail := some ((w3.ht q).send.tail.getD w3.nextItem) } = s'
      obtain ⟨ok, io, heq, hsends⟩ := submitSend_cases
        { w3.setSend q s' with nextItem := w3.nextItem + 1 } fd
        ⟨w3.nextItem, item.data.drop sent⟩ false false
      rw [heq]
      have h5 : Touches q fd w3
          { w3.setSend q s' with nextItem := w3.nextItem + 1, io := io } := by
        apply Touches.of_sendOnly ⟨_, _, _, _, _, _, _, _, rfl⟩ (Nat.le_succ _)
        intro f hf
        have hne : ¬(ok = true ∧ fd = f) := fun h => hf h.2.symm
        have hf' : io.sends f = _ := hsends f
        rw [if_neg hne, List.append_nil] at hf'
        exact hf'
      cases ok with
      | false => exact h5.trans (Touches.setSend _ _)
      | true => exact h5

theorem handleSendCqe_touches_at {cqe : Cqe}
    (hq : ∀ r, w.fdMap cqe.fd = some r → r = q ∧ (w.ht r).fd = cqe.fd) :
    Touches q cqe.fd w (handleSendCqe w cqe) := by
  have hfd : ∀ {p}, Completes w cqe p → p = q ∧ (w.ht p).fd = cqe.fd := fun hc =>
    hq _ hc.mapped
  have hacc : ∀ stats pipe, Touches q cqe.fd w { w with stats := stats, pipe := pipe } :=
    fun _ _ => ⟨fun _ _ => rfl, rfl, rfl, Nat.le_refl _, fun _ _ => rfl⟩
  have hcase := handleSendCqe_case w cqe
  generalize handleSendCqe w cqe = w' at hcase ⊢
  cases hcase with
  | ignored nm _ => exact ⟨fun _ _ => rfl, rfl, rfl, Nat.le_refl _, fun _ _ => rfl⟩
  | unsupported p hc _ =>
    obtain ⟨rfl, hf⟩ := hfd hc
    unfold sendUnsupported
    dsimp only
    split
    · exact (Touches.setSend w _).trans (submitBatch_touches _ (by
        have hs := fun t => @Touches.setSend p cqe.fd w t
        rw [(hs _).fd_eq]
        exact hf))
    · exact Touches.setSend w _
  | retry p stats hc _ =>
    obtain ⟨rfl, hf⟩ := hfd hc
    unfold sendRetry
    dsimp only
    exact (hacc stats w.pipe).trans ((Touches.setSend _ _).trans (armPollWrite_touches _))
  | done p stats pipe hc =>
    obtain ⟨rfl, hf⟩ := hfd hc
    exact (hacc stats pipe).trans (drainSendQueue_touches (by exact hf) _)
  | short p stats item rest hc _ _ _ =>
    obtain ⟨rfl, hf⟩ := hfd hc
    exact (hacc stats w.pipe).trans (sendShort_touches (by exact hf) _ _ _ _)

theorem handleSendCqe_touches {cqe : Cqe} (hown : ∀ f r, w.fdMap f = some r → (w.ht r).fd = f)
    (hq : ∀ r, w.fdMap cqe.fd = some r → r = q) : Touches q cqe.fd w (handleSendCqe w cqe) :=
  handleSendCqe_touches_at fun r hr => ⟨hq r hr, hown cqe.fd r hr⟩

theorem flushPending_touches (hown : ∀ f r, w.fdMap f = some r → (w.ht r).fd = f) (f : Fd)
    (hq : ∀ r, w.fdMap f = some r → r = q) : Touches q f w (flushPending w f) := by
  unfold flushPending
  split
  · exact Touches.refl w
  · split
    · exact Touches.refl w
    · next p hp =>
      obtain rfl := hq p hp
      have h1 : Touches p f w (w.setSend p { (w.ht p).send with pending := false }) :=
        Touches.setSend w _
      dsimp only
      split
      · exact h1
      · exact h1.trans (submitBatch_touches _ (by rw [h1.fd_eq]; exact hown f p hp))

theorem handlePollWrite_touches (hown : ∀ f r, w.fdMap f = some r → (w.ht r).fd = f) (f : Fd)
    (hq : ∀ r, w.fdMap f = some r → r = q) : Touches q f w (handlePollWrite w f) := by
  unfold handlePollWrite
  dsimp only
  split
  · exact Touches.refl w
  · next p hp =>
    have hmap : w.fdMap f = some p := by
      split at hp
      · exact hp
      · cases hp
    obtain rfl := hq p hmap
    have h1 : Touches p f w (w.setSend p { (w.ht p).send with pollWritePending := false }) :=
      Touches.setSend w _
    have h2 := h1.trans (submitBatch_touches kPollWriteBatch (by
      rw [h1.fd_eq]
      exact hown f p hmap))
    split
    · exact h2.trans (armPollWrite_touches f)
    · exact h2

end

instance : Nontrivial Slot := ⟨0, 1, by decide⟩

theorem Registered.other_slot {p : Slot} {fd f : Fd} {w : Worker} (h : Registered p fd w)
    (hf : f ≠ fd) : ∃ q, q ≠ p ∧ ∀ r, w.fdMap f = some r → r = q := by
  cases hm : w.fdMap f with
  | none =>
    obtain ⟨q, hq⟩ := exists_ne p
    exact ⟨q, hq, fun r hr => by cases hr⟩
  | some q =>
    refine ⟨q, fun hq => ?_, fun r hr => (Option.some.inj hr).symm⟩
    subst hq
    exact hf ((h.own f q hm).symm.trans h.fd_eq)

/-! ### Runs of the send path -/

/-- How the pointers and counters of a send queue fit together. -/
structure SendState.Rep (s : SendState) : Prop where
  queued : s.queued = s.queue.length
  tail : s.tail = s.queue.getLast?.map SendItem.id
  nonneg : 0 ≤ s.inflight
  inflight_le : s.inflight ≤ min kMaxSendsInflight s.queued
  next : s.zcDraining = false → s.next = s.queue[s.inflight.toNat]?.map SendItem.id

/-- A worker, and how many completions of sends on the fd under study it has
handled. -/
structure QueueSys where
  w : Worker
  handled : ℕ

inductive QueueStep where
  | enqueue (q : Slot) (data : Bytes)
  | flush
  | pollWrite (f : Fd)
  | complete (cqe : Cqe)

section System

variable (p : Slot) (fd : Fd)

/-- No two peers share a socket, and the kernel reports each submitted send once. -/
def QueueSys.step (s : QueueSys) : QueueStep → Option QueueSys
  | .enqueue q data =>
    if q = p ∨ (s.w.ht q).fd ≠ fd then some { s with w := enqueueSend s.w q data } else none
  | .flush => some { s with w := flushPendingSends s.w }
  | .pollWrite f => some { s with w := handlePollWrite s.w f }
  | .complete cqe =>
    if cqe.fd = fd ∧ cqe.notif = false then
      if s.handled < (s.w.io.sends fd).length then
        some ⟨handleSendCqe s.w cqe, s.handled + 1⟩
      else none
    else some { s with w := handleSendCqe s.w cqe }

/-- A registered peer as `HtInsert` leaves it. -/
structure QueueSys.Fresh (s : QueueSys) : Prop where
  registered : Registered p fd s.w
  live : (s.w.ht p).occupied = .live
  send : ∃ noZc, (s.w.ht p).send = { noZc := noZc }
  handled : s.handled = (s.w.io.sends fd).length

/-- A short write finds no buffer at all and gives up, or finds a buffer, a node
and a submission entry; while zero copy drains, the entry is not needed. -/
def ShortOk (w : Worker) (p : Slot) : Prop :=
  w.alloc.1 = false ∨
    (w.alloc.2.alloc.1 = true ∧ ((getSqe w.io).1 = true ∨ (w.ht p).send.zcDraining = true))

def QueueSys.stepOk (s : QueueSys) : QueueStep → Prop
  | .complete cqe => ∀ item rest, Completes s.w cqe p → 0 ≤ cqe.res →
      (s.w.ht p).send.queue = item :: rest → cqe.res.toNat < item.data.length → ShortOk s.w p
  | _ => True

/-- The invariant: beyond the representation it knows where `send_next` stands
while zero copy drains, and what is outstanding in the kernel. -/
structure Queued (w : Worker) (handled : ℕ) : Prop where
  registered : Registered p fd w
  chain : ∃ j, (w.ht p).send.Chain w.nextItem j ∧
    ((w.ht p).send.zcDraining = false → (w.ht p).send.inflight = j)
  queued : (w.ht p).send.queued = (w.ht p).send.queue.length
  cap : (w.ht p).send.inflight ≤ kMaxSendsInflight
  outstanding : (w.ht p).send.inflight + handled = (w.io.sends fd).length

end System

namespace Queued

variable {p q : Slot} {fd : Fd} {w w' : Worker} {k : ℕ}

theorem rep (h : Queued p fd w k) : (w.ht p).send.Rep := by
  obtain ⟨j, hc, hj⟩ := h.chain
  have h1 := hc.inflight_le
  have h2 := hc.le
  refine ⟨h.queued, hc.tail, hc.nonneg, le_min h.cap ?_, fun hz => ?_⟩
  · rw [h.queued]
    omega
  · rw [hj hz, Int.toNat_natCast]
    exact hc.next

theorem congr (h : Queued p fd w k) (ht : Touches q fd w w')
    (hs : (w'.ht p).send = { (w.ht p).send with
      pending := (w'.ht p).send.pending, noZc := (w'.ht p).send.noZc
      pollWritePending := (w'.ht p).send.pollWritePending })
    (hsends : w'.io.sends fd = w.io.sends fd) : Queued p fd w' k := by
  obtain ⟨j, hc, hj⟩ := h.chain
  have hi : (w'.ht p).send.inflight = (w.ht p).send.inflight := by rw [hs]
  have hq : (w'.ht p).send.queue = (w.ht p).send.queue := by rw [hs]
  have hz : (w'.ht p).send.zcDraining = (w.ht p).send.zcDraining := by rw [hs]
  constructor
  · exact ht.registered h.registered
  · refine ⟨j, (hc.congr hq (by rw [hs]) (by rw [hs]) hi).mono ht.nextItem, ?_⟩
    rw [hz, hi]
    exact hj
  · rw [hq, hs]
    exact h.queued
  · rw [hi]
    exact h.cap
  · rw [hi, hsends]
    exact h.outstanding

theorem other (h : Queued p fd w k) {f : Fd} (ht : Touches q f w w') (hq : q ≠ p) (hf : f ≠ fd) :
    Queued p fd w' k := by
  obtain ⟨j, hc, hj⟩ := h.chain
  have hp := ht.other p (Ne.symm hq)
  constructor
  · exact ht.registered h.registered
  · rw [hp]
    exact ⟨j, hc.mono ht.nextItem, hj⟩
  · rw [hp]
    exact h.queued
  · rw [hp]
    exact h.cap
  · rw [hp, ht.sends fd (Ne.symm hf)]
    exact h.outstanding

theorem submitNext (h : Queued p fd w k) (hlt : (w.ht p).send.inflight < kMaxSendsInflight) :
    Queued p fd (submitNext w p).2 k := by
  have ht := submitNext_touches (q := p) h.registered.fd_eq
  obtain ⟨w', hw', -, hni, hcases⟩ := submitNext_cases w p
  rw [hw'] at ht ⊢
  rcases hcases with ⟨-, hsend, hio⟩ | ⟨id, item, hid, hitem, hsend, hio⟩
  · exact h.congr ht (by rw [hsend]) (hio fd)
  · obtain ⟨j, hc, hj⟩ := h.chain
    obtain ⟨x, -, -, hc'⟩ := hc.submit hid
    have hout := h.outstanding
    constructor
    · exact ht.registered h.registered
    · rw [hsend, hni]
      refine ⟨j + 1, hc', fun hz => ?_⟩
      have hj' := hj hz
      simp only
      omega
    · rw [hsend]
      exact h.queued
    · rw [hsend]
      simp only
      omega
    · rw [hsend, hio fd, if_pos h.registered.fd_eq, List.length_append]
      simp only [List.length_cons, List.length_nil]
      omega

theorem submitBatch (n : ℕ) (h : Queued p fd w k) : Queued p fd (submitBatch n w p) k := by
  induction n generalizing w with
  | zero => exact h
  | succ n ih =>
    simp only [HyperDerp.submitBatch]
    split
    · next hc =>
      have hs := h.submitNext hc.2
      split
      · next heq => rw [heq] at hs; exact ih hs
      · next heq => rw [heq] at hs; exact hs
    · exact h

theorem enqueueSend (h : Queued p fd w k) (data : Bytes) :
    Queued p fd (enqueueSend w p data) k := by
  have ha : Touches p fd w w.alloc.2 := alloc_touches w
  obtain ⟨-, hht, hio, hni⟩ := alloc_spec w p
  unfold HyperDerp.enqueueSend
  split
  · exact h.congr (q := p) ⟨fun _ _ => rfl, rfl, rfl, Nat.le_refl _, fun _ _ => rfl⟩ rfl rfl
  · split
    · next w1 heq =>
      rw [heq] at ha hht hio
      simp only at hht hio
      have h1 : Queued p fd w1 k := h.congr ha (by rw [hht]) (by rw [hio])
      exact h1.congr (q := p) ⟨fun _ _ => rfl, rfl, rfl, Nat.le_refl _, fun _ _ => rfl⟩ rfl rfl
    · next w1 heq =>
      rw [heq] at ha hht hio
      simp only at hht hio
      have h1 : Queued p fd w1 k := h.congr ha (by rw [hht]) (by rw [hio])
      have h2 : Queued p fd (pushItem w1 p data) k := by
        obtain ⟨j, hc, hj⟩ := h1.chain
        have hsend : ((pushItem w1 p data).ht p).send =
            (w1.ht p).send.push ⟨w1.nextItem, data⟩ := by
          simp [pushItem, Worker.setSend]
        have hq := push_queue hc.nodup hc.tail ⟨w1.nextItem, data⟩
        constructor
        · exact h1.registered.of_sendOnly (pushItem_sendOnly w1 p data)
        · rw [hsend]
          exact ⟨j, hc.push data, hj⟩
        · have hl := h1.queued
          rw [hsend, hq, List.length_append]
          change (w1.ht p).send.queued + 1 = _
          simp only [List.length_cons, List.length_nil]
          omega
        · rw [hsend]
          exact h1.cap
        · rw [hsend]
          exact h1.outstanding
      have h3 : Queued p fd (kickSend (pushItem w1 p data) p) k := by
        have ht := kickSend_touches h2.registered.fd_eq
        generalize pushItem w1 p data = w2 at h2 ht
        unfold kickSend at ht ⊢
        dsimp only at ht ⊢
        split
        · next hc =>
          rw [if_pos hc] at ht
          split
          · next hp =>
            rw [if_pos hp] at ht
            exact h2.congr ht (by simp) rfl
          · next hp =>
            rw [if_neg hp] at ht
            exact h2.congr ht (by simp) rfl
        · split
          · next hc => exact h2.submitNext hc.2.1
          · exact h2
      apply h3.congr (pauseRecv_touches (q := p) _)
      · unfold pauseRecv
        split <;> rfl
      · unfold pauseRecv
        split <;> rfl

theorem flushPending (h : Queued p fd w k) (f : Fd) : Queued p fd (flushPending w f) k := by
  by_cases hf : f = fd
  · subst hf
    unfold HyperDerp.flushPending
    simp only [h.registered.valid, Bool.not_true, Bool.false_eq_true, ite_false,
      h.registered.mapped]
    have h1 : Queued p f (w.setSend p { (w.ht p).send with pending := false }) k :=
      h.congr (Touches.setSend w _) (by simp) rfl
    split
    · exact h1
    · exact h1.submitBatch _
  · obtain ⟨q, hq, hm⟩ := h.registered.other_slot hf
    exact h.other (flushPending_touches h.registered.own f hm) hq hf

theorem flushPendingSends (h : Queued p fd w k) : Queued p fd (flushPendingSends w) k := by
  unfold HyperDerp.flushPendingSends
  have key : ∀ (fds : List Fd) (w : Worker), Queued p fd w k →
      Queued p fd (fds.foldl HyperDerp.flushPending w) k := by
    intro fds
    induction fds with
    | nil => exact fun w h => h
    | cons f fds ih => exact fun w h => ih _ (h.flushPending f)
  exact (key w.pendingFds w h).congr (q := p)
    ⟨fun _ _ => rfl, rfl, rfl, Nat.le_refl _, fun _ _ => rfl⟩ rfl rfl

theorem armPollWrite (h : Queued p fd w k) : Queued p fd (armPollWrite w p fd) k := by
  have ht : Touches p fd w (HyperDerp.armPollWrite w p fd) := armPollWrite_touches fd
  have hsq := prepSqe_sqes w.io (.pollOut fd)
  unfold HyperDerp.armPollWrite at ht ⊢
  dsimp only at ht ⊢
  split
  · exact h
  · next hpw =>
    rw [if_neg hpw] at ht
    rcases hp : prepSqe w.io (.pollOut fd) with ⟨ok, io⟩
    rw [hp] at hsq ht
    have hio : io.sends fd = w.io.sends fd := by
      cases ok <;> simp_all [Io.sends]
    cases ok with
    | false => exact h.congr ht rfl hio
    | true => exact h.congr ht (by simp) hio

theorem handlePollWrite (h : Queued p fd w k) (f : Fd) :
    Queued p fd (handlePollWrite w f) k := by
  by_cases hf : f = fd
  · subst hf
    unfold HyperDerp.handlePollWrite
    simp only [h.registered.valid, h.registered.mapped, ite_true]
    have h1 : Queued p f (w.setSend p { (w.ht p).send with pollWritePending := false }) k :=
      h.congr (Touches.setSend w _) (by simp) rfl
    split
    · exact (h1.submitBatch _).armPollWrite
    · exact h1.submitBatch _
  · obtain ⟨q, hq, hm⟩ := h.registered.other_slot hf
    exact h.other (handlePollWrite_touches h.registered.own f hm) hq hf

theorem drainSendQueue (h : Queued p fd w k) (hi : 0 < (w.ht p).send.inflight) (b : Bool) :
    Queued p fd (drainSendQueue w p b) (k + 1) := by
  obtain ⟨j, hc, hj⟩ := h.chain
  obtain ⟨hso, hsend, hni, hio⟩ := popSend_spec w p b (hc.queue_ne_nil hi)
  have hpos : 0 < ((popSend w p b).ht p).send.inflight := by
    rw [hsend]
    exact hi
  unfold HyperDerp.drainSendQueue
  simp only [hpos, ite_true]
  generalize popSend w p b = w1 at hso hsend hni hio hpos ⊢
  have h2 : Queued p fd (w1.setSend p { (w1.ht p).send with
      inflight := (w1.ht p).send.inflight - 1 }) (k + 1) := by
    have hsend2 : ((w1.setSend p { (w1.ht p).send with
        inflight := (w1.ht p).send.inflight - 1 }).ht p).send =
        { (w.ht p).send.pop with inflight := (w.ht p).send.inflight - 1 } := by
      rw [Worker.setSend_self, hsend]
      rfl
    constructor
    · exact h.registered.of_sendOnly (hso.trans (SendOnly.setSend p _ _))
    · rw [hsend2]
      refine ⟨j - 1, ?_, fun hz => ?_⟩
      · change SendState.Chain _ w1.nextItem _
        rw [hni]
        exact hc.pop hi
      · have hj' := hj hz
        simp only
        omega
    · have hq := h.queued
      have hle := hc.le
      have hin := hc.inflight_le
      rw [hsend2]
      simp only [SendState.pop, List.length_tail]
      split <;> omega
    · have hcap := h.cap
      rw [hsend2]
      simp only
      omega
    · have hout := h.outstanding
      rw [hsend2]
      change (w.ht p).send.inflight - 1 + ((k + 1 : ℕ) : ℤ) = (w1.io.sends fd).length
      rw [hio fd]
      omega
  split
  · next hn => exact h2.submitNext hn.2
  · exact h2

theorem sendRetry (h : Queued p fd w k) (hi : 0 < (w.ht p).send.inflight) :
    Queued p fd (sendRetry w p fd) (k + 1) := by
  obtain ⟨j, hc, hj⟩ := h.chain
  have hle := hc.le
  have hin := hc.inflight_le
  have hcap := h.cap
  have hout := h.outstanding
  obtain ⟨i, hi'⟩ : ∃ i : ℕ, (w.ht p).send.inflight - 1 = i :=
    ⟨((w.ht p).send.inflight - 1).toNat, by omega⟩
  unfold HyperDerp.sendRetry
  simp only [hi', Int.toNat_natCast, List.head?_drop]
  apply armPollWrite
  constructor
  · exact h.registered.of_sendOnly (SendOnly.setSend p w _)
  · rw [Worker.setSend_self]
    refine ⟨i, ?_, fun _ => rfl⟩
    exact hc.rewind (by omega) rfl rfl rfl rfl
  · rw [Worker.setSend_self]
    exact h.queued
  · rw [Worker.setSend_self]
    simp only
    omega
  · rw [Worker.setSend_self]
    change (i : ℤ) + ((k + 1 : ℕ) : ℤ) = (w.io.sends fd).length
    omega

theorem sendUnsupported (h : Queued p fd w k) (hi : 0 < (w.ht p).send.inflight) :
    Queued p fd (sendUnsupported w p) (k + 1) := by
  obtain ⟨j, hc, hj⟩ := h.chain
  have hcap := h.cap
  have hout := h.outstanding
  unfold HyperDerp.sendUnsupported
  dsimp only
  split
  · next hzero =>
    apply submitBatch
    constructor
    · exact h.registered.of_sendOnly (SendOnly.setSend p w _)
    · rw [Worker.setSend_self]
      refine ⟨0, ?_, fun _ => rfl⟩
      refine hc.rewind (Nat.zero_le _) rfl rfl ?_ rfl
      simp [List.head?_eq_getElem?]
    · rw [Worker.setSend_self]
      exact h.queued
    · rw [Worker.setSend_self]
      change (0 : ℤ) ≤ kMaxSendsInflight
      decide
    · rw [Worker.setSend_self]
      change (0 : ℤ) + ((k + 1 : ℕ) : ℤ) = (w.io.sends fd).length
      omega
  · constructor
    · exact h.registered.of_sendOnly (SendOnly.setSend p w _)
    · rw [Worker.setSend_self]
      refine ⟨j, ?_, fun hz => by cases hz⟩
      have hin := hc.inflight_le
      exact ⟨⟨hc.nodup, hc.fresh, hc.tail⟩, hc.next, hc.le, by simp only; omega,
        by simp only; omega⟩
    · rw [Worker.setSend_self]
      exact h.queued
    · rw [Worker.setSend_self]
      simp only
      omega
    · rw [Worker.setSend_self]
      change (w.ht p).send.inflight - 1 + ((k + 1 : ℕ) : ℤ) = (w.io.sends fd).length
      omega

theorem sendShort (h : Queued p fd w k) (hi : 0 < (w.ht p).send.inflight) (hok : ShortOk w p)
    {x : SendItem} {rest : List SendItem} (hx : (w.ht p).send.queue = x :: rest) (sent : ℕ)
    (b : Bool) : Queued p fd (sendShort w p fd sent x rest b) (k + 1) := by
  obtain ⟨j, hc, hj⟩ := h.chain
  obtain ⟨-, hht, hio, -⟩ := alloc_spec w p
  rcases sendShort_cases w p fd sent x rest b with
    ⟨-, heq⟩ | ⟨ha1, nm, ao, w1, hw1, ⟨ha2, -⟩ | ⟨-, heq⟩⟩
  · rw [heq]
    have h1 : Queued p fd w.alloc.2 k := h.congr (alloc_touches (q := p) w) (by rw [hht]) (by rw [hio])
    apply h1.drainSendQueue
    rw [hht]
    exact hi
  · rcases hok with hok | hok
    · rw [ha1] at hok
      cases hok
    · rw [ha2] at hok
      cases hok.1
  · have hget : (getSqe w.io).1 = true ∨ (w.ht p).send.zcDraining = true := by
      rcases hok with hok | hok
      · rw [ha1] at hok
        cases hok
      · exact hok.2
    obtain ⟨io, hres, -, hsends⟩ := resubmitRest_cases w1 p fd (x.data.drop sent)
    have hs1 : (w1.ht p).send = { (w.ht p).send with
        queue := rest, tail := if rest.isEmpty then none else (w.ht p).send.tail } := by
      rw [hw1]
      simp [Worker.setSend]
    have hio1 : w1.io = w.io := by rw [hw1]; rfl
    have hni1 : w1.nextItem = w.nextItem := by rw [hw1]; rfl
    have hso1 : SendOnly p w w1 := ⟨_, _, _, _, _, _, _, _, hw1⟩
    have hcap := h.cap
    have hout := h.outstanding
    have hin := hc.inflight_le
    rw [heq, hres]
    constructor
    · exact h.registered.of_sendOnly
        (hso1.trans ⟨_, io, w1.pendingFds, w1.notifMap, w1.allocOracle, w1.nextItem + 1,
          w1.sendPressure, w1.stats, rfl⟩)
    · change ∃ j, SendState.Chain ((w1.setSend p _).ht p).send (w1.nextItem + 1) j ∧ _
      rw [Worker.setSend_self, hs1, hni1, hio1]
      refine ⟨j, hc.replaceHead (by omega) hx rfl rfl rfl ?_ ?_, fun hz => ?_⟩
      · simp only
        split <;> omega
      · simp only
        split <;> omega
      · rcases hget with hg | hg
        · simp only [hg, ite_true]
          exact hj hz
        · change (w.ht p).send.zcDraining = false at hz
          rw [hg] at hz
          cases hz
    · have hq := h.queued
      rw [hx] at hq
      change ((w1.setSend p _).ht p).send.queued = ((w1.setSend p _).ht p).send.queue.length
      rw [Worker.setSend_self, hs1]
      exact hq
    · change ((w1.setSend p _).ht p).send.inflight ≤ _
      rw [Worker.setSend_self, hs1]
      simp only
      split <;> omega
    · change ((w1.setSend p _).ht p).send.inflight + ((k + 1 : ℕ) : ℤ) = (io.sends fd).length
      rw [Worker.setSend_self, hs1, hsends fd, hio1, hni1]
      simp only [and_true]
      split
      · simp only [List.length_append, List.length_cons, List.length_nil]
        omega
      · simp only [List.append_nil]
        omega

theorem sendShort_breaks (h : Queued p fd w k) (hi : 0 < (w.ht p).send.inflight)
    (hok : ¬ShortOk w p) {x : SendItem} {rest : List SendItem}
    (hx : (w.ht p).send.queue = x :: rest) (sent : ℕ) (b : Bool) :
    ¬((HyperDerp.sendShort w p fd sent x rest b).ht p).send.Rep := by
  obtain ⟨j, hc, hj⟩ := h.chain
  have hq := h.queued
  have hin := hc.inflight_le
  rw [hx, List.length_cons] at hq
  intro hrep
  rcases sendShort_cases w p fd sent x rest b with
    ⟨ha1, -⟩ | ⟨ha1, nm, ao, w1, hw1, ⟨-, heq⟩ | ⟨ha2, heq⟩⟩
  · exact hok (.inl ha1)
  · -- the node is gone and `send_queued` still counts it
    have hs1 : (w1.ht p).send.queue = rest ∧
        (w1.ht p).send.queued = (w.ht p).send.queued := by
      rw [hw1]
      simp [Worker.setSend]
    have hd : ((dropRest w1 p).ht p).send.queue = rest ∧
        ((dropRest w1 p).ht p).send.queued = (w.ht p).send.queued := by
      unfold dropRest
      dsimp only
      split
      · obtain ⟨w', hw', -, -, hcases⟩ := submitNext_cases
          { w1.setSend p { (w1.ht p).send with inflight := (w1.ht p).send.inflight - 1 } with
            stats := { w1.stats with slabExhausts := w1.stats.slabExhausts + 1 } } p
        rw [hw']
        rcases hcases with ⟨-, hsend, -⟩ | ⟨id, item, -, -, hsend, -⟩
        · rw [hsend]
          simpa [Worker.setSend] using hs1
        · rw [hsend]
          simpa [Worker.setSend] using hs1
      · simpa [Worker.setSend] using hs1
    rw [heq] at hrep
    have hr := hrep.queued
    rw [hd.1, hd.2] at hr
    omega
  · -- `send_next` is one node behind where the count says it is
    have hz : (w.ht p).send.zcDraining = false := by
      cases hz : (w.ht p).send.zcDraining with
      | false => rfl
      | true => exact absurd (.inr ⟨ha2, .inr hz⟩) hok
    have hg : (getSqe w.io).1 = false := by
      cases hg : (getSqe w.io).1 with
      | false => rfl
      | true => exact absurd (.inr ⟨ha2, .inl hg⟩) hok
    obtain ⟨io, hres, -, -⟩ := resubmitRest_cases w1 p fd (x.data.drop sent)
    have hio1 : w1.io = w.io := by rw [hw1]; rfl
    have hni1 : w1.nextItem = w.nextItem := by rw [hw1]; rfl
    have hs1 : (w1.ht p).send = { (w.ht p).send with
        queue := rest, tail := if rest.isEmpty then none else (w.ht p).send.tail } := by
      rw [hw1]
      simp [Worker.setSend]
    rw [heq, hres] at hrep
    change ((w1.setSend p _).ht p).send.Rep at hrep
    rw [Worker.setSend_self, hs1, hio1, hni1, hg] at hrep
    have hj' := hj hz
    obtain ⟨i, hi'⟩ : ∃ i : ℕ, (w.ht p).send.inflight - 1 = i :=
      ⟨((w.ht p).send.inflight - 1).toNat, by omega⟩
    simp only [Bool.false_eq_true, ite_false, hi'] at hrep
    let s' : SendState := { (w.ht p).send with
      queue := ⟨w.nextItem, x.data.drop sent⟩ :: rest
      tail := some ((if rest.isEmpty then none else (w.ht p).send.tail).getD w.nextItem)
      inflight := i }
    have hchain : s'.Chain _ _ := hc.replaceHead (by omega) hx rfl rfl rfl
      (by simp only [s']; omega) (by simp only [s']; omega)
    refine hchain.next_ne (i := i) (by omega) ?_
    have hn := hrep.next hz
    simp only [Int.toNat_natCast] at hn
    exact hn

theorem own_slot (h : Queued p fd w k) {f : Fd} {q : Slot} (hq : w.fdMap f = some q) :
    q = p ↔ f = fd := by
  constructor
  · rintro rfl
    exact (h.registered.own f q hq).symm.trans h.registered.fd_eq
  · rintro rfl
    exact Option.some.inj (hq.symm.trans h.registered.mapped)

theorem account (h : Queued p fd w k) (stats : WorkerStats) (pipe : List PipeMsg) :
    Queued p fd { w with stats := stats, pipe := pipe } k :=
  h.congr (q := p) ⟨fun _ _ => rfl, rfl, rfl, Nat.le_refl _, fun _ _ => rfl⟩ rfl rfl

theorem complete (h : Queued p fd w k) (hi : 0 < (w.ht p).send.inflight) {cqe : Cqe}
    (hfd : cqe.fd = fd) (hn : cqe.notif = false)
    (hok : ∀ item rest, Completes w cqe p → 0 ≤ cqe.res → (w.ht p).send.queue = item :: rest →
      cqe.res.toNat < item.data.length → ShortOk w p) :
    Queued p fd (handleSendCqe w cqe) (k + 1) := by
  subst hfd
  have hcase := handleSendCqe_case w cqe
  generalize handleSendCqe w cqe = w' at hcase ⊢
  cases hcase with
  | ignored nm hno => exact absurd ⟨hn, h.registered.valid, h.registered.mapped⟩ (hno p)
  | unsupported q hc _ =>
    obtain rfl := (h.own_slot hc.mapped).mpr rfl
    exact h.sendUnsupported hi
  | retry q stats hc _ =>
    obtain rfl := (h.own_slot hc.mapped).mpr rfl
    exact (h.account stats w.pipe).sendRetry hi
  | done q stats pipe hc =>
    obtain rfl := (h.own_slot hc.mapped).mpr rfl
    exact (h.account stats pipe).drainSendQueue hi _
  | short q stats item rest hc hres hq hlt =>
    obtain rfl := (h.own_slot hc.mapped).mpr rfl
    have hs := hok item rest hc hres hq hlt
    have hal := alloc_congr w { w with stats := stats } rfl
    have hal2 := alloc_congr w.alloc.2 ({ w with stats := stats } : Worker).alloc.2 hal.2
    refine (h.account stats w.pipe).sendShort hi ?_ hq _ _
    rcases hs with hs | ⟨hs, hg⟩
    · exact .inl (hal.1.trans hs)
    · exact .inr ⟨hal2.1.trans hs, hg⟩

theorem complete_other (h : Queued p fd w k) {cqe : Cqe}
    (hne : ¬(cqe.fd = fd ∧ cqe.notif = false)) : Queued p fd (handleSendCqe w cqe) k := by
  by_cases hf : cqe.fd = fd
  · have hcase := handleSendCqe_case w cqe
    have hno : ∀ q, ¬Completes w cqe q := fun q hc => hne ⟨hf, hc.notif⟩
    generalize handleSendCqe w cqe = w' at hcase ⊢
    cases hcase with
    | ignored nm _ =>
      exact h.congr (q := p) ⟨fun _ _ => rfl, rfl, rfl, Nat.le_refl _, fun _ _ => rfl⟩ rfl rfl
    | unsupported q hc _ => exact absurd hc (hno q)
    | retry q stats hc _ => exact absurd hc (hno q)
    | done q stats pipe hc => exact absurd hc (hno q)
    | short q stats item rest hc _ _ _ => exact absurd hc (hno q)
  · obtain ⟨q, hq, hm⟩ := h.registered.other_slot hf
    exact h.other (handleSendCqe_touches h.registered.own hm) hq hf

end Queued

/-! ### One step, and runs -/

section

variable {p : Slot} {fd : Fd} {s s' : QueueSys}

theorem QueueSys.Fresh.queued (h : s.Fresh p fd) : Queued p fd s.w s.handled := by
  obtain ⟨noZc, hs⟩ := h.send
  have hcap : (0 : ℤ) ≤ kMaxSendsInflight := by decide
  refine ⟨h.registered, ⟨0, .empty ?_ ?_ ?_ ?_, fun _ => ?_⟩, ?_, ?_, ?_⟩ <;> rw [hs]
  · rfl
  · rfl
  · exact hcap
  · rw [h.handled]
    simp

theorem QueueSys.step_queued (h : Queued p fd s.w s.handled) {l : QueueStep} (hok : s.stepOk p l)
    (hs : s.step p fd l = some s') : Queued p fd s'.w s'.handled := by
  cases l with
  | enqueue q data =>
    simp only [QueueSys.step] at hs
    split at hs
    · next hq =>
      cases hs
      by_cases hqp : q = p
      · subst hqp
        exact h.enqueueSend data
      · have hf : (s.w.ht q).fd ≠ fd := hq.resolve_left hqp
        exact h.other (enqueueSend_touches rfl data) hqp hf
    · cases hs
  | flush =>
    cases hs
    exact h.flushPendingSends
  | pollWrite f =>
    cases hs
    exact h.handlePollWrite f
  | complete cqe =>
    simp only [QueueSys.step] at hs
    split at hs
    · next hc =>
      split at hs
      · next hlt =>
        cases hs
        have hout := h.outstanding
        exact h.complete (by omega) hc.1 hc.2 hok
      · cases hs
    · next hc =>
      cases hs
      exact h.complete_other hc

theorem QueueSys.step_breaks (h : Queued p fd s.w s.handled) {l : QueueStep} (hok : ¬s.stepOk p l)
    (hs : s.step p fd l = some s') : ¬(s'.w.ht p).send.Rep := by
  cases l with
  | enqueue q data => exact absurd trivial hok
  | flush => exact absurd trivial hok
  | pollWrite f => exact absurd trivial hok
  | complete cqe =>
    simp only [QueueSys.stepOk, not_forall] at hok
    obtain ⟨item, rest, hc, hres, hq, hlt, hno⟩ := hok
    have hf : cqe.fd = fd := (h.own_slot hc.mapped).mp rfl
    subst hf
    simp only [QueueSys.step, hc.notif, and_self, ite_true] at hs
    split at hs
    · next hout =>
      cases hs
      have hinf := h.outstanding
      have hneg : ¬cqe.res < 0 := by omega
      simp only [handleSendCqe, hc.notif, hc.valid, hc.mapped, Bool.false_eq_true, ite_false,
        ite_true, hneg, hq, hlt]
      generalize hst : { s.w.stats with sendBytes := s.w.stats.sendBytes + cqe.res.toNat } = stats
      have hal := alloc_congr s.w { s.w with stats := stats } rfl
      have hal2 := alloc_congr s.w.alloc.2 ({ s.w with stats := stats } : Worker).alloc.2 hal.2
      refine (h.account stats s.w.pipe).sendShort_breaks (by simp only; omega) ?_ hq _ _
      rintro (hs | ⟨hs, hg⟩)
      · exact hno (.inl (hal.1.symm.trans hs))
      · exact hno (.inr ⟨hal2.1.symm.trans hs, hg⟩)
    · cases hs

/-- Along every run in which short writes end well, the pointers and counters of
the queue fit together; and from each state of such a run a step keeps them so
if and only if it meets the condition. -/
theorem send_queue_represented
    (h : Runs.Reach (QueueSys.Fresh p fd) (QueueSys.step p fd) (QueueSys.stepOk p) s) :
    (s.w.ht p).send.Rep ∧
      ∀ l s', s.step p fd l = some s' → ((s'.w.ht p).send.Rep ↔ s.stepOk p l) := by
  have hinv : Queued p fd s.w s.handled :=
    h.invariant (P := fun s => Queued p fd s.w s.handled) (fun _ h0 => h0.queued)
      fun _ _ _ hi hok hs => QueueSys.step_queued hi hok hs
  refine ⟨hinv.rep, fun l s' hs => ⟨fun hr => ?_, fun hok => ?_⟩⟩
  · by_contra hno
    exact QueueSys.step_breaks hinv hno hs hr
  · exact (QueueSys.step_queued hinv hok hs).rep

end

/-! ### A short write without a node for its remainder -/

def oneQueue : QueueSys where
  w := { oneSender.w with allocOracle := [true, true, true, false] }
  handled := 0

theorem oneQueue_fresh : oneQueue.Fresh 0 3 :=
  ⟨⟨rfl, rfl, oneSender_fresh.registered.own⟩, rfl, ⟨false, rfl⟩, rfl⟩

/-- Two frames in flight; one byte of the first is sent, its remainder gets a
buffer and no node. `send_queued` stays at 2 with one frame in the list. -/
theorem short_write_miscounts :
    ¬∀ s, Runs.Reach (QueueSys.Fresh 0 3) (QueueSys.step 0 3) Runs.Any s →
      (s.w.ht 0).send.Rep := by
  intro hall
  have hrun : ((Runs.run (QueueSys.step 0 3) oneQueue
      [.enqueue 0 [1, 2], .enqueue 0 [3], .flush, .complete ⟨3, 1, false, false⟩]).map
        fun s => ((s.w.ht 0).send.queued, (s.w.ht 0).send.queue.length)) = some (2, 1) := by
    decide
  obtain ⟨s, hs, heq⟩ := Option.map_eq_some_iff.mp hrun
  have hr := (hall s (Runs.reach_of_run oneQueue_fresh hs)).queued
  rw [show (s.w.ht 0).send.queued = 2 from congrArg Prod.fst heq,
    show (s.w.ht 0).send.queue.length = 1 from congrArg Prod.snd heq] at hr
  exact absurd hr (by decide)

/-- With a node for the remainder the same run ends well. -/
theorem short_write_counts :
    ∃ s, Runs.Reach (QueueSys.Fresh 0 3) (QueueSys.step 0 3) (QueueSys.stepOk 0) s ∧
      (s.w.ht 0).send.queued = 2 ∧ (s.w.ht 0).send.Rep := by
  have hinit : ({ oneQueue with w := oneSender.w } : QueueSys).Fresh 0 3 :=
    ⟨⟨rfl, rfl, oneSender_fresh.registered.own⟩, rfl, ⟨false, rfl⟩, rfl⟩
  have hrun : ((Runs.run (QueueSys.step 0 3) { oneQueue with w := oneSender.w }
      [.enqueue 0 [1, 2], .enqueue 0 [3], .flush, .complete ⟨3, 1, false, false⟩]).map
        fun s => (s.w.ht 0).send.queued) = some 2 := by
    decide
  obtain ⟨s, hs, heq⟩ := Option.map_eq_some_iff.mp hrun
  have hok : Runs.RunOk (QueueSys.step 0 3) (QueueSys.stepOk 0) { oneQueue with w := oneSender.w }
      [.enqueue 0 [1, 2], .enqueue 0 [3], .flush, .complete ⟨3, 1, false, false⟩] := by
    refine ⟨trivial, fun s1 h1 => ⟨trivial, fun s2 h2 => ⟨trivial, fun s3 h3 => ⟨?_, fun _ _ =>
      trivial⟩⟩⟩⟩
    cases h1
    cases h2
    cases h3
    intro item rest _ _ _ _
    exact .inr ⟨by decide, .inl (by decide)⟩
  have hr := Runs.reach_run (.start _ hinit) hok hs
  exact ⟨s, hr, heq, (send_queue_represented hr).1⟩

end HyperDerp
