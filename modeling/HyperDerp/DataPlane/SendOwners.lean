import HyperDerp.DataPlane.Loop

/-!
# Whose send a completion is for (`data_plane.cc:74-86`, `:1812-1995`, `:2040-2122`)

The user data of a send names a descriptor and no connection. `HandleSendCqe` takes the peer that
is registered under the descriptor when the completion arrives. A removal closes the descriptor
while sends may be in the kernel, and the kernel gives its number to the next connection. What
changes neither a send queue nor a table of peers is left out.
-/

namespace HyperDerp.SendOwners

/-- The workers, and what the user data leaves out: the connection in each slot and the connection
that each send was submitted for. -/
structure State where
  ctx : Ctx
  conn : ℕ → Slot → ℕ := fun _ _ => 0
  next : ℕ := 1
  /-- The sends on a descriptor of a worker that have no result yet. -/
  out : ℕ → Fd → List ℕ := fun _ _ => []
  /-- The zero-copy sends that have a result and no notification yet. -/
  notifs : ℕ → Fd → List ℕ := fun _ _ => []

inductive Label where
  /-- `EnqueueSend` for a live peer. -/
  | enqueue (v : ℕ) (q : Slot) (data : Bytes)
  /-- One turn of `FlushPendingSends`. -/
  | flush (v : ℕ) (fd : Fd)
  | pollWrite (v : ℕ) (fd : Fd)
  /-- The result of the `i`-th outstanding send on a descriptor. -/
  | complete (v : ℕ) (fd : Fd) (i : ℕ) (res : ℤ) (more : Bool)
  /-- The notification of the `i`-th zero-copy send. -/
  | notify (v : ℕ) (fd : Fd) (i : ℕ)
  | cmd (v : ℕ) (c : Cmd)

def newSends (w w' : Worker) (fd : Fd) : ℕ := (w'.io.sends fd).length - (w.io.sends fd).length

/-- Worker `v` goes on with the peer in slot `p`, if any: its sends are the connection's. -/
def State.goOn (s : State) (v : ℕ) (p : Option Slot) (ctx : Ctx) : State :=
  { s with
    ctx := ctx
    out := Function.update s.out v fun fd => s.out v fd ++
      List.replicate (newSends (s.ctx.workers v) (ctx.workers v) fd) (p.elim 0 (s.conn v)) }

def State.onWorker (s : State) (v : ℕ) (p : Option Slot) (f : Worker → Worker) : State :=
  s.goOn v p (s.ctx.onWorker v f)

/-- A new connection is in the slot that holds the key. -/
def connAfterAdd (s : State) (ctx : Ctx) (v : ℕ) (fd : Fd) (key : Key) : ℕ → Slot → ℕ :=
  match if validFd fd then htLookup (ctx.workers v) key else none with
  | some p => Function.update s.conn v (Function.update (s.conn v) p s.next)
  | none => s.conn

def step (s : State) : Label → Option State
  | .enqueue v q data =>
    if ((s.ctx.workers v).ht q).occupied = .live then
      some (s.onWorker v (some q) fun w => enqueueSend w q data)
    else none
  | .flush v fd =>
    some (s.onWorker v ((s.ctx.workers v).fdMap fd) fun w => flushPending w fd)
  | .pollWrite v fd =>
    some (s.onWorker v ((s.ctx.workers v).fdMap fd) fun w => handlePollWrite w fd)
  | .complete v fd i res more =>
    match (s.out v fd)[i]? with
    | none => none
    | some c =>
      let out := Function.update (s.out v) fd ((s.out v fd).eraseIdx i)
      let notifs := if more then Function.update (s.notifs v) fd (s.notifs v fd ++ [c])
        else s.notifs v
      some ({ s with
        out := Function.update s.out v out
        notifs := Function.update s.notifs v notifs }.onWorker v ((s.ctx.workers v).fdMap fd)
          fun w => handleSendCqe w { fd := fd, res := res, more := more })
  | .notify v fd i =>
    match (s.notifs v fd)[i]? with
    | none => none
    | some _ =>
      let notifs := Function.update (s.notifs v) fd ((s.notifs v fd).eraseIdx i)
      some { s with
        ctx := s.ctx.onWorker v fun w => handleSendCqe w { fd := fd, res := 0, notif := true }
        notifs := Function.update s.notifs v notifs }
  | .cmd v (.addPeer fd key protocol peerId) =>
    let ctx := processCmdAdd s.ctx v fd key protocol peerId
    some { s with ctx := ctx, conn := connAfterAdd s ctx v fd key, next := s.next + 1 }
  | .cmd v (.write key data) =>
    some (s.goOn v (htLookup (s.ctx.workers v) key) (processCmdWrite s.ctx v key data))
  | .cmd v c => some { s with ctx := (processCmd s.ctx v c).1 }

structure Init (s : State) : Prop where
  workers : ∀ v, s.ctx.workers v = {}
  out : ∀ v fd, s.out v fd = []

def SameSend (s s' : State) (u : ℕ) (q : Slot) : Prop :=
  ((s'.ctx.workers u).ht q).send = ((s.ctx.workers u).ht q).send

/-- What the kernel reports of a send concerns the connection that it was submitted for, and no
other one. -/
structure Isolated (s : State) : Prop where
  result : ∀ v fd i c res more s', (s.out v fd)[i]? = some c →
    step s (.complete v fd i res more) = some s' → ∀ u q, s.conn u q ≠ c → SameSend s s' u q
  notification : ∀ v fd i s', step s (.notify v fd i) = some s' → ∀ u q, SameSend s s' u q

/-- An add brings a descriptor that no other live peer of the worker has, and no send is
outstanding on it, nor on one that leads to the live peer with the key. -/
def Quiet (s : State) : Label → Prop
  | .cmd v (.addPeer fd key _ _) =>
    s.out v fd = [] ∧
      (∀ q, ((s.ctx.workers v).ht q).occupied = .live → ((s.ctx.workers v).ht q).fd = fd →
        htLookup (s.ctx.workers v) key = some q) ∧
      ∀ p f, htLookup (s.ctx.workers v) key = some p → (s.ctx.workers v).fdMap f = some p →
        s.out v f = []
  | _ => True

/-! ### Outstanding sends and the peers they lead to -/

/-- A descriptor with an outstanding send leads to the connection of the send or to none. -/
structure Owned (w : Worker) (conn : Slot → ℕ) (out : Fd → List ℕ) : Prop where
  table : TableOk w
  valid : ∀ p, (w.ht p).occupied = .live → validFd (w.ht p).fd = true
  reached : ∀ p, (w.ht p).occupied = .live → w.fdMap (w.ht p).fd = some p
  owner : ∀ fd c p, c ∈ out fd → w.fdMap fd = some p →
    (w.ht p).occupied = .live ∧ (w.ht p).fd = fd ∧ conn p = c
  dead : ∀ p, (w.ht p).occupied ≠ .live → (w.ht p).send.next = none

def Inv (s : State) : Prop := ∀ v, Owned (s.ctx.workers v) (s.conn v) (s.out v)

variable {w w' : Worker} {conn : Slot → ℕ} {out out' : Fd → List ℕ} {p : Slot} {fd : Fd}

theorem Owned.touched (h : Owned w conn out) (hl : (w.ht p).occupied = .live)
    (ht : Touches p (w.ht p).fd w w') (htable : TableOk w')
    (hout : ∀ f c, c ∈ out' f → c ∈ out f ∨ (f = (w.ht p).fd ∧ c = conn p)) :
    Owned w' conn out' := by
  have hocc (q : Slot) : (w'.ht q).occupied = (w.ht q).occupied := by
    by_cases hq : q = p
    · rw [hq, ht.self]
    · rw [ht.other q hq]
  refine ⟨htable, fun q hq => ?_, fun q hq => ?_, fun f c q hc hm => ?_, fun q hq => ?_⟩
  · rw [hocc] at hq
    rw [ht.fd_eq]
    exact h.valid q hq
  · rw [hocc] at hq
    rw [ht.fd_eq, ht.fdMap]
    exact h.reached q hq
  · rw [ht.fdMap] at hm
    rw [hocc, ht.fd_eq]
    rcases hout f c hc with hc | ⟨rfl, rfl⟩
    · exact h.owner f c q hc hm
    · obtain rfl : p = q := Option.some.inj ((h.reached p hl).symm.trans hm)
      exact ⟨hl, rfl, rfl⟩
  · rw [hocc] at hq
    have hne : q ≠ p := by
      intro heq
      subst heq
      exact hq hl
    rw [ht.other q hne]
    exact h.dead q hq

theorem Owned.same (h : Owned w conn out) (htable : TableOk w')
    (hocc : ∀ q, (w'.ht q).occupied = (w.ht q).occupied) (hfd : ∀ q, (w'.ht q).fd = (w.ht q).fd)
    (hmap : w'.fdMap = w.fdMap)
    (hnext : ∀ q, (w.ht q).occupied ≠ .live → (w'.ht q).send.next = (w.ht q).send.next)
    (hout : ∀ f c, c ∈ out' f → c ∈ out f) : Owned w' conn out' := by
  refine ⟨htable, fun q hq => ?_, fun q hq => ?_, fun f c q hc hm => ?_, fun q hq => ?_⟩
  · rw [hocc] at hq
    rw [hfd]
    exact h.valid q hq
  · rw [hocc] at hq
    rw [hfd, hmap]
    exact h.reached q hq
  · rw [hmap] at hm
    rw [hocc, hfd]
    exact h.owner f c q (hout f c hc) hm
  · rw [hocc] at hq
    rw [hnext q hq]
    exact h.dead q hq

theorem newSends_zero (h : w'.io.sends fd = w.io.sends fd) : newSends w w' fd = 0 := by
  simp [newSends, h]

/-- What a step of worker `w` to `w'` adds to the outstanding sends. -/
def sent (w w' : Worker) (out : Fd → List ℕ) (c : ℕ) (fd : Fd) : List ℕ :=
  out fd ++ List.replicate (newSends w w' fd) c

variable {c v : ℕ} {key : Key} {ctx : Ctx}

theorem mem_sent_touched (ht : Touches p fd w w') {f : Fd} (hc : c ∈ sent w w' out (conn p) f) :
    c ∈ out f ∨ (f = fd ∧ c = conn p) := by
  rcases List.mem_append.mp hc with hc | hc
  · exact .inl hc
  · obtain ⟨hn, rfl⟩ := List.mem_replicate.mp hc
    refine .inr ⟨?_, rfl⟩
    by_contra hf
    exact hn (newSends_zero (ht.sends f hf))

theorem mem_sent_same (hs : ∀ f, w'.io.sends f = w.io.sends f) {f : Fd} {d : ℕ}
    (hc : c ∈ sent w w' out d f) : c ∈ out f := by
  rcases List.mem_append.mp hc with hc | hc
  · exact hc
  · rw [newSends_zero (hs f)] at hc
    simp at hc

/-! ### The send path -/

theorem flushPending_own (hm : w.fdMap fd = some p) :
    Touches p (w.ht p).fd w (flushPending w fd) := by
  unfold flushPending
  split
  · exact .refl w
  · simp only [hm]
    have h1 : Touches p (w.ht p).fd w (w.setSend p { (w.ht p).send with pending := false }) :=
      .setSend w _
    split
    · exact h1
    · exact h1.trans (submitBatch_touches _ (h1.fd_eq p))

theorem handlePollWrite_own (hm : w.fdMap fd = some p) :
    Touches p (w.ht p).fd w (handlePollWrite w fd) := by
  unfold handlePollWrite
  split
  · exact .refl w
  · next q hq =>
    obtain rfl : q = p := by
      split at hq
      · exact Option.some.inj (hq.symm.trans hm)
      · cases hq
    have h1 : Touches q (w.ht q).fd w
        (w.setSend q { (w.ht q).send with pollWritePending := false }) := .setSend w _
    have h2 := h1.trans (submitBatch_touches kPollWriteBatch (h1.fd_eq q))
    dsimp only
    split
    · exact h2.trans (armPollWrite_touches fd)
    · exact h2

theorem submitBatch_none {n : ℕ} (hn : (w.ht p).send.next = none) : submitBatch n w p = w := by
  cases n with
  | zero => rfl
  | succ n => simp [submitBatch, hn]

theorem flushPending_idle (hm : ∀ q, w.fdMap fd = some q → (w.ht q).send.next = none) :
    flushPending w fd = w ∨ ∃ q s, s.next = (w.ht q).send.next ∧
      flushPending w fd = w.setSend q s := by
  unfold flushPending
  split
  · exact .inl rfl
  · split
    · exact .inl rfl
    · next q hq =>
      refine .inr ⟨q, { (w.ht q).send with pending := false }, rfl, ?_⟩
      simp [hm q hq]

theorem handlePollWrite_idle (hm : ∀ q, w.fdMap fd = some q → (w.ht q).send.next = none) :
    handlePollWrite w fd = w ∨ ∃ q s, s.next = (w.ht q).send.next ∧
      handlePollWrite w fd = w.setSend q s := by
  unfold handlePollWrite
  split
  · exact .inl rfl
  · next q hq =>
    have hn : (w.ht q).send.next = none := by
      split at hq
      · exact hm q hq
      · cases hq
    refine .inr ⟨q, { (w.ht q).send with pollWritePending := false }, rfl, ?_⟩
    have hnone : ((w.setSend q { (w.ht q).send with pollWritePending := false }).ht q).send.next =
        none := by
      rw [Worker.setSend_self]
      exact hn
    dsimp only
    rw [submitBatch_none hnone, if_neg]
    rw [hnone]
    simp

theorem Owned.setSend (h : Owned w conn out) {q : Slot} {s : SendState}
    (hn : s.next = (w.ht q).send.next) (htable : TableOk (w.setSend q s))
    (hout : ∀ f c, c ∈ out' f → c ∈ out f) : Owned (w.setSend q s) conn out' := by
  have hpeer := (SendOnly.setSend q w s).peer
  refine h.same htable (fun r => ?_) (fun r => ?_) rfl (fun r _ => ?_) hout
  · rw [(hpeer r).1]
  · rw [(hpeer r).1]
  · by_cases hr : r = q
    · rw [hr, Worker.setSend_self, hn]
    · rw [Worker.setSend_ne w s hr]

theorem Owned.kick (h : Owned w conn out) (htable : TableOk w')
    (hown : ∀ q, w.fdMap fd = some q → Touches q (w.ht q).fd w w')
    (hidle : (∀ q, w.fdMap fd = some q → (w.ht q).send.next = none) →
      w' = w ∨ ∃ q s, s.next = (w.ht q).send.next ∧ w' = w.setSend q s) :
    Owned w' conn (sent w w' out ((w.fdMap fd).elim 0 conn)) := by
  have hquiet (hno : ∀ q, w.fdMap fd = some q → (w.ht q).send.next = none) (c : ℕ) :
      Owned w' conn (sent w w' out c) := by
    rcases hidle hno with heq | ⟨q, s, hn, heq⟩
    · rw [heq]
      rw [heq] at htable
      exact h.same htable (fun _ => rfl) (fun _ => rfl) rfl (fun _ _ => rfl) fun f c hc =>
        mem_sent_same (fun _ => rfl) hc
    · rw [heq]
      rw [heq] at htable
      exact h.setSend hn htable fun f c hc => mem_sent_same (fun _ => rfl) hc
  cases hm : w.fdMap fd with
  | none => exact hquiet (by simp [hm]) _
  | some q =>
    by_cases hl : (w.ht q).occupied = .live
    · exact h.touched hl (hown q hm) htable fun f c hc => mem_sent_touched (hown q hm) hc
    · refine hquiet (fun r hr => ?_) _
      obtain rfl : q = r := Option.some.inj (hm.symm.trans hr)
      exact h.dead q hl

theorem handleSendCqe_nowhere (w : Worker) (cqe : Cqe)
    (hm : w.fdMap cqe.fd = none ∨ cqe.notif = true) :
    ∃ nm, handleSendCqe w cqe = { w with notifMap := nm } := by
  have hno (q : Slot) : ¬ Completes w cqe q := by
    intro hc
    rcases hm with hm | hn
    · rw [hc.mapped] at hm
      cases hm
    · rw [hc.notif] at hn
      cases hn
  have hcase := handleSendCqe_case w cqe
  generalize handleSendCqe w cqe = w' at hcase ⊢
  cases hcase with
  | ignored nm _ => exact ⟨nm, rfl⟩
  | unsupported q hq _ => exact absurd hq (hno q)
  | retry q stats hq _ => exact absurd hq (hno q)
  | done q stats pipe hq => exact absurd hq (hno q)
  | short q stats item rest hq _ _ _ => exact absurd hq (hno q)

theorem Owned.completion (h : Owned w conn out) {i : ℕ} (hc : (out fd)[i]? = some c)
    (hm : w.fdMap fd = some p) {cqe : Cqe} (hfd : cqe.fd = fd) :
    (w.ht p).occupied = .live ∧ (w.ht p).fd = fd ∧ conn p = c ∧
      Touches p fd w (handleSendCqe w cqe) := by
  obtain ⟨hl, hpfd, hconn⟩ := h.owner fd c p (List.mem_of_getElem? hc) hm
  refine ⟨hl, hpfd, hconn, ?_⟩
  subst hfd
  refine handleSendCqe_touches_at fun r hr => ?_
  obtain rfl : p = r := Option.some.inj (hm.symm.trans hr)
  exact ⟨rfl, hpfd⟩

theorem Owned.complete (h : Owned w conn out) {i : ℕ} (hc : (out fd)[i]? = some c) {cqe : Cqe}
    (hfd : cqe.fd = fd) :
    Owned (handleSendCqe w cqe) conn (sent w (handleSendCqe w cqe)
      (Function.update out fd ((out fd).eraseIdx i)) ((w.fdMap fd).elim 0 conn)) := by
  have htable : TableOk (handleSendCqe w cqe) := h.table.of_core (handleSendCqe_core w cqe)
  have herase {f : Fd} {d : ℕ} (hd : d ∈ Function.update out fd ((out fd).eraseIdx i) f) :
      d ∈ out f := by
    by_cases hf : f = fd
    · subst hf
      rw [Function.update_self] at hd
      exact List.mem_of_mem_eraseIdx hd
    · rwa [Function.update_of_ne hf] at hd
  cases hm : w.fdMap fd with
  | none =>
    obtain ⟨nm, heq⟩ := handleSendCqe_nowhere w cqe (.inl (by rw [hfd]; exact hm))
    rw [heq] at htable ⊢
    exact h.same htable (fun _ => rfl) (fun _ => rfl) rfl (fun _ _ => rfl) fun f d hd =>
      herase (mem_sent_same (fun _ => rfl) hd)
  | some q =>
    obtain ⟨hl, hqfd, -, ht⟩ := h.completion hc hm hfd
    rw [← hqfd] at ht
    refine h.touched hl ht htable fun f d hd => ?_
    exact (mem_sent_touched ht hd).imp_left herase

/-! ### Commands -/

theorem Owned.added (h : Owned w conn out) {protocol : PeerProtocol} {peerId : ℕ}
    (hs : AddedAt w p fd key protocol peerId w') (htable : TableOk w') (hv : validFd fd = true)
    (hf : htFind w key = some p) (hfree : out fd = [])
    (hfd : ∀ q, (w.ht q).occupied = .live → (w.ht q).fd = fd → htLookup w key = some q)
    (hold : ∀ q f, htLookup w key = some q → w.fdMap f = some q → out f = []) (c : ℕ) :
    Owned w' (Function.update conn p c) out := by
  obtain ⟨isUnix, ok, ao, routes, io, heq⟩ := hs.eq
  have hself : w'.ht p = addedPeer (w.ht p) fd key protocol peerId isUnix := by
    rw [heq]
    exact Function.update_self ..
  have hother : ∀ q, q ≠ p → w'.ht q = w.ht q := fun q hq => by
    rw [heq]
    exact Function.update_of_ne hq ..
  have hmap : w'.fdMap = Function.update w.fdMap fd (some p) := by rw [heq]
  have hfind {q : Slot} (hq : htLookup w key = some q) : q = p := by
    have hheld := h.table.lookup_iff.mp hq
    exact Option.some.inj
      ((LinearProbe.find_of_holds peerView keyHash h.table.inv hheld).symm.trans hf)
  refine ⟨htable, fun q hq => ?_, fun q hq => ?_, fun f d q hd hm => ?_, fun q hq => ?_⟩
  · by_cases he : q = p
    · rw [he, hself]
      exact hv
    · rw [hother q he] at hq ⊢
      exact h.valid q hq
  · by_cases he : q = p
    · have hqfd : (w'.ht q).fd = fd := by
        rw [he, hself]
        rfl
      rw [hmap, hqfd, Function.update_self, he]
    · rw [hother q he] at hq ⊢
      have hne : (w.ht q).fd ≠ fd := fun hqfd => he (hfind (hfd q hq hqfd))
      rw [hmap, Function.update_of_ne hne]
      exact h.reached q hq
  · have hne : f ≠ fd := by
      intro hff
      rw [hff, hfree] at hd
      simp at hd
    rw [hmap, Function.update_of_ne hne] at hm
    obtain ⟨hl, hqfd, hconn⟩ := h.owner f d q hd hm
    have he : q ≠ p := by
      intro he
      subst he
      -- a send is outstanding on a descriptor of the key's own slot
      have hkey : htLookup w key = some q := by
        rcases LinearProbe.find_some peerView keyHash hf with hheld | ⟨hdead, -⟩
        · exact h.table.lookup_iff.mpr hheld
        · exact absurd hl hdead
      rw [hold q f hkey hm] at hd
      simp at hd
    rw [hother q he, Function.update_of_ne he]
    exact ⟨hl, hqfd, hconn⟩
  · by_cases he : q = p
    · rw [he, hself] at hq
      exact absurd rfl hq
    · rw [hother q he] at hq ⊢
      exact h.dead q hq

theorem Owned.removed (h : Owned w conn out) (hs : RemovedAt w p w') (htable : TableOk w')
    (hl : (w.ht p).occupied = .live) : Owned w' conn out := by
  obtain ⟨peerCount, routes, io, heq⟩ := hs.eq
  have hself : w'.ht p = buriedPeer (w.ht p) := by
    rw [heq]
    exact Function.update_self ..
  have hother : ∀ q, q ≠ p → w'.ht q = w.ht q := fun q hq => by
    rw [heq]
    exact Function.update_of_ne hq ..
  have hmap : w'.fdMap = Function.update w.fdMap (w.ht p).fd none := by
    rw [heq]
    simp [fdMapAfterRemove, h.valid p hl]
  have hgone {q : Slot} (hq : (w'.ht q).occupied = .live) : q ≠ p := by
    intro he
    rw [he, hself] at hq
    cases hq
  refine ⟨htable, fun q hq => ?_, fun q hq => ?_, fun f d q hd hm => ?_, fun q hq => ?_⟩
  · have he := hgone hq
    rw [hother q he] at hq ⊢
    exact h.valid q hq
  · have he := hgone hq
    rw [hother q he] at hq ⊢
    have hne : (w.ht q).fd ≠ (w.ht p).fd := by
      intro hqp
      have hreach := h.reached q hq
      rw [hqp, h.reached p hl] at hreach
      exact he (Option.some.inj hreach).symm
    rw [hmap, Function.update_of_ne hne]
    exact h.reached q hq
  · have hne : f ≠ (w.ht p).fd := by
      intro hf
      rw [hmap, hf, Function.update_self] at hm
      cases hm
    rw [hmap, Function.update_of_ne hne] at hm
    obtain ⟨hlq, hqfd, hconn⟩ := h.owner f d q hd hm
    have he : q ≠ p := fun he => hne (he ▸ hqfd.symm)
    rw [hother q he]
    exact ⟨hlq, hqfd, hconn⟩
  · by_cases he : q = p
    · rw [he, hself]
      rfl
    · rw [hother q he] at hq ⊢
      exact h.dead q hq

theorem Owned.routes (h : Owned w conn out) (routes : Slot → Route) :
    Owned { w with routes := routes } conn out :=
  h.same (h.table.congr (fun _ => rfl) (fun _ => rfl) fun _ => rfl) (fun _ => rfl) (fun _ => rfl)
    rfl (fun _ _ => rfl) fun _ _ => id

/-! ### Steps -/

variable {s s' : State}

theorem inv_goOn {p : Option Slot}
    (hother : ∀ u, u ≠ v → Owned (ctx.workers u) (s.conn u) (s.out u))
    (hv : Owned (ctx.workers v) (s.conn v)
      (sent (s.ctx.workers v) (ctx.workers v) (s.out v) (p.elim 0 (s.conn v)))) :
    Inv (s.goOn v p ctx) := by
  intro u
  by_cases hu : u = v
  · subst hu
    simp only [State.goOn, Function.update_self]
    exact hv
  · simpa [State.goOn, hu] using hother u hu

theorem inv_onWorker {p : Option Slot} {f : Worker → Worker}
    (hother : ∀ u, u ≠ v → Owned (s.ctx.workers u) (s.conn u) (s.out u))
    (hv : Owned (f (s.ctx.workers v)) (s.conn v)
      (sent (s.ctx.workers v) (f (s.ctx.workers v)) (s.out v) (p.elim 0 (s.conn v)))) :
    Inv (s.onWorker v p f) := by
  refine inv_goOn (fun u hu => ?_) ?_
  · rw [Ctx.onWorker, Ctx.setWorker_ne _ _ hu]
    exact hother u hu
  · rw [Ctx.onWorker, Ctx.setWorker_self]
    exact hv

theorem Inv.commanded (h : Inv s) (hv : Owned (ctx.workers v) (s.conn v) (s.out v))
    (hother : ∀ u, u ≠ v → ∃ routes, ctx.workers u = { s.ctx.workers u with routes := routes }) :
    Inv { s with ctx := ctx } := by
  intro u
  by_cases hu : u = v
  · subst hu
    exact hv
  · obtain ⟨routes, hr⟩ := hother u hu
    dsimp only
    rw [hr]
    exact (h u).routes routes

theorem loopStep_table (h : Inv s) {l : LoopStep} (hs : loopStep s.ctx l = some ctx) (v : ℕ) :
    TableOk (ctx.workers v) :=
  loopStep_tableOk (fun u => (h u).table) hs v

theorem Inv.write (h : Inv s) (v : ℕ) (key : Key) (data : Bytes) :
    Inv (s.goOn v (htLookup (s.ctx.workers v) key) (processCmdWrite s.ctx v key data)) := by
  have htable := loopStep_table h (l := .cmd v (.write key data)) rfl
  simp only [processCmd, processCmdWrite] at htable ⊢
  cases hp : htLookup (s.ctx.workers v) key with
  | none =>
    refine inv_goOn (fun u _ => h u) ?_
    exact (h v).same (h v).table (fun _ => rfl) (fun _ => rfl) rfl (fun _ _ => rfl) fun f c hc =>
      mem_sent_same (fun _ => rfl) hc
  | some p =>
    simp only [hp] at htable
    have htable := htable v
    rw [Ctx.onWorker, Ctx.setWorker_self] at htable
    refine inv_onWorker (s := s) (p := some p) (f := fun w => allocEnqueue w p data)
      (fun u _ => h u) ?_
    have htouch : Touches p ((s.ctx.workers v).ht p).fd (s.ctx.workers v)
        (allocEnqueue (s.ctx.workers v) p data) := by
      have ha : Touches p ((s.ctx.workers v).ht p).fd (s.ctx.workers v)
          (s.ctx.workers v).alloc.2 := alloc_touches _
      unfold allocEnqueue
      split
      · next heq => rwa [heq] at ha
      · next heq =>
        rw [heq] at ha
        exact ha.trans (enqueueSend_touches (ha.fd_eq p) data)
    exact (h v).touched ((h v).table.lookup_iff.mp hp).1 htouch htable fun f c hc =>
      mem_sent_touched htouch hc

theorem connAfterAdd_ne {u : ℕ} (hu : u ≠ v) (fd : Fd) (key : Key) :
    connAfterAdd s ctx v fd key u = s.conn u := by
  unfold connAfterAdd
  generalize (if validFd fd then htLookup (ctx.workers v) key else none) = slot
  cases slot with
  | none => rfl
  | some p => exact Function.update_of_ne hu ..

theorem connAfterAdd_self (s : State) (ctx : Ctx) (v : ℕ) (fd : Fd) (key : Key) :
    connAfterAdd s ctx v fd key v = s.conn v ∨ ∃ p, htLookup (ctx.workers v) key = some p ∧
      connAfterAdd s ctx v fd key v = Function.update (s.conn v) p s.next := by
  unfold connAfterAdd
  cases hl : (if validFd fd then htLookup (ctx.workers v) key else none) with
  | none => exact .inl rfl
  | some p =>
    refine .inr ⟨p, ?_, Function.update_self ..⟩
    split at hl
    · exact hl
    · cases hl

theorem Inv.add (h : Inv s) {fd : Fd} {protocol : PeerProtocol} {peerId : ℕ}
    (hok : Quiet s (.cmd v (.addPeer fd key protocol peerId))) :
    Inv { s with
      ctx := processCmdAdd s.ctx v fd key protocol peerId
      conn := connAfterAdd s (processCmdAdd s.ctx v fd key protocol peerId) v fd key
      next := s.next + 1 } := by
  obtain ⟨hfree, hfd, hold⟩ := hok
  have htable : ∀ u, TableOk ((processCmdAdd s.ctx v fd key protocol peerId).workers u) :=
    loopStep_table h (l := .cmd v (.addPeer fd key protocol peerId)) rfl
  have hrecord := processCmdAdd_record (h v).table fd key protocol peerId
  generalize processCmdAdd s.ctx v fd key protocol peerId = ctx at htable hrecord ⊢
  rcases hrecord with ⟨ao, heq⟩ | ⟨p, hv, hf, hadd, hothers⟩
  · -- nothing is added; the slot of a live key counts as a new connection all the same
    intro u
    by_cases hu : u = v
    · subst hu
      have hw : ctx.workers u = { s.ctx.workers u with allocOracle := ao } := by
        rw [heq, Ctx.setWorker_self]
      have hsame : Owned (ctx.workers u) (s.conn u) (s.out u) := by
        rw [hw]
        exact (h u).same ((h u).table.congr (fun _ => rfl) (fun _ => rfl) fun _ => rfl)
          (fun _ => rfl) (fun _ => rfl) rfl (fun _ _ => rfl) fun _ _ => id
      dsimp only
      rcases connAfterAdd_self s ctx u fd key with hc | ⟨q, hq, hc⟩
      · rw [hc]
        exact hsame
      · rw [hc]
        rw [hw] at hq
        refine { hsame with owner := fun f c r hcr hm => ?_ }
        have hne : r ≠ q := by
          intro hr
          subst hr
          rw [hw] at hm
          rw [hold r f hq hm] at hcr
          simp at hcr
        rw [Function.update_of_ne hne]
        exact hsame.owner f c r hcr hm
    · dsimp only
      rw [connAfterAdd_ne hu, heq, Ctx.setWorker_ne _ _ hu]
      exact h u
  · intro u
    by_cases hu : u = v
    · subst hu
      have hadded := (h u).added hadd (htable u) hv hf hfree hfd hold s.next
      have hlook : htLookup (ctx.workers u) key = some p := by
        refine (htable u).lookup_iff.mpr ?_
        obtain ⟨isUnix, ok, ao, routes, io, heq⟩ := hadd.eq
        rw [heq]
        simp [addedPeer, freshPeer]
      have hconn : connAfterAdd s ctx u fd key u = Function.update (s.conn u) p s.next := by
        simp only [connAfterAdd, hv, ite_true, hlook, Function.update_self]
      dsimp only
      rw [hconn]
      exact hadded
    · obtain ⟨routes, hr⟩ := hothers u hu
      dsimp only
      rw [connAfterAdd_ne hu, hr]
      exact (h u).routes routes

theorem Inv.step (h : Inv s) {l : Label} (hok : Quiet s l) (hs : step s l = some s') : Inv s' := by
  cases l with
  | enqueue v q data =>
    simp only [SendOwners.step, Option.ite_none_right_eq_some, Option.some.injEq] at hs
    obtain ⟨hl, rfl⟩ := hs
    have htouch := enqueueSend_touches (q := q) (w := s.ctx.workers v) rfl data
    refine inv_onWorker (p := some q) (fun u _ => h u) ((h v).touched hl htouch ?_ fun f c hc =>
      mem_sent_touched htouch hc)
    exact (h v).table.of_core (enqueueSend_sendOnly _ q data).core
  | flush v fd =>
    cases hs
    exact inv_onWorker (fun u _ => h u)
      ((h v).kick ((h v).table.of_core (flushPending_core _ fd)) (fun q hq => flushPending_own hq)
        flushPending_idle)
  | pollWrite v fd =>
    cases hs
    exact inv_onWorker (fun u _ => h u)
      ((h v).kick ((h v).table.of_core (handlePollWrite_core _ fd))
        (fun q hq => handlePollWrite_own hq) handlePollWrite_idle)
  | complete v fd i res more =>
    simp only [SendOwners.step] at hs
    split at hs
    · cases hs
    · next c hc =>
      cases hs
      refine inv_onWorker (fun u hu => ?_) ?_
      · simpa [hu] using h u
      · simpa using (h v).complete hc rfl
  | notify v fd i =>
    simp only [SendOwners.step] at hs
    split at hs
    · cases hs
    · cases hs
      obtain ⟨nm, heq⟩ := handleSendCqe_nowhere (s.ctx.workers v)
        { fd := fd, res := 0, notif := true } (.inr rfl)
      intro u
      by_cases hu : u = v
      · subst hu
        simp only [Ctx.onWorker, Ctx.setWorker_self, heq]
        exact (h u).same ((h u).table.congr (fun _ => rfl) (fun _ => rfl) fun _ => rfl)
          (fun _ => rfl) (fun _ => rfl) rfl (fun _ _ => rfl) fun _ _ => id
      · simp only [Ctx.onWorker, Ctx.setWorker_ne _ _ hu]
        exact h u
  | cmd v c =>
    cases c with
    | addPeer fd key protocol peerId =>
      cases hs
      exact h.add hok
    | write key data =>
      cases hs
      exact h.write v key data
    | removePeer key =>
      have htable := loopStep_table h (l := .cmd v (.removePeer key)) rfl
      cases hs
      simp only [processCmd] at htable ⊢
      cases hp : htLookup (s.ctx.workers v) key with
      | none =>
        rw [processCmdRemove_none hp]
        exact h
      | some p =>
        obtain ⟨hrem, -, hothers⟩ := processCmdRemove_record hp
        exact h.commanded
          ((h v).removed hrem (htable v) ((h v).table.lookup_iff.mp hp).1) hothers
    | movePeerOut key =>
      have htable := loopStep_table h (l := .cmd v (.movePeerOut key)) rfl
      cases hs
      simp only [processCmd] at htable ⊢
      cases hp : htLookup (s.ctx.workers v) key with
      | none =>
        simp only [movePeerOut, hp]
        exact h
      | some p =>
        obtain ⟨hrem, hothers⟩ := movePeerOut_record hp
        exact h.commanded ((h v).removed hrem (htable v) ((h v).table.lookup_iff.mp hp).1)
          fun u hu => ⟨_, hothers u hu⟩
    | setFwdRule key dstKey =>
      have htable := loopStep_table h (l := .cmd v (.setFwdRule key dstKey)) rfl
      cases hs
      simp only [processCmd, setFwdRule] at htable ⊢
      split
      · exact h
      · next p hp =>
        simp only [hp] at htable
        split
        · exact h
        · next hfull =>
          rw [if_neg hfull] at htable
          obtain ⟨a, b, c, d, e, heq⟩ := addRule_same (s.ctx.workers v) p dstKey
          rw [heq] at htable ⊢
          refine h.commanded (v := v) ?_ fun u hu => ⟨_, Ctx.setWorker_ne _ _ hu⟩
          have hv := htable v
          rw [Ctx.setWorker_self] at hv ⊢
          refine (h v).same hv (fun q => ?_) (fun q => ?_) rfl (fun q _ => ?_) fun _ _ => id
          all_goals by_cases hq : q = p <;> simp [Worker.setPeer, hq]
    | stop =>
      cases hs
      refine h.commanded (v := v) ?_ fun u hu => ⟨_, Ctx.setWorker_ne _ _ hu⟩
      simp only [processCmd, Ctx.onWorker, Ctx.setWorker_self]
      exact (h v).same ((h v).table.congr (fun _ => rfl) (fun _ => rfl) fun _ => rfl)
        (fun _ => rfl) (fun _ => rfl) rfl (fun _ _ => rfl) fun _ _ => id

/-! ### Runs -/

theorem owned_init (conn : Slot → ℕ) : Owned {} conn fun _ => [] where
  table := tableOk_empty
  valid _ h := by cases h
  reached _ h := by cases h
  owner _ _ _ h := by simp at h
  dead _ _ := rfl

theorem inv_init (h : Init s) : Inv s := by
  intro v
  rw [h.workers v, funext (h.out v)]
  exact owned_init _

theorem Inv.isolated (h : Inv s) : Isolated s where
  result := by
    intro v fd i c res more s' hc hs u q hne
    simp only [SendOwners.step, hc, Option.some.injEq] at hs
    subst hs
    by_cases hu : u = v
    · subst hu
      simp only [SameSend, State.onWorker, State.goOn, Ctx.onWorker, Ctx.setWorker_self]
      cases hm : (s.ctx.workers u).fdMap fd with
      | none =>
        obtain ⟨nm, heq⟩ := handleSendCqe_nowhere (s.ctx.workers u)
          { fd := fd, res := res, more := more } (.inl hm)
        rw [heq]
      | some p =>
        obtain ⟨-, -, hconn, ht⟩ := (h u).completion hc hm
          (show ({ fd := fd, res := res, more := more } : Cqe).fd = fd from rfl)
        have hq : q ≠ p := by
          intro hq
          rw [hq] at hne
          exact hne hconn
        rw [ht.other q hq]
    · simp only [SameSend, State.onWorker, State.goOn, Ctx.onWorker, Ctx.setWorker_ne _ _ hu]
  notification := by
    intro v fd i s' hs u q
    simp only [SendOwners.step] at hs
    split at hs
    · cases hs
    · cases hs
      obtain ⟨nm, heq⟩ := handleSendCqe_nowhere (s.ctx.workers v)
        { fd := fd, res := 0, notif := true } (.inr rfl)
      by_cases hu : u = v
      · subst hu
        simp only [SameSend, Ctx.onWorker, Ctx.setWorker_self, heq]
      · simp only [SameSend, Ctx.onWorker, Ctx.setWorker_ne _ _ hu]

/-- Every interleaving in which a descriptor is used again only after its sends have completed. -/
theorem isolated_of_quiet (h : Runs.Reach Init step Quiet s) : Isolated s := by
  have hinv : Inv s := h.invariant (fun s h0 => inv_init h0)
    fun s s' l hinv hok hs => hinv.step hok hs
  exact hinv.isolated

/-! ### Two peers on one descriptor, one after the other -/

def fresh : State := { ctx := twoWorkers }

theorem fresh_init : Init fresh := ⟨fun _ => rfl, fun _ _ => rfl⟩

def comes (key : Key) : List Label :=
  [.cmd 0 (.addPeer 5 key .kDerp 0), .enqueue 0 (homeSlot key) [7], .flush 0 5]

def inTurn : List Label :=
  comes (byteKey 1) ++ [Label.cmd 0 (.removePeer (byteKey 1)), .complete 0 5 0 (-32) false]

theorem Inv.quiet_add (h : Inv s) {fd : Fd} (hout : s.out v fd = [])
    (hmap : (s.ctx.workers v).fdMap fd = none) (hlook : htLookup (s.ctx.workers v) key = none)
    (protocol : PeerProtocol) (peerId : ℕ) :
    Quiet s (.cmd v (.addPeer fd key protocol peerId)) := by
  refine ⟨hout, fun q hl hq => ?_, fun p f hp => ?_⟩
  · have hreach := (h v).reached q hl
    rw [hq, hmap] at hreach
    cases hreach
  · rw [hlook] at hp
    cases hp

theorem reach_comes (h : Runs.Reach Init step Quiet s) (hinv : Inv s) (hout : s.out 0 5 = [])
    (hmap : (s.ctx.workers 0).fdMap 5 = none) (hlook : htLookup (s.ctx.workers 0) key = none)
    {ls : List Label} (hls : ∀ l ∈ ls, ∀ s, Quiet s l)
    (hs : Runs.run step s (comes key ++ ls) = some s') :
    Runs.Reach Init step Quiet s' := by
  refine Runs.reach_run h (show Runs.RunOk step Quiet s (comes key ++ ls) from ?_) hs
  refine ⟨hinv.quiet_add hout hmap hlook .kDerp 0, fun s1 _ => ?_⟩
  refine Runs.runOk_of_forall (fun s l hl => ?_) s1
  rcases List.mem_cons.mp hl with rfl | hl
  · trivial
  · rcases List.mem_cons.mp hl with rfl | hl
    · trivial
    · exact hls l hl s

theorem isolated_in_turn : ∃ s, s.out 0 5 = [2] ∧ s.conn 0 (homeSlot (byteKey 2)) = 2 ∧
    Isolated s := by
  obtain ⟨s, hs, heq⟩ := Option.map_eq_some_iff.mp
    (show (Runs.run step fresh inTurn).map (fun s => (s.out 0 5, (s.ctx.workers 0).fdMap 5,
      htLookup (s.ctx.workers 0) (byteKey 2))) = some ([], none, none) by decide)
  obtain ⟨s', hs', heq'⟩ := Option.map_eq_some_iff.mp
    (show (Runs.run step fresh (inTurn ++ comes (byteKey 2))).map (fun s =>
      (s.out 0 5, s.conn 0 (homeSlot (byteKey 2)))) = some ([2], 2) by decide)
  simp only [Prod.mk.injEq] at heq heq'
  rw [Runs.run_append, hs, Option.bind_some] at hs'
  have h : Runs.Reach Init step Quiet s := by
    refine reach_comes (.start _ fresh_init) (inv_init fresh_init) rfl rfl (by decide) ?_ hs
    simp [Quiet]
  have hinv : Inv s := h.invariant (fun s h0 => inv_init h0)
    fun s s' l hinv hok hs => hinv.step hok hs
  refine ⟨s', heq'.1, heq'.2, isolated_of_quiet ?_⟩
  have hnil : Runs.run step s (comes (byteKey 2) ++ []) = some s' := hs'
  exact reach_comes h hinv heq.1 heq.2.1 heq.2.2 (by simp) hnil

/-- The send of the first peer completes when the second one has a send in flight. -/
theorem later_peer_hit : ∃ s, Runs.Reach Init step Runs.Any s ∧ s.out 0 5 = [1, 2] ∧
    s.conn 0 (homeSlot (byteKey 2)) = 2 ∧ ¬ Isolated s := by
  have hrun : (Runs.run step fresh (comes (byteKey 1) ++ [Label.cmd 0 (.removePeer (byteKey 1))] ++
      comes (byteKey 2))).map (fun s => (s.out 0 5, s.conn 0 (homeSlot (byteKey 2)),
        ((s.ctx.workers 0).ht (homeSlot (byteKey 2))).send.inflight,
        (step s (.complete 0 5 0 1 false)).map fun s' =>
          ((s'.ctx.workers 0).ht (homeSlot (byteKey 2))).send.inflight)) =
      some ([1, 2], 2, 1, some 0) := by decide
  obtain ⟨s, hs, heq⟩ := Option.map_eq_some_iff.mp hrun
  simp only [Prod.mk.injEq] at heq
  obtain ⟨hout, hconn, hbefore, hstep⟩ := heq
  obtain ⟨s', hs', hafter⟩ := Option.map_eq_some_iff.mp hstep
  refine ⟨s, Runs.reach_of_run fresh_init hs, hout, hconn, fun h => ?_⟩
  have hsame := h.result 0 5 0 1 1 false s' (by rw [hout]; rfl) hs' 0 (homeSlot (byteKey 2))
    (by rw [hconn]; decide)
  rw [SameSend] at hsame
  rw [hsame, hbefore] at hafter
  exact absurd hafter (by decide)

end HyperDerp.SendOwners
