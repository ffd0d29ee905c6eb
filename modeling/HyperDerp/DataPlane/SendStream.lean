import HyperDerp.DataPlane.SendQueue
import HyperDerp.Lib.Runs

/-!
# The byte stream of one peer

A system of one live peer's send queue and the kernel's side of its socket: the
sends submitted and not yet executed (`ring`), the results of executed sends
whose completions the worker has not handled (`done`), the bytes the socket has
accepted (`sock`) and the bytes of all frames that `EnqueueSend` took (`enq`).
The kernel executes and reports sends in submission order.

The order of bytes depends on what the kernel does after a send that came back
short or with a retryable error. Such a send *stalls* every send that is behind
it in the ring, and every send submitted before the worker has dealt with it,
except the remainder of a short write.
-/

namespace HyperDerp

inductive Retry where
  | eagain
  | enomem
  | eopnotsupp
  deriving DecidableEq

def Retry.errno : Retry → ℤ
  | .eagain => kEagain
  | .enomem => kEnomem
  | .eopnotsupp => kEopnotsupp

inductive Done where
  | full (n : ℕ)
  | short (n : ℕ)
  | again (r : Retry)
  deriving DecidableEq

namespace Done

def res : Done → ℤ
  | full n => n
  | short n => n
  | again r => -r.errno

def isFull : Done → Bool
  | full _ => true
  | _ => false

def isAgain : Done → Bool
  | again _ => true
  | _ => false

end Done

/-- A submitted send and whether it is stalled. -/
structure Pending where
  item : SendItem
  stalled : Bool

structure SendSys where
  w : Worker
  ring : List Pending := []
  done : List Done := []
  sock : Bytes := []
  enq : Bytes := []

/-- What the kernel makes of the oldest send in the ring. -/
inductive Outcome where
  | full
  | short (n : ℕ)
  | again (r : Retry)

inductive SendStep where
  | enqueue (data : Bytes)
  | flush
  | pollWrite
  | exec (o : Outcome)
  | complete (more : Bool)
  | notif

/-- A short or retryable result is still to be dealt with. -/
def stalling (done : List Done) (ring : List Pending) : Bool :=
  done.any (fun d => !d.isFull) || ring.any Pending.stalled

def newSends (fd : Fd) (w w' : Worker) : List SendItem :=
  (w'.io.sends fd).drop (w.io.sends fd).length

def stallAll (ring : List Pending) : List Pending := ring.map fun u => { u with stalled := true }

section System

variable (p : Slot) (fd : Fd)

/-- The worker has moved to `w'`; what it submitted joins the ring. -/
def SendSys.advance (s : SendSys) (w' : Worker) (stalled : Bool) : SendSys :=
  { s with w := w', ring := s.ring ++ (newSends fd s.w w').map fun x => ⟨x, stalled⟩ }

def SendSys.step (s : SendSys) : SendStep → Option SendSys
  | .enqueue data =>
    let w' := enqueueSend s.w p data
    some { s.advance fd w' (stalling s.done s.ring) with
      enq := if w'.stats.drops = s.w.stats.drops then s.enq ++ data else s.enq }
  | .flush => some (s.advance fd (flushPendingSends s.w) (stalling s.done s.ring))
  | .pollWrite => some (s.advance fd (handlePollWrite s.w fd) (stalling s.done s.ring))
  | .exec o =>
    match s.ring with
    | [] => none
    | u :: ring =>
      let behind := if u.stalled then ring else stallAll ring
      match o with
      | .full =>
        some { s with
          ring := ring, done := s.done ++ [.full u.item.data.length]
          sock := s.sock ++ u.item.data }
      | .short n =>
        if 0 < n ∧ n < u.item.data.length then
          some { s with
            ring := behind, done := s.done ++ [.short n], sock := s.sock ++ u.item.data.take n }
        else none
      | .again r => some { s with ring := behind, done := s.done ++ [.again r] }
  | .complete more =>
    match s.done with
    | [] => none
    | d :: done =>
      let stalled := match d with
        | .short _ => false
        | _ => stalling done s.ring
      some ({ s with done := done }.advance fd
        (handleSendCqe s.w ⟨fd, d.res, more, false⟩) stalled)
  | .notif => some (s.advance fd (handleSendCqe s.w ⟨fd, 0, false, true⟩) false)

/-- The fds of a worker and its peers agree, and `fd` belongs to slot `p`. -/
structure Registered (w : Worker) : Prop where
  valid : validFd fd = true
  mapped : w.fdMap fd = some p
  own : ∀ f q, w.fdMap f = some q → (w.ht q).fd = f

structure SendSys.Fresh (s : SendSys) : Prop where
  registered : Registered p fd s.w
  live : (s.w.ht p).occupied = .live
  queue : (s.w.ht p).send.queue = []
  tail : (s.w.ht p).send.tail = none
  next : (s.w.ht p).send.next = none
  inflight : (s.w.ht p).send.inflight = 0
  ring : s.ring = []
  done : s.done = []
  sock : s.sock = []
  enq : s.enq = []

/-- When the kernel and the allocator behave: a stalled send takes no bytes; the
remainder of a short write gets its buffer, its node and its submission entry;
and a send refused for want of zero-copy support is either the last one in
flight or not the last refused one. -/
def SendSys.stepOk (s : SendSys) : SendStep → Prop
  | .exec o => ∀ u, s.ring.head? = some u → u.stalled = true → ∃ r, o = .again r
  | .complete _ =>
    match s.done with
    | .short _ :: _ =>
      s.w.alloc.1 = true ∧ s.w.alloc.2.alloc.1 = true ∧ (getSqe s.w.io).1 = true
    | .again .eopnotsupp :: done =>
      (s.w.ht p).send.inflight = 1 ∨ done.any Done.isAgain = true ∨
        s.ring.any Pending.stalled = true
    | _ => True
  | _ => True

end System

/-! ### Positions in the linked list -/

variable {a : List SendItem} {x : SendItem} {ring : List Pending}

theorem nodeAt_append {b : List SendItem} (h : x.id ∉ a.map SendItem.id) :
    nodeAt (a ++ x :: b) x.id = some x := by
  induction a with
  | nil => simp [nodeAt]
  | cons y a ih =>
    simp only [List.map_cons, List.mem_cons, not_or] at h
    have hne : ¬y.id = x.id := fun h' => h.1 h'.symm
    have ih' := ih h.2
    simp only [nodeAt] at ih' ⊢
    simp only [List.cons_append, List.find?_cons, hne, decide_false]
    exact ih'

theorem nodeNext_append {b : List SendItem} (h : x.id ∉ a.map SendItem.id) :
    nodeNext (a ++ x :: b) x.id = b.head?.map SendItem.id := by
  induction a with
  | nil => simp [nodeNext]
  | cons y a ih =>
    simp only [List.map_cons, List.mem_cons, not_or] at h
    have hne : ¬y.id = x.id := fun h' => h.1 h'.symm
    simp only [List.cons_append, nodeNext, hne, ite_false]
    exact ih h.2

theorem linkAfter_append {item : SendItem} (h : x.id ∉ a.map SendItem.id) :
    linkAfter (a ++ [x]) x.id item = a ++ [x, item] := by
  induction a with
  | nil => simp [linkAfter]
  | cons y a ih =>
    simp only [List.map_cons, List.mem_cons, not_or] at h
    have hne : ¬y.id = x.id := fun h' => h.1 h'.symm
    simp only [List.cons_append, linkAfter, hne, ite_false, ih h.2]

theorem split_at {q : List SendItem} (hq : (q.map SendItem.id).Nodup) {i : ℕ}
    (hx : q[i]? = some x) :
    q = q.take i ++ x :: q.drop (i + 1) ∧ x.id ∉ (q.take i).map SendItem.id := by
  obtain ⟨hi, hget⟩ := List.getElem?_eq_some_iff.mp hx
  have hsplit : q = q.take i ++ x :: q.drop (i + 1) := by
    rw [← hget, List.cons_getElem_drop_succ, List.take_append_drop]
  refine ⟨hsplit, fun hmem => ?_⟩
  rw [hsplit, List.map_append, List.map_cons] at hq
  exact (List.disjoint_of_nodup_append hq) hmem (List.mem_cons_self ..)

theorem node_at_index {q : List SendItem} (hq : (q.map SendItem.id).Nodup) {i : ℕ}
    (hx : q[i]? = some x) :
    nodeAt q x.id = some x ∧ nodeNext q x.id = q[i + 1]?.map SendItem.id := by
  obtain ⟨hsplit, hnot⟩ := split_at hq hx
  have h1 : nodeAt (q.take i ++ x :: q.drop (i + 1)) x.id = some x := nodeAt_append hnot
  have h2 : nodeNext (q.take i ++ x :: q.drop (i + 1)) x.id = _ := nodeNext_append hnot
  rw [← hsplit] at h1 h2
  refine ⟨h1, ?_⟩
  rw [h2, List.head?_drop]

/-! ### Where the stream stands

`Flow q done clean rem`: the queue `q` accounts for the waiting results `done`
and the unstalled sends `clean`, and `rem` is what the socket has yet to accept.
Full results use up queue heads, a retryable result uses up nothing, and behind
a short result only retryable ones follow. -/

def bytesOf (q : List SendItem) : Bytes := (q.map SendItem.data).flatten

inductive Flow : List SendItem → List Done → List SendItem → Bytes → Prop
  | nil (q clean) : clean <+: q → Flow q [] clean (bytesOf q)
  | full (x q done clean rem) : Flow q done clean rem →
      Flow (x :: q) (.full x.data.length :: done) clean rem
  | again (r q done clean rem) : Flow q done clean rem → Flow q (.again r :: done) clean rem
  | short (x : SendItem) (n q done) : n < x.data.length →
      (∀ d ∈ done, d.isAgain = true) →
      Flow (x :: q) (.short n :: done) [] (x.data.drop n ++ bytesOf q)

namespace Flow

variable {q : List SendItem} {done : List Done} {clean : List SendItem} {rem : Bytes}

theorem of_again (hd : ∀ d ∈ done, d.isAgain = true) (hc : clean <+: q) :
    Flow q done clean (bytesOf q) := by
  induction done with
  | nil => exact .nil q clean hc
  | cons d done ih =>
    cases d with
    | again r => exact .again r q done clean _ (ih fun d h => hd d (List.mem_cons_of_mem _ h))
    | full n => exact absurd (hd (.full n) (List.mem_cons_self ..)) Bool.false_ne_true
    | short n => exact absurd (hd (.short n) (List.mem_cons_self ..)) Bool.false_ne_true

theorem push (h : Flow q done clean rem) (x : SendItem) :
    Flow (q ++ [x]) done clean (rem ++ x.data) := by
  induction h with
  | nil q clean hc =>
    have hb : bytesOf q ++ x.data = bytesOf (q ++ [x]) := by simp [bytesOf]
    rw [hb]
    exact .nil _ _ (hc.trans ⟨[x], rfl⟩)
  | full y q done clean rem _ ih => exact .full y _ done clean _ ih
  | again r q done clean rem _ ih => exact .again r _ done clean _ ih
  | short y n q done hn hd =>
    have hb : y.data.drop n ++ bytesOf q ++ x.data = y.data.drop n ++ bytesOf (q ++ [x]) := by
      simp [bytesOf]
    rw [hb]
    exact .short y n _ done hn hd

variable {x : SendItem}

theorem submit (h : Flow q done clean rem) (hd : ∀ d ∈ done, d.isFull = true)
    (hx : q[done.length + clean.length]? = some x) : Flow q done (clean ++ [x]) rem := by
  induction h with
  | nil q clean hc =>
    obtain ⟨t, rfl⟩ := hc
    refine .nil _ _ ?_
    cases t with
    | nil => simp at hx
    | cons y t =>
      have hy : y = x := by simpa using hx
      subst hy
      exact ⟨t, by simp⟩
  | full y q done clean rem _ ih =>
    refine .full y q done _ rem (ih (fun d h => hd d (List.mem_cons_of_mem _ h)) ?_)
    rw [List.length_cons, Nat.succ_add, List.getElem?_cons_succ] at hx
    exact hx
  | again r q done clean rem _ _ =>
    exact absurd (hd (.again r) (List.mem_cons_self ..)) Bool.false_ne_true
  | short y n q done _ _ => exact absurd (hd (.short n) (List.mem_cons_self ..)) Bool.false_ne_true

theorem execFull (h : Flow q done (x :: clean) rem) :
    ∃ rem', rem = x.data ++ rem' ∧ Flow q (done ++ [Done.full x.data.length]) clean rem' := by
  generalize hc : x :: clean = c at h
  induction h with
  | nil q c hp =>
    subst hc
    obtain ⟨t, rfl⟩ := hp
    exact ⟨bytesOf (clean ++ t), by simp [bytesOf],
      .full x _ [] clean _ (.nil _ _ ⟨t, rfl⟩)⟩
  | full y q done c rem _ ih =>
    obtain ⟨rem', h1, h2⟩ := ih hc
    exact ⟨rem', h1, .full y q _ clean rem' h2⟩
  | again r q done c rem _ ih =>
    obtain ⟨rem', h1, h2⟩ := ih hc
    exact ⟨rem', h1, .again r q _ clean rem' h2⟩
  | short => cases hc

theorem execShort (h : Flow q done (x :: clean) rem) {n : ℕ} (hn : n < x.data.length) :
    ∃ rem', rem = x.data.take n ++ rem' ∧ Flow q (done ++ [Done.short n]) [] rem' := by
  generalize hc : x :: clean = c at h
  induction h with
  | nil q c hp =>
    subst hc
    obtain ⟨t, rfl⟩ := hp
    refine ⟨x.data.drop n ++ bytesOf (clean ++ t), ?_, .short x n _ [] hn (by simp)⟩
    rw [← List.append_assoc, List.take_append_drop]
    simp [bytesOf]
  | full y q done c rem _ ih =>
    obtain ⟨rem', h1, h2⟩ := ih hc
    exact ⟨rem', h1, .full y q _ [] rem' h2⟩
  | again r q done c rem _ ih =>
    obtain ⟨rem', h1, h2⟩ := ih hc
    exact ⟨rem', h1, .again r q _ [] rem' h2⟩
  | short => cases hc

theorem execAgain (h : Flow q done clean rem) (r : Retry) {clean' : List SendItem}
    (hc : clean' <+: clean) : Flow q (done ++ [Done.again r]) clean' rem := by
  induction h with
  | nil q clean hp => exact .again r q [] clean' _ (.nil q clean' (hc.trans hp))
  | full y q done clean rem _ ih => exact .full y q _ clean' rem (ih hc)
  | again r' q done clean rem _ ih => exact .again r' q _ clean' rem (ih hc)
  | short y n q done hn hd =>
    obtain ⟨t, ht⟩ := hc
    obtain rfl := (List.append_eq_nil_iff.mp ht).1
    refine .short y n q _ hn fun d h => ?_
    rcases List.mem_append.mp h with h | h
    · exact hd d h
    · rw [List.mem_singleton.mp h]
      rfl

end Flow

/-! ### The invariant -/

def cleanOf (ring : List Pending) : List SendItem :=
  (ring.filter fun u => !u.stalled).map Pending.item

/-- Some waiting result is retryable, or some send is stalled. Until the last of
them has been handled `send_next` may point anywhere. -/
def retrying (done : List Done) (ring : List Pending) : Bool :=
  done.any Done.isAgain || ring.any Pending.stalled

structure Good (p : Slot) (fd : Fd) (w : Worker) (ring : List Pending) (done : List Done)
    (rem : Bytes) : Prop where
  registered : Registered p fd w
  nodup : ((w.ht p).send.queue.map SendItem.id).Nodup
  fresh : ∀ x ∈ (w.ht p).send.queue, x.id < w.nextItem
  tail : (w.ht p).send.tail = (w.ht p).send.queue.getLast?.map SendItem.id
  inflight : (w.ht p).send.inflight = ((done.length + ring.length : ℕ) : ℤ)
  flow : Flow (w.ht p).send.queue done (cleanOf ring) rem
  next : retrying done ring = false →
    (w.ht p).send.next = (w.ht p).send.queue[done.length + ring.length]?.map SendItem.id

theorem stalling_eq_false {done : List Done} (h : stalling done ring = false) :
    (∀ d ∈ done, d.isFull = true) ∧ (∀ u ∈ ring, u.stalled = false) := by
  simp only [stalling, Bool.or_eq_false_iff, List.any_eq_false] at h
  exact ⟨fun d hd => by simpa using h.1 d hd, fun u hu => by simpa using h.2 u hu⟩

theorem retrying_of_not_stalling {done : List Done} (h : stalling done ring = false) :
    retrying done ring = false := by
  obtain ⟨h1, h2⟩ := stalling_eq_false h
  simp only [retrying, Bool.or_eq_false_iff, List.any_eq_false]
  refine ⟨fun d hd => ?_, fun u hu => by simp [h2 u hu]⟩
  have hf := h1 d hd
  cases d with
  | full n => exact Bool.false_ne_true
  | short n => cases hf
  | again r => cases hf

theorem cleanOf_append (a b : List Pending) : cleanOf (a ++ b) = cleanOf a ++ cleanOf b := by
  simp [cleanOf]

theorem cleanOf_length (h : ∀ u ∈ ring, u.stalled = false) :
    (cleanOf ring).length = ring.length := by
  simp only [cleanOf, List.length_map]
  rw [List.filter_eq_self.mpr fun u hu => by simp [h u hu]]

/-- What a worker step has to establish: the sends it submitted, marked as
stalled while the stream is stalling, keep the invariant. -/
def Keeps (p : Slot) (fd : Fd) (w w' : Worker) (ring : List Pending) (done : List Done)
    (rem : Bytes) : Prop :=
  ∃ new, w'.io.sends fd = w.io.sends fd ++ new ∧
    Good p fd w' (ring ++ new.map fun x => ⟨x, stalling done ring⟩) done rem

section

variable {p : Slot} {fd : Fd} {w w' w'' : Worker} {ring : List Pending} {done : List Done}
  {rem : Bytes}

theorem Registered.fd_eq (h : Registered p fd w) : (w.ht p).fd = fd := h.own fd p h.mapped

theorem Registered.of_sendOnly {q : Slot} (h : Registered p fd w) (hs : SendOnly q w w') :
    Registered p fd w' := by
  have hpeer : ∀ a, (w'.ht a).fd = (w.ht a).fd := fun a => by rw [(hs.peer a).1]
  have hmap : w'.fdMap = w.fdMap := by
    obtain ⟨s, io, pf, nm, ao, ni, sp, st, rfl⟩ := hs
    rfl
  refine ⟨h.valid, by rw [hmap]; exact h.mapped, fun f a hf => ?_⟩
  rw [hmap] at hf
  rw [hpeer]
  exact h.own f a hf

theorem Good.congr {q : Slot} (h : Good p fd w ring done rem) (hs : SendOnly q w w')
    (hq : (w'.ht p).send.queue = (w.ht p).send.queue)
    (ht : (w'.ht p).send.tail = (w.ht p).send.tail) (hn : (w'.ht p).send.next = (w.ht p).send.next)
    (hi : (w'.ht p).send.inflight = (w.ht p).send.inflight) (hf : w.nextItem ≤ w'.nextItem) :
    Good p fd w' ring done rem where
  registered := h.registered.of_sendOnly hs
  nodup := by rw [hq]; exact h.nodup
  fresh x hx := by
    rw [hq] at hx
    exact Nat.lt_of_lt_of_le (h.fresh x hx) hf
  tail := by rw [hq, ht]; exact h.tail
  inflight := by rw [hi]; exact h.inflight
  flow := by rw [hq]; exact h.flow
  next hr := by rw [hq, hn]; exact h.next hr

theorem Keeps.refl (h : Good p fd w ring done rem) : Keeps p fd w w ring done rem :=
  ⟨[], by simp, by simpa using h⟩

theorem Keeps.of_good (h : Good p fd w' ring done rem) (hs : w'.io.sends fd = w.io.sends fd) :
    Keeps p fd w w' ring done rem :=
  ⟨[], by simp [hs], by simpa using h⟩

theorem stalling_append (done : List Done) (ring : List Pending) (new : List SendItem) :
    stalling done (ring ++ new.map fun x => ⟨x, stalling done ring⟩) = stalling done ring := by
  cases h : stalling done ring with
  | true =>
    unfold stalling at h ⊢
    rw [List.any_append, ← Bool.or_assoc, h, Bool.true_or]
  | false =>
    unfold stalling at h ⊢
    rw [List.any_append, ← Bool.or_assoc, h]
    simp

theorem Keeps.trans (h1 : Keeps p fd w w' ring done rem)
    (h2 : ∀ ring', stalling done ring' = stalling done ring → Good p fd w' ring' done rem →
      Keeps p fd w' w'' ring' done rem) : Keeps p fd w w'' ring done rem := by
  obtain ⟨new1, hs1, hg1⟩ := h1
  obtain ⟨new2, hs2, hg2⟩ := h2 _ (stalling_append done ring new1) hg1
  refine ⟨new1 ++ new2, by rw [hs2, hs1, List.append_assoc], ?_⟩
  rw [stalling_append] at hg2
  rwa [List.map_append, ← List.append_assoc]

/-! ### Submission from `send_next` -/

theorem submitNext_cases (w : Worker) (p : Slot) :
    ∃ w', (submitNext w p).2 = w' ∧ SendOnly p w w' ∧ w'.nextItem = w.nextItem ∧
      (((submitNext w p).1 = false ∧ (w'.ht p).send = (w.ht p).send ∧
          ∀ f, w'.io.sends f = w.io.sends f) ∨
        ∃ id item, (w.ht p).send.next = some id ∧ nodeAt (w.ht p).send.queue id = some item ∧
          (w'.ht p).send = { (w.ht p).send with
            next := nodeNext (w.ht p).send.queue id, inflight := (w.ht p).send.inflight + 1 } ∧
          ∀ f, w'.io.sends f = w.io.sends f ++ if (w.ht p).fd = f then [item] else []) := by
  refine ⟨_, rfl, submitNext_sendOnly w p, ?_⟩
  unfold submitNext
  dsimp only
  split
  · exact ⟨rfl, .inl ⟨rfl, rfl, fun _ => rfl⟩⟩
  · next id hid =>
    split
    · exact ⟨rfl, .inl ⟨rfl, rfl, fun _ => rfl⟩⟩
    · next item hitem =>
      obtain ⟨ok, io, heq, hsends⟩ :=
        submitPeerSend_cases w p item (nodeNext (w.ht p).send.queue id).isSome
      rw [heq]
      cases ok with
      | false =>
        refine ⟨rfl, .inl ⟨rfl, rfl, fun f => ?_⟩⟩
        simpa using hsends f
      | true =>
        refine ⟨rfl, .inr ⟨id, item, hid, hitem, by simp, fun f => ?_⟩⟩
        have hf : io.sends f = _ := hsends f
        simp only [true_and] at hf
        exact hf

theorem submitNext_keeps (h : Good p fd w ring done rem) :
    Keeps p fd w (submitNext w p).2 ring done rem := by
  obtain ⟨w', hw', hso, hni, ⟨-, hsend, hio⟩ | ⟨id, item, hid, hitem, hsend, hio⟩⟩ :=
    submitNext_cases w p
  · rw [hw']
    refine .of_good (h.congr hso ?_ ?_ ?_ ?_ (Nat.le_of_eq hni.symm)) (hio fd) <;> rw [hsend]
  · rw [hw']
    refine ⟨[item], by rw [hio fd, if_pos h.registered.fd_eq], ?_⟩
    have hq : (w'.ht p).send.queue = (w.ht p).send.queue := by rw [hsend]
    -- while nothing stalls, `send_next` is the node behind the ones in flight
    have hnext : retrying done ring = false →
        (w.ht p).send.queue[done.length + ring.length]? = some item ∧
        (w'.ht p).send.next =
          (w.ht p).send.queue[done.length + ring.length + 1]?.map SendItem.id := by
      intro hr
      have hn := h.next hr
      rw [hid] at hn
      cases hx : (w.ht p).send.queue[done.length + ring.length]? with
      | none => simp [hx] at hn
      | some x =>
        obtain ⟨h1, h2⟩ := node_at_index h.nodup hx
        have hidx : id = x.id := by simpa [hx] using hn
        rw [hidx, h1] at hitem
        refine ⟨by simpa using hitem, ?_⟩
        rw [hsend, ← h2, hidx]
    constructor
    · exact h.registered.of_sendOnly hso
    · rw [hq]; exact h.nodup
    · rw [hq, hni]; exact h.fresh
    · rw [hq, hsend]; exact h.tail
    · rw [hsend]
      simp only [h.inflight, List.map_cons, List.map_nil, List.length_append, List.length_cons,
        List.length_nil]
      omega
    · rw [hq, cleanOf_append]
      cases hst : stalling done ring with
      | true => simpa [cleanOf] using h.flow
      | false =>
        obtain ⟨hfull, hclean⟩ := stalling_eq_false hst
        have hx := (hnext (retrying_of_not_stalling hst)).1
        rw [← cleanOf_length hclean] at hx
        exact h.flow.submit hfull hx
    · intro hr
      simp only [retrying, List.any_append, List.map_cons, List.map_nil, List.any_cons,
        List.any_nil, Bool.or_false, ← Bool.or_assoc, Bool.or_eq_false_iff] at hr
      have hn := (hnext (by simpa [retrying] using hr.1)).2
      rw [hq, hn]
      simp only [List.map_cons, List.map_nil, List.length_append, List.length_cons,
        List.length_nil, Nat.add_assoc]

theorem submitBatch_keeps (n : ℕ) (h : Good p fd w ring done rem) :
    Keeps p fd w (submitBatch n w p) ring done rem := by
  induction n generalizing w ring with
  | zero => exact Keeps.refl h
  | succ n ih =>
    have hs := submitNext_keeps h
    simp only [submitBatch]
    split
    · split
      · next heq =>
        rw [heq] at hs
        exact hs.trans fun ring' _ hg => ih hg
      · next heq => rw [heq] at hs; exact hs
    · exact Keeps.refl h

/-! ### `EnqueueSend` -/

theorem Flow.length_le {q : List SendItem} {clean : List SendItem} (h : Flow q done clean rem)
    (hd : done.any Done.isAgain = false) :
    done.length + clean.length ≤ q.length := by
  induction h with
  | nil q clean hc => simpa using hc.length_le
  | full y q done clean rem _ ih =>
    have ih' := ih (by simpa [Done.isAgain] using hd)
    simp only [List.length_cons]
    omega
  | again r => simp [Done.isAgain] at hd
  | short y n q done _ ha =>
    cases done with
    | nil => simp
    | cons d done =>
      have h1 := ha d (List.mem_cons_self ..)
      have h2 := List.any_eq_false.mp hd d (by simp)
      exact absurd h1 h2

theorem Good.inflight_le (h : Good p fd w ring done rem) (hr : retrying done ring = false) :
    done.length + ring.length ≤ (w.ht p).send.queue.length := by
  simp only [retrying, Bool.or_eq_false_iff] at hr
  have hl := h.flow.length_le hr.1
  rwa [cleanOf_length fun u hu => by simpa using List.any_eq_false.mp hr.2 u hu] at hl

theorem push_queue {s : SendState} (hn : (s.queue.map SendItem.id).Nodup)
    (ht : s.tail = s.queue.getLast?.map SendItem.id) (item : SendItem) :
    (s.push item).queue = s.queue ++ [item] := by
  rcases List.eq_nil_or_concat s.queue with hq | ⟨a, x, hq⟩
  · have htail : s.tail = none := by simp [ht, hq]
    simp [SendState.push, htail, hq]
  · rw [List.concat_eq_append] at hq
    have htail : s.tail = some x.id := by simp [ht, hq]
    have hx : x.id ∉ a.map SendItem.id := by
      rw [hq, List.map_append] at hn
      exact fun hmem => List.disjoint_of_nodup_append hn hmem (by simp)
    simp only [SendState.push, htail, hq, linkAfter_append hx]
    simp

theorem pushItem_good (h : Good p fd w ring done rem) (data : Bytes) :
    Good p fd (pushItem w p data) ring done (rem ++ data) := by
  have hsend : ((pushItem w p data).ht p).send = (w.ht p).send.push ⟨w.nextItem, data⟩ := by
    simp [pushItem, Worker.setSend]
  have hq := push_queue h.nodup h.tail ⟨w.nextItem, data⟩
  constructor
  · exact h.registered.of_sendOnly (pushItem_sendOnly w p data)
  · rw [hsend, hq, List.map_append]
    refine List.Nodup.append h.nodup (by simp) ?_
    intro id hid hid'
    obtain ⟨x, hx, rfl⟩ := List.mem_map.mp hid
    have hlt := h.fresh x hx
    simp only [List.map_cons, List.map_nil, List.mem_singleton] at hid'
    omega
  · rw [hsend, hq]
    intro x hx
    change x.id < w.nextItem + 1
    rcases List.mem_append.mp hx with hx | hx
    · have hlt := h.fresh x hx
      omega
    · rw [List.mem_singleton.mp hx]
      exact Nat.lt_succ_self _
  · rw [hsend, hq]
    simp [SendState.push]
  · rw [hsend]
    exact h.inflight
  · rw [hsend, hq]
    exact h.flow.push _
  · intro hr
    have hn := h.next hr
    have hle := h.inflight_le hr
    rw [hsend, hq]
    simp only [SendState.push, hn]
    cases hx : (w.ht p).send.queue[done.length + ring.length]? with
    | some x =>
      rw [List.getElem?_append_left (List.getElem?_eq_some_iff.mp hx).1, hx]
      rfl
    | none =>
      have hge := List.getElem?_eq_none_iff.mp hx
      rw [List.getElem?_append_right hge, Nat.sub_eq_zero_of_le hle]
      rfl

theorem kickSend_keeps (h : Good p fd w ring done rem) :
    Keeps p fd w (kickSend w p) ring done rem := by
  have hso := kickSend_sendOnly w p
  unfold kickSend at hso ⊢
  dsimp only at hso ⊢
  split at hso
  · split at hso
    · next h1 h2 =>
      rw [if_pos h1, if_pos h2]
      exact .of_good (h.congr hso (by simp) (by simp) (by simp) (by simp) (Nat.le_refl _)) rfl
    · next h1 h2 =>
      rw [if_pos h1, if_neg h2]
      exact .of_good (h.congr hso (by simp) (by simp) (by simp) (by simp) (Nat.le_refl _)) rfl
  · next h1 =>
    rw [if_neg h1]
    split
    · exact submitNext_keeps h
    · exact Keeps.refl h

theorem pauseRecv_keeps (h : Good p fd w ring done rem) :
    Keeps p fd w (pauseRecv w) ring done rem := by
  have hso := pauseRecv_sendOnly w p
  unfold pauseRecv at hso ⊢
  split at hso
  · next h1 =>
    rw [if_pos h1]
    exact .of_good (h.congr hso rfl rfl rfl rfl (Nat.le_refl _)) rfl
  · next h1 =>
    rw [if_neg h1]
    exact Keeps.refl h

theorem alloc_good (h : Good p fd w ring done rem) : Good p fd w.alloc.2 ring done rem := by
  have hht := alloc_ht w
  have hni : w.alloc.2.nextItem = w.nextItem := by
    unfold Worker.alloc
    split <;> rfl
  exact h.congr (SendOnly.alloc p w) (by rw [hht]) (by rw [hht]) (by rw [hht]) (by rw [hht])
    (Nat.le_of_eq hni.symm)

theorem alloc_io (w : Worker) : w.alloc.2.io = w.io := by
  unfold Worker.alloc
  split <;> rfl

theorem Keeps.from_io {w0 : Worker} (h : Keeps p fd w w' ring done rem)
    (hio : w.io.sends fd = w0.io.sends fd) : Keeps p fd w0 w' ring done rem := by
  obtain ⟨new, hs, hg⟩ := h
  exact ⟨new, by rw [hs, hio], hg⟩

theorem enqueueSend_keeps (h : Good p fd w ring done rem) (data : Bytes) :
    Keeps p fd w (enqueueSend w p data) ring done
      (if (enqueueSend w p data).stats.drops = w.stats.drops then rem ++ data else rem) := by
  have hdrops := enqueueSend_queue w p data
  have ha := alloc_good h
  have hio := alloc_io w
  have hst : w.alloc.2.stats = w.stats := by
    unfold Worker.alloc
    split <;> rfl
  have hso := enqueueSend_sendOnly w p data
  unfold enqueueSend at hdrops hso ⊢
  split
  · next hfull =>
    rw [if_pos hfull] at hdrops hso
    have hne : w.stats.drops + 1 ≠ w.stats.drops := by omega
    have hcount : ({ w.stats with sendQueueDrops := w.stats.sendQueueDrops + 1 } :
        WorkerStats).drops = w.stats.drops + 1 := by
      simp only [WorkerStats.drops]
      omega
    simp only [hcount, hne, ite_false]
    exact .of_good (h.congr hso rfl rfl rfl rfl (Nat.le_refl _)) rfl
  · next hfull =>
    rcases hal : w.alloc with ⟨ok, w1⟩
    rw [hal] at ha hio hst
    cases ok with
    | false =>
      have hne : w.stats.drops + 1 ≠ w.stats.drops := by omega
      have hcount : ({ w1.stats with slabExhausts := w1.stats.slabExhausts + 1 } :
          WorkerStats).drops = w.stats.drops + 1 := by
        simp only at hst
        simp only [WorkerStats.drops, hst]
        omega
      simp only [hcount, hne, ite_false]
      exact .of_good (ha.congr (SendOnly.accounting p w1 _ _ _ _ _ _ _) rfl rfl rfl rfl
        (Nat.le_refl _)) (congrArg (fun io => Io.sends io fd) hio)
    | true =>
      simp only at ha hio hst
      have hd1 : (pauseRecv (kickSend (pushItem w1 p data) p)).stats.drops = w.stats.drops := by
        rw [(pauseRecv_queue _ p).2.2, (kickSend_queue _ p).2.2, ← hst]
        rfl
      simp only [hd1, ite_true]
      have hk : Keeps p fd w1 _ ring done (rem ++ data) :=
        ((kickSend_keeps (pushItem_good ha data)).trans fun _ _ hg => pauseRecv_keeps hg).from_io
          rfl
      exact hk.from_io (congrArg (fun io => Io.sends io fd) hio)

/-! ### `FlushPendingSends` and `HandlePollWrite` -/

theorem submitBatch_other (n : ℕ) (w : Worker) (f : Fd) {q : Slot} (hq : (w.ht q).fd ≠ f) :
    (submitBatch n w q).io.sends f = w.io.sends f ∧
      (submitBatch n w q).nextItem = w.nextItem := by
  induction n generalizing w with
  | zero => exact ⟨rfl, rfl⟩
  | succ n ih =>
    obtain ⟨w', hw', hso, hni, hcases⟩ := submitNext_cases w q
    have hio : w'.io.sends f = w.io.sends f := by
      rcases hcases with ⟨-, -, hio⟩ | ⟨id, item, -, -, -, hio⟩
      · exact hio f
      · rw [hio f, if_neg hq, List.append_nil]
    have hfd : (w'.ht q).fd ≠ f := by
      rw [(hso.peer q).1]
      exact hq
    simp only [submitBatch]
    split
    · split
      · next heq =>
        rw [heq] at hw'
        simp only at hw'
        rw [hw']
        exact ⟨(ih w' hfd).1.trans hio, (ih w' hfd).2.trans hni⟩
      · next heq =>
        rw [heq] at hw'
        simp only at hw'
        rw [hw']
        exact ⟨hio, hni⟩
    · exact ⟨rfl, rfl⟩

theorem flushPending_keeps (h : Good p fd w ring done rem) (f : Fd) :
    Keeps p fd w (flushPending w f) ring done rem := by
  unfold flushPending
  split
  · exact Keeps.refl h
  · split
    · exact Keeps.refl h
    · next q hq =>
      dsimp only
      by_cases hqp : q = p
      · subst hqp
        have h1 : Good q fd (w.setSend q { (w.ht q).send with pending := false }) ring done rem :=
          h.congr (SendOnly.setSend q w _) (by simp) (by simp) (by simp) (by simp) (Nat.le_refl _)
        split
        · exact .of_good h1 rfl
        · exact (submitBatch_keeps _ h1).from_io rfl
      · -- another peer's socket: nothing of this one changes
        have hne : (w.ht q).fd ≠ fd := by
          rw [h.registered.own f q hq]
          rintro rfl
          rw [h.registered.mapped] at hq
          exact hqp (Option.some.inj hq).symm
        have hpq : p ≠ q := fun h' => hqp h'.symm
        split
        · have hsame := w.setSend_ne { (w.ht q).send with pending := false } hpq
          exact .of_good (h.congr (SendOnly.setSend q w _) (by rw [hsame]) (by rw [hsame])
            (by rw [hsame]) (by rw [hsame]) (Nat.le_refl _)) rfl
        · have hso : SendOnly q w (submitBatch kPollWriteBatch
              (w.setSend q { (w.ht q).send with pending := false }) q) :=
            (SendOnly.setSend q w _).trans (submitBatch_sendOnly _ _ q)
          have hsame := (hso.peer p).2 hpq
          obtain ⟨hio, hni⟩ := submitBatch_other kPollWriteBatch
            (w.setSend q { (w.ht q).send with pending := false }) fd (by
              rw [((SendOnly.setSend q w _).peer q).1]
              exact hne)
          exact .of_good (h.congr hso (by rw [hsame]) (by rw [hsame]) (by rw [hsame])
            (by rw [hsame]) (Nat.le_of_eq hni.symm)) hio

theorem flushPendingSends_keeps (h : Good p fd w ring done rem) :
    Keeps p fd w (flushPendingSends w) ring done rem := by
  unfold flushPendingSends
  have key : ∀ (fds : List Fd) (w : Worker) (ring : List Pending), Good p fd w ring done rem →
      Keeps p fd w (fds.foldl flushPending w) ring done rem := by
    intro fds
    induction fds with
    | nil => exact fun w ring h => Keeps.refl h
    | cons f fds ih =>
      intro w ring h
      exact (flushPending_keeps h f).trans fun ring' _ hg => ih _ ring' hg
  refine (key w.pendingFds w ring h).trans fun ring' _ hg => ?_
  exact .of_good (hg.congr (SendOnly.accounting p _ _ _ _ _ _ _ _) rfl rfl rfl rfl
    (Nat.le_refl _)) rfl

theorem armPollWrite_good (h : Good p fd w ring done rem) :
    Good p fd (armPollWrite w p fd) ring done rem ∧
      (armPollWrite w p fd).io.sends fd = w.io.sends fd := by
  have hsq := prepSqe_sqes w.io (.pollOut fd)
  unfold armPollWrite
  dsimp only
  split
  · exact ⟨h, rfl⟩
  · rcases hp : prepSqe w.io (.pollOut fd) with ⟨ok, io⟩
    rw [hp] at hsq
    have hso : SendOnly p w { w with io := io } := IoOnly.sendOnly ⟨io, rfl⟩ p
    have hg : Good p fd { w with io := io } ring done rem :=
      h.congr hso rfl rfl rfl rfl (Nat.le_refl _)
    cases ok with
    | false => exact ⟨hg, by simp_all [Io.sends]⟩
    | true =>
      refine ⟨hg.congr (SendOnly.setSend p _ _) (by simp) (by simp) (by simp) (by simp)
        (Nat.le_refl _), ?_⟩
      simp only [ite_true] at hsq
      change io.sends fd = _
      simp [Io.sends, hsq]

theorem handlePollWrite_keeps (h : Good p fd w ring done rem) :
    Keeps p fd w (handlePollWrite w fd) ring done rem := by
  unfold handlePollWrite
  simp only [h.registered.valid, h.registered.mapped, ite_true]
  have h1 : Good p fd (w.setSend p { (w.ht p).send with pollWritePending := false })
      ring done rem :=
    h.congr (SendOnly.setSend p w _) (by simp) (by simp) (by simp) (by simp) (Nat.le_refl _)
  have h2 : Keeps p fd w _ ring done rem := (submitBatch_keeps kPollWriteBatch h1).from_io rfl
  split
  · exact h2.trans fun ring' _ hg =>
      .of_good (armPollWrite_good hg).1 (armPollWrite_good hg).2
  · exact h2

/-! ### Completions -/

theorem relieveRecv_io (w : Worker) : IoOnly w (relieveRecv w) := by
  unfold relieveRecv
  split
  · split
    · exact ⟨_, rfl⟩
    · split
      · exact resumeRecv_io w
      · exact IoOnly.refl w
  · exact IoOnly.refl w

theorem relieveRecv_sends (w : Worker) (f : Fd) : (relieveRecv w).io.sends f = w.io.sends f := by
  unfold relieveRecv
  split
  · split
    · rfl
    · split
      · exact drainDeferredRecvs_sends _ f
      · rfl
  · rfl

def SendState.pop (s : SendState) : SendState :=
  { s with
    queue := s.queue.tail
    tail := if s.queue.tail.isEmpty then none else s.tail
    next := if s.queue.tail.isEmpty then none else s.next
    queued := if 0 < s.queued then s.queued - 1 else s.queued }

theorem popSend_spec (w : Worker) (p : Slot) (b : Bool) (hq : (w.ht p).send.queue ≠ []) :
    SendOnly p w (popSend w p b) ∧ ((popSend w p b).ht p).send = (w.ht p).send.pop ∧
      (popSend w p b).nextItem = w.nextItem ∧
      ∀ f, (popSend w p b).io.sends f = w.io.sends f := by
  unfold popSend
  dsimp only
  split
  · next heq => exact absurd heq hq
  · next x rest heq =>
    have hs : { (w.ht p).send with
        queue := rest
        tail := if rest.isEmpty then none else (w.ht p).send.tail
        next := if rest.isEmpty then none else (w.ht p).send.next
        queued := if 0 < (w.ht p).send.queued then (w.ht p).send.queued - 1
          else (w.ht p).send.queued } = (w.ht p).send.pop := by
      simp only [SendState.pop, heq, List.tail_cons]
    rw [hs]
    have hpark : ∀ (w : Worker) (f : Fd), SendOnly p w (w.park f x b) ∧
        ((w.park f x b).ht p).send = (w.ht p).send ∧ (w.park f x b).nextItem = w.nextItem ∧
        (w.park f x b).io = w.io := by
      intro w f
      unfold Worker.park
      split
      · exact ⟨SendOnly.accounting p w _ _ _ _ _ _ _, rfl, rfl, rfl⟩
      · exact ⟨SendOnly.refl p w, rfl, rfl, rfl⟩
    obtain ⟨h1, h2, h3, h4⟩ := hpark (w.setSend p (w.ht p).send.pop) (w.ht p).fd
    generalize (w.setSend p (w.ht p).send.pop).park (w.ht p).fd x b = w1 at *
    generalize (if 0 < w1.sendPressure then w1.sendPressure - 1 else w1.sendPressure) = sp
    have hrel := relieveRecv_io { w1 with sendPressure := sp }
    refine ⟨?_, ?_, ?_, fun f => ?_⟩
    · exact ((SendOnly.setSend p w _).trans h1).trans
        ((SendOnly.accounting p w1 _ _ _ _ _ _ _).trans (hrel.sendOnly p))
    · obtain ⟨io, hio⟩ := hrel
      rw [hio]
      exact h2.trans (by simp)
    · obtain ⟨io, hio⟩ := hrel
      rw [hio]
      exact h3
    · rw [relieveRecv_sends]
      change w1.io.sends f = _
      rw [h4]
      rfl

variable {n : ℕ}

theorem pop_good (h : Good p fd w ring (.full n :: done) rem)
    (hso : SendOnly p w w') (hni : w'.nextItem = w.nextItem)
    (hs : (w'.ht p).send = { (w.ht p).send.pop with
      inflight := ((done.length + ring.length : ℕ) : ℤ) }) :
    Good p fd w' ring done rem := by
  have hflow := h.flow
  generalize hq : (w.ht p).send.queue = q at hflow
  cases hflow with
  | full x q _ _ _ hflow =>
    have hq' : (w'.ht p).send.queue = q := by rw [hs]; simp [SendState.pop, hq]
    have hnd := h.nodup
    rw [hq, List.map_cons] at hnd
    constructor
    · exact h.registered.of_sendOnly hso
    · rw [hq']
      exact (List.nodup_cons.mp hnd).2
    · rw [hq', hni]
      intro y hy
      exact h.fresh y (by rw [hq]; exact List.mem_cons_of_mem _ hy)
    · rw [hq', hs]
      simp only [SendState.pop, hq, List.tail_cons, h.tail]
      cases q with
      | nil => rfl
      | cons y q => simp
    · rw [hs]
    · rw [hq']
      exact hflow
    · intro hr
      have hn := h.next (by simpa [retrying, Done.isAgain] using hr)
      rw [hq', hs]
      simp only [SendState.pop, hq, List.tail_cons, hn, List.length_cons]
      cases q with
      | nil => rfl
      | cons y q =>
        rw [show done.length + 1 + ring.length = done.length + ring.length + 1 by omega]
        simp

theorem drainSendQueue_keeps (h : Good p fd w ring (.full n :: done) rem) (b : Bool) :
    Keeps p fd w (drainSendQueue w p b) ring done rem := by
  have hne : (w.ht p).send.queue ≠ [] := by
    intro hq
    have hflow := h.flow
    rw [hq] at hflow
    cases hflow
  obtain ⟨hso, hsend, hni, hio⟩ := popSend_spec w p b hne
  have hinf := h.inflight
  simp only [List.length_cons] at hinf
  have hpos : 0 < ((popSend w p b).ht p).send.inflight := by
    rw [hsend]
    change 0 < (w.ht p).send.inflight
    omega
  unfold drainSendQueue
  simp only [hpos, ite_true]
  generalize popSend w p b = w1 at *
  have h2 : Good p fd (w1.setSend p { (w1.ht p).send with
      inflight := (w1.ht p).send.inflight - 1 }) ring done rem := by
    refine pop_good h (hso.trans (SendOnly.setSend p _ _)) hni ?_
    rw [Worker.setSend_self, hsend]
    have hi : (w.ht p).send.pop.inflight - 1 = ((done.length + ring.length : ℕ) : ℤ) := by
      change (w.ht p).send.inflight - 1 = _
      omega
    rw [hi]
  split
  · exact (submitNext_keeps h2).from_io (hio fd)
  · exact .of_good h2 (hio fd)

theorem again_good {r : Retry} (h : Good p fd w ring (.again r :: done) rem)
    (hso : SendOnly p w w') (hni : w'.nextItem = w.nextItem)
    (hq : (w'.ht p).send.queue = (w.ht p).send.queue)
    (ht : (w'.ht p).send.tail = (w.ht p).send.tail)
    (hi : (w'.ht p).send.inflight = ((done.length + ring.length : ℕ) : ℤ))
    (hn : retrying done ring = false → (w'.ht p).send.next =
      (w.ht p).send.queue[done.length + ring.length]?.map SendItem.id) :
    Good p fd w' ring done rem where
  registered := h.registered.of_sendOnly hso
  nodup := by rw [hq]; exact h.nodup
  fresh := by rw [hq, hni]; exact h.fresh
  tail := by rw [hq, ht]; exact h.tail
  inflight := hi
  flow := by
    rw [hq]
    have hflow := h.flow
    generalize (w.ht p).send.queue = q at hflow
    cases hflow with
    | again _ _ _ _ _ hflow => exact hflow
  next hr := by rw [hq]; exact hn hr

theorem sendRetry_keeps {r : Retry} (h : Good p fd w ring (.again r :: done) rem) :
    Keeps p fd w (sendRetry w p fd) ring done rem := by
  have hinf := h.inflight
  simp only [List.length_cons] at hinf
  have hi : (w.ht p).send.inflight - 1 = ((done.length + ring.length : ℕ) : ℤ) := by omega
  have h1 : Good p fd (w.setSend p { (w.ht p).send with
      inflight := (w.ht p).send.inflight - 1
      next := ((w.ht p).send.queue.drop ((w.ht p).send.inflight - 1).toNat).head?.map
        SendItem.id }) ring done rem := by
    refine again_good h (SendOnly.setSend p _ _) rfl (by simp) (by simp) (by simp [hi]) ?_
    intro _
    rw [Worker.setSend_self, hi, Int.toNat_natCast, List.head?_drop]
  obtain ⟨h2, hio⟩ := armPollWrite_good h1
  exact .of_good h2 hio

theorem sendUnsupported_keeps {r : Retry} (h : Good p fd w ring (.again r :: done) rem)
    (hok : (w.ht p).send.inflight = 1 ∨ retrying done ring = true) :
    Keeps p fd w (sendUnsupported w p) ring done rem := by
  have hinf := h.inflight
  simp only [List.length_cons] at hinf
  unfold sendUnsupported
  dsimp only
  split
  · next hzero =>
    have hdone : done = [] := List.length_eq_zero_iff.mp (by omega)
    have hring : ring = [] := List.length_eq_zero_iff.mp (by omega)
    subst hdone hring
    refine (submitBatch_keeps _ (again_good h (SendOnly.setSend p _ _) rfl (by simp) (by simp)
      (by simp) ?_)).from_io rfl
    intro _
    rw [Worker.setSend_self]
    simp [List.head?_eq_getElem?]
  · next hzero =>
    have hr : retrying done ring = true := by
      rcases hok with hok | hok
      · omega
      · exact hok
    refine .of_good (again_good h (SendOnly.setSend p _ _) rfl (by simp) (by simp) ?_ ?_) rfl
    · rw [Worker.setSend_self]
      change (w.ht p).send.inflight - 1 = _
      omega
    · intro hf
      rw [hr] at hf
      cases hf

theorem short_good {x ni : SendItem} {rest : List SendItem}
    (h : Good p fd w ring (.short n :: done) rem) (hx : (w.ht p).send.queue = x :: rest)
    (hso : SendOnly p w w') (hid : ni.id = w.nextItem) (hni : w'.nextItem = w.nextItem + 1)
    (hdata : ni.data = x.data.drop n)
    (hq : (w'.ht p).send.queue = ni :: rest)
    (ht : (w'.ht p).send.tail =
      some (((if rest.isEmpty then none else (w.ht p).send.tail)).getD ni.id))
    (hn : (w'.ht p).send.next = (w.ht p).send.next)
    (hi : (w'.ht p).send.inflight = (w.ht p).send.inflight) :
    Good p fd w' (ring ++ [⟨ni, false⟩]) done rem := by
  have hflow := h.flow
  have hnd := h.nodup
  rw [hx] at hflow hnd
  rw [List.map_cons, List.nodup_cons] at hnd
  generalize hc : cleanOf ring = clean at hflow
  cases hflow with
  | short _ _ _ _ hlt hdone =>
    constructor
    · exact h.registered.of_sendOnly hso
    · rw [hq, List.map_cons, List.nodup_cons]
      refine ⟨fun hmem => ?_, hnd.2⟩
      obtain ⟨y, hy, hye⟩ := List.mem_map.mp hmem
      have hylt := h.fresh y (by rw [hx]; exact List.mem_cons_of_mem _ hy)
      omega
    · rw [hq, hni]
      intro y hy
      rcases List.mem_cons.mp hy with rfl | hy
      · omega
      · have hylt := h.fresh y (by rw [hx]; exact List.mem_cons_of_mem _ hy)
        omega
    · rw [hq, ht, h.tail, hx]
      cases rest with
      | nil => rfl
      | cons y rest =>
        obtain ⟨z, hz⟩ : ∃ z, (y :: rest).getLast? = some z :=
          Option.isSome_iff_exists.mp (by simp)
        simp [hz]
    · rw [hi, h.inflight]
      simp only [List.length_cons, List.length_append, List.length_nil]
      omega
    · rw [hq, cleanOf_append, hc]
      have hb : x.data.drop n ++ bytesOf rest = bytesOf (ni :: rest) := by
        simp [bytesOf, hdata]
      rw [hb]
      exact .of_again hdone ⟨rest, rfl⟩
    · intro hr
      have hr' : retrying (.short n :: done) ring = false := by
        simpa [retrying, Done.isAgain] using hr
      rw [hq, hn, h.next hr', hx]
      simp only [List.length_cons, List.length_append, List.length_nil]
      rw [show done.length + 1 + ring.length = done.length + ring.length + 1 by omega,
        show done.length + (ring.length + (0 + 1)) = done.length + ring.length + 1 by omega,
        List.getElem?_cons_succ, List.getElem?_cons_succ]

theorem submitSend_ok (w : Worker) (fd : Fd) (item : SendItem) (more zc : Bool) :
    (submitSend w fd item more zc).1 = (getSqe w.io).1 := by
  unfold submitSend prepSqe
  split
  · next heq => rw [heq]
  · next heq => rw [heq]

theorem alloc_spec (w : Worker) (p : Slot) :
    SendOnly p w w.alloc.2 ∧ w.alloc.2.ht = w.ht ∧ w.alloc.2.io = w.io ∧
      w.alloc.2.nextItem = w.nextItem := by
  refine ⟨SendOnly.alloc p w, alloc_ht w, alloc_io w, ?_⟩
  unfold Worker.alloc
  split <;> rfl

theorem alloc_congr (w w' : Worker) (h : w'.allocOracle = w.allocOracle) :
    w'.alloc.1 = w.alloc.1 ∧ w'.alloc.2.allocOracle = w.alloc.2.allocOracle := by
  have hl : ∀ a : Worker, a.alloc.1 = a.allocOracle.headD true ∧
      a.alloc.2.allocOracle = a.allocOracle.tail := by
    intro a
    unfold Worker.alloc
    split
    · next heq => simp [heq]
    · next heq => simp [heq]
  rw [(hl w').1, (hl w').2, (hl w).1, (hl w).2, h]
  exact ⟨rfl, rfl⟩

theorem unlinkHead_spec (w : Worker) (p : Slot) (fd : Fd) (x : SendItem) (rest : List SendItem)
    (b : Bool) :
    SendOnly p w (unlinkHead w p fd x rest b) ∧
      ((unlinkHead w p fd x rest b).ht p).send = { (w.ht p).send with
        queue := rest, tail := if rest.isEmpty then none else (w.ht p).send.tail } ∧
      (unlinkHead w p fd x rest b).io = w.io ∧
      (unlinkHead w p fd x rest b).nextItem = w.nextItem ∧
      (unlinkHead w p fd x rest b).allocOracle = w.allocOracle := by
  unfold unlinkHead Worker.park
  dsimp only
  split
  · exact ⟨(SendOnly.setSend p w _).trans (SendOnly.accounting p _ _ _ _ _ _ _ _),
      Worker.setSend_self w p _, rfl, rfl, rfl⟩
  · exact ⟨SendOnly.setSend p w _, Worker.setSend_self w p _, rfl, rfl, rfl⟩

theorem resubmitRest_cases (w : Worker) (p : Slot) (fd : Fd) (data : Bytes) :
    ∃ io, resubmitRest w p fd data = { w.setSend p { (w.ht p).send with
        queue := ⟨w.nextItem, data⟩ :: (w.ht p).send.queue
        tail := some ((w.ht p).send.tail.getD w.nextItem)
        inflight := if (getSqe w.io).1 then (w.ht p).send.inflight
          else (w.ht p).send.inflight - 1 } with
      nextItem := w.nextItem + 1, io := io } ∧
      w.io.SameFlow io ∧
      ∀ f, io.sends f = w.io.sends f ++
        if (getSqe w.io).1 ∧ fd = f then [⟨w.nextItem, data⟩] else [] := by
  have hflow := Io.SameFlow.prepSqe w.io (.send fd w.nextItem data false false)
  unfold resubmitRest
  dsimp only
  generalize hs' : { (w.ht p).send with
    queue := ⟨w.nextItem, data⟩ :: (w.ht p).send.queue
    tail := some ((w.ht p).send.tail.getD w.nextItem) } = s'
  have hok := submitSend_ok { w.setSend p s' with nextItem := w.nextItem + 1 } fd
    ⟨w.nextItem, data⟩ false false
  obtain ⟨ok, io, heq, hsends⟩ := submitSend_cases
    { w.setSend p s' with nextItem := w.nextItem + 1 } fd ⟨w.nextItem, data⟩ false false
  rw [heq] at hok ⊢
  have hok' : (getSqe w.io).1 = ok := hok.symm
  have hio : (prepSqe w.io (.send fd w.nextItem data false false)).2 = io :=
    congrArg (fun r => r.2.io) heq
  rw [hio] at hflow
  refine ⟨io, ?_, hflow, ?_⟩
  · rw [hok']
    subst hs'
    cases ok with
    | false => simp [Worker.setSend, Worker.setPeer]
    | true => simp
  · rw [hok']
    exact hsends

theorem resubmitRest_spec (w : Worker) (p : Slot) (fd : Fd) (data : Bytes)
    (hs : (getSqe w.io).1 = true) :
    SendOnly p w (resubmitRest w p fd data) ∧
      ((resubmitRest w p fd data).ht p).send = { (w.ht p).send with
        queue := ⟨w.nextItem, data⟩ :: (w.ht p).send.queue
        tail := some ((w.ht p).send.tail.getD w.nextItem) } ∧
      (resubmitRest w p fd data).nextItem = w.nextItem + 1 ∧
      (resubmitRest w p fd data).io.sends fd = w.io.sends fd ++ [⟨w.nextItem, data⟩] := by
  obtain ⟨io, heq, -, hsends⟩ := resubmitRest_cases w p fd data
  have hnew := hsends fd
  rw [if_pos ⟨hs, rfl⟩] at hnew
  rw [if_pos hs] at heq
  rw [heq]
  exact ⟨(SendOnly.setSend p w _).trans (SendOnly.accounting p _ _ _ _ _ _ _ _),
    Worker.setSend_self w p _, rfl, hnew⟩

theorem sendShort_good {x : SendItem} {rest : List SendItem}
    (h : Good p fd w ring (.short n :: done) rem) (hx : (w.ht p).send.queue = x :: rest)
    (ha1 : w.alloc.1 = true) (ha2 : w.alloc.2.alloc.1 = true) (hs : (getSqe w.io).1 = true)
    (b : Bool) :
    ∃ ni, (sendShort w p fd n x rest b).io.sends fd = w.io.sends fd ++ [ni] ∧
      Good p fd (sendShort w p fd n x rest b) (ring ++ [⟨ni, false⟩]) done rem := by
  obtain ⟨hso1, hht1, hio1, hni1⟩ := alloc_spec w p
  unfold sendShort
  rcases hal1 : w.alloc with ⟨ok, w1⟩
  rw [hal1] at ha1 ha2 hso1 hht1 hio1 hni1
  obtain rfl : ok = true := ha1
  simp only at ha2 hso1 hht1 hio1 hni1 ⊢
  obtain ⟨hso2, hsend2, hio2, hni2, hor2⟩ := unlinkHead_spec w1 p fd x rest b
  have ha3 := (alloc_congr _ _ hor2).1.trans ha2
  generalize unlinkHead w1 p fd x rest b = w2 at *
  obtain ⟨hso3, hht3, hio3, hni3⟩ := alloc_spec w2 p
  rcases hal2 : w2.alloc with ⟨ok, w3⟩
  rw [hal2] at ha3 hso3 hht3 hio3 hni3
  obtain rfl : ok = true := ha3
  simp only at hso3 hht3 hio3 hni3 ⊢
  have hio : w3.io = w.io := hio3.trans (hio2.trans hio1)
  have hni : w3.nextItem = w.nextItem := hni3.trans (hni2.trans hni1)
  rw [← hht3, hht1] at hsend2
  obtain ⟨hso4, hsend4, hni4, hnew⟩ := resubmitRest_spec w3 p fd (x.data.drop n) (by rw [hio]; exact hs)
  rw [hsend2] at hsend4
  refine ⟨_, by rw [hnew, hio], short_good h hx
    (((hso1.trans hso2).trans hso3).trans hso4) hni ?_ rfl ?_ ?_ ?_ ?_⟩
  · rw [hni4, hni]
  · rw [hsend4]
  · rw [hsend4]
  · rw [hsend4]
  · rw [hsend4]

end

/-! ### One step of the system -/

/-- The stream is in order: what the socket accepted, followed by what it has
yet to accept, is what was enqueued. -/
def SendSys.InOrder (p : Slot) (fd : Fd) (s : SendSys) : Prop :=
  ∃ rem, s.enq = s.sock ++ rem ∧ Good p fd s.w s.ring s.done rem

section

variable {p : Slot} {fd : Fd} {s s' : SendSys}

variable {done : List Done} {rem : Bytes} {ring : List Pending}

theorem Keeps.advance {w' : Worker} (h : Keeps p fd s.w w' s.ring done rem) :
    Good p fd w' (s.advance fd w' (stalling done s.ring)).ring done rem := by
  obtain ⟨new, hs, hg⟩ := h
  have hnew : newSends fd s.w w' = new := by
    rw [newSends, hs, List.drop_append_of_le_length (Nat.le_refl _), List.drop_length,
      List.nil_append]
  simp only [SendSys.advance, hnew]
  exact hg

theorem fresh_inOrder (h : s.Fresh p fd) : s.InOrder p fd := by
  refine ⟨[], by rw [h.enq, h.sock]; rfl, ?_⟩
  rw [h.ring, h.done]
  constructor
  · exact h.registered
  · rw [h.queue]; exact List.nodup_nil
  · rw [h.queue]; simp
  · rw [h.tail, h.queue]; rfl
  · rw [h.inflight]; rfl
  · rw [h.queue]; exact .nil [] [] ⟨[], rfl⟩
  · intro _
    rw [h.next, h.queue]
    rfl

theorem exec_inOrder (h : s.InOrder p fd) {o : Outcome} (hok : s.stepOk p (.exec o))
    (hstep : s.step p fd (.exec o) = some s') : s'.InOrder p fd := by
  obtain ⟨rem, henq, hg⟩ := h
  simp only [SendSys.step] at hstep
  split at hstep
  · cases hstep
  · next u ring hring =>
    rw [hring] at hg
    have hst := hok u (by rw [hring]; rfl)
    have hlen := hg.inflight
    simp only [List.length_cons] at hlen
    -- the queue is untouched, so the whole invariant follows from its stream part
    have keep : ∀ (d : Done) (ring' : List Pending) (rem' : Bytes), ring'.length = ring.length →
        Flow (s.w.ht p).send.queue (s.done ++ [d]) (cleanOf ring') rem' →
        (retrying (s.done ++ [d]) ring' = false → retrying s.done (u :: ring) = false) →
        Good p fd s.w ring' (s.done ++ [d]) rem' := by
      intro d ring' rem' hl hf hr
      refine ⟨hg.registered, hg.nodup, hg.fresh, hg.tail, ?_, hf, fun hr' => ?_⟩
      · simp only [List.length_append, List.length_cons, List.length_nil, hl]
        omega
      · rw [hg.next (hr hr')]
        simp only [List.length_append, List.length_cons, List.length_nil, hl]
        rw [show s.done.length + (ring.length + 1) = s.done.length + (0 + 1) + ring.length by omega]
    have hclean : u.stalled = false → cleanOf (u :: ring) = u.item :: cleanOf ring := by
      intro hu
      simp [cleanOf, hu]
    have hstalled : u.stalled = true → cleanOf (u :: ring) = cleanOf ring := by
      intro hu
      simp [cleanOf, hu]
    have hall : cleanOf (stallAll ring) = [] := by
      simp [cleanOf, stallAll]
    cases o with
    | full =>
      cases hstep
      have hu : u.stalled = false := by
        cases hc : u.stalled with
        | false => rfl
        | true =>
          obtain ⟨r, hr⟩ := hst hc
          cases hr
      have hf := hg.flow
      rw [hclean hu] at hf
      obtain ⟨rem', hrem, hf'⟩ := hf.execFull
      refine ⟨rem', by rw [henq, hrem, List.append_assoc], keep _ ring rem' rfl hf' ?_⟩
      intro hr
      simpa [retrying, Done.isAgain, hu] using hr
    | short n =>
      have hu : u.stalled = false := by
        cases hc : u.stalled with
        | false => rfl
        | true =>
          obtain ⟨r, hr⟩ := hst hc
          cases hr
      simp only [hu, Bool.false_eq_true, ite_false] at hstep
      split at hstep
      · next hn =>
        cases hstep
        have hf := hg.flow
        rw [hclean hu] at hf
        obtain ⟨rem', hrem, hf'⟩ := hf.execShort hn.2
        refine ⟨rem', by rw [henq, hrem, List.append_assoc], keep _ (stallAll ring) rem'
          (by simp [stallAll]) (by rw [hall]; exact hf') ?_⟩
        intro hr
        simp only [retrying, List.any_append, stallAll, List.any_map, Bool.or_eq_false_iff,
          List.any_eq_false] at hr ⊢
        refine ⟨hr.1.1, fun v hv => ?_⟩
        rcases List.mem_cons.mp hv with rfl | hv
        · simp [hu]
        · exact absurd rfl (hr.2 v hv)
      · cases hstep
    | again r =>
      cases hstep
      refine ⟨rem, henq, keep _ _ rem (by split <;> simp [stallAll]) ?_ ?_⟩
      · refine hg.flow.execAgain r ?_
        split
        · next hu => rw [hstalled hu]
        · rw [hall]
          exact ⟨_, rfl⟩
      · intro hr
        simp [retrying, Done.isAgain] at hr

theorem handleSendCqe_full {w : Worker} {n : ℕ} (h : Good p fd w ring (.full n :: done) rem)
    (more : Bool) :
    Keeps p fd w (handleSendCqe w ⟨fd, n, more, false⟩) ring done rem := by
  have hflow := h.flow
  have hg : Good p fd { w with stats := { w.stats with sendBytes := w.stats.sendBytes + n } }
      ring (.full n :: done) rem :=
    h.congr (SendOnly.accounting p w _ _ _ _ _ _ _) rfl rfl rfl rfl (Nat.le_refl _)
  have hk : Keeps p fd w _ ring done rem := (drainSendQueue_keeps hg more).from_io rfl
  generalize hq : (w.ht p).send.queue = q at hflow
  cases hflow with
  | full x rest _ _ _ _ =>
    have hneg : ¬((x.data.length : ℕ) : ℤ) < 0 := by omega
    simp only [handleSendCqe, h.registered.valid, h.registered.mapped, ite_true, hneg,
      Bool.false_eq_true, ite_false, Int.toNat_natCast, hq, Nat.lt_irrefl]
    exact hk

theorem handleSendCqe_short {w : Worker} {n : ℕ} (h : Good p fd w ring (.short n :: done) rem)
    (more : Bool) (ha1 : w.alloc.1 = true) (ha2 : w.alloc.2.alloc.1 = true)
    (hs : (getSqe w.io).1 = true) :
    ∃ ni, (handleSendCqe w ⟨fd, n, more, false⟩).io.sends fd = w.io.sends fd ++ [ni] ∧
      Good p fd (handleSendCqe w ⟨fd, n, more, false⟩) (ring ++ [⟨ni, false⟩]) done rem := by
  have hflow := h.flow
  generalize hst : { w.stats with sendBytes := w.stats.sendBytes + n } = st
  have hg : Good p fd { w with stats := st } ring (.short n :: done) rem :=
    h.congr (SendOnly.accounting p w _ _ _ _ _ _ _) rfl rfl rfl rfl (Nat.le_refl _)
  obtain ⟨hc1, hc2⟩ := alloc_congr w { w with stats := st } rfl
  have ha1' := hc1.trans ha1
  have ha2' := (alloc_congr _ _ hc2).1.trans ha2
  generalize hq : (w.ht p).send.queue = q at hflow
  generalize cleanOf ring = clean at hflow
  cases hflow with
  | short x _ rest _ hlt _ =>
    have hneg : ¬((n : ℕ) : ℤ) < 0 := by omega
    simp only [handleSendCqe, h.registered.valid, h.registered.mapped, ite_true, hneg,
      Bool.false_eq_true, ite_false, Int.toNat_natCast, hq, hlt, hst]
    exact sendShort_good hg hq ha1' ha2' hs more

theorem handleSendCqe_again {w : Worker} {r : Retry} (h : Good p fd w ring (.again r :: done) rem)
    (more : Bool) (hok : r = .eopnotsupp → (w.ht p).send.inflight = 1 ∨ retrying done ring = true) :
    Keeps p fd w (handleSendCqe w ⟨fd, -r.errno, more, false⟩) ring done rem := by
  simp only [handleSendCqe, h.registered.valid, h.registered.mapped, ite_true,
    Bool.false_eq_true, ite_false]
  cases r with
  | eopnotsupp => exact sendUnsupported_keeps h (hok rfl)
  | enomem => exact sendRetry_keeps h
  | eagain =>
    have hg : Good p fd
        { w with stats := { w.stats with sendEagain := w.stats.sendEagain + 1 } } ring
        (.again .eagain :: done) rem :=
      h.congr (SendOnly.accounting p w _ _ _ _ _ _ _) rfl rfl rfl rfl (Nat.le_refl _)
    exact (sendRetry_keeps hg).from_io rfl

theorem complete_inOrder (h : s.InOrder p fd) {more : Bool} (hok : s.stepOk p (.complete more))
    (hstep : s.step p fd (.complete more) = some s') : s'.InOrder p fd := by
  obtain ⟨rem, henq, hg⟩ := h
  simp only [SendSys.step] at hstep
  cases hdone : s.done with
  | nil =>
    rw [hdone] at hstep
    cases hstep
  | cons d done =>
    simp only [SendSys.stepOk, hdone] at hok
    rw [hdone] at hg hstep
    cases hstep
    cases d with
    | full n => exact ⟨rem, henq, (handleSendCqe_full hg more).advance⟩
    | short n =>
      obtain ⟨ni, hs, hg'⟩ := handleSendCqe_short hg more hok.1 hok.2.1 hok.2.2
      have hnew : newSends fd s.w (handleSendCqe s.w ⟨fd, n, more, false⟩) = [ni] := by
        rw [newSends, hs, List.drop_append_of_le_length (Nat.le_refl _), List.drop_length,
          List.nil_append]
      refine ⟨rem, henq, ?_⟩
      simp only [SendSys.advance, Done.res, hnew]
      exact hg'
    | again r =>
      refine ⟨rem, henq, (handleSendCqe_again hg more fun hr => ?_).advance⟩
      subst hr
      simpa [retrying] using hok

theorem step_inOrder (h : s.InOrder p fd) {l : SendStep} (hok : s.stepOk p l)
    (hstep : s.step p fd l = some s') : s'.InOrder p fd := by
  cases l with
  | enqueue data =>
    obtain ⟨rem, henq, hg⟩ := h
    cases hstep
    refine ⟨_, ?_, (enqueueSend_keeps hg data).advance⟩
    simp only [SendSys.advance]
    split
    · rw [henq, List.append_assoc]
    · exact henq
  | flush =>
    obtain ⟨rem, henq, hg⟩ := h
    cases hstep
    exact ⟨rem, henq, (flushPendingSends_keeps hg).advance⟩
  | pollWrite =>
    obtain ⟨rem, henq, hg⟩ := h
    cases hstep
    exact ⟨rem, henq, (handlePollWrite_keeps hg).advance⟩
  | exec o => exact exec_inOrder h hok hstep
  | complete more => exact complete_inOrder h hok hstep
  | notif =>
    obtain ⟨rem, henq, hg⟩ := h
    cases hstep
    have hw : handleSendCqe s.w ⟨fd, 0, false, true⟩ =
        { s.w with notifMap := Function.update s.w.notifMap fd (s.w.notifMap fd).tail } := by
      simp only [handleSendCqe, hg.registered.valid, ite_true]
    refine ⟨rem, henq, ?_⟩
    rw [hw]
    have hnew : ∀ nm, newSends fd s.w { s.w with notifMap := nm } = [] := by
      intro nm
      simp [newSends]
    simp only [SendSys.advance, hnew, List.map_nil, List.append_nil]
    exact hg.congr (SendOnly.accounting p _ _ _ _ _ _ _ _) rfl rfl rfl rfl (Nat.le_refl _)

/-- Along every run whose kernel and allocator behave as `SendSys.stepOk` says,
the socket has accepted a beginning of the concatenation of the frames taken by
`EnqueueSend`. -/
theorem sock_accepts_in_order {s : SendSys}
    (h : Runs.Reach (SendSys.Fresh p fd) (SendSys.step p fd) (SendSys.stepOk p) s) :
    s.sock <+: s.enq := by
  have hinv : s.InOrder p fd :=
    h.invariant (fun _ h0 => fresh_inOrder h0) fun _ _ _ hi hok hs => step_inOrder hi hok hs
  obtain ⟨rem, henq, -⟩ := hinv
  exact ⟨rem, henq.symm⟩

end

/-! ### Two sends in flight, the first one short -/

def oneSender : SendSys where
  w :=
    { ht := Function.update (fun _ => {}) 0 { fd := 3, occupied := .live, rbufAlloc := true }
      fdMap := Function.update (fun _ => none) 3 (some 0) }

theorem oneSender_fresh : oneSender.Fresh 0 3 := by
  refine ⟨⟨rfl, rfl, fun f q h => ?_⟩, rfl, rfl, rfl, rfl, rfl, rfl, rfl, rfl, rfl⟩
  by_cases hf : f = 3
  · subst hf
    have hq : (0 : Slot) = q := by simpa [oneSender] using h
    subst hq
    rfl
  · simp [oneSender, hf] at h

/-- Both frames are submitted; the first comes back short and the second, already
behind it in the ring, is taken whole. -/
theorem sock_torn_by_short_write :
    ¬∀ s, Runs.Reach (SendSys.Fresh 0 3) (SendSys.step 0 3) Runs.Any s → s.sock <+: s.enq := by
  intro hall
  have hrun : ((Runs.run (SendSys.step 0 3) oneSender
      [.enqueue [1, 2], .enqueue [3], .flush, .exec (.short 1), .exec .full]).map
        fun s => (s.sock, s.enq)) = some ([1, 3], [1, 2, 3]) := by decide
  obtain ⟨s, hs, heq⟩ := Option.map_eq_some_iff.mp hrun
  have hp := hall s (Runs.reach_of_run oneSender_fresh hs)
  rw [show s.sock = [1, 3] from congrArg Prod.fst heq,
    show s.enq = [1, 2, 3] from congrArg Prod.snd heq] at hp
  exact absurd hp (by decide)

/-- One frame at a time survives a short write: the remainder follows. -/
theorem sock_in_order_after_short_write :
    ∃ s, Runs.Reach (SendSys.Fresh 0 3) (SendSys.step 0 3) (SendSys.stepOk 0) s ∧
      s.sock = [1, 2] ∧ s.sock <+: s.enq := by
  have hrun : ((Runs.run (SendSys.step 0 3) oneSender
      [.enqueue [1, 2], .flush, .exec (.short 1), .complete false, .exec .full]).map
        fun s => s.sock) = some [1, 2] := by decide
  obtain ⟨s, hs, heq⟩ := Option.map_eq_some_iff.mp hrun
  have hok : Runs.RunOk (SendSys.step 0 3) (SendSys.stepOk 0) oneSender
      [.enqueue [1, 2], .flush, .exec (.short 1), .complete false, .exec .full] := by
    refine ⟨trivial, fun s1 h1 => ⟨trivial, fun s2 h2 => ⟨?_, fun s3 h3 => ⟨?_, fun s4 h4 =>
      ⟨?_, fun _ _ => trivial⟩⟩⟩⟩⟩
    · cases h1
      cases h2
      intro u hu hst
      cases hu
      cases hst
    · cases h1
      cases h2
      cases h3
      exact ⟨rfl, rfl, rfl⟩
    · cases h1
      cases h2
      cases h3
      cases h4
      intro u hu hst
      cases hu
      cases hst
  have hr := Runs.reach_run (.start oneSender oneSender_fresh) hok hs
  exact ⟨s, hr, heq, sock_accepts_in_order hr⟩

end HyperDerp
