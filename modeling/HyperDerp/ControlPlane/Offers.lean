import HyperDerp.ControlPlane.Answers

/-!
# A target's answers (`control_plane.cc:1253-1383`, `:1461-1495`)

An IncomingConnection is an offer to its target, numbered here in the order they go out.
The target's answer carries back the correlation id that the initiator chose, and is
matched by that id and the target's socket.
-/

namespace HyperDerp.Offers

/-- An offer, with the slot's entry as it was when the offer went out. -/
structure Offer where
  serial : ℕ
  entry : OpenConnEntry

/-- `offers` are those not answered by their targets, `offer` the one that a slot in use
with a local target was taken for. -/
structure State where
  cp : ControlPlane
  serial : ℕ := 0
  offers : List Offer := []
  offer : OpenSlot → ℕ := fun _ => 0

inductive Op where
  /-- any frame that is not an answer to an offer -/
  | frame (fd : Fd) (type : FrameType) (payload : Bytes)
  /-- the target behind `fd` answers the offer with this serial number -/
  | respond (fd : Fd) (serial : ℕ) (payload : Bytes)
  | scan
  | elsewhere (cp : ControlPlane)

/-- The slot was taken by the step, for a peer of this relay. -/
def fresh (cp cp' : ControlPlane) (i : OpenSlot) : Bool :=
  !(cp.openConns i).inUse && (cp'.openConns i).inUse && decide ((cp'.openConns i).targetRelayId = 0)

def newOffers (s : State) (cp' : ControlPlane) : List Offer :=
  ((List.finRange kCpMaxOpenConns).filter (fresh s.cp cp')).map fun i =>
    ⟨s.serial, cp'.openConns i⟩

def answers (o : Offer) (fd : Fd) (payload : Bytes) : Bool :=
  decide (o.entry.targetFd = fd) &&
    decide ((hdParseIncomingConnResponse payload).map HdIncomingConnResponse.correlationId =
      some o.entry.correlationId)

def step (s : State) : Op → Option State
  | .frame fd type payload =>
    let cp := cpProcessFrame s.cp fd type payload
    if 0 ≤ fd then
      some { cp := cp
             serial := s.serial + 1
             offers := s.offers ++ newOffers s cp
             offer := fun i => if (s.cp.openConns i).inUse then s.offer i else s.serial }
    else none
  | .respond fd serial payload =>
    if (s.offers.any fun o => decide (o.serial = serial) && answers o fd payload) = true then
      some { s with
        cp := cpProcessFrame s.cp fd HdFrameType.kIncomingConnResponse payload
        offers := s.offers.filter fun o => decide (o.serial ≠ serial) }
    else none
  | .scan => some { s with cp := scanOpenConnTimeouts s.cp }
  | .elsewhere cp =>
    if cp.hdPeers.isSome then
      some { s with cp := { cp with
        openConns := s.cp.openConns
        openConnPerPeer := s.cp.openConnPerPeer
        attempted := s.cp.attempted } }
    else none

structure Init (s : State) : Prop where
  slots : ∀ i, s.cp.openConns i = {}
  hdPeers : s.cp.hdPeers.isSome
  offers : s.offers = []

/-! ### Attribution -/

def Holds (s : State) (i : OpenSlot) (serial : ℕ) : Prop :=
  (s.cp.openConns i).inUse = true ∧ (s.cp.openConns i).targetRelayId = 0 ∧ s.offer i = serial

/-- The answer releases the slot of its own offer, with the decision it gives for that
offer; if the offer has none any more, nothing happens. -/
def Decides (s s' : State) (o : Offer) (resp : HdIncomingConnResponse) : Prop :=
  (∃ i hd, Holds s i o.serial ∧ s.cp.openConns i = o.entry ∧ s.cp.hdPeers = some hd ∧
    Released s.cp i (answered hd o.entry resp).1 (answered hd o.entry resp).2.1
      (answered hd o.entry resp).2.2 s'.cp) ∨
  ((∀ i, ¬Holds s i o.serial) ∧ Untouched s.cp s'.cp)

/-- Whatever offer is answered next, the answer decides that offer. -/
def Attributed (s : State) : Prop :=
  ∀ fd serial payload s', step s (.respond fd serial payload) = some s' → ∀ o ∈ s.offers,
    o.serial = serial → ∀ resp, hdParseIncomingConnResponse payload = some resp →
      Decides s s' o resp

/-- A request whose target has no unanswered offer with its id, and no slot of it is in
use. -/
def idFree (s : State) : Op → Prop
  | .frame fd type payload => ∀ e, EntryOf s.cp fd type payload e →
    (∀ i, (s.cp.openConns i).inUse = true → (s.cp.openConns i).targetFd = e.targetFd →
      (s.cp.openConns i).correlationId ≠ e.correlationId) ∧
    ∀ o ∈ s.offers, o.entry.targetFd = e.targetFd → o.entry.correlationId ≠ e.correlationId
  | _ => True

/-- Ids and sockets tell the slots and the unanswered offers apart. -/
structure Inv (s : State) : Prop where
  slots : SlotsOk s.cp
  hdPeers : s.cp.hdPeers.isSome
  distinct : ∀ i j, (s.cp.openConns i).inUse = true → (s.cp.openConns j).inUse = true →
    (s.cp.openConns i).targetFd = (s.cp.openConns j).targetFd →
    (s.cp.openConns i).correlationId = (s.cp.openConns j).correlationId → i = j
  offered : ∀ i, (s.cp.openConns i).inUse = true → (s.cp.openConns i).targetRelayId = 0 →
    ⟨s.offer i, s.cp.openConns i⟩ ∈ s.offers
  matched : ∀ o ∈ s.offers, ∀ i, (s.cp.openConns i).inUse = true →
    (s.cp.openConns i).targetFd = o.entry.targetFd →
    (s.cp.openConns i).correlationId = o.entry.correlationId → Holds s i o.serial
  serials : ∀ o ∈ s.offers, o.serial < s.serial
  unique : ∀ o ∈ s.offers, ∀ o' ∈ s.offers, o.serial = o'.serial → o = o'

section

variable {s s' : State}

/-! ### Answering -/

theorem responseMatches_iff {resp : HdIncomingConnResponse} {fd : Fd} {e : OpenConnEntry} :
    responseMatches resp fd e = true ↔
      e.correlationId = resp.correlationId ∧ e.targetFd = fd := by
  simp only [responseMatches, Bool.and_eq_true, decide_eq_true_eq]

theorem openConnFind_none {cp : ControlPlane} {p : OpenConnEntry → Bool}
    (h : openConnFind cp p = none) (i : OpenSlot) (huse : (cp.openConns i).inUse = true) :
    p (cp.openConns i) = false := by
  have hi := List.find?_eq_none.1 h i (List.mem_finRange i)
  rw [huse, Bool.true_and, Bool.not_eq_true] at hi
  exact hi

theorem Inv.entry (h : Inv s) {o : Offer} (ho : o ∈ s.offers) {i : OpenSlot}
    (hi : Holds s i o.serial) : s.cp.openConns i = o.entry := by
  obtain ⟨huse, hlocal, hserial⟩ := hi
  have heq := h.unique _ (h.offered i huse hlocal) o ho hserial
  rw [← heq]

theorem Inv.decides (h : Inv s) {o : Offer} (ho : o ∈ s.offers) {fd : Fd} {payload : Bytes}
    {resp : HdIncomingConnResponse} (hresp : hdParseIncomingConnResponse payload = some resp)
    (hfd : o.entry.targetFd = fd) (hid : resp.correlationId = o.entry.correlationId)
    (hcp : s'.cp = cpProcessFrame s.cp fd HdFrameType.kIncomingConnResponse payload) :
    Decides s s' o resp := by
  obtain ⟨hd, hhd⟩ := Option.isSome_iff_exists.1 h.hdPeers
  have hcases := @incomingConnResponse_cases s.cp fd payload hd resp hresp hhd h.slots.fds
  change s'.cp = cpHandleIncomingConnResponse s.cp fd payload at hcp
  rw [← hcp] at hcases
  rcases hcases with ⟨hnone, heq⟩ | ⟨i, hfind, hrel⟩
  · right
    constructor
    · intro i hi
      have hentry := h.entry ho hi
      have hmatch : responseMatches resp fd (s.cp.openConns i) = true := by
        rw [responseMatches_iff, hentry]
        exact ⟨hid.symm, hfd⟩
      rw [openConnFind_none hnone i hi.1] at hmatch
      cases hmatch
    · rw [heq]
      exact Untouched.refl s.cp
  · left
    obtain ⟨huse, hmatch⟩ := openConnFind_some hfind
    obtain ⟨hcorr, htarget⟩ := responseMatches_iff.1 hmatch
    have hholds := h.matched o ho i huse (htarget.trans hfd.symm) (hcorr.trans hid)
    have hentry := h.entry ho hholds
    rw [hentry] at hrel
    exact ⟨i, hd, hholds, hentry, hhd, hrel⟩

theorem answers_iff {o : Offer} {fd : Fd} {payload : Bytes} :
    answers o fd payload = true ↔ o.entry.targetFd = fd ∧
      ∃ resp, hdParseIncomingConnResponse payload = some resp ∧
        resp.correlationId = o.entry.correlationId := by
  simp only [answers, Bool.and_eq_true, decide_eq_true_eq, Option.map_eq_some_iff]

theorem respond_offer {fd : Fd} {serial : ℕ} {payload : Bytes}
    (hs : step s (.respond fd serial payload) = some s') :
    (∃ o ∈ s.offers, o.serial = serial ∧ answers o fd payload = true) ∧
      s' = { s with
        cp := cpProcessFrame s.cp fd HdFrameType.kIncomingConnResponse payload
        offers := s.offers.filter fun o => decide (o.serial ≠ serial) } := by
  rw [step, Option.ite_none_right_eq_some, Option.some.injEq] at hs
  obtain ⟨hany, hs⟩ := hs
  obtain ⟨o, ho, hboth⟩ := List.any_eq_true.1 hany
  rw [Bool.and_eq_true, decide_eq_true_eq] at hboth
  exact ⟨⟨o, ho, hboth⟩, hs.symm⟩

theorem Inv.attributed (h : Inv s) : Attributed s := by
  intro fd serial payload s' hs o ho hserial resp hresp
  obtain ⟨⟨o', ho', hserial', hans⟩, rfl⟩ := respond_offer hs
  have hsame : o' = o := h.unique o' ho' o ho (hserial'.trans hserial.symm)
  obtain ⟨hfd, resp', hresp', hid⟩ := answers_iff.1 hans
  rw [hresp'] at hresp
  cases hresp
  rw [hsame] at hfd hid
  exact h.decides ho hresp' hfd hid rfl

/-! ### Steps -/

theorem Init.inv (h : Init s) : Inv s := by
  have hfree : ∀ i, ¬(s.cp.openConns i).inUse = true := by
    intro i
    rw [h.slots i]
    nofun
  constructor
  · exact ⟨fun i _ => h.slots i, fun i hi => absurd hi (hfree i), fun i hi => absurd hi (hfree i)⟩
  · exact h.hdPeers
  · exact fun i j hi => absurd hi (hfree i)
  · exact fun i hi => absurd hi (hfree i)
  · simp [h.offers]
  · simp [h.offers]
  · simp [h.offers]

namespace Inv

theorem fewer (h : Inv s) {cp : ControlPlane} {p : Offer → Bool} (hok : SlotsOk cp)
    (hsome : cp.hdPeers.isSome)
    (hslots : ∀ i, (cp.openConns i).inUse = true → cp.openConns i = s.cp.openConns i)
    (hp : ∀ i, (cp.openConns i).inUse = true → (cp.openConns i).targetRelayId = 0 →
      p ⟨s.offer i, cp.openConns i⟩ = true) :
    Inv { s with cp := cp, offers := s.offers.filter p } := by
  have hold : ∀ i, (cp.openConns i).inUse = true → (s.cp.openConns i).inUse = true := by
    intro i huse
    rw [← hslots i huse]
    exact huse
  have hrest : ∀ o ∈ s.offers.filter p, o ∈ s.offers := fun o ho => List.mem_of_mem_filter ho
  constructor
  · exact hok
  · exact hsome
  · intro i j hi hj hfd hid
    rw [hslots i hi, hslots j hj] at hfd hid
    exact h.distinct i j (hold i hi) (hold j hj) hfd hid
  · intro i huse hlocal
    apply List.mem_filter.2 ⟨_, hp i huse hlocal⟩
    dsimp only at huse hlocal ⊢
    rw [hslots i huse] at hlocal ⊢
    exact h.offered i (hold i huse) hlocal
  · intro o ho i huse hfd hid
    dsimp only at huse hfd hid
    rw [hslots i huse] at hfd hid
    obtain ⟨-, hlocal, hserial⟩ := h.matched o (hrest o ho) i (hold i huse) hfd hid
    rw [← hslots i huse] at hlocal
    exact ⟨huse, hlocal, hserial⟩
  · exact fun o ho => h.serials o (hrest o ho)
  · exact fun o ho o' ho' => h.unique o (hrest o ho) o' (hrest o' ho')

theorem kept (h : Inv s) {cp : ControlPlane} (hok : SlotsOk cp) (hsome : cp.hdPeers.isSome)
    (hslots : ∀ i, (cp.openConns i).inUse = true → cp.openConns i = s.cp.openConns i) :
    Inv { s with cp := cp } := by
  have hall := h.fewer (p := fun _ => true) hok hsome hslots fun _ _ _ => rfl
  rwa [List.filter_true] at hall

theorem respond (h : Inv s) {fd : Fd} {serial : ℕ} {payload : Bytes}
    (hs : step s (.respond fd serial payload) = some s') : Inv s' := by
  obtain ⟨⟨o, ho, hserial, hans⟩, rfl⟩ := respond_offer hs
  obtain ⟨hfd, resp, hresp, hid⟩ := answers_iff.1 hans
  have hdec : Decides s { s with
      cp := cpProcessFrame s.cp fd HdFrameType.kIncomingConnResponse payload
      offers := s.offers.filter fun o => decide (o.serial ≠ serial) } o resp :=
    h.decides ho hresp hfd hid rfl
  revert hdec
  generalize cpProcessFrame s.cp fd HdFrameType.kIncomingConnResponse payload = cp
  intro hdec
  rcases hdec with ⟨i, hd, hholds, hentry, hhd, hrel⟩ | ⟨hnone, hsame⟩
  · have hslots : ∀ j, (cp.openConns j).inUse = true → j ≠ i ∧ cp.openConns j = s.cp.openConns j := by
      intro j huse
      have hji : j ≠ i := by
        rintro rfl
        rw [hrel.openConns, Function.update_self] at huse
        cases huse
      exact ⟨hji, by rw [hrel.openConns, Function.update_of_ne hji]⟩
    apply h.fewer (h.slots.released hrel) (hrel.hdPeers.trans h.hdPeers) fun j huse => (hslots j huse).2
    intro j huse hlocal
    obtain ⟨hji, heq⟩ := hslots j huse
    rw [heq] at huse hlocal
    rw [decide_eq_true_eq]
    intro hser
    have hj := h.entry ho ⟨huse, hlocal, hser.trans hserial.symm⟩
    apply hji
    apply h.distinct j i huse hholds.1
    · rw [hj, hentry]
    · rw [hj, hentry]
  · have heq : ∀ j, cp.openConns j = s.cp.openConns j := fun j => congrFun hsame.openConns j
    apply h.fewer (h.slots.of_openConns hsame.openConns) (by rw [hsame.hdPeers]; exact h.hdPeers)
      fun j _ => heq j
    intro j huse hlocal
    rw [heq j] at huse hlocal
    rw [decide_eq_true_eq]
    exact fun hser => hnone j ⟨huse, hlocal, hser.trans hserial.symm⟩

theorem frame (h : Inv s) {fd : Fd} (hfd : 0 ≤ fd) {type : FrameType} {payload : Bytes}
    (hfree : idFree s (.frame fd type payload)) :
    Inv { cp := cpProcessFrame s.cp fd type payload
          serial := s.serial + 1
          offers := s.offers ++ newOffers s (cpProcessFrame s.cp fd type payload)
          offer := fun i => if (s.cp.openConns i).inUse then s.offer i else s.serial } := by
  have hout := cpProcessFrame_outcome h.slots h.hdPeers hfd type payload
  revert hout
  generalize cpProcessFrame s.cp fd type payload = cp
  intro hout
  -- a slot in use is an old one or the request's, which shares its id with none of the others
  have hcases : ∀ i, (cp.openConns i).inUse = true →
      ((s.cp.openConns i).inUse = true ∧ cp.openConns i = s.cp.openConns i) ∨
        ((s.cp.openConns i).inUse = false ∧ EntryOf s.cp fd type payload (cp.openConns i)) := by
    intro i huse
    cases hold : (s.cp.openConns i).inUse with
    | true =>
      rcases hout.slot huse with heq | ⟨hempty, -⟩
      · exact .inl ⟨rfl, heq⟩
      · rw [hempty] at hold
        cases hold
    | false =>
      rcases hout.slot huse with heq | ⟨-, he⟩
      · rw [heq, hold] at huse
        cases huse
      · exact .inr ⟨rfl, he⟩
  have hnew : ∀ o ∈ newOffers s cp, ∃ i, (s.cp.openConns i).inUse = false ∧
      (cp.openConns i).inUse = true ∧ (cp.openConns i).targetRelayId = 0 ∧
      o = ⟨s.serial, cp.openConns i⟩ := by
    intro o ho
    obtain ⟨i, hi, rfl⟩ := List.mem_map.1 ho
    have hfresh := (List.mem_filter.1 hi).2
    simp only [fresh, Bool.and_eq_true, Bool.not_eq_true', decide_eq_true_eq] at hfresh
    exact ⟨i, hfresh.1.1, hfresh.1.2, hfresh.2, rfl⟩
  have hentry : ∀ i, (s.cp.openConns i).inUse = false → (cp.openConns i).inUse = true →
      EntryOf s.cp fd type payload (cp.openConns i) := by
    intro i hold huse
    rcases hcases i huse with ⟨huse', -⟩ | ⟨-, he⟩
    · rw [hold] at huse'
      cases huse'
    · exact he
  constructor
  · exact hout.slotsOk h.slots hfd
  · exact hout.hdPeers.trans h.hdPeers
  · intro i j hi hj htarget hid
    dsimp only at hi hj htarget hid
    rcases hcases i hi with ⟨hi', heqi⟩ | ⟨hi', hei⟩
    · rcases hcases j hj with ⟨hj', heqj⟩ | ⟨-, hej⟩
      · rw [heqi, heqj] at htarget hid
        exact h.distinct i j hi' hj' htarget hid
      · rw [heqi] at htarget hid
        exact absurd hid ((hfree _ hej).1 i hi' htarget)
    · rcases hcases j hj with ⟨hj', heqj⟩ | ⟨hj', -⟩
      · rw [heqj] at htarget hid
        exact absurd hid.symm ((hfree _ hei).1 j hj' htarget.symm)
      · exact hout.one_new hi' hi hj' hj
  · intro i huse hlocal
    dsimp only at huse hlocal ⊢
    rcases hcases i huse with ⟨hold, heq⟩ | ⟨hold, -⟩
    · rw [if_pos hold, heq]
      rw [heq] at hlocal
      exact List.mem_append_left _ (h.offered i hold hlocal)
    · rw [hold, if_neg nofun]
      apply List.mem_append_right
      apply List.mem_map_of_mem
      simp only [List.mem_filter, List.mem_finRange, true_and, fresh, hold, huse, hlocal,
        Bool.not_false, Bool.and_self, decide_true]
  · intro o ho i huse htarget hid
    dsimp only at huse htarget hid
    rcases List.mem_append.1 ho with ho | ho
    · rcases hcases i huse with ⟨hold, heq⟩ | ⟨-, he⟩
      · rw [heq] at htarget hid
        obtain ⟨-, hlocal, hserial⟩ := h.matched o ho i hold htarget hid
        rw [← heq] at hlocal
        exact ⟨huse, hlocal, by dsimp only; rw [if_pos hold, hserial]⟩
      · exact absurd hid.symm ((hfree _ he).2 o ho htarget.symm)
    · obtain ⟨j, hj, hj', hlocal, rfl⟩ := hnew o ho
      rcases hcases i huse with ⟨hold, heq⟩ | ⟨hold, -⟩
      · rw [heq] at htarget hid
        exact absurd hid ((hfree _ (hentry j hj hj')).1 i hold htarget)
      · have hij := hout.one_new hold huse hj hj'
        rw [← hij] at hlocal
        exact ⟨huse, hlocal, by dsimp only; rw [hold, if_neg nofun]⟩
  · intro o ho
    dsimp only
    rcases List.mem_append.1 ho with ho | ho
    · have hlt := h.serials o ho
      omega
    · obtain ⟨i, -, -, -, rfl⟩ := hnew o ho
      dsimp only
      omega
  · intro o ho o' ho' hser
    rcases List.mem_append.1 ho with ho | ho
    · rcases List.mem_append.1 ho' with ho' | ho'
      · exact h.unique o ho o' ho' hser
      · obtain ⟨i, -, -, -, rfl⟩ := hnew o' ho'
        have hlt := h.serials o ho
        dsimp only at hser
        omega
    · obtain ⟨i, hi, hi', -, rfl⟩ := hnew o ho
      rcases List.mem_append.1 ho' with ho' | ho'
      · have hlt := h.serials o' ho'
        dsimp only at hser
        omega
      · obtain ⟨j, hj, hj', -, rfl⟩ := hnew o' ho'
        rw [hout.one_new hi hi' hj hj']

end Inv

theorem step_inv (h : Inv s) {op : Op} (hfree : idFree s op) (hs : step s op = some s') :
    Inv s' := by
  cases op with
  | frame fd type payload =>
    rw [step, Option.ite_none_right_eq_some, Option.some.injEq] at hs
    rw [← hs.2]
    exact h.frame hs.1 hfree
  | respond fd serial payload => exact h.respond hs
  | scan =>
    have hswept := scan_swept h.slots.fds
    have hkept := h.kept (h.slots.swept hswept) (by rw [hswept.hdPeers]; exact h.hdPeers)
      fun i huse => hswept.slot huse
    rw [step, Option.some.injEq] at hs
    rw [← hs]
    exact hkept
  | elsewhere cp =>
    rw [step, Option.ite_none_right_eq_some, Option.some.injEq] at hs
    obtain ⟨hhd, hs⟩ := hs
    rw [← hs]
    apply h.kept
    · exact h.slots.of_openConns rfl
    · exact hhd
    · exact fun i _ => rfl

theorem answers_attributed (h : Runs.Reach Init step idFree s) : Attributed s := by
  have hinv : Inv s := h.invariant (fun _ h0 => h0.inv) fun _ _ _ hi hok hs => step_inv hi hok hs
  exact hinv.attributed

end

/-! A peer on fd 6, and clients on fd 5 and fd 7 that ask for it with one id. -/

def start : State := { cp := Accounting.gatewayCp }

theorem start_init : Init start := ⟨fun _ => rfl, rfl, rfl⟩

def twoRequests (id1 id2 : ℕ) : List Op :=
  [.frame 5 HdFrameType.kOpenConnection (hdOpenConnectionPayload 1 0 0 0 id1),
    .frame 7 HdFrameType.kOpenConnection (hdOpenConnectionPayload 1 0 0 0 id2)]

def declines (id : ℕ) : Op := .respond 6 1 (writeU64 id ++ [0, 0, 0])

def told (s : State) (op : Op) : Option (List Fd) :=
  (step s op).map fun s' => (s'.cp.attempted.drop s.cp.attempted.length).map Prod.fst

theorem answer_decides_other_offer :
    ¬∀ s, Runs.Reach Init step Runs.Any s → Attributed s := by
  intro hall
  have hrun : (Runs.run step start (twoRequests 9 9)).map (fun s =>
      (s.offers.map fun o => (o.serial, o.entry.initiatorFd), told s (declines 9))) =
      some ([(0, 5), (1, 7)], some [5]) := by
    decide +kernel
  obtain ⟨s, hs, hview⟩ := Option.map_eq_some_iff.1 hrun
  rw [Prod.mk.injEq] at hview
  obtain ⟨hoffers, htold⟩ := hview
  obtain ⟨s', hs', hfds⟩ := Option.map_eq_some_iff.1 htold
  have hmem : ((1 : ℕ), (7 : Fd)) ∈ s.offers.map fun o => (o.serial, o.entry.initiatorFd) := by
    rw [hoffers]
    simp
  obtain ⟨o, ho, hpair⟩ := List.mem_map.1 hmem
  rw [Prod.mk.injEq] at hpair
  have hresp : hdParseIncomingConnResponse (writeU64 9 ++ [0, 0, 0]) = some ⟨9, 0, 0, 0⟩ := by
    decide
  rcases hall s (Runs.reach_of_run start_init hs) _ _ _ s' hs' o ho hpair.1 _ hresp with
    ⟨i, hd, -, hentry, -, hrel⟩ | ⟨-, hsame⟩
  · rw [hrel.attempted, List.drop_left, List.map_cons, hentry, hpair.2] at hfds
    cases hfds
  · rw [hsame.attempted, List.drop_length] at hfds
    cases hfds

def onlyId (id : ℕ) (s : State) : Bool :=
  ((List.finRange kCpMaxOpenConns).all fun i =>
    !(s.cp.openConns i).inUse || decide ((s.cp.openConns i).correlationId = id)) &&
  s.offers.all fun o => decide (o.entry.correlationId = id)

theorem answers_attributed_two :
    ∃ s, Runs.Reach Init step idFree s ∧ told s (declines 10) = some [7] ∧ Attributed s := by
  have hrun : (Runs.run step start (twoRequests 9 10)).map (fun s => told s (declines 10)) =
      some (some [7]) := by
    decide +kernel
  obtain ⟨s, hs, htold⟩ := Option.map_eq_some_iff.1 hrun
  have hfirst : (step start (.frame 5 HdFrameType.kOpenConnection
      (hdOpenConnectionPayload 1 0 0 0 9))).map (onlyId 9) = some true := by
    decide +kernel
  have hsecond : requestId false HdFrameType.kOpenConnection (hdOpenConnectionPayload 1 0 0 0 10) =
      some 10 := by
    decide
  have hreach : Runs.Reach Init step idFree s := by
    apply Runs.reach_run (.start start start_init) _ hs
    have hslots : ∀ i, ¬(start.cp.openConns i).inUse = true := by
      intro i
      rw [start_init.slots i]
      nofun
    refine ⟨fun e _ => ⟨fun i huse => absurd huse (hslots i), nofun⟩, fun s1 hs1 => ?_⟩
    rw [hs1, Option.map_some, Option.some.injEq, onlyId, Bool.and_eq_true] at hfirst
    refine ⟨fun e he => ?_, fun _ _ => trivial⟩
    have hten : e.correlationId = 10 := by
      have hid := he.fields.2.2
      cases hgw : e.isGatewayInbound with
      | true =>
        rw [hgw] at hid
        cases hid
      | false =>
        rw [hgw, hsecond] at hid
        exact (Option.some.inj hid).symm
    constructor
    · intro i huse _ hcorr
      have hnine := List.all_eq_true.1 hfirst.1 i (List.mem_finRange i)
      rw [huse, hcorr, hten] at hnine
      cases hnine
    · intro o ho _ hcorr
      have hnine := List.all_eq_true.1 hfirst.2 o ho
      rw [hcorr, hten] at hnine
      cases hnine
  exact ⟨s, hreach, htold, answers_attributed hreach⟩

end HyperDerp.Offers
