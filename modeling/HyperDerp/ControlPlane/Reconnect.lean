import HyperDerp.ControlPlane.Relay

/-!
# Old connections and newer ones of the same key

PeerGone messages and remove commands name a key, not a connection. They are
harmless to a newer connection of the key as long as no connection of the key is
accepted while such an item is pending, and none arises from a connection that a
newer one has superseded.
-/

namespace HyperDerp

namespace Relay

def Newer (s : Relay) (c : ℕ) : Prop :=
  ∃ c2, c < c2 ∧ c2 < s.count ∧ s.keyOf c2 = s.keyOf c ∧ s.IsOpen c2

def goneMsg (m : PipeMsg) : Option Key := frameGone m.type m.payload

/-! ### The property -/

/-- `K` stays wherever it was. -/
structure KeepsKey (s s' : Relay) (K : Key) : Prop where
  reg : (cpRegistryLookup s.cp.reg K).isSome → (cpRegistryLookup s'.cp.reg K).isSome
  table : ∀ u, (htLookup (s.worker u) K).isSome → (htLookup (s'.worker u) K).isSome
  routes : ∀ u, (routeLookup (s.worker u).routes K).isSome →
    (routeLookup (s'.worker u).routes K).isSome

/-- The step leaves open connections of the same key that are newer than `c`, and
the key's entries, in place. -/
def Spares (s s' : Relay) (c : ℕ) : Prop :=
  ∀ c2, c < c2 → c2 < s.count → s.keyOf c2 = s.keyOf c → s.IsOpen c2 →
    s.KeepsKey s' (s.keyOf c) ∧ s'.IsOpen c2

/-- Events of a connection spare the newer ones of its key. -/
def OldSpares (s s' : Relay) : RelayStep → Prop
  | .eof _ fd => ∀ c, s.owner fd = some c → s.Spares s' c
  | .error _ fd => ∀ c, s.owner fd = some c → s.Spares s' c
  | .frame _ fd _ => ∀ c, s.owner fd = some c → s.Spares s' c
  | .control v => ∀ c rest, s.pipeTags v = c :: rest → s.Spares s' c
  | .work v => ∀ k cmds c rest, (s.worker v).cmdRing = .removePeer k :: cmds →
      s.cmdTags v = c :: rest → s.Spares s' c
  | _ => True

/-- A key is accepted only when nothing is pending by which an older connection
takes it down; a connection ends, or takes its own key down, only when no newer
one is open. -/
def connOk (s : Relay) : RelayStep → Prop
  | .accept _ key _ _ => ∀ v c, s.keyOf c = key →
      (∀ m, (m, c) ∈ (s.worker v).pipe.zip (s.pipeTags v) → goneMsg m ≠ some key) ∧
      (Cmd.removePeer key, c) ∉ (s.worker v).cmdRing.zip (s.cmdTags v)
  | .eof _ fd => ∀ c, s.owner fd = some c → ¬s.Newer c
  | .error _ fd => ∀ c, s.owner fd = some c → ¬s.Newer c
  | .frame v fd bytes => ∀ c p m, s.owner fd = some c → (s.worker v).fdMap fd = some p →
      forwarded (s.worker v) p bytes = some m → goneMsg m = some (s.keyOf c) → ¬s.Newer c
  | _ => True

/-! ### The invariant -/

def MsgOk (s : Relay) (m : PipeMsg) (c : ℕ) : Prop :=
  c < s.count ∧ (goneMsg m = some (s.keyOf c) → ¬s.Newer c)

/-- A pending add is the only trace of its open connection; a pending removal of
the connection's own key meets no newer one. -/
def CmdOk (s : Relay) (v : ℕ) (cmd : Cmd) (c : ℕ) : Prop :=
  c < s.count ∧
    match cmd with
    | .addPeer fd key _ _ => s.owner fd = some c ∧ s.keyOf c = key ∧ s.home key = v ∧
        ∀ u p, ((s.worker u).ht p).occupied = .live → ((s.worker u).ht p).fd ≠ fd
    | .removePeer k => k = s.keyOf c → ¬s.Newer c
    | .write _ _ => True
    | _ => False

def addFd : Cmd → Option Fd
  | .addPeer fd _ _ _ => some fd
  | _ => none

structure ConnInv (s : Relay) : Prop where
  pos : 0 < s.cp.dataPlane.numWorkers
  table : ∀ v, TableOk (s.worker v)
  owner : ∀ f c, s.owner f = some c → c < s.count ∧ s.fdOf c = f
  entry : ∀ v p, ((s.worker v).ht p).occupied = .live →
    ∃ c, s.owner ((s.worker v).ht p).fd = some c ∧ s.keyOf c = ((s.worker v).ht p).key ∧
      s.home ((s.worker v).ht p).key = v
  unregistered : ∀ c ∈ s.unregistered, c < s.count
  msgs : ∀ v, List.Forall₂ s.MsgOk (s.worker v).pipe (s.pipeTags v)
  cmds : ∀ v, List.Forall₂ (s.CmdOk v) (s.worker v).cmdRing (s.cmdTags v)
  adds : ∀ v, ((s.worker v).cmdRing.filterMap addFd).Nodup

/-! ### Steps that leave tables and sockets alone -/

structure Quiet (s s' : Relay) : Prop where
  num : s'.cp.dataPlane.numWorkers = s.cp.dataPlane.numWorkers
  count : s'.count = s.count
  keyOf : s'.keyOf = s.keyOf
  fdOf : s'.fdOf = s.fdOf
  owner : s'.owner = s.owner
  occ : ∀ v p, ((s'.worker v).ht p).occupied = ((s.worker v).ht p).occupied
  key : ∀ v p, ((s'.worker v).ht p).key = ((s.worker v).ht p).key
  fd : ∀ v p, ((s'.worker v).ht p).fd = ((s.worker v).ht p).fd
  rbuf : ∀ v p, ((s'.worker v).ht p).rbufAlloc = ((s.worker v).ht p).rbufAlloc

section

variable {s s' : Relay}

theorem Quiet.newer (h : Quiet s s') {c : ℕ} : s'.Newer c ↔ s.Newer c := by
  simp only [Newer, IsOpen, h.count, h.keyOf, h.fdOf, h.owner]

theorem Quiet.msgOk (h : Quiet s s') {m : PipeMsg} {c : ℕ} (hm : s.MsgOk m c) : s'.MsgOk m c := by
  rw [MsgOk, h.count, h.keyOf, h.newer]
  exact hm

theorem Quiet.cmdOk (h : Quiet s s') {v : ℕ} {cmd : Cmd} {c : ℕ} (hc : s.CmdOk v cmd c) :
    s'.CmdOk v cmd c := by
  refine ⟨by rw [h.count]; exact hc.1, ?_⟩
  have h2 := hc.2
  cases cmd with
  | addPeer fd key proto id =>
    simp only [h.owner, h.keyOf, home, h.num, h.occ, h.fd]
    exact h2
  | removePeer k =>
    simp only [h.keyOf, h.newer]
    exact h2
  | write key data => trivial
  | stop => exact h2
  | setFwdRule key dst => exact h2
  | movePeerOut key => exact h2

theorem ConnInv.quiet (hI : s.ConnInv) (h : Quiet s s')
    (hun : ∀ c ∈ s'.unregistered, c ∈ s.unregistered)
    (hmsgs : ∀ v, List.Forall₂ s.MsgOk (s'.worker v).pipe (s'.pipeTags v))
    (hcmds : ∀ v, List.Forall₂ (s.CmdOk v) (s'.worker v).cmdRing (s'.cmdTags v))
    (hadds : ∀ v, ((s'.worker v).cmdRing.filterMap addFd).Nodup) : s'.ConnInv where
  pos := by rw [h.num]; exact hI.pos
  table v := (hI.table v).congr (h.occ v) (h.key v) (h.rbuf v)
  owner f c hf := by
    rw [h.owner] at hf
    rw [h.count, h.fdOf]
    exact hI.owner f c hf
  entry v p hl := by
    rw [h.occ] at hl
    simp only [h.fd, h.key, h.owner, h.keyOf, home, h.num]
    exact hI.entry v p hl
  unregistered c hc := by
    rw [h.count]
    exact hI.unregistered c (hun c hc)
  msgs v := (hmsgs v).imp fun _ _ hm => h.msgOk hm
  cmds v := (hcmds v).imp fun _ _ hc => h.cmdOk hc
  adds := hadds

end

end Relay

theorem forall₂_replicate {α β : Type} {R : α → β → Prop} {c : β} {xs : List α}
    (h : ∀ x ∈ xs, R x c) : List.Forall₂ R xs (List.replicate xs.length c) := by
  induction xs with
  | nil => exact .nil
  | cons x xs ih =>
    exact .cons (h x (List.mem_cons_self ..)) (ih fun y hy => h y (List.mem_cons_of_mem _ hy))

theorem forall₂_mem {α β : Type} {R : α → β → Prop} {xs : List α} {ys : List β}
    (h : List.Forall₂ R xs ys) {x : α} (hx : x ∈ xs) : ∃ y, y ∈ ys ∧ R x y := by
  induction h with
  | nil => cases hx
  | cons hr _ ih =>
    rcases List.mem_cons.mp hx with rfl | hx
    · exact ⟨_, List.mem_cons_self .., hr⟩
    · obtain ⟨y, hy, hr⟩ := ih hx
      exact ⟨y, List.mem_cons_of_mem _ hy, hr⟩

theorem forall₂_imp_zip {α β : Type} {R S : α → β → Prop} {xs : List α} {ys : List β}
    (h : List.Forall₂ R xs ys) (hi : ∀ x y, R x y → (x, y) ∈ xs.zip ys → S x y) :
    List.Forall₂ S xs ys := by
  rw [List.forall₂_iff_zip] at h ⊢
  exact ⟨h.1, fun hmem => hi _ _ (h.2 hmem) hmem⟩

theorem Issued.worker {P : Cmd → Prop} {ctx ctx' : Ctx} (h : Issued P ctx ctx') (v : ℕ) :
    ∃ more, ctx'.workers v =
      { ctx.workers v with cmdRing := (ctx.workers v).cmdRing ++ more } ∧ ∀ cmd ∈ more, P cmd := by
  obtain ⟨more, rfl, hp⟩ := h
  exact ⟨more v, rfl, hp v⟩

theorem Issued.num {P : Cmd → Prop} {ctx ctx' : Ctx} (h : Issued P ctx ctx') :
    ctx'.numWorkers = ctx.numWorkers := by
  obtain ⟨more, rfl, -⟩ := h
  rfl

namespace Relay

section

variable {s s' : Relay}

/-! ### Commands and messages that arrive -/

variable {c v peerId : ℕ} {fd : Fd} {key : Key} {proto : PeerProtocol}

theorem ConnInv.issued (hI : s.ConnInv) {P : Cmd → Prop} {ctx : Ctx}
    (h : Issued P s.cp.dataPlane ctx) (hP : ∀ v cmd, P cmd → s.CmdOk v cmd c ∧ addFd cmd = none)
    (v : ℕ) :
    List.Forall₂ (s.CmdOk v) (ctx.workers v).cmdRing (s.tagCmds ctx c v) ∧
      ((ctx.workers v).cmdRing.filterMap addFd).Nodup := by
  obtain ⟨more, hw, hp⟩ := h.worker v
  have hlen : (ctx.workers v).cmdRing.length - (s.worker v).cmdRing.length = more.length := by
    rw [hw]
    simp [worker]
  have hadd : more.filterMap addFd = [] := by
    rw [List.filterMap_eq_nil_iff]
    exact fun cmd hc => (hP v cmd (hp cmd hc)).2
  rw [tagCmds, hlen, hw]
  refine ⟨List.rel_append (hI.cmds v) (forall₂_replicate fun cmd hc => (hP v cmd (hp cmd hc)).1),
    ?_⟩
  rw [List.filterMap_append, hadd, List.append_nil]
  exact hI.adds v

theorem ConnInv.post (hI : s.ConnInv) (v c : ℕ) (ctx : Ctx) (more : List PipeMsg)
    (hnum : ctx.numWorkers = s.cp.dataPlane.numWorkers)
    (hht : ∀ u p, ((ctx.workers u).ht p).core = ((s.worker u).ht p).core)
    (hring : ∀ u, (ctx.workers u).cmdRing = (s.worker u).cmdRing)
    (hpipe : ∀ u, (ctx.workers u).pipe =
      if u = v then (s.worker v).pipe ++ more else (s.worker u).pipe)
    (hok : ∀ m ∈ more, s.MsgOk m c) : (s.post v ctx c).ConnInv ∧ Quiet s (s.post v ctx c) := by
  have hq : Quiet s (s.post v ctx c) :=
    ⟨hnum, rfl, rfl, rfl, rfl, fun u p => (congrArg Peer.occupied (hht u p) :),
      fun u p => (congrArg Peer.key (hht u p) :), fun u p => (congrArg Peer.fd (hht u p) :),
      fun u p => (congrArg Peer.rbufAlloc (hht u p) :)⟩
  refine ⟨hI.quiet hq (fun _ h => h) (fun u => ?_) (fun u => ?_) (fun u => ?_), hq⟩
  · show List.Forall₂ s.MsgOk (ctx.workers u).pipe
      (Function.update s.pipeTags v (s.pipeTags v ++
        List.replicate ((ctx.workers v).pipe.length - (s.worker v).pipe.length) c) u)
    rw [hpipe u]
    by_cases hu : u = v
    · subst hu
      rw [if_pos rfl, Function.update_self, hpipe u, if_pos rfl, List.length_append,
        Nat.add_sub_cancel_left]
      exact List.rel_append (hI.msgs u) (forall₂_replicate hok)
    · rw [if_neg hu, Function.update_of_ne hu]
      exact hI.msgs u
  · show List.Forall₂ (s.CmdOk u) (ctx.workers u).cmdRing (s.cmdTags u)
    rw [hring u]
    exact hI.cmds u
  · show ((ctx.workers u).cmdRing.filterMap addFd).Nodup
    rw [hring u]
    exact hI.adds u

theorem ConnInv.posts (hI : s.ConnInv) {l : RelayStep}
    (hl : l = .eof v fd ∨ l = .error v fd ∨ ∃ bytes, l = .frame v fd bytes) (hok : s.connOk l)
    (hs : s.step l = some s') : s'.ConnInv ∧ Quiet s s' ∧
      s'.cp.reg = s.cp.reg ∧ ∀ u, (s'.worker u).routes = (s.worker u).routes := by
  cases ho : s.owner fd with
  | none => rcases hl with rfl | rfl | ⟨bytes, rfl⟩ <;> simp [step, ho] at hs
  | some c =>
    cases hm : (s.worker v).fdMap fd with
    | none => rcases hl with rfl | rfl | ⟨bytes, rfl⟩ <;> simp [step, ho, hm] at hs
    | some p =>
      have hlt := (hI.owner fd c ho).1
      -- a completion: one PeerGone message from the worker, tables untouched
      have note : ∀ w', (∀ q, (w'.ht q).core = ((s.worker v).ht q).core) →
          w'.cmdRing = (s.worker v).cmdRing → w'.routes = (s.worker v).routes →
          w'.pipe = (s.worker v).pipe ++ [⟨((s.worker v).ht p).fd, FrameType.kPeerGone,
            ((s.worker v).ht p).key.data ++ [PeerGoneReason.kDisconnected.toByte]⟩] →
          ¬s.Newer c →
          let s1 := s.post v (s.cp.dataPlane.setWorker v w') c
          s1.ConnInv ∧ Quiet s s1 ∧ s1.cp.reg = s.cp.reg ∧
            ∀ u, (s1.worker u).routes = (s.worker u).routes := by
        intro w' hht hring hroutes hpipe hnew
        have hsel : ∀ u, (s.cp.dataPlane.setWorker v w').workers u =
            if u = v then w' else s.worker u := by
          intro u
          by_cases hu : u = v
          · subst hu
            rw [Ctx.setWorker_self, if_pos rfl]
          · rw [Ctx.setWorker_ne _ _ hu, if_neg hu]
            rfl
        have hpost := hI.post v c (s.cp.dataPlane.setWorker v w')
          [⟨((s.worker v).ht p).fd, FrameType.kPeerGone,
            ((s.worker v).ht p).key.data ++ [PeerGoneReason.kDisconnected.toByte]⟩] rfl
          (fun u q => by rw [hsel]; split <;> simp_all)
          (fun u => by rw [hsel]; split <;> simp_all)
          (fun u => by rw [hsel]; split <;> simp_all)
          (fun m _ => ⟨hlt, fun _ => hnew⟩)
        refine ⟨hpost.1, hpost.2, rfl, fun u => ?_⟩
        show ((s.cp.dataPlane.setWorker v w').workers u).routes = _
        rw [hsel]
        split
        · next hu => rw [hu, hroutes]
        · rfl
      rcases hl with rfl | rfl | ⟨bytes, rfl⟩
      · simp only [step, ho, hm, Option.some.injEq] at hs
        rw [← hs]
        exact note _ (fun _ => rfl) rfl rfl rfl (hok c ho)
      · simp only [step, ho, hm, Option.some.injEq] at hs
        rw [← hs]
        exact note _ (fun _ => rfl) rfl rfl rfl (hok c ho)
      · simp only [step, ho, hm, Option.some.injEq] at hs
        rw [← hs]
        have hcore := dispatchFrame_core s.cp.dataPlane v p bytes
        have hwc := fun u => Ctx.core_worker hcore u
        have hpost := hI.post v c (dispatchFrame s.cp.dataPlane v p bytes)
          (forwarded (s.worker v) p bytes).toList (congrArg Ctx.numWorkers hcore :)
          (fun u q => Worker.core_peer (hwc u) q)
          (fun u => (congrArg Worker.cmdRing (hwc u) :))
          (fun u => dispatchFrame_pipe _ _ _ _ u)
          (fun m hmem => ⟨hlt, fun hg => hok c p m ho hm (Option.mem_toList.mp hmem) hg⟩)
        exact ⟨hpost.1, hpost.2, rfl, fun u => (congrArg Worker.routes (hwc u) :)⟩

theorem Issued.quiet {P : Cmd → Prop} {cp : ControlPlane} {un : List ℕ}
    (h : Issued P s.cp.dataPlane cp.dataPlane) :
    Quiet s { s.issue cp c with unregistered := un } := by
  have hht : ∀ v, ((cp.dataPlane.workers v).ht) = (s.worker v).ht := by
    intro v
    obtain ⟨more, hw, -⟩ := h.worker v
    rw [hw]
    rfl
  exact ⟨h.num, rfl, rfl, rfl, rfl, fun v p => congrArg Peer.occupied (congrFun (hht v) p),
    fun v p => congrArg Peer.key (congrFun (hht v) p),
    fun v p => congrArg Peer.fd (congrFun (hht v) p),
    fun v p => congrArg Peer.rbufAlloc (congrFun (hht v) p)⟩

theorem cmdOk_write {cmd : Cmd} (h : cmd.IsWrite) (hc : c < s.count) (v : ℕ) :
    s.CmdOk v cmd c ∧ addFd cmd = none := by
  cases cmd with
  | write key data => exact ⟨⟨hc, trivial⟩, rfl⟩
  | _ => exact absurd h id

theorem ConnInv.register (hI : s.ConnInv) (hs : s.step (.register c) = some s') :
    s'.ConnInv := by
  simp only [step] at hs
  split at hs
  · next hc =>
    cases hs
    have hissued := doConnect_issued s.cp (s.keyOf c) (s.fdOf c)
    have hcmds := hI.issued hissued fun v cmd hw => cmdOk_write hw (hI.unregistered c hc) v
    refine hI.quiet (Issued.quiet hissued) (fun d hd => List.mem_of_mem_erase hd) (fun v => ?_)
      (fun v => (hcmds v).1) (fun v => (hcmds v).2)
    obtain ⟨more, hw, -⟩ := hissued.worker v
    show List.Forall₂ s.MsgOk
      ((doConnect s.cp (s.keyOf c) (s.fdOf c)).dataPlane.workers v).pipe (s.pipeTags v)
    rw [hw]
    exact hI.msgs v
  · cases hs

/-! ### The control thread -/

/-- The first message of worker `v` and its tag are off the pipe. -/
def takeMsg (s : Relay) (v : ℕ) (rest : List PipeMsg) (tags : List ℕ) : Relay :=
  { s.setCtx (s.cp.dataPlane.onWorker v fun w => { w with pipe := rest }) with
    pipeTags := Function.update s.pipeTags v tags }

theorem takeMsg_worker (s : Relay) (v : ℕ) (rest : List PipeMsg) (tags : List ℕ) (u : ℕ) :
    (s.takeMsg v rest tags).worker u =
      if u = v then { s.worker v with pipe := rest } else s.worker u := by
  by_cases hu : u = v
  · subst hu
    rw [if_pos rfl]
    exact Ctx.setWorker_self _ _ _
  · rw [if_neg hu]
    exact Ctx.setWorker_ne _ _ hu

theorem takeMsg_same (s : Relay) (v : ℕ) (rest : List PipeMsg) (tags : List ℕ) (u : ℕ) :
    ∃ pipe, (s.takeMsg v rest tags).worker u = { s.worker u with pipe := pipe } := by
  rw [takeMsg_worker]
  split
  · next hu => exact ⟨rest, by rw [hu]⟩
  · exact ⟨(s.worker u).pipe, rfl⟩

theorem quiet_takeMsg (s : Relay) (v : ℕ) (rest : List PipeMsg) (tags : List ℕ) :
    Quiet s (s.takeMsg v rest tags) := by
  have hht : ∀ u, ((s.takeMsg v rest tags).worker u).ht = (s.worker u).ht := by
    intro u
    obtain ⟨pipe, h⟩ := takeMsg_same s v rest tags u
    rw [h]
  exact ⟨rfl, rfl, rfl, rfl, rfl, fun u p => by rw [hht], fun u p => by rw [hht],
    fun u p => by rw [hht], fun u p => by rw [hht]⟩

theorem regAfter_congr {cp cp' : ControlPlane} (h : cp'.reg = cp.reg) (fd : Fd) (type : FrameType)
    (payload : Bytes) :
    regAfter cp' fd type payload = regAfter cp fd type payload := by
  unfold regAfter notePreferred handleNotePreferred ControlPlane.peerOf
  rw [h]
  cases payload with
  | nil => simp only [h]
  | cons b rest =>
    dsimp only
    split
    · split <;> simp only [h]
    · rfl

theorem step_control (hs : s.step (.control v) = some s') :
    ∃ m rest c tags, (s.worker v).pipe = m :: rest ∧ s.pipeTags v = c :: tags ∧
      s'.cp.reg = regAfter s.cp m.fd m.type m.payload ∧
      Issued (MayIssue m.type m.payload) (s.takeMsg v rest tags).cp.dataPlane s'.cp.dataPlane ∧
      s' = (s.takeMsg v rest tags).issue s'.cp c := by
  simp only [step, popPipe] at hs
  cases hp : (s.cp.dataPlane.workers v).pipe with
  | nil => simp [hp] at hs
  | cons m rest =>
    cases ht : s.pipeTags v with
    | nil => simp [hp, ht] at hs
    | cons c tags =>
      simp only [hp, ht, Option.some.injEq] at hs
      have heff := cpProcessFrame_effect (s.takeMsg v rest tags).cp m.fd m.type m.payload
      refine ⟨m, rest, c, tags, hp, rfl, ?_, ?_, ?_⟩
      · have hreg : (s.takeMsg v rest tags).cp.reg = s.cp.reg := rfl
        rw [← hs]
        exact heff.reg.trans (regAfter_congr hreg _ _ _)
      · rw [← hs]
        exact heff.issued
      · rw [← hs]
        have htags : ∀ ctx, s.tagCmds ctx c = (s.takeMsg v rest tags).tagCmds ctx c := by
          intro ctx
          funext u
          obtain ⟨pipe, h⟩ := takeMsg_same s v rest tags u
          simp only [tagCmds, h]
          rfl
        simp only [issue, htags]
        rfl

theorem ConnInv.takeMsg (hI : s.ConnInv) {m : PipeMsg} {rest : List PipeMsg} {tags : List ℕ}
    (hp : (s.worker v).pipe = m :: rest) (ht : s.pipeTags v = c :: tags) :
    (s.takeMsg v rest tags).ConnInv ∧ s.MsgOk m c := by
  have hmsg := hI.msgs v
  rw [hp, ht] at hmsg
  obtain ⟨hm, hrest⟩ := List.forall₂_cons.mp hmsg
  refine ⟨hI.quiet (quiet_takeMsg s v rest tags) (fun _ h => h) (fun u => ?_) (fun u => ?_)
    (fun u => ?_), hm⟩
  · rw [takeMsg_worker]
    show List.Forall₂ s.MsgOk _ (Function.update s.pipeTags v tags u)
    by_cases hu : u = v
    · subst hu
      rw [if_pos rfl, Function.update_self]
      exact hrest
    · rw [if_neg hu, Function.update_of_ne hu]
      exact hI.msgs u
  · obtain ⟨pipe, h⟩ := takeMsg_same s v rest tags u
    rw [h]
    exact hI.cmds u
  · obtain ⟨pipe, h⟩ := takeMsg_same s v rest tags u
    rw [h]
    exact hI.adds u

theorem ConnInv.control (hI : s.ConnInv) (hs : s.step (.control v) = some s') :
    s'.ConnInv := by
  obtain ⟨m, rest, c, tags, hp, ht, -, hissued, hs'⟩ := step_control hs
  obtain ⟨hI0, hm⟩ := hI.takeMsg hp ht
  have hm0 := (quiet_takeMsg s v rest tags).msgOk hm
  have hcmds := hI0.issued (c := c) hissued fun u cmd hmay => by
    rcases hmay with hw | ⟨k, hk, rfl⟩
    · exact cmdOk_write hw hm0.1 u
    · exact ⟨⟨hm0.1, fun hkey => hm0.2 (by rw [← hkey]; exact hk)⟩, rfl⟩
  rw [hs']
  refine hI0.quiet (Issued.quiet hissued) (fun _ h => h) (fun u => ?_) (fun u => (hcmds u).1)
    (fun u => (hcmds u).2)
  obtain ⟨more, hw, -⟩ := hissued.worker u
  show List.Forall₂ _ (s'.cp.dataPlane.workers u).pipe ((s.takeMsg v rest tags).pipeTags u)
  rw [hw]
  exact hI0.msgs u

/-! ### Accepting -/

/-- The state after an accept, with the ring of the key's worker extended. -/
structure Accepted (s : Relay) (fd : Fd) (key : Key) (s' : Relay) : Prop where
  free : s.owner fd = none
  num : s'.cp.dataPlane.numWorkers = s.cp.dataPlane.numWorkers
  count : s'.count = s.count + 1
  keyOf : s'.keyOf = Function.update s.keyOf s.count key
  fdOf : s'.fdOf = Function.update s.fdOf s.count fd
  owner : s'.owner = Function.update s.owner fd (some s.count)
  unregistered : s'.unregistered = s.unregistered ++ [s.count]
  pipeTags : s'.pipeTags = s.pipeTags
  ring : ∃ proto peerId, ∀ u, ∃ more, s'.worker u =
      { s.worker u with cmdRing := (s.worker u).cmdRing ++ more } ∧
    s'.cmdTags u = s.cmdTags u ++ List.replicate more.length s.count ∧
    (more = [] ∨ u = s.home key ∧ more = [.addPeer fd key proto peerId])

theorem step_accept (hs : s.step (.accept fd key proto peerId) = some s') :
    Accepted s fd key s' := by
  simp only [step] at hs
  split at hs
  · next hf =>
    cases hs
    refine ⟨hf, rfl, rfl, rfl, rfl, rfl, rfl, rfl, proto, peerId, fun u => ?_⟩
    obtain ⟨more, hw, hm⟩ := enqueueCmd_worker s.cp.dataPlane (s.home key)
      (.addPeer fd key proto peerId) u
    refine ⟨more, hw, ?_, hm⟩
    show s.cmdTags u ++ List.replicate (((enqueueCmd s.cp.dataPlane (s.home key)
      (.addPeer fd key proto peerId)).workers u).cmdRing.length - (s.worker u).cmdRing.length)
        s.count = _
    rw [hw]
    simp [worker]
  · cases hs

section Accepted

variable {fd : Fd} {key : Key} (h : Accepted s fd key s')

include h

variable {c : ℕ}

theorem Accepted.keyOf_old (hc : c < s.count) : s'.keyOf c = s.keyOf c := by
  rw [h.keyOf, Function.update_of_ne (Nat.ne_of_lt hc)]

theorem Accepted.ht (u : ℕ) : (s'.worker u).ht = (s.worker u).ht := by
  obtain ⟨proto, peerId, hr⟩ := h.ring
  obtain ⟨more, hw, -⟩ := hr u
  rw [hw]

theorem Accepted.owner_old {f : Fd} (hf : s.owner f = some c) : s'.owner f = some c := by
  have hne : f ≠ fd := by
    rintro rfl
    rw [h.free] at hf
    cases hf
  rw [h.owner, Function.update_of_ne hne]
  exact hf

theorem Accepted.newer (hc : c < s.count) (hn : s'.Newer c) :
    s.Newer c ∨ s.keyOf c = key := by
  obtain ⟨c2, hlt, hc2, hk, ho⟩ := hn
  rw [h.count] at hc2
  rw [h.keyOf_old hc] at hk
  rcases Nat.lt_succ_iff_lt_or_eq.mp hc2 with hold | rfl
  · rw [h.keyOf_old hold] at hk
    refine .inl ⟨c2, hlt, hold, hk, ?_⟩
    rw [IsOpen, h.fdOf, Function.update_of_ne (Nat.ne_of_lt hold), h.owner] at ho
    by_cases hf : s.fdOf c2 = fd
    · rw [hf, Function.update_self, Option.some.injEq] at ho
      omega
    · rw [Function.update_of_ne hf] at ho
      exact ho
  · rw [h.keyOf, Function.update_self] at hk
    exact .inr hk.symm

theorem Accepted.msgOk {m : PipeMsg} (hm : s.MsgOk m c)
    (hg : s.keyOf c = key → goneMsg m ≠ some key) : s'.MsgOk m c := by
  refine ⟨by rw [h.count]; exact Nat.lt_succ_of_lt hm.1, fun hgone hn => ?_⟩
  rw [h.keyOf_old hm.1] at hgone
  rcases h.newer hm.1 hn with hn | hk
  · exact hm.2 hgone hn
  · rw [hk] at hgone
    exact hg hk hgone

theorem Accepted.cmdOk {v : ℕ} {cmd : Cmd} (hc : s.CmdOk v cmd c)
    (hr : s.keyOf c = key → cmd ≠ .removePeer key) : s'.CmdOk v cmd c := by
  refine ⟨by rw [h.count]; exact Nat.lt_succ_of_lt hc.1, ?_⟩
  have h2 := hc.2
  cases cmd with
  | addPeer f k proto id =>
    obtain ⟨ho, hk, hh, hl⟩ := h2
    refine ⟨h.owner_old ho, by rw [h.keyOf_old hc.1]; exact hk, ?_, fun u p hp => ?_⟩
    · rw [home, h.num]
      exact hh
    · rw [h.ht] at hp ⊢
      exact hl u p hp
  | removePeer k =>
    intro hk hn
    rw [h.keyOf_old hc.1] at hk
    rcases h.newer hc.1 hn with hn | hkey
    · exact h2 hk hn
    · exact hr hkey (by rw [hk, hkey])
  | write key data => trivial
  | stop => exact h2
  | setFwdRule key dst => exact h2
  | movePeerOut key => exact h2

end Accepted

theorem ConnInv.add_owned (hI : s.ConnInv) {f : Fd} (h : f ∈ (s.worker v).cmdRing.filterMap addFd) :
    ∃ c, s.owner f = some c := by
  obtain ⟨cmd, hmem, hf⟩ := List.mem_filterMap.mp h
  obtain ⟨c, -, hok⟩ := forall₂_mem (hI.cmds v) hmem
  cases cmd with
  | addPeer fd k proto id =>
    cases hf
    exact ⟨c, hok.2.1⟩
  | _ => cases hf

theorem ConnInv.accept (hI : s.ConnInv) (hok : s.connOk (.accept fd key proto peerId))
    (hs : s.step (.accept fd key proto peerId) = some s') : s'.ConnInv := by
  have h := step_accept hs
  obtain ⟨proto', peerId', hring⟩ := h.ring
  have hnew : ∀ u, u = s.home key → s'.CmdOk u (.addPeer fd key proto' peerId') s.count := by
    intro u hu
    refine ⟨by rw [h.count]; exact Nat.lt_succ_self _, ?_, ?_, ?_, fun u p hp hfd => ?_⟩
    · rw [h.owner, Function.update_self]
    · rw [h.keyOf, Function.update_self]
    · rw [home, h.num]
      exact hu.symm
    · rw [h.ht] at hp hfd
      obtain ⟨c, ho, -⟩ := hI.entry u p hp
      rw [hfd, h.free] at ho
      cases ho
  constructor
  case pos => rw [h.num]; exact hI.pos
  case table =>
    intro v
    obtain ⟨more, hw, -⟩ := hring v
    rw [hw]
    exact ⟨(hI.table v).inv, (hI.table v).rbuf⟩
  case owner =>
    intro f c hf
    rw [h.owner] at hf
    rw [h.count, h.fdOf]
    by_cases hfd : f = fd
    · subst hfd
      rw [Function.update_self, Option.some.injEq] at hf
      subst hf
      exact ⟨Nat.lt_succ_self _, Function.update_self ..⟩
    · rw [Function.update_of_ne hfd] at hf
      obtain ⟨hc, hfc⟩ := hI.owner f c hf
      exact ⟨Nat.lt_succ_of_lt hc, by rw [Function.update_of_ne (Nat.ne_of_lt hc)]; exact hfc⟩
  case entry =>
    intro v p hp
    rw [h.ht] at hp ⊢
    obtain ⟨c, ho, hk, hh⟩ := hI.entry v p hp
    refine ⟨c, h.owner_old ho, by rw [h.keyOf_old (hI.owner _ _ ho).1]; exact hk, ?_⟩
    rw [home, h.num]
    exact hh
  case unregistered =>
    intro c hc
    rw [h.unregistered, List.mem_append, List.mem_singleton] at hc
    rw [h.count]
    rcases hc with hc | rfl
    · exact Nat.lt_succ_of_lt (hI.unregistered c hc)
    · exact Nat.lt_succ_self _
  case msgs =>
    intro v
    obtain ⟨more, hw, -⟩ := hring v
    rw [hw, h.pipeTags]
    exact forall₂_imp_zip (hI.msgs v) fun m c hm hmem =>
      h.msgOk hm fun hk => (hok v c hk).1 m hmem
  case cmds =>
    intro v
    obtain ⟨more, hw, ht, hm⟩ := hring v
    rw [hw, ht]
    refine List.rel_append (forall₂_imp_zip (hI.cmds v) fun cmd c hc hmem => h.cmdOk hc ?_)
      (forall₂_replicate fun cmd hmem => ?_)
    · rintro hk rfl
      exact (hok v c hk).2 hmem
    · rcases hm with rfl | ⟨hv, rfl⟩
      · cases hmem
      · rw [List.mem_singleton.mp hmem]
        exact hnew v hv
  case adds =>
    intro v
    obtain ⟨more, hw, -, hm⟩ := hring v
    rw [hw]
    show ((s.worker v).cmdRing ++ more).filterMap addFd |>.Nodup
    rcases hm with rfl | ⟨hv, rfl⟩
    · rw [List.append_nil]
      exact hI.adds v
    · rw [List.filterMap_append]
      refine List.nodup_append.mpr ⟨hI.adds v, by simp [addFd], fun f hf g hg hfg => ?_⟩
      obtain ⟨c, hc⟩ := hI.add_owned hf
      simp only [addFd, List.filterMap_cons, List.filterMap_nil, List.mem_singleton] at hg
      rw [hfg, hg, h.free] at hc
      cases hc

/-! ### Worker commands -/

/-- The first command of worker `v` and its tag are off the ring. -/
def takeCmd (s : Relay) (v : ℕ) (rest : List Cmd) (tags : List ℕ) : Relay :=
  { s.setCtx (s.cp.dataPlane.onWorker v fun w => { w with cmdRing := rest }) with
    cmdTags := Function.update s.cmdTags v tags }

def afterCmd (s : Relay) (ctx : Ctx) (closed : Option Fd) : Relay :=
  { s.setCtx ctx with
    owner :=
      match closed with
      | some fd => Function.update s.owner fd none
      | none => s.owner }

theorem step_work (hI : s.ConnInv) (hs : s.step (.work v) = some s') :
    ∃ cmd rest c tags, (s.worker v).cmdRing = cmd :: rest ∧ s.cmdTags v = c :: tags ∧
      s' = (s.takeCmd v rest tags).afterCmd
        (processCmd (s.takeCmd v rest tags).cp.dataPlane v cmd).1
        (processCmd (s.takeCmd v rest tags).cp.dataPlane v cmd).2 := by
  simp only [step, popCmd] at hs
  have hcmds := hI.cmds v
  cases hp : (s.worker v).cmdRing with
  | nil =>
    have hp' : (s.cp.dataPlane.workers v).cmdRing = [] := hp
    simp [hp'] at hs
  | cons cmd rest =>
    have hp' : (s.cp.dataPlane.workers v).cmdRing = cmd :: rest := hp
    rw [hp] at hcmds
    obtain ⟨c, tags, -, -, ht⟩ := List.forall₂_cons_left_iff.mp hcmds
    simp only [hp', ht, List.tail_cons, Option.some.injEq] at hs
    exact ⟨cmd, rest, c, tags, rfl, ht, hs.symm⟩

theorem takeCmd_worker (s : Relay) (v : ℕ) (rest : List Cmd) (tags : List ℕ) (u : ℕ) :
    (s.takeCmd v rest tags).worker u =
      if u = v then { s.worker v with cmdRing := rest } else s.worker u := by
  by_cases hu : u = v
  · subst hu
    rw [if_pos rfl]
    exact Ctx.setWorker_self _ _ _
  · rw [if_neg hu]
    exact Ctx.setWorker_ne _ _ hu

theorem takeCmd_same (s : Relay) (v : ℕ) (rest : List Cmd) (tags : List ℕ) (u : ℕ) :
    ∃ ring, (s.takeCmd v rest tags).worker u = { s.worker u with cmdRing := ring } := by
  rw [takeCmd_worker]
  split
  · next hu => exact ⟨rest, by rw [hu]⟩
  · exact ⟨(s.worker u).cmdRing, rfl⟩

theorem quiet_takeCmd (s : Relay) (v : ℕ) (rest : List Cmd) (tags : List ℕ) :
    Quiet s (s.takeCmd v rest tags) := by
  have hht : ∀ u, ((s.takeCmd v rest tags).worker u).ht = (s.worker u).ht := by
    intro u
    obtain ⟨ring, h⟩ := takeCmd_same s v rest tags u
    rw [h]
  exact ⟨rfl, rfl, rfl, rfl, rfl, fun u p => by rw [hht], fun u p => by rw [hht],
    fun u p => by rw [hht], fun u p => by rw [hht]⟩

theorem ConnInv.takeCmd (hI : s.ConnInv) {cmd : Cmd} {rest : List Cmd} {tags : List ℕ}
    (hp : (s.worker v).cmdRing = cmd :: rest) (ht : s.cmdTags v = c :: tags) :
    (s.takeCmd v rest tags).ConnInv ∧ (s.takeCmd v rest tags).CmdOk v cmd c ∧
      ∀ fd, addFd cmd = some fd →
        fd ∉ ((s.takeCmd v rest tags).worker v).cmdRing.filterMap addFd := by
  have hq := quiet_takeCmd s v rest tags
  have hcmds := hI.cmds v
  have hadds := hI.adds v
  rw [hp, ht] at hcmds
  rw [hp] at hadds
  obtain ⟨hc, hrest⟩ := List.forall₂_cons.mp hcmds
  have hring : ((s.takeCmd v rest tags).worker v).cmdRing = rest := by
    rw [takeCmd_worker, if_pos rfl]
  refine ⟨hI.quiet hq (fun _ h => h) (fun u => ?_) (fun u => ?_) (fun u => ?_), hq.cmdOk hc,
    fun fd hfd => ?_⟩
  · obtain ⟨ring, h⟩ := takeCmd_same s v rest tags u
    rw [h]
    exact hI.msgs u
  · rw [takeCmd_worker]
    show List.Forall₂ (s.CmdOk u) _ (Function.update s.cmdTags v tags u)
    by_cases hu : u = v
    · subst hu
      rw [if_pos rfl, Function.update_self]
      exact hrest
    · rw [if_neg hu, Function.update_of_ne hu]
      exact hI.cmds u
  · rw [takeCmd_worker]
    by_cases hu : u = v
    · subst hu
      rw [if_pos rfl]
      exact hadds.sublist ((List.sublist_cons_self cmd rest).filterMap addFd)
    · rw [if_neg hu]
      exact hI.adds u
  · rw [hring]
    rw [List.filterMap_cons, hfd] at hadds
    exact (List.nodup_cons.mp hadds).1

theorem ConnInv.send (hI : s.ConnInv) {ctx : Ctx}
    (hnum : ctx.numWorkers = s.cp.dataPlane.numWorkers)
    (hht : ∀ u p, ((ctx.workers u).ht p).core = ((s.worker u).ht p).core)
    (hring : ∀ u, (ctx.workers u).cmdRing = (s.worker u).cmdRing)
    (hpipe : ∀ u, (ctx.workers u).pipe = (s.worker u).pipe) : (s.afterCmd ctx none).ConnInv := by
  have hq : Quiet s (s.afterCmd ctx none) :=
    ⟨hnum, rfl, rfl, rfl, rfl, fun u p => (congrArg Peer.occupied (hht u p) :),
      fun u p => (congrArg Peer.key (hht u p) :), fun u p => (congrArg Peer.fd (hht u p) :),
      fun u p => (congrArg Peer.rbufAlloc (hht u p) :)⟩
  refine hI.quiet hq (fun _ h => h) (fun u => ?_) (fun u => ?_) (fun u => ?_)
  · show List.Forall₂ s.MsgOk (ctx.workers u).pipe (s.pipeTags u)
    rw [hpipe u]
    exact hI.msgs u
  · show List.Forall₂ (s.CmdOk u) (ctx.workers u).cmdRing (s.cmdTags u)
    rw [hring u]
    exact hI.cmds u
  · show ((ctx.workers u).cmdRing.filterMap addFd).Nodup
    rw [hring u]
    exact hI.adds u

theorem ConnInv.send_worker (hI : s.ConnInv) {w : Worker} (hcore : w.core = (s.worker v).core)
    (hpipe : w.pipe = (s.worker v).pipe) :
    (s.afterCmd (s.cp.dataPlane.setWorker v w) none).ConnInv := by
  have hsel : ∀ u, (s.cp.dataPlane.setWorker v w).workers u = if u = v then w else s.worker u := by
    intro u
    by_cases hu : u = v
    · subst hu
      rw [Ctx.setWorker_self, if_pos rfl]
    · rw [Ctx.setWorker_ne _ _ hu, if_neg hu]
      rfl
  refine hI.send rfl (fun u p => ?_) (fun u => ?_) (fun u => ?_)
  · rw [hsel]
    split
    · next hu => rw [hu]; exact Worker.core_peer hcore p
    · rfl
  · rw [hsel]
    split
    · next hu => rw [hu]; exact (congrArg Worker.cmdRing hcore :)
    · rfl
  · rw [hsel]
    split
    · next hu => rw [hu]; exact hpipe
    · rfl

theorem ConnInv.write (hI : s.ConnInv) (v : ℕ) (key : Key) (data : Bytes) :
    (s.afterCmd (processCmdWrite s.cp.dataPlane v key data) none).ConnInv := by
  unfold processCmdWrite
  split
  · exact hI.send rfl (fun _ _ => rfl) (fun _ => rfl) (fun _ => rfl)
  · next p hp =>
    refine hI.send_worker ?_ (allocEnqueue_pipe _ _ _)
    have heff : Effs v p (fun _ _ => True) (fun _ _ => True) s.cp.dataPlane
        (s.cp.dataPlane.setWorker v (allocEnqueue (s.worker v) p data)) :=
      allocEnqueue_effs trivial
    have hcore := Ctx.core_worker heff.core v
    rw [Ctx.setWorker_self] at hcore
    exact hcore

theorem ConnInv.entry_unique (hI : s.ConnInv) {u : ℕ} {p q : Slot}
    (hp : ((s.worker u).ht p).occupied = .live) (hq : ((s.worker v).ht q).occupied = .live)
    (hfd : ((s.worker u).ht p).fd = ((s.worker v).ht q).fd) : u = v ∧ p = q := by
  obtain ⟨c, ho, hk, hh⟩ := hI.entry u p hp
  obtain ⟨d, ho', hk', hh'⟩ := hI.entry v q hq
  rw [hfd, ho', Option.some.injEq] at ho
  subst ho
  have huv : u = v := by rw [← hh, ← hh', ← hk, ← hk']
  subst huv
  exact ⟨rfl, (hI.table u).inv.unique _ p q ⟨hp, rfl⟩ ⟨hq, hk'.symm.trans hk⟩⟩

theorem ConnInv.add (hI : s.ConnInv) (hc : s.CmdOk v (.addPeer fd key proto peerId) c)
    (hfd : fd ∉ (s.worker v).cmdRing.filterMap addFd) :
    (s.afterCmd (processCmdAdd s.cp.dataPlane v fd key proto peerId) none).ConnInv := by
  obtain ⟨hlt, ho, hk, hh, hfresh⟩ := hc
  rcases processCmdAdd_spec (hI.table v) fd key proto peerId with
    ⟨ao, heq⟩ | ⟨p, -, hfind, -, hA, -, hother⟩
  · rw [heq]
    exact hI.send_worker rfl rfl
  · generalize hctx : processCmdAdd s.cp.dataPlane v fd key proto peerId = ctx at hA hother
    have hnum : ctx.numWorkers = s.cp.dataPlane.numWorkers := by
      rw [← hctx]
      exact processCmdAdd_numWorkers ..
    have hold : ∀ u q, ¬(u = v ∧ q = p) → (ctx.workers u).ht q = (s.worker u).ht q := by
      intro u q hne
      by_cases hu : u = v
      · subst hu
        exact hA.other q fun hq => hne ⟨rfl, hq⟩
      · obtain ⟨routes, io, h⟩ := hother u hu
        rw [h]
        rfl
    have hring : ∀ u, (ctx.workers u).cmdRing = (s.worker u).cmdRing := by
      intro u
      by_cases hu : u = v
      · subst hu
        exact hA.cmds
      · obtain ⟨routes, io, h⟩ := hother u hu
        rw [h]
        rfl
    have hpipe : ∀ u, (ctx.workers u).pipe = (s.worker u).pipe := by
      intro u
      by_cases hu : u = v
      · subst hu
        exact hA.pipe
      · obtain ⟨routes, io, h⟩ := hother u hu
        rw [h]
        rfl
    have hslotFd : ((ctx.workers v).ht p).fd = fd := (congrArg Peer.fd hA.slot :)
    have hslotKey : ((ctx.workers v).ht p).key = key := (congrArg Peer.key hA.slot :)
    constructor
    case pos => rw [afterCmd, setCtx, hnum]; exact hI.pos
    case table =>
      intro u
      by_cases hu : u = v
      · subst hu
        exact hA.tableOk (hI.table u) hfind
      · exact (hother u hu).tableOk (hI.table u)
    case owner => exact hI.owner
    case entry =>
      intro u q hq
      show ∃ d, s.owner ((ctx.workers u).ht q).fd = some d ∧
        s.keyOf d = ((ctx.workers u).ht q).key ∧
        peerWorker ctx.numWorkers ((ctx.workers u).ht q).key = u
      rw [hnum]
      by_cases hnew : u = v ∧ q = p
      · obtain ⟨rfl, rfl⟩ := hnew
        rw [hslotFd, hslotKey]
        exact ⟨c, ho, hk, hh⟩
      · rw [hold u q hnew]
        refine hI.entry u q ?_
        rw [← hold u q hnew]
        exact hq
    case unregistered => exact hI.unregistered
    case msgs =>
      intro u
      show List.Forall₂ s.MsgOk (ctx.workers u).pipe (s.pipeTags u)
      rw [hpipe]
      exact hI.msgs u
    case cmds =>
      intro u
      show List.Forall₂ _ (ctx.workers u).cmdRing (s.cmdTags u)
      rw [hring]
      refine forall₂_imp_zip (hI.cmds u) fun cmd d hd hmem => ⟨hd.1, ?_⟩
      have h2 := hd.2
      cases cmd with
      | addPeer f k pr id =>
        obtain ⟨ho', hk', hh', hl⟩ := h2
        refine ⟨ho', hk', by rw [home, afterCmd, setCtx, hnum]; exact hh', fun u' q hq => ?_⟩
        by_cases hnew : u' = v ∧ q = p
        · obtain ⟨rfl, rfl⟩ := hnew
          -- a second add of the same fd would be on the same ring
          show ((ctx.workers u').ht q).fd ≠ f
          rw [hslotFd]
          rintro rfl
          rw [ho, Option.some.injEq] at ho'
          have huv : u = u' := by rw [← hh, ← hh', ← hk, ← hk', ho']
          subst huv
          exact hfd (List.mem_filterMap.mpr ⟨_, (List.of_mem_zip hmem).1, rfl⟩)
        · change ((ctx.workers u').ht q).occupied = .live at hq
          show ((ctx.workers u').ht q).fd ≠ f
          rw [hold u' q hnew] at hq ⊢
          exact hl u' q hq
      | removePeer k => exact h2
      | write key data => trivial
      | stop => exact h2
      | setFwdRule key dst => exact h2
      | movePeerOut key => exact h2
    case adds =>
      intro u
      show ((ctx.workers u).cmdRing.filterMap addFd).Nodup
      rw [hring]
      exact hI.adds u

/-! ### Removing -/

structure Removed (s : Relay) (v : ℕ) (p : Slot) (s' : Relay) : Prop where
  live : ((s.worker v).ht p).occupied = .live
  num : s'.cp.dataPlane.numWorkers = s.cp.dataPlane.numWorkers
  same : s'.count = s.count ∧ s'.keyOf = s.keyOf ∧ s'.fdOf = s.fdOf ∧
    s'.unregistered = s.unregistered ∧ s'.pipeTags = s.pipeTags ∧ s'.cmdTags = s.cmdTags
  owner : ∀ f, s'.owner f = s.owner f ∨ f = ((s.worker v).ht p).fd ∧ s'.owner f = none
  table : ∀ u, TableOk (s'.worker u)
  dead : ((s'.worker v).ht p).occupied = .tombstone
  other : ∀ u q, ¬(u = v ∧ q = p) → (s'.worker u).ht q = (s.worker u).ht q
  ring : ∀ u, (s'.worker u).cmdRing = (s.worker u).cmdRing
  pipe : ∀ u, (s'.worker u).pipe = (s.worker u).pipe

theorem removed_remove (hI : s.ConnInv) {p : Slot} (hp : htLookup (s.worker v) key = some p) :
    Removed s v p (s.afterCmd (processCmdRemove s.cp.dataPlane v key).1
      (processCmdRemove s.cp.dataPlane v key).2) := by
  have hspec : PeerRemoved (s.cp.dataPlane.workers v) p _ ∧ _ := processCmdRemove_spec hp
  obtain ⟨hR, -, hother⟩ := hspec
  have hclosed : (processCmdRemove s.cp.dataPlane v key).2 =
      if validFd ((s.worker v).ht p).fd then some ((s.worker v).ht p).fd else none := by
    have hp' : htLookup (s.cp.dataPlane.workers v) key = some p := hp
    simp only [processCmdRemove, hp']
    rfl
  have hnum : (processCmdRemove s.cp.dataPlane v key).1.numWorkers =
      s.cp.dataPlane.numWorkers := by
    unfold processCmdRemove
    dsimp only
    split <;> rfl
  generalize hctx : (processCmdRemove s.cp.dataPlane v key).1 = ctx at hR hother hnum
  have hsel : ∀ u, u ≠ v → ∃ routes io, ctx.workers u =
      { s.worker u with routes := routes, io := io } := fun u hu => hother u hu
  constructor
  case live => exact ((hI.table v).lookup_iff.mp hp).1
  case num => exact hnum
  case same => exact ⟨rfl, rfl, rfl, rfl, rfl, rfl⟩
  case owner =>
    intro f
    rw [hclosed]
    split
    · by_cases hf : f = ((s.worker v).ht p).fd
      · exact .inr ⟨hf, by rw [hf]; exact Function.update_self ..⟩
      · exact .inl (Function.update_of_ne hf _ _)
    · exact .inl rfl
  case table =>
    intro u
    by_cases hu : u = v
    · subst hu
      exact hR.tableOk (hI.table u)
    · exact (hother u hu).tableOk (hI.table u)
  case dead =>
    show ((ctx.workers v).ht p).occupied = .tombstone
    rw [hR.slot]
    rfl
  case other =>
    intro u q hne
    show (ctx.workers u).ht q = _
    by_cases hu : u = v
    · subst hu
      exact hR.other q fun hq => hne ⟨rfl, hq⟩
    · obtain ⟨routes, io, h⟩ := hsel u hu
      rw [h]
  case ring =>
    intro u
    show (ctx.workers u).cmdRing = _
    by_cases hu : u = v
    · subst hu
      exact hR.cmds
    · obtain ⟨routes, io, h⟩ := hsel u hu
      rw [h]
  case pipe =>
    intro u
    show (ctx.workers u).pipe = _
    by_cases hu : u = v
    · subst hu
      exact hR.pipe
    · obtain ⟨routes, io, h⟩ := hsel u hu
      rw [h]

section Removed

variable {v : ℕ} {p : Slot} (h : Removed s v p s')

include h

theorem Removed.live_old {u : ℕ} {q : Slot} (hq : ((s'.worker u).ht q).occupied = .live) :
    ¬(u = v ∧ q = p) ∧ ((s.worker u).ht q).occupied = .live := by
  have hne : ¬(u = v ∧ q = p) := by
    rintro ⟨rfl, rfl⟩
    rw [h.dead] at hq
    cases hq
  rw [h.other u q hne] at hq
  exact ⟨hne, hq⟩

theorem Removed.owner_old {f : Fd} (hf : f ≠ ((s.worker v).ht p).fd) : s'.owner f = s.owner f :=
  (h.owner f).resolve_right fun hr => hf hr.1

theorem Removed.newer {c : ℕ} (hn : s'.Newer c) : s.Newer c := by
  obtain ⟨c2, hlt, hc2, hk, ho⟩ := hn
  obtain ⟨h1, h2, h3, -⟩ := h.same
  rw [h1] at hc2
  rw [h2] at hk
  refine ⟨c2, hlt, hc2, hk, ?_⟩
  rw [IsOpen, h3] at ho
  rcases h.owner (s.fdOf c2) with he | ⟨-, he⟩
  · rw [IsOpen, ← he]
    exact ho
  · rw [he] at ho
    cases ho

theorem ConnInv.remove (hI : s.ConnInv) : s'.ConnInv := by
  obtain ⟨h1, h2, h3, h4, h5, h6⟩ := h.same
  have hhome : ∀ k, s'.home k = s.home k := fun k => by rw [home, home, h.num]
  constructor
  case pos => rw [h.num]; exact hI.pos
  case table => exact h.table
  case owner =>
    intro f c hf
    rw [h1, h3]
    rcases h.owner f with he | ⟨-, he⟩
    · rw [he] at hf
      exact hI.owner f c hf
    · rw [he] at hf
      cases hf
  case entry =>
    intro u q hq
    obtain ⟨hne, hlive⟩ := h.live_old hq
    obtain ⟨c, ho, hk, hh⟩ := hI.entry u q hlive
    rw [h.other u q hne, h2, hhome]
    refine ⟨c, ?_, hk, hh⟩
    rw [h.owner_old fun hfd => hne (hI.entry_unique hlive h.live hfd)]
    exact ho
  case unregistered => rw [h4, h1]; exact hI.unregistered
  case msgs =>
    intro u
    rw [h.pipe, h5]
    refine (hI.msgs u).imp fun m c hm => ⟨by rw [h1]; exact hm.1, fun hg hn => ?_⟩
    rw [h2] at hg
    exact hm.2 hg (h.newer hn)
  case cmds =>
    intro u
    rw [h.ring, h6]
    refine (hI.cmds u).imp fun cmd c hc => ⟨by rw [h1]; exact hc.1, ?_⟩
    have hc2 := hc.2
    cases cmd with
    | addPeer f k pr id =>
      obtain ⟨ho, hk, hh, hl⟩ := hc2
      refine ⟨?_, by rw [h2]; exact hk, by rw [hhome]; exact hh, fun u' q hq => ?_⟩
      · rw [h.owner_old fun hfd => hl v p h.live hfd.symm]
        exact ho
      · obtain ⟨hne, hlive⟩ := h.live_old hq
        rw [h.other u' q hne]
        exact hl u' q hlive
    | removePeer k =>
      intro hk hn
      rw [h2] at hk
      exact hc2 hk (h.newer hn)
    | write key data => trivial
    | stop => exact hc2
    | setFwdRule key dst => exact hc2
    | movePeerOut key => exact hc2
  case adds =>
    intro u
    rw [h.ring]
    exact hI.adds u

end Removed

theorem ConnInv.work (hI : s.ConnInv) (hs : s.step (.work v) = some s') : s'.ConnInv := by
  obtain ⟨cmd, rest, c, tags, hp, ht, rfl⟩ := step_work hI hs
  obtain ⟨hI0, hc, hfd⟩ := hI.takeCmd hp ht
  cases cmd with
  | addPeer fd key proto id => exact hI0.add hc (hfd fd rfl)
  | removePeer key =>
    cases hl : htLookup ((s.takeCmd v rest tags).worker v) key with
    | none =>
      have hnone : processCmdRemove (s.takeCmd v rest tags).cp.dataPlane v key =
        ((s.takeCmd v rest tags).cp.dataPlane, none) := processCmdRemove_none hl
      simp only [processCmd, hnone]
      exact hI0.send rfl (fun _ _ => rfl) (fun _ => rfl) (fun _ => rfl)
    | some p => exact ConnInv.remove (removed_remove hI0 hl) hI0
  | write key data => exact hI0.write v key data
  | stop => exact absurd hc.2 id
  | setFwdRule key dst => exact absurd hc.2 id
  | movePeerOut key => exact absurd hc.2 id

theorem init_connInv (h : Init s) : s.ConnInv := by
  constructor
  case pos => exact h.pos
  case table => intro v; rw [h.workers]; exact tableOk_empty
  case owner => intro f c hf; rw [h.owner] at hf; cases hf
  case entry => intro v p hp; rw [h.workers] at hp; cases hp
  case unregistered => intro c hc; rw [h.unregistered] at hc; cases hc
  case msgs => intro v; rw [h.workers, h.pipeTags]; exact .nil
  case cmds => intro v; rw [h.workers, h.cmdTags]; exact .nil
  case adds => intro v; rw [h.workers]; exact List.nodup_nil

theorem ConnInv.ioPath (hI : s.ConnInv) (v : ℕ) (q : Slot) (w0 : Worker) :
    (s.setCtx (s.cp.dataPlane.onWorker v fun w => w.withIoPath q w0)).ConnInv := by
  let s1 : Relay := s.setCtx (s.cp.dataPlane.onWorker v fun w => w.withIoPath q w0)
  have hsel : ∀ u, s1.worker u = if u = v then (s.worker v).withIoPath q w0 else s.worker u := by
    intro u
    by_cases hu : u = v
    · subst hu
      rw [if_pos rfl]
      exact Ctx.setWorker_self _ _ _
    · rw [if_neg hu]
      exact Ctx.setWorker_ne _ _ hu
  have hpeer : ∀ u p, ∃ send rbuf bytes start, (s1.worker u).ht p = { (s.worker u).ht p with
      send := send, rbuf := rbuf, recvBytesWindow := bytes, windowStartNs := start } := by
    intro u p
    rw [hsel]
    split
    · next hu =>
      subst hu
      by_cases hp : p = q
      · subst hp
        exact ⟨_, _, _, _, Worker.setPeer_self _ _ _⟩
      · exact ⟨_, _, _, _, Worker.setPeer_ne _ _ hp⟩
    · exact ⟨_, _, _, _, rfl⟩
  have hq : Quiet s s1 := by
    refine ⟨rfl, rfl, rfl, rfl, rfl, fun u p => ?_, fun u p => ?_, fun u p => ?_, fun u p => ?_⟩
    all_goals
      obtain ⟨send, rbuf, bytes, start, h⟩ := hpeer u p
      rw [h]
  refine hI.quiet hq (fun _ h => h) (fun u => ?_) (fun u => ?_) (fun u => ?_)
  · show List.Forall₂ s.MsgOk (s1.worker u).pipe (s.pipeTags u)
    rw [hsel]
    split
    · next hu => subst hu; exact hI.msgs u
    · exact hI.msgs u
  · show List.Forall₂ (s.CmdOk u) (s1.worker u).cmdRing (s.cmdTags u)
    rw [hsel]
    split
    · next hu => subst hu; exact hI.cmds u
    · exact hI.cmds u
  · show ((s1.worker u).cmdRing.filterMap addFd).Nodup
    rw [hsel]
    split
    · next hu => subst hu; exact hI.adds u
    · exact hI.adds u

theorem ConnInv.step (hI : s.ConnInv) {l : RelayStep} (hok : s.connOk l) (hs : s.step l = some s') :
    s'.ConnInv := by
  cases l with
  | accept fd key proto peerId => exact hI.accept hok hs
  | register c => exact hI.register hs
  | enrol key fd =>
    cases hs
    exact ⟨hI.pos, hI.table, hI.owner, hI.entry, hI.unregistered, hI.msgs, hI.cmds, hI.adds⟩
  | eof v fd => exact (hI.posts (.inl rfl) hok hs).1
  | error v fd => exact (hI.posts (.inr (.inl rfl)) hok hs).1
  | frame v fd bytes => exact (hI.posts (.inr (.inr ⟨bytes, rfl⟩)) hok hs).1
  | control v => exact hI.control hs
  | work v => exact hI.work hs
  | ioPath v q w0 =>
    cases hs
    exact hI.ioPath v q w0

/-! ### Events of a connection spare the newer ones of its key -/

theorem Quiet.table (h : Quiet s s') (u : ℕ) (K : Key) :
    htLookup (s'.worker u) K = htLookup (s.worker u) K :=
  LinearProbe.lookup_congr peerView keyHash (h.occ u) (h.key u) K

theorem Quiet.isOpen (h : Quiet s s') (hc : s.IsOpen c) : s'.IsOpen c := by
  rw [IsOpen, h.owner, h.fdOf]
  exact hc

theorem Quiet.spares (h : Quiet s s') (hreg : ∀ K, (cpRegistryLookup s.cp.reg K).isSome →
      (∀ c, s.keyOf c = K → s.Newer c → (cpRegistryLookup s'.cp.reg K).isSome))
    (hroutes : ∀ u, (s'.worker u).routes = (s.worker u).routes) (c : ℕ) : s.Spares s' c := by
  intro c2 hlt hc2 hk ho
  refine ⟨⟨fun hr => hreg _ hr c rfl ⟨c2, hlt, hc2, hk, ho⟩, fun u hu => ?_, fun u hu => ?_⟩,
    h.isOpen ho⟩
  · rw [h.table]
    exact hu
  · rw [hroutes]
    exact hu

theorem cpRegistryRemove_lookup {r : CpRegistry} {K k : Key} (hk : K ≠ k) :
    cpRegistryLookup (cpRegistryRemove r k) K = cpRegistryLookup r K := by
  cases hl : cpRegistryLookup r k with
  | none => rw [cpRegistryRemove_none hl]
  | some a =>
    obtain ⟨p, hp, hpeers, -⟩ := cpRegistryRemove_some hl
    rw [cpRegistryLookup, ← LinearProbe.lookup_eq_seek] at hl
    rw [cpRegistryLookup, cpRegistryLookup, ← LinearProbe.lookup_eq_seek,
      ← LinearProbe.lookup_eq_seek, hpeers]
    exact LinearProbe.lookup_bury_ne cpView keyHash (LinearProbe.holds_of_lookup cpView keyHash hl)
      hk hp

theorem routeRemove_lookup {routes : Slot → Route} {K k : Key} (hk : K ≠ k) :
    routeLookup (routeRemove routes k) K = routeLookup routes K := by
  unfold routeRemove
  cases hl : routeLookup routes k with
  | none => rfl
  | some a =>
    exact LinearProbe.lookup_bury_ne routeView keyHash
      (LinearProbe.holds_of_lookup routeView keyHash hl) hk rfl

theorem regAfter_lookup (cp : ControlPlane) (fd : Fd) (type : FrameType) (payload : Bytes) {K : Key}
    (hK : frameGone type payload ≠ some K) :
    cpRegistryLookup (regAfter cp fd type payload) K = cpRegistryLookup cp.reg K := by
  unfold regAfter
  split
  · unfold notePreferred handleNotePreferred
    split
    · rfl
    · split
      · rfl
      · next a _ =>
        rw [cpRegistryLookup, cpRegistryLookup, ← LinearProbe.lookup_eq_seek,
          ← LinearProbe.lookup_eq_seek]
        refine LinearProbe.lookup_congr cpView keyHash (fun b => ?_) (fun b => ?_) K
        all_goals
          by_cases hb : b = a
          · subst hb
            simp [CpRegistry.setPeer, cpView]
          · simp [CpRegistry.setPeer, hb]
  · cases hg : goneKey payload with
    | none => rfl
    | some k =>
      dsimp only
      split
      · next ht =>
        refine cpRegistryRemove_lookup fun hk => hK ?_
        rw [frameGone, if_pos (.inr ht), hg, hk]
      · split
        · next ht =>
          have hne : K ≠ k := fun hk => hK (by rw [frameGone, if_pos (.inl ht), hg, hk])
          rw [cpRegistryRemove_lookup hne, cpRegistryRemove_lookup hne]
        · rfl

theorem ConnInv.control_spares (hI : s.ConnInv) (hs : s.step (.control v) = some s') :
    s.OldSpares s' (.control v) := by
  intro c rest' htags
  obtain ⟨m, rest, c', tags, hp, ht, hreg, hissued, hs'⟩ := step_control hs
  obtain ⟨-, hm⟩ := hI.takeMsg hp ht
  rw [ht, List.cons.injEq] at htags
  obtain ⟨rfl, -⟩ := htags
  intro c2 hlt hc2 hk ho
  have hgone : frameGone m.type m.payload ≠ some (s.keyOf c') :=
    fun hg => hm.2 hg ⟨c2, hlt, hc2, hk, ho⟩
  have hworker : ∀ u, (s'.worker u).ht = (s.worker u).ht ∧
      (s'.worker u).routes = (s.worker u).routes := by
    intro u
    obtain ⟨more, hw, -⟩ := hissued.worker u
    obtain ⟨pipe, hpipe⟩ := takeMsg_same s v rest tags u
    have hht : (s'.worker u).ht = ((s.takeMsg v rest tags).worker u).ht :=
      (congrArg Worker.ht hw :)
    have hroutes : (s'.worker u).routes = ((s.takeMsg v rest tags).worker u).routes :=
      (congrArg Worker.routes hw :)
    rw [hht, hroutes, hpipe]
    exact ⟨rfl, rfl⟩
  refine ⟨⟨fun hr => ?_, fun u hu => ?_, fun u hu => ?_⟩, ?_⟩
  · rw [hreg, regAfter_lookup _ _ _ _ hgone]
    exact hr
  · rw [htLookup, (hworker u).1]
    exact hu
  · rw [(hworker u).2]
    exact hu
  · rw [hs']
    exact ho

theorem ConnInv.work_spares (hI : s.ConnInv) (hs : s.step (.work v) = some s') :
    s.OldSpares s' (.work v) := by
  intro k cmds c rest' hring htags c2 hlt hc2 hk ho
  obtain ⟨cmd, rest, c', tags, hp, ht, hs'⟩ := step_work hI hs
  rw [hring, List.cons.injEq] at hp
  rw [ht, List.cons.injEq] at htags
  obtain ⟨rfl, rfl⟩ := hp
  obtain ⟨rfl, rfl⟩ := htags
  obtain ⟨hI0, hc, -⟩ := hI.takeCmd hring ht
  have hq := quiet_takeCmd s v cmds tags
  -- the command takes another key down
  have hne : s.keyOf c' ≠ k := fun h => hc.2 h.symm (hq.newer.mpr ⟨c2, hlt, hc2, hk, ho⟩)
  have hreg : s'.cp.reg = s.cp.reg := by rw [hs']; rfl
  have hroutes0 : ∀ u, ((s.takeCmd v cmds tags).worker u).routes = (s.worker u).routes := by
    intro u
    obtain ⟨ring, hw⟩ := takeCmd_same s v cmds tags u
    rw [hw]
  simp only [processCmd] at hs'
  cases hl : htLookup ((s.takeCmd v cmds tags).worker v) k with
  | none =>
    have hnone : processCmdRemove (s.takeCmd v cmds tags).cp.dataPlane v k =
      ((s.takeCmd v cmds tags).cp.dataPlane, none) := processCmdRemove_none hl
    rw [hnone] at hs'
    rw [hs']
    refine ⟨⟨id, fun u hu => ?_, fun u hu => ?_⟩, hq.isOpen ho⟩
    · show (htLookup ((s.takeCmd v cmds tags).worker u) _).isSome
      rw [hq.table]
      exact hu
    · show (routeLookup ((s.takeCmd v cmds tags).worker u).routes _).isSome
      rw [hroutes0]
      exact hu
  | some p =>
    have hR := removed_remove hI0 hl
    have hholds := (hI0.table v).lookup_iff.mp hl
    rw [← hs'] at hR
    refine ⟨⟨fun hr => by rw [hreg]; exact hr, fun u hu => ?_, fun u hu => ?_⟩, ?_⟩
    · rw [← hq.table] at hu
      by_cases huv : u = v
      · subst huv
        have hht : (s'.worker u).ht = Function.update ((s.takeCmd u cmds tags).worker u).ht p
            ((s'.worker u).ht p) := by
          funext q
          by_cases hqp : q = p
          · subst hqp
            rw [Function.update_self]
          · rw [Function.update_of_ne hqp]
            exact hR.other u q fun h => hqp h.2
        rw [htLookup, hht, LinearProbe.lookup_bury_ne peerView keyHash hholds hne hR.dead]
        exact hu
      · have hht : (s'.worker u).ht = ((s.takeCmd v cmds tags).worker u).ht := by
          funext q
          exact hR.other u q fun h => huv h.1
        rw [htLookup, hht]
        exact hu
    · have hspec : PeerRemoved ((s.takeCmd v cmds tags).cp.dataPlane.workers v) p _ ∧ _ :=
        processCmdRemove_spec hl
      have hr := hspec.2.1 u
      rw [hs']
      show (routeLookup ((processCmdRemove (s.takeCmd v cmds tags).cp.dataPlane v k).1.workers
        u).routes _).isSome
      rw [hr, routesAfter]
      have h0 : ((s.takeCmd v cmds tags).cp.dataPlane.workers u).routes = (s.worker u).routes :=
        hroutes0 u
      split
      · rw [routeRemove_lookup hne, h0]
        exact hu
      · rw [h0]
        exact hu
    · -- the socket that is closed belongs to a connection of `k`
      have hfd : s.fdOf c2 ≠ (((s.takeCmd v cmds tags).worker v).ht p).fd := by
        intro hfd
        obtain ⟨d, hd, hkd, -⟩ := hI0.entry v p hholds.1
        rw [← hfd] at hd
        have hdc : some c2 = some d := ho.symm.trans hd
        cases hdc
        exact hne (hk.symm.trans (hkd.trans hholds.2))
      have hsame := hR.owner_old hfd
      have hfdOf : s'.fdOf = s.fdOf := by rw [hs']; rfl
      rw [IsOpen, hfdOf, hsame]
      exact ho

/-- In every run in which no connection is accepted while a removal of its key is
pending, and connections that a newer one of their key has superseded do not end,
what comes of a connection spares the newer ones of its key. -/
theorem old_connections_spare_newer (h : Runs.Reach Init step connOk s) {l : RelayStep}
    (hok : s.connOk l) (hs : s.step l = some s') : s.OldSpares s' l := by
  have hI : s.ConnInv :=
    h.invariant (fun _ h0 => init_connInv h0) fun _ _ _ hi hok hs => hi.step hok hs
  have posts : ∀ v fd, (l = .eof v fd ∨ l = .error v fd ∨ ∃ bytes, l = .frame v fd bytes) →
      ∀ c, s.Spares s' c := by
    intro v fd hl c
    obtain ⟨-, hq, hreg, hroutes⟩ := hI.posts hl hok hs
    exact hq.spares (fun K hr _ _ _ => by rw [hreg]; exact hr) hroutes c
  cases l with
  | eof v fd => exact fun c _ => posts v fd (.inl rfl) c
  | error v fd => exact fun c _ => posts v fd (.inr (.inl rfl)) c
  | frame v fd bytes => exact fun c _ => posts v fd (.inr (.inr ⟨bytes, rfl⟩)) c
  | control v => exact hI.control_spares hs
  | work v => exact hI.work_spares hs
  | _ => trivial

end

/-! ### Reconnects on one worker -/

def idle : Relay := { cp := { dataPlane := { workers := fun _ => {}, numWorkers := 1 } } }

theorem idle_init : Init idle := by
  constructor
  case hdPeers => intro hd h; cases h
  case relays => intro rt h; cases h
  case pos => exact Nat.one_pos
  all_goals intros; rfl

def connectTwice : List RelayStep :=
  [.accept 5 zeroKey .kDerp 0, .accept 6 zeroKey .kDerp 0, .work 0, .work 0, .register 0,
    .register 1]

/-- What the worker is about to do, for whom, and the connections that are open. -/
def pending (ls : List RelayStep) : Option (List Cmd × List ℕ × List Bool) :=
  (Runs.run step idle ls).map fun s =>
    ((s.worker 0).cmdRing, s.cmdTags 0, [0, 1].map fun c => decide (s.IsOpen c))

/-- The end of the first connection closes the socket of the second. -/
theorem old_eof_closes_new_connection :
    ¬∀ s, Runs.Reach Init step Runs.Any s → ∀ l s', s.step l = some s' → s.OldSpares s' l := by
  intro hall
  have hbefore : pending (connectTwice ++ [RelayStep.eof 0 5, .control 0]) =
      some ([.removePeer zeroKey], [0], [true, true]) := by
    decide
  have hafter : pending (connectTwice ++ [RelayStep.eof 0 5, .control 0, .work 0]) =
      some ([], [], [true, false]) := by
    decide
  obtain ⟨s, hs, hview⟩ := Option.map_eq_some_iff.mp hbefore
  obtain ⟨s', hs', hview'⟩ := Option.map_eq_some_iff.mp hafter
  have hstep : s.step (.work 0) = some s' := by
    rw [show connectTwice ++ [RelayStep.eof 0 5, .control 0, .work 0] =
      (connectTwice ++ [RelayStep.eof 0 5, .control 0]) ++ [RelayStep.work 0] from rfl, Runs.run_snoc, hs] at hs'
    exact hs'
  have hcount : (Runs.run step idle (connectTwice ++ [RelayStep.eof 0 5, .control 0])).map
      (fun s => (s.count, s.keyOf 0, s.keyOf 1)) = some (2, zeroKey, zeroKey) := by
    decide
  rw [hs, Option.map_some, Option.some.injEq] at hcount
  simp only [Prod.mk.injEq, List.map_cons, List.map_nil, List.cons.injEq, decide_eq_true_eq,
    decide_eq_false_iff_not, and_true] at hview hview' hcount
  have hspares := hall s (Runs.reach_of_run idle_init hs) (.work 0) s' hstep zeroKey [] 0 []
    hview.1 hview.2.1 1 Nat.one_pos (by rw [hcount.1]; decide)
    (hcount.2.2.trans hcount.2.1.symm) hview.2.2.2
  exact hview'.2.2.2 hspares.2

def noteFrame : Bytes := [0x07, 0, 0, 0, 1, 1]

/-- A frame of the first connection leaves the second in place. -/
theorem old_frame_spares_new_connection :
    ∃ s s', Runs.Reach Init step connOk s ∧ s.IsOpen 1 ∧ s.pipeTags 0 = [0] ∧
      s.step (.control 0) = some s' ∧ s.OldSpares s' (.control 0) := by
  have hrun : (Runs.run step idle (connectTwice ++ [RelayStep.frame 0 5 noteFrame])).map
      (fun s => (s.pipeTags 0, decide (s.IsOpen 1), (s.step (.control 0)).isSome)) =
      some ([0], true, true) := by
    decide
  obtain ⟨s, hs, hview⟩ := Option.map_eq_some_iff.mp hrun
  simp only [Prod.mk.injEq, decide_eq_true_eq] at hview
  obtain ⟨s', hs'⟩ := Option.isSome_iff_exists.mp hview.2.2
  have hquiet : (Runs.run step idle connectTwice).map (fun s => ((s.worker 0).fdMap 5).map
      fun p => (forwarded (s.worker 0) p noteFrame).bind goneMsg) = some (some none) := by
    decide
  have hreach : Runs.Reach Init step connOk s := by
    refine Runs.reach_run (.start idle idle_init) ?_ hs
    refine ⟨fun v c _ => ⟨fun m hm => ?_, fun hm => ?_⟩, fun s1 h1 => ⟨fun v c _ => ?_,
      fun s2 h2 => ⟨trivial, fun s3 h3 => ⟨trivial, fun s4 h4 => ⟨trivial, fun s5 h5 =>
        ⟨trivial, fun s6 h6 => ⟨fun c p m _ hp hm hg => ?_, fun _ _ => trivial⟩⟩⟩⟩⟩⟩⟩
    · cases hm
    · cases hm
    · obtain ⟨proto, peerId, hring⟩ := (step_accept h1).ring
      obtain ⟨more, hw, -, hmore⟩ := hring v
      rw [hw]
      refine ⟨fun m hm => (by cases hm), fun hm => ?_⟩
      have hmem := (List.of_mem_zip hm).1
      rcases hmore with rfl | ⟨-, rfl⟩ <;> simp [idle, worker] at hmem
    · rw [show Runs.run step idle connectTwice = some s6 by
        simp only [connectTwice, Runs.run, h1, h2, h3, h4, h5, h6]] at hquiet
      rw [Option.map_some, hp, Option.map_some, hm, Option.bind_some, hg] at hquiet
      cases hquiet
  exact ⟨s, s', hreach, hview.2.1, hview.1, hs', old_connections_spare_newer hreach trivial hs'⟩

end Relay

end HyperDerp
