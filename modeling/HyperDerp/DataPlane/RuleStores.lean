import HyperDerp.DataPlane.Placement
import HyperDerp.HdPeers.ForwardRules
import HyperDerp.Lib.Settles

/-!
# Forwarding rules in two stores

The registry keeps the rules of an entry (`hd_peers.cc:517-552`), the data plane
the rules of a connected peer (`data_plane.cc:2156-2184`). A rule that is added
goes to the registry and, as a command, to the worker of the peer
(`einheit_channel.cc:666-698`). A new connection starts without rules in the data
plane, and a rule that is removed leaves the registry only.
-/

namespace HyperDerp

/-! ### The rules of a peer in the data plane -/

/-- The destination keys in `fwd[0 .. fwd_count)`. -/
def ruleKeys (peer : Peer) : List Key := (List.range peer.fwdCount).map fun r => (peer.fwd r).key

@[simp] theorem ruleKeys_length (peer : Peer) : (ruleKeys peer).length = peer.fwdCount := by
  simp [ruleKeys]

theorem addRule_rules (peer : Peer) (dst : Key) (d : Option Slot) (route : Option Route) :
    (peer.addRule dst d route).fwdCount = peer.fwdCount + 1 ∧
      ((peer.addRule dst d route).fwd peer.fwdCount).key = dst ∧
      ∀ r, r ≠ peer.fwdCount → (peer.addRule dst d route).fwd r = peer.fwd r := by
  unfold Peer.addRule
  dsimp only
  cases d <;> cases route <;> split <;> simp +contextual [Function.update_of_ne]

theorem ruleKeys_addRule (peer : Peer) (dst : Key) (d : Option Slot) (route : Option Route) :
    ruleKeys (peer.addRule dst d route) = ruleKeys peer ++ [dst] := by
  obtain ⟨hcount, hkey, hother⟩ := addRule_rules peer dst d route
  unfold ruleKeys
  rw [hcount, List.range_succ, List.map_append, List.map_singleton, hkey]
  congr 1
  apply List.map_congr_left
  intro r hr
  rw [hother r (List.mem_range.mp hr).ne]

def ruleList (w : Worker) (key : Key) : Option (List Key) :=
  (htLookup w key).map fun p => ruleKeys (w.ht p)

/-- Slot `q` is a live peer with the key. -/
def Worker.HasPeer (w : Worker) (q : Slot) (key : Key) : Prop :=
  (w.ht q).occupied = .live ∧ (w.ht q).key = key

section

variable {w w' : Worker} {key : Key} {q : Slot}

theorem TableOk.lookup (hT : TableOk w) : htLookup w key = some q ↔ w.HasPeer q key :=
  hT.lookup_iff

theorem ruleList_of_peer (hT : TableOk w) (h : w.HasPeer q key) :
    ruleList w key = some (ruleKeys (w.ht q)) := by
  rw [ruleList, hT.lookup.mpr h]
  rfl

theorem ruleList_of_none (hT : TableOk w) (h : ∀ q, ¬w.HasPeer q key) : ruleList w key = none := by
  unfold ruleList
  rw [Option.map_eq_none_iff]
  cases hl : htLookup w key with
  | none => rfl
  | some p => exact absurd (hT.lookup.mp hl) (h p)

theorem ruleList_elsewhere {p : Slot} (hT : TableOk w) (hT' : TableOk w')
    (hother : ∀ q, q ≠ p → w'.ht q = w.ht q) (h : ¬w.HasPeer p key) (h' : ¬w'.HasPeer p key) :
    ruleList w' key = ruleList w key := by
  by_cases hp : ∃ q, w.HasPeer q key
  · obtain ⟨q, hq⟩ := hp
    have hqp : q ≠ p := by
      rintro rfl
      exact h hq
    have hq' : w'.HasPeer q key := by
      unfold Worker.HasPeer
      rw [hother q hqp]
      exact hq
    rw [ruleList_of_peer hT hq, ruleList_of_peer hT' hq', hother q hqp]
  · rw [not_exists] at hp
    rw [ruleList_of_none hT hp, ruleList_of_none hT' fun q hq => ?_]
    have hqp : q ≠ p := by
      rintro rfl
      exact h' hq
    unfold Worker.HasPeer at hq
    rw [hother q hqp] at hq
    exact hp q hq

theorem ruleList_same (hht : w'.ht = w.ht) : ruleList w' key = ruleList w key := by
  unfold ruleList htLookup
  rw [hht]

end

/-! ### What a command does to the rules of a key -/

def Shows (key : Key) (c : Cmd) (l l' : Option (List Key)) : Prop :=
  match c with
  | .addPeer _ k _ _ => l' = l ∨ k = key ∧ l' = some []
  | .removePeer k => l' = if k = key then none else l
  | .setFwdRule k dst => l' = if k = key then
      l.map fun ds => if ds.length < kMaxPeerRules then ds ++ [dst] else ds else l
  | _ => False

theorem shows_remove {key k : Key} {l l' : Option (List Key)} :
    Shows key (.removePeer k) l l' ↔ l' = if k = key then none else l := Iff.rfl

theorem shows_rule {key k dst : Key} {l l' : Option (List Key)} :
    Shows key (.setFwdRule k dst) l l' ↔ l' = if k = key then
      l.map fun ds => if ds.length < kMaxPeerRules then ds ++ [dst] else ds else l := Iff.rfl

def Cmd.forPeer : Cmd → Bool
  | .addPeer .. | .removePeer _ | .setFwdRule .. => true
  | _ => false

def Cmd.adds (key : Key) : Cmd → Bool
  | .addPeer _ k _ _ => decide (k = key)
  | _ => false

theorem processCmdAdd_shows {ctx : Ctx} {v : ℕ} (hT : ∀ u, TableOk (ctx.workers u)) (fd : Fd)
    (k : Key) (proto : PeerProtocol) (pid : ℕ) (key : Key) :
    Shows key (.addPeer fd k proto pid) (ruleList (ctx.workers v) key)
      (ruleList ((processCmdAdd ctx v fd k proto pid).workers v) key) := by
  have hT' := loopStep_tableOk (l := .cmd v (.addPeer fd k proto pid)) hT rfl v
  change TableOk ((processCmdAdd ctx v fd k proto pid).workers v) at hT'
  rcases processCmdAdd_record (hT v) fd k proto pid with ⟨ao, heq⟩ | ⟨p, -, hf, hadd, -⟩
  · refine .inl (ruleList_same ?_)
    rw [heq, Ctx.setWorker_self]
  · generalize (processCmdAdd ctx v fd k proto pid).workers v = w' at hT' hadd ⊢
    obtain ⟨isUnix, ok, ao, routes, io, heq⟩ := hadd.eq
    have hself : w'.ht p = addedPeer ((ctx.workers v).ht p) fd k proto pid isUnix := by
      rw [heq]
      exact Function.update_self ..
    have hother : ∀ q, q ≠ p → w'.ht q = (ctx.workers v).ht q := by
      intro q hq
      rw [heq]
      exact Function.update_of_ne hq ..
    have hp : w'.HasPeer p k := by
      unfold Worker.HasPeer
      rw [hself]
      exact ⟨rfl, rfl⟩
    by_cases hk : k = key
    · subst hk
      refine .inr ⟨rfl, ?_⟩
      rw [ruleList_of_peer hT' hp, hself]
      rfl
    · refine .inl (ruleList_elsewhere (hT v) hT' hother ?_ fun hq => hk (hp.2.symm.trans hq.2))
      intro hq
      -- the slot found for a key is the key's own or not live
      rcases LinearProbe.find_some peerView keyHash hf with hh | ⟨hl, -⟩
      · exact hk (hh.2.symm.trans hq.2)
      · exact hl hq.1

theorem processCmdRemove_shows {ctx : Ctx} {v : ℕ} (hT : ∀ u, TableOk (ctx.workers u))
    (k key : Key) : Shows key (.removePeer k) (ruleList (ctx.workers v) key)
      (ruleList ((processCmdRemove ctx v k).1.workers v) key) := by
  have hT' := loopStep_tableOk (l := .cmd v (.removePeer k)) hT rfl v
  change TableOk ((processCmdRemove ctx v k).1.workers v) at hT'
  rw [shows_remove]
  cases hl : htLookup (ctx.workers v) k with
  | none =>
    rw [processCmdRemove_none hl]
    split
    · next hk =>
      subst hk
      rw [ruleList, hl]
      rfl
    · rfl
  | some p =>
    obtain ⟨hrem, -, -⟩ := processCmdRemove_record hl
    generalize (processCmdRemove ctx v k).1.workers v = w' at hT' hrem ⊢
    obtain ⟨pc, routes, io, heq⟩ := hrem.eq
    have hp := (hT v).lookup.mp hl
    have hgone : ∀ k', ¬w'.HasPeer p k' := by
      intro k' hq
      unfold Worker.HasPeer at hq
      rw [heq] at hq
      dsimp only at hq
      rw [Function.update_self] at hq
      cases hq.1
    have hother : ∀ q, q ≠ p → w'.ht q = (ctx.workers v).ht q := by
      intro q hq
      rw [heq]
      exact Function.update_of_ne hq ..
    split
    · next hk =>
      subst hk
      apply ruleList_of_none hT'
      intro q hq
      by_cases hqp : q = p
      · exact hgone k (hqp ▸ hq)
      · unfold Worker.HasPeer at hq
        rw [hother q hqp] at hq
        exact hqp ((hT v).inv.unique k q p hq hp)
    · next hk =>
      exact ruleList_elsewhere (hT v) hT' hother (fun hq => hk (hp.2.symm.trans hq.2)) (hgone key)

theorem setFwdRule_shows {ctx : Ctx} {v : ℕ} (hT : ∀ u, TableOk (ctx.workers u)) (k dst key : Key) :
    Shows key (.setFwdRule k dst) (ruleList (ctx.workers v) key)
      (ruleList ((setFwdRule ctx v k dst).workers v) key) := by
  have hT' := loopStep_tableOk (l := .cmd v (.setFwdRule k dst)) hT rfl v
  change TableOk ((setFwdRule ctx v k dst).workers v) at hT'
  rw [shows_rule]
  cases hl : htLookup (ctx.workers v) k with
  | none =>
    have heq : setFwdRule ctx v k dst = ctx := by
      unfold setFwdRule
      dsimp only
      rw [hl]
    rw [heq]
    split
    · next hk =>
      subst hk
      rw [ruleList, hl]
      rfl
    · rfl
  | some p =>
    have hp := (hT v).lookup.mp hl
    have hold := ruleList_of_peer (hT v) hp
    by_cases hfull : kMaxPeerRules ≤ ((ctx.workers v).ht p).fwdCount
    · have heq : setFwdRule ctx v k dst = ctx := by
        unfold setFwdRule
        dsimp only
        rw [hl]
        dsimp only
        rw [if_pos hfull]
      rw [heq]
      split
      · next hk =>
        subst hk
        rw [hold, Option.map_some, if_neg (by rw [ruleKeys_length]; omega)]
      · rfl
    · generalize hr : ((ctx.workers v).ht p).addRule dst (htLookup (ctx.workers v) dst)
        ((routeLookup (ctx.workers v).routes dst).map (ctx.workers v).routes) = peer
      have heq : (setFwdRule ctx v k dst).workers v = (ctx.workers v).setPeer p peer := by
        unfold setFwdRule
        dsimp only
        rw [hl]
        dsimp only
        rw [if_neg hfull, Ctx.setWorker_self, hr]
      rw [heq] at hT' ⊢
      have hother : ∀ q, q ≠ p → ((ctx.workers v).setPeer p peer).ht q = (ctx.workers v).ht q :=
        fun q hq => Function.update_of_ne hq ..
      have hp' : ((ctx.workers v).setPeer p peer).HasPeer p k := by
        obtain ⟨a, b, c, d, e, hrule⟩ := addRule_same (ctx.workers v) p dst
        unfold Worker.HasPeer
        rw [Worker.setPeer_self, ← hr, hrule]
        exact hp
      split
      · next hk =>
        subst hk
        rw [hold, Option.map_some, if_pos (by rw [ruleKeys_length]; omega),
          ruleList_of_peer hT' hp', Worker.setPeer_self, ← hr, ruleKeys_addRule]
      · next hk =>
        exact ruleList_elsewhere (hT v) hT' hother (fun hq => hk (hp.2.symm.trans hq.2))
          fun hq => hk (hp'.2.symm.trans hq.2)

theorem processCmd_shows {ctx : Ctx} {v : ℕ} (hT : ∀ u, TableOk (ctx.workers u)) {c : Cmd}
    (hc : c.forPeer = true) (key : Key) : Shows key c (ruleList (ctx.workers v) key)
      (ruleList ((processCmd ctx v c).1.workers v) key) := by
  cases c with
  | addPeer fd k proto pid => exact processCmdAdd_shows hT fd k proto pid key
  | removePeer k => exact processCmdRemove_shows hT k key
  | setFwdRule k dst => exact setFwdRule_shows hT k dst key
  | write => cases hc
  | stop => cases hc
  | movePeerOut => cases hc

/-! ### The system -/

structure RuleStores where
  store : RuleRegistry := {}
  ctx : Ctx

namespace RuleStores

inductive Step where
  /-- `HdPeersInsert` -/
  | enrol (key : Key) (fd : Fd)
  /-- the enrolled connection is given to the data plane -/
  | connect (key : Key) (fd : Fd)
  | disconnect (key : Key)
  | ruleAdd (src dst : Key)
  | ruleRemove (key dst : Key)
  | cmd (v : ℕ)

def dpAddFwdRule (ctx : Ctx) (src dst : Key) : Ctx :=
  enqueueCmd ctx (peerWorker ctx.numWorkers src) (.setFwdRule src dst)

/-- `PeerRuleAdd` with its keys resolved. -/
def peerRuleAdd (s : RuleStores) (src dst : Key) : RuleStores :=
  match s.store.hdPeersAddRule src dst with
  | none => s
  | some store => { store := store, ctx := dpAddFwdRule s.ctx src dst }

def peerId (s : RuleStores) (key : Key) : ℕ :=
  match hdPeersLookup s.store.reg key with
  | some i => (s.store.reg.peers i).peerId
  | none => 0

def step (s : RuleStores) : Step → Option RuleStores
  | .enrol key fd => some { s with store := s.store.insert key fd }
  | .connect key fd => some { s with ctx := dpAddPeer s.ctx fd key .kHd (s.peerId key) }
  | .disconnect key => some { s with ctx := dpRemovePeer s.ctx key }
  | .ruleAdd src dst => some (s.peerRuleAdd src dst)
  | .ruleRemove key dst => some { s with store := (s.store.hdPeersRemoveRule key dst).getD s.store }
  | .cmd v => (popCmd s.ctx v).map fun r => { s with ctx := r.1 }

structure Init (s : RuleStores) : Prop where
  reg : ∀ key, hdPeersLookup s.store.reg key = none
  workers : ∀ v, s.ctx.workers v = {}
  pos : 0 < s.ctx.numWorkers

def worker (s : RuleStores) (key : Key) : Worker := s.ctx.workers (peerWorker s.ctx.numWorkers key)

/-- The commands that were issued have been processed. -/
def Settled (s : RuleStores) : Prop :=
  ∀ v < s.ctx.numWorkers, (s.ctx.workers v).cmdRing = []

instance (s : RuleStores) : Decidable s.Settled := inferInstanceAs (Decidable (∀ v < _, _))

/-- A peer that is registered and connected has its registered rules, and without a rule in the
data plane it has none in the registry. -/
def Agree (s : RuleStores) : Prop :=
  ∀ key p, (hdPeersLookup s.store.reg key).isSome = true → htLookup (s.worker key) key = some p →
    (∀ dst, dst ∈ ruleKeys ((s.worker key).ht p) ↔ (s.store.rulesOf key).Has dst) ∧
      (((s.worker key).ht p).fwdCount = 0 → ∀ dst, ¬(s.store.rulesOf key).Has dst)

def Offline (s : RuleStores) (key : Key) : Prop :=
  htLookup (s.worker key) key = none ∧ ∀ c ∈ (s.worker key).cmdRing, c.adds key = false

instance (s : RuleStores) (key : Key) : Decidable (s.Offline key) :=
  inferInstanceAs (Decidable (_ ∧ _))

/-- A key connects without registered rules, its rules reach the worker, and none is removed
while it is connected. -/
def stepOk (s : RuleStores) : Step → Prop
  | .connect key _ => (s.store.rulesOf key).Blank
  | .ruleAdd src dst => (s.store.hdPeersAddRule src dst).isSome = true →
      (s.worker src).cmdRing.length + 1 ≠ kCmdRingSize ∨ s.Offline src ∨
        (s.store.rulesOf src).Has dst
  | .ruleRemove key dst => ¬(s.store.rulesOf key).Has dst ∨ s.Offline key
  | _ => True

instance (s : RuleStores) : ∀ l, Decidable (stepOk s l)
  | .connect .. => inferInstanceAs (Decidable (HdRules.Blank _))
  | .ruleAdd .. => inferInstanceAs (Decidable (_ → _))
  | .ruleRemove .. => inferInstanceAs (Decidable (_ ∨ _))
  | .enrol .. | .disconnect _ | .cmd _ => inferInstanceAs (Decidable True)

/-! ### What the pending commands will leave -/

/-- Whatever becomes of the commands, a connected peer has the rules `r`. -/
def Mirror (key : Key) (cs : List Cmd) (l0 : Option (List Key)) (r : HdRules) : Prop :=
  ∀ l, Settles (Shows key) cs l0 (some l) →
    (∀ dst, dst ∈ l ↔ r.Has dst) ∧ (l.length : ℤ) ≤ r.ruleCount

namespace Mirror

variable {key k dst : Key} {cs : List Cmd} {l0 : Option (List Key)} {r r' : HdRules}

theorem tail {c : Cmd} {l1 : Option (List Key)} (h : Mirror key (c :: cs) l0 r)
    (hc : Shows key c l0 l1) : Mirror key cs l1 r := fun l hl => h l (.cons hc hl)

theorem addPeer (h : Mirror key cs l0 r) (hk : k = key → r.Blank ∧ 0 ≤ r.ruleCount) (fd : Fd)
    (proto : PeerProtocol) (pid : ℕ) : Mirror key (cs ++ [Cmd.addPeer fd k proto pid]) l0 r := by
  intro l hl
  obtain ⟨m, hm, hlast⟩ := Settles.snoc_iff.mp hl
  rcases hlast with rfl | ⟨hkey, hl⟩
  · exact h l hm
  · cases hl
    obtain ⟨hblank, hcount⟩ := hk hkey
    exact ⟨fun d => iff_of_false List.not_mem_nil hblank.not_has, hcount⟩

theorem removePeer (h : Mirror key cs l0 r) (k : Key) :
    Mirror key (cs ++ [Cmd.removePeer k]) l0 r := by
  intro l hl
  obtain ⟨m, hm, hlast⟩ := Settles.snoc_iff.mp hl
  rw [shows_remove] at hlast
  split at hlast
  · cases hlast
  · rw [← hlast] at hm
    exact h l hm

theorem rule_ne (h : Mirror key cs l0 r) (hk : k ≠ key) (dst : Key) :
    Mirror key (cs ++ [Cmd.setFwdRule k dst]) l0 r := by
  intro l hl
  obtain ⟨m, hm, hlast⟩ := Settles.snoc_iff.mp hl
  rw [shows_rule, if_neg hk] at hlast
  rw [← hlast] at hm
  exact h l hm

theorem rule (h : Mirror key cs l0 r) (hadd : r.add dst = some r') :
    Mirror key (cs ++ [Cmd.setFwdRule key dst]) l0 r' := by
  intro l hl
  obtain ⟨m, hm, hlast⟩ := Settles.snoc_iff.mp hl
  rw [shows_rule, if_pos rfl] at hlast
  obtain ⟨ds, rfl, hl⟩ := Option.map_eq_some_iff.mp hlast.symm
  obtain ⟨hsame, hlen⟩ := h ds hm
  obtain ⟨hlt, hcount⟩ := HdRules.add_count hadd
  have hroom : ds.length < kMaxPeerRules := by
    have heq : kHdMaxForwardRules = kMaxPeerRules := rfl
    omega
  rw [if_pos hroom] at hl
  subst hl
  constructor
  · intro d
    rw [HdRules.add_has hadd, List.mem_append, List.mem_singleton, hsame]
  · rw [List.length_append, List.length_singleton, hcount]
    omega

theorem lost (h : Mirror key cs l0 r) (hadd : r.add dst = some r') (hhas : r.Has dst) :
    Mirror key cs l0 r' := by
  intro l hl
  obtain ⟨hsame, hlen⟩ := h l hl
  obtain ⟨-, hcount⟩ := HdRules.add_count hadd
  constructor
  · intro d
    rw [hsame, HdRules.add_has hadd]
    constructor
    · exact .inl
    · rintro (hd | rfl)
      · exact hd
      · exact hhas
  · omega

theorem offline (hadd : ∀ c ∈ cs, c.adds key = false) (r : HdRules) : Mirror key cs none r := by
  intro l hl
  have hnone : (some l : Option (List Key)) = none := by
    apply hl.kept (P := (· = none)) _ rfl
    rintro c hc d e rfl hce
    cases c with
    | addPeer fd k proto pid =>
      rcases hce with he | ⟨rfl, -⟩
      · exact he
      · have hself := hadd _ hc
        rw [Cmd.adds, decide_eq_false_iff_not] at hself
        exact absurd rfl hself
    | removePeer k =>
      rw [shows_remove] at hce
      rw [hce]
      split <;> rfl
    | setFwdRule k d =>
      rw [shows_rule] at hce
      rw [hce]
      split <;> rfl
    | write => exact absurd hce id
    | stop => exact absurd hce id
    | movePeerOut => exact absurd hce id
  cases hnone

end Mirror

structure Inv (s : RuleStores) : Prop where
  pos : 0 < s.ctx.numWorkers
  tables : ∀ v, TableOk (s.ctx.workers v)
  cmds : ∀ v, ∀ c ∈ (s.ctx.workers v).cmdRing, c.forPeer = true
  counted : ∀ key, (s.store.rulesOf key).Counted
  mirrors : ∀ key, Mirror key (s.worker key).cmdRing (ruleList (s.worker key) key)
    (s.store.rulesOf key)

variable {s s' : RuleStores} {key : Key}

theorem Init.inv (h : s.Init) : s.Inv where
  pos := h.pos
  tables v := by
    rw [h.workers]
    exact tableOk_empty
  cmds v c hc := by
    rw [h.workers] at hc
    cases hc
  counted key := by
    rw [RuleRegistry.rulesOf_none (h.reg key)]
    exact HdRules.counted_default
  mirrors key := by
    have hw : s.worker key = {} := h.workers _
    have hnone : ruleList (s.worker key) key = none := by
      rw [hw]
      apply ruleList_of_none tableOk_empty
      rintro q ⟨hq, -⟩
      cases hq
    rw [hnone]
    apply Mirror.offline
    intro c hc
    rw [hw] at hc
    cases hc

/-! ### Steps -/

theorem enqueueCmd_at (ctx : Ctx) (v : ℕ) (c : Cmd) (u : ℕ) :
    (enqueueCmd ctx v c).workers u = { ctx.workers u with
      cmdRing := if u = v ∧ (ctx.workers v).cmdRing.length + 1 ≠ kCmdRingSize then
        (ctx.workers u).cmdRing ++ [c] else (ctx.workers u).cmdRing } := by
  by_cases hfull : (ctx.workers v).cmdRing.length + 1 = kCmdRingSize
  · rw [if_neg fun h => h.2 hfull]
    unfold enqueueCmd Ctx.onWorker
    dsimp only
    rw [if_pos hfull]
    by_cases hu : u = v
    · rw [hu, Ctx.setWorker_self]
    · rw [Ctx.setWorker_ne _ _ hu]
  · rw [enqueueCmd_room hfull]
    by_cases hu : u = v
    · subst hu
      rw [Ctx.setWorker_self, if_pos ⟨rfl, hfull⟩]
    · rw [Ctx.setWorker_ne _ _ hu, if_neg fun h => hu h.1]

theorem Inv.enqueue (h : s.Inv) {c : Cmd} {v : ℕ} {store : RuleRegistry} (hc : c.forPeer = true)
    (hcounted : ∀ key, (store.rulesOf key).Counted)
    (happ : ∀ key, Mirror key ((s.worker key).cmdRing ++ [c]) (ruleList (s.worker key) key)
      (store.rulesOf key))
    (hdrop : ∀ key, (peerWorker s.ctx.numWorkers key = v →
        (s.ctx.workers v).cmdRing.length + 1 = kCmdRingSize) →
      Mirror key (s.worker key).cmdRing (ruleList (s.worker key) key) (store.rulesOf key)) :
    Inv { store := store, ctx := enqueueCmd s.ctx v c } where
  pos := h.pos
  tables u := by
    dsimp only
    rw [enqueueCmd_at]
    exact (h.tables u).congr (fun _ => rfl) (fun _ => rfl) fun _ => rfl
  cmds u c' hc' := by
    dsimp only at hc'
    rw [enqueueCmd_at] at hc'
    dsimp only at hc'
    split at hc'
    · rcases List.mem_append.mp hc' with hc' | hc'
      · exact h.cmds u c' hc'
      · rw [List.mem_singleton.mp hc']
        exact hc
    · exact h.cmds u c' hc'
  counted := hcounted
  mirrors key := by
    have hw := enqueueCmd_at s.ctx v c (peerWorker s.ctx.numWorkers key)
    have hlist : ruleList ((enqueueCmd s.ctx v c).workers (peerWorker s.ctx.numWorkers key)) key =
        ruleList (s.worker key) key := by
      apply ruleList_same
      rw [hw]
      rfl
    have hring := congrArg Worker.cmdRing hw
    dsimp only at hring
    change Mirror key ((enqueueCmd s.ctx v c).workers (peerWorker s.ctx.numWorkers key)).cmdRing
      (ruleList ((enqueueCmd s.ctx v c).workers (peerWorker s.ctx.numWorkers key)) key)
      (store.rulesOf key)
    rw [hlist, hring]
    split
    · exact happ key
    · next hno =>
      rw [not_and, not_ne_iff] at hno
      exact hdrop key hno

theorem Inv.enrol (h : s.Inv) (key : Key) (fd : Fd) :
    Inv { s with store := s.store.insert key fd } := by
  have hsame := RuleRegistry.rulesOf_insert s.store key fd
  generalize s.store.insert key fd = store at hsame ⊢
  refine ⟨h.pos, h.tables, h.cmds, fun k => ?_, fun k => ?_⟩
  · dsimp only
    rw [hsame]
    exact h.counted k
  · dsimp only
    rw [hsame]
    exact h.mirrors k

theorem Inv.connect (h : s.Inv) {key : Key} (hok : (s.store.rulesOf key).Blank) (fd : Fd)
    (pid : ℕ) : Inv { s with ctx := dpAddPeer s.ctx fd key .kHd pid } := by
  apply h.enqueue rfl h.counted
  · intro k
    apply (h.mirrors k).addPeer
    rintro rfl
    exact ⟨hok, (h.counted key).nonneg⟩
  · exact fun k _ => h.mirrors k

theorem Inv.disconnect (h : s.Inv) (key : Key) : Inv { s with ctx := dpRemovePeer s.ctx key } :=
  h.enqueue rfl h.counted (fun k => (h.mirrors k).removePeer key) fun k _ => h.mirrors k

theorem Offline.mirror (h : s.Offline key) (r : HdRules) :
    Mirror key (s.worker key).cmdRing (ruleList (s.worker key) key) r := by
  rw [ruleList, h.1]
  exact .offline h.2 r

theorem Inv.ruleAdd (h : s.Inv) {src dst : Key} (hok : stepOk s (.ruleAdd src dst)) :
    (s.peerRuleAdd src dst).Inv := by
  unfold peerRuleAdd
  split
  · exact h
  · next store hstore =>
    obtain ⟨-, r, hr, hrules⟩ := RuleRegistry.hdPeersAddRule_some hstore
    have hcounted : ∀ key, (store.rulesOf key).Counted := by
      intro key
      rw [hrules]
      split
      · exact (h.counted src).add hr
      · exact h.counted key
    apply h.enqueue rfl hcounted
    · intro key
      rw [hrules]
      split
      · next hk =>
        subst hk
        exact (h.mirrors key).rule hr
      · next hk => exact (h.mirrors key).rule_ne (Ne.symm hk) dst
    · intro key hdrop
      rw [hrules]
      split
      · next hk =>
        subst hk
        rcases hok (by rw [hstore]; rfl) with hroom | hoff | hhas
        · exact absurd (hdrop rfl) hroom
        · exact hoff.mirror r
        · exact (h.mirrors key).lost hr hhas
      · exact h.mirrors key

theorem Inv.ruleRemove (h : s.Inv) {key dst : Key} (hok : stepOk s (.ruleRemove key dst)) :
    Inv { s with store := (s.store.hdPeersRemoveRule key dst).getD s.store } := by
  cases hstore : s.store.hdPeersRemoveRule key dst with
  | none => exact h
  | some store =>
    obtain ⟨-, r, hr, hrules⟩ := RuleRegistry.hdPeersRemoveRule_some hstore
    have hoff : s.Offline key := by
      rcases hok with hno | hoff
      · rw [HdRules.remove_none hno] at hr
        cases hr
      · exact hoff
    refine ⟨h.pos, h.tables, h.cmds, fun k => ?_, fun k => ?_⟩
    · dsimp only [Option.getD_some]
      rw [hrules]
      split
      · exact (h.counted key).remove hr
      · exact h.counted k
    · dsimp only [Option.getD_some]
      rw [hrules]
      split
      · next hk =>
        subst hk
        exact hoff.mirror r
      · exact h.mirrors k

structure CmdFrame (ctx : Ctx) (v : ℕ) (ctx' : Ctx) : Prop where
  num : ctx'.numWorkers = ctx.numWorkers
  ring : ∀ u, (ctx'.workers u).cmdRing = (ctx.workers u).cmdRing
  others : ∀ u, u ≠ v → (ctx'.workers u).ht = (ctx.workers u).ht

theorem processCmdAdd_frame {ctx : Ctx} {v : ℕ} (hT : TableOk (ctx.workers v)) (fd : Fd) (k : Key)
    (proto : PeerProtocol) (pid : ℕ) : CmdFrame ctx v (processCmdAdd ctx v fd k proto pid) := by
  refine ⟨processCmdAdd_numWorkers .., processCmdAdd_cmdRing hT fd k proto pid, fun u hu => ?_⟩
  rcases processCmdAdd_record hT fd k proto pid with ⟨ao, heq⟩ | ⟨p, -, -, -, hothers⟩
  · rw [heq, Ctx.setWorker_ne _ _ hu]
  · obtain ⟨routes, hr⟩ := hothers u hu
    rw [hr]

theorem processCmdRemove_frame (ctx : Ctx) (v : ℕ) (k : Key) :
    CmdFrame ctx v (processCmdRemove ctx v k).1 := by
  have hnum : (processCmdRemove ctx v k).1.numWorkers = ctx.numWorkers := by
    unfold processCmdRemove
    dsimp only
    split <;> rfl
  cases hl : htLookup (ctx.workers v) k with
  | none =>
    rw [processCmdRemove_none hl]
    exact ⟨rfl, fun _ => rfl, fun _ _ => rfl⟩
  | some p =>
    obtain ⟨hrem, -, hothers⟩ := processCmdRemove_record hl
    refine ⟨hnum, fun u => ?_, fun u hu => ?_⟩
    · by_cases hu : u = v
      · subst hu
        obtain ⟨pc, routes, io, heq⟩ := hrem.eq
        rw [heq]
      · obtain ⟨routes, hr⟩ := hothers u hu
        rw [hr]
    · obtain ⟨routes, hr⟩ := hothers u hu
      rw [hr]

theorem setFwdRule_frame (ctx : Ctx) (v : ℕ) (k dst : Key) :
    CmdFrame ctx v (setFwdRule ctx v k dst) := by
  unfold setFwdRule
  dsimp only
  split
  · exact ⟨rfl, fun _ => rfl, fun _ _ => rfl⟩
  · split
    · exact ⟨rfl, fun _ => rfl, fun _ _ => rfl⟩
    · exact ⟨rfl, setWorker_proj Worker.cmdRing rfl, fun u hu => by rw [Ctx.setWorker_ne _ _ hu]⟩

theorem processCmd_frame {ctx : Ctx} {v : ℕ} (hT : TableOk (ctx.workers v)) {c : Cmd}
    (hc : c.forPeer = true) : CmdFrame ctx v (processCmd ctx v c).1 := by
  cases c with
  | addPeer fd k proto pid => exact processCmdAdd_frame hT fd k proto pid
  | removePeer k => exact processCmdRemove_frame ctx v k
  | setFwdRule k dst => exact setFwdRule_frame ctx v k dst
  | write => cases hc
  | stop => cases hc
  | movePeerOut => cases hc

theorem Inv.pop (h : s.Inv) {v : ℕ} {r : Ctx × Option Fd} (hp : popCmd s.ctx v = some r) :
    Inv { s with ctx := r.1 } := by
  unfold popCmd at hp
  split at hp
  · cases hp
  · next c rest hring =>
    have hc := h.cmds v c (by rw [hring]; exact List.mem_cons_self)
    generalize hctx : s.ctx.onWorker v (fun w => { w with cmdRing := rest }) = ctx at hp
    have hnum : ctx.numWorkers = s.ctx.numWorkers := by
      rw [← hctx]
      rfl
    have hht : ∀ u, (ctx.workers u).ht = (s.ctx.workers u).ht := by
      intro u
      rw [← hctx, Ctx.onWorker]
      exact setWorker_proj Worker.ht (by rfl) u
    have hself : (ctx.workers v).cmdRing = rest := by
      rw [← hctx, Ctx.onWorker, Ctx.setWorker_self]
    have hother : ∀ u, u ≠ v → (ctx.workers u).cmdRing = (s.ctx.workers u).cmdRing := by
      intro u hu
      rw [← hctx, Ctx.onWorker, Ctx.setWorker_ne _ _ hu]
    have hT : ∀ u, TableOk (ctx.workers u) := fun u =>
      (h.tables u).congr (fun q => by rw [hht]) (fun q => by rw [hht]) fun q => by rw [hht]
    have hshows := @processCmd_shows ctx v hT c hc
    have hframe := processCmd_frame (hT v) hc
    have hT' := loopStep_tableOk (l := .cmd v c) hT rfl
    cases hp
    generalize (processCmd ctx v c).1 = ctx' at hshows hframe hT' ⊢
    refine ⟨by rw [hframe.num, hnum]; exact h.pos, hT', fun u c' hc' => ?_, h.counted,
      fun key => ?_⟩
    · dsimp only at hc'
      rw [hframe.ring] at hc'
      by_cases hu : u = v
      · subst hu
        rw [hself] at hc'
        exact h.cmds u c' (by rw [hring]; exact List.mem_cons_of_mem _ hc')
      · rw [hother u hu] at hc'
        exact h.cmds u c' hc'
    · have hmirror := h.mirrors key
      unfold worker at hmirror ⊢
      dsimp only
      rw [hframe.num, hnum, hframe.ring]
      generalize peerWorker s.ctx.numWorkers key = u at hmirror ⊢
      by_cases hu : u = v
      · subst hu
        rw [hring] at hmirror
        rw [hself]
        rw [← ruleList_same (hht u)] at hmirror
        exact hmirror.tail (hshows key)
      · rw [hother u hu, ruleList_same ((hframe.others u hu).trans (hht u))]
        exact hmirror

theorem step_inv {l : Step} (h : s.Inv) (hok : stepOk s l) (hs : step s l = some s') :
    s'.Inv := by
  unfold step at hs
  cases l with
  | enrol key fd =>
    rw [← Option.some.inj hs]
    exact h.enrol key fd
  | connect key fd =>
    rw [← Option.some.inj hs]
    exact h.connect hok fd _
  | disconnect key =>
    rw [← Option.some.inj hs]
    exact h.disconnect key
  | ruleAdd src dst =>
    rw [← Option.some.inj hs]
    exact h.ruleAdd hok
  | ruleRemove key dst =>
    rw [← Option.some.inj hs]
    exact h.ruleRemove hok
  | cmd v =>
    obtain ⟨r, hr, rfl⟩ := Option.map_eq_some_iff.mp hs
    exact h.pop hr

theorem Inv.agree (h : s.Inv) (hset : s.Settled) : s.Agree := by
  intro key p _ hp
  have hT : TableOk (s.worker key) := h.tables _
  have hlist := ruleList_of_peer hT (hT.lookup.mp hp)
  obtain ⟨hsame, hlen⟩ := h.mirrors key (ruleKeys ((s.worker key).ht p)) (by
    rw [show (s.worker key).cmdRing = [] from hset _ (Nat.mod_lt _ h.pos), hlist]
    exact .nil _)
  refine ⟨hsame, fun hcount d hd => ?_⟩
  have hmem := (hsame d).mpr hd
  have hnil : ruleKeys ((s.worker key).ht p) = [] := by
    apply List.eq_nil_of_length_eq_zero
    rw [ruleKeys_length, hcount]
  rw [hnil] at hmem
  cases hmem

/-- In runs without such steps the stores agree whenever the commands are processed. -/
theorem stores_agree (h : Runs.Reach Init step stepOk s) (hset : s.Settled) : s.Agree := by
  have hinv : s.Inv := by
    apply Runs.Reach.invariant _ _ h
    · exact fun s hs => hs.inv
    · exact fun s s' l ih hok hs => step_inv ih hok hs
  exact hinv.agree hset

def start : RuleStores where
  ctx := twoWorkers

theorem start_init : start.Init where
  reg key := by
    change hdPeersLookup {} key = none
    exact HdPeerRegistry.lookup_none.mpr fun i hl => by cases hl
  workers _ := rfl
  pos := Nat.two_pos

def ruled : List Step :=
  [.enrol (byteKey 1) 3, .connect (byteKey 1) 3, .cmd 0, .ruleAdd (byteKey 1) (byteKey 2), .cmd 0]

theorem ruled_agrees :
    ∃ s, Runs.run (Runs.guarded step stepOk) start ruled = some s ∧
      (s.store.rulesOf (byteKey 1)).Has (byteKey 2) ∧ s.Settled ∧ s.Agree := by
  have hrun : (Runs.run (Runs.guarded step stepOk) start ruled).map (fun s =>
      (decide ((s.store.rulesOf (byteKey 1)).Has (byteKey 2)), decide s.Settled)) =
      some (true, true) := by
    decide +kernel
  obtain ⟨s, hs, heq⟩ := Option.map_eq_some_iff.mp hrun
  rw [Prod.mk.injEq, decide_eq_true_eq, decide_eq_true_eq] at heq
  exact ⟨s, hs, heq.1, heq.2,
    stores_agree (Runs.reach_of_guarded (.start start start_init) hs) heq.2⟩

/-- The peer connects again, and its rule is in the registry only. -/
theorem not_agree_reconnected :
    ¬∀ s, Runs.Reach Init step Runs.Any s → s.Settled → s.Agree := by
  intro hall
  have hrun : (Runs.run step start
      (ruled ++ ([.disconnect (byteKey 1), .cmd 0, .connect (byteKey 1) 4, .cmd 0] : List Step))).map (fun s =>
      (decide ((s.store.rulesOf (byteKey 1)).Has (byteKey 2)), decide s.Settled,
        (hdPeersLookup s.store.reg (byteKey 1)).isSome,
        (htLookup (s.worker (byteKey 1)) (byteKey 1)).map fun p =>
          ((s.worker (byteKey 1)).ht p).fwdCount)) =
      some (true, true, true, some 0) := by
    decide +kernel
  obtain ⟨s, hs, heq⟩ := Option.map_eq_some_iff.mp hrun
  rw [Prod.mk.injEq, Prod.mk.injEq, Prod.mk.injEq, decide_eq_true_eq, decide_eq_true_eq] at heq
  obtain ⟨hhas, hset, hreg, hpeer⟩ := heq
  obtain ⟨p, hp, hcount⟩ := Option.map_eq_some_iff.mp hpeer
  exact (hall s (Runs.reach_of_run start_init hs) hset _ p hreg hp).2 hcount _ hhas

end RuleStores

end HyperDerp
