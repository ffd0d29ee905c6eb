import HyperDerp.WgRelay.RosterInv

/-!
# A map keyed by endpoint

`wg_peers` is a copy of the links, keyed by the endpoints of the linked peers. `MapOk`
says what it holds for a list of peers and links, and the lemmas how it has to change
with them: a peer or a link that comes or goes, a peer that gets another endpoint or
interface.
-/

namespace HyperDerp

structure PeerView where
  name : Bytes
  endpoint : Sockaddr
  nic : Bytes
  deriving DecidableEq

def PeerView.key (v : PeerView) : Option EpKey := endpointToV4 v.endpoint

def Front (vs : List PeerView) (v : PeerView) : Prop :=
  vs.find? (fun w => w.key = v.key) = some v

def PeerView.entry (v : PeerView) (ifx : Bytes → ℕ) : Option EpVal :=
  v.key.map fun k => ⟨k.ip, k.port, ifx v.nic⟩

def LinkDir (vs : List PeerView) (links : List WgRelayLink) (ifx : Bytes → ℕ) (k : EpKey)
    (e : EpVal) : Prop :=
  ∃ v ∈ vs, ∃ w ∈ vs, LinkedIn links v.name w.name ∧ v.key = some k ∧ w.entry ifx = some e

structure MapOk (vs : List PeerView) (links : List WgRelayLink) (ifx : Bytes → ℕ)
    (m : EpKey → Option EpVal) : Prop where
  roster : RosterOk (vs.map PeerView.name) links
  v4 : ∀ v ∈ vs, v.key ≠ none
  front : ∀ v ∈ vs, ∀ n, LinkedIn links v.name n → Front vs v
  exact : ∀ k e, m k = some e ↔ LinkDir vs links ifx k e

namespace MapOk

variable {vs : List PeerView} {links : List WgRelayLink} {ifx : Bytes → ℕ}
  {m : EpKey → Option EpVal}

theorem view_of_name (h : MapOk vs links ifx m) {v w : PeerView} (hv : v ∈ vs) (hw : w ∈ vs)
    (hname : v.name = w.name) : v = w :=
  List.inj_on_of_nodup_map h.roster.nodup hv hw hname

theorem front_inj {v w : PeerView} (hv : Front vs v) (hw : Front vs w) (hkey : v.key = w.key) :
    v = w := by
  unfold Front at hv hw
  rw [hkey, hw] at hv
  exact (Option.some.inj hv).symm

theorem addPeer (h : MapOk vs links ifx m) {v : PeerView} (hname : v.name ∉ vs.map PeerView.name)
    (hv4 : v.key ≠ none) : MapOk (vs ++ [v]) links ifx m := by
  have hold : ∀ w ∈ vs ++ [v], w.name ∈ vs.map PeerView.name → w ∈ vs := by
    intro w hw hn
    rw [List.mem_append, List.mem_singleton] at hw
    rcases hw with hw | rfl
    · exact hw
    · exact (hname hn).elim
  refine ⟨?_, ?_, ?_, fun k e => ?_⟩
  · rw [List.map_append]
    exact h.roster.addPeer hname
  · intro w hw
    rw [List.mem_append, List.mem_singleton] at hw
    rcases hw with hw | rfl
    · exact h.v4 w hw
    · exact hv4
  · intro w hw n hlink
    have hfront := h.front w (hold w hw (hlink.mem h.roster)) n hlink
    unfold Front at hfront ⊢
    rw [List.find?_append, hfront, Option.some_or]
  · rw [h.exact]
    constructor
    · intro ⟨x, hx, y, hy, hrest⟩
      exact ⟨x, List.mem_append_left _ hx, y, List.mem_append_left _ hy, hrest⟩
    · intro ⟨x, hx, y, hy, hlink, hrest⟩
      exact ⟨x, hold x hx (hlink.mem h.roster), y, hold y hy (hlink.symm.mem h.roster), hlink, hrest⟩

theorem find?_mono {α : Type} {P Q : α → Bool} {xs : List α} {x : α}
    (hsub : ∀ y ∈ xs, Q y = true → P y = true) (hP : xs.find? P = some x) (hQ : Q x = true) :
    xs.find? Q = some x := by
  induction xs with
  | nil => cases hP
  | cons y ys ih =>
    rw [List.find?_cons] at hP ⊢
    cases hy : P y with
    | true =>
      rw [hy] at hP
      cases hP
      rw [hQ]
    | false =>
      rw [hy] at hP
      have hQy : Q y = false := by
        by_contra h
        rw [Bool.not_eq_false] at h
        rw [hsub y (List.mem_cons_self ..) h] at hy
        cases hy
      rw [hQy]
      exact ih (fun z hz => hsub z (List.mem_cons_of_mem _ hz)) hP

theorem find?_eraseP {α : Type} {P R : α → Bool} {xs : List α} {x : α} (h : xs.find? P = some x)
    (hR : R x = false) : (xs.eraseP R).find? P = some x := by
  induction xs with
  | nil => cases h
  | cons y ys ih =>
    rw [List.find?_cons] at h
    cases hRy : R y with
    | true =>
      rw [List.eraseP_cons_of_pos hRy]
      cases hy : P y with
      | true =>
        rw [hy] at h
        cases h
        rw [hRy] at hR
        cases hR
      | false =>
        rw [hy] at h
        exact h
    | false =>
      rw [List.eraseP_cons_of_neg (by rw [hRy]; decide), List.find?_cons]
      cases hy : P y with
      | true =>
        rw [hy] at h
        exact h
      | false =>
        rw [hy] at h
        exact ih h

theorem removePeer (h : MapOk vs links ifx m) {name : Bytes}
    (hfree : ∀ l ∈ links, l.touches name = false) :
    MapOk (vs.eraseP fun v => v.name = name) links ifx m := by
  have hlinks : (links.filter fun l => !l.touches name) = links := by
    rw [List.filter_eq_self]
    intro l hl
    rw [hfree l hl]
    rfl
  have hroster := h.roster.removePeer name
  rw [hlinks] at hroster
  have hsub : (vs.eraseP fun v => v.name = name).Sublist vs := List.eraseP_sublist
  have hoff : ∀ a b, LinkedIn links a b → a ≠ name := by
    intro a b ⟨l, hl, hj⟩ heq
    have ht : l.touches name = true :=
      WgRelayLink.touches_iff.2 (heq ▸ (WgRelayLink.joins_iff.1 hj).imp And.left And.right)
    rw [hfree l hl] at ht
    cases ht
  have hin : ∀ v ∈ vs, v.name ≠ name → v ∈ vs.eraseP fun v => v.name = name := by
    intro v hv hne
    rw [List.mem_eraseP_of_neg (by simpa using hne)]
    exact hv
  refine ⟨?_, fun v hv => h.v4 v (hsub.subset hv), ?_, fun k e => ?_⟩
  · rw [List.erase_eq_eraseP, List.eraseP_map] at hroster
    have heq : ((fun x => name == x) ∘ PeerView.name) = fun v => decide (v.name = name) := by
      funext v
      rw [Bool.eq_iff_iff, Function.comp, beq_iff_eq, decide_eq_true_eq]
      exact eq_comm
    rw [heq] at hroster
    exact hroster
  · intro v hv n hlink
    apply find?_eraseP (h.front v (hsub.subset hv) n hlink)
    exact decide_eq_false (hoff _ _ hlink)
  · rw [h.exact]
    constructor
    · intro ⟨v, hv, w, hw, hlink, hrest⟩
      exact ⟨v, hin v hv (hoff _ _ hlink), w, hin w hw (hoff _ _ hlink.symm), hlink, hrest⟩
    · intro ⟨v, hv, w, hw, hrest⟩
      exact ⟨v, hsub.subset hv, w, hsub.subset hw, hrest⟩

theorem linkedIn_snoc {links : List WgRelayLink} {a b x y : Bytes} :
    LinkedIn (links ++ [⟨a, b⟩]) x y ↔ LinkedIn links x y ∨ x = a ∧ y = b ∨ x = b ∧ y = a := by
  unfold LinkedIn
  constructor
  · intro ⟨l, hl, hj⟩
    rw [List.mem_append, List.mem_singleton] at hl
    rcases hl with hl | rfl
    · exact .inl ⟨l, hl, hj⟩
    · rcases WgRelayLink.joins_iff.1 hj with ⟨h1, h2⟩ | ⟨h1, h2⟩
      · exact .inr (.inl ⟨h1.symm, h2.symm⟩)
      · exact .inr (.inr ⟨h2.symm, h1.symm⟩)
  · intro h
    rcases h with ⟨l, hl, hj⟩ | h
    · exact ⟨l, List.mem_append_left _ hl, hj⟩
    · refine ⟨⟨a, b⟩, List.mem_append_right _ (List.mem_singleton_self _), ?_⟩
      rw [WgRelayLink.joins_iff]
      exact h.imp (fun h => ⟨h.1.symm, h.2.symm⟩) fun h => ⟨h.2.symm, h.1.symm⟩

theorem addLink (h : MapOk vs links ifx m) {v w : PeerView} (hv : v ∈ vs) (hw : w ∈ vs)
    (hne : v.name ≠ w.name)
    (hfree : ∀ l ∈ links, l.touches v.name = false ∧ l.touches w.name = false)
    (hfv : Front vs v) (hfw : Front vs w) {kv kw : EpKey} (hkv : v.key = some kv)
    (hkw : w.key = some kw) :
    MapOk vs (links ++ [⟨v.name, w.name⟩]) ifx
      (Function.update (Function.update m kv (w.entry ifx)) kw (v.entry ifx)) := by
  have hk : kw ≠ kv := by
    intro heq
    have hvw := front_inj hfv hfw (by rw [hkv, hkw, heq])
    exact hne (congrArg PeerView.name hvw)
  have hmem : ∀ x ∈ vs, ∀ n, LinkedIn (links ++ [⟨v.name, w.name⟩]) x.name n →
      Front vs x ∧ (LinkedIn links x.name n ∨ x = v ∧ n = w.name ∨ x = w ∧ n = v.name) := by
    intro x hx n hlink
    rcases linkedIn_snoc.1 hlink with hold | ⟨hxv, hn⟩ | ⟨hxw, hn⟩
    · exact ⟨h.front x hx n hold, .inl hold⟩
    · have := h.view_of_name hx hv hxv
      subst this
      exact ⟨hfv, .inr (.inl ⟨rfl, hn⟩)⟩
    · have := h.view_of_name hx hw hxw
      subst this
      exact ⟨hfw, .inr (.inr ⟨rfl, hn⟩)⟩
  -- the ends were in no link, so their keys were not in the map
  have hoff : ∀ z : PeerView, (∀ l ∈ links, l.touches z.name = false) → ∀ n,
      ¬ LinkedIn links z.name n := by
    intro z hz n ⟨l, hl, hj⟩
    have ht : l.touches z.name = true :=
      WgRelayLink.touches_iff.2 ((WgRelayLink.joins_iff.1 hj).imp And.left And.right)
    rw [hz l hl] at ht
    cases ht
  have hovn := hoff v fun l hl => (hfree l hl).1
  have hown := hoff w fun l hl => (hfree l hl).2
  have hlv : LinkedIn (links ++ [⟨v.name, w.name⟩]) v.name w.name :=
    linkedIn_snoc.2 (.inr (.inl ⟨rfl, rfl⟩))
  refine ⟨h.roster.addLink hne (List.mem_map_of_mem hv) (List.mem_map_of_mem hw) hfree, h.v4,
    fun x hx n hlink => (hmem x hx n hlink).1, fun k e => ?_⟩
  have hother : ∀ x ∈ vs, ∀ y ∈ vs, LinkedIn (links ++ [⟨v.name, w.name⟩]) x.name y.name →
      ∀ k, x.key = some k → k ≠ kv → k ≠ kw → LinkedIn links x.name y.name := by
    intro x hx y hy hlink k hxk h1 h2
    rcases (hmem x hx _ hlink).2 with hold | ⟨hxv, -⟩ | ⟨hxw, -⟩
    · exact hold
    · rw [hxv, hkv] at hxk
      exact (h1 (Option.some.inj hxk).symm).elim
    · rw [hxw, hkw] at hxk
      exact (h2 (Option.some.inj hxk).symm).elim
  -- whoever is linked under one of the two keys is that end
  have hend : ∀ x ∈ vs, ∀ y ∈ vs, LinkedIn (links ++ [⟨v.name, w.name⟩]) x.name y.name →
      (x.key = some kv → x = v ∧ y = w) ∧ (x.key = some kw → x = w ∧ y = v) := by
    intro x hx y hy hlink
    obtain ⟨hfx, hcase⟩ := hmem x hx _ hlink
    constructor
    · intro hxk
      have hxv := front_inj hfx hfv (hxk.trans hkv.symm)
      subst hxv
      rcases hcase with hold | ⟨-, hn⟩ | ⟨heq, -⟩
      · exact (hovn _ hold).elim
      · exact ⟨rfl, h.view_of_name hy hw hn⟩
      · exact (hne (congrArg PeerView.name heq)).elim
    · intro hxk
      have hxw := front_inj hfx hfw (hxk.trans hkw.symm)
      subst hxw
      rcases hcase with hold | ⟨heq, -⟩ | ⟨-, hn⟩
      · exact (hown _ hold).elim
      · exact (hne (congrArg PeerView.name heq.symm)).elim
      · exact ⟨rfl, h.view_of_name hy hv hn⟩
  by_cases hkkw : k = kw
  · subst hkkw
    rw [Function.update_self]
    constructor
    · exact fun he => ⟨w, hw, v, hv, hlv.symm, hkw, he⟩
    · intro ⟨x, hx, y, hy, hlink, hxk, hye⟩
      obtain ⟨-, rfl⟩ := (hend x hx y hy hlink).2 hxk
      exact hye
  by_cases hkkv : k = kv
  · subst hkkv
    rw [Function.update_of_ne hkkw, Function.update_self]
    constructor
    · exact fun he => ⟨v, hv, w, hw, hlv, hkv, he⟩
    · intro ⟨x, hx, y, hy, hlink, hxk, hye⟩
      obtain ⟨-, rfl⟩ := (hend x hx y hy hlink).1 hxk
      exact hye
  · rw [Function.update_of_ne hkkw, Function.update_of_ne hkkv, h.exact]
    constructor
    · intro ⟨x, hx, y, hy, hlink, hrest⟩
      exact ⟨x, hx, y, hy, linkedIn_snoc.2 (.inl hlink), hrest⟩
    · intro ⟨x, hx, y, hy, hlink, hxk, hye⟩
      exact ⟨x, hx, y, hy, hother x hx y hy hlink k hxk hkkv hkkw, hxk, hye⟩

theorem not_joins_of_mem_eraseP {names : List Bytes} {links : List WgRelayLink} {a b : Bytes}
    (h : RosterOk names links) {l : WgRelayLink} (hl : l ∈ links.eraseP fun l => l.joins a b) :
    l.joins a b = false := by
  have hap := h.apart
  clear h
  induction links with
  | nil => cases hl
  | cons x xs ih =>
    obtain ⟨hx, hxs⟩ := List.pairwise_cons.1 hap
    cases hj : x.joins a b with
    | true =>
      rw [List.eraseP_cons_of_pos (p := fun l : WgRelayLink => l.joins a b) hj] at hl
      by_contra hlj
      rw [Bool.not_eq_false] at hlj
      have htx : x.touches a = true :=
        WgRelayLink.touches_iff.2 ((WgRelayLink.joins_iff.1 hj).imp And.left And.right)
      have htl : l.touches a = true :=
        WgRelayLink.touches_iff.2 ((WgRelayLink.joins_iff.1 hlj).imp And.left And.right)
      rw [hx l hl a htx] at htl
      cases htl
    | false =>
      rw [List.eraseP_cons_of_neg (by rw [hj]; decide), List.mem_cons] at hl
      rcases hl with rfl | hl
      · exact hj
      · exact ih hl hxs

theorem removeLink (h : MapOk vs links ifx m) {v w : PeerView} (hv : v ∈ vs) (hw : w ∈ vs)
    (hlink : LinkedIn links v.name w.name) {kv kw : EpKey} (hkv : v.key = some kv)
    (hkw : w.key = some kw) :
    MapOk vs (links.eraseP fun l => l.joins v.name w.name) ifx
      (Function.update (Function.update m kv none) kw none) := by
  have hsub : ∀ x y, LinkedIn (links.eraseP fun l => l.joins v.name w.name) x y →
      LinkedIn links x y := fun x y ⟨l, hl, hj⟩ => ⟨l, List.eraseP_sublist.subset hl, hj⟩
  -- the only partner of an end was the other one
  have hfree : ∀ n, ¬ LinkedIn (links.eraseP fun l => l.joins v.name w.name) v.name n := by
    intro n hn
    have hnw := (hsub _ _ hn).unique h.roster hlink
    subst hnw
    obtain ⟨l, hl, hj⟩ := hn
    rw [not_joins_of_mem_eraseP h.roster hl] at hj
    cases hj
  have hfree' : ∀ n, ¬ LinkedIn (links.eraseP fun l => l.joins v.name w.name) w.name n := by
    intro n hn
    have hnv := (hsub _ _ hn).unique h.roster hlink.symm
    subst hnv
    exact hfree _ hn.symm
  have hkeep : ∀ x y, x ≠ v.name → x ≠ w.name → LinkedIn links x y →
      LinkedIn (links.eraseP fun l => l.joins v.name w.name) x y := by
    intro x y hxv hxw ⟨l, hl, hj⟩
    refine ⟨l, ?_, hj⟩
    rw [List.mem_eraseP_of_neg]
    · exact hl
    · intro hj'
      rcases WgRelayLink.joins_iff.1 hj with ⟨h1, h2⟩ | ⟨h1, h2⟩ <;>
        rcases WgRelayLink.joins_iff.1 hj' with ⟨h3, h4⟩ | ⟨h3, h4⟩
      · exact hxv (h1.symm.trans h3)
      · exact hxw (h1.symm.trans h3)
      · exact hxw (h2.symm.trans h4)
      · exact hxv (h2.symm.trans h4)
  have hfv := h.front v hv _ hlink
  have hfw := h.front w hw _ hlink.symm
  refine ⟨h.roster.removeLink List.eraseP_sublist, h.v4,
    fun x hx n hn => h.front x hx n (hsub _ _ hn), fun k e => ?_⟩
  by_cases hkkw : k = kw
  · subst hkkw
    rw [Function.update_self]
    refine ⟨nofun, fun ⟨x, hx, y, hy, hxy, hxk, _⟩ => ?_⟩
    have hxw := front_inj (h.front x hx _ (hsub _ _ hxy)) hfw (hxk.trans hkw.symm)
    subst hxw
    exact (hfree' _ hxy).elim
  by_cases hkkv : k = kv
  · subst hkkv
    rw [Function.update_of_ne hkkw, Function.update_self]
    refine ⟨nofun, fun ⟨x, hx, y, hy, hxy, hxk, _⟩ => ?_⟩
    have hxv := front_inj (h.front x hx _ (hsub _ _ hxy)) hfv (hxk.trans hkv.symm)
    subst hxv
    exact (hfree _ hxy).elim
  · rw [Function.update_of_ne hkkw, Function.update_of_ne hkkv, h.exact]
    constructor
    · intro ⟨x, hx, y, hy, hxy, hxk, hye⟩
      refine ⟨x, hx, y, hy, hkeep _ _ ?_ ?_ hxy, hxk, hye⟩
      · intro hn
        rw [h.view_of_name hx hv hn, hkv] at hxk
        exact hkkv (Option.some.inj hxk).symm
      · intro hn
        rw [h.view_of_name hx hw hn, hkw] at hxk
        exact hkkw (Option.some.inj hxk).symm
    · intro ⟨x, hx, y, hy, hxy, hrest⟩
      exact ⟨x, hx, y, hy, hsub _ _ hxy, hrest⟩

/-- The peers after `p` has become `p'`, under its name. -/
structure Becomes (vs vs' : List PeerView) (links : List WgRelayLink) (p p' : PeerView) : Prop where
  names : vs'.map PeerView.name = vs.map PeerView.name
  name : p'.name = p.name
  mem : ∀ x, x ∈ vs' ↔ x ∈ vs ∧ x.name ≠ p.name ∨ x = p'
  v4 : p'.key ≠ none
  front : ∀ x ∈ vs, x.name ≠ p.name → (∃ n, LinkedIn links x.name n) → Front vs' x
  frontSelf : (∃ n, LinkedIn links p.name n) → Front vs' p'

theorem change (h : MapOk vs links ifx m) {vs' : List PeerView} {p p' : PeerView}
    (hb : Becomes vs vs' links p p') (hfree : ∀ n, ¬ LinkedIn links p.name n) :
    MapOk vs' links ifx m := by
  have hroster : RosterOk (vs'.map PeerView.name) links := hb.names ▸ h.roster
  have hlinked : ∀ x ∈ vs', ∀ n, LinkedIn links x.name n → x ∈ vs ∧ x.name ≠ p.name := by
    intro x hx n hn
    rcases (hb.mem x).1 hx with hx | rfl
    · exact hx
    · exact (hfree n (hb.name ▸ hn)).elim
  refine ⟨hroster, fun x hx => ?_, fun x hx n hn => ?_, fun k e => ?_⟩
  · rcases (hb.mem x).1 hx with ⟨hx, -⟩ | rfl
    · exact h.v4 x hx
    · exact hb.v4
  · obtain ⟨hx', hne⟩ := hlinked x hx n hn
    exact hb.front x hx' hne ⟨n, hn⟩
  · rw [h.exact]
    have hin : ∀ x ∈ vs, ∀ n, LinkedIn links x.name n → x ∈ vs' := by
      intro x hx n hn
      refine (hb.mem x).2 (.inl ⟨hx, fun heq => hfree n (heq ▸ hn)⟩)
    constructor
    · intro ⟨x, hx, y, hy, hxy, hrest⟩
      exact ⟨x, hin x hx _ hxy, y, hin y hy _ hxy.symm, hxy, hrest⟩
    · intro ⟨x, hx, y, hy, hxy, hrest⟩
      exact ⟨x, (hlinked x hx _ hxy).1, y, (hlinked y hy _ hxy.symm).1, hxy, hrest⟩

theorem changeLinked (h : MapOk vs links ifx m) {vs' : List PeerView} {p p' q : PeerView}
    (hb : Becomes vs vs' links p p') (hp : p ∈ vs) (hq : q ∈ vs)
    (hlink : LinkedIn links p.name q.name) {kp kp' kq : EpKey} (hkp : p.key = some kp)
    (hkp' : p'.key = some kp') (hkq : q.key = some kq) {m' : EpKey → Option EpVal}
    (hmq : m' kq = p'.entry ifx) (hmp' : m' kp' = q.entry ifx) (hmp : kp ≠ kp' → m' kp = none)
    (hm : ∀ k, k ≠ kq → k ≠ kp' → k ≠ kp → m' k = m k) : MapOk vs' links ifx m' := by
  have hroster : RosterOk (vs'.map PeerView.name) links := hb.names ▸ h.roster
  have hne : p.name ≠ q.name := hlink.ne h.roster
  have hq' : q ∈ vs' := (hb.mem q).2 (.inl ⟨hq, hne.symm⟩)
  have hp' : p' ∈ vs' := (hb.mem p').2 (.inr rfl)
  have hlink' : LinkedIn links p'.name q.name := hb.name ▸ hlink
  have hfront : ∀ x ∈ vs', ∀ n, LinkedIn links x.name n → Front vs' x := by
    intro x hx n hn
    rcases (hb.mem x).1 hx with ⟨hx, hxp⟩ | rfl
    · exact hb.front x hx hxp ⟨n, hn⟩
    · exact hb.frontSelf ⟨n, hb.name ▸ hn⟩
  have hfp' := hfront p' hp' _ hlink'
  have hfq := hfront q hq' _ hlink'.symm
  have hunique : ∀ x ∈ vs', ∀ y ∈ vs', x.name = y.name → x = y := fun x hx y hy hn =>
    List.inj_on_of_nodup_map hroster.nodup hx hy hn
  refine ⟨hroster, fun x hx => ?_, hfront, fun k e => ?_⟩
  · rcases (hb.mem x).1 hx with ⟨hx, -⟩ | rfl
    · exact h.v4 x hx
    · exact hb.v4
  by_cases hkkq : k = kq
  · subst hkkq
    rw [hmq]
    constructor
    · exact fun he => ⟨q, hq', p', hp', hlink'.symm, hkq, he⟩
    · intro ⟨x, hx, y, hy, hxy, hxk, hye⟩
      have hxq := front_inj (hfront x hx _ hxy) hfq (hxk.trans hkq.symm)
      subst hxq
      have hyp := hunique y hy p' hp' (hxy.unique hroster hlink'.symm)
      subst hyp
      exact hye
  by_cases hkkp' : k = kp'
  · subst hkkp'
    rw [hmp']
    constructor
    · exact fun he => ⟨p', hp', q, hq', hlink', hkp', he⟩
    · intro ⟨x, hx, y, hy, hxy, hxk, hye⟩
      have hxp := front_inj (hfront x hx _ hxy) hfp' (hxk.trans hkp'.symm)
      subst hxp
      have hyq := hunique y hy q hq' (hxy.unique hroster hlink')
      subst hyq
      exact hye
  -- any other linked peer under the key is neither end, before and after
  have hother : ∀ x ∈ vs', x.key = some k → x.name ≠ p.name ∧ x.name ≠ q.name := by
    intro x hx hxk
    constructor
    · intro hn
      rw [hunique x hx p' hp' (hn.trans hb.name.symm), hkp'] at hxk
      exact hkkp' (Option.some.inj hxk).symm
    · intro hn
      rw [hunique x hx q hq' hn, hkq] at hxk
      exact hkkq (Option.some.inj hxk).symm
  have hback : ∀ x ∈ vs', x.name ≠ p.name → x ∈ vs := by
    intro x hx hxp
    rcases (hb.mem x).1 hx with ⟨hx, -⟩ | rfl
    · exact hx
    · exact (hxp hb.name).elim
  -- the partner of a peer that is neither end is neither end
  have hpartner : ∀ x y, LinkedIn links x y → x ≠ q.name → y ≠ p.name := by
    intro x y hxy hxq hyp
    subst hyp
    exact hxq (hxy.symm.unique hroster hlink)
  by_cases hkkp : k = kp
  · subst hkkp
    rw [hmp hkkp']
    refine ⟨nofun, fun ⟨x, hx, y, hy, hxy, hxk, _⟩ => ?_⟩
    obtain ⟨hxp, -⟩ := hother x hx hxk
    have hfx := h.front x (hback x hx hxp) _ hxy
    have hxp' := front_inj hfx (h.front p hp _ hlink) (hxk.trans hkp.symm)
    exact (hxp (congrArg PeerView.name hxp')).elim
  · rw [hm k hkkq hkkp' hkkp, h.exact]
    constructor
    · intro ⟨x, hx, y, hy, hxy, hxk, hye⟩
      have hxp : x.name ≠ p.name := by
        intro hn
        rw [h.view_of_name hx hp hn, hkp] at hxk
        exact hkkp (Option.some.inj hxk).symm
      have hxq : x.name ≠ q.name := by
        intro hn
        rw [h.view_of_name hx hq hn, hkq] at hxk
        exact hkkq (Option.some.inj hxk).symm
      exact ⟨x, (hb.mem x).2 (.inl ⟨hx, hxp⟩), y,
        (hb.mem y).2 (.inl ⟨hy, hpartner _ _ hxy hxq⟩), hxy, hxk, hye⟩
    · intro ⟨x, hx, y, hy, hxy, hxk, hye⟩
      obtain ⟨hxp, hxq⟩ := hother x hx hxk
      exact ⟨x, hback x hx hxp, y, hback y hy (hpartner _ _ hxy hxq), hxy, hxk, hye⟩

end MapOk

theorem becomes_of_map {vs : List PeerView} {links : List WgRelayLink} {ifx : Bytes → ℕ}
    {m : EpKey → Option EpVal} (h : MapOk vs links ifx m) {p p' : PeerView} (hp : p ∈ vs)
    (hname : p'.name = p.name) (hv4 : p'.key ≠ none)
    (hkey : p'.key = p.key ∨ ∀ x ∈ vs, x.key ≠ p'.key) :
    MapOk.Becomes vs (vs.map fun x => if x.name = p.name then p' else x) links p p' := by
  have hself : ∀ x ∈ vs, x.name = p.name → x = p := fun x hx hn => h.view_of_name hx hp hn
  refine ⟨?_, hname, fun x => ?_, hv4, fun x hx hne hlink => ?_, fun hlink => ?_⟩
  · rw [List.map_map]
    apply List.map_congr_left
    intro x hx
    rw [Function.comp]
    split
    · next hn => rw [hname, hn]
    · rfl
  · rw [List.mem_map]
    constructor
    · intro ⟨y, hy, heq⟩
      split at heq
      · exact .inr heq.symm
      · next hn =>
        subst heq
        exact .inl ⟨hy, hn⟩
    · intro hx
      rcases hx with ⟨hx, hn⟩ | rfl
      · exact ⟨x, hx, if_neg hn⟩
      · exact ⟨p, hp, if_pos rfl⟩
  · obtain ⟨n, hn⟩ := hlink
    have hfront := h.front x hx n hn
    unfold Front at hfront ⊢
    rw [List.find?_map]
    rw [MapOk.find?_mono _ hfront]
    · rw [Option.map_some, if_neg hne]
    · rw [Function.comp, if_neg hne]
      exact decide_eq_true rfl
    · intro y hy hyx
      rw [Function.comp, decide_eq_true_eq] at hyx
      rw [decide_eq_true_eq]
      split at hyx
      · next hyp =>
        rw [hself y hy hyp]
        rcases hkey with hkey | hkey
        · exact hkey.symm.trans hyx
        · exact (hkey x hx hyx.symm).elim
      · exact hyx
  · obtain ⟨n, hn⟩ := hlink
    unfold Front
    rw [List.find?_map]
    have hfind : vs.find? ((fun w => decide (w.key = p'.key)) ∘ fun x =>
        if x.name = p.name then p' else x) = some p := by
      rcases hkey with hkey | hkey
      · have hfront := h.front p hp n hn
        unfold Front at hfront
        apply MapOk.find?_mono _ hfront
        · rw [Function.comp, if_pos rfl]
          exact decide_eq_true rfl
        · intro y hy hyp
          rw [Function.comp, decide_eq_true_eq] at hyp
          rw [decide_eq_true_eq]
          split at hyp
          · next hn' => rw [hself y hy hn']
          · exact hyp.trans hkey
      · cases hf : vs.find? ((fun w => decide (w.key = p'.key)) ∘ fun x =>
            if x.name = p.name then p' else x) with
        | none =>
          rw [List.find?_eq_none] at hf
          have := hf p hp
          rw [Function.comp, if_pos rfl] at this
          exact (this (decide_eq_true rfl)).elim
        | some y =>
          have hy := List.mem_of_find?_eq_some hf
          have hyk := List.find?_some hf
          rw [Function.comp, decide_eq_true_eq] at hyk
          split at hyk
          · next hn' => rw [hself y hy hn']
          · exact (hkey y hy hyk).elim
    rw [hfind, Option.map_some, if_pos rfl]

end HyperDerp
