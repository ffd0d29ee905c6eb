import HyperDerp.WgRelay.RosterText
import HyperDerp.WgRelay.Roaming
import HyperDerp.Lib.Runs

/-!
# What a restart makes of the roster (`wg_relay.cc:172-216`, `:347-414`, `:989-1009`)

The text is read in three parts, peers, links and interfaces, each of which restores
its part of the tables. What the loader can produce bounds what can come back.
-/

namespace HyperDerp.RosterFile

/-! ### What is saved of a peer -/

def plain : Sockaddr → Sockaddr
  | .in4 addr port => .in4 addr port
  | .in6 head tail port flowinfo scopeId =>
    if head = kV4Prefix then .in4 tail port else .in6 head tail port flowinfo scopeId

structure Saved where
  name : Bytes
  endpoint : Sockaddr
  endpointStr : Bytes
  pubkeyB64 : Bytes
  label : Bytes
  nic : Bytes
  deriving DecidableEq

def saved (p : WgRelayPeer) : Saved :=
  ⟨p.name, plain p.endpoint, p.endpointStr, p.pubkeyB64, p.label, p.nic⟩

def reload (c : Libc) (r : WgRelay) : WgRelay :=
  (loadRosterFile c {} (rosterHeader ++ serializeRoster r.peers r.links)).1

def RoundTrips (c : Libc) (r : WgRelay) : Prop :=
  (reload c r).peers.map saved = r.peers.map saved ∧ (reload c r).links = r.links

/-- The fields of a peer that its lines can hold. -/
@[mk_iff]
structure Saveable (p : WgRelayPeer) : Prop where
  name : Word p.name
  endpoint : p.endpointStr.head? ≠ some 0x5b
  key : p.pubkeyB64 = [] ∨ Word p.pubkeyB64
  nic : p.nic = [] ∨ Word p.nic
  label : (0x0a : Byte) ∉ p.label ∧ p.label.head? ≠ some 0x20
  labelled : p.label ≠ [] → p.pubkeyB64 ≠ []

instance : DecidablePred Saveable := fun p => decidable_of_iff _ (saveable_iff p).symm

/-! ### One line after the other -/

section reading

variable (c : Libc)

def readLine (r : WgRelay) (line : Bytes) : WgRelay := (loadRosterLine c r {} line).1

theorem loadRosterLine_fst (r : WgRelay) (n : RosterCounts) (line : Bytes) :
    (loadRosterLine c r n line).1 = readLine c r line := by
  unfold readLine loadRosterLine
  dsimp only
  split
  · rfl
  split
  · split
    · rfl
    · split
      · rfl
      · rfl
  split
  · split
    · rfl
    · split
      · rfl
      · rfl
  split
  · split
    · rfl
    · split
      · rfl
      · rfl
  · rfl

theorem foldl_readLine (lines : List Bytes) (r : WgRelay) (n : RosterCounts) :
    (lines.foldl (fun st line => loadRosterLine c st.1 st.2 line) (r, n)).1 =
      lines.foldl (readLine c) r := by
  induction lines generalizing r n with
  | nil => rfl
  | cons line lines ih =>
    rw [List.foldl_cons, List.foldl_cons, ih, loadRosterLine_fst]

theorem readLine_comment (r : WgRelay) {line : Bytes} (h : line.head? = some 0x23) :
    readLine c r line = r := by
  unfold readLine loadRosterLine
  rw [if_pos (.inr h)]

theorem load_unlines (r : WgRelay) {lines : List Bytes} (h : ∀ l ∈ lines, (0x0a : Byte) ∉ l) :
    (loadRosterFile c r (unlines lines)).1 = lines.foldl (readLine c) r := by
  unfold loadRosterFile
  rw [Lines.splitOn_join h, foldl_readLine, List.foldl_append]
  rfl

theorem read_header (r : WgRelay) : headerLines.foldl (readLine c) r = r := by
  have hskip : ∀ lines : List Bytes, (∀ l ∈ lines, l.head? = some 0x23) →
      lines.foldl (readLine c) r = r := by
    intro lines
    induction lines with
    | nil => exact fun _ => rfl
    | cons l lines ih =>
      intro h
      rw [List.foldl_cons, readLine_comment c r (h l (List.mem_cons_self ..))]
      exact ih fun m hm => h m (List.mem_cons_of_mem _ hm)
  exact hskip headerLines fun l hl => (headerLines_clean l hl).2

/-! ### The three kinds of lines -/

theorem word_kwPeer : Word kwPeer := by decide +kernel
theorem word_kwLink : Word kwLink := by decide +kernel
theorem word_kwNic : Word kwNic := by decide +kernel

theorem ended_peerTail (p : WgRelayPeer) : Ended (peerTail p) := by
  unfold peerTail
  split
  · exact ended_nil
  · exact ended_space _

variable {p : WgRelayPeer} {r : WgRelay}

theorem read_peerTail (h : Saveable p) :
    (readToken (peerTail p)).1 = p.pubkeyB64 ∧
      (readToken (peerTail p)).2.dropWhile (· = 0x20) = p.label := by
  unfold peerTail
  split
  · next hkey =>
    have hlabel : p.label = [] := by
      by_contra hne
      exact h.labelled hne hkey
    rw [readToken_nil, hkey, hlabel]
    exact ⟨rfl, rfl⟩
  · next hkey =>
    have hword := h.key.resolve_left hkey
    have hended : Ended (if p.label = [] then [] else 0x20 :: p.label) := by
      split
      · exact ended_nil
      · exact ended_space _
    rw [readToken_space, readToken_word hword hended]
    refine ⟨rfl, ?_⟩
    split
    · next hlabel => rw [hlabel]; rfl
    · have hhead := h.label.2
      cases hl : p.label with
      | nil => rfl
      | cons b label =>
        rw [hl] at hhead
        have hb : b ≠ 0x20 := fun heq => hhead (congrArg some heq)
        simp [hb]

def reread (p : WgRelayPeer) : WgRelayPeer where
  name := p.name
  endpoint := (parseHostPort c p.endpointStr).getD p.endpoint
  endpointStr := p.endpointStr
  pubkeyB64 := p.pubkeyB64
  label := p.label

theorem modifyFirst_append {α : Type} {P : α → Bool} {f : α → α} {xs : List α}
    (h : ∀ x ∈ xs, P x = false) (ys : List α) :
    modifyFirst P f (xs ++ ys) = xs ++ modifyFirst P f ys := by
  induction xs with
  | nil => rfl
  | cons x xs ih =>
    have hx := h x (List.mem_cons_self ..)
    have hrest := ih fun y hy => h y (List.mem_cons_of_mem _ hy)
    simp only [List.cons_append, modifyFirst, hx, Bool.false_eq_true, if_false, hrest]

theorem not_named {peers : List WgRelayPeer} {name : Bytes}
    (h : name ∉ peers.map WgRelayPeer.name) :
    ∀ p ∈ peers, decide (p.name = name) = false := by
  intro p hp
  rw [decide_eq_false_iff_not]
  rintro rfl
  exact h (List.mem_map_of_mem hp)

theorem peerAdd_keyed {name endpoint : Bytes} {ep : Sockaddr} (hfresh : name ∉ r.names)
    (hep : parseHostPort c endpoint = some ep) (label pubkey : Bytes) :
    ∃ r1, peerAddLocked c r name endpoint label = (r1, true) ∧
      (if pubkey = [] then r1 else (peerKeyLocked r1 name pubkey).1) =
        { r with
          peers := r.peers ++ [
            { name := name
              endpoint := ep
              endpointStr := endpoint
              pubkeyB64 := pubkey
              label := label }] } := by
  have hnone := not_named hfresh
  have hany : (r.peers.any fun q => decide (q.name = name)) = false := by
    simpa using hnone
  refine ⟨_, by simp only [peerAddLocked, hany, Bool.false_eq_true, if_false, hep]; rfl, ?_⟩
  split
  · next hk => rw [hk]
  · simp only [peerKeyLocked, WgRelay.modifyPeer, modifyFirst_append hnone, modifyFirst,
      decide_true, if_true]

theorem readLine_peer (h : Saveable p) (hword : Word p.endpointStr)
    (hparse : (parseHostPort c p.endpointStr).isSome = true) (hfresh : p.name ∉ r.names) :
    readLine c r (peerLine p) = { r with peers := r.peers ++ [reread c p] } := by
  obtain ⟨ep, hep⟩ := Option.isSome_iff_exists.1 hparse
  obtain ⟨hkey, hlabel⟩ := read_peerTail h
  obtain ⟨r1, hadd, hkeyed⟩ := peerAdd_keyed c hfresh hep p.label p.pubkeyB64
  have hkind : ¬ (peerLine p = [] ∨ (peerLine p).head? = some 0x23) := by
    unfold peerLine kwPeer
    simp
  unfold readLine loadRosterLine
  rw [if_neg hkind]
  unfold peerLine
  simp only [readToken_word word_kwPeer (ended_space _), readToken_space,
    readToken_word h.name (ended_space _), readToken_word hword (ended_peerTail p), hkey, hlabel,
    if_true, h.name.1, hword.1, or_self, if_false, hadd, hkeyed]
  simp only [reread, hep, Option.getD_some]

theorem readLine_link {l : WgRelayLink} (ha : Word l.a) (hb : Word l.b) :
    readLine c r (linkLine l) = (linkAddLocked r l.a l.b).1 := by
  have hkind : ¬ (linkLine l = [] ∨ (linkLine l).head? = some 0x23) := by
    unfold linkLine kwLink
    simp
  have hne : kwLink ≠ kwPeer := by decide
  have hlast : readToken l.b = (l.b, []) := by
    have h := readToken_word hb ended_nil
    rwa [List.append_nil] at h
  unfold readLine loadRosterLine
  rw [if_neg hkind]
  unfold linkLine
  simp only [readToken_word word_kwLink (ended_space _), readToken_space,
    readToken_word ha (ended_space _), hlast, hne, if_true, ha.1, hb.1, or_self, if_false]
  split
  · next heq => rw [heq]
  · next heq => rw [heq]

theorem readLine_nic (hn : Word p.name) (hnic : Word p.nic) :
    readLine c r (nicLine p) = r.modifyPeer p.name fun q => { q with nic := p.nic } := by
  have hkind : ¬ (nicLine p = [] ∨ (nicLine p).head? = some 0x23) := by
    unfold nicLine kwNic
    simp
  have hpeer : kwNic ≠ kwPeer := by decide
  have hlink : kwNic ≠ kwLink := by decide
  have hlast : readToken p.nic = (p.nic, []) := by
    have h := readToken_word hnic ended_nil
    rwa [List.append_nil] at h
  unfold readLine loadRosterLine
  rw [if_neg hkind]
  unfold nicLine
  simp only [readToken_word word_kwNic (ended_space _), readToken_space,
    readToken_word hn (ended_space _), hlast, hpeer, hlink, if_true, hn.1, hnic.1, or_self,
    if_false]
  split
  · next r1 heq => exact (congrArg Prod.fst heq).symm
  · next r1 heq => exact (congrArg Prod.fst heq).symm

/-! ### The three parts of the file -/

def restored (p : WgRelayPeer) : WgRelayPeer := { reread c p with nic := p.nic }

theorem read_peers {ps : List WgRelayPeer} (r : WgRelay) (hsave : ∀ p ∈ ps, Saveable p)
    (htext : ∀ p ∈ ps, Word p.endpointStr ∧ (parseHostPort c p.endpointStr).isSome = true)
    (hnodup : (r.names ++ ps.map WgRelayPeer.name).Nodup) :
    (ps.map peerLine).foldl (readLine c) r = { r with peers := r.peers ++ ps.map (reread c) } := by
  induction ps generalizing r with
  | nil => simp
  | cons p ps ih =>
    obtain ⟨hword, hparse⟩ := htext p (List.mem_cons_self ..)
    have hfresh : p.name ∉ r.names := by
      intro hmem
      exact (List.nodup_append.1 hnodup).2.2 _ hmem _ (List.mem_cons_self ..) rfl
    rw [List.map_cons, List.foldl_cons,
      readLine_peer c (hsave p (List.mem_cons_self ..)) hword hparse hfresh, ih]
    · simp
    · exact fun q hq => hsave q (List.mem_cons_of_mem _ hq)
    · exact fun q hq => htext q (List.mem_cons_of_mem _ hq)
    · simpa [WgRelay.names, reread] using hnodup

theorem read_links {ls : List WgRelayLink} (r : WgRelay) (hok : RosterOk r.names (r.links ++ ls))
    (hword : ∀ name ∈ r.names, Word name) :
    (ls.map linkLine).foldl (readLine c) r = { r with links := r.links ++ ls } := by
  induction ls generalizing r with
  | nil => simp
  | cons l ls ih =>
    have hmem : l ∈ r.links ++ l :: ls := List.mem_append_right _ (List.mem_cons_self ..)
    obtain ⟨hne, ha, hb⟩ := hok.ends l hmem
    have hadd : linkAddLocked r l.a l.b = ({ r with links := r.links ++ [l] }, .kWgLinkOk) := by
      -- the links before this one touch neither of its ends
      have hfree : ∀ m ∈ r.links, m.touches l.a = false ∧ m.touches l.b = false := by
        intro m hm
        have hml := (List.pairwise_append.1 hok.apart).2.2 m hm l (List.mem_cons_self ..)
        have hlm := Std.Symm.symm m l hml
        exact ⟨hlm _ (by simp [WgRelayLink.touches]), hlm _ (by simp [WgRelayLink.touches])⟩
      have hknown : ∀ name ∈ r.names, peerKnown r.peers name = true := fun _ h => peerKnown_iff.2 h
      have hjoin : (r.links.any fun m => m.joins l.a l.b) = false := by
        rw [List.any_eq_false]
        intro m hm hj
        have htouch : m.touches l.a = true :=
          WgRelayLink.touches_iff.2 ((WgRelayLink.joins_iff.1 hj).imp And.left And.right)
        rw [(hfree m hm).1] at htouch
        cases htouch
      have hlink : peerHasLink r.links l.a = false ∧ peerHasLink r.links l.b = false := by
        unfold peerHasLink
        simp only [List.any_eq_false, Bool.not_eq_true]
        exact ⟨fun m hm => (hfree m hm).1, fun m hm => (hfree m hm).2⟩
      simp [linkAddLocked, hne, hknown _ ha, hknown _ hb, hjoin, hlink]
    have hcons : r.links ++ l :: ls = r.links ++ [l] ++ ls := by simp
    rw [hcons] at hok
    rw [List.map_cons, List.foldl_cons, readLine_link c (hword _ ha) (hword _ hb), hadd, ih]
    · simp
    · exact hok
    · exact hword

theorem read_nics {ps : List WgRelayPeer} (before : List WgRelayPeer) (r : WgRelay)
    (hsave : ∀ p ∈ ps, Saveable p) (hpeers : r.peers = before ++ ps.map (reread c))
    (hnodup : r.names.Nodup) :
    ((bound ps).map nicLine).foldl (readLine c) r =
      { r with peers := before ++ ps.map (restored c) } := by
  induction ps generalizing r before with
  | nil =>
    rw [List.map_nil, List.append_nil] at hpeers ⊢
    rw [← hpeers]
    rfl
  | cons p ps ih =>
    have hp := hsave p (List.mem_cons_self ..)
    have hrest : ∀ q ∈ ps, Saveable q := fun q hq => hsave q (List.mem_cons_of_mem _ hq)
    have hsnoc : ∀ q : WgRelayPeer,
        before ++ q :: ps.map (reread c) = before ++ [q] ++ ps.map (reread c) := by simp
    by_cases hnic : p.nic = []
    · have hsame : restored c p = reread c p := by
        simp [restored, hnic, reread]
      have hskip : bound (p :: ps) = bound ps := by simp [bound, hnic]
      rw [hskip, ih _ r hrest (hpeers.trans (hsnoc _)) hnodup, List.map_cons, hsame]
      simp
    · have hfirst : bound (p :: ps) = p :: bound ps := by simp [bound, hnic]
      have hfresh : p.name ∉ before.map WgRelayPeer.name := by
        intro hmem
        rw [WgRelay.names, hpeers, List.map_append, List.nodup_append] at hnodup
        exact hnodup.2.2 _ hmem _ (List.mem_cons_self ..) rfl
      have hedit : (r.modifyPeer p.name fun q => { q with nic := p.nic }) =
          { r with peers := before ++ restored c p :: ps.map (reread c) } := by
        unfold WgRelay.modifyPeer
        rw [hpeers, modifyFirst_append (not_named hfresh), List.map_cons]
        simp [modifyFirst, restored, reread]
      have hnames : (r.modifyPeer p.name fun q => { q with nic := p.nic }).names = r.names :=
        modifyPeer_names fun _ => rfl
      rw [hfirst, List.map_cons, List.foldl_cons,
        readLine_nic c hp.name (hp.nic.resolve_left hnic),
        ih (before ++ [restored c p]) _ hrest _ (hnames ▸ hnodup)]
      · rw [hedit]
        simp
      · rw [hedit]
        exact hsnoc _

theorem newline_peerTail (h : Saveable p) : (0x0a : Byte) ∉ peerTail p := by
  unfold peerTail
  split
  · exact List.not_mem_nil
  next hkey =>
  have hword := (h.key.resolve_left hkey).newline
  split
  · simp [hword]
  · simp [hword, h.label.1]

theorem newline_peerLine (h : Saveable p) (hword : Word p.endpointStr) :
    (0x0a : Byte) ∉ peerLine p := by
  have hkw : (0x0a : Byte) ∉ kwPeer := by decide
  simp [peerLine, hkw, h.name.newline, hword.newline, newline_peerTail h]

theorem newline_linkLine {l : WgRelayLink} (ha : Word l.a) (hb : Word l.b) :
    (0x0a : Byte) ∉ linkLine l := by
  have hkw : (0x0a : Byte) ∉ kwLink := by decide
  simp [linkLine, hkw, ha.newline, hb.newline]

theorem newline_nicLine (hn : Word p.name) (hnic : Word p.nic) :
    (0x0a : Byte) ∉ nicLine p := by
  have hkw : (0x0a : Byte) ∉ kwNic := by decide
  simp [nicLine, hkw, hn.newline, hnic.newline]

theorem reload_eq (hok : RosterOk r.names r.links) (hsave : ∀ p ∈ r.peers, Saveable p)
    (htext : ∀ p ∈ r.peers, Word p.endpointStr ∧ (parseHostPort c p.endpointStr).isSome = true) :
    reload c r = { peers := r.peers.map (restored c), links := r.links } := by
  have hword : ∀ name ∈ r.names, Word name := by
    intro name hname
    obtain ⟨p, hp, rfl⟩ := List.mem_map.1 hname
    exact (hsave p hp).name
  have hclean : ∀ l ∈ headerLines ++ (r.peers.map peerLine ++ r.links.map linkLine ++
      (bound r.peers).map nicLine), (0x0a : Byte) ∉ l := by
    intro l hl
    simp only [List.mem_append, List.mem_map] at hl
    rcases hl with hl | (⟨p, hp, rfl⟩ | ⟨m, hm, rfl⟩) | ⟨p, hp, rfl⟩
    · exact (headerLines_clean l hl).1
    · exact newline_peerLine (hsave p hp) (htext p hp).1
    · obtain ⟨-, ha, hb⟩ := hok.ends m hm
      exact newline_linkLine (hword _ ha) (hword _ hb)
    · rw [bound, List.mem_filter, decide_eq_true_eq] at hp
      have hsp := hsave p hp.1
      exact newline_nicLine hsp.name (hsp.nic.resolve_left hp.2)
  have hnames : (r.peers.map (reread c)).map WgRelayPeer.name = r.names := by
    simp [WgRelay.names, reread, Function.comp_def]
  unfold reload
  rw [rosterHeader_eq, serializeRoster_eq, ← Lines.join_append, load_unlines c _ hclean,
    List.foldl_append, read_header, List.foldl_append, List.foldl_append,
    read_peers c _ hsave htext (by simpa [WgRelay.names] using hok.nodup)]
  rw [read_links, read_nics c [] _ hsave]
  · simp
  · simp
  · simpa [WgRelay.names, reread, Function.comp_def] using hok.nodup
  · simpa [WgRelay.names, reread, Function.comp_def] using hok
  · simpa [WgRelay.names, reread, Function.comp_def] using hword

end reading

/-! ### What a file can bring back -/

structure Loaded (c : Libc) (p : WgRelayPeer) : Prop where
  name : Word p.name
  endpoint : (parseHostPort c p.endpointStr).isSome = true
  key : p.pubkeyB64 = [] ∨ Word p.pubkeyB64
  nic : p.nic = [] ∨ Word p.nic
  label : (0x0a : Byte) ∉ p.label ∧ p.label.head? ≠ some 0x20
  labelled : p.label ≠ [] → p.pubkeyB64 ≠ []

theorem Loaded.saveable {c : Libc} (hc : Brackets c) {p : WgRelayPeer} (h : Loaded c p) :
    Saveable p where
  name := h.name
  endpoint := by
    obtain ⟨ep, hep⟩ := Option.isSome_iff_exists.1 h.endpoint
    exact parseHostPort_bracket hc hep
  key := h.key
  nic := h.nic
  label := h.label
  labelled := h.labelled

theorem readLine_loaded {c : Libc} {r : WgRelay} {line : Bytes} (hline : (0x0a : Byte) ∉ line)
    (h : ∀ p ∈ r.peers, Loaded c p) : ∀ p ∈ (readLine c r line).peers, Loaded c p := by
  unfold readLine loadRosterLine
  dsimp only
  split
  · exact h
  generalize ht : readToken line = t
  have hsub : ∀ b ∈ t.2, b ∈ line := by
    intro b hb
    rw [← ht] at hb
    exact readToken_mem hb
  split
  · -- a peer line: name, endpoint, key, and the rest as the label
    generalize ht1 : readToken t.2 = t1
    generalize ht2 : readToken t1.2 = t2
    generalize ht3 : readToken t2.2 = t3
    split
    · exact h
    next hne =>
    rw [not_or] at hne
    have hname : Word t1.1 := by
      have hc := readToken_cases t.2
      rw [ht1] at hc
      exact hc.resolve_left fun heq => hne.1 (congrArg Prod.fst heq)
    have htail := readToken_cases t2.2
    rw [ht3] at htail
    have hmem : ∀ b ∈ t3.2, b ∈ line := by
      intro b hb
      rw [← ht3] at hb
      have hb2 := readToken_mem hb
      rw [← ht2] at hb2
      have hb1 := readToken_mem hb2
      rw [← ht1] at hb1
      exact hsub b (readToken_mem hb1)
    rcases peerAddLocked_cases c r t1.1 t2.1 (t3.2.dropWhile (· = 0x20)) with
      hrej | ⟨q, -, hfresh, hparse, -⟩
    · rw [hrej]
      exact h
    obtain ⟨r1, hadd, hkeyed⟩ := peerAdd_keyed c hfresh hparse (t3.2.dropWhile (· = 0x20)) t3.1
    rw [hadd]
    dsimp only
    rw [hkeyed]
    intro p hp
    rw [List.mem_append, List.mem_singleton] at hp
    rcases hp with hp | rfl
    · exact h p hp
    refine ⟨hname, by simp [hparse], htail.imp_left (congrArg Prod.fst), .inl rfl, ⟨?_, ?_⟩, ?_⟩
    · intro hnl
      exact hline (hmem _ ((List.dropWhile_suffix _).subset hnl))
    · intro hhead
      have hnot := List.head?_dropWhile_not (fun b : Byte => decide (b = 0x20)) t3.2
      rw [hhead] at hnot
      simp at hnot
    · intro hlabel hkey
      rcases htail with heq | hword
      · exact hlabel (by rw [heq]; rfl)
      · exact hword.1 hkey
  split
  · split
    · exact h
    · have hlink := linkAddLocked_cases r (readToken t.2).1 (readToken (readToken t.2).2).1
      split
      · next heq =>
        rcases hlink with ⟨hr, -⟩ | ⟨-, -, -, -, hr⟩
        · rw [heq] at hr
          rw [show _ = r from hr]
          exact h
        · rw [heq] at hr
          cases hr
          exact h
      · next hrc heq =>
        rw [linkAddLocked_rejected heq hrc]
        exact h
  split
  · generalize ht1 : readToken t.2 = t1
    have hnic := readToken_cases t1.2
    split
    · exact h
    next hne =>
    rw [not_or] at hne
    have hword : Word (readToken t1.2).1 :=
      hnic.resolve_left fun heq => hne.2 (congrArg Prod.fst heq)
    have hedit : ∀ p ∈ (peerNicLocked r t1.1 (readToken t1.2).1).1.peers, Loaded c p := by
      intro p hp
      obtain ⟨q, hq, hpq⟩ := mem_modifyFirst hp
      have hl := h q hq
      rcases hpq with rfl | rfl
      · exact hl
      · exact ⟨hl.name, hl.endpoint, hl.key, .inr hword, hl.label, hl.labelled⟩
    split
    · next heq =>
      rw [heq] at hedit
      exact hedit
    · next heq =>
      rw [heq] at hedit
      exact hedit
  · exact h

theorem loaded_reload (c : Libc) (r : WgRelay) : ∀ p ∈ (reload c r).peers, Loaded c p := by
  have hlines : ∀ (lines : List Bytes) (r : WgRelay), (∀ l ∈ lines, (0x0a : Byte) ∉ l) →
      (∀ p ∈ r.peers, Loaded c p) → ∀ p ∈ (lines.foldl (readLine c) r).peers, Loaded c p := by
    intro lines
    induction lines with
    | nil => exact fun r _ h => h
    | cons l lines ih =>
      intro r hclean h
      apply ih
      · exact fun m hm => hclean m (List.mem_cons_of_mem _ hm)
      · exact readLine_loaded (hclean l (List.mem_cons_self ..)) h
  unfold reload loadRosterFile
  rw [foldl_readLine]
  exact hlines _ _ (fun l hl => Lines.not_mem_splitOn hl) fun _ h => (List.not_mem_nil h).elim

theorem saveable_of_roundTrips {c : Libc} (hc : Brackets c) {r : WgRelay} (h : RoundTrips c r) :
    ∀ p ∈ r.peers, Saveable p := by
  intro p hp
  have hmem : saved p ∈ (reload c r).peers.map saved := by
    rw [h.1]
    exact List.mem_map_of_mem hp
  obtain ⟨q, hq, heq⟩ := List.mem_map.1 hmem
  have hs := (loaded_reload c r q hq).saveable hc
  have hname : q.name = p.name := (congrArg Saved.name heq :)
  have hep : q.endpointStr = p.endpointStr := (congrArg Saved.endpointStr heq :)
  have hkey : q.pubkeyB64 = p.pubkeyB64 := (congrArg Saved.pubkeyB64 heq :)
  have hlabel : q.label = p.label := (congrArg Saved.label heq :)
  have hnic : q.nic = p.nic := (congrArg Saved.nic heq :)
  rw [saveable_iff, hname, hep, hkey, hlabel, hnic, ← saveable_iff] at hs
  exact hs

end HyperDerp.RosterFile
