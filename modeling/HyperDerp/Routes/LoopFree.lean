import HyperDerp.Routes.Attribution
import Mathlib.Logic.Relation

/-!
# Loop freedom (`control_plane.cc:370-411`, `:815-857`, `hd_relay_table.cc:19-145`)

Relays that all run this code, joined by links. A relay gets neighbours one at a
time and announces its table whenever it likes; what it announced may arrive at a
neighbour at any later time, and so may any other frame. Relays are named by
their ids. Routes are only ever replaced by shorter ones, so hop counts fall
along next hops as long as an entry is recorded with the neighbour that really
announced it and one hop more than the announced count.
-/

namespace HyperDerp

structure Fleet where
  tables : ℕ → RelayTable
  /-- the relay at the other end of a relay's fd -/
  link : ℕ → Fd → Option ℕ
  /-- the payloads of all announcements that a relay has made -/
  sent : ℕ → List Bytes

namespace Fleet

inductive Label where
  | neighbour (r : ℕ) (fd : Fd) (n : ℕ) (key : Key)
  | make (r : ℕ)
  | deliver (r : ℕ) (fd : Fd) (payload : Bytes)

/-- Relay `r` and what it knows of its links. -/
def relay (s : Fleet) (r : ℕ) : Attribution.State := ⟨s.tables r, s.link r⟩

def setTable (s : Fleet) (r : ℕ) (rt : RelayTable) : Fleet :=
  { s with tables := Function.update s.tables r rt }

@[simp] theorem setTable_self (s : Fleet) (r : ℕ) (rt : RelayTable) :
    (s.setTable r rt).tables r = rt := Function.update_self ..

theorem setTable_ne (s : Fleet) {r u : ℕ} (h : u ≠ r) (rt : RelayTable) :
    (s.setTable r rt).tables u = s.tables u := Function.update_of_ne h ..

def step (s : Fleet) : Label → Option Fleet
  | .neighbour r fd n key =>
    if n ≠ 0 ∧ n ≠ r ∧ n < 2 ^ 16 then
      some { s.setTable r (relayTableAdd (s.tables r) n fd key) with
        link := Function.update s.link r (Function.update (s.link r) fd (some n)) }
    else none
  | .make r =>
    if r < 2 ^ 16 then
      (routeAnnounceFrame (s.tables r)).map fun frame =>
        let payload := frame.drop kHdFrameHeaderSize
        { s with sent := Function.update s.sent r (s.sent r ++ [payload]) }
    else none
  | .deliver r fd payload =>
    if (s.link r fd).isSome then some (s.setTable r (announce (s.tables r) fd payload)) else none

structure Init (s : Fleet) : Prop where
  empty : ∀ r i, ((s.tables r).entries i).occupied = false
  self : ∀ r, (s.tables r).selfId = r
  link : s.link = fun _ _ => none
  sent : s.sent = fun _ => []

/-- `r` sends what is for `dst` on to `r'`. -/
def Forwards (s : Fleet) (dst r r' : ℕ) : Prop :=
  r ≠ dst ∧ ∃ e, relayTableLookup (s.tables r) dst = some e ∧ e.nextHop = r'

/-- Every entry that an announcement changes has more hops than were announced. -/
def StoresMore (s : Fleet) (r : ℕ) (fd : Fd) (payload : Bytes) : Prop :=
  ∀ dst e, relayTableLookup (announce (s.tables r) fd payload) dst = some e →
    relayTableLookup (s.tables r) dst ≠ some e →
    ∃ h, (dst, h) ∈ hdParseRouteAnnounce payload 256 ∧ h < e.hops

structure LoopFree (ok : Fleet → Label → Prop) (s : Fleet) : Prop where
  stores : ∀ r fd payload, ok s (.deliver r fd payload) → StoresMore s r fd payload
  hops : ∀ r i, ((s.tables r).entries i).Learned →
    2 ≤ ((s.tables r).entries i).hops ∧ ((s.tables r).entries i).hops < 255
  decreases : ∀ r dst e, relayTableLookup (s.tables r) dst = some e → e.nextHop = dst ∨
    ∃ e', relayTableLookup (s.tables e.nextHop) dst = some e' ∧ e'.hops < e.hops
  acyclic : ∀ dst r, ¬Relation.TransGen (s.Forwards dst) r r

/-- The sender has a route to the relay that is no longer than announced, or is that relay. -/
def Backed (rt : RelayTable) (n : ℕ) (e : ℕ × ℕ) : Prop :=
  e.2 < 255 ∧ (e.1 = n ∨ 1 ≤ e.2 ∧ ∃ x, relayTableLookup rt e.1 = some x ∧ x.hops ≤ e.2)

/-- An announcement is taken for its sender's, and the sender's table backs it. -/
def StepOk (s : Fleet) : Label → Prop
  | .deliver r fd payload => Attribution.SenderFound (s.relay r) fd ∧
      ∀ n, s.link r fd = some n → ∀ e ∈ hdParseRouteAnnounce payload 256, Backed (s.tables n) n e
  | _ => True

/-- What arrives was announced by the relay at the other end, now or earlier. -/
def Honest (s : Fleet) : Label → Prop
  | .deliver r fd payload => Attribution.SenderFound (s.relay r) fd ∧
      ∃ n, s.link r fd = some n ∧ payload ∈ s.sent n
  | _ => True

/-! ### Entries only get shorter -/

def Shorter (rt rt' : RelayTable) : Prop :=
  ∀ dst e, relayTableLookup rt dst = some e →
    ∃ e', relayTableLookup rt' dst = some e' ∧ e'.hops ≤ e.hops

theorem Shorter.refl (rt : RelayTable) : Shorter rt rt := fun _ e h => ⟨e, h, Nat.le_refl _⟩

theorem Shorter.trans {a b c : RelayTable} (h1 : Shorter a b) (h2 : Shorter b c) :
    Shorter a c := by
  intro dst e he
  obtain ⟨e', he', hle⟩ := h1 dst e he
  obtain ⟨e'', he'', hle'⟩ := h2 dst e' he'
  exact ⟨e'', he'', by omega⟩

theorem shorter_of_puts {rt rt' : RelayTable} {i : Fin kMaxRelays} {x : RelayEntry}
    (h : RelayTable.Puts rt rt' i x)
    (hle : ∀ e, relayTableLookup rt x.relayId = some e → x.hops ≤ e.hops) : Shorter rt rt' := by
  intro dst e he
  rw [h.lookup]
  split
  · next hd =>
    rw [hd] at he
    exact ⟨x, rfl, hle e he⟩
  · exact ⟨e, he, Nat.le_refl _⟩

theorem Backed.mono {rt rt' : RelayTable} {n : ℕ} {e : ℕ × ℕ} (h : Backed rt n e)
    (hs : Shorter rt rt') : Backed rt' n e := by
  refine ⟨h.1, ?_⟩
  rcases h.2 with heq | ⟨h1, x, hx, hle⟩
  · exact .inl heq
  · obtain ⟨x', hx', hle'⟩ := hs e.1 x hx
    exact .inr ⟨h1, x', hx', by omega⟩

/-! ### The invariant -/

/-- A neighbour, or a route whose next hop has a shorter one. -/
def Descends (s : Fleet) (dst : ℕ) (e : RelayEntry) : Prop :=
  e.hops = 1 ∧ e.nextHop = dst ∨
    2 ≤ e.hops ∧ e.hops < 255 ∧ e.nextHop ≠ dst ∧
      ∃ e', relayTableLookup (s.tables e.nextHop) dst = some e' ∧ e'.hops < e.hops

structure Inv (s : Fleet) : Prop where
  self : ∀ r, (s.tables r).selfId = r
  distinct : ∀ r, (s.tables r).IdsDistinct
  route : ∀ r dst e, relayTableLookup (s.tables r) dst = some e → s.Descends dst e

section

variable {s : Fleet}

theorem Inv.hops_pos (h : Inv s) {r dst : ℕ} {e : RelayEntry}
    (he : relayTableLookup (s.tables r) dst = some e) : 1 ≤ e.hops := by
  rcases h.route r dst e he with hd | hl
  · omega
  · omega

theorem Descends.mono {s' : Fleet} {dst : ℕ} {e : RelayEntry} (h : s.Descends dst e)
    (hs : ∀ r, Shorter (s.tables r) (s'.tables r)) : s'.Descends dst e := by
  rcases h with hd | ⟨h2, h255, hne, e', he', hlt⟩
  · exact .inl hd
  · obtain ⟨e'', he'', hle⟩ := hs e.nextHop dst e' he'
    exact .inr ⟨h2, h255, hne, e'', he'', by omega⟩

theorem Inv.setTable (h : Inv s) {r : ℕ} {rt : RelayTable}
    (hself : rt.selfId = r) (hdist : rt.IdsDistinct) (hshort : Shorter (s.tables r) rt)
    (hnew : ∀ dst e, relayTableLookup rt dst = some e →
      relayTableLookup (s.tables r) dst = some e ∨ (s.setTable r rt).Descends dst e) :
    Inv (s.setTable r rt) := by
  have hall : ∀ u, Shorter (s.tables u) ((s.setTable r rt).tables u) := by
    intro u
    by_cases hu : u = r
    · rw [hu, setTable_self]
      exact hshort
    · rw [setTable_ne s hu]
      exact Shorter.refl _
  constructor
  · intro u
    by_cases hu : u = r
    · rw [hu, setTable_self, hself]
    · rw [setTable_ne s hu]
      exact h.self u
  · intro u
    by_cases hu : u = r
    · rw [hu, setTable_self]
      exact hdist
    · rw [setTable_ne s hu]
      exact h.distinct u
  · intro u dst e he
    by_cases hu : u = r
    · rw [hu, setTable_self] at he
      rcases hnew dst e he with hold | hdesc
      · exact (h.route r dst e hold).mono hall
      · exact hdesc
    · rw [setTable_ne s hu] at he
      exact (h.route u dst e he).mono hall

theorem Inv.neighbour (h : Inv s) (r : ℕ) (fd : Fd) (n : ℕ) (key : Key) :
    Inv (s.setTable r (relayTableAdd (s.tables r) n fd key)) ∧
      Shorter (s.tables r) (relayTableAdd (s.tables r) n fd key) := by
  rcases RelayTable.add_cases (s.tables r) n fd key with heq | ⟨-, i, hput⟩
  · rw [heq]
    refine ⟨?_, Shorter.refl _⟩
    exact h.setTable (h.self r) (h.distinct r) (Shorter.refl _) fun _ _ he => .inl he
  · have hshort := shorter_of_puts hput fun e he => h.hops_pos he
    refine ⟨h.setTable ?_ (hput.distinct (h.distinct r)) hshort ?_, hshort⟩
    · rw [hput.selfId, h.self r]
    · intro dst e he
      rw [hput.lookup] at he
      split at he
      · next hd =>
        rw [← Option.some.inj he]
        exact .inr (.inl ⟨rfl, hd.symm⟩)
      · exact .inl he

/-! ### One announcement -/

/-- Part of an announcement `es` of the neighbour `n` has been taken in. -/
structure Merged (rt0 : RelayTable) (n : ℕ) (es : List (ℕ × ℕ)) (rt : RelayTable) : Prop where
  selfId : rt.selfId = rt0.selfId
  distinct : rt.IdsDistinct
  shorter : Shorter rt0 rt
  source : ∃ d, relayTableLookup rt n = some d ∧ d.hops = 1
  learned : ∀ dst x, relayTableLookup rt dst = some x →
    relayTableLookup rt0 dst = some x ∨
      ∃ e ∈ es, e.1 = dst ∧ dst ≠ n ∧ x.hops = e.2 + 1 ∧ x.nextHop = n ∧ e.2 + 1 < 255

theorem Merged.route {rt0 rt : RelayTable} {n : ℕ} {es : List (ℕ × ℕ)} (h : Merged rt0 n es rt)
    (fd : Fd) {e : ℕ × ℕ} (he : e ∈ es) (hb : e.2 < 255) :
    Merged rt0 n es (announceRoute n fd rt e) := by
  have hmod : (e.2 + 1) % 256 = e.2 + 1 := Nat.mod_eq_of_lt (by omega)
  rcases announceRoute_cases rt n fd e with heq | ⟨-, -, h255, hlt, i, key, hput⟩
  · rw [heq]
    exact h
  rw [hmod] at h255 hlt hput
  obtain ⟨d, hd, hd1⟩ := h.source
  have hne : e.1 ≠ n := by
    intro hne
    rw [hne] at hlt
    have hlt1 := hlt d hd
    omega
  constructor
  · rw [hput.selfId, h.selfId]
  · exact hput.distinct h.distinct
  · apply h.shorter.trans
    exact shorter_of_puts hput fun x hx => Nat.le_of_lt (hlt x hx)
  · rw [hput.lookup, if_neg (Ne.symm hne)]
    exact ⟨d, hd, hd1⟩
  · intro dst x hx
    rw [hput.lookup] at hx
    split at hx
    · next hdst =>
      rw [← Option.some.inj hx]
      exact .inr ⟨e, he, hdst.symm, hdst ▸ hne, rfl, rfl, h255⟩
    · exact h.learned dst x hx

theorem Merged.routes {rt0 rt : RelayTable} {n : ℕ} {es : List (ℕ × ℕ)} (fd : Fd)
    (more : List (ℕ × ℕ)) (h : Merged rt0 n es rt) (hmore : ∀ e ∈ more, e ∈ es ∧ e.2 < 255) :
    Merged rt0 n es (more.foldl (announceRoute n fd) rt) := by
  induction more generalizing rt with
  | nil => exact h
  | cons e more ih =>
    obtain ⟨he, hb⟩ := hmore e (List.mem_cons_self ..)
    exact ih (h.route fd he hb) fun e' he' => hmore e' (List.mem_cons_of_mem _ he')

theorem announce_merged (h : Inv s) {r : ℕ} {fd : Fd} {payload : Bytes}
    (hok : StepOk s (.deliver r fd payload)) :
    announce (s.tables r) fd payload = s.tables r ∨
      ∃ n, s.link r fd = some n ∧ Merged (s.tables r) n (hdParseRouteAnnounce payload 256)
        (announce (s.tables r) fd payload) := by
  obtain ⟨hfound, hbacked⟩ := hok
  unfold announce
  cases hf : (s.tables r).find fun e => e.occupied && decide (e.fd = fd) with
  | none =>
    left
    have hsrc : announceSource (s.tables r) fd = 0 := by
      unfold announceSource
      rw [hf, Option.map_none, Option.getD_none]
    rw [if_pos hsrc]
  | some i =>
    obtain ⟨hdir, hlink⟩ := hfound i hf
    have hsrc : announceSource (s.tables r) fd = ((s.tables r).entries i).relayId := by
      unfold announceSource
      rw [hf, Option.map_some, Option.getD_some]
    rw [hsrc]
    split
    · exact .inl rfl
    · refine .inr ⟨_, hlink, ?_⟩
      have hstart : Merged (s.tables r) ((s.tables r).entries i).relayId
          (hdParseRouteAnnounce payload 256) (s.tables r) := by
        refine ⟨rfl, h.distinct r, Shorter.refl _, ?_, fun _ _ hx => .inl hx⟩
        exact ⟨_, (h.distinct r).lookup hdir.1, hdir.2.1⟩
      exact hstart.routes fd _ fun e he => ⟨he, (hbacked _ hlink e he).1⟩

theorem Inv.deliver (h : Inv s) {r : ℕ} {fd : Fd} {payload : Bytes}
    (hok : StepOk s (.deliver r fd payload)) :
    Inv (s.setTable r (announce (s.tables r) fd payload)) ∧
      Shorter (s.tables r) (announce (s.tables r) fd payload) := by
  rcases announce_merged h hok with heq | ⟨n, hlink, hm⟩
  · rw [heq]
    refine ⟨?_, Shorter.refl _⟩
    exact h.setTable (h.self r) (h.distinct r) (Shorter.refl _) fun _ _ he => .inl he
  · refine ⟨h.setTable ?_ hm.distinct hm.shorter ?_, hm.shorter⟩
    · rw [hm.selfId, h.self r]
    · intro dst x hx
      rcases hm.learned dst x hx with hold | ⟨e, he, hdst, hne, hhops, hnext, h255⟩
      · exact .inl hold
      · obtain ⟨-, hcase⟩ := hok.2 n hlink e he
        rcases hcase with heq | ⟨h1, y, hy, hle⟩
        · exact absurd (hdst.symm.trans heq) hne
        · rw [hdst] at hy
          have hkept : ∃ y', relayTableLookup
              ((s.setTable r (announce (s.tables r) fd payload)).tables n) dst = some y' ∧
                y'.hops ≤ y.hops := by
            by_cases hnr : n = r
            · rw [hnr] at hy ⊢
              rw [setTable_self]
              exact hm.shorter dst y hy
            · rw [setTable_ne s hnr]
              exact ⟨y, hy, Nat.le_refl _⟩
          obtain ⟨y', hy', hle'⟩ := hkept
          refine .inr (.inr ⟨by omega, by omega, ?_, y', ?_, by omega⟩)
          · rw [hnext]
            exact hne.symm
          · rw [hnext]
            exact hy'

theorem inv_step {s' : Fleet} (h : Inv s) {l : Label} (hok : StepOk s l) (hs : step s l = some s') :
    Inv s' ∧ ∀ r, Shorter (s.tables r) (s'.tables r) := by
  have hset : ∀ r rt, Shorter (s.tables r) rt →
      ∀ u, Shorter (s.tables u) ((s.setTable r rt).tables u) := by
    intro r rt hrt u
    by_cases hu : u = r
    · rw [hu, setTable_self]
      exact hrt
    · rw [setTable_ne s hu]
      exact Shorter.refl _
  cases l with
  | neighbour r fd n key =>
    rw [step] at hs
    split at hs
    · rw [Option.some.injEq] at hs
      rw [← hs]
      obtain ⟨hinv, hshort⟩ := h.neighbour r fd n key
      exact ⟨⟨hinv.self, hinv.distinct, hinv.route⟩, hset r _ hshort⟩
    · cases hs
  | make r =>
    rw [step] at hs
    split at hs
    · obtain ⟨frame, -, hs⟩ := Option.map_eq_some_iff.1 hs
      rw [← hs]
      exact ⟨⟨h.self, h.distinct, h.route⟩, fun _ => Shorter.refl _⟩
    · cases hs
  | deliver r fd payload =>
    rw [step] at hs
    split at hs
    · rw [Option.some.injEq] at hs
      rw [← hs]
      obtain ⟨hinv, hshort⟩ := h.deliver hok
      exact ⟨hinv, hset r _ hshort⟩
    · cases hs

theorem inv_init (h : Init s) : Inv s := by
  refine ⟨h.self, ?_, ?_⟩
  · intro r i _ hi
    rw [h.empty r i] at hi
    cases hi
  · intro r dst e he
    obtain ⟨i, -, hi, hocc, -⟩ := RelayTable.lookup_some he
    rw [← hi, h.empty r i] at hocc
    cases hocc

/-! ### What it gives -/

theorem Inv.storesMore (h : Inv s) {r : ℕ} {fd : Fd} {payload : Bytes}
    (hok : StepOk s (.deliver r fd payload)) : StoresMore s r fd payload := by
  intro dst x hx hnew
  rcases announce_merged h hok with heq | ⟨n, -, hm⟩
  · rw [heq] at hx
    exact absurd hx hnew
  · rcases hm.learned dst x hx with hold | ⟨e, he, hdst, -, hhops, -, -⟩
    · exact absurd hold hnew
    · refine ⟨e.2, ?_, by omega⟩
      rw [← hdst]
      exact he

/-- Hop count towards `dst`, 0 at `dst` itself. -/
def rank (s : Fleet) (dst r : ℕ) : ℕ :=
  if r = dst then 0 else ((relayTableLookup (s.tables r) dst).map RelayEntry.hops).getD 0

theorem Inv.rank_lt (h : Inv s) {dst r r' : ℕ} (hf : s.Forwards dst r r') :
    s.rank dst r' < s.rank dst r := by
  obtain ⟨hne, e, he, hnext⟩ := hf
  have hr : s.rank dst r = e.hops := by
    unfold rank
    rw [if_neg hne, he, Option.map_some, Option.getD_some]
  rw [hr]
  unfold rank
  split
  · exact h.hops_pos he
  · next hne' =>
    rcases h.route r dst e he with ⟨-, hd⟩ | ⟨-, -, -, e', he', hlt⟩
    · exact absurd (hnext.symm.trans hd) hne'
    · rw [← hnext, he', Option.map_some, Option.getD_some]
      exact hlt

theorem Inv.acyclic (h : Inv s) (dst r : ℕ) : ¬Relation.TransGen (s.Forwards dst) r r := by
  have hlt : ∀ r', Relation.TransGen (s.Forwards dst) r r' → s.rank dst r' < s.rank dst r := by
    intro r' hr
    induction hr with
    | single hf => exact h.rank_lt hf
    | tail _ hf ih => exact (h.rank_lt hf).trans ih
  exact fun hr => absurd (hlt r hr) (Nat.lt_irrefl _)

theorem Inv.loopFree (h : Inv s) : LoopFree StepOk s := by
  constructor
  · exact fun r fd payload hok => h.storesMore hok
  · intro r i hl
    rcases h.route r _ _ ((h.distinct r).lookup hl.1) with ⟨h1, hd⟩ | ⟨h2, h255, -, -⟩
    · exact absurd ⟨hl.1, h1, hd⟩ hl.2
    · exact ⟨h2, h255⟩
  · intro r dst e he
    rcases h.route r dst e he with ⟨-, hd⟩ | ⟨-, -, -, hnext⟩
    · exact .inl hd
    · exact .inr hnext
  · exact h.acyclic

end

theorem routes_loop_free {s : Fleet} (h : Runs.Reach Init step StepOk s) : LoopFree StepOk s := by
  have hinv : Inv s := h.invariant (fun _ h0 => inv_init h0)
    fun _ _ _ hi hok hs => (inv_step hi hok hs).1
  exact hinv.loopFree

/-! ### Honest announcements -/

structure SentInv (s : Fleet) : Prop extends Inv s where
  small : ∀ r i, ((s.tables r).entries i).occupied = true → ((s.tables r).entries i).relayId < 2 ^ 16
  backed : ∀ n, ∀ p ∈ s.sent n, ∀ e ∈ hdParseRouteAnnounce p 256, Backed (s.tables n) n e

section

variable {s : Fleet}

theorem routeAnnounceFrame_payload {rt : RelayTable} {frame : Bytes}
    (h : routeAnnounceFrame rt = some frame) :
    frame.drop kHdFrameHeaderSize = (announcedRoutes rt).flatMap routeEntry := by
  unfold routeAnnounceFrame hdBuildRouteAnnounce at h
  dsimp only at h
  split at h
  · cases h
  · rw [← Option.some.inj h, List.drop_append_of_le_length (by simp), List.drop_of_length_le (by simp),
      List.nil_append]

theorem SentInv.announced (h : SentInv s) {r : ℕ} (hr : r < 2 ^ 16) {frame : Bytes}
    (hf : routeAnnounceFrame (s.tables r) = some frame) :
    ∀ e ∈ hdParseRouteAnnounce (frame.drop kHdFrameHeaderSize) 256, Backed (s.tables r) r e := by
  have hentry : ∀ i, ((s.tables r).entries i).occupied = true →
      1 ≤ ((s.tables r).entries i).hops ∧ ((s.tables r).entries i).hops < 255 := by
    intro i hocc
    rcases h.route r _ _ ((h.distinct r).lookup hocc) with ⟨h1, -⟩ | ⟨h2, h255, -⟩ <;> omega
  rw [routeAnnounceFrame_payload hf]
  intro e he
  have hmem : e ∈ announcedRoutes (s.tables r) := by
    apply mem_of_mem_parse _ he
    intro e' he'
    rcases mem_announcedRoutes he' with heq | ⟨i, hocc, heq⟩
    · rw [heq, h.self r]
      exact ⟨hr, Nat.zero_lt_succ _⟩
    · obtain ⟨-, h255⟩ := hentry i hocc
      rw [heq]
      exact ⟨h.small r i hocc, by omega⟩
  rcases mem_announcedRoutes hmem with heq | ⟨i, hocc, heq⟩
  · rw [heq, h.self r]
    exact ⟨Nat.zero_lt_succ _, .inl rfl⟩
  · obtain ⟨h1, h255⟩ := hentry i hocc
    rw [heq]
    refine ⟨h255, .inr ⟨h1, _, (h.distinct r).lookup hocc, Nat.le_refl _⟩⟩

theorem SentInv.stepOk (h : SentInv s) {l : Label} (hok : Honest s l) : StepOk s l := by
  cases l with
  | neighbour r fd n key => trivial
  | make r => trivial
  | deliver r fd payload =>
    obtain ⟨hfound, n, hlink, hmem⟩ := hok
    refine ⟨hfound, fun m hm => ?_⟩
    rw [hlink, Option.some.injEq] at hm
    rw [← hm]
    exact h.backed n payload hmem

theorem small_of_puts {rt rt' : RelayTable} {i : Fin kMaxRelays} {x : RelayEntry}
    (h : RelayTable.Puts rt rt' i x) (hx : x.relayId < 2 ^ 16)
    (hsmall : ∀ j, (rt.entries j).occupied = true → (rt.entries j).relayId < 2 ^ 16) :
    ∀ j, (rt'.entries j).occupied = true → (rt'.entries j).relayId < 2 ^ 16 := by
  intro j hj
  rw [h.entries] at hj ⊢
  by_cases hji : j = i
  · rw [hji, Function.update_self]
    exact hx
  · rw [Function.update_of_ne hji] at hj ⊢
    exact hsmall j hj

theorem ids_lt (payload : Bytes) (n : ℕ) : ∀ e ∈ hdParseRouteAnnounce payload n, e.1 < 2 ^ 16 := by
  intro e he
  unfold hdParseRouteAnnounce at he
  obtain ⟨i, -, hi⟩ := List.mem_map.1 he
  rw [← hi]
  unfold readU16
  have hlt := BigEndian.val_lt ((payload.drop (kHdRouteEntrySize * i)).take 2)
  have hlen : ((payload.drop (kHdRouteEntrySize * i)).take 2).length ≤ 2 := List.length_take_le ..
  have hpow : 256 ^ ((payload.drop (kHdRouteEntrySize * i)).take 2).length ≤ 256 ^ 2 :=
    Nat.pow_le_pow_right (by omega) hlen
  omega

theorem small_routes {rt : RelayTable} (n : ℕ) (fd : Fd) (es : List (ℕ × ℕ))
    (hes : ∀ e ∈ es, e.1 < 2 ^ 16)
    (hsmall : ∀ j, (rt.entries j).occupied = true → (rt.entries j).relayId < 2 ^ 16) :
    ∀ j, ((es.foldl (announceRoute n fd) rt).entries j).occupied = true →
      ((es.foldl (announceRoute n fd) rt).entries j).relayId < 2 ^ 16 := by
  induction es generalizing rt with
  | nil => exact hsmall
  | cons e es ih =>
    rw [List.foldl_cons]
    apply ih
    · exact fun e' he' => hes e' (List.mem_cons_of_mem _ he')
    · rcases announceRoute_cases rt n fd e with heq | ⟨-, -, -, -, i, key, hput⟩
      · rw [heq]
        exact hsmall
      · exact small_of_puts hput (hes e (List.mem_cons_self ..)) hsmall

theorem small_announce {rt : RelayTable} (fd : Fd) (payload : Bytes)
    (hsmall : ∀ j, (rt.entries j).occupied = true → (rt.entries j).relayId < 2 ^ 16) :
    ∀ j, ((announce rt fd payload).entries j).occupied = true →
      ((announce rt fd payload).entries j).relayId < 2 ^ 16 := by
  unfold announce
  split
  · exact hsmall
  · exact small_routes _ fd _ (ids_lt payload 256) hsmall

theorem SentInv.step (h : SentInv s) {s' : Fleet} {l : Label} (hok : Honest s l)
    (hs : step s l = some s') : SentInv s' := by
  obtain ⟨hinv, hshort⟩ := inv_step h.toInv (h.stepOk hok) hs
  have hold : ∀ n, ∀ p ∈ s.sent n, ∀ e ∈ hdParseRouteAnnounce p 256, Backed (s'.tables n) n e :=
    fun n p hp e he => (h.backed n p hp e he).mono (hshort n)
  have hsmall : ∀ r rt, (∀ i, (rt.entries i).occupied = true → (rt.entries i).relayId < 2 ^ 16) →
      ∀ u i, (((s.setTable r rt).tables u).entries i).occupied = true →
        (((s.setTable r rt).tables u).entries i).relayId < 2 ^ 16 := by
    intro r rt hrt u
    by_cases hu : u = r
    · rw [hu, setTable_self]
      exact hrt
    · rw [setTable_ne s hu]
      exact h.small u
  cases l with
  | neighbour r fd n key =>
    rw [Fleet.step] at hs
    split at hs
    · next hn =>
      rw [Option.some.injEq] at hs
      rw [← hs] at hinv hold ⊢
      refine ⟨hinv, hsmall r _ ?_, hold⟩
      rcases RelayTable.add_cases (s.tables r) n fd key with heq | ⟨-, i, hput⟩
      · rw [heq]
        exact h.small r
      · exact small_of_puts hput hn.2.2 (h.small r)
    · cases hs
  | make r =>
    rw [Fleet.step] at hs
    split at hs
    · next hr =>
      obtain ⟨frame, hf, hs⟩ := Option.map_eq_some_iff.1 hs
      rw [← hs] at hinv hold ⊢
      refine ⟨hinv, h.small, fun n p hp => ?_⟩
      dsimp only at hp
      by_cases hn : n = r
      · rw [hn, Function.update_self] at hp
        rcases List.mem_append.1 hp with hp | hp
        · rw [hn]
          exact h.backed r p hp
        · rw [hn, List.mem_singleton.1 hp]
          exact h.announced hr hf
      · rw [Function.update_of_ne hn] at hp
        exact h.backed n p hp
    · cases hs
  | deliver r fd payload =>
    rw [Fleet.step] at hs
    split at hs
    · rw [Option.some.injEq] at hs
      rw [← hs] at hinv hold ⊢
      exact ⟨hinv, hsmall r _ (small_announce fd payload (h.small r)), hold⟩
    · cases hs

end

/-- Among relays that announce their own tables, attribution is all that it takes. -/
theorem honest_routes_loop_free {s : Fleet} (h : Runs.Reach Init step Honest s) :
    LoopFree Honest s := by
  have hinv : SentInv s := by
    apply h.invariant
    · intro s0 h0
      refine ⟨inv_init h0, ?_, ?_⟩
      · intro r i hi
        rw [h0.empty r i] at hi
        cases hi
      · intro n p hp
        rw [h0.sent] at hp
        cases hp
    · exact fun _ _ _ hi hok hs => hi.step hok hs
  have hfree := hinv.toInv.loopFree
  exact ⟨fun r fd p hok => hfree.stores r fd p (hinv.stepOk hok), hfree.hops, hfree.decreases,
    hfree.acyclic⟩

/-! ### A hop count that wraps -/

def start : Fleet := ⟨fun r => { selfId := r }, fun _ _ => none, fun _ => []⟩

theorem start_init : Init start := ⟨fun _ _ => rfl, fun _ => rfl, rfl, rfl⟩

def wrapping : List Label := [.neighbour 1 5 2 (byteKey 2), .deliver 1 5 (routeEntry (7, 255))]

theorem hop_count_wraps : ¬∀ s, Runs.Reach Init step Runs.Any s → LoopFree Runs.Any s := by
  intro hall
  have hrun : (Runs.run step start wrapping).map (fun s =>
      (decide ((s.tables 1).entries 1).Learned, ((s.tables 1).entries 1).hops)) =
      some (true, 0) := by
    decide +kernel
  obtain ⟨s, hs, hval⟩ := Option.map_eq_some_iff.1 hrun
  rw [Prod.mk.injEq, decide_eq_true_eq] at hval
  have hhops := (hall s (Runs.reach_of_run start_init hs)).hops 1 1 hval.1
  rw [hval.2] at hhops
  omega

def learning : List Label :=
  [.neighbour 1 5 2 (byteKey 2), .neighbour 2 6 3 (byteKey 3)]

theorem routes_loop_free_one :
    ∃ s, LoopFree StepOk s ∧ (relayTableLookup (s.tables 1) 3).map RelayEntry.hops = some 2 := by
  obtain ⟨s, hs⟩ : ∃ s, Runs.run step start learning = some s :=
    Option.isSome_iff_exists.1 (by decide)
  have hfind : ((Runs.run step start learning).bind fun s =>
      (s.tables 1).find fun e => e.occupied && decide (e.fd = 5)) = some 0 := by
    decide +kernel
  have hnear : (Runs.run step start learning).map (fun s =>
      (decide ((s.tables 1).entries 0).Direct, ((s.tables 1).entries 0).relayId, s.link 1 5)) =
      some (true, 2, some 2) := by
    decide +kernel
  have hfar : (Runs.run step start learning).map (fun s =>
      ((relayTableLookup (s.tables 2) 3).map RelayEntry.hops,
        (relayTableLookup (announce (s.tables 1) 5 (routeEntry (3, 1))) 3).map
          RelayEntry.hops)) = some (some 1, some 2) := by
    decide +kernel
  rw [hs, Option.bind_some] at hfind
  rw [hs, Option.map_some, Option.some.injEq, Prod.mk.injEq, Prod.mk.injEq,
    decide_eq_true_eq] at hnear
  rw [hs, Option.map_some, Option.some.injEq, Prod.mk.injEq] at hfar
  obtain ⟨hdir, hid, hlink⟩ := hnear
  obtain ⟨x, hx, hhops⟩ := Option.map_eq_some_iff.1 hfar.1
  have hreach : Runs.Reach Init step StepOk s := by
    apply Runs.reach_run (.start _ start_init) _ hs
    apply Runs.runOk_of_forall
    intro s' l hl
    simp only [learning, List.mem_cons, List.not_mem_nil, or_false] at hl
    rcases hl with rfl | rfl <;> trivial
  have hok : StepOk s (.deliver 1 5 (routeEntry (3, 1))) := by
    constructor
    · intro i hi
      have hi' : some (0 : Fin kMaxRelays) = some i := hfind.symm.trans hi
      rw [← Option.some.inj hi']
      refine ⟨hdir, ?_⟩
      have hid' : ((s.relay 1).rt.entries 0).relayId = 2 := hid
      rw [hid']
      exact hlink
    · intro n hn e he
      have hes : hdParseRouteAnnounce (routeEntry (3, 1)) 256 = [(3, 1)] := by decide
      rw [hes, List.mem_singleton] at he
      rw [hlink, Option.some.injEq] at hn
      rw [he, ← hn]
      exact ⟨by decide, .inr ⟨Nat.le_refl 1, x, hx, by omega⟩⟩
  have hstep : step s (.deliver 1 5 (routeEntry (3, 1))) =
      some (s.setTable 1 (announce (s.tables 1) 5 (routeEntry (3, 1)))) := by
    rw [step, if_pos]
    rw [hlink]
    rfl
  have hnext := hreach.next _ _ _ hok hstep
  refine ⟨_, routes_loop_free hnext, ?_⟩
  rw [setTable_self]
  exact hfar.2

/-- Relay 2 announces itself and relay 3, and relay 1 learns of relay 3. -/
theorem honest_routes_loop_free_one :
    ∃ s, LoopFree Honest s ∧ (relayTableLookup (s.tables 1) 3).map RelayEntry.hops = some 2 := by
  have hrun : (Runs.run step start (learning ++ [.make 2])).map (fun s => decide
      (((s.tables 1).find fun e => e.occupied && decide (e.fd = 5)) = some 0 ∧
        ((s.tables 1).entries 0).Direct ∧ ((s.tables 1).entries 0).relayId = 2 ∧
        s.link 1 5 = some 2 ∧ s.sent 2 = [[0, 3, 1, 0, 2, 0]] ∧
        (relayTableLookup (announce (s.tables 1) 5 [0, 3, 1, 0, 2, 0]) 3).map RelayEntry.hops =
          some 2)) = some true := by
    decide +kernel
  obtain ⟨s, hs, hval⟩ := Option.map_eq_some_iff.1 hrun
  obtain ⟨hfind, hdir, hid, hlink, hsent, hhops⟩ := of_decide_eq_true hval
  have hreach : Runs.Reach Init step Honest s := by
    apply Runs.reach_run (.start _ start_init) _ hs
    apply Runs.runOk_of_forall
    intro s' l hl
    simp only [learning, List.cons_append, List.nil_append, List.mem_cons, List.not_mem_nil,
      or_false] at hl
    rcases hl with rfl | rfl | rfl <;> trivial
  have hok : Honest s (.deliver 1 5 [0, 3, 1, 0, 2, 0]) := by
    refine ⟨fun i hi => ?_, 2, hlink, by rw [hsent]; exact List.mem_cons_self ..⟩
    obtain rfl := Option.some.inj (hfind.symm.trans hi)
    refine ⟨hdir, ?_⟩
    change s.link 1 5 = some ((s.tables 1).entries 0).relayId
    rw [hid, hlink]
  have hstep : step s (.deliver 1 5 [0, 3, 1, 0, 2, 0]) =
      some (s.setTable 1 (announce (s.tables 1) 5 [0, 3, 1, 0, 2, 0])) :=
    if_pos (by rw [hlink]; rfl)
  refine ⟨_, honest_routes_loop_free (hreach.next _ _ _ hok hstep), ?_⟩
  rw [setTable_self]
  exact hhops

end Fleet

end HyperDerp
