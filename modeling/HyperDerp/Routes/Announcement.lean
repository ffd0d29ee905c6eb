import HyperDerp.Lib.SlotCount
import HyperDerp.Routes.Table

/-!
# What an announcement carries (`control_plane.cc:370-411`, `:815-852`)

The sender lists its table and itself in one frame; the receiver reads the routes into arrays of
256. Both sides are compared with the table that the announcement is about.
-/

namespace HyperDerp.Announcement

open RelayTable (Puts lookup_of_byId free_slot)

def tableRoutes (rt : RelayTable) : List (ℕ × ℕ) :=
  ((List.finRange kMaxRelays).filter fun i => (rt.entries i).occupied).map fun i =>
    ((rt.entries i).relayId, (rt.entries i).hops)

def allRoutes (rt : RelayTable) : List (ℕ × ℕ) := tableRoutes rt ++ [(rt.selfId, 0)]

/-- The fields of a table have the widths of the source. -/
def Sized (rt : RelayTable) : Prop :=
  IsU16 rt.selfId ∧ ∀ i, IsU16 (rt.entries i).relayId ∧ (rt.entries i).hops < 256

def free (rt : RelayTable) : ℕ := SlotCount.count rt.entries fun e => !e.occupied

/-- A slot is free for every relay among `ids` that the table does not know. -/
def Room (rt : RelayTable) (ids : Finset ℕ) : Prop :=
  (ids.filter fun id => id ≠ 0 ∧ id ≠ rt.selfId ∧ relayTableLookup rt id = none).card ≤ free rt

/-- The hop count that an announced route is taken with; 255 is poison. -/
def Offers (rt : RelayTable) (e : ℕ × ℕ) (hops : ℕ) : Prop :=
  e.1 ≠ 0 ∧ e.1 ≠ rt.selfId ∧ (e.2 + 1) % 256 < 255 ∧ hops = (e.2 + 1) % 256

variable {rt rt' : RelayTable} {src id n : ℕ} {fd : Fd} {e : ℕ × ℕ} {es : List (ℕ × ℕ)}
  {ids : Finset ℕ} {i : Fin kMaxRelays} {x : RelayEntry}

/-! ### One announced route -/

theorem announceRoute_selfId : (announceRoute src fd rt e).selfId = rt.selfId := by
  rcases announceRoute_cases rt src fd e with heq | ⟨-, -, -, -, i, key, hput⟩
  · rw [heq]
  · exact hput.selfId

theorem announceRoute_le (src : ℕ) (fd : Fd) (e : ℕ × ℕ) (h : relayTableLookup rt id = some x) :
    ∃ y, relayTableLookup (announceRoute src fd rt e) id = some y ∧ y.hops ≤ x.hops := by
  rcases announceRoute_cases rt src fd e with heq | ⟨-, -, -, hlt, i, key, hput⟩
  · exact ⟨x, by rw [heq, h], Nat.le_refl _⟩
  · rw [hput.lookup]
    split
    · next hid =>
      dsimp only at hid
      rw [hid] at h
      exact ⟨_, rfl, Nat.le_of_lt (hlt x h)⟩
    · exact ⟨x, h, Nat.le_refl _⟩

theorem announceRoute_origin (h : relayTableLookup (announceRoute src fd rt e) id = some x) :
    relayTableLookup rt id = some x ∨ id = e.1 ∧ Offers rt e x.hops := by
  rcases announceRoute_cases rt src fd e with heq | ⟨h0, hself, hpoison, -, i, key, hput⟩
  · exact Or.inl (by rw [← heq, h])
  · rw [hput.lookup] at h
    split at h
    · next hid =>
      rw [← Option.some.inj h]
      exact Or.inr ⟨hid, h0, hself, hpoison, rfl⟩
    · exact Or.inl h

theorem find_free (h : 0 < free rt) : rt.find (fun e => !e.occupied) ≠ none := by
  intro hnone
  rw [RelayTable.find_eq, FrontScan.first_none] at hnone
  have hzero : free rt = 0 := SlotCount.count_of_none hnone
  omega

theorem updateRoute_le {hops : ℕ} (h0 : id ≠ 0) (hself : id ≠ rt.selfId)
    (hroom : relayTableLookup rt id ≠ none ∨ 0 < free rt) :
    ∃ y, relayTableLookup (relayTableUpdateRoute rt id hops src fd) id = some y ∧
      y.hops ≤ hops := by
  rcases RelayTable.updateRoute_cases rt id hops src fd with heq | ⟨-, -, -, i, key, hput⟩
  · have hgo : ¬ (id = 0 ∨ id = rt.selfId) := by simp [h0, hself]
    rw [heq]
    cases hby : rt.byId id with
    | some i =>
      refine ⟨_, lookup_of_byId hby, ?_⟩
      -- a longer route would have been replaced
      by_contra hlong
      have hent := congrArg (fun t => (t.entries i).hops) heq
      simp [relayTableUpdateRoute, hgo, hby, RelayTable.set, Nat.lt_of_not_le hlong] at hent
      omega
    | none =>
      have hnone : relayTableLookup rt id = none := by rw [relayTableLookup, hby, Option.map_none]
      cases hfree : rt.find fun e => !e.occupied with
      | none => exact absurd hfree (find_free (hroom.resolve_left (not_not_intro hnone)))
      | some i =>
        have hent := congrArg (fun t => (t.entries i).occupied) heq
        simp [relayTableUpdateRoute, hgo, hby, hfree, RelayTable.set, free_slot hfree] at hent
  · exact ⟨_, hput.lookup_self, Nat.le_refl _⟩

theorem announceRoute_offered (src : ℕ) (fd : Fd) {hops : ℕ} (hoffer : Offers rt e hops)
    (hroom : relayTableLookup rt e.1 ≠ none ∨ 0 < free rt) :
    ∃ y, relayTableLookup (announceRoute src fd rt e) e.1 = some y ∧ y.hops ≤ hops := by
  obtain ⟨h0, hself, hpoison, rfl⟩ := hoffer
  have hupdate : announceRoute src fd rt e =
      relayTableUpdateRoute rt e.1 ((e.2 + 1) % 256) src fd := by
    rw [announceRoute, if_neg hself, if_neg (by omega)]
  rw [hupdate]
  exact updateRoute_le h0 hself hroom

theorem announceRoute_room (hroom : Room rt ids) (he : e.1 ∈ ids) :
    Room (announceRoute src fd rt e) ids := by
  rcases announceRoute_cases rt src fd e with heq | ⟨h0, hself, -, -, i, key, hput⟩
  · rwa [heq]
  · unfold Room at hroom ⊢
    rw [hput.selfId]
    rcases hput.slot with hold | ⟨hnew, hslot⟩
    · have hknown : relayTableLookup rt e.1 ≠ none := by
        rw [lookup_of_byId hold]
        exact nofun
      have hfree : free (announceRoute src fd rt e) = free rt := by
        unfold free
        rw [hput.entries]
        apply SlotCount.count_update_same
        simp [(RelayTable.byId_some hold).1]
      rw [hfree]
      refine (Finset.card_le_card ?_).trans hroom
      intro k hk
      simp only [Finset.mem_filter, hput.lookup] at hk ⊢
      split at hk
      · simp at hk
      · exact hk
    · have hunknown : relayTableLookup rt e.1 = none := by
        rw [relayTableLookup, hnew, Option.map_none]
      have hfree : free (announceRoute src fd rt e) + 1 = free rt := by
        unfold free
        rw [hput.entries]
        apply SlotCount.count_update_off
        · simp [hslot]
        · rfl
      have hless : (ids.filter fun k => k ≠ 0 ∧ k ≠ rt.selfId ∧
          relayTableLookup (announceRoute src fd rt e) k = none) =
          (ids.filter fun k => k ≠ 0 ∧ k ≠ rt.selfId ∧ relayTableLookup rt k = none).erase e.1 := by
        ext k
        simp only [Finset.mem_filter, Finset.mem_erase, hput.lookup]
        by_cases hk : k = e.1
        · simp [hk]
        · simp [hk]
      have hmem : e.1 ∈ ids.filter fun k => k ≠ 0 ∧ k ≠ rt.selfId ∧ relayTableLookup rt k = none :=
        Finset.mem_filter.2 ⟨he, h0, hself, hunknown⟩
      rw [hless, Finset.card_erase_of_mem hmem]
      omega

theorem Room.free_pos (hroom : Room rt ids) (he : e.1 ∈ ids) {hops : ℕ} (hoffer : Offers rt e hops) :
    relayTableLookup rt e.1 ≠ none ∨ 0 < free rt := by
  by_cases hknown : relayTableLookup rt e.1 = none
  · have hmem : e.1 ∈ ids.filter fun k => k ≠ 0 ∧ k ≠ rt.selfId ∧ relayTableLookup rt k = none :=
      Finset.mem_filter.2 ⟨he, hoffer.1, hoffer.2.1, hknown⟩
    exact Or.inr (Nat.lt_of_lt_of_le (Finset.card_pos.2 ⟨_, hmem⟩) hroom)
  · exact Or.inl hknown

theorem offers_announceRoute {e' : ℕ × ℕ} {hops : ℕ} :
    Offers (announceRoute src fd rt e) e' hops ↔ Offers rt e' hops := by
  unfold Offers
  rw [announceRoute_selfId]

theorem foldl_reached_iff (hroom : Room rt ids) (hids : ∀ e ∈ es, e.1 ∈ ids) :
    (∃ y, relayTableLookup (es.foldl (announceRoute src fd) rt) id = some y ∧ y.hops ≤ n) ↔
      (∃ x, relayTableLookup rt id = some x ∧ x.hops ≤ n) ∨
        ∃ e ∈ es, id = e.1 ∧ ∃ hops ≤ n, Offers rt e hops := by
  induction es generalizing rt with
  | nil => simp
  | cons e es ih =>
    have he : e.1 ∈ ids := hids e List.mem_cons_self
    have hrest : ∀ e ∈ es, e.1 ∈ ids := fun e he => hids e (List.mem_cons_of_mem _ he)
    rw [List.foldl_cons, ih (announceRoute_room hroom he) hrest]
    simp only [offers_announceRoute, List.exists_mem_cons_iff]
    constructor
    · rintro (⟨y, hy, hle⟩ | h)
      · obtain hold | ⟨hid, hoffer⟩ := announceRoute_origin hy
        · exact Or.inl ⟨y, hold, hle⟩
        · exact Or.inr (Or.inl ⟨hid, y.hops, hle, hoffer⟩)
      · exact Or.inr (Or.inr h)
    · rintro (⟨x, hx, hle⟩ | ⟨rfl, hops, hle, hoffer⟩ | h)
      · obtain ⟨y, hy, hyx⟩ := announceRoute_le src fd e hx
        exact Or.inl ⟨y, hy, hyx.trans hle⟩
      · obtain ⟨y, hy, hyh⟩ := announceRoute_offered src fd hoffer (hroom.free_pos he hoffer)
        exact Or.inl ⟨y, hy, hyh.trans hle⟩
      · exact Or.inr h

/-! ### The sender -/

theorem length_tableRoutes_le (rt : RelayTable) : (tableRoutes rt).length ≤ kMaxRelays := by
  rw [tableRoutes, List.length_map]
  exact (List.length_filter_le _ _).trans (by rw [List.length_finRange])

theorem relayTableList_eq (rt : RelayTable) : relayTableList rt kMaxRelays = tableRoutes rt :=
  List.take_of_length_le (length_tableRoutes_le rt)

theorem mem_tableRoutes : e ∈ tableRoutes rt ↔
    ∃ i, (rt.entries i).occupied = true ∧ ((rt.entries i).relayId, (rt.entries i).hops) = e := by
  simp [tableRoutes]

/-- An entry for the own id has hop count 0; without one there is a slot to spare. -/
def SelfListed (rt : RelayTable) : Prop :=
  (∃ i, (rt.entries i).occupied = true ∧ (rt.entries i).relayId = rt.selfId ∧
      (rt.entries i).hops = 0) ∨
    (∀ i, (rt.entries i).occupied = true → (rt.entries i).relayId ≠ rt.selfId) ∧
      ∃ i, (rt.entries i).occupied = false

theorem length_tableRoutes_lt :
    (tableRoutes rt).length < kMaxRelays ↔ ∃ i, (rt.entries i).occupied = false := by
  have hlt := List.length_filter_lt_length_iff_exists
    (l := List.finRange kMaxRelays) (p := fun i => (rt.entries i).occupied)
  rw [List.length_finRange] at hlt
  rw [tableRoutes, List.length_map, hlt]
  simp

theorem announcedRoutes_cases (rt : RelayTable) :
    (∃ i, (rt.entries i).occupied = true ∧ (rt.entries i).relayId = rt.selfId) ∧
        announcedRoutes rt = tableRoutes rt ∨
      (∀ i, (rt.entries i).occupied = true → (rt.entries i).relayId ≠ rt.selfId) ∧
        announcedRoutes rt =
          if (tableRoutes rt).length < kMaxRelays then allRoutes rt else tableRoutes rt := by
  unfold announcedRoutes
  rw [relayTableList_eq]
  dsimp only
  split
  · next h =>
    obtain ⟨e, he, hid⟩ := List.any_eq_true.1 h
    obtain ⟨i, hocc, rfl⟩ := mem_tableRoutes.1 he
    exact Or.inl ⟨⟨i, hocc, of_decide_eq_true hid⟩, rfl⟩
  · next h =>
    refine Or.inr ⟨fun i hocc hid => h ?_, rfl⟩
    exact List.any_eq_true.2 ⟨_, mem_tableRoutes.2 ⟨i, hocc, rfl⟩, decide_eq_true hid⟩

theorem self_announced_iff : (rt.selfId, 0) ∈ announcedRoutes rt ↔ SelfListed rt := by
  unfold SelfListed
  rcases announcedRoutes_cases rt with ⟨⟨i, hocc, hid⟩, heq⟩ | ⟨hnone, heq⟩
  · rw [heq, mem_tableRoutes]
    constructor
    · rintro ⟨j, hj, hpair⟩
      exact Or.inl ⟨j, hj, (Prod.mk.inj hpair).1, (Prod.mk.inj hpair).2⟩
    · rintro (⟨j, hj, hidj, hhops⟩ | ⟨hnone, -⟩)
      · exact ⟨j, hj, by rw [hidj, hhops]⟩
      · exact absurd hid (hnone i hocc)
  · have hno : (rt.selfId, 0) ∉ tableRoutes rt := by
      intro hmem
      obtain ⟨j, hj, hpair⟩ := mem_tableRoutes.1 hmem
      exact hnone j hj (Prod.mk.inj hpair).1
    rw [heq, ← length_tableRoutes_lt]
    split
    · next hlt => exact iff_of_true (by simp [allRoutes]) (Or.inr ⟨hnone, hlt⟩)
    · next hfull =>
      constructor
      · exact fun h => absurd h hno
      · rintro (⟨j, hj, hidj, -⟩ | ⟨-, hlt⟩)
        · exact absurd hidj (hnone j hj)
        · exact absurd hlt hfull

theorem mem_take_announced (h : SelfListed rt) (n : ℕ) :
    e ∈ (announcedRoutes rt).take n ↔ e ∈ (allRoutes rt).take n := by
  have hself := self_announced_iff.2 h
  rcases announcedRoutes_cases rt with ⟨-, heq⟩ | ⟨hnone, heq⟩
  · rw [heq] at hself ⊢
    rw [allRoutes, List.take_append]
    by_cases hn : n ≤ (tableRoutes rt).length
    · simp [Nat.sub_eq_zero_of_le hn]
    · have hall : (tableRoutes rt).take n = tableRoutes rt :=
        List.take_of_length_le (by omega)
      rw [hall, List.mem_append]
      constructor
      · exact Or.inl
      · rintro (he | he)
        · exact he
        · rw [List.mem_singleton.1 (List.mem_of_mem_take he)]
          exact hself
  · rw [heq]
    split
    · rfl
    · next hfull =>
      rcases h with ⟨i, hocc, hid, -⟩ | ⟨-, hfree⟩
      · exact absurd hid (hnone i hocc)
      · exact absurd (length_tableRoutes_lt.2 hfree) hfull

theorem length_announced_le (rt : RelayTable) : (announcedRoutes rt).length ≤ kMaxRelays := by
  have htable := length_tableRoutes_le rt
  rcases announcedRoutes_cases rt with ⟨-, heq⟩ | ⟨-, heq⟩
  · rwa [heq]
  · rw [heq]
    split
    · next hlt =>
      rw [allRoutes, List.length_append, List.length_singleton]
      omega
    · exact htable

theorem mem_announced (h : SelfListed rt) : e ∈ announcedRoutes rt ↔ e ∈ allRoutes rt := by
  have hall : (announcedRoutes rt).length ≤ kMaxRelays + 1 := by
    have hle := length_announced_le rt
    omega
  have hall' : (allRoutes rt).length ≤ kMaxRelays + 1 := by
    rw [allRoutes, List.length_append, List.length_singleton]
    have hle := length_tableRoutes_le rt
    omega
  have htake := @mem_take_announced rt e h (kMaxRelays + 1)
  rwa [List.take_of_length_le hall, List.take_of_length_le hall'] at htake

/-- The relay itself at hop count 0, and every other route as often as the table has it. -/
structure Lists (rt : RelayTable) (es : List (ℕ × ℕ)) : Prop where
  self : (rt.selfId, 0) ∈ es
  once : ∀ e, e ≠ (rt.selfId, 0) → es.count e = SlotCount.count rt.entries fun x =>
    x.occupied && decide ((x.relayId, x.hops) = e)

theorem count_tableRoutes (rt : RelayTable) (e : ℕ × ℕ) : (tableRoutes rt).count e =
    SlotCount.count rt.entries fun x => x.occupied && decide ((x.relayId, x.hops) = e) := by
  have hnodup : ((List.finRange kMaxRelays).filter fun i => (rt.entries i).occupied &&
      decide (((rt.entries i).relayId, (rt.entries i).hops) = e)).Nodup :=
    (List.nodup_finRange _).filter _
  have hset : (((List.finRange kMaxRelays).filter fun i => (rt.entries i).occupied &&
      decide (((rt.entries i).relayId, (rt.entries i).hops) = e)).toFinset) =
      Finset.univ.filter fun i => ((rt.entries i).occupied &&
        decide (((rt.entries i).relayId, (rt.entries i).hops) = e)) = true := by
    ext i
    simp
  rw [SlotCount.count, ← hset, List.toFinset_card_of_nodup hnodup, tableRoutes, List.count,
    List.countP_map, List.countP_filter, List.countP_eq_length_filter]
  congr 2
  funext i
  simp [Bool.and_comm, beq_eq_decide]

theorem lists_announced (h : SelfListed rt) : Lists rt (announcedRoutes rt) := by
  constructor
  · exact self_announced_iff.2 h
  · intro e he
    rw [← count_tableRoutes]
    rcases announcedRoutes_cases rt with ⟨-, heq⟩ | ⟨-, heq⟩
    · rw [heq]
    · rw [heq]
      split
      · rw [allRoutes, List.count_append, List.count_singleton]
        simp [Ne.symm he]
      · rfl

/-! ### From table to table -/

def neighbours (rt : RelayTable) : List Key :=
  ((List.finRange kMaxRelays).filter fun i =>
    (rt.entries i).occupied && decide ((rt.entries i).hops = 1)).map fun i => (rt.entries i).key

def routesIn (frame : Bytes) : List (ℕ × ℕ) :=
  hdParseRouteAnnounce (frame.drop kHdFrameHeaderSize) kMaxRelays

def received (rcv : ControlPlane) (fd : Fd) (frame : Bytes) : Option RelayTable :=
  (cpHandleRouteAnnounce rcv fd (frame.drop kHdFrameHeaderSize)).relayTable

/-- One frame goes to every neighbour and lists the table; afterwards the receiver reaches every
relay in it other than itself within one hop more. -/
def Complete (cp rcv : ControlPlane) (rt rt' : RelayTable) (fd : Fd) : Prop :=
  ∃ frame, routeAnnounceFrame rt = some frame ∧
    handleRouteAnnounce cp = (neighbours rt).foldl (fun cp key => cpSendFrame cp key frame) cp ∧
    Lists rt (routesIn frame) ∧
    ∀ e ∈ routesIn frame, e.1 ≠ rt'.selfId → ∃ rt'' y, received rcv fd frame = some rt'' ∧
      relayTableLookup rt'' e.1 = some y ∧ y.hops ≤ e.2 + 1

/-- Every route of the sender is known as well already, or the link is that of a known relay and one
of the first 256 routes offers it. -/
def Reaches (rt rt' : RelayTable) (fd : Fd) : Prop :=
  ∀ e ∈ allRoutes rt, e.1 ≠ rt'.selfId →
    (∃ x, relayTableLookup rt' e.1 = some x ∧ x.hops ≤ e.2 + 1) ∨
      announceSource rt' fd ≠ 0 ∧
        ∃ e' ∈ (allRoutes rt).take 256, e.1 = e'.1 ∧ ∃ hops ≤ e.2 + 1, Offers rt' e' hops

theorem routeBounds_announced (h : Sized rt) : RouteBounds (announcedRoutes rt) := by
  intro e he
  rcases mem_announcedRoutes he with rfl | ⟨i, -, rfl⟩
  · exact ⟨h.1, (by decide : 0 < 256)⟩
  · exact h.2 i

theorem routeAnnounceFrame_eq (rt : RelayTable) : routeAnnounceFrame rt =
    some (hdWriteFrameHeader .kRouteAnnounce ((announcedRoutes rt).length * kHdRouteEntrySize) ++
      (announcedRoutes rt).flatMap routeEntry) := by
  have hfits : (announcedRoutes rt).length * kHdRouteEntrySize ≤ kMaxRelays * kHdRouteEntrySize :=
    Nat.mul_le_mul_right _ (length_announced_le rt)
  unfold routeAnnounceFrame hdBuildRouteAnnounce
  dsimp only
  rw [if_neg (by omega)]

theorem foldl_neighbours (rt : RelayTable) (frame : Bytes) (slots : List (Fin kMaxRelays))
    (cp : ControlPlane) :
    slots.foldl (fun cp i =>
        let e := rt.entries i
        if e.occupied = false ∨ e.hops ≠ 1 then cp else cpSendFrame cp e.key frame) cp =
      ((slots.filter fun i => (rt.entries i).occupied && decide ((rt.entries i).hops = 1)).map
        fun i => (rt.entries i).key).foldl (fun cp key => cpSendFrame cp key frame) cp := by
  induction slots generalizing cp with
  | nil => rfl
  | cons i slots ih =>
    rw [List.foldl_cons, ih, List.filter_cons]
    by_cases h : (rt.entries i).occupied = false ∨ (rt.entries i).hops ≠ 1
    · have hskip : ((rt.entries i).occupied && decide ((rt.entries i).hops = 1)) = false := by
        rw [Bool.and_eq_false_iff, decide_eq_false_iff_not]
        exact h
      rw [if_pos h, hskip, if_neg Bool.false_ne_true]
    · have hsend : ((rt.entries i).occupied && decide ((rt.entries i).hops = 1)) = true := by
        simpa using h
      rw [if_neg h, if_pos hsend, List.map_cons, List.foldl_cons]

theorem handleRouteAnnounce_eq {cp : ControlPlane} (hrt : cp.relayTable = some rt) {frame : Bytes}
    (h : routeAnnounceFrame rt = some frame) : handleRouteAnnounce cp =
      (neighbours rt).foldl (fun cp key => cpSendFrame cp key frame) cp := by
  unfold handleRouteAnnounce
  rw [hrt]
  dsimp only
  rw [h]
  exact foldl_neighbours rt frame _ cp

theorem received_eq {rcv : ControlPlane} (hrcv : rcv.relayTable = some rt') {frame : Bytes} :
    received rcv fd frame = some (announce rt' fd (frame.drop kHdFrameHeaderSize)) := by
  rw [received, cpHandleRouteAnnounce_some hrcv]

theorem announce_reached_iff (hroom : Room rt' ids) (hbounds : RouteBounds es)
    (hids : ∀ e ∈ es, e.1 ∈ ids) :
    (∃ y, relayTableLookup (announce rt' fd (es.flatMap routeEntry)) id = some y ∧ y.hops ≤ n) ↔
      (∃ x, relayTableLookup rt' id = some x ∧ x.hops ≤ n) ∨
        announceSource rt' fd ≠ 0 ∧
          ∃ e ∈ es.take 256, id = e.1 ∧ ∃ hops ≤ n, Offers rt' e hops := by
  unfold announce
  by_cases hsrc : announceSource rt' fd = 0
  · simp [hsrc]
  · rw [if_neg hsrc, routeAnnounce_parse 256 hbounds,
      foldl_reached_iff hroom fun e he => hids e (List.mem_of_mem_take he)]
    simp [hsrc]

theorem mem_allRoutes_of_announced (he : e ∈ announcedRoutes rt) : e ∈ allRoutes rt := by
  rcases announcedRoutes_cases rt with ⟨-, heq⟩ | ⟨-, heq⟩
  · rw [heq] at he
    exact List.mem_append_left _ he
  · rw [heq] at he
    split at he
    · exact he
    · exact List.mem_append_left _ he

theorem complete_iff_announced {cp rcv : ControlPlane} (hrt : cp.relayTable = some rt)
    (hrcv : rcv.relayTable = some rt') (hsized : Sized rt)
    (hroom : Room rt' ((allRoutes rt).map Prod.fst).toFinset) :
    Complete cp rcv rt rt' fd ↔ Lists rt (announcedRoutes rt) ∧
      ∀ e ∈ announcedRoutes rt, e.1 ≠ rt'.selfId →
        (∃ x, relayTableLookup rt' e.1 = some x ∧ x.hops ≤ e.2 + 1) ∨
          announceSource rt' fd ≠ 0 ∧
            ∃ e' ∈ (announcedRoutes rt).take 256, e.1 = e'.1 ∧ ∃ hops ≤ e.2 + 1, Offers rt' e' hops := by
  have hframe := routeAnnounceFrame_eq rt
  have hbounds := routeBounds_announced hsized
  generalize hf : hdWriteFrameHeader .kRouteAnnounce
    ((announcedRoutes rt).length * kHdRouteEntrySize) ++ (announcedRoutes rt).flatMap routeEntry =
      frame at hframe
  have hpayload : frame.drop kHdFrameHeaderSize = (announcedRoutes rt).flatMap routeEntry := by
    rw [← hf, drop_header]
  have hroutes : routesIn frame = announcedRoutes rt := by
    rw [routesIn, hpayload, routeAnnounce_parse _ hbounds,
      List.take_of_length_le (length_announced_le rt)]
  have hids : ∀ e ∈ announcedRoutes rt, e.1 ∈ ((allRoutes rt).map Prod.fst).toFinset := by
    intro e he
    rw [List.mem_toFinset]
    exact List.mem_map_of_mem (mem_allRoutes_of_announced he)
  have hone : ∀ e : ℕ × ℕ, (∃ rt'' y, received rcv fd frame = some rt'' ∧
      relayTableLookup rt'' e.1 = some y ∧ y.hops ≤ e.2 + 1) ↔
        (∃ x, relayTableLookup rt' e.1 = some x ∧ x.hops ≤ e.2 + 1) ∨
          announceSource rt' fd ≠ 0 ∧ ∃ e' ∈ (announcedRoutes rt).take 256,
            e.1 = e'.1 ∧ ∃ hops ≤ e.2 + 1, Offers rt' e' hops := by
    intro e
    rw [received_eq hrcv, hpayload, ← announce_reached_iff hroom hbounds hids]
    simp
  simp only [← hone]
  constructor
  · rintro ⟨frame', hframe', -, hlists, hall⟩
    obtain rfl := Option.some.inj (hframe'.symm.trans hframe)
    rw [hroutes] at hlists hall
    exact ⟨hlists, hall⟩
  · rintro ⟨hlists, hall⟩
    rw [← hroutes] at hlists hall
    exact ⟨frame, hframe, handleRouteAnnounce_eq hrt hframe, hlists, hall⟩

/-- The announcement lists the relay itself and is applied in full exactly when the table has its
own id at hop count 0 or a slot to spare, and the receiver finds a good enough route to every relay
in its own table or among the first 256 routes. -/
theorem complete_iff (cp rcv : ControlPlane) (hrt : cp.relayTable = some rt)
    (hrcv : rcv.relayTable = some rt') (hsized : Sized rt) (fd : Fd)
    (hroom : Room rt' ((allRoutes rt).map Prod.fst).toFinset) :
    Complete cp rcv rt rt' fd ↔ SelfListed rt ∧ Reaches rt rt' fd := by
  rw [complete_iff_announced hrt hrcv hsized hroom]
  unfold Reaches
  constructor
  · rintro ⟨hlists, hall⟩
    have hself := self_announced_iff.1 hlists.self
    simp only [mem_announced hself, mem_take_announced hself] at hall
    exact ⟨hself, hall⟩
  · rintro ⟨hself, hall⟩
    simp only [mem_announced hself, mem_take_announced hself]
    exact ⟨lists_announced hself, hall⟩

/-! A relay that knows 257 others, one that knows three, and a neighbour of both. -/

def tableOf (n : ℕ) : RelayTable where
  entries i := if i.val < n then ⟨i.val + 10, 6, zeroKey, 1, i.val + 10, true⟩ else {}
  selfId := 5

def neighbour : RelayTable :=
  ({ selfId := 3 } : RelayTable).set 0 ⟨5, 8, zeroKey, 1, 5, true⟩

def relayCp (rt : RelayTable) : ControlPlane where
  dataPlane := { workers := fun _ => {}, numWorkers := 1 }
  relayTable := some rt

theorem tableOf_sized (n : ℕ) : Sized (tableOf n) := by
  constructor
  · exact (by decide : 5 < 2 ^ 16)
  · intro i
    have hi : i.val < 4096 := i.isLt
    unfold tableOf
    dsimp only
    split
    · exact ⟨(by omega : i.val + 10 < 2 ^ 16), (by decide : 1 < 256)⟩
    · exact ⟨(by decide : 0 < 2 ^ 16), (by decide : 0 < 256)⟩

theorem neighbour_room {es : List (ℕ × ℕ)} (h : es.length ≤ 4095) :
    Room neighbour (es.map Prod.fst).toFinset := by
  have hempty : free {} = kMaxRelays := by
    rw [free, SlotCount.count_of_all fun _ => rfl, Fintype.card_fin]
  have hfree : free neighbour + 1 = free {} := SlotCount.count_update_off rfl rfl
  have hids : (es.map Prod.fst).toFinset.card ≤ es.length := by
    simpa using List.toFinset_card_le (es.map Prod.fst)
  have hsome := Finset.card_filter_le (es.map Prod.fst).toFinset fun id =>
    id ≠ 0 ∧ id ≠ neighbour.selfId ∧ relayTableLookup neighbour id = none
  have hcap : kMaxRelays = 4096 := rfl
  unfold Room
  omega

theorem complete_three : Complete (relayCp (tableOf 3)) (relayCp neighbour) (tableOf 3) neighbour 8 ↔
    SelfListed (tableOf 3) ∧ Reaches (tableOf 3) neighbour 8 := by
  have hlen : (allRoutes (tableOf 3)).length = 4 := by decide +kernel
  exact complete_iff _ _ rfl rfl (tableOf_sized 3) 8 (neighbour_room (by omega))

/-- The 257th route is not read. -/
theorem not_complete_257 : Room neighbour ((allRoutes (tableOf 257)).map Prod.fst).toFinset ∧
    ¬ Complete (relayCp (tableOf 257)) (relayCp neighbour) (tableOf 257) neighbour 8 := by
  have hlen : (allRoutes (tableOf 257)).length = 258 := by decide +kernel
  have hroom : Room neighbour ((allRoutes (tableOf 257)).map Prod.fst).toFinset :=
    neighbour_room (by omega)
  refine ⟨hroom, fun hcomplete => ?_⟩
  obtain ⟨-, hall⟩ := (complete_iff_announced rfl rfl (tableOf_sized 257) hroom).1 hcomplete
  have hmem : (266, 1) ∈ announcedRoutes (tableOf 257) := by decide +kernel
  have hnone : relayTableLookup neighbour 266 = none := by decide +kernel
  have hfirst : ∀ e ∈ (announcedRoutes (tableOf 257)).take 256, 266 ≠ e.1 := by decide +kernel
  have hother : (266 : ℕ) ≠ neighbour.selfId := by
    have hself : neighbour.selfId = 3 := rfl
    omega
  rcases hall (266, 1) hmem hother with ⟨x, hx, -⟩ | ⟨-, e, he, hid, -⟩
  · rw [hnone] at hx
    cases hx
  · exact hfirst e he hid

end HyperDerp.Announcement
