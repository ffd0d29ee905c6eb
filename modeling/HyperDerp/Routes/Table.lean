import HyperDerp.ControlPlane.Frames
import HyperDerp.HdCodec.RoundTrips
import HyperDerp.Lib.FrontScan

/-!
# The relay table as a map (`hd_relay_table.cc:19-124`, `control_plane.cc:815-857`)

No relay id occurs twice, so the table is a map from ids to entries. An addition
and a route update either leave it as it is or write one entry.
-/

namespace HyperDerp

instance : NeZero kMaxRelays := ⟨by decide⟩

namespace RelayTable

variable {rt rt' : RelayTable} {id : ℕ} {x : RelayEntry} {i : Fin kMaxRelays}

def isFor (id : ℕ) (e : RelayEntry) : Bool := e.occupied && decide (e.relayId = id)

theorem isFor_iff {e : RelayEntry} : isFor id e = true ↔ e.occupied = true ∧ e.relayId = id := by
  unfold isFor
  rw [Bool.and_eq_true, decide_eq_true_eq]

theorem find_eq (rt : RelayTable) (p : RelayEntry → Bool) :
    rt.find p = FrontScan.first rt.entries p := rfl

theorem byId_eq (rt : RelayTable) (id : ℕ) : rt.byId id = FrontScan.first rt.entries (isFor id) :=
  rfl

theorem byId_some (h : rt.byId id = some i) :
    (rt.entries i).occupied = true ∧ (rt.entries i).relayId = id := by
  rw [byId_eq] at h
  exact isFor_iff.1 (FrontScan.first_some h)

def IdsDistinct (rt : RelayTable) : Prop :=
  ∀ i j, (rt.entries i).occupied = true → (rt.entries j).occupied = true →
    (rt.entries i).relayId = (rt.entries j).relayId → i = j

theorem IdsDistinct.byId (h : rt.IdsDistinct) (hocc : (rt.entries i).occupied = true) :
    rt.byId (rt.entries i).relayId = some i := by
  rw [byId_eq]
  apply FrontScan.first_of_unique (isFor_iff.2 ⟨hocc, rfl⟩)
  intro j hj
  obtain ⟨hoj, hid⟩ := isFor_iff.1 hj
  exact h j i hoj hocc hid

theorem lookup_of_byId (h : rt.byId id = some i) :
    relayTableLookup rt id = some (rt.entries i) := by
  unfold relayTableLookup
  rw [h, Option.map_some]

theorem IdsDistinct.lookup (h : rt.IdsDistinct) (hocc : (rt.entries i).occupied = true) :
    relayTableLookup rt (rt.entries i).relayId = some (rt.entries i) :=
  lookup_of_byId (h.byId hocc)

theorem lookup_some {e : RelayEntry} (h : relayTableLookup rt id = some e) :
    ∃ i, rt.byId id = some i ∧ rt.entries i = e ∧ e.occupied = true ∧ e.relayId = id := by
  unfold relayTableLookup at h
  obtain ⟨i, hi, he⟩ := Option.map_eq_some_iff.1 h
  obtain ⟨hocc, hid⟩ := byId_some hi
  rw [he] at hocc hid
  exact ⟨i, hi, he, hocc, hid⟩

/-- `rt'` is `rt` with `x` as the entry of the relay, in the slot it had or a free one. -/
structure Puts (rt rt' : RelayTable) (i : Fin kMaxRelays) (x : RelayEntry) : Prop where
  entries : rt'.entries = Function.update rt.entries i x
  selfId : rt'.selfId = rt.selfId
  occupied : x.occupied = true
  slot : rt.byId x.relayId = some i ∨
    rt.byId x.relayId = none ∧ (rt.entries i).occupied = false

theorem Puts.byId_ne (h : Puts rt rt' i x) (hid : id ≠ x.relayId) : rt'.byId id = rt.byId id := by
  rw [byId_eq, byId_eq, h.entries]
  apply FrontScan.first_update
  have hx : isFor id x = false := by
    rw [Bool.eq_false_iff]
    exact fun hx => hid (isFor_iff.1 hx).2.symm
  rw [hx, eq_comm, Bool.eq_false_iff]
  intro hi
  obtain ⟨hocc, hidi⟩ := isFor_iff.1 hi
  rcases h.slot with hs | ⟨-, hs⟩
  · exact hid (hidi.symm.trans (byId_some hs).2)
  · rw [hs] at hocc
    cases hocc

theorem Puts.byId_self (h : Puts rt rt' i x) : rt'.byId x.relayId = some i := by
  have hx : isFor x.relayId x = true := isFor_iff.2 ⟨h.occupied, rfl⟩
  rw [byId_eq, h.entries]
  rcases h.slot with hs | ⟨hs, -⟩
  · obtain ⟨hocc, hidi⟩ := byId_some hs
    rw [FrontScan.first_update _ (hx.trans (isFor_iff.2 ⟨hocc, hidi⟩).symm)]
    exact hs
  · exact FrontScan.first_update_new hs hx

theorem Puts.lookup_self (h : Puts rt rt' i x) : relayTableLookup rt' x.relayId = some x := by
  rw [lookup_of_byId h.byId_self, h.entries, Function.update_self]

theorem Puts.lookup_ne (h : Puts rt rt' i x) (hid : id ≠ x.relayId) :
    relayTableLookup rt' id = relayTableLookup rt id := by
  unfold relayTableLookup
  rw [h.byId_ne hid]
  cases hb : rt.byId id with
  | none => rfl
  | some j =>
    have hji : j ≠ i := by
      intro hji
      obtain ⟨hocc, hidj⟩ := byId_some hb
      rw [hji] at hocc hidj
      rcases h.slot with hs | ⟨-, hs⟩
      · exact hid (hidj.symm.trans (byId_some hs).2)
      · rw [hs] at hocc
        cases hocc
    rw [Option.map_some, Option.map_some, h.entries, Function.update_of_ne hji]

theorem Puts.distinct (h : Puts rt rt' i x) (hd : rt.IdsDistinct) : rt'.IdsDistinct := by
  have hother : ∀ j, j ≠ i → (rt.entries j).occupied = true → (rt.entries j).relayId ≠ x.relayId := by
    intro j hj hocc hid
    have hby := hd.byId hocc
    rw [hid] at hby
    rcases h.slot with hs | ⟨hs, -⟩
    · rw [hs] at hby
      exact hj (Option.some.inj hby).symm
    · rw [hs] at hby
      cases hby
  intro a b ha hb hab
  rw [h.entries] at ha hb hab
  by_cases hai : a = i
  · by_cases hbi : b = i
    · rw [hai, hbi]
    · rw [hai, Function.update_self, Function.update_of_ne hbi] at hab
      rw [Function.update_of_ne hbi] at hb
      exact absurd hab.symm (hother b hbi hb)
  · rw [Function.update_of_ne hai] at ha hab
    by_cases hbi : b = i
    · rw [hbi, Function.update_self] at hab
      exact absurd hab (hother a hai ha)
    · rw [Function.update_of_ne hbi] at hb hab
      exact hd a b ha hb hab

theorem free_slot (h : rt.find (fun e => !e.occupied) = some i) :
    (rt.entries i).occupied = false := by
  rw [find_eq] at h
  have hi := FrontScan.first_some h
  simpa using hi

/-! ### The operations -/

theorem add_puts (hid : id ≠ 0)
    (hroom : rt.byId id ≠ none ∨ (rt.find fun e => !e.occupied) ≠ none) (fd : Fd) (key : Key) :
    ∃ i, Puts rt (relayTableAdd rt id fd key) i ⟨id, fd, key, 1, id, true⟩ := by
  unfold relayTableAdd
  rw [if_neg hid]
  split
  · next i hi =>
    refine ⟨i, ?_, rfl, rfl, .inl hi⟩
    obtain ⟨hocc, hidi⟩ := byId_some hi
    unfold RelayTable.set
    dsimp only
    rw [hidi, hocc]
  · next hnone =>
    split
    · next hfull => exact absurd hroom (by simp [hnone, hfull])
    · next i hi => exact ⟨i, rfl, rfl, rfl, .inr ⟨hnone, free_slot hi⟩⟩

theorem add_cases (rt : RelayTable) (id : ℕ) (fd : Fd) (key : Key) :
    relayTableAdd rt id fd key = rt ∨
      id ≠ 0 ∧ ∃ i, Puts rt (relayTableAdd rt id fd key) i ⟨id, fd, key, 1, id, true⟩ := by
  by_cases hid : id = 0
  · rw [relayTableAdd, if_pos hid]
    exact .inl rfl
  · by_cases hroom : rt.byId id ≠ none ∨ (rt.find fun e => !e.occupied) ≠ none
    · exact .inr ⟨hid, add_puts hid hroom fd key⟩
    · rw [not_or, not_ne_iff, not_ne_iff] at hroom
      rw [relayTableAdd, if_neg hid, hroom.1, hroom.2]
      exact .inl rfl

theorem updateRoute_cases (rt : RelayTable) (id hops next : ℕ) (fd : Fd) :
    relayTableUpdateRoute rt id hops next fd = rt ∨
      id ≠ 0 ∧ id ≠ rt.selfId ∧ (∀ e, relayTableLookup rt id = some e → hops < e.hops) ∧
        ∃ i key, Puts rt (relayTableUpdateRoute rt id hops next fd) i
          ⟨id, fd, key, hops, next, true⟩ := by
  unfold relayTableUpdateRoute
  split
  · exact .inl rfl
  next hid =>
  rw [not_or] at hid
  split
  · next i hi =>
    split
    · next hlt =>
      refine .inr ⟨hid.1, hid.2, ?_, i, (rt.entries i).key, ?_, rfl, rfl, .inl hi⟩
      · intro e he
        rw [lookup_of_byId hi] at he
        rw [← Option.some.inj he]
        exact hlt
      · obtain ⟨hocc, hidi⟩ := byId_some hi
        unfold RelayTable.set
        dsimp only
        rw [hidi, hocc]
    · exact .inl rfl
  · next hnone =>
    split
    · exact .inl rfl
    · next i hi =>
      refine .inr ⟨hid.1, hid.2, ?_, i, (rt.entries i).key, rfl, rfl, rfl,
        .inr ⟨hnone, free_slot hi⟩⟩
      intro e he
      unfold relayTableLookup at he
      rw [hnone] at he
      cases he

theorem remove_cases (rt : RelayTable) (id : ℕ) :
    rt.byId id = none ∧ relayTableRemove rt id = rt ∨
      ∃ i, rt.byId id = some i ∧ (relayTableRemove rt id).entries = Function.update rt.entries i {} ∧
        (relayTableRemove rt id).selfId = rt.selfId := by
  unfold relayTableRemove
  split
  · next h => exact .inl ⟨h, rfl⟩
  · next i h => exact .inr ⟨i, h, rfl, rfl⟩

theorem IdsDistinct.remove (h : rt.IdsDistinct) (id : ℕ) : (relayTableRemove rt id).IdsDistinct := by
  rcases remove_cases rt id with ⟨-, heq⟩ | ⟨i, -, hent, -⟩
  · rw [heq]
    exact h
  · have hkept : ∀ j, ((relayTableRemove rt id).entries j).occupied = true →
        (relayTableRemove rt id).entries j = rt.entries j := by
      intro j hj
      rw [hent] at hj ⊢
      by_cases hji : j = i
      · rw [hji, Function.update_self] at hj
        cases hj
      · exact Function.update_of_ne hji ..
    intro a b ha hb hab
    have hka := hkept a ha
    have hkb := hkept b hb
    rw [hka] at ha hab
    rw [hkb] at hb hab
    exact h a b ha hb hab

theorem IdsDistinct.lookup_remove (h : rt.IdsDistinct) {k : ℕ} :
    relayTableLookup (relayTableRemove rt id) k =
      if k = id then none else relayTableLookup rt k := by
  rcases remove_cases rt id with ⟨hnone, heq⟩ | ⟨i, hi, hent, -⟩
  · rw [heq]
    split
    · next hk =>
      rw [hk]
      unfold relayTableLookup
      rw [hnone, Option.map_none]
    · rfl
  · have hempty : isFor k ({} : RelayEntry) = false := rfl
    unfold relayTableLookup
    split
    · next hk =>
      have hgone : (relayTableRemove rt id).byId k = none := by
        rw [byId_eq, hent]
        apply FrontScan.first_update_gone _ hempty
        intro j hj
        obtain ⟨hocc, hidj⟩ := isFor_iff.1 hj
        obtain ⟨hocc', hidi⟩ := byId_some hi
        exact h j i hocc hocc' (by rw [hidj, hidi, hk])
      rw [hgone, Option.map_none]
    · next hk =>
      have hsame : (relayTableRemove rt id).byId k = rt.byId k := by
        rw [byId_eq, byId_eq, hent]
        apply FrontScan.first_update
        rw [hempty, eq_comm, Bool.eq_false_iff]
        intro hfor
        exact hk ((isFor_iff.1 hfor).2.symm.trans (byId_some hi).2)
      rw [hsame]
      cases hb : rt.byId k with
      | none => rw [Option.map_none, Option.map_none]
      | some j =>
        have hji : j ≠ i := by
          intro hji
          rw [hji] at hb
          exact hk ((byId_some hb).2.symm.trans (byId_some hi).2)
        rw [Option.map_some, Option.map_some, hent, Function.update_of_ne hji]

theorem Puts.lookup (h : Puts rt rt' i x) (k : ℕ) :
    relayTableLookup rt' k = if k = x.relayId then some x else relayTableLookup rt k := by
  split
  · next hk =>
    rw [hk]
    exact h.lookup_self
  · next hk => exact h.lookup_ne hk

end RelayTable

/-! ### Announcements -/

def announceSource (rt : RelayTable) (fd : Fd) : ℕ :=
  ((rt.find fun e => e.occupied && decide (e.fd = fd)).map fun i => (rt.entries i).relayId).getD 0

def announceRoute (src : ℕ) (fd : Fd) (rt : RelayTable) (e : ℕ × ℕ) : RelayTable :=
  let newHops := (e.2 + 1) % 256
  if e.1 = rt.selfId then rt
  else if 255 ≤ newHops then rt
  else relayTableUpdateRoute rt e.1 newHops src fd

/-- The table after a RouteAnnounce on `fd`. -/
def announce (rt : RelayTable) (fd : Fd) (payload : Bytes) : RelayTable :=
  if announceSource rt fd = 0 then rt
  else (hdParseRouteAnnounce payload 256).foldl (announceRoute (announceSource rt fd) fd) rt

theorem cpHandleRouteAnnounce_some {cp : ControlPlane} {rt : RelayTable}
    (h : cp.relayTable = some rt) (fd : Fd) (payload : Bytes) :
    cpHandleRouteAnnounce cp fd payload =
      { cp with relayTable := some (announce rt fd payload) } := by
  have hcp : { cp with relayTable := some rt } = cp := by rw [← h]
  unfold cpHandleRouteAnnounce announce
  rw [h]
  dsimp only
  rw [announceSource]
  split
  · exact hcp.symm
  · rfl

theorem announceRoute_cases (rt : RelayTable) (src : ℕ) (fd : Fd) (e : ℕ × ℕ) :
    announceRoute src fd rt e = rt ∨
      e.1 ≠ 0 ∧ e.1 ≠ rt.selfId ∧ (e.2 + 1) % 256 < 255 ∧
        (∀ x, relayTableLookup rt e.1 = some x → (e.2 + 1) % 256 < x.hops) ∧
        ∃ i key, RelayTable.Puts rt (announceRoute src fd rt e) i
          ⟨e.1, fd, key, (e.2 + 1) % 256, src, true⟩ := by
  unfold announceRoute
  dsimp only
  split
  · exact .inl rfl
  next hself =>
  split
  · exact .inl rfl
  next hhops =>
  rcases RelayTable.updateRoute_cases rt e.1 ((e.2 + 1) % 256) src fd with heq | ⟨h0, -, hlt, hput⟩
  · exact .inl heq
  · exact .inr ⟨h0, hself, by omega, hlt, hput⟩

/-! ### Building an announcement (`control_plane.cc:370-411`) -/

def announcedRoutes (rt : RelayTable) : List (ℕ × ℕ) :=
  let es := relayTableList rt kMaxRelays
  if es.any fun e => decide (e.1 = rt.selfId) then es
  else if es.length < kMaxRelays then es ++ [(rt.selfId, 0)]
  else es

def routeAnnounceFrame (rt : RelayTable) : Option Bytes :=
  hdBuildRouteAnnounce (kHdFrameHeaderSize + kMaxRelays * kHdRouteEntrySize) (announcedRoutes rt)

/-- `HandleRouteAnnounce`: the frame to every neighbour. -/
def handleRouteAnnounce (cp : ControlPlane) : ControlPlane :=
  match cp.relayTable with
  | none => cp
  | some rt =>
    match routeAnnounceFrame rt with
    | none => cp
    | some frame =>
      (List.finRange kMaxRelays).foldl
        (fun cp i =>
          let e := rt.entries i
          if e.occupied = false ∨ e.hops ≠ 1 then cp else cpSendFrame cp e.key frame) cp

theorem mem_of_mem_parse {es : List (ℕ × ℕ)} (hes : ∀ e ∈ es, e.1 < 2 ^ 16 ∧ e.2 < 256)
    {n : ℕ} {e : ℕ × ℕ} (he : e ∈ hdParseRouteAnnounce (es.flatMap routeEntry) n) : e ∈ es := by
  rw [routeAnnounce_parse n hes] at he
  exact List.mem_of_mem_take he

theorem mem_relayTableList {rt : RelayTable} {n : ℕ} {e : ℕ × ℕ} (h : e ∈ relayTableList rt n) :
    ∃ i, (rt.entries i).occupied = true ∧ e = ((rt.entries i).relayId, (rt.entries i).hops) := by
  unfold relayTableList at h
  obtain ⟨i, hi, heq⟩ := List.mem_map.1 (List.mem_of_mem_take h)
  exact ⟨i, (List.mem_filter.1 hi).2, heq.symm⟩

theorem mem_announcedRoutes {rt : RelayTable} {e : ℕ × ℕ} (h : e ∈ announcedRoutes rt) :
    e = (rt.selfId, 0) ∨
      ∃ i, (rt.entries i).occupied = true ∧ e = ((rt.entries i).relayId, (rt.entries i).hops) := by
  unfold announcedRoutes at h
  dsimp only at h
  split at h
  · exact .inr (mem_relayTableList h)
  · split at h
    · rcases List.mem_append.1 h with h | h
      · exact .inr (mem_relayTableList h)
      · exact .inl (List.mem_singleton.1 h)
    · exact .inr (mem_relayTableList h)

end HyperDerp
