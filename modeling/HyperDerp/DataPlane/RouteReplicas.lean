import HyperDerp.DataPlane.Tables
import HyperDerp.Lib.Runs

/-!
# Concurrent route broadcasts (`data_plane.cc:248-336`)

Every worker holds a copy of the routing table and every worker writes all
copies. `RouteFind` takes one step here, and so does each store of `RouteSet`
and `RouteRemove`; workers take their steps in any order.
-/

namespace HyperDerp

open LinearProbe (Holds Inv Fits WritesAt)

/-- What is left of `RouteSet`: the walk, then four stores into the slot found. -/
inductive SetPc where
  | find
  | key (r : Slot)
  | workerId (r : Slot)
  | fd (r : Slot)
  | occupied (r : Slot)

/-- What is left of `RouteRemove`. -/
inductive RemovePc where
  | find
  | check (r : Slot)
  | occupied (r : Slot)

/-- `BroadcastRouteAdd` or `BroadcastRouteRemove` at work on replica `i`. -/
inductive RouteTask where
  | adding (key : Key) (workerId : ℕ) (fd : Fd) (i : ℕ) (pc : SetPc)
  | removing (key : Key) (i : ℕ) (pc : RemovePc)

def RouteTask.key : RouteTask → Key
  | adding k _ _ _ _ => k
  | removing k _ _ => k

def RouteTask.value : RouteTask → Option (ℕ × Fd)
  | adding _ w fd _ _ => some (w, fd)
  | removing _ _ _ => none

def RouteTask.replica : RouteTask → ℕ
  | adding _ _ _ i _ => i
  | removing _ i _ => i

def SetPc.slot : SetPc → Option Slot
  | find => none
  | key r => some r
  | workerId r => some r
  | fd r => some r
  | occupied r => some r

/-- The slot that an insertion has found and not yet marked occupied. -/
def RouteTask.pending : RouteTask → Option Slot
  | adding _ _ _ _ pc => pc.slot
  | removing _ _ _ => none

def RouteTask.finds : RouteTask → Bool
  | adding _ _ _ _ .find => true
  | _ => false

def RouteTask.next (n : ℕ) (t : RouteTask) : Option RouteTask :=
  if t.replica + 1 < n then
    match t with
    | adding k w fd i _ => some (adding k w fd (i + 1) .find)
    | removing k i _ => some (removing k (i + 1) .find)
  else none

/-- One atomic step on the table of the task's replica. -/
def RouteTask.step (n : ℕ) (routes : Slot → Route) (t : RouteTask) :
    (Slot → Route) × Option RouteTask :=
  match t with
  | adding k w fd i .find =>
    match routeFind routes k with
    | none => (routes, t.next n)
    | some r => (routes, some (adding k w fd i (.key r)))
  | adding k w fd i (.key r) =>
    (Function.update routes r { routes r with key := k }, some (adding k w fd i (.workerId r)))
  | adding k w fd i (.workerId r) =>
    (Function.update routes r { routes r with workerId := w }, some (adding k w fd i (.fd r)))
  | adding k w fd i (.fd r) =>
    (Function.update routes r { routes r with fd := fd }, some (adding k w fd i (.occupied r)))
  | adding _ _ _ _ (.occupied r) =>
    (Function.update routes r { routes r with occupied := .live }, t.next n)
  | removing k i .find =>
    match routeFind routes k with
    | none => (routes, t.next n)
    | some r => (routes, some (removing k i (.check r)))
  | removing k i (.check r) =>
    if Holds routeView routes k r then (routes, some (removing k i (.occupied r)))
    else (routes, t.next n)
  | removing _ _ (.occupied r) =>
    (Function.update routes r { routes r with occupied := .tombstone }, t.next n)

inductive RouteBroadcast where
  | add (key : Key) (workerId : ℕ) (fd : Fd)
  | remove (key : Key)

def RouteBroadcast.task : RouteBroadcast → RouteTask
  | add k w fd => .adding k w fd 0 .find
  | remove k => .removing k 0 .find

/-- The routes that a sequence of broadcasts asks for: the last one of a key counts. -/
def routed (log : List RouteBroadcast) : Key → Option (ℕ × Fd) :=
  log.foldl (fun m b => Function.update m b.task.key b.task.value) fun _ => none

theorem routed_snoc (log : List RouteBroadcast) (b : RouteBroadcast) :
    routed (log ++ [b]) = Function.update (routed log) b.task.key b.task.value := by
  simp only [routed, List.foldl_append, List.foldl_cons, List.foldl_nil]

/-- The replicas, what each worker is doing to them, and the broadcasts begun so far. -/
structure RouteSys where
  replicas : ℕ → Slot → Route := fun _ _ => {}
  threads : ℕ → Option RouteTask := fun _ => none
  log : List RouteBroadcast := []

inductive RouteLabel where
  | start (v : ℕ) (b : RouteBroadcast)
  | run (v : ℕ)

namespace RouteSys

def Init (s : RouteSys) : Prop :=
  (∀ i a, (s.replicas i a).occupied = .empty) ∧ (∀ v, s.threads v = none) ∧ s.log = []

/-- An idle worker begins a broadcast of a key that no other worker is broadcasting, or a
busy one takes its next step. -/
def step (n : ℕ) (s : RouteSys) : RouteLabel → Option RouteSys
  | .start v b =>
    if v < n ∧ s.threads v = none ∧
        ∀ u < n, (s.threads u).map RouteTask.key ≠ some b.task.key then
      some { s with
        threads := Function.update s.threads v (some b.task)
        log := s.log ++ [b] }
    else none
  | .run v =>
    (s.threads v).map fun t =>
      let r := t.step n (s.replicas t.replica)
      { s with
        replicas := Function.update s.replicas t.replica r.1
        threads := Function.update s.threads v r.2 }

/-- An insertion's walk on a replica ends at a slot, and no other insertion has found that
slot there with its occupied store still to come. -/
def FindsFree (n : ℕ) (s : RouteSys) : RouteLabel → Prop
  | .start _ _ => True
  | .run v => ∀ t ∈ s.threads v, t.finds = true →
      (routeFind (s.replicas t.replica) t.key).isSome = true ∧
        ∀ u < n, ∀ t' ∈ s.threads u, t'.replica = t.replica →
          t'.pending ≠ routeFind (s.replicas t.replica) t.key

instance (n : ℕ) (s : RouteSys) (l : RouteLabel) : Decidable (FindsFree n s l) :=
  match l with
  | .start _ _ => .isTrue trivial
  | .run v => inferInstanceAs (Decidable (∀ t ∈ s.threads v, t.finds = true →
      (routeFind (s.replicas t.replica) t.key).isSome = true ∧
        ∀ u < n, ∀ t' ∈ s.threads u, t'.replica = t.replica →
          t'.pending ≠ routeFind (s.replicas t.replica) t.key))

end RouteSys

/-! ### One step on one replica -/

def SetPc.Written (e : Route) (k : Key) (w : ℕ) (fd : Fd) : SetPc → Prop
  | .find => True
  | .key _ => True
  | .workerId _ => e.key = k
  | .fd _ => e.key = k ∧ e.workerId = w
  | .occupied _ => e.key = k ∧ e.workerId = w ∧ e.fd = fd

namespace RouteTask

def Ready (routes : Slot → Route) : RouteTask → Prop
  | adding k w fd _ pc => ∀ r, pc.slot = some r →
      Fits routeView keyHash routes k r ∧ pc.Written (routes r) k w fd
  | removing _ _ .find => True
  | removing k _ (.check r) => ∀ a, Holds routeView routes k a → a = r
  | removing k _ (.occupied r) => Holds routeView routes k r

variable {t : RouteTask} {routes' : Slot → Route} {k : Key}

theorem next_some {n : ℕ} {t' : RouteTask} (h : t.next n = some t') :
    t'.key = t.key ∧ t'.value = t.value ∧ t'.replica = t.replica + 1 ∧ t.replica + 1 < n ∧
      t'.pending = none ∧ ∀ routes, t'.Ready routes := by
  unfold next at h
  split at h
  · next hn =>
    cases t with
    | adding k w fd i pc =>
      cases h
      refine ⟨rfl, rfl, rfl, hn, rfl, fun routes r hr => ?_⟩
      cases hr
    | removing k i pc =>
      cases h
      exact ⟨rfl, rfl, rfl, hn, rfl, fun _ => trivial⟩
  · cases h

theorem next_none {n : ℕ} (h : t.next n = none) : n ≤ t.replica + 1 := by
  unfold next at h
  split at h
  · cases t <;> cases h
  · omega

theorem Ready.frame {routes : Slot → Route} {a : Slot} (hw : WritesAt routeView routes routes' k a)
    (hk : t.key ≠ k) (hp : t.pending ≠ some a) (h : t.Ready routes) : t.Ready routes' := by
  cases t with
  | adding k' w fd i pc =>
    intro r hr
    obtain ⟨hf, hwr⟩ := h r hr
    have hra : r ≠ a := by
      intro he
      exact hp (he ▸ hr)
    refine ⟨hw.fits routeView keyHash hk hra hf, ?_⟩
    rwa [hw.rest r hra]
  | removing k' i pc =>
    cases pc with
    | find => trivial
    | check r => exact fun b hb => h b ((hw.holds routeView hk b).mp hb)
    | occupied r => exact (hw.holds routeView hk r).mpr h

/-- What one step of `t` does: to the table nothing that another key can see, and `t` is
over with this replica only when the replica maps its key as asked. -/
structure Effect (n : ℕ) (routes : Slot → Route) (t : RouteTask) (routes' : Slot → Route)
    (o : Option RouteTask) : Prop where
  inv : RouteInv routes'
  writes : routes' = routes ∨ ∃ a, WritesAt routeView routes routes' t.key a ∧
    (t.pending = some a ∨ Holds routeView routes t.key a)
  goes : (∃ t', o = some t' ∧ t'.key = t.key ∧ t'.value = t.value ∧ t'.replica = t.replica ∧
      t'.Ready routes' ∧
      ∀ a, t'.pending = some a → t.pending = some a ∨
        t.finds = true ∧ routeFind routes t.key = some a) ∨
    (o = t.next n ∧ routeMap routes' t.key = t.value)

variable {n : ℕ} {routes : Slot → Route}

theorem effect_store {w i : ℕ} {fd : Fd} {pc pc' : SetPc} {r : Slot} {e : Route}
    (hI : RouteInv routes) (hr : (adding k w fd i pc).Ready routes) (hs : pc.slot = some r)
    (hs' : pc'.slot = some r) (hk : e.key = k) (ho : e.occupied = (routes r).occupied)
    (hw : pc'.Written e k w fd) :
    Effect n routes (adding k w fd i pc) (Function.update routes r e)
      (some (adding k w fd i pc')) := by
  have hf := (hr r hs).1
  refine ⟨hI.hidden routeView keyHash hf hk ho, .inr ⟨r, ?_, .inl hs⟩,
    .inl ⟨_, rfl, rfl, rfl, rfl, ?_, ?_⟩⟩
  · apply hf.writesAt routeView keyHash hk
    intro hne
    rwa [show routeView.occ e = routeView.occ (routes r) from ho]
  · intro r' hr'
    obtain rfl : r = r' := Option.some.inj (hs'.symm.trans hr')
    refine ⟨hf.hidden routeView keyHash hk ho, ?_⟩
    rwa [Function.update_self]
  · intro a ha
    exact .inl (hs.trans (hs'.symm.trans ha))

theorem effect_occupied {w i : ℕ} {fd : Fd} {r : Slot} (hI : RouteInv routes)
    (hr : (adding k w fd i (.occupied r)).Ready routes) :
    Effect n routes (adding k w fd i (.occupied r))
      (Function.update routes r { routes r with occupied := .live })
      ((adding k w fd i (.occupied r)).next n) := by
  obtain ⟨hf, hk, hw, hfd⟩ := hr r rfl
  refine ⟨hI.put routeView keyHash hf rfl hk, .inr ⟨r, ?_, .inl rfl⟩, .inr ⟨rfl, ?_⟩⟩
  · apply hf.writesAt routeView keyHash (e := { routes r with occupied := .live }) hk
    exact fun _ => by simp [routeView]
  · have hmap := LinearProbe.toMap_put routeView keyHash
      (fun e : Route => (e.workerId, e.fd)) hI hf (e := { routes r with occupied := .live }) rfl hk
    rw [routeMap, hmap]
    simp only [key, value, Function.update_self, hw, hfd]

theorem effect_removing {i : ℕ} {pc : RemovePc} (hI : RouteInv routes)
    (hr : (removing k i pc).Ready routes) :
    Effect n routes (removing k i pc) ((removing k i pc).step n routes).1
      ((removing k i pc).step n routes).2 := by
  -- a walk that ends without the key leaves a table that does not map it
  have absent : (∀ a, ¬Holds routeView routes k a) →
      Effect n routes (removing k i pc) routes ((removing k i pc).next n) := by
    intro hno
    exact ⟨hI, .inl rfl, .inr ⟨rfl, LinearProbe.toMap_of_absent routeView keyHash _ hI hno⟩⟩
  cases pc with
  | find =>
    cases hf : routeFind routes k with
    | none =>
      simp only [step, hf]
      exact absent (LinearProbe.find_none routeView keyHash hf).2
    | some r =>
      simp only [step, hf]
      refine ⟨hI, .inl rfl, .inl ⟨_, rfl, rfl, rfl, rfl, fun a ha => ?_, nofun⟩⟩
      have hfa := LinearProbe.find_of_holds routeView keyHash hI ha
      exact Option.some.inj (hfa.symm.trans hf)
  | check r =>
    by_cases hh : Holds routeView routes k r
    · simp only [step, hh, if_true]
      exact ⟨hI, .inl rfl, .inl ⟨_, rfl, rfl, rfl, rfl, hh, nofun⟩⟩
    · simp only [step, hh, if_false]
      exact absent fun a ha => hh (hr a ha ▸ ha)
  | occupied r =>
    refine ⟨hI.bury routeView keyHash r rfl, .inr ⟨r, ?_, .inr hr⟩, .inr ⟨rfl, ?_⟩⟩
    · exact LinearProbe.writesAt_bury routeView hr rfl
    · have hmap := LinearProbe.toMap_bury routeView keyHash
        (fun e : Route => (e.workerId, e.fd)) hI hr
        (e := { routes r with occupied := .tombstone }) rfl
      simp only [step]
      rw [routeMap, hmap]
      exact Function.update_self ..

theorem effect (hI : RouteInv routes) (hr : t.Ready routes)
    (hfind : t.finds = true → routeFind routes t.key ≠ none) :
    Effect n routes t (t.step n routes).1 (t.step n routes).2 := by
  cases t with
  | removing k i pc => exact effect_removing hI hr
  | adding k w fd i pc =>
    cases pc with
    | find =>
      cases hf : routeFind routes k with
      | none => exact absurd hf (hfind rfl)
      | some r =>
        simp only [step, hf]
        refine ⟨hI, .inl rfl, .inl ⟨_, rfl, rfl, rfl, rfl, ?_, ?_⟩⟩
        · intro r' hr'
          cases hr'
          exact ⟨LinearProbe.find_fits routeView keyHash hI hf, trivial⟩
        · intro a ha
          exact .inr ⟨rfl, hf.trans ha⟩
    | key r => exact effect_store hI hr rfl rfl rfl rfl rfl
    | workerId r =>
      have hk := (hr r rfl).2
      exact effect_store hI hr rfl rfl hk rfl ⟨hk, rfl⟩
    | fd r =>
      obtain ⟨hk, hw⟩ := (hr r rfl).2
      exact effect_store hI hr rfl rfl hk rfl ⟨hk, hw, rfl⟩
    | occupied r => exact effect_occupied hI hr

theorem Effect.map_ne {o : Option RouteTask} (h : Effect n routes t routes' o)
    (hI : RouteInv routes) (hk : k ≠ t.key) :
    routeMap routes' k = routeMap routes k := by
  rcases h.writes with rfl | ⟨a, hw, -⟩
  · rfl
  · exact hw.toMap_eq routeView keyHash _ hI h.inv hk

theorem Effect.ready_ne {u : RouteTask} {o : Option RouteTask} (h : Effect n routes t routes' o)
    (hk : u.key ≠ t.key) (hp : ∀ a, t.pending = some a → u.pending ≠ some a) (hu : u.Ready routes) :
    u.Ready routes' := by
  rcases h.writes with rfl | ⟨a, hw, ha | ha⟩
  · exact hu
  · exact hu.frame hw hk (hp a ha)
  · apply hu.frame hw hk
    intro hpu
    -- a slot that fits another key does not hold this one
    cases u with
    | adding k w fd i pc => exact hk ((hu a hpu).1.before routeView keyHash ha).symm
    | removing k i pc => cases hpu

end RouteTask

/-! ### Runs -/

namespace RouteSys

structure RoutesInv (n : ℕ) (s : RouteSys) : Prop where
  task : ∀ v t, s.threads v = some t → v < n ∧ t.replica < n ∧ t.value = routed s.log t.key
  keys : ∀ u v t t', s.threads u = some t → s.threads v = some t' → t.key = t'.key → u = v
  probe : ∀ i, RouteInv (s.replicas i)
  ready : ∀ v t, s.threads v = some t → t.Ready (s.replicas t.replica)
  apart : ∀ u v t t' a, s.threads u = some t → s.threads v = some t' →
    t.replica = t'.replica → t.pending = some a → t'.pending = some a → u = v
  /-- a replica that no broadcast of the key has still to finish maps it as asked -/
  settled : ∀ i < n, ∀ k, (∀ v t, s.threads v = some t → t.key = k → i < t.replica) →
    routeMap (s.replicas i) k = routed s.log k

variable {s : RouteSys} {n : ℕ}

theorem routesInv_init (n : ℕ) (h : Init s) : RoutesInv n s := by
  obtain ⟨he, hidle, hlog⟩ := h
  have idle : ∀ v t, s.threads v = some t → False := by
    intro v t ht
    rw [hidle v] at ht
    cases ht
  have hmap := fun i => toMap_of_empty routeView (fun r : Route => (r.workerId, r.fd)) (he i)
  exact {
    task := fun v t ht => (idle v t ht).elim
    keys := fun u _ t _ ht => (idle u t ht).elim
    probe := fun i => (hmap i).1
    ready := fun v t ht => (idle v t ht).elim
    apart := fun u _ t _ _ ht => (idle u t ht).elim
    settled := fun i _ k _ => by
      rw [routeMap, (hmap i).2, hlog]
      rfl }

theorem task_start (b : RouteBroadcast) :
    b.task.replica = 0 ∧ b.task.pending = none ∧ ∀ routes, b.task.Ready routes := by
  cases b with
  | add k w fd => exact ⟨rfl, rfl, fun _ _ => nofun⟩
  | remove k => exact ⟨rfl, rfl, fun _ => trivial⟩

theorem RoutesInv.start (h : RoutesInv n s) {v : ℕ} {b : RouteBroadcast}
    (hv : v < n) (hidle : s.threads v = none)
    (hkey : ∀ u < n, (s.threads u).map RouteTask.key ≠ some b.task.key) :
    RoutesInv n { s with
      threads := Function.update s.threads v (some b.task)
      log := s.log ++ [b] } := by
  obtain ⟨h0, hpend, hready⟩ := task_start b
  -- a thread is the new one or an old one with another key
  have cases_thread : ∀ u t, Function.update s.threads v (some b.task) u = some t →
      u = v ∧ t = b.task ∨ u ≠ v ∧ s.threads u = some t ∧ t.key ≠ b.task.key := by
    intro u t hu
    by_cases huv : u = v
    · rw [huv, Function.update_self] at hu
      exact .inl ⟨huv, (Option.some.inj hu).symm⟩
    · rw [Function.update_of_ne huv] at hu
      refine .inr ⟨huv, hu, fun he => ?_⟩
      apply hkey u (h.task u t hu).1
      rw [hu, Option.map_some, he]
  have hother : ∀ k, k ≠ b.task.key → routed (s.log ++ [b]) k = routed s.log k := by
    intro k hk
    rw [routed_snoc, Function.update_of_ne hk]
  constructor
  · intro u t hu
    rcases cases_thread u t hu with ⟨rfl, rfl⟩ | ⟨-, hu, hk⟩
    · refine ⟨hv, by omega, ?_⟩
      rw [routed_snoc, Function.update_self]
    · obtain ⟨h1, h2, h3⟩ := h.task u t hu
      exact ⟨h1, h2, h3.trans (hother _ hk).symm⟩
  · intro u u' t t' hu hu' he
    rcases cases_thread u t hu with ⟨rfl, rfl⟩ | ⟨-, hu, hk⟩ <;>
      rcases cases_thread u' t' hu' with ⟨rfl, rfl⟩ | ⟨-, hu', hk'⟩
    · rfl
    · exact absurd he.symm hk'
    · exact absurd he hk
    · exact h.keys u u' t t' hu hu' he
  · exact h.probe
  · intro u t hu
    rcases cases_thread u t hu with ⟨rfl, rfl⟩ | ⟨-, hu, -⟩
    · exact hready _
    · exact h.ready u t hu
  · intro u u' t t' a hu hu' hi ha ha'
    rcases cases_thread u t hu with ⟨rfl, rfl⟩ | ⟨-, hu, -⟩
    · rw [hpend] at ha
      cases ha
    · rcases cases_thread u' t' hu' with ⟨rfl, rfl⟩ | ⟨-, hu', -⟩
      · rw [hpend] at ha'
        cases ha'
      · exact h.apart u u' t t' a hu hu' hi ha ha'
  · intro i hi k hk
    by_cases hkb : k = b.task.key
    · have hlt := hk v b.task (Function.update_self ..) hkb.symm
      omega
    · rw [hother k hkb]
      apply h.settled i hi k
      intro u t hu htk
      have huv : u ≠ v := by
        rintro rfl
        rw [hidle] at hu
        cases hu
      exact hk u t ((Function.update_of_ne huv ..).trans hu) htk

theorem RoutesInv.after (h : RoutesInv n s) {v : ℕ} {t t' : RouteTask} (hv : s.threads v = some t)
    (hok : FindsFree n s (.run v)) {routes' : Slot → Route}
    (he : t.Effect n (s.replicas t.replica) routes' (some t')) :
    t'.key = t.key ∧ t'.value = t.value ∧ t.replica ≤ t'.replica ∧ t'.replica < n ∧
      t'.Ready (Function.update s.replicas t.replica routes' t'.replica) ∧
      ∀ a, t'.pending = some a → ∀ u t'', u ≠ v → s.threads u = some t'' →
        t'.replica = t''.replica → t''.pending ≠ some a := by
  obtain ⟨-, hin, -⟩ := h.task v t hv
  rcases he.goes with ⟨t1, h1, hk, hval, hi, hready, hpend⟩ | ⟨hn, -⟩
  · obtain rfl := Option.some.inj h1
    refine ⟨hk, hval, by omega, by omega, ?_, ?_⟩
    · rwa [hi, Function.update_self]
    · intro a ha u t'' huv hu hi'
      rcases hpend a ha with ha | ⟨hfinds, hfa⟩
      · intro hua
        exact huv (h.apart u v t'' t a hu hv (by omega) hua ha)
      · have hfree := (hok t hv hfinds).2 u (h.task u t'' hu).1 t'' hu (by omega)
        rwa [hfa] at hfree
  · obtain ⟨hk, hval, hi, hlt, hpend, hready⟩ := RouteTask.next_some hn.symm
    refine ⟨hk, hval, by omega, by omega, hready _, ?_⟩
    intro a ha
    rw [hpend] at ha
    cases ha

theorem RoutesInv.run (h : RoutesInv n s) {v : ℕ} {t : RouteTask} (hv : s.threads v = some t)
    (hok : FindsFree n s (.run v)) {routes' : Slot → Route} {o : Option RouteTask}
    (he : t.Effect n (s.replicas t.replica) routes' o) :
    RoutesInv n { s with
      replicas := Function.update s.replicas t.replica routes'
      threads := Function.update s.threads v o } := by
  obtain ⟨hvn, hin, hval⟩ := h.task v t hv
  have cases_thread : ∀ u t', Function.update s.threads v o u = some t' →
      u = v ∧ o = some t' ∨ u ≠ v ∧ s.threads u = some t' ∧ t'.key ≠ t.key := by
    intro u t' hu
    by_cases huv : u = v
    · rw [huv, Function.update_self] at hu
      exact .inl ⟨huv, hu⟩
    · rw [Function.update_of_ne huv] at hu
      exact .inr ⟨huv, hu, fun hk => huv (h.keys u v t' t hu hv hk)⟩
  have hafter := fun (t' : RouteTask) (ho : o = some t') =>
    @RoutesInv.after s n h v t t' hv hok routes' (ho ▸ he)
  constructor
  · intro u t' hu
    rcases cases_thread u t' hu with ⟨rfl, ho⟩ | ⟨-, hu, -⟩
    · obtain ⟨hk, hv', -, hi, -⟩ := hafter t' ho
      exact ⟨hvn, hi, by rw [hv', hval, hk]⟩
    · exact h.task u t' hu
  · intro u u' t1 t2 hu hu' hk
    rcases cases_thread u t1 hu with ⟨rfl, ho⟩ | ⟨-, hu, hk1⟩ <;>
      rcases cases_thread u' t2 hu' with ⟨rfl, ho'⟩ | ⟨-, hu', hk2⟩
    · rfl
    · exact absurd (hk.symm.trans (hafter t1 ho).1) hk2
    · exact absurd (hk.trans (hafter t2 ho').1) hk1
    · exact h.keys u u' t1 t2 hu hu' hk
  · intro i
    by_cases hi : i = t.replica
    · simp only [hi, Function.update_self]
      exact he.inv
    · simp only [Function.update_of_ne hi]
      exact h.probe i
  · intro u t' hu
    rcases cases_thread u t' hu with ⟨rfl, ho⟩ | ⟨huv, hu, hk⟩
    · exact (hafter t' ho).2.2.2.2.1
    · by_cases hi : t'.replica = t.replica
      · simp only [hi, Function.update_self]
        apply he.ready_ne hk
        · intro a ha hua
          exact huv (h.apart u v t' t a hu hv hi hua ha)
        · rw [← hi]
          exact h.ready u t' hu
      · simp only [Function.update_of_ne hi]
        exact h.ready u t' hu
  · intro u u' t1 t2 a hu hu' hi ha ha'
    rcases cases_thread u t1 hu with ⟨rfl, ho⟩ | ⟨huv, hold, -⟩ <;>
      rcases cases_thread u' t2 hu' with ⟨rfl, ho'⟩ | ⟨huv', hold', -⟩
    · rfl
    · exact absurd ha' ((hafter t1 ho).2.2.2.2.2 a ha u' t2 huv' hold' hi)
    · exact absurd ha ((hafter t2 ho').2.2.2.2.2 a ha' u t1 huv hold hi.symm)
    · exact h.apart u u' t1 t2 a hold hold' hi ha ha'
  · intro i hi k hk
    -- the other workers are where they were
    have others : (∀ v' t', v' = v → s.threads v' = some t' → t'.key = k → i < t'.replica) →
        ∀ v' t', s.threads v' = some t' → t'.key = k → i < t'.replica := by
      intro hmine u t' hu htk
      by_cases huv : u = v
      · exact hmine u t' huv hu htk
      · exact hk u t' ((Function.update_of_ne huv ..).trans hu) htk
    by_cases hit : i = t.replica
    · subst hit
      simp only [Function.update_self]
      by_cases hkt : k = t.key
      · subst hkt
        rcases he.goes with ⟨t', ho, hk', -, hi', -⟩ | ⟨-, hmap⟩
        · have hlt := hk v t' ((Function.update_self ..).trans ho) hk'
          omega
        · rw [hmap, hval]
      · rw [he.map_ne (h.probe _) hkt]
        apply h.settled _ hi k
        apply others
        rintro _ t' rfl hv' hk'
        obtain rfl := Option.some.inj (hv.symm.trans hv')
        exact absurd hk'.symm hkt
    · simp only [Function.update_of_ne hit]
      apply h.settled i hi k
      apply others
      rintro _ t' rfl hv' hk'
      obtain rfl := Option.some.inj (hv.symm.trans hv')
      -- this task has left replica `i` behind only if it is on a later one
      rcases he.goes with ⟨t', ho, hkey, -, hi', -⟩ | ⟨ho, -⟩
      · have hlt := hk _ t' ((Function.update_self ..).trans ho) (hkey.trans hk')
        omega
      · cases hn : t.next n with
        | none =>
          have hle := RouteTask.next_none hn
          omega
        | some t' =>
          obtain ⟨hkey, -, hi', -⟩ := RouteTask.next_some hn
          have hlt := hk _ t' ((Function.update_self ..).trans (ho.trans hn)) (hkey.trans hk')
          omega

theorem routesInv_step {s' : RouteSys} {l : RouteLabel} (h : RoutesInv n s) (hok : FindsFree n s l)
    (hs : step n s l = some s') : RoutesInv n s' := by
  cases l with
  | start v b =>
    simp only [step, Option.ite_none_right_eq_some, Option.some.injEq] at hs
    obtain ⟨⟨hv, hidle, hkey⟩, rfl⟩ := hs
    exact h.start hv hidle hkey
  | run v =>
    simp only [step, Option.map_eq_some_iff] at hs
    obtain ⟨t, hv, rfl⟩ := hs
    apply h.run hv hok
    apply RouteTask.effect (h.probe _) (h.ready v t hv)
    intro hf hnone
    have hsome := (hok t hv hf).1
    rw [hnone] at hsome
    cases hsome

/-- If every insertion finds a slot that no other insertion is still filling, then once all
broadcasts are over every replica maps what they asked for. -/
theorem replicas_agree {n : ℕ} {s : RouteSys} (h : Runs.Reach Init (step n) (FindsFree n) s)
    (hidle : ∀ v, s.threads v = none) :
    ∀ i < n, routeMap (s.replicas i) = routed s.log := by
  have hinv := h.invariant (P := RoutesInv n) (fun _ h0 => routesInv_init n h0)
    fun _ _ _ hi hok hs => routesInv_step hi hok hs
  intro i hi
  funext k
  apply hinv.settled i hi k
  intro v t ht
  rw [hidle v] at ht
  cases ht

/-- A key whose probe starts where that of `byteKey 4` does. -/
def sameHomeKey : Key := ⟨65 :: 31 :: List.replicate 30 0, by simp [kKeySize]⟩

/-- Both keys are added by the workers that `PeerWorker` picks; each finds the same empty
slot of replica 0 before the other has filled it. -/
def twoInserts : List RouteLabel :=
  ([.start 2 (.add (byteKey 4) 2 8), .start 1 (.add sameHomeKey 1 9), .run 2, .run 1] :
    List RouteLabel) ++ List.replicate 14 (RouteLabel.run 2) ++ List.replicate 14 (RouteLabel.run 1)

theorem threads_lt {ok : RouteSys → RouteLabel → Prop} (h : Runs.Reach Init (step n) ok s) :
    ∀ v, n ≤ v → s.threads v = none := by
  induction h with
  | start s h0 => exact fun v _ => h0.2.1 v
  | next s s' l _ _ hs ih =>
    intro v hv
    cases l with
    | start u b =>
      simp only [step, Option.ite_none_right_eq_some, Option.some.injEq] at hs
      obtain ⟨⟨hu, -⟩, rfl⟩ := hs
      exact (Function.update_of_ne (by omega) ..).trans (ih v hv)
    | run u =>
      simp only [step, Option.map_eq_some_iff] at hs
      obtain ⟨t, hu, rfl⟩ := hs
      refine (Function.update_of_ne ?_ ..).trans (ih v hv)
      rintro rfl
      rw [ih v hv] at hu
      cases hu

/-- Two insertions that chose one free slot: the route of the first is gone from replica 0. -/
theorem concurrent_inserts_lose_route :
    ¬∀ (n : ℕ) (s : RouteSys), Runs.Reach Init (step n) Runs.Any s →
      (∀ v, s.threads v = none) → ∀ i < n, routeMap (s.replicas i) = routed s.log := by
  intro hall
  have hrun : (Runs.run (step 3) {} twoInserts).map (fun s : RouteSys =>
      (decide (∀ v : ℕ, v < 3 → s.threads v = none), routeMap (s.replicas 0) (byteKey 4),
        routed s.log (byteKey 4))) = some (true, none, some (2, 8)) := by
    decide
  obtain ⟨s, hs, hx⟩ := Option.map_eq_some_iff.mp hrun
  simp only [Prod.mk.injEq, decide_eq_true_eq] at hx
  obtain ⟨hidle, hmap, hlog⟩ := hx
  have hreach : Runs.Reach Init (step 3) Runs.Any s :=
    Runs.reach_of_run ⟨fun _ _ => rfl, fun _ => rfl, rfl⟩ hs
  have hall0 := hall 3 s hreach (fun v => ?_) 0 (by omega)
  · have hbad := congrFun hall0 (byteKey 4)
    rw [hmap, hlog] at hbad
    cases hbad
  · by_cases hv : v < 3
    · exact hidle v hv
    · exact threads_lt hreach v (by omega)

/-- Two insertions in step with each other, at different slots. -/
def twoSlots : List RouteLabel :=
  ([.start 0 (.add (byteKey 1) 0 8), .start 1 (.add (byteKey 2) 1 9), .run 0, .run 1] :
    List RouteLabel) ++ List.replicate 9 (RouteLabel.run 0) ++ List.replicate 9 (RouteLabel.run 1)

theorem replicas_agree_two_slots :
    ∃ s, Runs.run (Runs.guarded (step 2) (FindsFree 2)) {} twoSlots = some s ∧
      ∀ i < 2, routeMap (s.replicas i) = routed s.log := by
  have hrun : (Runs.run (Runs.guarded (step 2) (FindsFree 2)) {} twoSlots).map
      (fun s : RouteSys => ((s.threads 0).isNone, (s.threads 1).isNone)) =
      some (true, true) := by
    decide
  obtain ⟨s, hs, hx⟩ := Option.map_eq_some_iff.mp hrun
  simp only [Prod.mk.injEq, Option.isNone_iff_eq_none] at hx
  have hreach : Runs.Reach Init (step 2) (FindsFree 2) s :=
    Runs.reach_of_guarded (.start {} ⟨fun _ _ => rfl, fun _ => rfl, rfl⟩) hs
  refine ⟨s, hs, replicas_agree hreach fun v => ?_⟩
  by_cases hv : v < 2
  · have hcases : v = 0 ∨ v = 1 := by omega
    rcases hcases with rfl | rfl
    · exact hx.1
    · exact hx.2
  · exact threads_lt hreach v (by omega)

end RouteSys

end HyperDerp
