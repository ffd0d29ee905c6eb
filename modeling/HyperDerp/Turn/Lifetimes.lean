import HyperDerp.Turn.Allocations

/-!
# Lifetimes of TURN allocations (`turn.cc:51-113`, `:266-306`)

`TurnAllocate` takes a lifetime that is not positive for the default one, `TurnRefresh`
only one that is too long. A negative lifetime is cast to 64 bits.
-/

namespace HyperDerp

namespace TurnManager

/-- `kTurnMaxLifetime` in nanoseconds. -/
def kTurnMaxLifetimeNs : ℕ := 3600 * 1000000000

variable {mgr mgr' : TurnManager} {i j : Fin kTurnMaxAllocations} {now : ℕ} {s s' : ℕ × TurnManager}

/-! ### A sweep, slot by slot -/

/-- What `TurnExpire` leaves in a slot. -/
def expireAlloc (now : ℕ) (a : TurnAllocation) : TurnAllocation :=
  if !a.occupied then a
  else if a.expiresAt ≤ now then {}
  else { a with
    permissions := fun j => expirePermission now (a.permissions j)
    channels := fun j => expireChannel now (a.channels j) }

theorem expireSlot_allocs (r : ℕ × TurnManager) (j : Fin kTurnMaxAllocations) :
    (expireSlot now r i).2.allocs j =
      if j = i then expireAlloc now (r.2.allocs i) else r.2.allocs j := by
  unfold expireSlot expireAlloc release
  dsimp only
  by_cases hj : j = i
  · rw [if_pos hj, hj]
    split
    · rfl
    split
    · exact Function.update_self ..
    · exact Function.update_self ..
  · rw [if_neg hj]
    split
    · rfl
    split
    · exact Function.update_of_ne hj ..
    · exact Function.update_of_ne hj ..

theorem foldl_expireSlot (now : ℕ) (is : List (Fin kTurnMaxAllocations)) (hnodup : is.Nodup)
    (r : ℕ × TurnManager) (j : Fin kTurnMaxAllocations) :
    (is.foldl (expireSlot now) r).2.allocs j =
      if j ∈ is then expireAlloc now (r.2.allocs j) else r.2.allocs j := by
  induction is generalizing r with
  | nil => rfl
  | cons i is ih =>
    rw [List.nodup_cons] at hnodup
    rw [List.foldl_cons, ih hnodup.2]
    simp only [expireSlot_allocs, List.mem_cons]
    by_cases hj : j = i
    · have hnot : j ∉ is := by
        rw [hj]
        exact hnodup.1
      simp [hj, hnodup.1]
    · simp [hj]

theorem left_eq {A : Type} (r : A × TurnManager) : left r = r.2 := rfl

theorem turnExpire_eq (mgr : TurnManager) (now : ℕ) : mgr.turnExpire now =
    (List.finRange kTurnMaxAllocations).foldl (expireSlot now) (0, mgr) := by
  unfold turnExpire
  rfl

theorem expire_allocs (mgr : TurnManager) (now : ℕ) (j : Fin kTurnMaxAllocations) :
    (left (mgr.turnExpire now)).allocs j = expireAlloc now (mgr.allocs j) := by
  have hfold := foldl_expireSlot now (List.finRange kTurnMaxAllocations)
    (List.nodup_finRange _) (0, mgr) j
  rw [left_eq, turnExpire_eq, hfold, if_pos (List.mem_finRange j)]

theorem expire_live : (left (mgr.turnExpire now)).Live j ↔
    mgr.Live j ∧ now < (mgr.allocs j).expiresAt := by
  unfold Live
  rw [expire_allocs]
  unfold expireAlloc
  split
  · next hfree => simp_all
  · next hocc =>
    split
    · next hle => simp [hle]
    · next hlt => simp_all

theorem expire_expiresAt (h : (left (mgr.turnExpire now)).Live j) :
    ((left (mgr.turnExpire now)).allocs j).expiresAt = (mgr.allocs j).expiresAt := by
  have hlive := expire_live.mp h
  unfold Live at hlive
  rw [expire_allocs]
  unfold expireAlloc
  simp [hlive.1, not_le.mpr hlive.2]

/-! ### What a call does to the expiry of a slot -/

/-- The lifetime that `TurnAllocate` takes a requested one for. -/
def requested (lifetime : ℤ) : ℤ := if lifetime ≤ 0 then kTurnDefaultLifetime else lifetime

inductive Source (mgr : TurnManager) (now : ℕ) (i : Fin kTurnMaxAllocations) (expiresAt : ℕ) :
    Op → Prop where
  | kept (op : Op) : mgr.Live i → expiresAt = (mgr.allocs i).expiresAt → Source mgr now i expiresAt op
  | made (ip port : ℕ) (lifetime : ℤ) : ¬mgr.Live i →
      expiresAt = expiry now (clampLifetime (requested lifetime)) →
      Source mgr now i expiresAt (.allocate ip port lifetime)
  | refreshed (allocId : ℕ) (lifetime : ℤ) : mgr.findId allocId = some i → lifetime ≠ 0 →
      expiresAt = expiry now (clampLifetime lifetime) →
      Source mgr now i expiresAt (.refresh allocId lifetime)

theorem release_live (h : (mgr.release i).Live j) :
    mgr.Live j ∧ ((mgr.release i).allocs j).expiresAt = (mgr.allocs j).expiresAt := by
  unfold Live release at *
  dsimp only at *
  by_cases hj : j = i
  · simp [hj] at h
  · simp_all

theorem allocate_source (ip port : ℕ) (lifetime : ℤ)
    (h : (left (mgr.turnAllocate now ip port lifetime)).Live i) :
    Source mgr now i ((left (mgr.turnAllocate now ip port lifetime)).allocs i).expiresAt
      (.allocate ip port lifetime) := by
  rw [left_eq] at h ⊢
  unfold turnAllocate at h ⊢
  by_cases hfull : (kTurnMaxAllocations : ℤ) ≤ mgr.allocCount
  · simp only [hfull, if_true] at h ⊢
    exact .kept _ h rfl
  cases hscan : FrontScan.first mgr.allocs fun a => !a.occupied with
  | none =>
    simp only [hfull, if_false, hscan] at h ⊢
    exact .kept _ h rfl
  | some k =>
    have hfree := FrontScan.first_some hscan
    simp only [hfull, if_false, hscan] at h ⊢
    by_cases hik : i = k
    · subst hik
      simp only [Function.update_self]
      exact .made _ _ _ (by simpa [Live] using hfree) rfl
    · unfold Live at h
      simp only [Function.update_of_ne hik] at h ⊢
      exact .kept _ h rfl

theorem refresh_source (allocId : ℕ) (lifetime : ℤ)
    (h : (left (mgr.turnRefresh now allocId lifetime)).Live i) :
    Source mgr now i ((left (mgr.turnRefresh now allocId lifetime)).allocs i).expiresAt
      (.refresh allocId lifetime) := by
  rw [left_eq] at h ⊢
  unfold turnRefresh at h ⊢
  cases hfind : mgr.findId allocId with
  | none =>
    simp only [hfind] at h ⊢
    exact .kept _ h rfl
  | some k =>
    simp only [hfind] at h ⊢
    by_cases hzero : lifetime = 0
    · simp only [hzero, if_true] at h ⊢
      exact .kept _ (release_live h).1 (release_live h).2
    · simp only [hzero, if_false] at h ⊢
      by_cases hik : i = k
      · subst hik
        simp only [Function.update_self]
        exact .refreshed _ _ hfind hzero rfl
      · unfold Live at h
        simp only [Function.update_of_ne hik] at h ⊢
        exact .kept _ h rfl

theorem deallocate_source (allocId : ℕ) (h : (mgr.turnDeallocate allocId).Live i) :
    Source mgr now i ((mgr.turnDeallocate allocId).allocs i).expiresAt (.deallocate allocId) := by
  unfold turnDeallocate at *
  cases hfind : mgr.findId allocId with
  | none =>
    simp only [hfind] at h ⊢
    exact .kept _ h rfl
  | some k =>
    simp only [hfind] at h ⊢
    exact .kept _ (release_live h).1 (release_live h).2

theorem apply_source {op : Op} (h : (mgr.apply now op).Live i) :
    Source mgr now i ((mgr.apply now op).allocs i).expiresAt op := by
  cases op with
  | allocate ip port lifetime =>
    simp only [apply] at h ⊢
    exact allocate_source ip port lifetime h
  | refresh allocId lifetime =>
    simp only [apply] at h ⊢
    exact refresh_source allocId lifetime h
  | deallocate allocId =>
    simp only [apply] at h ⊢
    exact deallocate_source allocId h
  | expire =>
    simp only [apply] at h ⊢
    exact .kept _ (expire_live.mp h).1 (expire_expiresAt h)

/-! ### Runs -/

/-- The clock is a signed one of 64 bits, in nanoseconds. -/
def Clocked (_ : ℕ × TurnManager) (l : ℕ × Op) : Prop := l.1 < 2 ^ 63

/-- A negative lifetime does not reach back before the start of the clock. -/
def inTime (s : ℕ × TurnManager) (l : ℕ × Op) : Prop :=
  Clocked s l ∧ ∀ allocId lifetime i, l.2 = .refresh allocId lifetime →
    s.2.findId allocId = some i → (0 : ℤ) ≤ l.1 + lifetime * 1000000000

def Untouched (i : Fin kTurnMaxAllocations) (s : ℕ × TurnManager) (l : ℕ × Op) : Prop :=
  s.2.Live i ∧ ∀ allocId lifetime, l.2 = .refresh allocId lifetime → s.2.findId allocId ≠ some i

/-- No allocation outlives the longest lifetime from now, unless it is refreshed. -/
structure Bounded (s : ℕ × TurnManager) : Prop where
  bound : ∀ i, s.2.Live i → (s.2.allocs i).expiresAt ≤ s.1 + kTurnMaxLifetimeNs
  freed : ∀ i s', Runs.Reach (fun s0 => s0 = s) step (Untouched i) s' →
    ∀ now, s.1 + kTurnMaxLifetimeNs ≤ now → ¬(left (s'.2.turnExpire now)).Live i

def Op.seconds : Op → ℤ
  | .allocate _ _ lifetime => clampLifetime (requested lifetime)
  | .refresh _ lifetime => clampLifetime lifetime
  | _ => 0

/-- Lifetimes are of C type `int`. -/
def Op.IntArg : Op → Prop
  | .allocate _ _ lifetime | .refresh _ lifetime => -2 ^ 31 ≤ lifetime ∧ lifetime < 2 ^ 31
  | _ => True

/-- An expiry that the call writes is the sum of the time and the lifetime, with no wrap. -/
def Exact (s : ℕ × TurnManager) (l : ℕ × Op) : Prop :=
  ∀ i, (s.2.apply l.1 l.2).Live i →
    (s.2.Live i ∧ ((s.2.apply l.1 l.2).allocs i).expiresAt = (s.2.allocs i).expiresAt) ∨
      (((s.2.apply l.1 l.2).allocs i).expiresAt : ℤ) = l.1 + l.2.seconds * 1000000000

theorem expiry_eq {seconds : ℤ} (hclock : now < 2 ^ 63) (hseconds : seconds ≤ kTurnMaxLifetime)
    (hstart : 0 ≤ now + seconds * 1000000000) :
    (expiry now seconds : ℤ) = now + seconds * 1000000000 := by
  unfold expiry kTurnMaxLifetime at *
  omega

theorem clampLifetime_le (lifetime : ℤ) : clampLifetime lifetime ≤ kTurnMaxLifetime := by
  unfold clampLifetime
  split <;> omega

theorem clampLifetime_start {lifetime : ℤ} (h : 0 ≤ now + lifetime * 1000000000) :
    0 ≤ now + clampLifetime lifetime * 1000000000 := by
  unfold clampLifetime kTurnMaxLifetime
  split <;> omega

theorem requested_pos (lifetime : ℤ) : 0 < requested lifetime := by
  unfold requested kTurnDefaultLifetime
  split <;> omega

theorem expiry_wraps {lifetime : ℤ} (hint : -2 ^ 31 ≤ lifetime)
    (h : now + lifetime * 1000000000 < 0) :
    now + kTurnMaxLifetimeNs < expiry now (clampLifetime lifetime) := by
  unfold expiry clampLifetime kTurnMaxLifetime kTurnMaxLifetimeNs
  split <;> omega

theorem step_eq {l : ℕ × Op} (hs : step s l = some s') :
    s.1 ≤ l.1 ∧ s' = (l.1, s.2.apply l.1 l.2) := by
  unfold step at hs
  generalize s.2.apply l.1 l.2 = mgr at hs ⊢
  split at hs
  · next hle => exact ⟨hle, (Option.some.inj hs).symm⟩
  · cases hs

theorem inTime.exact {l : ℕ × Op} (h : inTime s l) : Exact s l := by
  obtain ⟨now, op⟩ := l
  obtain ⟨hclock, hrefresh⟩ := h
  intro i hlive
  generalize hexp : ((s.2.apply now op).allocs i).expiresAt = expiresAt
  have hsource := apply_source hlive
  rw [hexp] at hsource
  cases hsource with
  | kept _ hwas hsame => exact .inl ⟨hwas, hsame⟩
  | made ip port lifetime _ hwrite =>
    have hpos := requested_pos lifetime
    refine .inr ?_
    rw [hwrite, expiry_eq hclock (clampLifetime_le _) (clampLifetime_start (by omega))]
    rfl
  | refreshed allocId lifetime hfind _ hwrite =>
    refine .inr ?_
    rw [hwrite, expiry_eq hclock (clampLifetime_le _)
      (clampLifetime_start (hrefresh allocId lifetime i rfl hfind))]
    rfl

def Capped (s : ℕ × TurnManager) : Prop :=
  ∀ i, s.2.Live i → (s.2.allocs i).expiresAt ≤ s.1 + kTurnMaxLifetimeNs

theorem Op.seconds_le (op : Op) : op.seconds ≤ kTurnMaxLifetime := by
  cases op with
  | allocate _ _ lifetime => exact clampLifetime_le _
  | refresh _ lifetime => exact clampLifetime_le _
  | deallocate _ => exact Int.le.intro 3600 rfl
  | expire => exact Int.le.intro 3600 rfl

theorem Capped.step {l : ℕ × Op} (h : Capped s) (hok : inTime s l) (hs : step s l = some s') :
    Capped s' := by
  obtain ⟨hle, rfl⟩ := step_eq hs
  intro i hlive
  have hseconds := l.2.seconds_le
  unfold kTurnMaxLifetime at hseconds
  unfold kTurnMaxLifetimeNs
  dsimp only at hlive ⊢
  obtain ⟨hwas, hsame⟩ | hwrite := hok.exact i hlive
  · have hold := h i hwas
    unfold kTurnMaxLifetimeNs at hold
    omega
  · omega

theorem Capped.inTime {l : ℕ × Op} (h : Capped s') (hclock : Clocked s l) (hint : l.2.IntArg)
    (hs : TurnManager.step s l = some s') : inTime s l := by
  obtain ⟨-, rfl⟩ := step_eq hs
  refine ⟨hclock, fun allocId lifetime i hop hfind => ?_⟩
  rw [hop] at hint h
  by_contra hneg
  have hzero : lifetime ≠ 0 := by omega
  have hwraps := expiry_wraps hint.1 (not_le.mp hneg)
  have hlive := findId_live hfind
  have hrefreshed : (s.2.apply l.1 (.refresh allocId lifetime)) = { s.2 with
      allocs := Function.update s.2.allocs i
        { s.2.allocs i with expiresAt := expiry l.1 (clampLifetime lifetime) } } := by
    simp only [apply, left_eq]
    unfold turnRefresh
    simp only [hfind, hzero, if_false]
  have hcap := h i
  unfold Live at hcap hlive
  simp only [hrefreshed, Function.update_self] at hcap
  exact absurd (hcap hlive) (not_le.mpr hwraps)

theorem untouched_kept {i : Fin kTurnMaxAllocations}
    (h : Runs.Reach (fun s0 => s0 = s) step (Untouched i) s') (hlive : s'.2.Live i) :
    s.2.Live i ∧ (s'.2.allocs i).expiresAt = (s.2.allocs i).expiresAt := by
  induction h with
  | start s0 h0 =>
    rw [h0] at hlive ⊢
    exact ⟨hlive, rfl⟩
  | next s1 s2 l _ hok hs ih =>
    obtain ⟨now, op⟩ := l
    obtain ⟨-, rfl⟩ := step_eq hs
    obtain ⟨hfirst, hsame⟩ := ih hok.1
    have hsource := apply_source hlive
    rw [← hsame]
    refine ⟨hfirst, ?_⟩
    generalize ((s1.2.apply now op).allocs i).expiresAt = expiresAt at hsource ⊢
    cases hsource with
    | kept _ _ hkept => exact hkept
    | made _ _ _ hnot _ => exact absurd hok.1 hnot
    | refreshed _ _ hfind _ _ => exact absurd hfind (hok.2 _ _ rfl)

theorem Capped.bounded (h : Capped s) : Bounded s := by
  refine ⟨h, fun i s' hreach now hnow hleft => ?_⟩
  obtain ⟨hlive, hlt⟩ := expire_live.mp hleft
  obtain ⟨hfirst, hsame⟩ := untouched_kept hreach hlive
  have hcap := h i hfirst
  omega

theorem capped_of_reach (h : Runs.Reach Init step inTime s) : Capped s := by
  apply Runs.Reach.invariant _ _ h
  · rintro _ ⟨now, relayIp, rfl⟩ i hi
    exact absurd hi Bool.false_ne_true
  · exact fun s s' l ih hok hs => ih.step hok hs

theorem lifetimes_bounded (h : Runs.Reach Init step inTime s) :
    Bounded s ∧ ∀ l s', Clocked s l → l.2.IntArg → step s l = some s' →
      (Bounded s' ↔ inTime s l) ∧ (inTime s l → Exact s l) := by
  have hcap := capped_of_reach h
  refine ⟨hcap.bounded, fun l s' hclock hint hs => ⟨⟨fun hb => ?_, fun hok => ?_⟩, ?_⟩⟩
  · exact Capped.inTime hb.bound hclock hint hs
  · exact (hcap.step hok hs).bounded
  · exact fun hok => hok.exact

theorem churned_inTime : Runs.Reach Init step inTime (0, churned 0) := by
  refine .next (0, {}) _ (0, .allocate 1 1 0) (.start _ ⟨0, 0, rfl⟩) ?_ ?_
  · refine ⟨Nat.two_pow_pos 63, fun allocId lifetime i hop => ?_⟩
    cases hop
  · rw [← churned_zero]
    rfl

theorem churned_found : (churned 0).findId 1 = some slotZero := by
  apply FrontScan.first_eq_some
  · rw [slotZero_churned]
    rfl
  · exact fun j hj => absurd hj (Nat.not_lt_zero _)

/-- The first allocation after five minutes, with its expiry a minute before. -/
def shortened : TurnManager :=
  { churned 0 with
    allocs := Function.update (churned 0).allocs slotZero
      { shortAllocation 1 kTurnFirstPort with expiresAt := 240000000000 } }

theorem churned_shortened : (churned 0).apply 300000000000 (.refresh 1 (-60)) = shortened := by
  have hexpiry : expiry 300000000000 (clampLifetime (-60)) = 240000000000 := by decide
  simp only [apply, left_eq]
  unfold turnRefresh shortened
  simp only [churned_found, slotZero_churned, hexpiry]
  rfl

theorem shortened_inTime : Runs.Reach Init step inTime (300000000000, shortened) := by
  refine .next _ _ (300000000000, .refresh 1 (-60)) churned_inTime ⟨?_, ?_⟩ ?_
  · unfold Clocked
    decide
  · intro allocId lifetime i hop _
    cases hop
    decide
  · unfold step
    dsimp only
    rw [churned_shortened, if_pos (Nat.zero_le _)]

theorem lifetimes_bounded_shortened : Bounded (300000000000, shortened) ∧
    (shortened.allocs slotZero).expiresAt = 240000000000 ∧
      ¬(left (shortened.turnExpire 300000000000)).Live slotZero := by
  have hexpires : (shortened.allocs slotZero).expiresAt = 240000000000 := by
    unfold shortened
    dsimp only
    rw [Function.update_self]
  refine ⟨(lifetimes_bounded shortened_inTime).1, hexpires, fun hlive => ?_⟩
  have hlater := (expire_live.mp hlive).2
  rw [hexpires] at hlater
  exact absurd hlater (by decide)

/-- A refresh of the first allocation with the most negative lifetime. -/
theorem negative_unbounded : ¬∀ s, Runs.Reach Init step Clocked s → Bounded s := by
  intro h
  have hreach : Runs.Reach Init step Clocked (0, churned 0) :=
    churned_inTime.mono fun _ _ hok => hok.1
  have hclock : Clocked (0, churned 0) (0, .refresh 1 (-2147483648)) := Nat.two_pow_pos 63
  have hint : (Op.refresh 1 (-2147483648)).IntArg := ⟨by decide, by decide⟩
  have hs : step (0, churned 0) (0, .refresh 1 (-2147483648)) =
      some (0, (churned 0).apply 0 (.refresh 1 (-2147483648))) := rfl
  have hcap := (h _ (.next _ _ _ hreach hclock hs)).bound
  have hok := Capped.inTime hcap hclock hint hs
  have hneg := hok.2 1 (-2147483648) slotZero rfl churned_found
  exact absurd hneg (by decide)

end TurnManager

end HyperDerp
