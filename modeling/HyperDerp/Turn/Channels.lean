import HyperDerp.Turn.Lifetimes

/-!
# Channel bindings (`turn.cc:195-306`)

An allocation binds channel numbers to peers for ten minutes. The scan of
`TurnChannelBind` goes by number alone and does not look at the expiry, which
`TurnFindChannel` and the sweep do.
-/

namespace HyperDerp

def kTurnChannelMin : ℕ := 0x4000
def kTurnChannelMax : ℕ := 0x7FFF

namespace TurnManager

abbrev Channels : Type := Fin kTurnMaxChannels → TurnChannel

/-- `NowNs() + 600ULL * 1000000000ULL`. -/
def channelExpiry (now : ℕ) : ℕ := (now + 600 * 1000000000) % 2 ^ 64

/-- The two scans of `TurnChannelBind` through the channels of the allocation. -/
def bindChannel (chs : Channels) (now channel peerIp peerPort : ℕ) : Bool × Channels :=
  match FrontScan.first chs fun c => c.occupied && decide (c.number = channel) with
  | some j =>
    if (chs j).peerIp = peerIp ∧ (chs j).peerPort = peerPort then
      (true, Function.update chs j { chs j with expiresAt := channelExpiry now })
    else (false, chs)
  | none =>
    match FrontScan.first chs fun c => !c.occupied with
    | none => (false, chs)
    | some j =>
      (true, Function.update chs j {
        number := channel
        peerIp := peerIp
        peerPort := peerPort
        expiresAt := channelExpiry now
        occupied := true })

def turnChannelBind (mgr : TurnManager) (now allocId channel peerIp peerPort : ℕ) :
    Bool × TurnManager :=
  if channel < kTurnChannelMin ∨ kTurnChannelMax < channel then (false, mgr)
  else
    match mgr.findId allocId with
    | none => (false, mgr)
    | some i =>
      let r := bindChannel (mgr.allocs i).channels now channel peerIp peerPort
      (r.1, { mgr with allocs := Function.update mgr.allocs i { mgr.allocs i with channels := r.2 } })

def turnFindChannel (chs : Channels) (now channel : ℕ) : Option (Fin kTurnMaxChannels) :=
  FrontScan.first chs fun c =>
    c.occupied && decide (c.number = channel) && decide (now < c.expiresAt)

/-! ### One table of channels -/

variable {chs : Channels} {now now' channel ip port : ℕ} {c c' : TurnChannel}

def Active (now : ℕ) (c : TurnChannel) : Prop := c.occupied = true ∧ now < c.expiresAt

def SamePeer (c c' : TurnChannel) : Prop := c.peerIp = c'.peerIp ∧ c.peerPort = c'.peerPort

def HasPeer (c : TurnChannel) (ip port : ℕ) : Prop := c.peerIp = ip ∧ c.peerPort = port

/-- The unexpired bindings are one-to-one, and a lookup at any time from now on finds them. -/
structure OneToOne (now : ℕ) (chs : Channels) : Prop where
  number : ∀ j k, Active now (chs j) → Active now (chs k) → (chs j).number = (chs k).number → j = k
  peer : ∀ j k, Active now (chs j) → Active now (chs k) → SamePeer (chs j) (chs k) → j = k
  found : ∀ now', now ≤ now' → ∀ j, turnFindChannel chs now' (chs j).number = some j ↔
    Active now' (chs j)

def Justified (chs : Channels) (now channel ip port : ℕ) : Prop :=
  (bindChannel chs now channel ip port).1 = false →
    (∃ j, Active now (chs j) ∧ (chs j).number = channel ∧ ¬HasPeer (chs j) ip port) ∨
    ((∀ j, (chs j).occupied = true) ∧ ∀ j, (chs j).number ≠ channel)

/-- What the bindings are like under the scan by number. -/
structure Bindings (now : ℕ) (chs : Channels) : Prop where
  number : ∀ j k, (chs j).occupied = true → (chs k).occupied = true →
    (chs j).number = (chs k).number → j = k
  peer : ∀ j k, Active now (chs j) → Active now (chs k) → SamePeer (chs j) (chs k) → j = k

/-- No binding of the number has expired with another peer, and none of another number has the
peer, unless the request is refused for the number or for want of room. -/
structure MayBind (chs : Channels) (now channel ip port : ℕ) : Prop where
  number : ∀ j, (chs j).occupied = true → (chs j).number = channel → ¬HasPeer (chs j) ip port →
    Active now (chs j)
  peer : ∀ k, Active now (chs k) → (chs k).number ≠ channel → HasPeer (chs k) ip port →
    (∃ j, (chs j).occupied = true ∧ (chs j).number = channel ∧ ¬HasPeer (chs j) ip port) ∨
    ((∀ j, (chs j).occupied = true) ∧ ∀ j, (chs j).number ≠ channel)

theorem Active.mono (h : Active now' c) (hle : now ≤ now') : Active now c :=
  ⟨h.1, hle.trans_lt h.2⟩

theorem Bindings.oneToOne (h : Bindings now chs) : OneToOne now chs := by
  refine ⟨fun j k hj hk hn => h.number j k hj.1 hk.1 hn, h.peer, fun now' _ j => ⟨?_, ?_⟩⟩
  · intro hfound
    have hj := FrontScan.first_some hfound
    simp only [Bool.and_eq_true, decide_eq_true_eq] at hj
    exact ⟨hj.1.1, hj.2⟩
  · intro hactive
    apply FrontScan.first_of_unique
    · simp [hactive.1, hactive.2]
    · intro k hk
      simp only [Bool.and_eq_true, decide_eq_true_eq] at hk
      exact h.number k j hk.1.1 hactive.1 hk.1.2

theorem Bindings.mono (h : Bindings now chs) (hle : now ≤ now') : Bindings now' chs :=
  ⟨h.number, fun j k hj hk => h.peer j k (hj.mono hle) (hk.mono hle)⟩

theorem bindings_empty : Bindings now fun _ => {} :=
  ⟨fun _ _ hj => absurd hj Bool.false_ne_true, fun _ _ hj => absurd hj.1 Bool.false_ne_true⟩

theorem expireChannel_occupied (h : (expireChannel now c).occupied = true) :
    expireChannel now c = c := by
  unfold expireChannel at *
  split
  · next hexp => simp [hexp] at h
  · rfl

theorem Bindings.expire (h : Bindings now chs) :
    Bindings now fun j => expireChannel now' (chs j) := by
  refine ⟨fun j k hj hk => ?_, fun j k hj hk => ?_⟩
  · have hj' := expireChannel_occupied hj
    have hk' := expireChannel_occupied hk
    rw [hj'] at hj
    rw [hk'] at hk
    simp only [hj', hk']
    exact h.number j k hj hk
  · have hj' := expireChannel_occupied hj.1
    have hk' := expireChannel_occupied hk.1
    rw [hj'] at hj
    rw [hk'] at hk
    simp only [hj', hk']
    exact h.peer j k hj hk

inductive Bound (chs : Channels) (now channel ip port : ℕ) : Bool × Channels → Prop where
  | refreshed (j : Fin kTurnMaxChannels) : (chs j).occupied = true → (chs j).number = channel →
      HasPeer (chs j) ip port →
      Bound chs now channel ip port
        (true, Function.update chs j { chs j with expiresAt := channelExpiry now })
  | taken (j : Fin kTurnMaxChannels) : (chs j).occupied = true → (chs j).number = channel →
      ¬HasPeer (chs j) ip port → Bound chs now channel ip port (false, chs)
  | full : (∀ j, (chs j).occupied = true) → (∀ j, (chs j).number ≠ channel) →
      Bound chs now channel ip port (false, chs)
  | made (j : Fin kTurnMaxChannels) : (chs j).occupied = false →
      (∀ k, (chs k).occupied = true → (chs k).number ≠ channel) →
      Bound chs now channel ip port (true, Function.update chs j {
        number := channel
        peerIp := ip
        peerPort := port
        expiresAt := channelExpiry now
        occupied := true })

theorem bindChannel_bound (chs : Channels) (now channel ip port : ℕ) :
    Bound chs now channel ip port (bindChannel chs now channel ip port) := by
  unfold bindChannel
  cases hnumber : FrontScan.first chs fun c => c.occupied && decide (c.number = channel) with
  | some j =>
    have hj := FrontScan.first_some hnumber
    simp only [Bool.and_eq_true, decide_eq_true_eq] at hj
    simp only
    split
    · next hpeer => exact .refreshed j hj.1 hj.2 hpeer
    · next hpeer => exact .taken j hj.1 hj.2 hpeer
  | none =>
    have hnone : ∀ k, (chs k).occupied = true → (chs k).number ≠ channel := by
      rw [FrontScan.first_none] at hnumber
      intro k hocc
      have hk := hnumber k
      simpa [hocc] using hk
    simp only
    cases hfree : FrontScan.first chs fun c => !c.occupied with
    | none =>
      rw [FrontScan.first_none] at hfree
      have hall : ∀ j, (chs j).occupied = true := fun j => by simpa using hfree j
      exact .full hall fun j => hnone j (hall j)
    | some j =>
      have hj := FrontScan.first_some hfree
      exact .made j (by simpa using hj) hnone

theorem SamePeer.symm (h : SamePeer c c') : SamePeer c' c := ⟨h.1.symm, h.2.symm⟩

theorem Bindings.update (h : Bindings now chs) {j : Fin kTurnMaxChannels}
    (hnumber : ∀ k, k ≠ j → (chs k).occupied = true → (chs k).number ≠ c.number)
    (hpeer : ∀ k, k ≠ j → Active now (chs k) → ¬SamePeer (chs k) c) :
    Bindings now (Function.update chs j c) := by
  refine ⟨fun k l => ?_, fun k l => ?_⟩
  · by_cases hk : k = j <;> by_cases hl : l = j
    · exact fun _ _ _ => hk.trans hl.symm
    · rw [hk, Function.update_self, Function.update_of_ne hl]
      exact fun _ hocc hn => absurd hn.symm (hnumber l hl hocc)
    · rw [hl, Function.update_self, Function.update_of_ne hk]
      exact fun hocc _ hn => absurd hn (hnumber k hk hocc)
    · rw [Function.update_of_ne hk, Function.update_of_ne hl]
      exact h.number k l
  · by_cases hk : k = j <;> by_cases hl : l = j
    · exact fun _ _ _ => hk.trans hl.symm
    · rw [hk, Function.update_self, Function.update_of_ne hl]
      exact fun _ hactive hp => absurd hp.symm (hpeer l hl hactive)
    · rw [hl, Function.update_self, Function.update_of_ne hk]
      exact fun hactive _ hp => absurd hp (hpeer k hk hactive)
    · rw [Function.update_of_ne hk, Function.update_of_ne hl]
      exact h.peer k l

theorem Bindings.bind (h : Bindings now chs) (hok : MayBind chs now channel ip port) :
    Bindings now (bindChannel chs now channel ip port).2 := by
  have hbound := bindChannel_bound chs now channel ip port
  generalize bindChannel chs now channel ip port = r at hbound ⊢
  cases hbound with
  | refreshed j hocc hn hp =>
    apply h.update
    · exact fun k hk hocc' hn' => hk (h.number k j hocc' hocc hn')
    · intro k hk hactive hsame
      have hne : (chs k).number ≠ channel := fun hn' =>
        hk (h.number k j hactive.1 hocc (hn'.trans hn.symm))
      obtain ⟨i, hocc', hn', hp'⟩ | ⟨-, hnone⟩ :=
        hok.peer k hactive hne ⟨hsame.1.trans hp.1, hsame.2.trans hp.2⟩
      · rw [h.number i j hocc' hocc (hn'.trans hn.symm)] at hp'
        exact hp' hp
      · exact hnone j hn
  | taken j hocc hn hp => exact h
  | full hall hnone => exact h
  | made j hfree hnone =>
    apply h.update
    · exact fun k _ hocc => hnone k hocc
    · intro k hk hactive hsame
      obtain ⟨i, hocc, hn, -⟩ | ⟨hall, -⟩ := hok.peer k hactive (hnone k hactive.1) hsame
      · exact hnone i hocc hn
      · rw [hall j] at hfree
        cases hfree

theorem MayBind.justified (h : MayBind chs now channel ip port) :
    Justified chs now channel ip port := by
  have hbound := bindChannel_bound chs now channel ip port
  unfold Justified
  generalize bindChannel chs now channel ip port = r at hbound ⊢
  cases hbound with
  | refreshed j _ _ _ => exact fun hno => absurd hno.symm Bool.false_ne_true
  | taken j hocc hn hp => exact fun _ => .inl ⟨j, h.number j hocc hn hp, hn, hp⟩
  | full hall hnone => exact fun _ => .inr ⟨hall, hnone⟩
  | made j _ _ => exact fun hno => absurd hno.symm Bool.false_ne_true

theorem lt_channelExpiry (hclock : now < 2 ^ 63) : now < channelExpiry now := by
  unfold channelExpiry
  omega

theorem OneToOne.alone {j k : Fin kTurnMaxChannels} (h : OneToOne now (Function.update chs j c))
    (hc : Active now c) (hk : Active now (chs k)) (hsame : SamePeer (chs k) c) : k = j := by
  by_contra hne
  refine hne (h.peer k j ?_ ?_ ?_)
  · rwa [Function.update_of_ne hne]
  · rwa [Function.update_self]
  · rwa [Function.update_of_ne hne, Function.update_self]

theorem Bindings.mayBind (h : Bindings now chs) (hclock : now < 2 ^ 63)
    (hone : OneToOne now (bindChannel chs now channel ip port).2)
    (hjust : Justified chs now channel ip port) : MayBind chs now channel ip port := by
  have hbound := bindChannel_bound chs now channel ip port
  have hlater := lt_channelExpiry hclock
  unfold Justified at hjust
  generalize bindChannel chs now channel ip port = r at hbound hone hjust
  cases hbound with
  | refreshed j hocc hn hp =>
    refine ⟨fun i hocc' hn' hp' => ?_, fun k hactive hne hp' => ?_⟩
    · rw [h.number i j hocc' hocc (hn'.trans hn.symm)] at hp'
      exact absurd hp hp'
    · have hkj := hone.alone ⟨hocc, hlater⟩ hactive ⟨hp'.1.trans hp.1.symm, hp'.2.trans hp.2.symm⟩
      rw [hkj] at hne
      exact absurd hn hne
  | taken j hocc hn hp =>
    obtain ⟨i, hactive, hn', -⟩ | ⟨-, hnone⟩ := hjust rfl
    · refine ⟨fun k hocc' hk _ => ?_, fun _ _ _ _ => .inl ⟨j, hocc, hn, hp⟩⟩
      rwa [h.number k i hocc' hactive.1 (hk.trans hn'.symm)]
    · exact absurd hn (hnone j)
  | full hall hnone =>
    exact ⟨fun j _ hn _ => absurd hn (hnone j), fun _ _ _ _ => .inr ⟨hall, hnone⟩⟩
  | made j hfree hnone =>
    refine ⟨fun i hocc hn _ => absurd hn (hnone i hocc), fun k hactive _ hp => ?_⟩
    have hkj := hone.alone ⟨rfl, hlater⟩ hactive hp
    rw [← hkj, hactive.1] at hfree
    cases hfree

/-! ### Runs -/

inductive Call where
  | bind (allocId channel peerIp peerPort : ℕ)
  | op (op : Op)

def call (mgr : TurnManager) (now : ℕ) : Call → TurnManager
  | .bind allocId channel ip port => left (mgr.turnChannelBind now allocId channel ip port)
  | .op op => mgr.apply now op

def callStep (s : ℕ × TurnManager) (l : ℕ × Call) : Option (ℕ × TurnManager) :=
  if s.1 ≤ l.1 then some (l.1, s.2.call l.1 l.2) else none

def Distinct (s : ℕ × TurnManager) : Prop :=
  ∀ i, s.2.Live i → OneToOne s.1 (s.2.allocs i).channels

/-- A request in range for an allocation of the table is refused only for a binding of the
number that has not expired, or for want of room. -/
def Answered (s : ℕ × TurnManager) (l : ℕ × Call) : Prop :=
  ∀ allocId channel ip port i, l.2 = .bind allocId channel ip port →
    kTurnChannelMin ≤ channel ∧ channel ≤ kTurnChannelMax → s.2.findId allocId = some i →
    (s.2.turnChannelBind l.1 allocId channel ip port).1 = false →
    (∃ j, Active l.1 ((s.2.allocs i).channels j) ∧ ((s.2.allocs i).channels j).number = channel ∧
      ¬HasPeer ((s.2.allocs i).channels j) ip port) ∨
    ((∀ j, ((s.2.allocs i).channels j).occupied = true) ∧
      ∀ j, ((s.2.allocs i).channels j).number ≠ channel)

def bindOk (s : ℕ × TurnManager) (l : ℕ × Call) : Prop :=
  ∀ allocId channel ip port i, l.2 = .bind allocId channel ip port →
    kTurnChannelMin ≤ channel ∧ channel ≤ kTurnChannelMax → s.2.findId allocId = some i →
    MayBind (s.2.allocs i).channels l.1 channel ip port

def Sound (s : ℕ × TurnManager) : Prop := ∀ i, Bindings s.1 (s.2.allocs i).channels

variable {mgr : TurnManager} {s s' : ℕ × TurnManager} {i : Fin kTurnMaxAllocations} {allocId : ℕ}

theorem turnChannelBind_eq (hrange : kTurnChannelMin ≤ channel ∧ channel ≤ kTurnChannelMax)
    (hfind : mgr.findId allocId = some i) : mgr.turnChannelBind now allocId channel ip port =
      ((bindChannel (mgr.allocs i).channels now channel ip port).1, { mgr with
        allocs := Function.update mgr.allocs i { mgr.allocs i with
          channels := (bindChannel (mgr.allocs i).channels now channel ip port).2 } }) := by
  have hin : ¬(channel < kTurnChannelMin ∨ kTurnChannelMax < channel) := by omega
  unfold turnChannelBind
  simp only [hin, if_false, hfind]

theorem update_bindings {k : Fin kTurnMaxAllocations} {a : TurnAllocation}
    (ha : a.channels = (mgr.allocs k).channels) (h : Bindings now (mgr.allocs i).channels) :
    Bindings now (Function.update mgr.allocs k a i).channels := by
  by_cases hik : i = k
  · rw [hik] at h ⊢
    rwa [Function.update_self, ha]
  · rwa [Function.update_of_ne hik]

theorem release_bindings (h : Bindings now (mgr.allocs i).channels) (k : Fin kTurnMaxAllocations) :
    Bindings now ((mgr.release k).allocs i).channels := by
  unfold release
  by_cases hik : i = k
  · simp only [hik, Function.update_self]
    exact bindings_empty
  · simp only [Function.update_of_ne hik]
    exact h

theorem expire_bindings (h : Bindings now (mgr.allocs i).channels) :
    Bindings now ((left (mgr.turnExpire now)).allocs i).channels := by
  rw [expire_allocs]
  unfold expireAlloc
  split
  · exact h
  split
  · exact bindings_empty
  · exact h.expire

theorem allocate_bindings (clientIp clientPort : ℕ) (lifetime : ℤ)
    (h : Bindings now (mgr.allocs i).channels) :
    Bindings now ((left (mgr.turnAllocate now clientIp clientPort lifetime)).allocs i).channels := by
  rw [left_eq]
  unfold turnAllocate
  dsimp only
  split
  · exact h
  split
  · exact h
  · exact update_bindings rfl h

theorem refresh_bindings (allocId : ℕ) (lifetime : ℤ) (h : Bindings now (mgr.allocs i).channels) :
    Bindings now ((left (mgr.turnRefresh now allocId lifetime)).allocs i).channels := by
  rw [left_eq]
  unfold turnRefresh
  split
  · exact h
  split
  · exact release_bindings h _
  · exact update_bindings rfl h

theorem deallocate_bindings (allocId : ℕ) (h : Bindings now (mgr.allocs i).channels) :
    Bindings now ((mgr.turnDeallocate allocId).allocs i).channels := by
  unfold turnDeallocate
  split
  · exact h
  · exact release_bindings h _

theorem apply_expire (mgr : TurnManager) (now : ℕ) :
    mgr.apply now .expire = left (mgr.turnExpire now) := rfl

theorem apply_bindings (op : Op) (h : Bindings now (mgr.allocs i).channels) :
    Bindings now ((mgr.apply now op).allocs i).channels := by
  cases op with
  | allocate ip port lifetime =>
    simp only [apply]
    exact allocate_bindings ip port lifetime h
  | refresh allocId lifetime =>
    simp only [apply]
    exact refresh_bindings allocId lifetime h
  | deallocate allocId =>
    simp only [apply]
    exact deallocate_bindings allocId h
  | expire =>
    rw [apply_expire]
    exact expire_bindings h

theorem callStep_eq {l : ℕ × Call} (hs : callStep s l = some s') :
    s.1 ≤ l.1 ∧ s' = (l.1, s.2.call l.1 l.2) := by
  unfold callStep at hs
  generalize s.2.call l.1 l.2 = mgr at hs ⊢
  split at hs
  · next hle => exact ⟨hle, (Option.some.inj hs).symm⟩
  · cases hs

theorem Sound.distinct (h : Sound s) : Distinct s := fun i _ => (h i).oneToOne

theorem Sound.step {l : ℕ × Call} (h : Sound s) (hok : bindOk s l) (hs : callStep s l = some s') :
    Sound s' := by
  obtain ⟨hle, rfl⟩ := callStep_eq hs
  have hnow : ∀ i, Bindings l.1 (s.2.allocs i).channels := fun i => (h i).mono hle
  obtain ⟨now, c⟩ := l
  intro i
  cases c with
  | op op => exact apply_bindings op (hnow i)
  | bind allocId channel ip port =>
    simp only [call, left_eq]
    by_cases hrange : kTurnChannelMin ≤ channel ∧ channel ≤ kTurnChannelMax
    · cases hfind : s.2.findId allocId with
      | none =>
        unfold turnChannelBind
        simp only [hfind]
        split <;> exact hnow i
      | some k =>
        rw [turnChannelBind_eq hrange hfind]
        by_cases hik : i = k
        · simp only [hik, Function.update_self]
          exact (hnow k).bind (hok allocId channel ip port k rfl hrange hfind)
        · simp only [Function.update_of_ne hik]
          exact hnow i
    · have hout : channel < kTurnChannelMin ∨ kTurnChannelMax < channel := by omega
      unfold turnChannelBind
      simp only [hout, if_true]
      exact hnow i

theorem sound_of_reach (h : Runs.Reach Init callStep bindOk s) : Sound s := by
  apply Runs.Reach.invariant _ _ h
  · rintro _ ⟨now, relayIp, rfl⟩ i
    exact bindings_empty
  · exact fun s s' l ih hok hs => ih.step hok hs

theorem bindOk.answered {l : ℕ × Call} (h : bindOk s l) : Answered s l := by
  intro allocId channel ip port i hl hrange hfind hno
  have hmay := h allocId channel ip port i hl hrange hfind
  rw [turnChannelBind_eq hrange hfind] at hno
  exact hmay.justified hno

theorem Sound.bindOk {l : ℕ × Call} (h : Sound s) (hclock : l.1 < 2 ^ 63)
    (hs : callStep s l = some s') (hone : Distinct s') (hanswer : Answered s l) :
    TurnManager.bindOk s l := by
  obtain ⟨hle, rfl⟩ := callStep_eq hs
  obtain ⟨now, c⟩ := l
  intro allocId channel ip port i hl hrange hfind
  dsimp only at hl
  subst hl
  have hanswer := hanswer allocId channel ip port i rfl hrange hfind
  have hlive := findId_live hfind
  have hone := hone i
  unfold Live at hone hlive
  simp only [call, left_eq, turnChannelBind_eq hrange hfind, Function.update_self] at hone hanswer
  exact ((h i).mono hle).mayBind hclock (hone hlive) hanswer

theorem bindings_one_to_one (h : Runs.Reach Init callStep bindOk s) :
    Distinct s ∧ ∀ l s', l.1 < 2 ^ 63 → callStep s l = some s' →
      (Distinct s' ∧ Answered s l ↔ bindOk s l) := by
  have hsound := sound_of_reach h
  refine ⟨hsound.distinct, fun l s' hclock hs => ⟨fun ⟨hone, hanswer⟩ => ?_, fun hok => ?_⟩⟩
  · exact hsound.bindOk hclock hs hone hanswer
  · exact ⟨(hsound.step hok hs).distinct, hok.answered⟩

/-! ### A number and a peer bound for an hour-long allocation -/

/-- One allocation, of the longest lifetime, with the channels `chs`. -/
def lasting (chs : Channels) : TurnManager where
  allocs := Function.update (fun _ => {}) slotZero
    { shortAllocation 1 kTurnFirstPort with expiresAt := kTurnMaxLifetimeNs, channels := chs }
  allocCount := 1
  nextId := 2
  nextPort := kTurnFirstPort + 1

def chZero : Fin kTurnMaxChannels := ⟨0, by decide⟩

def chOne : Fin kTurnMaxChannels := ⟨1, by decide⟩

def boundTo (number peer now : ℕ) : TurnChannel where
  number := number
  peerIp := peer
  peerPort := peer
  expiresAt := channelExpiry now
  occupied := true

def oneBound (number peer now : ℕ) : Channels :=
  Function.update (fun _ => {}) chZero (boundTo number peer now)

def twoBound (number peer number' peer' now : ℕ) : Channels :=
  Function.update (oneBound number peer now) chOne (boundTo number' peer' now)

theorem slotZero_lasting (chs : Channels) : (lasting chs).allocs slotZero =
    { shortAllocation 1 kTurnFirstPort with expiresAt := kTurnMaxLifetimeNs, channels := chs } := by
  unfold lasting
  dsimp only
  rw [Function.update_self]

theorem lasting_found (chs : Channels) : (lasting chs).findId 1 = some slotZero := by
  apply FrontScan.first_eq_some
  · rw [slotZero_lasting]
    rfl
  · exact fun j hj => absurd hj (Nat.not_lt_zero _)

theorem lasting_allocated : (({} : TurnManager).turnAllocate 0 1 1 3600).2 = lasting fun _ => {} := by
  have hscan : FrontScan.first ({} : TurnManager).allocs (fun a => !a.occupied) =
      some slotZero := by
    apply FrontScan.first_eq_some rfl
    intro j hj
    exact absurd hj (Nat.not_lt_zero _)
  unfold turnAllocate
  dsimp only
  rw [hscan, if_neg (by decide)]
  rfl

theorem lasting_bind {chs : Channels}
    (hrange : kTurnChannelMin ≤ channel ∧ channel ≤ kTurnChannelMax) :
    (lasting chs).turnChannelBind now 1 channel ip port =
      ((bindChannel chs now channel ip port).1,
        lasting (bindChannel chs now channel ip port).2) := by
  rw [turnChannelBind_eq hrange (lasting_found chs), slotZero_lasting]
  unfold lasting
  dsimp only
  rw [Function.update_idem]

theorem lasting_step {chs chs' : Channels} {answer : Bool} {time : ℕ}
    (hrange : kTurnChannelMin ≤ channel ∧ channel ≤ kTurnChannelMax)
    (hbind : bindChannel chs now channel ip port = (answer, chs')) (hle : time ≤ now) :
    callStep (time, lasting chs) (now, .bind 1 channel ip port) = some (now, lasting chs') := by
  have hcall : (lasting chs).call now (.bind 1 channel ip port) = lasting chs' := by
    simp only [call, left_eq, lasting_bind hrange, hbind]
  unfold callStep
  dsimp only
  rw [hcall, if_pos hle]

section

variable {number peer number' peer' : ℕ}

theorem oneBound_self : oneBound number peer now chZero = boundTo number peer now :=
  Function.update_self ..

theorem oneBound_free {j : Fin kTurnMaxChannels} (hj : j ≠ chZero) :
    oneBound number peer now j = {} :=
  Function.update_of_ne hj ..

theorem oneBound_occupied {j : Fin kTurnMaxChannels}
    (hocc : (oneBound number peer now j).occupied = true) : j = chZero := by
  by_contra hj
  rw [oneBound_free hj] at hocc
  cases hocc

theorem oneBound_bound :
    bindChannel (fun _ => {}) now number peer peer = (true, oneBound number peer now) := by
  have hscan : FrontScan.first (fun _ => {} : Channels) (fun c => !c.occupied) = some chZero := by
    apply FrontScan.first_eq_some rfl
    intro j hj
    exact absurd hj (Nat.not_lt_zero _)
  have hnone : FrontScan.first (fun _ => {} : Channels)
      (fun c => c.occupied && decide (c.number = number)) = none := by
    rw [FrontScan.first_none]
    exact fun _ => rfl
  unfold bindChannel
  rw [hnone]
  dsimp only
  rw [hscan]
  rfl

theorem twoBound_bound (hne : number ≠ number') :
    bindChannel (oneBound number peer now) now number' peer' peer' =
      (true, twoBound number peer number' peer' now) := by
  have hscan : FrontScan.first (oneBound number peer now) (fun c => !c.occupied) = some chOne := by
    apply FrontScan.first_eq_some
    · rw [oneBound_free (by decide)]
      rfl
    · intro j hj
      have hzero : j = chZero := Fin.ext (Nat.lt_one_iff.mp hj)
      rw [hzero, oneBound_self]
      rfl
  have hnone : FrontScan.first (oneBound number peer now)
      (fun c => c.occupied && decide (c.number = number')) = none := by
    rw [FrontScan.first_none]
    intro j
    by_cases hj : j = chZero
    · rw [hj, oneBound_self]
      simp [boundTo, hne]
    · rw [oneBound_free hj]
      rfl
  unfold bindChannel
  rw [hnone]
  dsimp only
  rw [hscan]
  rfl

theorem mayBind_free {chs : Channels} (hfree : ∀ j, (chs j).occupied = false) :
    MayBind chs now channel ip port :=
  ⟨fun j hocc => absurd ((hfree j).symm.trans hocc) Bool.false_ne_true,
    fun k hactive => absurd ((hfree k).symm.trans hactive.1) Bool.false_ne_true⟩

theorem mayBind_oneBound (hnumber : number ≠ number') (hpeer : peer ≠ peer') :
    MayBind (oneBound number peer now) now' number' peer' peer' := by
  refine ⟨fun j hocc hn => ?_, fun k hactive _ hp => ?_⟩
  · rw [oneBound_occupied hocc, oneBound_self] at hn
    exact absurd hn hnumber
  · rw [oneBound_occupied hactive.1, oneBound_self] at hp
    exact absurd hp.1 hpeer

end

/-! A number and a peer come free when the hour-long allocation is swept. -/

theorem foldl_expireSlot_free {is : List (Fin kTurnMaxAllocations)} {r : ℕ × TurnManager}
    (hfree : ∀ i ∈ is, (r.2.allocs i).occupied = false) : is.foldl (expireSlot now) r = r := by
  induction is with
  | nil => rfl
  | cons i is ih =>
    have hi : expireSlot now r i = r := by
      unfold expireSlot
      simp [hfree i (List.mem_cons_self ..)]
    rw [List.foldl_cons, hi]
    exact ih fun k hk => hfree k (List.mem_cons_of_mem _ hk)

theorem lasting_expire {chs : Channels} (hnow : now < kTurnMaxLifetimeNs) :
    left ((lasting chs).turnExpire now) = lasting fun j => expireChannel now (chs j) := by
  have hrange : List.finRange kTurnMaxAllocations = slotZero :: (List.finRange 9999).map Fin.succ :=
    List.finRange_succ (n := 9999)
  rw [left_eq, turnExpire_eq, hrange, List.foldl_cons, foldl_expireSlot_free]
  · unfold expireSlot
    simp only [slotZero_lasting]
    rw [if_neg (by simp [shortAllocation]), if_neg (by omega)]
    unfold lasting
    dsimp only
    rw [Function.update_idem]
    rfl
  · intro i hi
    obtain ⟨k, -, hk⟩ := List.mem_map.mp hi
    have hne : i ≠ slotZero := by
      rw [← hk]
      exact Fin.succ_ne_zero k
    rw [expireSlot_allocs, if_neg hne]
    unfold lasting
    dsimp only
    rw [Function.update_of_ne hne]

theorem expired_free (number peer number' peer' : ℕ) :
    (fun j => expireChannel 600000000000 (twoBound number peer number' peer' 0 j)) =
      fun _ => {} := by
  have hexpired : ∀ n p, expireChannel 600000000000 (boundTo n p 0) = {} := fun _ _ => rfl
  funext j
  unfold twoBound
  by_cases hone : j = chOne
  · rw [hone, Function.update_self, hexpired]
  · rw [Function.update_of_ne hone]
    by_cases hzero : j = chZero
    · rw [hzero, oneBound_self, hexpired]
    · rw [oneBound_free hzero]
      rfl

theorem lasting_bindOk {chs : Channels} {time : ℕ} (h : MayBind chs now channel ip port) :
    bindOk (time, lasting chs) (now, .bind 1 channel ip port) := by
  intro allocId channel ip port i hl _ hfind
  cases hl
  rw [lasting_found] at hfind
  cases hfind
  simp only [slotZero_lasting]
  exact h

def callOk (s : ℕ × TurnManager) (l : ℕ × Call) : Prop := bindOk s l ∧ l.1 < 2 ^ 63

theorem lasting_next {chs chs' : Channels} {time : ℕ}
    (h : Runs.Reach Init callStep callOk (time, lasting chs))
    (hrange : kTurnChannelMin ≤ channel ∧ channel ≤ kTurnChannelMax)
    (hbind : bindChannel chs now channel ip port = (true, chs'))
    (hmay : MayBind chs now channel ip port) (hle : time ≤ now) (hclock : now < 2 ^ 63) :
    Runs.Reach Init callStep callOk (now, lasting chs') :=
  .next (time, lasting chs) _ (now, .bind 1 channel ip port) h ⟨lasting_bindOk hmay, hclock⟩
    (lasting_step hrange hbind hle)

theorem lasting_start : Runs.Reach Init callStep callOk (0, lasting fun _ => {}) := by
  refine .next (0, {}) _ (0, .op (.allocate 1 1 3600)) (.start _ ⟨0, 0, rfl⟩) ⟨?_, ?_⟩ ?_
  · intro allocId channel ip port i hl
    cases hl
  · exact Nat.two_pow_pos 63
  · rw [← lasting_allocated]
    rfl

theorem lasting_reach : Runs.Reach Init callStep callOk (0, lasting (oneBound 0x4000 7 0)) :=
  lasting_next lasting_start (by decide) oneBound_bound (mayBind_free fun _ => rfl)
    (Nat.le_refl 0) (Nat.two_pow_pos 63)

theorem lasting_swept :
    Runs.Reach Init callStep callOk (600000000000, lasting fun _ => {}) := by
  have htwo : Runs.Reach Init callStep callOk (0, lasting (twoBound 0x4000 7 0x4001 8 0)) :=
    lasting_next lasting_reach (by decide) (twoBound_bound (by decide))
      (mayBind_oneBound (by decide) (by decide)) (Nat.le_refl 0) (Nat.two_pow_pos 63)
  refine .next _ _ (600000000000, .op .expire) htwo ⟨?_, by decide⟩ ?_
  · intro allocId channel ip port i hl
    cases hl
  · have hcall : (lasting (twoBound 0x4000 7 0x4001 8 0)).call 600000000000 (.op .expire) =
        lasting fun _ => {} := by
      rw [call, apply_expire, lasting_expire (by decide), expired_free]
    unfold callStep
    dsimp only
    rw [hcall, if_pos (Nat.zero_le _)]

/-- The two numbers change their peers when they have expired and been swept. -/
theorem bindings_one_to_one_swapped :
    Distinct (600000000000, lasting (twoBound 0x4000 8 0x4001 7 600000000000)) ∧
      (twoBound 0x4000 8 0x4001 7 600000000000 chZero).peerIp = 8 ∧
      (twoBound 0x4000 8 0x4001 7 600000000000 chOne).peerIp = 7 := by
  have hone : Runs.Reach Init callStep callOk
      (600000000000, lasting (oneBound 0x4000 8 600000000000)) :=
    lasting_next lasting_swept (by decide) oneBound_bound (mayBind_free fun _ => rfl)
      (Nat.le_refl _) (by decide)
  have htwo : Runs.Reach Init callStep callOk
      (600000000000, lasting (twoBound 0x4000 8 0x4001 7 600000000000)) :=
    lasting_next hone (by decide) (twoBound_bound (by decide))
      (mayBind_oneBound (by decide) (by decide)) (Nat.le_refl _) (by decide)
  exact ⟨(bindings_one_to_one (htwo.mono fun _ _ hok => hok.1)).1, rfl, rfl⟩

theorem secondNumber_bound : bindChannel (oneBound 0x4000 7 0) 0 0x4001 7 7 =
    (true, twoBound 0x4000 7 0x4001 7 0) :=
  twoBound_bound (by decide)

theorem expiredNumber_taken : (bindChannel (oneBound 0x4000 7 0) 600000000000 0x4000 8 8).1 =
    false := by
  have hscan : FrontScan.first (oneBound 0x4000 7 0)
      (fun c => c.occupied && decide (c.number = 0x4000)) = some chZero := by
    apply FrontScan.first_eq_some
    · rw [oneBound_self]
      rfl
    · exact fun j hj => absurd hj (Nat.not_lt_zero _)
  unfold bindChannel
  rw [hscan]
  dsimp only
  rw [oneBound_self]
  rfl

/-- A second number bound to the peer, and the number asked for again when it has expired. -/
theorem not_one_to_one :
    (¬∀ s, Runs.Reach Init callStep (fun _ l => l.1 < 2 ^ 63) s → Distinct s) ∧
    ¬∀ s l, Runs.Reach Init callStep (fun _ l => l.1 < 2 ^ 63) s → s.1 ≤ l.1 ∧ l.1 < 2 ^ 63 →
      Answered s l := by
  have hreach : Runs.Reach Init callStep (fun _ l => l.1 < 2 ^ 63)
      (0, lasting (oneBound 0x4000 7 0)) :=
    lasting_reach.mono fun _ _ hok => hok.2
  refine ⟨fun h => ?_, fun h => ?_⟩
  · have hstep : callStep (0, lasting (oneBound 0x4000 7 0)) (0, .bind 1 0x4001 7 7) =
        some (0, lasting _) :=
      lasting_step (by decide) secondNumber_bound (Nat.le_refl 0)
    have hone := h _ (.next _ _ _ hreach (Nat.two_pow_pos 63) hstep) slotZero
    unfold Live at hone
    simp only [slotZero_lasting] at hone
    have hsame := (hone rfl).peer chZero chOne
    have hne : chZero ≠ chOne := by decide
    unfold twoBound at hsame
    rw [Function.update_of_ne hne, Function.update_self, oneBound_self] at hsame
    exact hne (hsame ⟨rfl, by decide⟩ ⟨rfl, by decide⟩ ⟨rfl, rfl⟩)
  · have hanswer := h _ (600000000000, .bind 1 0x4000 8 8) hreach ⟨Nat.zero_le _, by decide⟩
      1 0x4000 8 8 slotZero rfl (by decide) (lasting_found _)
    rw [lasting_bind (by decide)] at hanswer
    simp only [slotZero_lasting] at hanswer
    obtain ⟨j, hactive, -, -⟩ | ⟨hall, -⟩ := hanswer expiredNumber_taken
    · by_cases hj : j = chZero
      · rw [hj, oneBound_self] at hactive
        exact absurd hactive.2 (Nat.lt_irrefl _)
      · rw [oneBound_free hj] at hactive
        exact Bool.false_ne_true hactive.1
    · have hone := hall chOne
      rw [oneBound_free (by decide)] at hone
      exact Bool.false_ne_true hone

end TurnManager

end HyperDerp
