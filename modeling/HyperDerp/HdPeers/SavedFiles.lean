import HyperDerp.HdPeers.PolicyFile

/-!
# What saved files restore (`hd_peers.cc:322-515`)

A policy file is read front to back, so what is cut off takes the last records away and changes no
earlier one. What comes back of a saved file is then a matter of the texts, whose lengths are
written as 16 bits, and of the policies that are not written.
-/

namespace HyperDerp

/-! ### Denylist (`hd_peers.cc:322-340`, `:493-515`) -/

def hdDenylistSave (reg : HdPeerRegistry) : Bytes := reg.denylist.flatMap Key.data

def readKeys (s : Bytes) : List Key :=
  if h : kKeySize ≤ s.length then toKey s h :: readKeys (s.drop kKeySize) else []
termination_by s.length
decreasing_by
  rw [List.length_drop]
  have hpos : 0 < kKeySize := by decide
  omega

def hdDenylistLoad (reg : HdPeerRegistry) (file : Option Bytes) : HdPeerRegistry :=
  { reg with denylist := (file.map readKeys).getD [] }

namespace SavedFiles

theorem readKeys_append (key : Key) (s : Bytes) : readKeys (key.data ++ s) = key :: readKeys s := by
  have hsize := key.size
  have hle : kKeySize ≤ (key.data ++ s).length := by
    rw [List.length_append]
    omega
  have hkey : toKey (key.data ++ s) hle = key := Key.ext_data (List.take_left' hsize)
  have hdrop : (key.data ++ s).drop kKeySize = s := List.drop_left' hsize
  rw [readKeys, dif_pos hle, hkey, hdrop]

theorem readKeys_save (keys : List Key) : readKeys (keys.flatMap Key.data) = keys := by
  induction keys with
  | nil => simp [readKeys, kKeySize]
  | cons key keys ih => rw [List.flatMap_cons, readKeys_append, ih]

/-! ### Readers and what follows -/

variable {α β : Type}

def Stable (read : Bytes → Option (α × Bytes)) : Prop :=
  ∀ s u a rest, read s = some (a, rest) → read (s ++ u) = some (a, rest ++ u)

theorem readExact_stable (n : ℕ) : Stable (readExact n) := by
  intro s u a rest h
  unfold readExact at h ⊢
  split at h
  · next hle =>
    cases h
    rw [if_pos (by rw [List.length_append]; omega), List.take_append_of_le_length hle,
      List.drop_append_of_le_length hle]
  · cases h

theorem Stable.bind {read : Bytes → Option (α × Bytes)} {next : α → Bytes → Option (β × Bytes)}
    (hread : Stable read) (hnext : ∀ a, Stable (next a)) :
    Stable fun s => (read s).bind fun r => next r.1 r.2 := by
  intro s u b rest h
  obtain ⟨⟨a, mid⟩, ha, hb⟩ := Option.bind_eq_some_iff.1 h
  dsimp only
  rw [hread s u a mid ha, Option.bind_some]
  exact hnext a mid u b rest hb

theorem Stable.map {read : Bytes → Option (α × Bytes)} (hread : Stable read) (f : α → β) :
    Stable fun s => (read s).map fun r => (f r.1, r.2) := by
  intro s u b rest h
  obtain ⟨⟨a, mid⟩, ha, hb⟩ := Option.map_eq_some_iff.1 h
  cases hb
  dsimp only
  rw [hread s u a mid ha, Option.map_some]

theorem readU16LE_stable : Stable readU16LE :=
  (readExact_stable 2).map fun b => BigEndian.val b.reverse

theorem readU32LE_stable : Stable readU32LE :=
  (readExact_stable 4).map fun b => BigEndian.val b.reverse

theorem readText_stable : Stable readText := readU16LE_stable.bind readExact_stable

theorem readPolicyRecord_stable : Stable readPolicyRecord := by
  intro s u r rest h
  unfold readPolicyRecord at h ⊢
  split at h
  · next hle =>
    have hle' : kKeySize ≤ (s ++ u).length := by
      rw [List.length_append]
      omega
    have hkey : toKey (s ++ u) hle' = toKey s hle :=
      Key.ext_data (List.take_append_of_le_length hle)
    have hbody : Stable fun t => (readExact 3 t).bind fun hdr => (readText hdr.2).bind fun tag =>
        (readText tag.2).map fun reason => ((toKey s hle, ({
          hasPin := decide (hdr.1.getD 0 0 ≠ 0)
          pinnedIntent := hdr.1.getD 1 0
          overrideClient := decide (hdr.1.getD 2 0 ≠ 0)
          auditTag := tag.1
          reason := reason.1 } : HdPeerPolicy)), reason.2) :=
      (readExact_stable 3).bind fun hdr => readText_stable.bind fun tag =>
        readText_stable.map fun reason => (toKey s hle, ({
          hasPin := decide (hdr.getD 0 0 ≠ 0)
          pinnedIntent := hdr.getD 1 0
          overrideClient := decide (hdr.getD 2 0 ≠ 0)
          auditTag := tag
          reason := reason } : HdPeerPolicy))
    rw [dif_pos hle', hkey, List.drop_append_of_le_length hle]
    exact hbody _ u r rest h
  · cases h

theorem readPolicyRecords_prefixed (n : ℕ) (s u : Bytes) :
    readPolicyRecords n s <+: readPolicyRecords n (s ++ u) := by
  induction n generalizing s with
  | zero => exact List.nil_prefix
  | succ n ih =>
    rw [readPolicyRecords]
    cases h : readPolicyRecord s with
    | none => exact List.nil_prefix
    | some r =>
      rw [readPolicyRecords, readPolicyRecord_stable s u r.1 r.2 h]
      exact (List.prefix_cons_inj _).2 (ih r.2)

theorem policyRecords_take (file : Bytes) (n : ℕ) :
    policyRecords (some (file.take n)) <+: policyRecords (some file) := by
  unfold policyRecords
  dsimp only
  cases h : readU32LE (file.take n) with
  | none => exact List.nil_prefix
  | some r =>
    have hwhole := readU32LE_stable _ (file.drop n) r.1 r.2 h
    rw [List.take_append_drop] at hwhole
    rw [hwhole]
    exact readPolicyRecords_prefixed r.1 r.2 (file.drop n)

/-! ### Lengths of 16 bits -/

theorem readText_short {s text rest : Bytes} (h : readText s = some (text, rest)) :
    text.length < 2 ^ 16 := by
  obtain ⟨r, hr, htext⟩ := Option.bind_eq_some_iff.1 h
  obtain ⟨b, hb, rfl⟩ := Option.map_eq_some_iff.1 hr
  unfold readExact at hb htext
  split at hb
  · cases hb
    have hval := BigEndian.val_lt (s.take 2).reverse
    have hpow : 256 ^ (s.take 2).reverse.length ≤ 256 ^ 2 :=
      Nat.pow_le_pow_right (by decide) (by simp)
    split at htext
    · cases htext
      simp only [List.length_take]
      omega
    · cases htext
  · cases hb

theorem readPolicyRecord_short {s rest : Bytes} {r : Key × HdPeerPolicy}
    (h : readPolicyRecord s = some (r, rest)) : r.2.Short := by
  unfold readPolicyRecord at h
  split at h
  · obtain ⟨hdr, -, h⟩ := Option.bind_eq_some_iff.1 h
    obtain ⟨tag, htag, h⟩ := Option.bind_eq_some_iff.1 h
    obtain ⟨reason, hreason, h⟩ := Option.map_eq_some_iff.1 h
    cases h
    exact ⟨readText_short htag, readText_short hreason⟩
  · cases h

theorem policyRecords_short (file : Option Bytes) : ∀ r ∈ policyRecords file, r.2.Short := by
  have hall : ∀ n s, ∀ r ∈ readPolicyRecords n s, r.2.Short := by
    intro n
    induction n with
    | zero => exact fun _ _ hr => absurd hr List.not_mem_nil
    | succ n ih =>
      intro s r hr
      rw [readPolicyRecords] at hr
      cases h : readPolicyRecord s with
      | none =>
        rw [h] at hr
        cases hr
      | some q =>
        rw [h] at hr
        obtain rfl | hr := List.mem_cons.1 hr
        · exact readPolicyRecord_short h
        · exact ih _ r hr
  unfold policyRecords
  cases file with
  | none => exact fun _ hr => absurd hr List.not_mem_nil
  | some s =>
    dsimp only
    cases readU32LE s with
    | none => exact fun _ hr => absurd hr List.not_mem_nil
    | some q => exact hall _ _

/-! ### Applying records -/

variable {reg reg' : HdPeerRegistry} {key k : Key} {pol : HdPeerPolicy}
  {rs : List (Key × HdPeerPolicy)}

def applyRecord (reg : HdPeerRegistry) (r : Key × HdPeerPolicy) : HdPeerRegistry :=
  (hdPeersSetPolicy reg r.1 r.2).getD reg

theorem load_eq (reg : HdPeerRegistry) (file : Option Bytes) :
    hdPeerPolicyLoad reg file = (policyRecords file).foldl applyRecord reg := rfl

theorem lookup_setPolicy (reg : HdPeerRegistry) (i : HdSlot) (pol : HdPeerPolicy) (key : Key) :
    hdPeersLookup (reg.setPolicy i pol) key = hdPeersLookup reg key := rfl

theorem setPolicy_self (reg : HdPeerRegistry) (i : HdSlot) (pol : HdPeerPolicy) :
    (reg.setPolicy i pol).policies i = pol := Function.update_self ..

theorem setPolicy_distinct (h : reg.KeysDistinct) (i : HdSlot) (pol : HdPeerPolicy) :
    (reg.setPolicy i pol).KeysDistinct := h.of_sub fun _ hl => ⟨hl, rfl⟩

theorem lookupPolicy_applyRecord (reg : HdPeerRegistry) (r : Key × HdPeerPolicy) (key : Key) :
    hdPeersLookupPolicy (applyRecord reg r) key =
      if key = r.1 then (hdPeersLookupPolicy reg key).map fun _ => r.2
      else hdPeersLookupPolicy reg key := by
  unfold applyRecord hdPeersSetPolicy
  cases hl : hdPeersLookup reg r.1 with
  | none =>
    split
    · next hk => rw [hk, PolicySlots.lookupPolicy_eq, Option.map_none, Option.getD_none,
        PolicySlots.lookupPolicy_eq, hl, Option.map_none, Option.map_none]
    · rfl
  | some i =>
    rw [Option.map_some, Option.getD_some, PolicySlots.lookupPolicy_eq, lookup_setPolicy]
    split
    · next hk =>
      rw [hk, PolicySlots.lookupPolicy_eq, hl, Option.map_some, setPolicy_self]
      rfl
    · next hk =>
      rw [PolicySlots.lookupPolicy_eq]
      cases hj : hdPeersLookup reg key with
      | none => rfl
      | some j =>
        have hji : j ≠ i := by
          rintro rfl
          exact hk ((HdPeerRegistry.lookup_some hj).2.symm.trans (HdPeerRegistry.lookup_some hl).2)
        have hkeep : (reg.setPolicy i r.2).policies j = reg.policies j :=
          Function.update_of_ne hji ..
        rw [Option.map_some, Option.map_some, hkeep]

theorem lookupPolicy_foldl (h : hdPeersLookupPolicy (rs.foldl applyRecord reg) key = some pol) :
    hdPeersLookupPolicy reg key = some pol ∨ (key, pol) ∈ rs := by
  induction rs generalizing reg with
  | nil =>
    rw [List.foldl_nil] at h
    exact Or.inl h
  | cons r rs ih =>
    rw [List.foldl_cons] at h
    obtain h | h := ih h
    · rw [lookupPolicy_applyRecord] at h
      split at h
      · next hk =>
        obtain ⟨_, -, rfl⟩ := Option.map_eq_some_iff.1 h
        subst hk
        exact Or.inr List.mem_cons_self
      · exact Or.inl h
    · exact Or.inr (List.mem_cons_of_mem _ h)

theorem lookupPolicy_foldl_other (h : key ∉ rs.map Prod.fst) :
    hdPeersLookupPolicy (rs.foldl applyRecord reg) key = hdPeersLookupPolicy reg key := by
  induction rs generalizing reg with
  | nil => rfl
  | cons r rs ih =>
    rw [List.map_cons, List.mem_cons, not_or] at h
    rw [List.foldl_cons, ih h.2, lookupPolicy_applyRecord, if_neg h.1]

theorem lookupPolicy_foldl_mem (hnodup : (rs.map Prod.fst).Nodup) (hmem : (key, pol) ∈ rs)
    (hlive : (hdPeersLookupPolicy reg key).isSome = true) :
    hdPeersLookupPolicy (rs.foldl applyRecord reg) key = some pol := by
  induction rs generalizing reg with
  | nil => cases hmem
  | cons r rs ih =>
    rw [List.map_cons, List.nodup_cons] at hnodup
    rw [List.foldl_cons]
    obtain rfl | hmem := List.mem_cons.1 hmem
    · obtain ⟨old, hold⟩ := Option.isSome_iff_exists.1 hlive
      rw [lookupPolicy_foldl_other hnodup.1, lookupPolicy_applyRecord, if_pos rfl, hold,
        Option.map_some]
    · have hne : key ≠ r.1 := by
        rintro rfl
        exact hnodup.1 (List.mem_map.2 ⟨_, hmem, rfl⟩)
      apply ih hnodup.2 hmem
      rwa [lookupPolicy_applyRecord, if_neg hne]

theorem lookupPolicy_foldl_none (h : hdPeersLookupPolicy reg key = none) :
    hdPeersLookupPolicy (rs.foldl applyRecord reg) key = none := by
  induction rs generalizing reg with
  | nil =>
    rw [List.foldl_nil]
    exact h
  | cons r rs ih =>
    rw [List.foldl_cons]
    apply ih
    rw [lookupPolicy_applyRecord, h]
    simp

theorem mem_storedPolicies (h : reg.KeysDistinct) : (key, pol) ∈ storedPolicies reg ↔
    hdPeersLookupPolicy reg key = some pol ∧ pol.stored = true := by
  rw [PolicySlots.lookupPolicy_eq, Option.map_eq_some_iff]
  constructor
  · intro hmem
    obtain ⟨i, hi, hpair⟩ := List.mem_map.1 hmem
    cases hpair
    simp only [List.mem_filter, Bool.and_eq_true, decide_eq_true_eq] at hi
    exact ⟨⟨i, h.lookup hi.2.1 rfl, rfl⟩, hi.2.2⟩
  · rintro ⟨⟨i, hi, rfl⟩, hstored⟩
    obtain ⟨hlive, rfl⟩ := HdPeerRegistry.lookup_some hi
    have hlive' : (reg.peers i).occupied = .live := hlive
    refine List.mem_map.2 ⟨i, ?_, rfl⟩
    simp [hlive', hstored]

theorem nodup_storedPolicies (h : reg.KeysDistinct) :
    ((storedPolicies reg).map Prod.fst).Nodup := by
  rw [storedPolicies, List.map_map]
  refine List.Nodup.map_on ?_ ((List.nodup_finRange _).filter _)
  intro i hi j hj heq
  simp only [List.mem_filter, Bool.and_eq_true, decide_eq_true_eq] at hi hj
  exact h i j hi.2.1 hj.2.1 heq

/-! ### Files -/

def SameKeys (reg reg' : HdPeerRegistry) : Prop :=
  ∀ key, (hdPeersLookup reg' key).isSome = (hdPeersLookup reg key).isSome

def Defaults (reg : HdPeerRegistry) : Prop :=
  ∀ key pol, hdPeersLookupPolicy reg key = some pol → pol = {}

/-- The texts fit their lengths, and a policy that is not written is the default one. -/
def Storable (reg : HdPeerRegistry) : Prop :=
  ∀ key pol, hdPeersLookupPolicy reg key = some pol → pol.Short ∧ (pol.stored = true ∨ pol = {})

theorem SameKeys.lookupPolicy (h : SameKeys reg reg') (key : Key) :
    (hdPeersLookupPolicy reg' key).isSome = (hdPeersLookupPolicy reg key).isSome := by
  rw [PolicySlots.lookupPolicy_eq, PolicySlots.lookupPolicy_eq, Option.isSome_map,
    Option.isSome_map]
  exact h key

theorem lookupPolicy_stored (hdistinct : reg.KeysDistinct) (hsame : SameKeys reg reg')
    (hdefault : Defaults reg') (h : Storable reg) (key : Key) :
    hdPeersLookupPolicy ((storedPolicies reg).foldl applyRecord reg') key =
      hdPeersLookupPolicy reg key := by
  have hlive := hsame.lookupPolicy key
  cases hpol : hdPeersLookupPolicy reg key with
  | none =>
    rw [hpol, Option.isSome_none, Option.isSome_eq_false_iff, Option.isNone_iff_eq_none] at hlive
    exact lookupPolicy_foldl_none hlive
  | some pol =>
    rw [hpol, Option.isSome_some] at hlive
    by_cases hstored : pol.stored = true
    · exact lookupPolicy_foldl_mem (nodup_storedPolicies hdistinct)
        ((mem_storedPolicies hdistinct).2 ⟨hpol, hstored⟩) hlive
    · have hplain : pol = {} := (h key pol hpol).2.resolve_left hstored
      have hnot : key ∉ (storedPolicies reg).map Prod.fst := by
        intro hmem
        obtain ⟨r, hr, rfl⟩ := List.mem_map.1 hmem
        obtain ⟨hsaved, hr2⟩ := (mem_storedPolicies hdistinct).1 hr
        rw [hpol, Option.some.injEq] at hsaved
        exact hstored (hsaved ▸ hr2)
      obtain ⟨old, hold⟩ := Option.isSome_iff_exists.1 hlive
      rw [lookupPolicy_foldl_other hnot, hold, hplain, hdefault key old hold]

/-- The policy file of `reg` gives all policies back, a part of it some of them, and the denylist
file the denylist. -/
structure Restores (reg reg' : HdPeerRegistry) : Prop where
  policies : ∀ key, hdPeersLookupPolicy (hdPeerPolicyLoad reg' (some (hdPeerPolicySave reg))) key =
    hdPeersLookupPolicy reg key
  part : ∀ n key pol,
    hdPeersLookupPolicy (hdPeerPolicyLoad reg' (some ((hdPeerPolicySave reg).take n))) key =
      some pol → pol = {} ∨ hdPeersLookupPolicy reg key = some pol
  denylist : (hdDenylistLoad reg' (some (hdDenylistSave reg))).denylist = reg.denylist

theorem Defaults.load_short (h : Defaults reg') {file : Option Bytes}
    (hpol : hdPeersLookupPolicy (hdPeerPolicyLoad reg' file) key = some pol) : pol.Short := by
  rw [load_eq] at hpol
  obtain hold | hmem := lookupPolicy_foldl hpol
  · rw [h key pol hold]
    exact ⟨Nat.two_pow_pos 16, Nat.two_pow_pos 16⟩
  · exact policyRecords_short file _ hmem

theorem Restores.short (h : Restores reg reg') (hdefault : Defaults reg')
    (hpol : hdPeersLookupPolicy reg key = some pol) : pol.Short := by
  rw [← h.policies key] at hpol
  exact hdefault.load_short hpol

theorem files_restore_iff (reg reg' : HdPeerRegistry) (hdistinct : reg.KeysDistinct)
    (hsame : SameKeys reg reg') (hdefault : Defaults reg') :
    Restores reg reg' ↔ Storable reg := by
  have hshort : (∀ key pol, hdPeersLookupPolicy reg key = some pol → pol.Short) →
      policyRecords (some (hdPeerPolicySave reg)) = storedPolicies reg := by
    intro hall
    apply policyRecords_save
    intro r hr
    exact hall r.1 r.2 ((mem_storedPolicies hdistinct).1 hr).1
  constructor
  · intro h key pol hpol
    have hrecords := hshort fun key pol hpol => h.short hdefault hpol
    refine ⟨h.short hdefault hpol, ?_⟩
    have hload := hpol
    rw [← h.policies key, load_eq, hrecords] at hload
    obtain hold | hmem := lookupPolicy_foldl hload
    · exact Or.inr (hdefault key pol hold)
    · exact Or.inl ((mem_storedPolicies hdistinct).1 hmem).2
  · intro h
    have hrecords := hshort fun key pol hpol => (h key pol hpol).1
    constructor
    · intro key
      rw [load_eq, hrecords]
      exact lookupPolicy_stored hdistinct hsame hdefault h key
    · intro n key pol hpol
      rw [load_eq] at hpol
      obtain hold | hmem := lookupPolicy_foldl hpol
      · exact Or.inl (hdefault key pol hold)
      · have hsub := (policyRecords_take (hdPeerPolicySave reg) n).subset hmem
        rw [hrecords] at hsub
        exact Or.inr ((mem_storedPolicies hdistinct).1 hsub).1
    · exact readKeys_save reg.denylist

/-! One peer with a policy, and the same peer without. -/

def enrolled : HdPeerRegistry := hdPeersInsert {} (byteKey 1) 5

def withPolicy (pol : HdPeerPolicy) : HdPeerRegistry := enrolled.setPolicy 0 pol

theorem enrolled_takes : HdPeerRegistry.Takes {} (byteKey 1) 0 :=
  HdPeerRegistry.takes_empty .kManual _

theorem enrolled_distinct : enrolled.KeysDistinct := by
  apply HdPeerRegistry.KeysDistinct.insert
  exact fun i _ hl => absurd hl (HdPeerRegistry.not_live_empty i)

theorem enrolled_lookup : hdPeersLookup enrolled (byteKey 1) = some 0 := by
  rw [enrolled, HdPeerRegistry.hdPeersInsert_takes enrolled_takes]
  exact HdPeerRegistry.lookup_enrol_self enrolled_takes 5

theorem withPolicy_distinct (pol : HdPeerPolicy) : (withPolicy pol).KeysDistinct := by
  rw [withPolicy]
  exact setPolicy_distinct enrolled_distinct 0 pol

theorem withPolicy_same (pol : HdPeerPolicy) : SameKeys (withPolicy pol) enrolled := by
  intro key
  rw [withPolicy, lookup_setPolicy]

theorem withPolicy_lookup (pol : HdPeerPolicy) :
    hdPeersLookupPolicy (withPolicy pol) (byteKey 1) = some pol := by
  have hslot : hdPeersLookup (withPolicy pol) (byteKey 1) = some 0 := by
    rw [withPolicy, lookup_setPolicy]
    exact enrolled_lookup
  rw [PolicySlots.lookupPolicy_eq, hslot, Option.map_some, withPolicy, setPolicy_self]

theorem enrolled_defaults : Defaults enrolled := by
  intro key pol hpol
  obtain ⟨i, -, rfl⟩ := Option.map_eq_some_iff.1 hpol
  rw [enrolled, HdPeerRegistry.hdPeersInsert_takes enrolled_takes]
  rfl

def pinnedPolicy : HdPeerPolicy where
  hasPin := true
  pinnedIntent := .kRequireRelay
  auditTag := [0x61]

theorem files_restore_pinned : Restores (withPolicy pinnedPolicy) enrolled ↔
    Storable (withPolicy pinnedPolicy) :=
  files_restore_iff (withPolicy pinnedPolicy) enrolled (withPolicy_distinct _) (withPolicy_same _)
    enrolled_defaults

def longTag : HdPeerPolicy where
  auditTag := List.replicate (2 ^ 16) 0x61

/-- A tag of 65536 bytes is written with the length 0. -/
theorem not_restores_longTag : (withPolicy longTag).KeysDistinct ∧
    SameKeys (withPolicy longTag) enrolled ∧ Defaults enrolled ∧
      ¬ Restores (withPolicy longTag) enrolled := by
  refine ⟨withPolicy_distinct _, withPolicy_same _, enrolled_defaults, fun h => ?_⟩
  have hshort := (h.short enrolled_defaults (withPolicy_lookup longTag)).1
  rw [longTag, List.length_replicate] at hshort
  exact Nat.lt_irrefl _ hshort

end SavedFiles

end HyperDerp
