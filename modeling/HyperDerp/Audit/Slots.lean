import HyperDerp.Audit.Ring

/-!
# The slots of the ring (`hd_audit.cc:124-144`)

A slot holds its decision once the call that made it is over, and until the slot is
claimed again.
-/

namespace HyperDerp.Audit

/-- Slot `i` holds decision `i`: its call is over and the slot is not claimed again. -/
@[mk_iff]
structure Settled (s : State) (i : ℕ) : Prop where
  fresh : s.writeIdx ≤ i + kHdAuditRingSize
  idle : ∀ w ∈ s.writers, w.seq % kHdAuditRingSize ≠ i % kHdAuditRingSize

instance (s : State) (i : ℕ) : Decidable (Settled s i) := decidable_of_iff _ (settled_iff s i).symm

theorem stored_all (src slot : HdAuditRecord) : stored kStores src slot = src := by
  have hlayers : ∀ layers : Fin 5 → Byte, Function.update (Function.update (Function.update
      (Function.update (Function.update layers 0 (src.layerAllowed 0)) 1 (src.layerAllowed 1)) 2
      (src.layerAllowed 2)) 3 (src.layerAllowed 3)) 4 (src.layerAllowed 4) = src.layerAllowed := by
    intro layers
    funext i
    match i with
    | 0 | 1 | 2 | 3 | 4 => simp
  unfold kStores
  simp only [stored, store, storeLayer, hlayers]

structure RingInv (s : State) : Prop where
  length : s.writeIdx = s.recorded.length
  call : ∀ w ∈ s.writers, s.recorded[w.seq]? = some w.record ∧
    s.writeIdx ≤ w.seq + kHdAuditRingSize ∧ w.done < kStores ∧
    ∃ slot, s.slots (w.seq % kHdAuditRingSize) = stored w.done w.record slot
  apart : ∀ v ∈ s.writers, ∀ w ∈ s.writers,
    v.seq % kHdAuditRingSize = w.seq % kHdAuditRingSize → v = w
  settled : ∀ i record, s.recorded[i]? = some record → Settled s i →
    s.slots (i % kHdAuditRingSize) = record

theorem RingInv.congr {s s' : State} (h : RingInv s) (hw : s'.writeIdx = s.writeIdx)
    (hr : s'.recorded = s.recorded) (hc : s'.writers = s.writers) (hs : s'.slots = s.slots) :
    RingInv s' where
  length := by rw [hw, hr, h.length]
  call := by
    rw [hc, hr, hw, hs]
    exact h.call
  apart := by
    rw [hc]
    exact h.apart
  settled := by
    intro i record hi hset
    rw [hr] at hi
    rw [hs]
    exact h.settled i record hi ⟨hw ▸ hset.fresh, hc ▸ hset.idle⟩

theorem ringInv_claim {s : State} (h : RingInv s) (record : HdAuditRecord)
    (hfree : ∀ w ∈ s.writers, w.seq % kHdAuditRingSize ≠ s.writeIdx % kHdAuditRingSize) :
    RingInv { s with
      writeIdx := s.writeIdx + 1
      writers := s.writers ++ [⟨s.writeIdx, record, 0⟩]
      recorded := s.recorded ++ [record] } where
  length := by simp [h.length]
  call := by
    intro w hw
    rw [List.mem_append, List.mem_singleton] at hw
    rcases hw with hw | rfl
    · obtain ⟨hrec, hfresh, hdone, hslot⟩ := h.call w hw
      have hlt : w.seq < s.recorded.length := (List.getElem?_eq_some_iff.1 hrec).1
      refine ⟨?_, ?_, hdone, hslot⟩
      · rw [List.getElem?_append_left hlt]
        exact hrec
      · -- at the bound the new call would be in the same slot
        have hne := hfree w hw
        have hbound : s.writeIdx ≠ w.seq + kHdAuditRingSize := by
          intro heq
          apply hne
          rw [heq, Nat.add_mod_right]
        change s.writeIdx + 1 ≤ _
        omega
    · refine ⟨?_, ?_, ?_, s.slots (s.writeIdx % kHdAuditRingSize), rfl⟩
      · rw [h.length, List.getElem?_concat_length]
      · simp [kHdAuditRingSize]
      · simp [kStores]
  apart := by
    intro v hv w hw heq
    rw [List.mem_append, List.mem_singleton] at hv hw
    rcases hv with hv | rfl
    · rcases hw with hw | rfl
      · exact h.apart v hv w hw heq
      · exact absurd heq (hfree v hv)
    · rcases hw with hw | rfl
      · exact absurd heq.symm (hfree w hw)
      · rfl
  settled := by
    intro i r hi hset
    have hlast : i ≠ s.writeIdx := by
      rintro rfl
      exact hset.idle _ (List.mem_append_right _ (List.mem_singleton_self _)) rfl
    have hlt : i < s.recorded.length := by
      have hle := (List.getElem?_eq_some_iff.1 hi).1
      rw [List.length_append, List.length_singleton] at hle
      have hlen := h.length
      omega
    rw [List.getElem?_append_left hlt] at hi
    apply h.settled i r hi
    refine ⟨?_, fun w hw => hset.idle w (List.mem_append_left _ hw)⟩
    have hfresh := hset.fresh
    dsimp only at hfresh
    omega

theorem mem_advance {writers : List Writer} {w v : Writer} (h : v ∈ advance writers w) :
    v ∈ writers ∧ v.seq ≠ w.seq ∨ v = w.next ∧ w.done + 1 < kStores := by
  unfold advance at h
  dsimp only at h
  split at h
  · next hmore =>
    rw [List.mem_append, List.mem_filter, decide_eq_true_eq, List.mem_singleton] at h
    rcases h with h | h
    · exact .inl h
    · exact .inr ⟨h, hmore⟩
  · rw [List.mem_filter, decide_eq_true_eq] at h
    exact .inl h

theorem mem_advance_other {writers : List Writer} {w v : Writer} (hv : v ∈ writers)
    (hne : v.seq ≠ w.seq) : v ∈ advance writers w := by
  have hmem : v ∈ writers.filter fun u => decide (u.seq ≠ w.seq) := by
    rw [List.mem_filter]
    exact ⟨hv, decide_eq_true hne⟩
  unfold advance
  dsimp only
  split
  · exact List.mem_append_left _ hmem
  · exact hmem

theorem ringInv_store {s : State} (h : RingInv s) {w : Writer} (hw : w ∈ s.writers) :
    RingInv { s with
      slots := Function.update s.slots (w.seq % kHdAuditRingSize)
        (store w.done w.record (s.slots (w.seq % kHdAuditRingSize)))
      writers := advance s.writers w } := by
  obtain ⟨hrec, hfresh, hdone, slot, hslot⟩ := h.call w hw
  have hother : ∀ v ∈ s.writers, v.seq ≠ w.seq →
      v.seq % kHdAuditRingSize ≠ w.seq % kHdAuditRingSize := by
    intro v hv hne heq
    exact hne (congrArg Writer.seq (h.apart v hv w hw heq))
  constructor
  · exact h.length
  · intro v hv
    dsimp only
    rcases mem_advance hv with ⟨hv, hne⟩ | ⟨rfl, hmore⟩
    · rw [Function.update_of_ne (hother v hv hne)]
      exact h.call v hv
    · refine ⟨hrec, hfresh, hmore, slot, ?_⟩
      change Function.update _ _ _ (w.seq % kHdAuditRingSize) = _
      rw [Function.update_self, hslot]
      rfl
  · intro v hv u hu heq
    dsimp only at hv hu
    rcases mem_advance hv with ⟨hv, hvne⟩ | ⟨rfl, -⟩
    · rcases mem_advance hu with ⟨hu, -⟩ | ⟨rfl, -⟩
      · exact h.apart v hv u hu heq
      · exact absurd heq (hother v hv hvne)
    · rcases mem_advance hu with ⟨hu, hune⟩ | ⟨rfl, -⟩
      · exact absurd heq.symm (hother u hu hune)
      · rfl
  · intro i record hi hset
    dsimp only at hi ⊢
    by_cases hsame : i % kHdAuditRingSize = w.seq % kHdAuditRingSize
    · -- the call is over: after its last store the slot is the record
      have hlast : w.done + 1 = kStores := by
        by_contra hne
        have hmem : w.next ∈ advance s.writers w := by
          unfold advance
          dsimp only
          rw [if_pos (by omega)]
          exact List.mem_append_right _ (List.mem_singleton_self _)
        exact hset.idle _ hmem hsame.symm
      have hiw : i = w.seq := by
        have hlt := (List.getElem?_eq_some_iff.1 hi).1
        have hltw := (List.getElem?_eq_some_iff.1 hrec).1
        have hlen := h.length
        have hfresh' := hset.fresh
        dsimp only at hfresh'
        unfold kHdAuditRingSize at *
        omega
      subst hiw
      have heq : record = w.record := Option.some.inj (hi.symm.trans hrec)
      rw [Function.update_self, hslot, heq]
      change stored (w.done + 1) w.record slot = w.record
      rw [hlast, stored_all]
    · rw [Function.update_of_ne hsame]
      apply h.settled i record hi
      refine ⟨hset.fresh, fun v hv hslot' => ?_⟩
      by_cases hvw : v.seq = w.seq
      · exact hsame (hslot'.symm.trans (congrArg (· % kHdAuditRingSize) hvw))
      · exact hset.idle v (mem_advance_other hv hvw) hslot'

end HyperDerp.Audit
