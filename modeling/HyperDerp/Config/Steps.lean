import HyperDerp.Config.Session

/-!
# What a request does

A record whose entries are all accepted, no path twice, is applied in full and each
path ends up with its own entry. From this follows, for a good candidate and a good
log, everything that a request can do (`Did`).
-/

namespace HyperDerp

namespace Config

open Text (utf8)

variable {s s' : Live} {srv : Server} {env : Env} {req : Request} {rec last : CommitRecord}
  {p q : ConfigPath} {path k v : Bytes} {m : Values} {entries : List Entry}

/-! ### Applying entries -/

/-- An allowlisted path with a text that its validator accepts. -/
def EntryOk (kv : Bytes × Bytes) : Prop := ∃ p, findPath kv.1 = some p ∧ p.Accepts kv.2

theorem applyEntry_ok {kv : Bytes × Bytes} (hp : findPath kv.1 = some p) (hv : p.Accepts kv.2)
    (s : Live) : ∃ s', applyEntry s kv = some s' ∧ s'.get p = p.setting kv.2 ∧
      ∀ q ≠ p, s'.get q = s.get q := by
  obtain ⟨s', hs', hget⟩ := apply_accepted hv s
  refine ⟨s', ?_, hget, fun q hq => apply_get_ne hs' hq⟩
  unfold applyEntry
  rw [hp]
  exact hs'

theorem applyAll_ok (kvs : List (Bytes × Bytes)) (hok : ∀ kv ∈ kvs, EntryOk kv)
    (hnodup : (kvs.map Prod.fst).Nodup) (s : Live) :
    (applyAll s kvs).2 = true ∧
      (∀ p v, (p.name, v) ∈ kvs → (applyAll s kvs).1.get p = p.setting v) ∧
      ∀ p, p.name ∉ kvs.map Prod.fst → (applyAll s kvs).1.get p = s.get p := by
  induction kvs generalizing s with
  | nil => exact ⟨rfl, nofun, fun _ _ => rfl⟩
  | cons kv kvs ih =>
    obtain ⟨p, hp, hv⟩ := hok kv (List.mem_cons_self ..)
    obtain ⟨s', hs', hself, hother⟩ := applyEntry_ok hp hv s
    rw [List.map_cons, List.nodup_cons] at hnodup
    obtain ⟨hdone, hsets, hrest⟩ := ih (fun kv h => hok kv (List.mem_cons_of_mem _ h)) hnodup.2 s'
    have hstep : applyAll s (kv :: kvs) = applyAll s' kvs := by
      rw [applyAll, hs']
    rw [hstep]
    refine ⟨hdone, fun q w hq => ?_, fun q hq => ?_⟩
    · rcases List.mem_cons.1 hq with heq | hmem
      · have hname : p.name = q.name := by rw [findPath_some hp, ← heq]
        have hqp := name_injective hname
        subst hqp
        rw [← heq] at hnodup hself
        rw [hrest _ hnodup.1, hself]
      · exact hsets q w hmem
    · rw [List.map_cons, List.mem_cons, not_or] at hq
      rw [hrest q hq.2, hother q]
      intro hqp
      apply hq.1
      rw [hqp, findPath_some hp]

/-! ### Records -/

structure RecordOk (rec : CommitRecord) : Prop where
  sets : ∀ kv ∈ rec.sets, EntryOk kv
  deletes : ∀ k ∈ rec.deletes, ∃ p, findPath k = some p
  setsNodup : (rec.sets.map Prod.fst).Nodup
  deletesNodup : rec.deletes.Nodup
  disjoint : ∀ kv ∈ rec.sets, kv.1 ∉ rec.deletes

structure Applied (rec : CommitRecord) (s s' : Live) : Prop where
  sets : ∀ p v, (p.name, v) ∈ rec.sets → s'.get p = p.setting v
  deletes : ∀ p, p.name ∈ rec.deletes → s'.get p = p.default
  other : ∀ p, p.name ∉ rec.sets.map Prod.fst → p.name ∉ rec.deletes → s'.get p = s.get p

theorem defaultEntry_name (p : ConfigPath) :
    defaultEntry p.name = (p.name, p.row.defaultValue) := by
  unfold defaultEntry
  rw [findPath_name]
  rfl

theorem entries_fst (rec : CommitRecord) :
    rec.entries.map Prod.fst = rec.sets.map Prod.fst ++ rec.deletes := by
  have hfst : Prod.fst ∘ defaultEntry = id := rfl
  rw [CommitRecord.entries, List.map_append, List.map_map, hfst, List.map_id]

theorem RecordOk.entryOk (h : RecordOk rec) : ∀ kv ∈ rec.entries, EntryOk kv := by
  intro kv hkv
  rcases List.mem_append.1 hkv with hset | hdel
  · exact h.sets kv hset
  · obtain ⟨k, hk, rfl⟩ := List.mem_map.1 hdel
    obtain ⟨p, hp⟩ := h.deletes k hk
    refine ⟨p, hp, ?_⟩
    rw [← findPath_some hp, defaultEntry_name]
    exact default_accepted p

theorem RecordOk.applied (h : RecordOk rec) (s : Live) :
    (applyAll s rec.entries).2 = true ∧ Applied rec s (applyAll s rec.entries).1 := by
  have hnodup : (rec.entries.map Prod.fst).Nodup := by
    rw [entries_fst, List.nodup_append]
    refine ⟨h.setsNodup, h.deletesNodup, ?_⟩
    rintro a ha _ hb rfl
    obtain ⟨kv, hkv, rfl⟩ := List.mem_map.1 ha
    exact h.disjoint kv hkv hb
  obtain ⟨hdone, hget, hrest⟩ := applyAll_ok rec.entries h.entryOk hnodup s
  refine ⟨hdone, ?_, ?_, ?_⟩
  · exact fun p v hp => hget p v (List.mem_append_left _ hp)
  · intro p hp
    apply hget p
    rw [← defaultEntry_name]
    exact List.mem_append_right _ (List.mem_map_of_mem hp)
  · intro p hset hdel
    apply hrest
    rw [entries_fst, List.mem_append, not_or]
    exact ⟨hset, hdel⟩

theorem RecordOk.filter_known (h : RecordOk rec) :
    (rec.entries.filter fun kv => (findPath kv.1).isSome) = rec.entries := by
  rw [List.filter_eq_self]
  intro kv hkv
  obtain ⟨p, hp, -⟩ := h.entryOk kv hkv
  rw [hp]
  rfl

/-! ### State of the log -/

theorem lookup_foldl_erase (ks : List Bytes) (m : Values) :
    (ks.foldl (fun m k => m.erase k) m).lookup k = if k ∈ ks then none else m.lookup k := by
  induction ks generalizing m with
  | nil => rfl
  | cons a ks ih =>
    rw [List.foldl_cons, ih]
    by_cases hk : k ∈ ks
    · rw [if_pos hk, if_pos (List.mem_cons_of_mem _ hk)]
    · by_cases ha : k = a
      · subst ha
        rw [if_neg hk, if_pos (List.mem_cons_self ..), AList.lookup_erase]
      · have hcons : k ∉ a :: ks := fun h => (List.mem_cons.1 h).elim ha hk
        rw [if_neg hk, if_neg hcons, AList.lookup_erase_ne ha]

theorem lookup_foldl_insert_some (kvs : List (Bytes × Bytes)) (m : Values)
    (h : (kvs.foldl (fun m kv => m.insert kv.1 kv.2) m).lookup k = some v) :
    (k, v) ∈ kvs ∨ m.lookup k = some v := by
  induction kvs generalizing m with
  | nil => exact .inr h
  | cons kv kvs ih =>
    rcases ih _ h with hmem | hm
    · exact .inl (List.mem_cons_of_mem _ hmem)
    · by_cases hk : k = kv.1
      · subst hk
        rw [AList.lookup_insert, Option.some.injEq] at hm
        rw [← hm]
        exact .inl (List.mem_cons_self ..)
      · rw [AList.lookup_insert_ne hk] at hm
        exact .inr hm

theorem lookup_foldl_insert_notMem (kvs : List (Bytes × Bytes)) (m : Values)
    (h : k ∉ kvs.map Prod.fst) :
    (kvs.foldl (fun m kv => m.insert kv.1 kv.2) m).lookup k = m.lookup k := by
  induction kvs generalizing m with
  | nil => rfl
  | cons kv kvs ih =>
    rw [List.map_cons, List.mem_cons, not_or] at h
    rw [List.foldl_cons, ih _ h.2, AList.lookup_insert_ne h.1]

theorem lookup_foldl_insert_mem (kvs : List (Bytes × Bytes)) (m : Values)
    (hnodup : (kvs.map Prod.fst).Nodup) (h : (k, v) ∈ kvs) :
    (kvs.foldl (fun m kv => m.insert kv.1 kv.2) m).lookup k = some v := by
  induction kvs generalizing m with
  | nil => cases h
  | cons kv kvs ih =>
    rw [List.map_cons, List.nodup_cons] at hnodup
    rw [List.foldl_cons]
    rcases List.mem_cons.1 h with rfl | hmem
    · rw [lookup_foldl_insert_notMem _ _ hnodup.1, AList.lookup_insert]
    · exact ih _ hnodup.2 hmem

theorem lookup_applyRecord_set (h : RecordOk rec) (m : Values) (hkv : (k, v) ∈ rec.sets) :
    (applyRecord m rec).lookup k = some v := by
  rw [applyRecord, lookup_foldl_erase, if_neg (h.disjoint _ hkv),
    lookup_foldl_insert_mem _ _ h.setsNodup hkv]

theorem lookup_applyRecord_delete (rec : CommitRecord) (m : Values) (hk : k ∈ rec.deletes) :
    (applyRecord m rec).lookup k = none := by
  rw [applyRecord, lookup_foldl_erase, if_pos hk]

theorem lookup_applyRecord_other (rec : CommitRecord) (m : Values)
    (hset : k ∉ rec.sets.map Prod.fst) (hdel : k ∉ rec.deletes) :
    (applyRecord m rec).lookup k = m.lookup k := by
  rw [applyRecord, lookup_foldl_erase, if_neg hdel, lookup_foldl_insert_notMem _ _ hset]

theorem finalState_snoc (records : List CommitRecord) (rec : CommitRecord) :
    finalState (records ++ [rec]) = applyRecord (finalState records) rec := by
  simp [finalState]

theorem record_names (rec : CommitRecord) (k : Bytes) :
    (∃ v, (k, v) ∈ rec.sets) ∨ k ∈ rec.deletes ∨
      k ∉ rec.sets.map Prod.fst ∧ k ∉ rec.deletes := by
  by_cases hset : k ∈ rec.sets.map Prod.fst
  · obtain ⟨⟨k', v⟩, hmem, rfl⟩ := List.mem_map.1 hset
    exact .inl ⟨v, hmem⟩
  · by_cases hdel : k ∈ rec.deletes
    · exact .inr (.inl hdel)
    · exact .inr (.inr ⟨hset, hdel⟩)

theorem finalState_mem (records : List CommitRecord) (h : (finalState records).lookup k = some v) :
    ∃ rec ∈ records, (k, v) ∈ rec.sets := by
  induction records using List.reverseRecOn with
  | nil => cases h
  | append_singleton records rec ih =>
    rw [finalState_snoc, applyRecord, lookup_foldl_erase] at h
    split at h
    · cases h
    · rcases lookup_foldl_insert_some _ _ h with hmem | hold
      · exact ⟨rec, by simp, hmem⟩
      · obtain ⟨r, hr, hmem⟩ := ih hold
        exact ⟨r, List.mem_append_left _ hr, hmem⟩

variable {records : List CommitRecord} {log : Bytes}

theorem finalState_ok (h : ∀ rec ∈ records, RecordOk rec)
    (hk : (finalState records).lookup k = some v) : EntryOk (k, v) := by
  obtain ⟨rec, hrec, hmem⟩ := finalState_mem records hk
  exact (h rec hrec).sets _ hmem

theorem mem_restored {prev : Values} {ks : List Bytes} :
    (k, v) ∈ restored prev ks ↔ k ∈ ks ∧ prev.lookup k = some v := by
  simp only [restored, List.mem_filterMap, Option.map_eq_some_iff, Prod.mk.injEq]
  constructor
  · rintro ⟨k', hk, v', hv, rfl, rfl⟩
    exact ⟨hk, hv⟩
  · rintro ⟨hk, hv⟩
    exact ⟨k, hk, v, hv, rfl, rfl⟩

theorem restored_fst (prev : Values) (ks : List Bytes) :
    (restored prev ks).map Prod.fst = ks.filter fun k => (prev.lookup k).isSome := by
  induction ks with
  | nil => rfl
  | cons k ks ih =>
    unfold restored at ih ⊢
    cases hk : prev.lookup k with
    | none => simp [hk, ih]
    | some v => simp [hk, ih]

theorem inverse_ok {prev : Values} (hprev : ∀ k v, prev.lookup k = some v → EntryOk (k, v))
    (h : RecordOk last) : RecordOk (inverseRecord prev last) := by
  have hfst : (inverseRecord prev last).sets.map Prod.fst =
      (last.sets.map Prod.fst ++ last.deletes).filter fun k => (prev.lookup k).isSome := by
    rw [inverseRecord, List.map_append, restored_fst, restored_fst, List.filter_append]
  refine ⟨?_, ?_, ?_, h.setsNodup.filter _, ?_⟩
  · rintro ⟨k, v⟩ hkv
    rcases List.mem_append.1 hkv with hmem | hmem
    · exact hprev k v (mem_restored.1 hmem).2
    · exact hprev k v (mem_restored.1 hmem).2
  · intro k hk
    obtain ⟨kv, hkv, rfl⟩ := List.mem_map.1 (List.mem_filter.1 hk).1
    obtain ⟨p, hp, -⟩ := h.sets kv hkv
    exact ⟨p, hp⟩
  · rw [hfst]
    apply List.Nodup.filter
    rw [List.nodup_append]
    refine ⟨h.setsNodup, h.deletesNodup, ?_⟩
    rintro a ha _ hb rfl
    obtain ⟨kv, hkv, rfl⟩ := List.mem_map.1 ha
    exact h.disjoint kv hkv hb
  · rintro kv hkv hdel
    have hmem : kv.1 ∈ (inverseRecord prev last).sets.map Prod.fst := List.mem_map_of_mem hkv
    rw [hfst, List.mem_filter] at hmem
    have hnone := (List.mem_filter.1 hdel).2
    rw [Option.isNone_iff_eq_none] at hnone
    rw [hnone] at hmem
    exact Bool.false_ne_true hmem.2

/-! ### Candidates -/

/-- A candidate that can be committed: what `set` and `delete` leave behind. -/
structure CandidateOk (cfg : ConfigSession) : Prop where
  sets : ∀ path v, cfg.setValues.lookup path = some v → EntryOk (path, v)
  deletes : ∀ path ∈ cfg.deletedPaths, ∃ p, findPath path = some p
  disjoint : ∀ path ∈ cfg.deletedPaths, path ∉ cfg.setValues
  nodup : cfg.deletedPaths.Nodup
  closed : cfg.activeId = none → cfg.setValues = ∅ ∧ cfg.deletedPaths = []

variable {cfg : ConfigSession}

theorem mem_candidate_sets :
    (k, v) ∈ (candidateRecord cfg env).sets ↔ cfg.setValues.lookup k = some v := by
  simp only [candidateRecord, List.mem_map, Prod.mk.injEq]
  rw [← Option.mem_def, AList.mem_lookup_iff]
  constructor
  · rintro ⟨⟨k', v'⟩, hmem, rfl, rfl⟩
    exact (env.sets_perm _).mem_iff.1 hmem
  · intro hmem
    exact ⟨⟨k, v⟩, (env.sets_perm _).mem_iff.2 hmem, rfl, rfl⟩

theorem mem_candidate_deletes :
    k ∈ (candidateRecord cfg env).deletes ↔ k ∈ cfg.deletedPaths :=
  (env.deletes_perm _).mem_iff

theorem mem_candidate_keys :
    k ∈ (candidateRecord cfg env).sets.map Prod.fst ↔ k ∈ cfg.setValues := by
  rw [← AList.lookup_isSome, Option.isSome_iff_exists]
  constructor
  · intro hk
    obtain ⟨⟨k', v⟩, hmem, rfl⟩ := List.mem_map.1 hk
    exact ⟨v, mem_candidate_sets.1 hmem⟩
  · rintro ⟨v, hv⟩
    exact List.mem_map.2 ⟨(k, v), mem_candidate_sets.2 hv, rfl⟩

theorem CandidateOk.recordOk (h : CandidateOk cfg) (env : Env) :
    RecordOk (candidateRecord cfg env) := by
  have hkeys : (candidateRecord cfg env).sets.map Prod.fst =
      (env.sets cfg.setValues.entries).map Sigma.fst := by
    simp [candidateRecord]
  refine ⟨?_, ?_, ?_, ?_, ?_⟩
  · rintro ⟨k, v⟩ hkv
    exact h.sets k v (mem_candidate_sets.1 hkv)
  · exact fun k hk => h.deletes k (mem_candidate_deletes.1 hk)
  · rw [hkeys]
    exact (((env.sets_perm _).map _).nodup_iff).2 cfg.setValues.keys_nodup
  · exact (env.deletes_perm _).nodup_iff.2 h.nodup
  · intro kv hkv hdel
    exact h.disjoint _ (mem_candidate_deletes.1 hdel)
      (mem_candidate_keys.1 (List.mem_map_of_mem hkv))

/-! ### Logs -/

structure LogOk (log : Bytes) (entries : List Entry) : Prop where
  log : log = logOf entries
  ok : ∀ e ∈ entries, e.Ok
  records : ∀ e ∈ entries, RecordOk e.record

theorem LogOk.load (h : LogOk log entries) :
    loadCommitLog log = (entries.map Entry.record, 0) := by
  rw [h.log, load_logOf h.ok]

theorem LogOk.recordOk (h : LogOk log entries) :
    ∀ rec ∈ entries.map Entry.record, RecordOk rec := by
  intro rec hrec
  obtain ⟨e, he, rfl⟩ := List.mem_map.1 hrec
  exact h.records e he

theorem LogOk.loaded {last : CommitRecord} (h : LogOk log entries)
    (hload : (loadCommitLog log).1 = records ++ [last]) :
    (∀ rec ∈ records ++ [last], RecordOk rec) ∧ ∀ rec ∈ records, rec.Clean := by
  have hrecords : records ++ [last] = entries.map Entry.record := by rw [← hload, h.load]
  refine ⟨?_, ?_⟩
  · rw [hrecords]
    exact h.recordOk
  · intro rec hrec
    have hmem : rec ∈ entries.map Entry.record := by
      rw [← hrecords]
      exact List.mem_append_left _ hrec
    obtain ⟨e, he, rfl⟩ := List.mem_map.1 hmem
    exact (h.ok e he).record

def GoodLog (srv : Server) : Prop := srv.commitLogPath = [] ∨ ∃ entries, LogOk srv.log entries

theorem clean_name (p : ConfigPath) : Clean p.name := by
  cases p <;> decide

theorem EntryOk.clean_fst {kv : Bytes × Bytes} (h : EntryOk kv) : Clean kv.1 := by
  obtain ⟨p, hp, -⟩ := h
  rw [← findPath_some hp]
  exact clean_name p

theorem RecordOk.clean (h : RecordOk rec) (hv : ∀ kv ∈ rec.sets, Clean kv.2) : rec.Clean := by
  refine ⟨fun kv hkv => ⟨(h.sets kv hkv).clean_fst, hv kv hkv⟩, fun k hk => ?_⟩
  obtain ⟨p, hp⟩ := h.deletes k hk
  rw [← findPath_some hp]
  exact clean_name p

theorem clean_rfc3339 {ts : Bytes} (h : ∀ c ∈ ts, Text.isDigit c = true ∨ c ∈ utf8 "-:T.Z") :
    Clean ts := by
  have htext : ∀ c, Text.isDigit c = true ∨ c ∈ utf8 "-:T.Z" → c ≠ Text.tab ∧ c ≠ Text.newline := by
    rintro c hc
    refine ⟨?_, ?_⟩ <;>
    · rintro rfl
      exact absurd hc (by decide)
  exact ⟨fun hmem => (htext _ (h _ hmem)).1 rfl, fun hmem => (htext _ (h _ hmem)).2 rfl⟩

theorem Env.clean_ts (env : Env) : Clean env.ts := clean_rfc3339 env.ts_digits

theorem LogOk.append (h : LogOk log entries) (hrec : RecordOk rec) (hclean : rec.Clean)
    (hid : rec.commitId < 2 ^ 64) (env : Env) :
    LogOk (log ++ encodeCommitRecord rec.commitId env.ts rec) (entries ++ [⟨rec, env.ts⟩]) := by
  refine ⟨?_, ?_, ?_⟩
  · rw [logOf_append, h.log]
  · intro e he
    rcases List.mem_append.1 he with he | he
    · exact h.ok e he
    · rw [List.mem_singleton.1 he]
      exact ⟨hclean, env.clean_ts, hid⟩
  · intro e he
    rcases List.mem_append.1 he with he | he
    · exact h.records e he
    · rw [List.mem_singleton.1 he]
      exact hrec

/-! ### Requests -/

/-- The record that `rollback previous` commits. -/
def undoRecord (srv : Server) (records : List CommitRecord) (last : CommitRecord) : CommitRecord :=
  { inverseRecord (finalState records) last with
    commitId := (srv.session.commitCount + 1) % 2 ^ 64 }

theorem undo_ok (srv : Server) (h : ∀ rec ∈ records ++ [last], RecordOk rec) :
    RecordOk (undoRecord srv records last) := by
  have hinv := inverse_ok (fun k v hk =>
    finalState_ok (fun r hr => h r (List.mem_append_left _ hr)) hk) (h last (by simp))
  exact ⟨hinv.sets, hinv.deletes, hinv.setsNodup, hinv.deletesNodup, hinv.disjoint⟩

theorem undo_clean (srv : Server) (h : ∀ rec ∈ records ++ [last], RecordOk rec)
    (hclean : ∀ rec ∈ records, rec.Clean) :
    (undoRecord srv records last).Clean := by
  apply (undo_ok srv h).clean
  rintro ⟨k, v⟩ hkv
  have hlookup : (finalState records).lookup k = some v := by
    rcases List.mem_append.1 hkv with hmem | hmem
    · exact (mem_restored.1 hmem).2
    · exact (mem_restored.1 hmem).2
  obtain ⟨rec, hrec, hmem⟩ := finalState_mem records hlookup
  exact ((hclean rec hrec).sets _ hmem).2

inductive Did (srv : Server) (env : Env) (req : Request) : Server → Response → Prop
  | rejected (r : Response) : r.rejected = true → r ≠ .handlerException → Did srv env req srv r
  | configured : req.command = utf8 "configure" →
      Did srv env req
        { srv with session :=
          { activeId := some (sessionIdOf srv.session.nextId)
            nextId := (srv.session.nextId + 1) % 2 ^ 64
            commitCount := srv.session.commitCount } } (.ok (sessionIdOf srv.session.nextId))
  | setValue (p : ConfigPath) (v : Bytes) : req.command = utf8 "set" →
      sessionMatches srv.session req = true → joinPath req.args.dropLast = p.name →
      req.args.getLastD [] = v → p.Accepts v →
      Did srv env req
        { srv with session := { srv.session with
          setValues := srv.session.setValues.insert p.name v
          deletedPaths := srv.session.deletedPaths.erase p.name } } (.ok [])
  | deleted (p : ConfigPath) : req.command = utf8 "delete" →
      sessionMatches srv.session req = true → joinPath req.args = p.name →
      Did srv env req
        { srv with session := { srv.session with
          setValues := srv.session.setValues.erase p.name
          deletedPaths := srv.session.deletedPaths.insert p.name } } (.ok [])
  | committed (live : Live) : req.command = utf8 "commit" →
      sessionMatches srv.session req = true →
      Applied (candidateRecord srv.session env) srv.live live →
      Did srv env req
        { srv with
          live := live
          log := appendCommitRecord srv env (candidateRecord srv.session env)
          session :=
            { nextId := srv.session.nextId
              commitCount := (srv.session.commitCount + 1) % 2 ^ 64 } }
        (.ok (commitBody ((srv.session.commitCount + 1) % 2 ^ 64)))
  | discarded : req.command = utf8 "rollback" →
      Did srv env req
        { srv with session :=
          { nextId := srv.session.nextId, commitCount := srv.session.commitCount } } (.ok [])
  | undone (records : List CommitRecord) (last : CommitRecord) (live : Live) :
      (req.command = utf8 "rollback" ∨ req.command = utf8 "rollback_previous") →
      rollbackScope req = utf8 "previous" → srv.commitLogPath ≠ [] → srv.session.activeId = none →
      (loadCommitLog srv.log).1 = records ++ [last] →
      Applied (undoRecord srv records last) srv.live live →
      Did srv env req
        { srv with
          live := live
          log := appendCommitRecord srv env (undoRecord srv records last)
          session := { srv.session with
            commitCount := (srv.session.commitCount + 1) % 2 ^ 64 } }
        (.ok (rollbackBody ((srv.session.commitCount + 1) % 2 ^ 64) last.commitId))

theorem did_error {code message : String} :
    Did srv env req (report (srv, errorOf code message)).1
      (report (srv, errorOf code message)).2 := .rejected _ rfl nofun

theorem configure_eq (hc : CandidateOk srv.session) (env : Env) (req : Request) :
    configure srv env req =
      ({ srv with session :=
          { activeId := some (sessionIdOf srv.session.nextId)
            nextId := (srv.session.nextId + 1) % 2 ^ 64
            commitCount := srv.session.commitCount } },
        some (.ok (sessionIdOf srv.session.nextId))) := by
  unfold configure
  cases ha : srv.session.activeId with
  | some id =>
    have hopen : srv.session.activeId.isSome = true := by rw [ha]; rfl
    simp only [hopen, if_true]
  | none =>
    obtain ⟨hsets, hdeletes⟩ := hc.closed ha
    have hopen : srv.session.activeId.isSome = false := by rw [ha]; rfl
    simp only [hopen, Bool.false_eq_true, if_false, hsets, hdeletes]

theorem configure_did (hc : CandidateOk srv.session) (hcmd : req.command = utf8 "configure") :
    Did srv env req (report (configure srv env req)).1 (report (configure srv env req)).2 := by
  rw [configure_eq hc]
  exact .configured hcmd

theorem set_did (hcmd : req.command = utf8 "set") :
    Did srv env req (report (set srv env req)).1 (report (set srv env req)).2 := by
  unfold set
  split
  · exact did_error
  · split
    · exact did_error
    · next hmatch =>
      rw [Bool.not_eq_true, Bool.not_eq_false'] at hmatch
      split
      · exact did_error
      · dsimp only
        split
        · exact .rejected _ rfl nofun
        · next p hp =>
          split
          · exact .rejected _ rfl nofun
          · next hv =>
            rw [← findPath_some hp]
            exact .setValue p _ hcmd hmatch (findPath_some hp).symm rfl (not_not.1 hv)

theorem delete_did (hcmd : req.command = utf8 "delete") :
    Did srv env req (report (delete srv env req)).1 (report (delete srv env req)).2 := by
  unfold delete
  split
  · exact did_error
  · split
    · exact did_error
    · next hmatch =>
      rw [Bool.not_eq_true, Bool.not_eq_false'] at hmatch
      split
      · exact did_error
      · dsimp only
        split
        · exact .rejected _ rfl nofun
        · next p hp =>
          rw [← findPath_some hp]
          exact .deleted p hcmd hmatch (findPath_some hp).symm

theorem commit_did (hc : CandidateOk srv.session) (hcmd : req.command = utf8 "commit") :
    Did srv env req (report (commit srv env req)).1 (report (commit srv env req)).2 := by
  obtain ⟨hdone, happlied⟩ := (hc.recordOk env).applied srv.live
  unfold commit
  split
  · exact did_error
  · split
    · exact did_error
    · next hmatch =>
      rw [Bool.not_eq_true, Bool.not_eq_false'] at hmatch
      dsimp only
      rw [hdone, if_pos rfl]
      exact .committed _ hcmd hmatch happlied

theorem rollbackPrevious_did (hl : GoodLog srv)
    (hcmd : req.command = utf8 "rollback" ∨ req.command = utf8 "rollback_previous")
    (hscope : rollbackScope req = utf8 "previous") :
    Did srv env req (report (rollbackPrevious srv env)).1
      (report (rollbackPrevious srv env)).2 := by
  unfold rollbackPrevious
  split
  · exact did_error
  · next hpath =>
    obtain ⟨entries, hlog⟩ := hl.resolve_left hpath
    have hok : ∀ rec ∈ (loadCommitLog srv.log).1, RecordOk rec := by
      rw [hlog.load]
      exact hlog.recordOk
    dsimp only
    split
    · exact did_error
    · next last hlast =>
      have hsplit := List.dropLast_append_getLast? last hlast
      split
      · exact did_error
      · next hactive =>
        split
        · exact did_error
        · have hundo : RecordOk (undoRecord srv (loadCommitLog srv.log).1.dropLast last) := by
            apply undo_ok
            rw [hsplit]
            exact hok
          obtain ⟨hdone, happlied⟩ := hundo.applied srv.live
          have hfilter := hundo.filter_known
          unfold undoRecord at hdone happlied hfilter
          rw [hfilter, hdone, if_pos rfl]
          rw [Bool.not_eq_true, Option.isSome_eq_false_iff, Option.isNone_iff_eq_none] at hactive
          exact .undone _ last _ hcmd hscope hpath hactive hsplit.symm happlied

theorem rollback_did (hl : GoodLog srv)
    (hcmd : req.command = utf8 "rollback" ∨ req.command = utf8 "rollback_previous") :
    Did srv env req (report (rollback srv env req)).1 (report (rollback srv env req)).2 := by
  have hne : utf8 "previous" ≠ utf8 "candidate" := by decide
  unfold rollback
  split
  · next hscope =>
    rcases hcmd with hroll | hprev
    · exact .discarded hroll
    · unfold rollbackScope at hscope
      rw [if_pos hprev] at hscope
      exact absurd hscope hne
  · split
    · exact did_error
    · next hscope => exact rollbackPrevious_did hl hcmd (not_not.1 hscope)

theorem dispatch_did (hc : CandidateOk srv.session) (hl : GoodLog srv) (env : Env) (req : Request) :
    Did srv env req (dispatch srv env req).1 (dispatch srv env req).2 := by
  unfold dispatch
  split
  · exact .rejected _ rfl nofun
  · next handler hverb =>
    split
    · exact .rejected _ rfl nofun
    · unfold verb at hverb
      split at hverb
      · next hcmd =>
        cases hverb
        exact configure_did hc hcmd
      · split at hverb
        · next hcmd =>
          cases hverb
          exact set_did hcmd
        · split at hverb
          · next hcmd =>
            cases hverb
            exact delete_did hcmd
          · split at hverb
            · next hcmd =>
              cases hverb
              exact commit_did hc hcmd
            · split at hverb
              · next hcmd =>
                cases hverb
                exact rollback_did hl hcmd
              · cases hverb

end Config

end HyperDerp
