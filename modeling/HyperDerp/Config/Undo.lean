import HyperDerp.Config.Replay

/-!
# `rollback previous` (`einheit_channel.cc:1590-1717`)

The inverse of the last record is made from the log alone. A path that the log has
no value for gets its default, whatever the yaml says.
-/

namespace HyperDerp

namespace Config

open Text (utf8)

variable {st st' : State} {srv srv' : Server} {env : Env} {req : Request} {r : Response}
  {l : Label} {rec last : CommitRecord} {records : List CommitRecord} {entries : List Entry}
  {yaml live live' : Live} {p : ConfigPath} {v : Bytes}

/-! ### What an undo does -/

def CommitRecord.names (rec : CommitRecord) (k : Bytes) : Prop :=
  k ∈ rec.sets.map Prod.fst ∨ k ∈ rec.deletes

variable {prev : Values} {k : Bytes} {cfg : ConfigSession}

theorem mem_inverse_keys :
    k ∈ (inverseRecord prev last).sets.map Prod.fst ↔
      last.names k ∧ (prev.lookup k).isSome = true := by
  rw [inverseRecord, List.map_append, List.mem_append, restored_fst, restored_fst,
    List.mem_filter, List.mem_filter, CommitRecord.names, or_and_right]

theorem mem_inverse_deletes :
    k ∈ (inverseRecord prev last).deletes ↔
      k ∈ last.sets.map Prod.fst ∧ prev.lookup k = none := by
  rw [inverseRecord, List.mem_filter, Option.isNone_iff_eq_none]

theorem mem_inverse_sets :
    (k, v) ∈ (inverseRecord prev last).sets ↔ last.names k ∧ prev.lookup k = some v := by
  rw [inverseRecord, List.mem_append, mem_restored, mem_restored, CommitRecord.names,
    or_and_right]

structure Undone (records : List CommitRecord) (last : CommitRecord) (live live' : Live) : Prop where
  prior : ∀ p v, last.names p.name → (finalState records).lookup p.name = some v →
    live'.get p = p.setting v
  default : ∀ p, p.name ∈ last.sets.map Prod.fst → (finalState records).lookup p.name = none →
    live'.get p = p.default
  deleted : ∀ p, p.name ∉ last.sets.map Prod.fst → (finalState records).lookup p.name = none →
    live'.get p = live.get p
  other : ∀ p, ¬last.names p.name → live'.get p = live.get p

theorem Applied.undone (h : Applied (undoRecord srv records last) live live') :
    Undone records last live live' := by
  refine ⟨fun p v hn hv => h.sets p v (mem_inverse_sets.2 ⟨hn, hv⟩),
    fun p hset hnone => h.deletes p (mem_inverse_deletes.2 ⟨hset, hnone⟩),
    fun p hset hnone => ?_, fun p hn => ?_⟩
  · apply h.other p
    · intro hmem
      have hsome := (mem_inverse_keys.1 hmem).2
      rw [hnone] at hsome
      cases hsome
    · exact fun hmem => hset (mem_inverse_deletes.1 hmem).1
  · apply h.other p
    · exact fun hmem => hn (mem_inverse_keys.1 hmem).1
    · exact fun hmem => hn (.inl (mem_inverse_deletes.1 hmem).1)

/-- `last` has nothing to undo. -/
def NoInverse (records : List CommitRecord) (last : CommitRecord) : Prop :=
  (inverseRecord (finalState records) last).sets = [] ∧
    (inverseRecord (finalState records) last).deletes = []

instance (records : List CommitRecord) (last : CommitRecord) :
    Decidable (NoInverse records last) := inferInstanceAs (Decidable (_ ∧ _))

theorem NoInverse.undone (h : NoInverse records last) (live : Live) :
    Undone records last live live := by
  have happlied : Applied (undoRecord {} records last) live live := by
    refine ⟨fun p v hmem => ?_, fun p hmem => ?_, fun _ _ _ => rfl⟩
    · have hnil : (undoRecord {} records last).sets = [] := h.1
      rw [hnil] at hmem
      cases hmem
    · have hnil : (undoRecord {} records last).deletes = [] := h.2
      rw [hnil] at hmem
      cases hmem
  exact happlied.undone

structure UndoRequest (req : Request) : Prop where
  role : req.role = utf8 "admin"
  undo : isUndo req = true

theorem dispatch_undo (h : UndoRequest req) (srv : Server) (env : Env) :
    dispatch srv env req = report (rollbackPrevious srv env) := by
  have hundo := h.undo
  simp only [isUndo, Bool.and_eq_true, Bool.or_eq_true, decide_eq_true_eq] at hundo
  obtain ⟨hcmd, hscope⟩ := hundo
  have hne : utf8 "previous" ≠ utf8 "candidate" := by decide
  have hroll : rollback srv env req = rollbackPrevious srv env := by
    unfold rollback
    rw [hscope, if_neg hne, if_neg (not_not.2 rfl)]
  have hverb : verb req.command = some rollback := by
    unfold verb
    rcases hcmd with hcmd | hcmd
    · rw [hcmd, if_neg (by decide), if_neg (by decide), if_neg (by decide), if_neg (by decide),
        if_pos (by decide)]
    · rw [hcmd, if_neg (by decide), if_neg (by decide), if_neg (by decide), if_neg (by decide),
        if_pos (by decide)]
  unfold dispatch
  rw [hverb]
  dsimp only
  rw [if_neg (not_not.2 h.role), hroll]

theorem undo_nothing (hload : (loadCommitLog srv.log).1 = records ++ [last])
    (hpath : srv.commitLogPath ≠ []) (hactive : srv.session.activeId = none)
    (hno : NoInverse records last) (h : UndoRequest req) :
    dispatch srv env req =
      (srv, .error (utf8 "no_op") (utf8 "last commit has no reversible ops") []) := by
  rw [dispatch_undo h]
  unfold rollbackPrevious
  rw [if_neg hpath, hload]
  dsimp only
  rw [List.getLast?_concat, List.dropLast_concat, hactive]
  dsimp only
  rw [if_neg (by decide), if_pos ⟨hno.1, hno.2⟩]
  rfl

theorem undo_something (hload : (loadCommitLog srv.log).1 = records ++ [last])
    (hok : ∀ rec ∈ records ++ [last], RecordOk rec) (hpath : srv.commitLogPath ≠ [])
    (hactive : srv.session.activeId = none) (hno : ¬NoInverse records last) (h : UndoRequest req)
    (env : Env) :
    ∃ next : Server, Undone records last srv.live next.live ∧
      next.log = srv.log ++ encodeCommitRecord (undoRecord srv records last).commitId env.ts
        (undoRecord srv records last) ∧
      next.commitLogPath = srv.commitLogPath ∧ next.session.activeId = none ∧
      dispatch srv env req =
        (next, .ok (rollbackBody (undoRecord srv records last).commitId last.commitId)) := by
  have hundo := undo_ok srv hok
  obtain ⟨hdone, happlied⟩ := hundo.applied srv.live
  refine ⟨{ srv with
    live := (applyAll srv.live (undoRecord srv records last).entries).1
    log := srv.log ++ encodeCommitRecord (undoRecord srv records last).commitId env.ts
      (undoRecord srv records last)
    session := { srv.session with commitCount := (undoRecord srv records last).commitId } },
    happlied.undone, rfl, rfl, hactive, ?_⟩
  rw [dispatch_undo h]
  have hfilter := hundo.filter_known
  unfold undoRecord at hdone hfilter
  unfold rollbackPrevious
  unfold NoInverse at hno
  rw [if_neg hpath, hload]
  dsimp only
  rw [List.getLast?_concat, List.dropLast_concat, hactive]
  dsimp only
  rw [if_neg (by decide), if_neg hno, hfilter, hdone, if_pos rfl]
  unfold appendCommitRecord
  rw [if_neg hpath]
  rfl

/-! ### The live state and the log -/

def PriorLive (live : Live) (records : List CommitRecord) : Prop :=
  ∀ p v, (finalState records).lookup p.name = some v → live.get p = p.setting v

theorem PriorLive.snoc (h : PriorLive live records) (hrec : RecordOk rec)
    (happlied : Applied rec live live') : PriorLive live' (records ++ [rec]) := by
  intro p v hv
  rw [finalState_snoc] at hv
  rcases record_names rec p.name with ⟨w, hw⟩ | hdel | ⟨hset, hdel⟩
  · rw [lookup_applyRecord_set hrec _ hw, Option.some.injEq] at hv
    rw [← hv]
    exact happlied.sets p w hw
  · rw [lookup_applyRecord_delete rec _ hdel] at hv
    cases hv
  · rw [lookup_applyRecord_other rec _ hset hdel] at hv
    rw [happlied.other p hset hdel]
    exact h p v hv

structure UndoInv (st : State) : Prop extends Inv st where
  prior : st.server.commitLogPath ≠ [] →
    PriorLive st.server.live (loadCommitLog st.server.log).1

theorem LogOk.load_append {log : Bytes} (h : LogOk log entries) (hrec : RecordOk rec)
    (hclean : rec.Clean) (hid : rec.commitId < 2 ^ 64) (env : Env) :
    (loadCommitLog (log ++ encodeCommitRecord rec.commitId env.ts rec)).1 =
      (loadCommitLog log).1 ++ [rec] := by
  rw [(h.append hrec hclean hid env).load, h.load]
  exact List.map_append

theorem prior_did (hi : UndoInv st) (hclean : CleanCommit st.server req)
    (hd : Did st.server env req srv' r) (hpath : srv'.commitLogPath ≠ []) :
    PriorLive srv'.live (loadCommitLog srv'.log).1 := by
  cases hd with
  | rejected r hr => exact hi.prior hpath
  | configured | setValue | deleted | discarded => exact hi.prior hpath
  | committed live hcmd hmatch happlied =>
    obtain ⟨entries, hlog⟩ := hi.log.resolve_left hpath
    have hrec := hi.candidate.recordOk env
    have hload := hlog.load_append hrec
      (candidate_clean hi.candidate (hclean hcmd hmatch hpath) env) (Nat.mod_lt _ (by decide)) env
    dsimp only [appendCommitRecord]
    rw [if_neg hpath, hload]
    exact (hi.prior hpath).snoc hrec happlied
  | undone records last live hcmd hscope hpath' hactive hload happlied =>
    obtain ⟨entries, hlog⟩ := hi.log.resolve_left hpath
    obtain ⟨hrecOk, hrecClean⟩ := hlog.loaded hload
    have hundo := undo_ok st.server hrecOk
    dsimp only [appendCommitRecord]
    rw [if_neg hpath, hlog.load_append hundo (undo_clean st.server hrecOk hrecClean)
      (undo_id_lt ..) env]
    exact (hi.prior hpath).snoc hundo happlied

theorem undo_step (hi : UndoInv st) (hok : StepOk st l) (h : step st l = some st') :
    UndoInv st' := by
  have hinv := inv_step hi.toInv hok h
  cases l with
  | request env req =>
    cases h
    exact ⟨hinv, prior_did hi hok (dispatch_did hi.candidate hi.log env req)⟩
  | restart env =>
    cases h
    obtain ⟨hpath, hlog, -⟩ := restart_same st.server env st.yaml
    refine ⟨hinv, fun hne => ?_⟩
    dsimp only at hne ⊢
    rw [hpath] at hne
    obtain ⟨entries, hlogOk⟩ := hi.log.resolve_left hne
    intro p v hv
    rw [hlog, hlogOk.load] at hv
    rw [(restart_get hlogOk hne env st.yaml).1 p]
    unfold logged
    rw [hv]

theorem Init.undoInv (h : Init st) : UndoInv st := by
  refine ⟨h.inv, fun _ p v hv => ?_⟩
  rw [h.log] at hv
  cases hv

theorem reach_undoInv (h : Runs.Reach Init step StepOk st) : UndoInv st :=
  h.invariant (fun _ h0 => h0.undoInv) fun _ _ _ hi hok hs => undo_step hi hok hs

/-! ### Undoing a commit -/

theorem names_or (rec : CommitRecord) (k : Bytes) :
    k ∈ rec.sets.map Prod.fst ∨ (k ∉ rec.sets.map Prod.fst ∧ k ∈ rec.deletes) ∨ ¬rec.names k := by
  by_cases hset : k ∈ rec.sets.map Prod.fst
  · exact .inl hset
  · by_cases hdel : k ∈ rec.deletes
    · exact .inr (.inl ⟨hset, hdel⟩)
    · exact .inr (.inr fun hn => hn.elim hset hdel)

theorem undone_restores_iff {old : Live} (hprior : PriorLive old records)
    (happlied : Applied rec old live) (hundone : Undone records rec live live') :
    live' = old ↔ ∀ p, rec.names p.name → (finalState records).lookup p.name = none →
      old.get p = p.default := by
  have hdefault : ∀ p, rec.names p.name → (finalState records).lookup p.name = none →
      live'.get p = p.default := by
    intro p hn hnone
    rcases names_or rec p.name with hset | ⟨hset, hdel⟩ | hno
    · exact hundone.default p hset hnone
    · rw [hundone.deleted p hset hnone]
      exact happlied.deletes p hdel
    · exact absurd hn hno
  constructor
  · rintro rfl
    exact hdefault
  · intro h
    apply Live.ext_get
    intro p
    by_cases hn : rec.names p.name
    · cases hlook : (finalState records).lookup p.name with
      | none => rw [hdefault p hn hlook, h p hn hlook]
      | some v => rw [hundone.prior p v hn hlook, hprior p v hlook]
    · rw [hundone.other p hn]
      exact happlied.other p (fun hset => hn (.inl hset)) fun hdel => hn (.inr hdel)

theorem undone_twice {old live'' : Live} (hrec : RecordOk rec) (happlied : Applied rec old live)
    (hundone : Undone records rec live live')
    (hagain : Undone (records ++ [rec]) (undoRecord srv records rec) live' live'') :
    live'' = live := by
  apply Live.ext_get
  intro p
  have hkeys : p.name ∈ (undoRecord srv records rec).sets.map Prod.fst ↔
      rec.names p.name ∧ ((finalState records).lookup p.name).isSome = true := mem_inverse_keys
  have hdels : p.name ∈ (undoRecord srv records rec).deletes ↔
      p.name ∈ rec.sets.map Prod.fst ∧ (finalState records).lookup p.name = none :=
    mem_inverse_deletes
  rcases record_names rec p.name with ⟨v, hv⟩ | hdel | ⟨hset, hdel⟩
  · have hmem : p.name ∈ rec.sets.map Prod.fst := List.mem_map.2 ⟨_, hv, rfl⟩
    have hnow : (finalState (records ++ [rec])).lookup p.name = some v := by
      rw [finalState_snoc, lookup_applyRecord_set hrec _ hv]
    have hnamed : (undoRecord srv records rec).names p.name := by
      cases hlook : (finalState records).lookup p.name with
      | none => exact .inr (hdels.2 ⟨hmem, hlook⟩)
      | some w =>
        refine .inl (hkeys.2 ⟨.inl hmem, ?_⟩)
        rw [hlook]
        rfl
    rw [hagain.prior p v hnamed hnow, happlied.sets p v hv]
  · have hnow : (finalState (records ++ [rec])).lookup p.name = none := by
      rw [finalState_snoc, lookup_applyRecord_delete rec _ hdel]
    have hset : p.name ∉ rec.sets.map Prod.fst := by
      intro hmem
      obtain ⟨kv, hkv, hk⟩ := List.mem_map.1 hmem
      rw [← hk] at hdel
      exact hrec.disjoint kv hkv hdel
    cases hlook : (finalState records).lookup p.name with
    | none =>
      have hno : ¬(undoRecord srv records rec).names p.name := by
        rintro (hmem | hmem)
        · have hsome := (hkeys.1 hmem).2
          rw [hlook] at hsome
          cases hsome
        · exact hset (hdels.1 hmem).1
      rw [hagain.other p hno, hundone.deleted p hset hlook]
    | some w =>
      have hmem : p.name ∈ (undoRecord srv records rec).sets.map Prod.fst := by
        rw [hkeys, hlook]
        exact ⟨.inr hdel, rfl⟩
      rw [hagain.default p hmem hnow, happlied.deletes p hdel]
  · have hnot : ¬rec.names p.name := fun hn => hn.elim hset hdel
    have hno : ¬(undoRecord srv records rec).names p.name := by
      rintro (hmem | hmem)
      · exact hnot (hkeys.1 hmem).1
      · exact hset (hdels.1 hmem).1
    rw [hagain.other p hno, hundone.other p hnot]

/-- What `rollback previous` should do right after a commit, and when it is asked for again. -/
def Undoes (before after : Server) : Prop :=
  ∀ env req, UndoRequest req →
    ((dispatch after env req).2.rejected = true →
      (dispatch after env req).1.live = after.live ∧ (dispatch after env req).1.log = after.log) ∧
    ((dispatch after env req).2.rejected = false →
      (dispatch after env req).1.live = before.live) ∧
    ∀ env' req', UndoRequest req' →
      (dispatch (dispatch after env req).1 env' req').1.live = after.live

def priorValues (srv : Server) : Values := finalState (loadCommitLog srv.log).1

/-- There is no log, or nothing to undo, or every path of the candidate has a value in the log
or its default as the live value. -/
def UndoRestores (srv : Server) : Prop :=
  srv.commitLogPath = [] ∨
    (srv.session.setValues.entries = [] ∧
      ∀ path ∈ srv.session.deletedPaths, (priorValues srv).lookup path = none) ∨
    ∀ p ∈ ConfigPath.all, (p.name ∈ srv.session.setValues ∨ p.name ∈ srv.session.deletedPaths) →
      (priorValues srv).lookup p.name = none → srv.live.get p = p.default

theorem candidate_names :
    (candidateRecord cfg env).names k ↔ k ∈ cfg.setValues ∨ k ∈ cfg.deletedPaths := by
  rw [CommitRecord.names, mem_candidate_keys, mem_candidate_deletes]

theorem noInverse_iff :
    NoInverse records (candidateRecord cfg env) ↔ cfg.setValues.entries = [] ∧
      ∀ path ∈ cfg.deletedPaths, (finalState records).lookup path = none := by
  constructor
  · rintro ⟨hsets, hdeletes⟩
    have hnoKey : ∀ k, ¬((candidateRecord cfg env).names k ∧
        ((finalState records).lookup k).isSome = true) := by
      intro k hk
      have hmem := mem_inverse_keys.2 hk
      rw [hsets] at hmem
      cases hmem
    have hnoDelete : ∀ k, ¬(k ∈ (candidateRecord cfg env).sets.map Prod.fst ∧
        (finalState records).lookup k = none) := by
      intro k hk
      have hmem := mem_inverse_deletes.2 hk
      rw [hdeletes] at hmem
      cases hmem
    refine ⟨List.eq_nil_iff_forall_not_mem.2 fun kv hkv => ?_, fun path hpath => ?_⟩
    · have hmem : kv.1 ∈ cfg.setValues := List.mem_keys_of_mem hkv
      cases hlook : (finalState records).lookup kv.1 with
      | none => exact hnoDelete kv.1 ⟨mem_candidate_keys.2 hmem, hlook⟩
      | some v =>
        apply hnoKey kv.1
        rw [candidate_names, hlook]
        exact ⟨.inl hmem, rfl⟩
    · cases hlook : (finalState records).lookup path with
      | none => rfl
      | some v =>
        refine absurd ⟨candidate_names.2 (.inr hpath), ?_⟩ (hnoKey path)
        rw [hlook]
        rfl
  · rintro ⟨hsets, hdeletes⟩
    have hkeys : ∀ k, k ∉ cfg.setValues := by
      intro k hk
      have hmem : k ∈ cfg.setValues.entries.keys := hk
      rw [hsets] at hmem
      cases hmem
    refine ⟨?_, ?_⟩
    · rw [← List.map_eq_nil_iff (f := Prod.fst)]
      apply List.eq_nil_iff_forall_not_mem.2
      intro k hk
      obtain ⟨hn, hsome⟩ := mem_inverse_keys.1 hk
      rcases candidate_names.1 hn with hset | hdel
      · exact hkeys k hset
      · rw [hdeletes k hdel] at hsome
        cases hsome
    · apply List.eq_nil_iff_forall_not_mem.2
      intro k hk
      exact hkeys k (mem_candidate_keys.1 (mem_inverse_deletes.1 hk).1)

theorem undo_disabled (hpath : srv.commitLogPath = []) (h : UndoRequest req) (env : Env) :
    (dispatch srv env req).1 = srv ∧ (dispatch srv env req).2.rejected = true := by
  rw [dispatch_undo h]
  unfold rollbackPrevious
  rw [if_pos hpath]
  exact ⟨rfl, rfl⟩

theorem restores_iff {old : Live} :
    (∀ p, (candidateRecord cfg env).names p.name → prev.lookup p.name = none →
      old.get p = p.default) ↔
    ∀ p ∈ ConfigPath.all, (p.name ∈ cfg.setValues ∨ p.name ∈ cfg.deletedPaths) →
      prev.lookup p.name = none → old.get p = p.default := by
  constructor
  · exact fun h p _ hn => h p (candidate_names.2 hn)
  · exact fun h p hn => h p p.mem_all (candidate_names.1 hn)

theorem undoRequest_ok : UndoRequest undoRequest := ⟨rfl, by decide⟩

theorem undoes_iff_of_log {before after : Server} (hlog : LogOk after.log entries)
    (hload : (loadCommitLog after.log).1 = records ++ [rec]) (hpath : after.commitLogPath ≠ [])
    (hactive : after.session.activeId = none) (happlied : Applied rec before.live after.live)
    (hprior : PriorLive before.live records) :
    Undoes before after ↔ NoInverse records rec ∨
      ∀ p, rec.names p.name → (finalState records).lookup p.name = none →
        before.live.get p = p.default := by
  obtain ⟨hok, hclean⟩ := hlog.loaded hload
  by_cases hno : NoInverse records rec
  · refine ⟨fun _ => .inl hno, fun _ env req hreq => ?_⟩
    rw [undo_nothing hload hpath hactive hno hreq]
    refine ⟨fun _ => ⟨rfl, rfl⟩, nofun, fun env' req' hreq' => ?_⟩
    rw [undo_nothing hload hpath hactive hno hreq']
  · rw [or_iff_right hno]
    constructor
    · intro h
      obtain ⟨next, hundone, -, -, -, heq⟩ :=
        undo_something hload hok hpath hactive hno undoRequest_ok plainEnv
      have hlive := (h plainEnv undoRequest undoRequest_ok).2.1
      rw [heq] at hlive
      exact (undone_restores_iff hprior happlied hundone).1 (hlive rfl)
    · intro hcond env req hreq
      obtain ⟨next, hundone, hnextLog, hnextPath, hnextActive, heq⟩ :=
        undo_something hload hok hpath hactive hno hreq env
      rw [heq]
      refine ⟨nofun, fun _ => (undone_restores_iff hprior happlied hundone).2 hcond,
        fun env' req' hreq' => ?_⟩
      have hundoOk := undo_ok after hok
      have hagain := hlog.load_append hundoOk (undo_clean after hok hclean) (undo_id_lt ..) env
      rw [hload, ← hnextLog] at hagain
      have hokAgain : ∀ r ∈ records ++ [rec] ++ [undoRecord after records rec], RecordOk r := by
        intro r hr
        rcases List.mem_append.1 hr with hr | hr
        · exact hok r hr
        · rw [List.mem_singleton.1 hr]
          exact hundoOk
      have hrecOk := hok rec (by simp)
      have hpath' : next.commitLogPath ≠ [] := by rwa [hnextPath]
      by_cases hno' : NoInverse (records ++ [rec]) (undoRecord after records rec)
      · rw [undo_nothing hagain hpath' hnextActive hno' hreq']
        exact undone_twice hrecOk happlied hundone (hno'.undone next.live)
      · obtain ⟨last, hundone', -, -, -, heq'⟩ :=
          undo_something hagain hokAgain hpath' hnextActive hno' hreq' env'
        rw [heq']
        exact undone_twice hrecOk happlied hundone hundone'

theorem commit_undoes_iff (hi : UndoInv st) (hcmd : req.command = utf8 "commit")
    (hclean : CleanCommit st.server req) (hmatch : sessionMatches st.server.session req = true)
    (happlied : Applied (candidateRecord st.server.session env) st.server.live live) :
    Undoes st.server
      { st.server with
        live := live
        log := appendCommitRecord st.server env (candidateRecord st.server.session env)
        session :=
          { nextId := st.server.session.nextId
            commitCount := (st.server.session.commitCount + 1) % 2 ^ 64 } } ↔
      UndoRestores st.server := by
  generalize hafter : ({ st.server with
    live := live
    log := appendCommitRecord st.server env (candidateRecord st.server.session env)
    session :=
      { nextId := st.server.session.nextId
        commitCount := (st.server.session.commitCount + 1) % 2 ^ 64 } } : Server) = after
  have hlive : after.live = live := by rw [← hafter]
  have hactive : after.session.activeId = none := by rw [← hafter]
  have hsamePath : after.commitLogPath = st.server.commitLogPath := by rw [← hafter]
  by_cases hpath : st.server.commitLogPath = []
  · refine ⟨fun _ => .inl hpath, fun _ env req hreq => ?_⟩
    obtain ⟨hsame, hrejected⟩ := undo_disabled (hsamePath.trans hpath) hreq env
    rw [hsame, hrejected]
    refine ⟨fun _ => ⟨rfl, rfl⟩, nofun, fun env' req' hreq' => ?_⟩
    rw [(undo_disabled (hsamePath.trans hpath) hreq' env').1]
  · obtain ⟨entries, hlog⟩ := hi.log.resolve_left hpath
    have hrec := hi.candidate.recordOk env
    have hcleanRec := candidate_clean hi.candidate (hclean hcmd hmatch hpath) env
    have hid : (candidateRecord st.server.session env).commitId < 2 ^ 64 :=
      Nat.mod_lt _ (by decide)
    have hafterLog : after.log = st.server.log ++ encodeCommitRecord
        (candidateRecord st.server.session env).commitId env.ts
        (candidateRecord st.server.session env) := by
      rw [← hafter, appendCommitRecord, if_neg hpath]
    have hload : (loadCommitLog after.log).1 =
        (loadCommitLog st.server.log).1 ++ [candidateRecord st.server.session env] := by
      rw [hafterLog, hlog.load_append hrec hcleanRec hid env]
    have hcond : UndoRestores st.server ↔
        NoInverse (loadCommitLog st.server.log).1 (candidateRecord st.server.session env) ∨
        ∀ p, (candidateRecord st.server.session env).names p.name →
          (finalState (loadCommitLog st.server.log).1).lookup p.name = none →
          st.server.live.get p = p.default := by
      rw [noInverse_iff, restores_iff, UndoRestores, or_iff_right hpath]
      rfl
    have hlogAfter : LogOk after.log (entries ++ [⟨candidateRecord st.server.session env, env.ts⟩]) := by
      rw [hafterLog]
      exact hlog.append hrec hcleanRec hid env
    rw [hcond]
    exact undoes_iff_of_log hlogAfter hload (hsamePath ▸ hpath) hactive
      (by rw [hlive]; exact happlied) (hi.prior hpath)

/-- After an accepted commit, on any earlier history of clean values, `rollback previous` gives
the state before it and a second one the state after it, exactly if the condition holds; an
undo that is refused changes nothing, on any history. -/
theorem rollback_undoes_iff {st : State} (h : Runs.Reach Init step StepOk st) :
    (∀ env req, UndoRequest req → (dispatch st.server env req).2.rejected = true →
      (dispatch st.server env req).1 = st.server) ∧
    ∀ env req, req.command = utf8 "commit" → CleanCommit st.server req →
      (dispatch st.server env req).2.rejected = false →
      (Undoes st.server (dispatch st.server env req).1 ↔ UndoRestores st.server) := by
  have hi := reach_undoInv h
  refine ⟨fun env req _ hr => ?_, fun env req hcmd hclean hok => ?_⟩
  · have hd := dispatch_did hi.candidate hi.log env req
    generalize dispatch st.server env req = result at hd hr
    obtain ⟨srv', r⟩ := result
    cases hd with
    | rejected r hr' => rfl
    | configured | setValue | deleted | committed | discarded | undone => cases hr
  · have hd := dispatch_did hi.candidate hi.log env req
    have hstep := undo_step (l := .request env req) hi hclean rfl
    generalize dispatch st.server env req = result at hd hok hstep
    obtain ⟨srv', r⟩ := result
    cases hd with
    | rejected r hr =>
      dsimp only at hok
      rw [hr] at hok
      cases hok
    | configured h | setValue _ _ h | deleted _ h | discarded h =>
      rw [hcmd] at h
      exact absurd h (by decide)
    | undone _ _ _ h =>
      rw [hcmd] at h
      exact absurd h (by decide)
    | committed live hcmd' hmatch happlied =>
      exact commit_undoes_iff hi hcmd hclean hmatch happlied

/-! ### An undo over the yaml -/

def commitRequest : Request := asAdmin "sess_1" "commit" []

/-- A set of a path that only the yaml has a value for is undone to the default. -/
theorem undo_forgets_yaml :
    ¬∀ st, Runs.Reach Init step Runs.Any st → ∀ env req, req.command = utf8 "commit" →
      (dispatch st.server env req).2.rejected = false →
      Undoes st.server (dispatch st.server env req).1 := by
  intro h
  have hbad : ((Runs.run step forbidding (asLabels
      [asAdmin none "configure" [],
        asAdmin "sess_1" "set" ["hd.relay_policy.forbid_direct", "false"]])).map fun st =>
      decide ((dispatch st.server plainEnv commitRequest).2.rejected = false ∧
        (dispatch (dispatch st.server plainEnv commitRequest).1 plainEnv undoRequest).2.rejected =
          false ∧
        (dispatch (dispatch st.server plainEnv commitRequest).1 plainEnv undoRequest).1.live ≠
          st.server.live)) = some true := by decide
  rw [Option.map_eq_some_iff] at hbad
  obtain ⟨st, hrun, hst⟩ := hbad
  obtain ⟨haccepted, hundone, hlive⟩ := of_decide_eq_true hst
  have hreach := Runs.reach_of_run forbidding_init.toInit hrun
  have hundoes := h st hreach plainEnv commitRequest (by decide) haccepted
  exact hlive ((hundoes plainEnv undoRequest undoRequest_ok).2.1 hundone)

/-- A second set of the path is undone to the first. -/
theorem rollback_undoes_second_set :
    ∃ st : State, st.issued = [1] ∧
      Undoes st.server (dispatch st.server plainEnv (asAdmin "sess_2" "commit" [])).1 := by
  have hrun : ((Runs.run (Runs.guarded step StepOk) forbidding (asLabels
      [asAdmin none "configure" [],
        asAdmin "sess_1" "set" ["hd.relay_policy.forbid_direct", "false"],
        asAdmin "sess_1" "commit" [],
        asAdmin none "configure" [],
        asAdmin "sess_2" "set" ["hd.relay_policy.forbid_direct", "true"]])).map fun st =>
      decide (st.issued = [1] ∧ CleanCommit st.server (asAdmin "sess_2" "commit" []) ∧
        (dispatch st.server plainEnv (asAdmin "sess_2" "commit" [])).2.rejected = false ∧
        ∀ p ∈ ConfigPath.all,
          (p.name ∈ st.server.session.setValues ∨ p.name ∈ st.server.session.deletedPaths) →
          (priorValues st.server).lookup p.name = none → st.server.live.get p = p.default)) =
      some true := by decide
  rw [Option.map_eq_some_iff] at hrun
  obtain ⟨st, hst, hall⟩ := hrun
  obtain ⟨hissued, hclean, haccepted, hprior⟩ := of_decide_eq_true hall
  have hreach := Runs.reach_of_guarded (.start forbidding forbidding_init.toInit) hst
  exact ⟨st, hissued, ((rollback_undoes_iff hreach).2 plainEnv _ (by decide) hclean haccepted).2
    (.inr (.inr hprior))⟩

end Config

end HyperDerp
