import HyperDerp.Config.Candidate

/-!
# Restarting from the commit log (`einheit_channel.cc:1170-1235`)

The log alone says what a restart puts on top of the yaml: for each path the value of
the last record that sets it, unless a later one deletes it. The live state agrees
with that as long as no delete applies a default that the yaml overrides.
-/

namespace HyperDerp

namespace Config

open Text (utf8)

variable {st st' : State} {srv srv' : Server} {env : Env} {req : Request} {r : Response}
  {l : Label} {rec : CommitRecord} {records : List CommitRecord} {entries : List Entry}
  {yaml live live' : Live} {p : ConfigPath}

/-! ### What the log says -/

def logged (yaml : Live) (records : List CommitRecord) (p : ConfigPath) : ConfigValue :=
  match (finalState records).lookup p.name with
  | none => yaml.get p
  | some v => p.setting v

def maxId (records : List CommitRecord) : ℕ :=
  records.foldl (fun id rec => max id rec.commitId) 0

def largest (ids : List ℕ) : ℕ := ids.foldl max 0

theorem foldl_replayEntry (kvs : List (Sigma fun _ : Bytes => Bytes))
    (hok : ∀ kv ∈ kvs, EntryOk (kv.1, kv.2)) (s : Live) :
    kvs.foldl replayEntry s = (applyAll s (kvs.map fun kv => (kv.1, kv.2))).1 := by
  induction kvs generalizing s with
  | nil => rfl
  | cons kv kvs ih =>
    obtain ⟨p, hp, hv⟩ := hok kv (List.mem_cons_self ..)
    obtain ⟨s', hs', -⟩ := apply_accepted hv s
    have hentry : applyEntry s (kv.1, kv.2) = some s' := by
      unfold applyEntry
      rw [hp]
      exact hs'
    have hreplay : replayEntry s kv = s' := by
      have haccepts : ¬p.row.validate kv.2 ≠ [] := not_not.2 hv
      unfold replayEntry
      rw [hp]
      dsimp only
      rw [if_neg haccepts, hs', Option.getD_some]
    rw [List.foldl_cons, List.map_cons, hreplay, applyAll, hentry]
    exact ih (fun kv h => hok kv (List.mem_cons_of_mem _ h)) s'

theorem replay_get (h : LogOk srv.log entries) (env : Env) (p : ConfigPath) :
    (((env.sets (finalState (entries.map Entry.record)).entries).foldl replayEntry yaml).get p) =
      logged yaml (entries.map Entry.record) p := by
  generalize hrecs : entries.map Entry.record = records
  have hrecOk : ∀ rec ∈ records, RecordOk rec := hrecs ▸ h.recordOk
  have hmem : ∀ k v, (⟨k, v⟩ : Sigma fun _ : Bytes => Bytes) ∈
      env.sets (finalState records).entries ↔ (finalState records).lookup k = some v := by
    intro k v
    rw [(env.sets_perm _).mem_iff, ← Option.mem_def, AList.mem_lookup_iff]
  have hok : ∀ kv ∈ env.sets (finalState records).entries, EntryOk (kv.1, kv.2) :=
    fun kv hkv => finalState_ok hrecOk ((hmem kv.1 kv.2).1 hkv)
  have hfst : ((env.sets (finalState records).entries).map fun kv => (kv.1, kv.2)).map Prod.fst =
      (env.sets (finalState records).entries).map Sigma.fst := by
    rw [List.map_map]
    rfl
  have hnodup : (((env.sets (finalState records).entries).map
      fun kv => (kv.1, kv.2)).map Prod.fst).Nodup := by
    rw [hfst]
    exact ((env.sets_perm _).map _).nodup_iff.2 (finalState records).keys_nodup
  have hokMap : ∀ kv ∈ (env.sets (finalState records).entries).map fun kv => (kv.1, kv.2),
      EntryOk kv := by
    intro kv hkv
    obtain ⟨kv', hkv', rfl⟩ := List.mem_map.1 hkv
    exact hok kv' hkv'
  obtain ⟨-, hget, hrest⟩ := applyAll_ok _ hokMap hnodup yaml
  rw [foldl_replayEntry _ hok]
  unfold logged
  split
  · next hnone =>
    apply hrest
    rw [hfst]
    intro hkey
    obtain ⟨⟨k, v⟩, hkv, hk⟩ := List.mem_map.1 hkey
    have hsome := (hmem k v).1 hkv
    dsimp only at hk
    rw [hk, hnone] at hsome
    cases hsome
  · next v hsome =>
    exact hget p v (List.mem_map.2 ⟨⟨p.name, v⟩, (hmem _ _).2 hsome, rfl⟩)

theorem restart_get (h : LogOk srv.log entries) (hpath : srv.commitLogPath ≠ []) (env : Env)
    (yaml : Live) :
    (∀ p, (restart srv env yaml).live.get p = logged yaml (entries.map Entry.record) p) ∧
      (restart srv env yaml).session.commitCount = maxId (entries.map Entry.record) := by
  unfold restart replayCommitLog
  rw [if_neg hpath]
  dsimp only
  rw [h.load]
  dsimp only
  split
  · next hempty =>
    rw [hempty.1]
    exact ⟨fun _ => rfl, rfl⟩
  · exact ⟨replay_get h env, rfl⟩

/-! ### When the live state agrees -/

def RevertsToYaml (yaml : Live) (paths : List Bytes) : Prop :=
  ∀ p ∈ ConfigPath.all, p.name ∈ paths → yaml.get p = p.default

instance (yaml : Live) (paths : List Bytes) : Decidable (RevertsToYaml yaml paths) :=
  inferInstanceAs (Decidable (∀ p ∈ ConfigPath.all, _))

/-- The paths that `rollback previous` would delete. -/
def undoDeletes (srv : Server) : List Bytes :=
  match (loadCommitLog srv.log).1.getLast? with
  | none => []
  | some last => (inverseRecord (finalState (loadCommitLog srv.log).1.dropLast) last).deletes

def isUndo (req : Request) : Bool :=
  (decide (req.command = utf8 "rollback") || decide (req.command = utf8 "rollback_previous")) &&
    decide (rollbackScope req = utf8 "previous")

/-- Committed values are free of tabs and newlines, every path that a commit or an undo deletes
has its default in the yaml, and the ids do not wrap around. -/
structure ReplayOk (st : State) (req : Request) : Prop where
  clean : CleanCommit st.server req
  commit : req.command = utf8 "commit" → sessionMatches st.server.session req = true →
    RevertsToYaml st.yaml st.server.session.deletedPaths
  undo : isUndo req = true → st.server.session.activeId = none →
    RevertsToYaml st.yaml (undoDeletes st.server)
  count : st.server.session.commitCount + 1 < 2 ^ 64

instance (st : State) (req : Request) : Decidable (ReplayOk st req) :=
  decidable_of_iff (CleanCommit st.server req ∧
    (req.command = utf8 "commit" → sessionMatches st.server.session req = true →
      RevertsToYaml st.yaml st.server.session.deletedPaths) ∧
    (isUndo req = true → st.server.session.activeId = none →
      RevertsToYaml st.yaml (undoDeletes st.server)) ∧
    st.server.session.commitCount + 1 < 2 ^ 64)
    ⟨fun h => ⟨h.1, h.2.1, h.2.2.1, h.2.2.2⟩, fun h => ⟨h.clean, h.commit, h.undo, h.count⟩⟩

def ReplayStepOk (st : State) : Label → Prop
  | .request _ req => ReplayOk st req
  | .restart _ => True

instance (st : State) (l : Label) : Decidable (ReplayStepOk st l) :=
  match l with
  | .request _ req => inferInstanceAs (Decidable (ReplayOk st req))
  | .restart _ => inferInstanceAs (Decidable True)

structure LoggedInit (st : State) : Prop extends Init st where
  path : st.server.commitLogPath ≠ []

structure Mirrors (st : State) (entries : List Entry) : Prop where
  log : LogOk st.server.log entries
  live : ∀ p, st.server.live.get p = logged st.yaml (entries.map Entry.record) p
  count : st.server.session.commitCount = maxId (entries.map Entry.record)
  issued : largest st.issued = st.server.session.commitCount

structure ReplayInv (st : State) : Prop extends Inv st where
  path : st.server.commitLogPath ≠ []
  mirrors : ∃ entries, Mirrors st entries

theorem logged_snoc (hrec : RecordOk rec) (happlied : Applied rec live live')
    (hyaml : RevertsToYaml yaml rec.deletes) (h : ∀ p, live.get p = logged yaml records p)
    (p : ConfigPath) : live'.get p = logged yaml (records ++ [rec]) p := by
  unfold logged
  rw [finalState_snoc]
  rcases record_names rec p.name with ⟨v, hv⟩ | hdel | ⟨hset, hdel⟩
  · rw [lookup_applyRecord_set hrec _ hv]
    exact happlied.sets p v hv
  · rw [lookup_applyRecord_delete rec _ hdel]
    exact (happlied.deletes p hdel).trans (hyaml p p.mem_all hdel).symm
  · rw [lookup_applyRecord_other rec _ hset hdel, happlied.other p hset hdel]
    exact h p

theorem maxId_snoc (records : List CommitRecord) (rec : CommitRecord) :
    maxId (records ++ [rec]) = max (maxId records) rec.commitId := by
  simp [maxId]

theorem largest_snoc (ids : List ℕ) (id : ℕ) : largest (ids ++ [id]) = max (largest ids) id := by
  simp [largest]

/-! ### Announced ids -/

theorem issuedBy_commit (id : ℕ) (rest : Bytes) :
    issuedBy (.ok (commitBody id ++ rest)) = some id := by
  have hsplit : commitBody id ++ rest =
      utf8 "commit_id=" ++ (Text.decimal id ++ (utf8 "\n" ++ rest)) := by
    simp [commitBody]
  have hprefix : (utf8 "commit_id=").isPrefixOf (commitBody id ++ rest) = true := by
    rw [hsplit]
    exact List.isPrefixOf_iff_prefix.2 (List.prefix_append ..)
  have hdigits : Text.digitsValue (Text.decimal id ++ (utf8 "\n" ++ rest)) = id := by
    apply Text.digitsValue_decimal_append
    intro c hc
    have hnl : utf8 "\n" ++ rest = 0x0a :: rest := by
      have hn : utf8 "\n" = [0x0a] := by decide
      rw [hn, List.singleton_append]
    rw [hnl, List.head?_cons, Option.some.injEq] at hc
    rw [← hc]
    decide
  simp only [issuedBy]
  rw [if_pos hprefix, hsplit, List.drop_left, hdigits]

theorem issuedBy_commitBody (id : ℕ) : issuedBy (.ok (commitBody id)) = some id := by
  have h := issuedBy_commit id []
  rwa [List.append_nil] at h

theorem issuedBy_rollbackBody (id lastId : ℕ) :
    issuedBy (.ok (rollbackBody id lastId)) = some id := by
  unfold rollbackBody
  rw [List.append_assoc, List.append_assoc]
  exact issuedBy_commit id _

theorem issuedBy_session (n : ℕ) : issuedBy (.ok (sessionIdOf n)) = none := by
  have hno : ¬(utf8 "commit_id=").isPrefixOf (sessionIdOf n) = true := by
    intro h
    have hpre := List.isPrefixOf_iff_prefix.1 h
    have hc : utf8 "commit_id=" = 0x63 :: utf8 "ommit_id=" := by decide
    have hs : utf8 "sess_" = 0x73 :: utf8 "ess_" := by decide
    rw [sessionIdOf, hc, hs, List.cons_append, List.cons_prefix_cons] at hpre
    exact absurd hpre.1 (by decide)
  unfold issuedBy
  dsimp only
  rw [if_neg hno]

theorem issuedBy_rejected (hr : r.rejected = true) : issuedBy r = none := by
  cases r with
  | ok body => cases hr
  | error | handlerException => rfl

theorem issuedBy_empty : issuedBy (.ok []) = none := by decide

/-! ### One step -/

theorem Mirrors.snoc (h : Mirrors st entries) (hrec : RecordOk rec) (hclean : rec.Clean)
    (hid : rec.commitId = st.server.session.commitCount + 1) (hlt : rec.commitId < 2 ^ 64)
    (happlied : Applied rec st.server.live live) (hyaml : RevertsToYaml st.yaml rec.deletes)
    (env : Env) (session : ConfigSession) (hcount : session.commitCount = rec.commitId)
    (track : Track) :
    Mirrors
      { st with
        server := { st.server with
          live := live
          log := st.server.log ++ encodeCommitRecord rec.commitId env.ts rec
          session := session }
        track := track
        issued := st.issued ++ [rec.commitId] }
      (entries ++ [⟨rec, env.ts⟩]) := by
  have hmax : max st.server.session.commitCount rec.commitId = rec.commitId := by omega
  have hmap : (entries ++ [(⟨rec, env.ts⟩ : Entry)]).map Entry.record =
      entries.map Entry.record ++ [rec] := List.map_append
  refine ⟨h.log.append hrec hclean hlt env, fun p => ?_, ?_, ?_⟩
  · rw [hmap]
    exact logged_snoc hrec happlied hyaml h.live p
  · rw [hmap, maxId_snoc, ← h.count, hmax]
    exact hcount
  · rw [largest_snoc, h.issued, hmax]
    exact hcount.symm

theorem mirrors_request (hi : ReplayInv st) (hok : ReplayOk st req)
    (hd : Did st.server env req srv' r) (track : Track) :
    ∃ entries, Mirrors
      { st with
        server := srv'
        track := track
        issued := st.issued ++ (issuedBy r).toList } entries := by
  obtain ⟨entries, hm⟩ := hi.mirrors
  have hmod : (st.server.session.commitCount + 1) % 2 ^ 64 = st.server.session.commitCount + 1 :=
    Nat.mod_eq_of_lt hok.count
  -- nothing but the session changes, and its count stays
  have hsame : ∀ (session : ConfigSession) (body : Response),
      session.commitCount = st.server.session.commitCount → issuedBy body = none →
      ∃ entries, Mirrors
        { st with
          server := { st.server with session := session }
          track := track
          issued := st.issued ++ (issuedBy body).toList } entries := by
    intro session body hcount hnone
    rw [hnone, Option.toList_none, List.append_nil]
    exact ⟨entries, hm.log, hm.live, hcount.trans hm.count, hm.issued.trans hcount.symm⟩
  cases hd with
  | rejected r hr => exact hsame st.server.session r rfl (issuedBy_rejected hr)
  | configured hcmd => exact hsame _ _ rfl (issuedBy_session _)
  | setValue p v hcmd hmatch hpath hlast hv => exact hsame _ _ rfl issuedBy_empty
  | deleted p hcmd hmatch hpath => exact hsame _ _ rfl issuedBy_empty
  | discarded hcmd => exact hsame _ _ rfl issuedBy_empty
  | committed live hcmd hmatch happlied =>
    rw [issuedBy_commitBody, appendCommitRecord, if_neg hi.path]
    have hyaml : RevertsToYaml st.yaml (candidateRecord st.server.session env).deletes :=
      fun p hp hmem => hok.commit hcmd hmatch p hp (mem_candidate_deletes.1 hmem)
    exact ⟨_, hm.snoc (hi.candidate.recordOk env)
      (candidate_clean hi.candidate (hok.clean hcmd hmatch hi.path) env) hmod (Nat.mod_lt _ (by decide))
      happlied hyaml env _ rfl track⟩
  | undone records last live hcmd hscope hpath hactive hload happlied =>
    rw [issuedBy_rollbackBody, appendCommitRecord, if_neg hi.path]
    obtain ⟨hrecOk, hrecClean⟩ := hm.log.loaded hload
    have hundo : isUndo req = true := by
      rcases hcmd with hcmd | hcmd <;> simp [isUndo, hcmd, hscope]
    have hdeletes : undoDeletes st.server = (undoRecord st.server records last).deletes := by
      unfold undoDeletes undoRecord
      rw [hload, List.getLast?_concat, List.dropLast_concat]
    have hyaml : RevertsToYaml st.yaml (undoRecord st.server records last).deletes := by
      rw [← hdeletes]
      exact hok.undo hundo hactive
    exact ⟨_, hm.snoc (undo_ok st.server hrecOk) (undo_clean st.server hrecOk hrecClean) hmod
      (undo_id_lt ..) happlied hyaml env _ rfl track⟩

theorem LoggedInit.replayInv (h : LoggedInit st) : ReplayInv st := by
  refine ⟨h.toInit.inv, h.path, [], ?_, fun p => ?_, ?_, ?_⟩
  · rw [h.log]
    exact ⟨rfl, nofun, nofun⟩
  · rw [h.live]
    rfl
  · rw [h.session]
    rfl
  · rw [h.session, h.issued]
    rfl

theorem replay_step (hi : ReplayInv st) (hok : ReplayStepOk st l) (h : step st l = some st') :
    ReplayInv st' := by
  cases l with
  | request env req =>
    have hclean : StepOk st (.request env req) := hok.clean
    have hinv := inv_step hi.toInv hclean h
    cases h
    have hd := dispatch_did hi.candidate hi.log env req
    refine ⟨hinv, ?_, mirrors_request hi hok hd _⟩
    generalize dispatch st.server env req = result at hd
    obtain ⟨srv', r⟩ := result
    cases hd <;> exact hi.path
  | restart env =>
    have hinv := inv_step (l := .restart env) hi.toInv trivial h
    cases h
    obtain ⟨hpath, hlog, -⟩ := restart_same st.server env st.yaml
    obtain ⟨entries, hm⟩ := hi.mirrors
    obtain ⟨hlive, hcount⟩ := restart_get hm.log hi.path env st.yaml
    refine ⟨hinv, ?_, entries, ?_, hlive, hcount, ?_⟩
    · rw [hpath]
      exact hi.path
    · rw [hlog]
      exact hm.log
    · exact hm.issued.trans (hm.count.trans hcount.symm)

/-- On runs that meet the conditions a restart brings back the live configuration and goes on
counting from the largest announced id. -/
theorem replay_reproduces_live {st : State} (h : Runs.Reach LoggedInit step ReplayStepOk st)
    (env : Env) :
    (restart st.server env st.yaml).live = st.server.live ∧
      (restart st.server env st.yaml).session.commitCount = largest st.issued := by
  have hi : ReplayInv st := h.invariant (fun _ h0 => h0.replayInv)
    fun _ _ _ hi hok hs => replay_step hi hok hs
  obtain ⟨entries, hm⟩ := hi.mirrors
  obtain ⟨hlive, hcount⟩ := restart_get hm.log hi.path env st.yaml
  refine ⟨Live.ext_get fun p => ?_, ?_⟩
  · rw [hlive p, hm.live p]
  · rw [hcount, hm.issued, hm.count]

/-! ### A delete over the yaml -/

def forbidding : State :=
  { server :=
      { live := { forbidDirect := true }
        commitLogPath := utf8 "/var/lib/hyper-derp/commits" }
    yaml := { forbidDirect := true } }

theorem forbidding_init : LoggedInit forbidding := ⟨⟨rfl, rfl, rfl, rfl, rfl⟩, by decide⟩

/-- The commit applies the default, the restart brings the yaml back. -/
theorem deleted_path_returns :
    ¬∀ st, Runs.Reach LoggedInit step Runs.Any st → ∀ env,
      (restart st.server env st.yaml).live = st.server.live := by
  intro h
  have hbad : ((Runs.run step forbidding (asLabels
      [asAdmin none "configure" [],
        asAdmin "sess_1" "delete" ["hd.relay_policy.forbid_direct"],
        asAdmin "sess_1" "commit" []])).map fun st =>
      decide ((restart st.server plainEnv st.yaml).live ≠ st.server.live)) = some true := by
    decide
  rw [Option.map_eq_some_iff] at hbad
  obtain ⟨st, hrun, hst⟩ := hbad
  exact of_decide_eq_true hst (h st (Runs.reach_of_run forbidding_init hrun) plainEnv)

/-- A set over the yaml, a delete of another path and a restart. -/
theorem replay_reproduces_live_set :
    ∃ st : State, st.issued = [1, 2] ∧
      ∀ env, (restart st.server env st.yaml).live = st.server.live ∧
        (restart st.server env st.yaml).session.commitCount = largest st.issued := by
  have hissued : ((Runs.run (Runs.guarded step ReplayStepOk) forbidding (asLabels
      [asAdmin none "configure" [],
        asAdmin "sess_1" "set" ["hd.relay_policy.forbid_direct", "false"],
        asAdmin "sess_1" "delete" ["peer_rate_limit"],
        asAdmin "sess_1" "commit" []] ++ [.restart plainEnv] ++ asLabels
      [asAdmin none "configure" [],
        asAdmin "sess_1" "set" ["log_level", "debug"],
        asAdmin "sess_1" "commit" []])).map fun st => decide (st.issued = [1, 2])) =
      some true := by decide
  rw [Option.map_eq_some_iff] at hissued
  obtain ⟨st, hrun, hst⟩ := hissued
  have hreach := Runs.reach_of_guarded (.start forbidding forbidding_init) hrun
  exact ⟨st, of_decide_eq_true hst, fun env => replay_reproduces_live hreach env⟩

end Config

end HyperDerp
