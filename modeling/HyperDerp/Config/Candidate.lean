import HyperDerp.Config.Steps
import HyperDerp.Lib.Runs

/-!
# Candidate sessions over whole runs (`einheit_channel.cc:1351-1717`)

Requests in any order, and restarts of the daemon between them. Beside the server
stands what an observer of requests and responses sees: which session was opened
last and the edits that were accepted under its id since.
-/

namespace HyperDerp

namespace Config

open Text (utf8)

/-- An accepted `set`, or a `delete` (no value). -/
structure Edit where
  path : Bytes
  value : Option Bytes

structure Track where
  opened : Option Bytes := none
  edits : List Edit := []

/-- Only edits that carry the id of the open session count. -/
def Track.add (t : Track) (req : Request) (path : Bytes) (value : Option Bytes) : Track :=
  if t.opened.isSome ∧ req.sessionId = t.opened then { t with edits := t.edits ++ [⟨path, value⟩] }
  else t

def Track.next (t : Track) (req : Request) : Response → Track
  | .error .. | .handlerException => t
  | .ok body =>
    if req.command = utf8 "configure" then { opened := some body }
    else if req.command = utf8 "set" then
      t.add req (joinPath req.args.dropLast) (some (req.args.getLastD []))
    else if req.command = utf8 "delete" then t.add req (joinPath req.args) none
    else {}

def lastEdit (edits : List Edit) (path : Bytes) : Option (Option Bytes) :=
  edits.foldl (fun found e => if e.path = path then some e.value else found) none

def issuedBy : Response → Option ℕ
  | .error .. | .handlerException => none
  | .ok body =>
    if (utf8 "commit_id=").isPrefixOf body then
      some (Text.digitsValue (body.drop (utf8 "commit_id=").length))
    else none

structure State where
  server : Server
  yaml : Live
  track : Track := {}
  /-- Commit ids in the order in which they were announced. -/
  issued : List ℕ := []

inductive Label where
  | request (env : Env) (req : Request)
  | restart (env : Env)

def step (st : State) : Label → Option State
  | .request env req =>
    let result := dispatch st.server env req
    some { st with
      server := result.1
      track := st.track.next req result.2
      issued := st.issued ++ (issuedBy result.2).toList }
  | .restart env => some { st with server := restart st.server env st.yaml, track := {} }

structure Init (st : State) : Prop where
  live : st.server.live = st.yaml
  log : st.server.log = []
  session : st.server.session = {}
  track : st.track = {}
  issued : st.issued = []

/-- What a commit would write into the log is free of tabs and newlines. -/
def CleanCommit (srv : Server) (req : Request) : Prop :=
  req.command = utf8 "commit" → sessionMatches srv.session req = true → srv.commitLogPath ≠ [] →
    ∀ kv ∈ srv.session.setValues.entries, Clean kv.2

instance (srv : Server) (req : Request) : Decidable (CleanCommit srv req) :=
  inferInstanceAs (Decidable (_ → _ → _ → _))

def StepOk (st : State) : Label → Prop
  | .request _ req => CleanCommit st.server req
  | .restart _ => True

instance (st : State) (l : Label) : Decidable (StepOk st l) :=
  match l with
  | .request _ req => inferInstanceAs (Decidable (CleanCommit st.server req))
  | .restart _ => inferInstanceAs (Decidable True)

/-! ### The candidate -/

variable {st st' : State} {srv srv' : Server} {env : Env} {req : Request} {r : Response}
  {l : Label} {cfg : ConfigSession} {path v : Bytes} {p : ConfigPath} {t : Track}

theorem candidateOk_closed (nextId commitCount : ℕ) :
    CandidateOk { nextId := nextId, commitCount := commitCount } :=
  ⟨nofun, nofun, nofun, List.nodup_nil, fun _ => ⟨rfl, rfl⟩⟩

theorem CandidateOk.insert (h : CandidateOk cfg) (hv : p.Accepts v) (hopen : cfg.activeId ≠ none) :
    CandidateOk { cfg with
      setValues := cfg.setValues.insert p.name v
      deletedPaths := cfg.deletedPaths.erase p.name } := by
  refine ⟨?_, ?_, ?_, h.nodup.erase _, fun hnone => absurd hnone hopen⟩
  · intro path w hw
    by_cases hpath : path = p.name
    · subst hpath
      rw [AList.lookup_insert, Option.some.injEq] at hw
      rw [← hw]
      exact ⟨p, findPath_name p, hv⟩
    · rw [AList.lookup_insert_ne hpath] at hw
      exact h.sets path w hw
  · exact fun path hpath => h.deletes path (List.mem_of_mem_erase hpath)
  · intro path hpath hmem
    rw [h.nodup.mem_erase_iff] at hpath
    rcases (AList.mem_insert _).1 hmem with heq | hmem
    · exact hpath.1 heq
    · exact h.disjoint path hpath.2 hmem

theorem CandidateOk.erase (h : CandidateOk cfg) (p : ConfigPath) (hopen : cfg.activeId ≠ none) :
    CandidateOk { cfg with
      setValues := cfg.setValues.erase p.name
      deletedPaths := cfg.deletedPaths.insert p.name } := by
  refine ⟨?_, ?_, ?_, List.Nodup.insert h.nodup, fun hnone => absurd hnone hopen⟩
  · intro path w hw
    by_cases hpath : path = p.name
    · subst hpath
      rw [AList.lookup_erase] at hw
      cases hw
    · rw [AList.lookup_erase_ne hpath] at hw
      exact h.sets path w hw
  · intro path hpath
    rcases List.mem_insert_iff.1 hpath with rfl | hpath
    · exact ⟨p, findPath_name p⟩
    · exact h.deletes path hpath
  · intro path hpath hmem
    rw [AList.mem_erase] at hmem
    rcases List.mem_insert_iff.1 hpath with rfl | hpath
    · exact hmem.1 rfl
    · exact h.disjoint path hpath hmem.2

theorem matches_iff :
    sessionMatches cfg req = true ↔ cfg.activeId.isSome ∧ req.sessionId = cfg.activeId := by
  unfold sessionMatches
  cases cfg.activeId <;> cases req.sessionId <;> simp

theorem open_of_matches (h : sessionMatches cfg req = true) : cfg.activeId ≠ none :=
  Option.isSome_iff_ne_none.1 (matches_iff.1 h).1

theorem CandidateOk.did (h : CandidateOk srv.session) (hd : Did srv env req srv' r) :
    CandidateOk srv'.session := by
  cases hd with
  | rejected r hr => exact h
  | configured hcmd => exact ⟨nofun, nofun, nofun, List.nodup_nil, nofun⟩
  | setValue p v hcmd hmatch hpath hlast hv => exact h.insert hv (open_of_matches hmatch)
  | deleted p hcmd hmatch hpath => exact h.erase p (open_of_matches hmatch)
  | committed live hcmd hmatch happlied => exact candidateOk_closed ..
  | discarded hcmd => exact candidateOk_closed ..
  | undone records last live hcmd hscope hpath hactive hload happlied =>
    exact ⟨h.sets, h.deletes, h.disjoint, h.nodup, h.closed⟩

theorem candidate_clean (h : CandidateOk cfg) (hv : ∀ kv ∈ cfg.setValues.entries, Clean kv.2)
    (env : Env) :
    (candidateRecord cfg env).Clean := by
  apply (h.recordOk env).clean
  rintro ⟨k, v⟩ hkv
  exact hv ⟨k, v⟩ (AList.mem_lookup_iff.1 (mem_candidate_sets.1 hkv))

/-! ### The log -/

theorem undo_id_lt (srv : Server) (records : List CommitRecord) (last : CommitRecord) :
    (undoRecord srv records last).commitId < 2 ^ 64 := Nat.mod_lt _ (by decide)

theorem GoodLog.did (h : GoodLog srv) (hc : CandidateOk srv.session) (hd : Did srv env req srv' r)
    (hclean : CleanCommit srv req) : GoodLog srv' := by
  cases hd with
  | rejected r hr => exact h
  | configured hcmd => exact h
  | setValue p v hcmd hmatch hpath hlast hv => exact h
  | deleted p hcmd hmatch hpath => exact h
  | discarded hcmd => exact h
  | committed live hcmd hmatch happlied =>
    by_cases hpath : srv.commitLogPath = []
    · exact .inl hpath
    · obtain ⟨entries, hlog⟩ := h.resolve_left hpath
      refine .inr ⟨entries ++ [⟨candidateRecord srv.session env, env.ts⟩], ?_⟩
      dsimp only [appendCommitRecord]
      rw [if_neg hpath]
      exact hlog.append (hc.recordOk env) (candidate_clean hc (hclean hcmd hmatch hpath) env)
        (Nat.mod_lt _ (by decide)) env
  | undone records last live hcmd hscope hpath hactive hload happlied =>
    obtain ⟨entries, hlog⟩ := h.resolve_left hpath
    obtain ⟨hok, hrecClean⟩ := hlog.loaded hload
    refine .inr ⟨entries ++ [⟨undoRecord srv records last, env.ts⟩], ?_⟩
    dsimp only [appendCommitRecord]
    rw [if_neg hpath]
    exact hlog.append (undo_ok srv hok) (undo_clean srv hok hrecClean) (undo_id_lt ..) env

theorem restart_same (srv : Server) (env : Env) (yaml : Live) :
    (restart srv env yaml).commitLogPath = srv.commitLogPath ∧
      (restart srv env yaml).log = srv.log ∧
      CandidateOk (restart srv env yaml).session ∧
      (restart srv env yaml).session.activeId = none ∧
      (restart srv env yaml).session.setValues = ∅ ∧
      (restart srv env yaml).session.deletedPaths = [] := by
  unfold restart
  dsimp only
  split
  · exact ⟨rfl, rfl, candidateOk_closed .., rfl, rfl, rfl⟩
  · unfold replayCommitLog
    dsimp only
    split
    · exact ⟨rfl, rfl, candidateOk_closed .., rfl, rfl, rfl⟩
    · exact ⟨rfl, rfl, candidateOk_closed .., rfl, rfl, rfl⟩

/-! ### The observer -/

/-- The candidate holds the last edit of every path, and nothing else. -/
structure Tracks (t : Track) (cfg : ConfigSession) : Prop where
  opened : t.opened = cfg.activeId
  sets : ∀ path v, cfg.setValues.lookup path = some v ↔ lastEdit t.edits path = some (some v)
  deletes : ∀ path, path ∈ cfg.deletedPaths ↔ lastEdit t.edits path = some none

theorem lastEdit_snoc (edits : List Edit) (e : Edit) (path : Bytes) :
    lastEdit (edits ++ [e]) path = if e.path = path then some e.value else lastEdit edits path := by
  simp [lastEdit]

theorem tracks_empty (nextId commitCount : ℕ) (id : Option Bytes) :
    Tracks { opened := id } { activeId := id, nextId := nextId, commitCount := commitCount } :=
  ⟨rfl, fun _ _ => ⟨nofun, nofun⟩, fun _ => ⟨nofun, nofun⟩⟩

theorem Tracks.add (h : Tracks t cfg) (hmatch : sessionMatches cfg req = true) (path : Bytes)
    (value : Option Bytes) :
    t.add req path value = { t with edits := t.edits ++ [⟨path, value⟩] } := by
  unfold Track.add
  rw [if_pos]
  rw [h.opened]
  exact matches_iff.1 hmatch

theorem Tracks.insert (h : Tracks t cfg) (hc : CandidateOk cfg) (path v : Bytes) :
    Tracks { t with edits := t.edits ++ [⟨path, some v⟩] }
      { cfg with
        setValues := cfg.setValues.insert path v
        deletedPaths := cfg.deletedPaths.erase path } := by
  refine ⟨h.opened, fun k w => ?_, fun k => ?_⟩
  · rw [lastEdit_snoc]
    by_cases hk : k = path
    · subst hk
      rw [AList.lookup_insert, if_pos rfl, Option.some.injEq, Option.some.injEq, Option.some.injEq]
    · rw [AList.lookup_insert_ne hk, if_neg (Ne.symm hk)]
      exact h.sets k w
  · rw [lastEdit_snoc, hc.nodup.mem_erase_iff]
    by_cases hk : k = path
    · subst hk
      rw [if_pos rfl]
      exact ⟨fun hmem => absurd rfl hmem.1, nofun⟩
    · rw [if_neg (Ne.symm hk), ← h.deletes k]
      exact ⟨fun hmem => hmem.2, fun hmem => ⟨hk, hmem⟩⟩

theorem Tracks.erase (h : Tracks t cfg) (path : Bytes) :
    Tracks { t with edits := t.edits ++ [⟨path, none⟩] }
      { cfg with
        setValues := cfg.setValues.erase path
        deletedPaths := cfg.deletedPaths.insert path } := by
  refine ⟨h.opened, fun k w => ?_, fun k => ?_⟩
  · rw [lastEdit_snoc]
    by_cases hk : k = path
    · subst hk
      rw [AList.lookup_erase, if_pos rfl]
      exact ⟨nofun, nofun⟩
    · rw [AList.lookup_erase_ne hk, if_neg (Ne.symm hk)]
      exact h.sets k w
  · rw [lastEdit_snoc, List.mem_insert_iff]
    by_cases hk : k = path
    · rw [if_pos hk.symm]
      exact ⟨fun _ => rfl, fun _ => .inl hk⟩
    · rw [if_neg (Ne.symm hk), ← h.deletes k]
      exact ⟨fun hmem => hmem.resolve_left hk, .inr⟩

theorem next_rejected (t : Track) (req : Request) (hr : r.rejected = true) : t.next req r = t := by
  cases r with
  | ok body => cases hr
  | error | handlerException => rfl

theorem next_closed (t : Track) (body : Bytes) (h1 : req.command ≠ utf8 "configure")
    (h2 : req.command ≠ utf8 "set") (h3 : req.command ≠ utf8 "delete") :
    t.next req (.ok body) = {} := by
  simp only [Track.next, if_neg h1, if_neg h2, if_neg h3]

theorem Tracks.did (h : Tracks t srv.session) (hc : CandidateOk srv.session)
    (hd : Did srv env req srv' r) : Tracks (t.next req r) srv'.session := by
  cases hd with
  | rejected r hr =>
    rw [next_rejected t req hr]
    exact h
  | configured hcmd =>
    simp only [Track.next, if_pos hcmd]
    exact tracks_empty ..
  | setValue p v hcmd hmatch hpath hlast hv =>
    have hne : utf8 "set" ≠ utf8 "configure" := by decide
    simp only [Track.next, hcmd, if_neg hne, if_true]
    rw [h.add hmatch, hpath, hlast]
    exact h.insert hc p.name v
  | deleted p hcmd hmatch hpath =>
    have hne : utf8 "delete" ≠ utf8 "configure" := by decide
    have hne' : utf8 "delete" ≠ utf8 "set" := by decide
    simp only [Track.next, hcmd, if_neg hne, if_neg hne', if_true]
    rw [h.add hmatch, hpath]
    exact h.erase p.name
  | committed live hcmd hmatch happlied =>
    rw [next_closed] <;> first | exact tracks_empty .. | (rw [hcmd]; decide)
  | discarded hcmd =>
    rw [next_closed] <;> first | exact tracks_empty .. | (rw [hcmd]; decide)
  | undone records last live hcmd hscope hpath hactive hload happlied =>
    obtain ⟨hsets, hdeletes⟩ := hc.closed hactive
    rw [next_closed]
    · refine ⟨hactive.symm, fun path v => ?_, fun path => ?_⟩
      · rw [hsets]
        exact ⟨nofun, nofun⟩
      · rw [hdeletes]
        exact ⟨nofun, nofun⟩
    all_goals
      rcases hcmd with hcmd | hcmd <;>
      · rw [hcmd]
        decide

structure Inv (st : State) : Prop where
  candidate : CandidateOk st.server.session
  log : GoodLog st.server
  track : Tracks st.track st.server.session

theorem Init.inv (h : Init st) : Inv st := by
  refine ⟨?_, .inr ⟨[], ?_⟩, ?_⟩
  · rw [h.session]
    exact candidateOk_closed ..
  · rw [h.log]
    exact ⟨rfl, nofun, nofun⟩
  · rw [h.session, h.track]
    exact tracks_empty ..

theorem inv_step (hi : Inv st) (hok : StepOk st l) (h : step st l = some st') : Inv st' := by
  cases l with
  | request env req =>
    cases h
    have hd := dispatch_did hi.candidate hi.log env req
    exact ⟨hi.candidate.did hd, hi.log.did hi.candidate hd hok, hi.track.did hi.candidate hd⟩
  | restart env =>
    cases h
    obtain ⟨hpath, hlog, hc, hactive, hsets, hdeletes⟩ := restart_same st.server env st.yaml
    refine ⟨hc, ?_, ?_⟩
    · unfold GoodLog
      rw [hpath, hlog]
      exact hi.log
    · refine ⟨hactive.symm, fun path v => ?_, fun path => ?_⟩
      · rw [hsets]
        exact ⟨nofun, nofun⟩
      · rw [hdeletes]
        exact ⟨nofun, nofun⟩

theorem reach_inv (h : Runs.Reach Init step StepOk st) : Inv st :=
  h.invariant (fun _ h0 => h0.inv) fun _ _ _ hi hok hs => inv_step hi hok hs

/-! ### Sessions commit their own edits -/

/-- What the observer expects of a path after a commit. -/
def expected (live : Live) (edits : List Edit) (p : ConfigPath) : ConfigValue :=
  match lastEdit edits p.name with
  | none => live.get p
  | some none => p.default
  | some (some v) => p.setting v

theorem Tracks.applied (h : Tracks t cfg) {live live' : Live}
    (happlied : Applied (candidateRecord cfg env) live live') (p : ConfigPath) :
    live'.get p = expected live t.edits p := by
  unfold expected
  split
  · next hedit =>
    apply happlied.other
    · intro hmem
      obtain ⟨v, hv⟩ := Option.isSome_iff_exists.1 (AList.lookup_isSome.2 (mem_candidate_keys.1 hmem))
      rw [h.sets, hedit] at hv
      cases hv
    · intro hmem
      rw [mem_candidate_deletes, h.deletes, hedit] at hmem
      cases hmem
  · next hedit =>
    exact happlied.deletes p (mem_candidate_deletes.2 ((h.deletes p.name).2 hedit))
  · next v hedit =>
    exact happlied.sets p v (mem_candidate_sets.2 ((h.sets p.name v).2 hedit))

/-- While committed values are free of tabs and newlines: the candidate can always be committed
in full; a commit gives every path its last edit under the session's id and no other path a new
value; a rejected request changes nothing. -/
theorem session_commits_own_edits {st : State} (h : Runs.Reach Init step StepOk st) :
    (∀ path v, st.server.session.setValues.lookup path = some v →
      path ∉ st.server.session.deletedPaths ∧ ∃ p, findPath path = some p ∧ p.Accepts v) ∧
    (∀ path ∈ st.server.session.deletedPaths, ∃ p, findPath path = some p) ∧
    ∀ env req,
      (dispatch st.server env req).2 ≠ .handlerException ∧
      ((dispatch st.server env req).2.rejected = true →
        (dispatch st.server env req).1.session = st.server.session ∧
          (dispatch st.server env req).1.live = st.server.live) ∧
      (req.command = utf8 "commit" → (dispatch st.server env req).2.rejected = false →
        ∀ p, (dispatch st.server env req).1.live.get p =
          expected st.server.live st.track.edits p) := by
  have hi := reach_inv h
  refine ⟨fun path v hv => ⟨fun hdel => ?_, hi.candidate.sets path v hv⟩, hi.candidate.deletes,
    fun env req => ?_⟩
  · apply hi.candidate.disjoint path hdel
    rw [← AList.lookup_isSome, hv]
    rfl
  · have hd := dispatch_did hi.candidate hi.log env req
    generalize dispatch st.server env req = result at hd
    obtain ⟨srv', r⟩ := result
    refine ⟨?_, ?_, ?_⟩
    · intro hr
      dsimp only at hd hr
      subst hr
      cases hd with
      | rejected r hr hne => exact hne rfl
    · intro hr
      cases hd with
      | rejected r hr' => exact ⟨rfl, rfl⟩
      | configured | setValue | deleted | committed | discarded | undone => cases hr
    · intro hcmd hr p
      cases hd with
      | rejected r hr' =>
        dsimp only at hr
        rw [hr'] at hr
        cases hr
      | committed live hcmd' hmatch happlied => exact hi.track.applied happlied p
      | configured h | setValue _ _ h | deleted _ h | discarded h =>
        rw [hcmd] at h
        exact absurd h (by decide)
      | undone _ _ _ h =>
        rw [hcmd] at h
        exact absurd h (by decide)

/-! ### A value that rewrites the log -/

def plainEnv : Env where
  ts := utf8 "2026-01-01T00:00:00.000Z"
  ts_digits := by decide +kernel
  sets := id
  sets_perm := fun _ => .refl _
  deletes := id
  deletes_perm := fun _ => .refl _

def asAdmin (sessionId : Option String) (command : String) (args : List String) : Request :=
  { role := utf8 "admin"
    sessionId := sessionId.map utf8
    command := utf8 command
    args := args.map utf8 }

def asLabels (reqs : List Request) : List Label := reqs.map (.request plainEnv)

def firstStart : State :=
  { server := { commitLogPath := utf8 "/var/lib/hyper-derp/commits" }, yaml := {} }

theorem firstStart_init : Init firstStart := ⟨rfl, rfl, rfl, rfl, rfl⟩

/-- A fleet id with tabs is read back from the log as another record: it sets
`hd.relay_policy.max_direct_peers` to a text that is not a number. -/
def smuggle : List Request :=
  [asAdmin none "configure" [],
    asAdmin "sess_1" "set" ["hd.relay_policy.forbid_direct", "true"],
    asAdmin "sess_1" "set"
      ["hd.federation.fleet_id", "x\tS\thd.relay_policy.max_direct_peers\tabc"],
    asAdmin "sess_1" "commit" [],
    asAdmin none "configure" [],
    asAdmin "sess_2" "set" ["hd.relay_policy.max_direct_peers", "5"],
    asAdmin "sess_2" "set" ["hd", "relay_policy", "forbid_direct", "false"],
    asAdmin "sess_2" "commit" []]

def undoRequest : Request := asAdmin none "rollback_previous" []

/-- The undo restores `forbid_direct`, then throws on the text. -/
theorem undo_half_applied :
    ¬∀ st, Runs.Reach Init step Runs.Any st → ∀ env req,
      (dispatch st.server env req).2.rejected = true →
        (dispatch st.server env req).1.live = st.server.live := by
  intro h
  have hbad : ((Runs.run step firstStart (asLabels smuggle)).map fun st =>
      decide ((dispatch st.server plainEnv undoRequest).2.rejected = true ∧
        (dispatch st.server plainEnv undoRequest).1.live ≠ st.server.live)) = some true := by
    decide +kernel
  rw [Option.map_eq_some_iff] at hbad
  obtain ⟨st, hrun, hst⟩ := hbad
  obtain ⟨hrejected, hlive⟩ := of_decide_eq_true hst
  exact hlive (h st (Runs.reach_of_run firstStart_init hrun) plainEnv undoRequest hrejected)

theorem session_commits_own_edits_two :
    ∃ st : State, st.track.edits.length = 2 ∧
      ∀ env req, (dispatch st.server env req).2 ≠ .handlerException := by
  have hedits : ((Runs.run (Runs.guarded step StepOk) firstStart (asLabels
      [asAdmin none "configure" [],
        asAdmin "sess_1" "set" ["hd", "enroll_mode", "auto"],
        asAdmin "sess_2" "set" ["log_level", "debug"],
        asAdmin "sess_1" "delete" ["peer_rate_limit"]])).map fun st =>
      decide (st.track.edits.length = 2)) = some true := by decide
  rw [Option.map_eq_some_iff] at hedits
  obtain ⟨st, hrun, hst⟩ := hedits
  have hreach := Runs.reach_of_guarded (.start firstStart firstStart_init) hrun
  exact ⟨st, of_decide_eq_true hst, fun env req =>
    ((session_commits_own_edits hreach).2.2 env req).1⟩

end Config

end HyperDerp
