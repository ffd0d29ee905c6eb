import HyperDerp.Config.Replay
import HyperDerp.Config.Reversible

/-!
# A stop while a record is appended

`AppendCommitRecord` writes a record to the end of the log. Where the process stops in between, a
beginning of the record is left behind the complete ones. The restart on that log brings back the
configuration of the complete commits, unless the record was cut off in its time, in a value or in
a deleted path: there what is left of it reads as another record.
-/

namespace HyperDerp

namespace Config

open Text (utf8 tab newline lines)

variable {entries : List Entry} {e : Entry} {rest : Bytes} {st : State}

theorem lines_self (h : newline ∉ rest) (hne : rest ≠ []) : lines rest = [rest] := by
  induction rest with
  | nil => exact absurd rfl hne
  | cons b rest ih =>
    rw [List.mem_cons, not_or] at h
    rw [lines, if_neg (Ne.symm h.1)]
    by_cases hrest : rest = []
    · rw [hrest]
      rfl
    · rw [ih h.2 hrest]

theorem loadsBack_cut_iff (h : ∀ x ∈ entries, x.Ok) (he : e.Ok)
    (hcut : rest <+: e.record.line e.ts) :
    LoadsBack entries rest ↔ ¬e.record.CutWhole (rest.count tab) := by
  have hline : newline ∉ rest := fun hn =>
    newline_not_mem_line he.record he.ts (hcut.subset hn)
  rw [LoadsBack, load_entries (fun x hx => (h x hx).reversible), List.append_right_eq_self,
    load_nothing, ← torn_reads_iff he.record he.ts he.id hcut]
  by_cases hrest : rest = []
  · have hnone : ¬Reads rest := by
      rw [reads_iff, hrest]
      decide
    simp [hrest, lines, hrest ▸ hnone]
  · simp [lines_self hline hrest, hrest]

theorem restart_congr (srv srv' : Server) (hpath : srv'.commitLogPath = srv.commitLogPath)
    (hload : (loadCommitLog srv'.log).1 = (loadCommitLog srv.log).1) (env : Env) (yaml : Live) :
    (restart srv' env yaml).live = (restart srv env yaml).live ∧
      (restart srv' env yaml).session = (restart srv env yaml).session := by
  have hval : ∀ s : Server, s.commitLogPath ≠ [] →
      (restart s env yaml).live = (env.sets (finalState (loadCommitLog s.log).1).entries).foldl
        replayEntry yaml ∧
      (restart s env yaml).session = { ({} : ConfigSession) with
        commitCount := (loadCommitLog s.log).1.foldl (fun id rec => max id rec.commitId) 0 } := by
    intro s hs
    unfold restart replayCommitLog
    rw [if_neg hs]
    dsimp only
    split
    · next hempty =>
      have hnone : env.sets [] = [] := List.perm_nil.1 (env.sets_perm [])
      rw [hempty.1]
      exact ⟨by change yaml = (env.sets []).foldl _ _; rw [hnone]; rfl, rfl⟩
    · exact ⟨rfl, rfl⟩
  by_cases hp : srv.commitLogPath = []
  · unfold restart
    rw [if_pos (hpath.trans hp), if_pos hp]
    exact ⟨rfl, rfl⟩
  · obtain ⟨hlive, hsession⟩ := hval srv hp
    obtain ⟨hlive', hsession'⟩ := hval srv' (by rwa [hpath])
    rw [hlive, hlive', hsession, hsession', hload]
    exact ⟨rfl, rfl⟩

/-- The server stops while it appends the record of any commit. Then exactly the complete records
are read, and the restart brings back what they made live, if and only if the cut leaves no record
of its own. -/
theorem crash_keeps_commits (h : Runs.Reach LoggedInit step ReplayStepOk st) (he : e.Ok)
    (hcut : rest <+: e.record.line e.ts) (env : Env) :
    ((loadCommitLog (st.server.log ++ rest)).1 = (loadCommitLog st.server.log).1 ↔
      ¬e.record.CutWhole (rest.count tab)) ∧
    (¬e.record.CutWhole (rest.count tab) →
      (restart { st.server with log := st.server.log ++ rest } env st.yaml).live = st.server.live ∧
      (restart { st.server with log := st.server.log ++ rest } env st.yaml).session.commitCount =
        largest st.issued) := by
  have hi : ReplayInv st := h.invariant (fun _ h0 => h0.replayInv)
    fun _ _ _ hi hok hs => replay_step hi hok hs
  obtain ⟨entries, hm⟩ := hi.mirrors
  have hiff := loadsBack_cut_iff hm.log.ok he hcut
  have hload : (loadCommitLog st.server.log).1 = entries.map Entry.record := by rw [hm.log.load]
  rw [LoadsBack, ← hm.log.log, ← hload] at hiff
  refine ⟨hiff, fun hwhole => ?_⟩
  obtain ⟨hlive, hsession⟩ := restart_congr st.server
    { st.server with log := st.server.log ++ rest } rfl (hiff.2 hwhole) env st.yaml
  obtain ⟨hget, hcount⟩ := restart_get hm.log hi.path env st.yaml
  rw [hlive, hsession]
  refine ⟨Live.ext_get fun p => ?_, ?_⟩
  · rw [hget p, hm.live p]
  · rw [hcount, hm.issued, hm.count]

/-- A second commit is cut off in the path that it sets. -/
theorem crash_keeps_commits_one : ∃ st : State, st.issued = [1] ∧ ∀ env,
    (restart { st.server with log := st.server.log ++ utf8 "2\t\tS\tlog" } env st.yaml).live =
      st.server.live := by
  have hissued : ((Runs.run (Runs.guarded step ReplayStepOk) forbidding (asLabels
      [asAdmin none "configure" [],
        asAdmin "sess_1" "set" ["log_level", "debug"],
        asAdmin "sess_1" "commit" []])).map fun st => decide (st.issued = [1])) = some true := by
    decide
  obtain ⟨st, hrun, hst⟩ := Option.map_eq_some_iff.1 hissued
  have hreach := Runs.reach_of_guarded (.start forbidding forbidding_init) hrun
  have hok : (Entry.mk ⟨2, [(utf8 "log_level", utf8 "info")], []⟩ []).Ok := by
    refine ⟨⟨fun kv hkv => ?_, nofun⟩, ⟨nofun, nofun⟩, by decide⟩
    rw [List.mem_singleton.1 hkv]
    decide
  have htabs : (utf8 "2\t\tS\tlog").count tab = 3 := by decide
  refine ⟨st, of_decide_eq_true hst, fun env => ((crash_keeps_commits hreach hok
    (by decide) env).2 ?_).1⟩
  rw [htabs]
  rintro (h | ⟨i, -, h⟩ | ⟨j, hj, -⟩)
  · omega
  · omega
  · cases hj

end Config

end HyperDerp
