import HyperDerp.Config.Log
import Mathlib.Data.List.AList

/-!
# Candidate sessions (`einheit_channel.cc:1010-1026`, `:1170-1235`, `:1351-1717`, `:2368-2412`)

One session at a time, in a global that only the thread of the channel touches. An
`unordered_map` is an association list without repeated keys; the order in which it
is iterated, and the time of day, come from outside with each request. Appending to
the log always succeeds. Published events and the other verbs are left out.
-/

namespace HyperDerp

namespace Config

open Text (utf8)

abbrev Values := AList fun _ : Bytes => Bytes

structure ConfigSession where
  activeId : Option Bytes := none
  setValues : Values := ∅
  deletedPaths : List Bytes := []
  nextId : ℕ := 1
  commitCount : ℕ := 0

structure Server where
  live : Live := {}
  commitLogPath : Bytes := []
  log : Bytes := []
  session : ConfigSession := {}

/-- Iteration orders and the result of `NowRfc3339`. -/
structure Env where
  ts : Bytes
  ts_digits : ∀ c ∈ ts, Text.isDigit c = true ∨ c ∈ utf8 "-:T.Z"
  sets : List (Sigma fun _ : Bytes => Bytes) → List (Sigma fun _ : Bytes => Bytes)
  sets_perm : ∀ l, (sets l).Perm l
  deletes : List Bytes → List Bytes
  deletes_perm : ∀ l, (deletes l).Perm l

structure Request where
  role : Bytes := []
  sessionId : Option Bytes := none
  command : Bytes
  args : List Bytes := []

inductive Response where
  | ok (body : Bytes)
  | error (code message hint : Bytes)
  /-- `handler_exception` with the text of the exception. -/
  | handlerException
  deriving DecidableEq

def Response.rejected : Response → Bool
  | .ok _ => false
  | .error .. | .handlerException => true

/-- A handler; `none` in place of a response if it throws. -/
abbrev Handler := Server → Env → Request → Server × Option Response

def errorOf (code message : String) : Option Response := some (.error (utf8 code) (utf8 message) [])

/-! ### `configure`, `set`, `delete` -/

def sessionMatches (cfg : ConfigSession) (req : Request) : Bool :=
  match cfg.activeId, req.sessionId with
  | some active, some id => decide (id = active)
  | _, _ => false

def sessionIdOf (n : ℕ) : Bytes := utf8 "sess_" ++ Text.decimal n

def configure (s : Server) (_ : Env) (_ : Request) : Server × Option Response :=
  let cfg := s.session
  let cfg := if cfg.activeId.isSome then { cfg with setValues := ∅, deletedPaths := [] } else cfg
  let id := sessionIdOf cfg.nextId
  ({ s with session := { cfg with activeId := some id, nextId := (cfg.nextId + 1) % 2 ^ 64 } },
    some (.ok id))

def joinPath : List Bytes → Bytes
  | [] => []
  | arg :: args => arg ++ args.flatMap fun a => utf8 "." ++ a

def notLiveMutable (path : Bytes) : Option Response :=
  some (.error (utf8 "not_live_mutable") (utf8 "path not live-mutable: " ++ path)
    (utf8 "edit the yaml and `daemon restart`"))

def noSession : Option Response := errorOf "no_session" "run `configure` first"

def staleSession : Option Response :=
  errorOf "stale_session" "session id does not match the active candidate"

def set (s : Server) (_ : Env) (req : Request) : Server × Option Response :=
  if s.session.activeId.isNone then (s, noSession)
  else if !sessionMatches s.session req then (s, staleSession)
  else if req.args.length < 2 then (s, errorOf "bad_args" "usage: set <path> <value>")
  else
    let path := joinPath req.args.dropLast
    let value := req.args.getLastD []
    match findPath path with
    | none => (s, notLiveMutable path)
    | some p =>
      if p.row.validate value ≠ [] then
        (s, some (.error (utf8 "validation") (path ++ utf8 ": " ++ p.row.validate value) []))
      else
        ({ s with session := { s.session with
            setValues := s.session.setValues.insert path value
            deletedPaths := s.session.deletedPaths.erase path } }, some (.ok []))

def delete (s : Server) (_ : Env) (req : Request) : Server × Option Response :=
  if s.session.activeId.isNone then (s, noSession)
  else if !sessionMatches s.session req then (s, staleSession)
  else if req.args = [] then (s, errorOf "bad_args" "usage: delete <path>")
  else
    let path := joinPath req.args
    match findPath path with
    | none => (s, notLiveMutable path)
    | some _ =>
      ({ s with session := { s.session with
          setValues := s.session.setValues.erase path
          deletedPaths := s.session.deletedPaths.insert path } }, some (.ok []))

/-! ### `commit` -/

/-- `ConfigPaths().at(path).apply(s, v)`; both parts may throw. -/
def applyEntry (s : Live) (kv : Bytes × Bytes) : Option Live :=
  match findPath kv.1 with
  | none => none
  | some p => p.row.apply s kv.2

def applyAll (s : Live) : List (Bytes × Bytes) → Live × Bool
  | [] => (s, true)
  | kv :: kvs =>
    match applyEntry s kv with
    | none => (s, false)
    | some s' => applyAll s' kvs

def defaultEntry (path : Bytes) : Bytes × Bytes :=
  (path, ((findPath path).map fun p => p.row.defaultValue).getD [])

def CommitRecord.entries (rec : CommitRecord) : List (Bytes × Bytes) :=
  rec.sets ++ rec.deletes.map defaultEntry

def candidateRecord (cfg : ConfigSession) (env : Env) : CommitRecord :=
  { commitId := (cfg.commitCount + 1) % 2 ^ 64
    sets := (env.sets cfg.setValues.entries).map fun kv => (kv.1, kv.2)
    deletes := env.deletes cfg.deletedPaths }

def appendCommitRecord (s : Server) (env : Env) (rec : CommitRecord) : Bytes :=
  if s.commitLogPath = [] then s.log else s.log ++ encodeCommitRecord rec.commitId env.ts rec

def commitBody (id : ℕ) : Bytes := utf8 "commit_id=" ++ Text.decimal id ++ utf8 "\n"

def commit (s : Server) (env : Env) (req : Request) : Server × Option Response :=
  if s.session.activeId.isNone then
    (s, errorOf "no_session" "nothing to commit — run `configure`")
  else if !sessionMatches s.session req then (s, staleSession)
  else
    let record := candidateRecord s.session env
    let (live, done) := applyAll s.live record.entries
    if done then
      ({ s with
          live := live
          log := appendCommitRecord s env record
          session := { nextId := s.session.nextId, commitCount := record.commitId } },
        some (.ok (commitBody record.commitId)))
    else ({ s with live := live }, none)

/-! ### Replay and `rollback` -/

def applyRecord (m : Values) (rec : CommitRecord) : Values :=
  rec.deletes.foldl (fun m k => m.erase k) (rec.sets.foldl (fun m kv => m.insert kv.1 kv.2) m)

def finalState (records : List CommitRecord) : Values := records.foldl applyRecord ∅

def replayEntry (s : Live) (kv : Sigma fun _ : Bytes => Bytes) : Live :=
  match findPath kv.1 with
  | none => s
  | some p => if p.row.validate kv.2 ≠ [] then s else (p.row.apply s kv.2).getD s

def replayCommitLog (s : Server) (env : Env) : Server :=
  let (stored, bad) := loadCommitLog s.log
  if stored = [] ∧ bad = 0 then s
  else
    { s with
      live := (env.sets (finalState stored).entries).foldl replayEntry s.live
      session := { s.session with
        commitCount := stored.foldl (fun id rec => max id rec.commitId) 0 } }

/-- A new process on the same yaml and log (`EinheitChannelStart`). -/
def restart (s : Server) (env : Env) (yaml : Live) : Server :=
  let fresh : Server := { live := yaml, commitLogPath := s.commitLogPath, log := s.log }
  if s.commitLogPath = [] then fresh else replayCommitLog fresh env

def restored (prev : Values) (ks : List Bytes) : List (Bytes × Bytes) :=
  ks.filterMap fun k => (prev.lookup k).map fun v => (k, v)

def inverseRecord (prev : Values) (last : CommitRecord) : CommitRecord :=
  { sets := restored prev (last.sets.map Prod.fst) ++ restored prev last.deletes
    deletes := (last.sets.map Prod.fst).filter fun k => (prev.lookup k).isNone }

def rollbackBody (id lastId : ℕ) : Bytes :=
  commitBody id ++ utf8 "rolled_back_from=" ++ Text.decimal lastId ++ utf8 "\n"

/-- `rollback previous`; the values come from the log without being validated again. -/
def rollbackPrevious (s : Server) (env : Env) : Server × Option Response :=
  if s.commitLogPath = [] then
    (s, errorOf "not_enabled"
      "commit log disabled (set einheit.commit_log_path) — rollback previous needs history")
  else
    let stored := (loadCommitLog s.log).1
    match stored.getLast? with
    | none => (s, errorOf "no_commits" "nothing to roll back")
    | some last =>
      if s.session.activeId.isSome then
        (s, errorOf "session_active"
          "close the candidate session first (`rollback candidate` or `commit`)")
      else
        let inverse := inverseRecord (finalState stored.dropLast) last
        if inverse.sets = [] ∧ inverse.deletes = [] then
          (s, errorOf "no_op" "last commit has no reversible ops")
        else
          let id := (s.session.commitCount + 1) % 2 ^ 64
          let record := { inverse with commitId := id }
          let (live, done) :=
            applyAll s.live (record.entries.filter fun kv => (findPath kv.1).isSome)
          if done then
            ({ s with
                live := live
                log := appendCommitRecord s env record
                session := { s.session with commitCount := id } },
              some (.ok (rollbackBody id last.commitId)))
          else ({ s with live := live }, none)

/-- `which`: the plain verb means the candidate unless it says otherwise. -/
def rollbackScope (req : Request) : Bytes :=
  if req.command = utf8 "rollback_previous" then utf8 "previous"
  else
    match req.args with
    | [] => utf8 "candidate"
    | arg :: _ => arg

def rollback (s : Server) (env : Env) (req : Request) : Server × Option Response :=
  if rollbackScope req = utf8 "candidate" then
    ({ s with session := { nextId := s.session.nextId, commitCount := s.session.commitCount } },
      some (.ok []))
  else if rollbackScope req ≠ utf8 "previous" then
    (s, errorOf "bad_args" "expected `candidate` or `previous`")
  else rollbackPrevious s env

/-! ### Dispatch -/

def verb (command : Bytes) : Option Handler :=
  if command = utf8 "configure" then some configure
  else if command = utf8 "set" then some set
  else if command = utf8 "delete" then some delete
  else if command = utf8 "commit" then some commit
  else if command = utf8 "rollback" ∨ command = utf8 "rollback_previous" then some rollback
  else none

def report (result : Server × Option Response) : Server × Response :=
  (result.1, result.2.getD .handlerException)

/-- All six verbs need the admin role; the flag `requires_session` is for the catalogue only. -/
def dispatch (s : Server) (env : Env) (req : Request) : Server × Response :=
  match verb req.command with
  | none => (s, .error (utf8 "unknown_command") (utf8 "no handler for: " ++ req.command) [])
  | some handler =>
    if req.role ≠ utf8 "admin" then
      let role := if req.role = [] then utf8 "<none>" else req.role
      (s, .error (utf8 "forbidden")
        (utf8 "role '" ++ role ++ utf8 "' not allowed; need admin") [])
    else report (handler s env req)

end Config

end HyperDerp
