import HyperDerp.HdClient.Connect

/-!
# The SDK receive loop (`sdk/src/client.cc:114-250`, `:490-517`)

Connections are numbered: every attempt to connect makes a new one. A turn is one pass of
the loop; its environment says what the loads, the clock, the sends and the reads bring.
-/

namespace HyperDerp.RecvLoop

open ByteStream (Source)

structure ClientConfig where
  keepalive : ℤ := 25
  autoReconnect : Bool := true
  reconnectInitialMs : ℤ := 1000
  reconnectMaxMs : ℤ := 30000
  tls : Bool := true
  relayKey : Key := zeroKey

inductive Status where
  | disconnected
  | connecting
  | connected
  deriving DecidableEq

inductive Silence where
  | timeout
  | endOfStream
  | hardError
  deriving DecidableEq

/-- The environment of one `DoConnect`. -/
structure Attempt where
  dial : Dial
  /-- the result of `LoadKey` -/
  loaded : Option Key := none
  /-- the key `HdClientInit` makes, unless `sodium_init` fails -/
  generated : Option Key := none
  stream : Bytes := []

/-- The part of `Client::Impl` that the loop uses, and the number of its connection. -/
structure Loop where
  host : String
  port : ℕ
  hd : HdClient
  status : Status := .connected
  backoff : ℤ
  lastPing : ℕ
  ended : Bool := false
  conn : ℕ := 0

structure Turn where
  /-- the load of `running` at the top, and the one after the backoff -/
  running : Bool := true
  runningAfter : Bool := true
  attempt : Attempt
  now : ℕ := 0
  nowAfter : ℕ := 0
  /-- `HdClientSendPing` succeeds -/
  pinged : Bool := true
  sock : Source Byte := ⟨[], []⟩
  silence : Silence := .timeout
  /-- where a Redirect leads, when it is valid and the callback follows it -/
  follow : Option (String × ℕ) := none

inductive Heard where
  | frame
  | nothing (why : Silence)
  | badLength
  | overflow
  deriving DecidableEq

inductive Event where
  | connecting (conn : ℕ)
  | received (conn : ℕ) (heard : Heard)
  deriving DecidableEq

def heardOf (silence : Silence) : Except ClientError ClientFrame → Heard
  | .ok _ => .frame
  | .error e =>
    match e.code with
    | .ioFailed => .nothing silence
    | .badPayloadLength => .badLength
    | _ => .overflow

/-- End of stream, a hard error or an invalid frame length. -/
def Heard.dead : Heard → Bool
  | .nothing why => why ≠ .timeout
  | .badLength => true
  | _ => false

def doConnect (cfg : ClientConfig) (host : String) (port : ℕ) (a : Attempt) : Bool × HdClient :=
  match a.loaded.or a.generated with
  | none => (false, {})
  | some key =>
    match hdClientConnect a.dial { publicKey := key, relayKey := cfg.relayKey } host port with
    | (.error _, hd) => (false, hd)
    | (.ok (), hd) =>
      match if cfg.tls then hdClientTlsConnect a.dial hd else (.ok (), hd) with
      | (.error _, hd) => (false, hdClientClose hd)
      | (.ok (), hd) =>
        match hdClientUpgrade a.dial hd a.stream with
        | ⟨.error _, hd, _⟩ => (false, hdClientClose hd)
        | ⟨.ok (), hd, stream⟩ =>
          match hdClientEnroll a.dial hd stream with
          | ⟨.error _, hd, _⟩ => (false, hdClientClose hd)
          | ⟨.ok (), hd, _⟩ => (true, hd)

def pingDue (cfg : ClientConfig) (lastPing now : ℕ) : Bool :=
  let kaMs := cfg.keepalive * 1000
  0 < kaMs && kaMs < ((now + 2 ^ 64 - lastPing) % 2 ^ 64 : ℕ)

/-- `DispatchFrame`, as far as the loop sees it. -/
def dispatchFrame (s : Loop) (frame : ClientFrame) (follow : Option (String × ℕ)) : Loop :=
  match frame.type, follow with
  | .kRedirect, some (host, port) =>
    { s with
      host := host
      port := port
      hd := hdClientClose s.hd
      status := .disconnected }
  | _, _ => s

def reconnect (cfg : ClientConfig) (s : Loop) (t : Turn) : Loop × List Event :=
  match doConnect cfg s.host s.port t.attempt with
  | (true, hd) =>
    ({ s with
      hd := hd
      status := .connected
      backoff := cfg.reconnectInitialMs
      lastPing := t.now
      conn := s.conn + 1 }, [.connecting (s.conn + 1)])
  | (false, hd) =>
    ({ s with
      hd := hd
      status := .connecting
      backoff := min (s.backoff * 2) cfg.reconnectMaxMs
      conn := s.conn + 1 }, [.connecting (s.conn + 1)])

def receive (s : Loop) (t : Turn) : Loop × List Event :=
  let (result, hd, _) := hdClientRecvFrame s.hd kHdMaxFramePayload t.sock
  let s := { s with hd := hd }
  let events := [.received s.conn (heardOf t.silence result)]
  match result with
  | .error _ => (if s.hd.connected then s else { s with status := .disconnected }, events)
  | .ok frame => (dispatchFrame s frame t.follow, events)

def turn (cfg : ClientConfig) (s : Loop) (t : Turn) : Loop × List Event :=
  if s.ended then (s, [])
  else if t.running = false then ({ s with ended := true }, [])
  else if s.status ≠ .connected then
    if cfg.autoReconnect = false then ({ s with ended := true }, [])
    else if t.runningAfter = false then ({ s with status := .connecting, ended := true }, [])
    else reconnect cfg s t
  else if pingDue cfg s.lastPing t.now then
    if t.pinged = false then ({ s with status := .disconnected }, [])
    else receive { s with lastPing := t.nowAfter } t
  else receive s t

def after (cfg : ClientConfig) (s : Loop) (ts : List Turn) : Loop :=
  ts.foldl (fun s t => (turn cfg s t).1) s

def events (cfg : ClientConfig) : Loop → List Turn → List Event
  | _, [] => []
  | s, t :: ts => (turn cfg s t).2 ++ events cfg (turn cfg s t).1 ts

/-- The loop after `Create` and `Start`. -/
def start (cfg : ClientConfig) (host : String) (port : ℕ) (hd : HdClient) (now : ℕ) : Loop where
  host := host
  port := port
  hd := hd
  backoff := cfg.reconnectInitialMs
  lastPing := now

/-! ### Leaving a dead connection -/

/-- No receive on a connection follows one that found it dead. -/
def LeavesDead (evs : List Event) : Prop :=
  evs.Pairwise fun e e' => ∀ conn heard heard', e = .received conn heard → heard.dead →
    e' ≠ .received conn heard'

/-- A receive that timed out leaves the loop on its connection. -/
def KeepsOnTimeout (cfg : ClientConfig) (s : Loop) (t : Turn) : Prop :=
  ∀ conn, .received conn (.nothing .timeout) ∈ (turn cfg s t).2 →
    (turn cfg s t).1.status = .connected ∧ (turn cfg s t).1.conn = conn ∧
      (turn cfg s t).1.hd.connected = true ∧ (turn cfg s t).1.ended = false

/-- The turn finds `running` cleared, or a keepalive due that cannot be sent. -/
def Leaves (cfg : ClientConfig) (s : Loop) (t : Turn) : Prop :=
  t.running = false ∨ pingDue cfg s.lastPing t.now = true ∧ t.pinged = false

def FindsDead (cfg : ClientConfig) (s : Loop) (t : Turn) : Prop :=
  ∃ conn heard, .received conn heard ∈ (turn cfg s t).2 ∧ heard.dead = true

/-- Every turn right after one that found the connection dead leaves. -/
def DeadLeft (cfg : ClientConfig) : Loop → List Turn → Prop
  | _, [] => True
  | s, t :: ts =>
    (∀ t' ∈ ts.head?, FindsDead cfg s t → Leaves cfg (turn cfg s t).1 t') ∧
      DeadLeft cfg (turn cfg s t).1 ts

variable {cfg : ClientConfig} {s : Loop} {t : Turn} {ts : List Turn}

/-! ### One turn -/

variable {d : Dial} {c hd : HdClient} {heard : Heard}

theorem connect_connected {host : String} {port : ℕ}
    (h : hdClientConnect d c host port = (.ok (), hd)) : hd.connected = true := by
  unfold hdClientConnect at h
  split at h
  · cases h
  split at h
  · cases h
  split at h
  · cases h
  · cases h
    rfl

theorem tls_connected {result : Except ClientError Unit}
    (h : hdClientTlsConnect d c = (result, hd)) : hd.connected = c.connected := by
  unfold hdClientTlsConnect at h
  split at h <;>
  · cases h
    rfl

theorem upgrade_connected {stream rest : Bytes}
    (h : hdClientUpgrade d c stream = ⟨.ok (), hd, rest⟩) : hd = c := (upgrade_prefixed h).1

theorem enroll_connected {stream rest : Bytes}
    (h : hdClientEnroll d c stream = ⟨.ok (), hd, rest⟩) : hd.connected = c.connected := by
  rw [(enroll_prefixed h).1]

theorem doConnect_connected {host : String} {port : ℕ} {a : Attempt}
    (h : doConnect cfg host port a = (true, hd)) : hd.connected = true := by
  unfold doConnect at h
  split at h
  · cases h
  split at h
  · cases h
  next key hkey c hconn =>
  have hc := connect_connected hconn
  split at h
  · cases h
  next c' htls =>
  have hc' : c'.connected = true := by
    split at htls
    · rw [tls_connected htls, hc]
    · cases htls
      exact hc
  split at h
  · cases h
  next c'' stream hup =>
  split at h
  · cases h
  next c3 rest hen =>
  cases h
  rw [enroll_connected hen, upgrade_connected hup, hc']

/-- A loop in the connected state has a connected client. -/
def Loop.Ok (s : Loop) : Prop := s.status = .connected → s.hd.connected = true

structure Receives (s : Loop) (heard : Heard) (r : Loop × List Event) : Prop where
  events_eq : r.2 = [.received s.conn heard]
  conn_eq : r.1.conn = s.conn
  ended_eq : r.1.ended = s.ended
  ok : r.1.Ok
  keeps : heard ≠ .frame → r.1.status = .connected

theorem Receives.of_ping {r : Loop × List Event} (k : ℕ)
    (h : Receives { s with lastPing := k } heard r) : Receives s heard r :=
  ⟨h.events_eq, h.conn_eq, h.ended_eq, h.ok, h.keeps⟩

theorem dispatchFrame_cases (s : Loop) (frame : ClientFrame) (follow : Option (String × ℕ)) :
    dispatchFrame s frame follow = s ∨
      ((dispatchFrame s frame follow).status = .disconnected ∧
        (dispatchFrame s frame follow).conn = s.conn ∧
        (dispatchFrame s frame follow).ended = s.ended) := by
  unfold dispatchFrame
  split
  · exact .inr ⟨rfl, rfl, rfl⟩
  · exact .inl rfl

theorem receive_spec (hstatus : s.status = .connected) (hconn : s.hd.connected = true) (t : Turn) :
    ∃ heard, Receives s heard (receive s t) := by
  unfold receive hdClientRecvFrame
  dsimp only
  generalize recvLoop kHdMaxFramePayload (s.hd.recvBuf.getD .empty) t.sock.stream t.sock.reads = r
  refine ⟨heardOf t.silence r.result, ?_⟩
  rcases hr : r.result with e | frame
  · dsimp only
    rw [if_pos hconn]
    exact ⟨rfl, rfl, rfl, fun _ => hconn, fun _ => hstatus⟩
  · dsimp only
    rcases dispatchFrame_cases { s with hd := { s.hd with recvBuf := some r.buf } } frame t.follow
      with hsame | ⟨hst, hc, ho⟩
    · rw [hsame]
      exact ⟨rfl, rfl, rfl, fun _ => hconn, fun h => (h rfl).elim⟩
    · refine ⟨rfl, hc, ho, ?_, fun h => (h rfl).elim⟩
      intro h
      rw [hst] at h
      cases h

variable (cfg) in
theorem turn_cases (hok : s.Ok) (t : Turn) :
    ((s.ended = true ∨ s.status ≠ .connected ∨ Leaves cfg s t) ∧ (turn cfg s t).2 = [] ∧
      (turn cfg s t).1.ended = true) ∨
    (s.status ≠ .connected ∧ (turn cfg s t).2 = [.connecting (s.conn + 1)] ∧
      (turn cfg s t).1.conn = s.conn + 1 ∧ (turn cfg s t).1.Ok) ∨
    (s.status = .connected ∧ Leaves cfg s t ∧ (turn cfg s t).2 = [] ∧
      (turn cfg s t).1.status = .disconnected ∧ (turn cfg s t).1.conn = s.conn) ∨
    (s.status = .connected ∧ s.ended = false ∧ ¬ Leaves cfg s t ∧
      ∃ heard, Receives s heard (turn cfg s t)) := by
  unfold turn
  split
  · next hended => exact .inl ⟨.inl hended, rfl, hended⟩
  next hended =>
  split
  · next hrun => exact .inl ⟨.inr (.inr (.inl hrun)), rfl, rfl⟩
  next hrun =>
  split
  · next hstatus =>
    split
    · exact .inl ⟨.inr (.inl hstatus), rfl, rfl⟩
    split
    · exact .inl ⟨.inr (.inl hstatus), rfl, rfl⟩
    right
    left
    refine ⟨hstatus, ?_⟩
    unfold reconnect
    split
    · next hd hconn => exact ⟨rfl, rfl, fun _ => doConnect_connected hconn⟩
    · exact ⟨rfl, rfl, fun h => nomatch h⟩
  · next hstatus =>
    have hstatus := not_not.mp hstatus
    split
    · next hdue =>
      split
      · next hping => exact .inr (.inr (.inl ⟨hstatus, .inr ⟨hdue, hping⟩, rfl, rfl, rfl⟩))
      · next hping =>
        right; right; right
        refine ⟨hstatus, Bool.not_eq_true _ ▸ hended, ?_, ?_⟩
        · rintro (hr | ⟨-, hp⟩)
          · exact hrun hr
          · exact hping hp
        · obtain ⟨heard, h⟩ := receive_spec (s := { s with lastPing := t.nowAfter }) hstatus
            (hok hstatus) t
          exact ⟨heard, h.of_ping _⟩
    · next hdue =>
      right; right; right
      refine ⟨hstatus, Bool.not_eq_true _ ▸ hended, ?_, receive_spec hstatus (hok hstatus) t⟩
      rintro (hr | ⟨hd, -⟩)
      · exact hrun hr
      · exact hdue hd

theorem turn_ok (hok : s.Ok) (t : Turn) :
    (turn cfg s t).1.Ok ∨ (turn cfg s t).1.ended = true := by
  rcases turn_cases cfg hok t with ⟨-, -, h⟩ | ⟨-, -, -, h⟩ | ⟨-, -, -, h, -⟩ | ⟨-, -, -, heard, h⟩
  · exact .inr h
  · exact .inl h
  · left
    intro hc
    rw [h] at hc
    cases hc
  · exact .inl h.ok

/-! ### Whole runs -/

theorem turn_ended (h : s.ended = true) (t : Turn) : turn cfg s t = (s, []) := by
  unfold turn
  rw [if_pos h]

theorem events_ended (h : s.ended = true) (ts : List Turn) : events cfg s ts = [] := by
  induction ts with
  | nil => rfl
  | cons t ts ih => rw [events, turn_ended h, List.nil_append, ih]

theorem received_conn_le {conn : ℕ} (hok : s.Ok) (h : .received conn heard ∈ events cfg s ts) :
    s.conn ≤ conn := by
  induction ts generalizing s with
  | nil => cases h
  | cons t ts ih =>
    rw [events] at h
    rcases turn_cases cfg hok t with ⟨-, hnil, hended⟩ | ⟨-, hevs, hconn, hok'⟩ |
      ⟨-, -, hnil, hst, hconn⟩ | ⟨-, -, -, o, hr⟩
    · rw [hnil, events_ended hended] at h
      cases h
    · rw [hevs] at h
      have hle := ih hok' (List.mem_of_ne_of_mem Event.noConfusion h)
      omega
    · rw [hnil] at h
      exact hconn ▸ ih (fun hc => by rw [hst] at hc; cases hc) h
    · rw [hr.events_eq, List.singleton_append, List.mem_cons] at h
      rcases h with heq | h
      · cases heq
        exact Nat.le_refl _
      · exact hr.conn_eq ▸ ih hr.ok h

theorem received_conn_lt {conn : ℕ} (hs : s.status ≠ .connected)
    (h : .received conn heard ∈ events cfg s ts) : s.conn < conn := by
  cases ts with
  | nil => cases h
  | cons t ts =>
    rw [events] at h
    rcases turn_cases cfg (fun hc => (hs hc).elim) t with ⟨-, hnil, hended⟩ | ⟨-, hevs, hconn, hok'⟩ |
      ⟨hc, -⟩ | ⟨hc, -⟩
    · rw [hnil, events_ended hended] at h
      cases h
    · rw [hevs] at h
      have hle := received_conn_le hok' (List.mem_of_ne_of_mem Event.noConfusion h)
      omega
    · exact (hs hc).elim
    · exact (hs hc).elim

variable (cfg) in
theorem receives_again_iff (hok : s.Ok) (hstatus : s.status = .connected) (hended : s.ended = false)
    (ts : List Turn) :
    (∀ heard, .received s.conn heard ∉ events cfg s ts) ↔ ∀ t ∈ ts.head?, Leaves cfg s t := by
  cases ts with
  | nil => simp [events]
  | cons t ts =>
    rw [List.head?_cons, events]
    simp only [Option.mem_some_iff, forall_eq']
    rcases turn_cases cfg hok t with ⟨hstop, hnil, hended'⟩ | ⟨hc, -⟩ | ⟨-, hleaves, hnil, hst, hconn⟩ |
      ⟨-, -, hstays, o, hr⟩
    · rw [hnil, events_ended hended']
      rcases hstop with h | h | h
      · rw [hended] at h
        cases h
      · exact (h hstatus).elim
      · simp [h]
    · exact (hc hstatus).elim
    · rw [hnil, List.nil_append]
      refine iff_of_true (fun heard hmem => ?_) hleaves
      have hlt := received_conn_lt (by rw [hst]; exact nofun) hmem
      omega
    · rw [hr.events_eq]
      refine iff_of_false (fun h => h o ?_) hstays
      exact List.mem_cons_self

theorem leavesDead_cons {e : Event} {evs : List Event} :
    LeavesDead (e :: evs) ↔ (∀ conn heard, e = .received conn heard → heard.dead = true →
      ∀ heard', .received conn heard' ∉ evs) ∧ LeavesDead evs := by
  unfold LeavesDead
  rw [List.pairwise_cons]
  apply and_congr_left'
  constructor
  · intro h conn heard he hdead heard' hmem
    exact h _ hmem conn heard heard' he hdead rfl
  · rintro h e' hmem conn heard heard' he hdead rfl
    exact h conn heard he hdead heard' hmem

theorem deadLeft_ended (h : s.ended = true) (ts : List Turn) : DeadLeft cfg s ts := by
  induction ts with
  | nil => trivial
  | cons t ts ih =>
    rw [DeadLeft, turn_ended h]
    refine ⟨?_, ih⟩
    rintro t' - ⟨conn, heard, hmem, -⟩
    rw [turn_ended h] at hmem
    cases hmem

theorem leavesDead_iff (hok : s.Ok) (ts : List Turn) :
    LeavesDead (events cfg s ts) ↔ DeadLeft cfg s ts := by
  induction ts generalizing s with
  | nil => exact iff_of_true List.Pairwise.nil trivial
  | cons t ts ih =>
    have hquiet : ¬ FindsDead cfg s t →
        (DeadLeft cfg s (t :: ts) ↔ DeadLeft cfg (turn cfg s t).1 ts) := by
      intro h
      rw [DeadLeft]
      exact and_iff_right fun t' _ hdead => (h hdead).elim
    rw [events]
    rcases turn_cases cfg hok t with ⟨-, hnil, hended⟩ | ⟨-, hevs, hconn, hok'⟩ |
      ⟨-, -, hnil, hst, hconn⟩ | ⟨-, hrunning, -, o, hr⟩
    · rw [hnil, events_ended hended]
      refine iff_of_true List.Pairwise.nil ((hquiet ?_).mpr (deadLeft_ended hended ts))
      simp [FindsDead, hnil]
    · rw [hevs, List.singleton_append, leavesDead_cons, ih hok', hquiet (by simp [FindsDead, hevs])]
      exact and_iff_right nofun
    · rw [hnil, List.nil_append, ih (fun hc => by rw [hst] at hc; cases hc),
        hquiet (by simp [FindsDead, hnil])]
    · rw [hr.events_eq, List.singleton_append, leavesDead_cons, ih hr.ok, DeadLeft]
      apply and_congr_left'
      by_cases hdead : o.dead = true
      · have hkeep : (turn cfg s t).1.status = .connected := by
          apply hr.keeps
          rintro rfl
          cases hdead
        have hagain := receives_again_iff cfg hr.ok hkeep (hr.ended_eq.trans hrunning) ts
        rw [hr.conn_eq] at hagain
        have hfinds : FindsDead cfg s t := ⟨s.conn, o, by simp [hr.events_eq], hdead⟩
        constructor
        · intro h t' ht' _
          exact hagain.mp (h _ _ rfl hdead) t' ht'
        · intro h conn heard heq _
          cases heq
          exact hagain.mpr fun t' ht' => h t' ht' hfinds
      · have hlive : ¬ FindsDead cfg s t := by
          rintro ⟨conn, heard, hmem, hd⟩
          rw [hr.events_eq, List.mem_singleton] at hmem
          cases hmem
          exact hdead hd
        refine iff_of_true ?_ fun t' _ h => (hlive h).elim
        intro conn heard heq hd
        cases heq
        exact (hdead hd).elim

theorem keepsOnTimeout (hok : s.Ok) (t : Turn) : KeepsOnTimeout cfg s t := by
  intro conn hmem
  rcases turn_cases cfg hok t with ⟨-, hnil, -⟩ | ⟨-, hevs, -⟩ | ⟨-, -, hnil, -⟩ |
    ⟨-, hended, -, o, hr⟩
  · rw [hnil] at hmem
    cases hmem
  · rw [hevs] at hmem
    simp at hmem
  · rw [hnil] at hmem
    cases hmem
  · rw [hr.events_eq, List.mem_singleton] at hmem
    cases hmem
    have hkeep := hr.keeps Heard.noConfusion
    exact ⟨hkeep, hr.conn_eq, hr.ok hkeep, hr.ended_eq.trans hended⟩

variable (cfg) in
theorem after_ok (hok : s.Ok) (ts : List Turn) :
    (after cfg s ts).Ok ∨ (after cfg s ts).ended = true := by
  induction ts using List.reverseRecOn with
  | nil => exact .inl hok
  | append_singleton ts t ih =>
    rw [after, List.foldl_append]
    rcases ih with hok | hended
    · exact turn_ok hok t
    · right
      change (turn cfg (after cfg s ts) t).1.ended = true
      rw [turn_ended hended]
      exact hended

/-- After `Create` and `Start`, a run leaves every dead connection before it receives again, and
keeps one that only timed out, exactly when each turn after a dead read leaves. -/
theorem leaves_dead_connection_iff (cfg : ClientConfig) (host : String) (port now : ℕ) (a : Attempt)
    (hd : HdClient) (hcreate : doConnect cfg host port a = (true, hd)) (ts : List Turn) :
    (LeavesDead (events cfg (start cfg host port hd now) ts) ∧
      ∀ pre t post, ts = pre ++ t :: post →
        KeepsOnTimeout cfg (after cfg (start cfg host port hd now) pre) t) ↔
    DeadLeft cfg (start cfg host port hd now) ts := by
  have hok : (start cfg host port hd now).Ok := fun _ => doConnect_connected hcreate
  rw [leavesDead_iff hok, and_iff_left]
  intro pre t post _
  rcases after_ok cfg hok pre with h | hended
  · exact keepsOnTimeout h t
  · intro conn hmem
    rw [turn_ended hended] at hmem
    cases hmem

def openAttempt : Attempt where
  dial := openDial
  generated := some (byteKey 1)
  stream := openGreeting

def openCfg : ClientConfig where
  relayKey := byteKey 9

def openedClient : HdClient where
  fd := 5
  publicKey := byteKey 1
  relayKey := byteKey 9
  connected := true
  approved := true
  host := "10.0.0.1"
  port := 443
  ssl := true
  sslCtx := true
  useTls := true

theorem doConnect_open : doConnect openCfg "10.0.0.1" 443 openAttempt = (true, openedClient) := rfl

def hungUp : Turn where
  attempt := openAttempt
  silence := .endOfStream

/-- The peer hangs up, and the loop is stopped before its next turn. -/
theorem stopped_after_hangup :
    LeavesDead (events openCfg (start openCfg "10.0.0.1" 443 openedClient 0)
      [hungUp, { hungUp with running := false }]) := by
  refine ((leaves_dead_connection_iff openCfg _ _ 0 _ _ doConnect_open _).mpr ?_).1
  refine ⟨?_, ?_, trivial⟩
  · rintro t' ht' -
    cases ht'
    exact .inl rfl
  · rintro t' ht'
    cases ht'

/-- The peer hangs up, and the loop reads the dead connection again. -/
theorem not_leaves_dead_hangup :
    ¬ ∀ (cfg : ClientConfig) (host : String) (port now : ℕ) (a : Attempt) (hd : HdClient),
      doConnect cfg host port a = (true, hd) → ∀ ts : List Turn,
      LeavesDead (events cfg (start cfg host port hd now) ts) ∧
        ∀ pre t post, ts = pre ++ t :: post →
          KeepsOnTimeout cfg (after cfg (start cfg host port hd now) pre) t := by
  intro h
  obtain ⟨hdead, -⟩ := h openCfg _ _ 0 _ _ doConnect_open [hungUp, hungUp]
  have hevents : events openCfg (start openCfg "10.0.0.1" 443 openedClient 0) [hungUp, hungUp] =
      [.received 0 (.nothing .endOfStream), .received 0 (.nothing .endOfStream)] := rfl
  rw [hevents, leavesDead_cons] at hdead
  exact hdead.1 _ _ rfl rfl _ List.mem_cons_self

end HyperDerp.RecvLoop
