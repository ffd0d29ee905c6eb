import HyperDerp.HdPeers.Entries

/-!
# Who closes a connection (`server.cc:236-553`, `:1103-1196`, `einheit_channel.cc:473-555`,
`data_plane.cc:155-196`, `:2040-2122`)

The accept thread closes the socket of a handshake that fails and hands the
others to the registry or to a worker. The worker closes the fd of a peer it
removes. The admin channel and the fleet thread close the fd that the registry
recorded at enrolment, whoever has it by then.

A connection is known by its client and its serial number among the client's
connections; the kernel gives its number to another connection once it is
closed.
-/

namespace HyperDerp

namespace Closes

/-- A connection of a client: its number and which of the client's connections it is. -/
structure Conn where
  fd : Fd
  serial : ℕ
  deriving DecidableEq

inductive Phase where
  /-- `HandleConnection`, before the client is known. -/
  | handling
  /-- A link to a seed relay is enrolled at the other end. -/
  | dialled
  /-- `HdPerformHandshake` has inserted and approved the entry. -/
  | inserted
  /-- Before `DpAddPeer`. -/
  | joining
  /-- A revocation, before `DpRemovePeer`. -/
  | evicting
  /-- Before `close`. -/
  | closing
  deriving DecidableEq

structure Task where
  phase : Phase
  key : Key
  conn : Conn

inductive Cmd where
  | addPeer (conn : Conn)
  | removePeer
  deriving DecidableEq

/-- A call of `close`: the connection that it was meant for, and what the number stood for. -/
structure Close where
  key : Key
  serial : ℕ
  hit : Option (Key × ℕ)
  deriving DecidableEq

structure State where
  reg : HdPeerRegistry := {}
  /-- The connection whose fd the key's entry records. -/
  enrolled : Key → ℕ := fun _ => 0
  socks : Fd → Option (Key × ℕ) := fun _ => none
  serial : Key → ℕ := fun _ => 0
  tasks : List Task := []
  cmds : Key → List Cmd := fun _ => []
  /-- The peer table of the key's worker. -/
  peers : Key → Option Conn := fun _ => none
  closes : List Close := []

/-- How `HandleConnection` ends. -/
inductive Outcome where
  /-- Any of its exits with `close(fd)` before the registry is touched. -/
  | refused
  | hd
  | derp
  deriving DecidableEq

inductive Label where
  | accept (key : Key) (fd : Fd)
  /-- `server.cc:1085-1101`. -/
  | dial (key : Key) (fd : Fd)
  | handle (n : ℕ) (outcome : Outcome)
  /-- The next step of a task; whether its write succeeds or the command ring has room. -/
  | advance (n : ℕ) (ok : Bool)
  | peerApprove (key : Key)
  | peerDeny (key : Key)
  | peerRevoke (key : Key)
  | bundleRevoke (key : Key)
  /-- The unix-socket channel changes the registry only (`ctl_channel.cc:146-194`). -/
  | ctlApprove (key : Key)
  | ctlDeny (key : Key)
  | ctlRemove (key : Key)
  /-- The control plane reads the worker's PeerGone at EOF, or another client's ClosePeer. -/
  | peerGone (key : Key) (fits : Bool)
  /-- The worker takes a command; whether its table has a slot for the key. -/
  | work (key : Key) (hit : Bool)

namespace State

def connect (s : State) (key : Key) (fd : Fd) : State :=
  { s with
    socks := Function.update s.socks fd (some (key, s.serial key + 1))
    serial := Function.update s.serial key (s.serial key + 1) }

def start (s : State) (phase : Phase) (key : Key) (conn : Conn) : State :=
  { s with tasks := s.tasks ++ [⟨phase, key, conn⟩] }

def close (s : State) (key : Key) (conn : Conn) : State :=
  { s with
    socks := Function.update s.socks conn.fd none
    closes := s.closes ++ [⟨key, conn.serial, s.socks conn.fd⟩] }

def enqueue (s : State) (key : Key) (cmd : Cmd) (fits : Bool) : State :=
  if fits then { s with cmds := Function.update s.cmds key (s.cmds key ++ [cmd]) } else s

/-- `HdPeersInsert`: an entry that the key has already keeps its fd. -/
def insert (s : State) (key : Key) (conn : Conn) : State :=
  { s with
    reg := hdPeersInsert s.reg key conn.fd
    enrolled := if hdPeersLookup s.reg key = none then
      Function.update s.enrolled key conn.serial else s.enrolled }

def approve (s : State) (key : Key) : State :=
  { s with reg := (hdPeersApprove s.reg key).getD s.reg }

/-- The rest of `HandleConnection` with a task that is off the list. -/
def handle (s : State) (t : Task) : Outcome → State
  | .refused => s.close t.key t.conn
  | .hd =>
    if s.reg.enrollMode = .kAutoApprove then
      ((s.insert t.key t.conn).approve t.key).start .inserted t.key t.conn
    else s.insert t.key t.conn
  | .derp => s.start .joining t.key t.conn

def proceed (s : State) (t : Task) (ok : Bool) : State :=
  match t.phase with
  | .handling => s
  | .dialled => (s.insert t.key t.conn).start .joining t.key t.conn
  | .inserted => if ok then s.start .joining t.key t.conn else s.close t.key t.conn
  | .joining => s.enqueue t.key (.addPeer t.conn) ok
  | .evicting => (s.enqueue t.key .removePeer ok).start .closing t.key t.conn
  | .closing => s.close t.key t.conn

/-- `ProcessCmdAdd` and `ProcessCmdRemove`; `HtInsert` overwrites the fd of a key that the
table has. -/
def processCmd (s : State) (key : Key) (hit : Bool) : Cmd → State
  | .addPeer conn =>
    if validFd conn.fd ∧ hit then { s with peers := Function.update s.peers key (some conn) }
    else s
  | .removePeer =>
    match s.peers key with
    | none => s
    | some conn =>
      { (if validFd conn.fd then s.close key conn else s) with
        peers := Function.update s.peers key none }

end State

open State

def entry (s : State) (key : Key) : Option Conn :=
  (entryFd s.reg key).map fun fd => ⟨fd, s.enrolled key⟩

def connected (s : State) (phase : Phase) (key : Key) (fd : Fd) : Option State :=
  if 0 ≤ fd ∧ s.socks fd = none then
    some ((s.connect key fd).start phase key ⟨fd, s.serial key + 1⟩)
  else none

/-- An admin call: the registry's part under the lock; an fd is used after it. -/
def onEntry (s : State) (key : Key) (phase : Phase) (reg : HdPeerRegistry) : State :=
  match entry s key with
  | none => { s with reg := reg }
  | some conn => { s with reg := reg }.start phase key conn

def work (s : State) (key : Key) (hit : Bool) : Option State :=
  match s.cmds key with
  | [] => none
  | cmd :: rest => some ({ s with cmds := Function.update s.cmds key rest }.processCmd key hit cmd)

def step (s : State) : Label → Option State
  | .accept key fd => connected s .handling key fd
  | .dial key fd => connected s .dialled key fd
  | .handle n outcome =>
    (s.tasks[n]?).bind fun t =>
      if t.phase = .handling then some ({ s with tasks := s.tasks.eraseIdx n }.handle t outcome)
      else none
  | .advance n ok =>
    (s.tasks[n]?).bind fun t =>
      if t.phase = .handling then none
      else some ({ s with tasks := s.tasks.eraseIdx n }.proceed t ok)
  | .peerApprove key => some (onEntry s key .joining ((hdPeersApprove s.reg key).getD s.reg))
  | .peerDeny key => some (onEntry s key .closing ((hdPeersDeny s.reg key).getD s.reg))
  | .peerRevoke key =>
    some (if hdPeersLookup s.reg key = none then s
      else onEntry s key .evicting (hdPeersRevoke s.reg key))
  | .bundleRevoke key => some (onEntry s key .evicting (hdPeersRevoke s.reg key))
  | .ctlApprove key => some (s.approve key)
  | .ctlDeny key => some { s with reg := (hdPeersDeny s.reg key).getD s.reg }
  | .ctlRemove key => some { s with reg := hdPeersRemove s.reg key }
  | .peerGone key fits => some (s.enqueue key .removePeer fits)
  | .work key hit => work s key hit

structure Init (s : State) : Prop where
  empty : ∀ i, ¬(s.reg.peers i).Live
  socks : ∀ fd, s.socks fd = none
  tasks : s.tasks = []
  cmds : ∀ key, s.cmds key = []
  peers : ∀ key, s.peers key = none
  closes : s.closes = []

/-! ### Closed once -/

def Open (s : State) (key : Key) (conn : Conn) : Prop := s.socks conn.fd = some (key, conn.serial)

/-- A thread, a queued command, the worker's table or the registry has the connection. -/
def Held (s : State) (key : Key) (conn : Conn) : Prop :=
  (∃ t ∈ s.tasks, t.key = key ∧ t.conn = conn) ∨ .addPeer conn ∈ s.cmds key ∨
    s.peers key = some conn ∨ entry s key = some conn

/-- The registry or the worker's table keeps the connection as the client's. -/
def Serves (s : State) (key : Key) (conn : Conn) : Prop :=
  entry s key = some conn ∨ s.peers key = some conn

structure ClosedOnce (s : State) : Prop where
  /-- A `close` ends the connection that it was issued for. -/
  own : ∀ c ∈ s.closes, c.hit = some (c.key, c.serial)
  once : (s.closes.map fun c => (c.key, c.serial)).Nodup
  /-- A connection that no place has any more is closed. -/
  removed : ∀ key conn, ¬Held s key conn → ¬Open s key conn
  /-- So is one that the server has replaced by a later one of the client. -/
  superseded : ∀ key old new, Serves s key old → Serves s key new → old.serial < new.serial →
    ¬Open s key old

/-! ### When it is -/

def places (s : State) (key : Key) (conn : Conn) : ℕ :=
  (s.tasks.map fun t => (t.key, t.conn)).count (key, conn) +
    (s.cmds key).count (.addPeer conn) + (if s.peers key = some conn then 1 else 0)

/-- The connection is open and only the registry has it. -/
def Parked (s : State) (key : Key) (conn : Conn) : Prop := Open s key conn ∧ places s key conn = 0

/-- A new entry is not made beside a connection that the worker still has. -/
def EntryOk (s : State) (key : Key) : Prop := hdPeersLookup s.reg key = none → s.peers key = none

/-- A connection that waits for an admin gets an entry of its own. -/
def EnrolOk (s : State) (key : Key) : Prop :=
  EntryOk s key ∧
    (s.reg.enrollMode ≠ .kAutoApprove → hdPeersLookup s.reg key = none ∧ s.reg.freeSlot ≠ none)

def TaskOk (s : State) (ok : Bool) (t : Task) : Prop :=
  match t.phase with
  | .dialled => EntryOk s t.key
  | .joining => ok = false → entry s t.key = some t.conn
  | _ => True

/-- The worker adds a connection where its table has none and the registry no later one, or
leaves it to the registry. -/
def AddOk (s : State) (key : Key) (conn : Conn) (hit : Bool) : Prop :=
  if validFd conn.fd ∧ hit then
    s.peers key = none ∧ ∀ old, entry s key = some old →
      old = conn ∨ old.serial < conn.serial ∧ ¬Open s key old
  else entry s key = some conn

/-- Admin calls use an fd only while no worker has its connection, a record is not dropped
before the connection is closed, and a client's later connection joins after the removal of the
one before. -/
def StepOk (s : State) : Label → Prop
  | .handle n outcome => ∀ t, s.tasks[n]? = some t → outcome = .hd → EnrolOk s t.key
  | .advance n ok => ∀ t, s.tasks[n]? = some t → TaskOk s ok t
  | .peerApprove key | .peerDeny key | .peerRevoke key | .bundleRevoke key =>
    ∀ conn, entry s key = some conn → Parked s key conn
  | .ctlRemove key => ∀ conn, entry s key = some conn → ¬Parked s key conn
  | .work key hit => ∀ conn, (s.cmds key).head? = some (.addPeer conn) → AddOk s key conn hit
  | _ => True

/-! ### Places -/

variable {s s' : State} {key k : Key} {conn c : Conn} {fd : Fd} {reg : HdPeerRegistry}

abbrev Hand := Option (Key × Conn)

def total (s : State) (hand : Hand) (key : Key) (conn : Conn) : ℕ :=
  places s key conn + if hand = some (key, conn) then 1 else 0

theorem total_none (s : State) (key : Key) (conn : Conn) :
    total s none key conn = places s key conn := by
  simp [total]

theorem total_hand (s : State) (key : Key) (conn : Conn) :
    total s (some (key, conn)) key conn = places s key conn + 1 := by
  simp [total]

theorem total_other (h : ¬(k = key ∧ c = conn)) :
    total s (some (key, conn)) k c = places s k c := by
  have hne : ¬(some (key, conn) = some (k, c)) := by
    rw [Option.some.injEq, Prod.mk.injEq]
    rintro ⟨rfl, rfl⟩
    exact h ⟨rfl, rfl⟩
  rw [total, if_neg hne, Nat.add_zero]

theorem held_of_places (h : 0 < places s key conn) : Held s key conn := by
  unfold places at h
  by_cases htask : 0 < (s.tasks.map fun t => (t.key, t.conn)).count (key, conn)
  · obtain ⟨t, ht, heq⟩ := List.mem_map.1 (List.count_pos_iff.1 htask)
    rw [Prod.mk.injEq] at heq
    exact .inl ⟨t, ht, heq⟩
  · by_cases hcmd : 0 < (s.cmds key).count (.addPeer conn)
    · exact .inr (.inl (List.count_pos_iff.1 hcmd))
    · by_cases hpeer : s.peers key = some conn
      · exact .inr (.inr (.inl hpeer))
      · rw [if_neg hpeer] at h
        omega

theorem total_erase {n : ℕ} {t : Task} (ht : s.tasks[n]? = some t) (k : Key) (c : Conn) :
    total { s with tasks := s.tasks.eraseIdx n } (some (t.key, t.conn)) k c =
      total s none k c := by
  obtain ⟨hn, rfl⟩ := List.getElem?_eq_some_iff.1 ht
  have hperm := (List.getElem_cons_eraseIdx_perm hn).map fun t => (t.key, t.conn)
  have hcount := hperm.count_eq (k, c)
  rw [List.map_cons, List.count_cons] at hcount
  simp only [total, places, Option.some.injEq, beq_iff_eq] at hcount ⊢
  rw [← hcount]
  simp
  omega

theorem total_start (s : State) (phase : Phase) (key : Key) (conn : Conn) (k : Key) (c : Conn) :
    total (s.start phase key conn) none k c = total s (some (key, conn)) k c := by
  by_cases hp : s.peers k = some c
  · simp [total, places, State.start, List.count_append, List.count_singleton, hp]
    omega
  · simp [total, places, State.start, List.count_append, List.count_singleton, hp]
    omega

theorem total_join (s : State) (key : Key) (conn : Conn) (k : Key) (c : Conn) :
    total (s.enqueue key (.addPeer conn) true) none k c = total s (some (key, conn)) k c := by
  by_cases hk : k = key
  · subst hk
    simp [total, places, State.enqueue, List.count_append, List.count_singleton]
    omega
  · rw [total_none, total_other fun h => hk h.1]
    simp [places, State.enqueue, hk]

theorem total_evict (s : State) (hand : Hand) (key : Key) (fits : Bool) (k : Key) (c : Conn) :
    total (s.enqueue key .removePeer fits) hand k c = total s hand k c := by
  cases fits with
  | false => rfl
  | true =>
    by_cases hk : k = key
    · subst hk
      simp [total, places, State.enqueue, List.count_append]
    · simp [total, places, State.enqueue, hk]

def Cmd.hand (key : Key) : Cmd → Hand
  | .addPeer conn => some (key, conn)
  | .removePeer => none

theorem total_pop {cmd : Cmd} {rest : List Cmd} (hcmds : s.cmds key = cmd :: rest) (k : Key)
    (c : Conn) :
    total { s with cmds := Function.update s.cmds key rest } (cmd.hand key) k c =
      total s none k c := by
  by_cases hk : k = key
  · subst hk
    cases cmd with
    | addPeer conn =>
      simp [Cmd.hand, total, places, hcmds, List.count_cons]
      omega
    | removePeer => simp [Cmd.hand, total, places, hcmds]
  · cases cmd with
    | addPeer conn =>
      rw [Cmd.hand, total_none, total_other fun h => hk h.1]
      simp [places, hk]
    | removePeer => simp [Cmd.hand, total, places, hk]

theorem total_put (hnone : s.peers key = none) (conn : Conn) (k : Key) (c : Conn) :
    total { s with peers := Function.update s.peers key (some conn) } none k c =
      total s (some (key, conn)) k c := by
  by_cases hk : k = key
  · subst hk
    simp [total, places, hnone]
  · rw [total_none, total_other fun h => hk h.1]
    simp [places, hk]

theorem total_take (hsome : s.peers key = some conn) (k : Key) (c : Conn) :
    total { s with peers := Function.update s.peers key none } (some (key, conn)) k c =
      total s none k c := by
  by_cases hk : k = key
  · subst hk
    simp [total, places, hsome]
  · rw [total_none, total_other fun h => hk h.1]
    simp [places, hk]

/-! ### Entries -/

theorem entry_congr (hfd : entryFd s'.reg k = entryFd s.reg k)
    (henrolled : s'.enrolled k = s.enrolled k) : entry s' k = entry s k := by
  rw [entry, entry, hfd, henrolled]

theorem insert_reg (s : State) (key : Key) (conn : Conn) :
    (s.insert key conn).reg = hdPeersInsert s.reg key conn.fd := by
  rw [State.insert]

theorem insert_enrolled (s : State) (key : Key) (conn : Conn) :
    (s.insert key conn).enrolled = if hdPeersLookup s.reg key = none then
      Function.update s.enrolled key conn.serial else s.enrolled := by
  rw [State.insert]

theorem entry_insert_ne (hk : k ≠ key) : entry (s.insert key conn) k = entry s k := by
  apply entry_congr
  · rw [insert_reg, HdPeerRegistry.entryFd_insert_ne hk]
  · rw [insert_enrolled]
    split
    · exact Function.update_of_ne hk ..
    · rfl

theorem entry_insert_known (hl : hdPeersLookup s.reg key ≠ none) (k : Key) :
    entry (s.insert key conn) k = entry s k := by
  obtain ⟨i, hi⟩ := Option.ne_none_iff_exists'.1 hl
  apply entry_congr
  · rw [insert_reg, HdPeerRegistry.hdPeersInsert_known hi]
  · rw [insert_enrolled, if_neg hl]

theorem entry_insert_new (hl : hdPeersLookup s.reg key = none)
    (he : entry (s.insert key conn) key = some c) : c = conn := by
  obtain ⟨f, hf, rfl⟩ := Option.map_eq_some_iff.1 he
  rw [insert_reg] at hf
  rcases HdPeerRegistry.entryFd_insert_self hf with ⟨hknown, -⟩ | ⟨-, rfl⟩
  · exact absurd hl hknown
  · rw [insert_enrolled, if_pos hl, Function.update_self]

theorem entry_insert_takes {i : HdSlot} (ht : s.reg.Takes key i) (hfd : 0 ≤ conn.fd) :
    entry (s.insert key conn) key = some conn := by
  rw [entry, insert_reg, HdPeerRegistry.entryFd_insert_takes ht hfd, Option.map_some,
    insert_enrolled, if_pos ht.1, Function.update_self]

/-! ### Invariant -/

/-- `hand` is the connection that the running step has taken from its place. -/
structure Inv (hand : Hand) (s : State) : Prop where
  distinct : s.reg.KeysDistinct
  single : ∀ key conn, total s hand key conn ≤ 1
  opened : ∀ key conn, 0 < total s hand key conn → Open s key conn
  held : ∀ key conn, Open s key conn → 0 < total s hand key conn ∨ entry s key = some conn
  unique : ∀ key a b, Open s key a → Open s key b → a.serial = b.serial → a = b
  known : ∀ key conn, Open s key conn → 0 ≤ conn.fd ∧ conn.serial ≤ s.serial key
  enrolled : ∀ key conn, entry s key = some conn → conn.serial ≤ s.serial key
  tabled : ∀ key conn, s.peers key = some conn → validFd conn.fd
  newest : ∀ key old conn, entry s key = some old → s.peers key = some conn →
    old = conn ∨ old.serial < conn.serial ∧ ¬Open s key old
  own : ∀ c ∈ s.closes, c.hit = some (c.key, c.serial)
  once : (s.closes.map fun c => (c.key, c.serial)).Nodup
  ended : ∀ c ∈ s.closes, c.serial ≤ s.serial c.key ∧ ∀ fd, s.socks fd ≠ some (c.key, c.serial)

theorem Inv.closedOnce (h : Inv none s) : ClosedOnce s where
  own := h.own
  once := h.once
  removed key conn hheld hopen := by
    rcases h.held key conn hopen with hplace | hentry
    · rw [total_none] at hplace
      exact hheld (held_of_places hplace)
    · exact hheld (.inr (.inr (.inr hentry)))
  superseded key old new hold hnew hlt hopen := by
    rcases hold with hold | hold <;> rcases hnew with hnew | hnew
    · rw [hold, Option.some.injEq] at hnew
      rw [hnew] at hlt
      omega
    · rcases h.newest key old new hold hnew with rfl | ⟨-, hclosed⟩
      · omega
      · exact hclosed hopen
    · rcases h.newest key new old hnew hold with rfl | ⟨hlater, -⟩ <;> omega
    · rw [hold, Option.some.injEq] at hnew
      rw [hnew] at hlt
      omega

structure Moves (s s' : State) : Prop where
  reg : s'.reg = s.reg
  enrolled : s'.enrolled = s.enrolled
  socks : s'.socks = s.socks
  serial : s'.serial = s.serial
  closes : s'.closes = s.closes

variable {hand hand' : Hand}

theorem Moves.entry (hm : Moves s s') (key : Key) : entry s' key = entry s key :=
  entry_congr (by rw [hm.reg]) (by rw [hm.enrolled])

theorem Moves.open (hm : Moves s s') : Open s' key conn ↔ Open s key conn := by
  rw [Open, Open, hm.socks]

theorem Inv.move (h : Inv hand s) (hm : Moves s s')
    (htotal : ∀ key conn, total s' hand' key conn = total s hand key conn)
    (htabled : ∀ key conn, s'.peers key = some conn → s.peers key = some conn ∨
      validFd conn.fd ∧ ∀ old, Closes.entry s key = some old →
        old = conn ∨ old.serial < conn.serial ∧ ¬Open s key old) : Inv hand' s' where
  distinct := by
    rw [hm.reg]
    exact h.distinct
  single key conn := by
    rw [htotal]
    exact h.single key conn
  opened key conn hpos := by
    rw [htotal] at hpos
    exact hm.open.2 (h.opened key conn hpos)
  held key conn hopen := by
    rw [htotal, hm.entry]
    exact h.held key conn (hm.open.1 hopen)
  unique key a b ha hb := h.unique key a b (hm.open.1 ha) (hm.open.1 hb)
  known key conn hopen := by
    rw [hm.serial]
    exact h.known key conn (hm.open.1 hopen)
  enrolled key conn he := by
    rw [hm.entry] at he
    rw [hm.serial]
    exact h.enrolled key conn he
  tabled key conn hp := by
    rcases htabled key conn hp with hp | ⟨hvalid, -⟩
    · exact h.tabled key conn hp
    · exact hvalid
  newest key old conn he hp := by
    rw [hm.entry] at he
    rw [hm.open]
    rcases htabled key conn hp with hp | ⟨-, hnew⟩
    · exact h.newest key old conn he hp
    · exact hnew old he
  own := by
    rw [hm.closes]
    exact h.own
  once := by
    rw [hm.closes]
    exact h.once
  ended := by
    rw [hm.closes, hm.serial, hm.socks]
    exact h.ended

theorem Inv.pick (h : Inv none s) (hp : Parked s key conn) : Inv (some (key, conn)) s := by
  obtain ⟨hopen, hzero⟩ := hp
  have htotal : ∀ k c, (k = key ∧ c = conn) ∨ total s (some (key, conn)) k c = total s none k c := by
    intro k c
    by_cases heq : k = key ∧ c = conn
    · exact .inl heq
    · right
      rw [total_other heq, total_none]
  refine { h with single := ?_, opened := ?_, held := ?_ }
  · intro k c
    rcases htotal k c with ⟨rfl, rfl⟩ | heq
    · rw [total_hand, hzero]
    · rw [heq]
      exact h.single k c
  · intro k c hpos
    rcases htotal k c with ⟨rfl, rfl⟩ | heq
    · exact hopen
    · rw [heq] at hpos
      exact h.opened k c hpos
  · intro k c hc
    rcases htotal k c with ⟨rfl, rfl⟩ | heq
    · left
      rw [total_hand]
      omega
    · rw [heq]
      exact h.held k c hc

theorem Inv.park (h : Inv (some (key, conn)) s) (he : entry s key = some conn) : Inv none s := by
  have hle : ∀ k c, total s none k c ≤ total s (some (key, conn)) k c := by
    intro k c
    rw [total_none]
    exact Nat.le_add_right ..
  refine { h with single := ?_, opened := ?_, held := ?_ }
  · exact fun k c => (hle k c).trans (h.single k c)
  · exact fun k c hpos => h.opened k c (hpos.trans_le (hle k c))
  · intro k c hopen
    by_cases heq : k = key ∧ c = conn
    · obtain ⟨rfl, rfl⟩ := heq
      exact .inr he
    · have hheld := h.held k c hopen
      rw [total_other heq] at hheld
      rw [total_none]
      exact hheld

/-! ### Opening and closing -/

theorem open_close : Open (s.close key conn) k c ↔ c.fd ≠ conn.fd ∧ Open s k c := by
  unfold Open State.close
  by_cases hfd : c.fd = conn.fd
  · simp [hfd]
  · simp [hfd]

theorem open_connect :
    Open (s.connect key fd) k c ↔ (k = key ∧ c = ⟨fd, s.serial key + 1⟩) ∨
      (c.fd ≠ fd ∧ Open s k c) := by
  obtain ⟨cfd, serial⟩ := c
  unfold Open State.connect
  by_cases hfd : cfd = fd
  · subst hfd
    simp only [Function.update_self, Option.some.injEq, Prod.mk.injEq, Conn.mk.injEq]
    constructor
    · rintro ⟨rfl, rfl⟩
      exact .inl ⟨rfl, trivial, rfl⟩
    · rintro (⟨rfl, -, rfl⟩ | ⟨hne, -⟩)
      · trivial
      · exact absurd rfl hne
  · simp [hfd]

theorem Inv.close (h : Inv (some (key, conn)) s) : Inv none (s.close key conn) := by
  have hone : places s key conn = 0 := by
    have hsingle := h.single key conn
    rw [total_hand] at hsingle
    omega
  have hopen : Open s key conn := by
    apply h.opened
    rw [total_hand]
    omega
  have hsame : ∀ k c, Open s k c → c.fd = conn.fd → k = key ∧ c = conn := by
    intro k c hc hfd
    unfold Open at hc hopen
    rw [hfd, hopen, Option.some.injEq, Prod.mk.injEq] at hc
    refine ⟨hc.1.symm, ?_⟩
    cases c
    cases conn
    simp only [Conn.mk.injEq] at hfd hc ⊢
    exact ⟨hfd, hc.2.symm⟩
  have htotal : ∀ k c, total (s.close key conn) none k c = places s k c := total_none _
  constructor
  · exact h.distinct
  · intro k c
    have hsingle := h.single k c
    rw [total] at hsingle
    rw [htotal]
    omega
  · intro k c hpos
    rw [htotal] at hpos
    have hc : Open s k c := by
      apply h.opened
      rw [total]
      omega
    refine open_close.2 ⟨fun hfd => ?_, hc⟩
    obtain ⟨rfl, rfl⟩ := hsame k c hc hfd
    omega
  · intro k c hc
    obtain ⟨hne, hc⟩ := open_close.1 hc
    have hheld := h.held k c hc
    rw [total_other fun heq => hne (by rw [heq.2])] at hheld
    rw [htotal]
    exact hheld
  · intro k a b ha hb
    exact h.unique k a b (open_close.1 ha).2 (open_close.1 hb).2
  · exact fun k c hc => h.known k c (open_close.1 hc).2
  · exact h.enrolled
  · exact h.tabled
  · intro k old c he hp
    refine (h.newest k old c he hp).imp id fun hlater => ?_
    exact ⟨hlater.1, fun hc => hlater.2 (open_close.1 hc).2⟩
  · intro c hc
    rcases List.mem_append.1 hc with hc | hc
    · exact h.own c hc
    · rw [List.mem_singleton.1 hc]
      exact hopen
  · rw [State.close, List.map_append, List.nodup_append]
    refine ⟨h.once, List.nodup_singleton _, ?_⟩
    rintro _ hmem _ hlast rfl
    obtain ⟨c, hc, heq⟩ := List.mem_map.1 hmem
    rw [List.map_singleton, List.mem_singleton] at hlast
    have hgone := (h.ended c hc).2 conn.fd
    rw [heq, hlast] at hgone
    exact hgone hopen
  · intro c hc
    have hsocks : ∀ f, (s.close key conn).socks f = s.socks f ∨
        f = conn.fd ∧ (s.close key conn).socks f = none := by
      intro f
      by_cases hf : f = conn.fd
      · exact .inr ⟨hf, by simp [State.close, hf]⟩
      · exact .inl (by simp [State.close, hf])
    rcases List.mem_append.1 hc with hc | hc
    · refine ⟨(h.ended c hc).1, fun f => ?_⟩
      rcases hsocks f with heq | ⟨-, heq⟩
      · rw [heq]
        exact (h.ended c hc).2 f
      · rw [heq]
        nofun
    · rw [List.mem_singleton.1 hc]
      refine ⟨(h.known key conn hopen).2, fun f hf => ?_⟩
      have hother : Open (s.close key conn) key ⟨f, conn.serial⟩ := hf
      obtain ⟨hne, hold⟩ := open_close.1 hother
      exact hne (congrArg Conn.fd (h.unique key _ conn hold hopen rfl))

theorem Inv.connect (h : Inv none s) (hfd : 0 ≤ fd) (hfree : s.socks fd = none) :
    Inv (some (key, ⟨fd, s.serial key + 1⟩)) (s.connect key fd) := by
  have hold : ∀ k c, Open s k c → c.fd ≠ fd := by
    intro k c hc heq
    rw [Open, heq, hfree] at hc
    cases hc
  have hserial : ∀ k, s.serial k ≤ (s.connect key fd).serial k := by
    intro k
    by_cases hk : k = key
    · simp [State.connect, hk]
    · simp [State.connect, hk]
  have hplaces : ∀ k c, places (s.connect key fd) k c = total s none k c :=
    fun k c => (total_none s k c).symm
  have hnew : total s none key ⟨fd, s.serial key + 1⟩ = 0 := by
    by_contra hne
    have hopen := h.opened key _ (Nat.pos_of_ne_zero hne)
    exact absurd (h.known key _ hopen).2 (by simp)
  constructor
  · exact h.distinct
  · intro k c
    by_cases heq : k = key ∧ c = ⟨fd, s.serial key + 1⟩
    · obtain ⟨rfl, rfl⟩ := heq
      rw [total_hand, hplaces, hnew]
    · rw [total_other heq, hplaces]
      exact h.single k c
  · intro k c hpos
    by_cases heq : k = key ∧ c = ⟨fd, s.serial key + 1⟩
    · exact open_connect.2 (.inl heq)
    · rw [total_other heq, hplaces] at hpos
      have hopen := h.opened k c hpos
      exact open_connect.2 (.inr ⟨hold k c hopen, hopen⟩)
  · intro k c hc
    rcases open_connect.1 hc with ⟨rfl, rfl⟩ | ⟨hne, hc⟩
    · left
      rw [total_hand]
      omega
    · rw [total_other fun heq => hne (by rw [heq.2]), hplaces]
      exact h.held k c hc
  · intro k a b ha hb hab
    rcases open_connect.1 ha with ⟨rfl, rfl⟩ | ⟨-, ha⟩ <;>
      rcases open_connect.1 hb with ⟨hk, rfl⟩ | ⟨-, hb⟩
    · rfl
    · have hle := (h.known _ b hb).2
      rw [← hab] at hle
      exact absurd hle (by simp)
    · have hle := (h.known _ a ha).2
      rw [hab, hk] at hle
      exact absurd hle (by simp)
    · exact h.unique k a b ha hb hab
  · intro k c hc
    rcases open_connect.1 hc with ⟨rfl, rfl⟩ | ⟨-, hc⟩
    · simp [State.connect, hfd]
    · exact ⟨(h.known k c hc).1, (h.known k c hc).2.trans (hserial k)⟩
  · exact fun k c he => (h.enrolled k c he).trans (hserial k)
  · exact h.tabled
  · intro k old c he hp
    refine (h.newest k old c he hp).imp id fun hlater => ⟨hlater.1, fun hopen => ?_⟩
    rcases open_connect.1 hopen with ⟨rfl, rfl⟩ | ⟨-, hopen⟩
    · exact absurd (h.enrolled _ _ he) (by simp)
    · exact hlater.2 hopen
  · exact h.own
  · exact h.once
  · intro c hc
    obtain ⟨hle, hgone⟩ := h.ended c hc
    refine ⟨hle.trans (hserial _), fun f hf => ?_⟩
    have hopen : Open (s.connect key fd) c.key ⟨f, c.serial⟩ := hf
    rcases open_connect.1 hopen with ⟨hk, heq⟩ | ⟨-, hopen⟩
    · rw [Conn.mk.injEq] at heq
      rw [heq.2, hk] at hle
      exact absurd hle (by simp)
    · exact hgone f hopen

/-! ### The registry -/

theorem Inv.registry (h : Inv hand s) {enrolled : Key → ℕ} (hdistinct : reg.KeysDistinct)
    (hsub : ∀ k c, entry { s with reg := reg, enrolled := enrolled } k = some c →
      entry s k = some c ∨ 0 < total s hand k c ∧ s.peers k = none)
    (hkeep : ∀ k c, entry s k = some c → Open s k c → 0 < total s hand k c ∨
      entry { s with reg := reg, enrolled := enrolled } k = some c) :
    Inv hand { s with reg := reg, enrolled := enrolled } where
  distinct := hdistinct
  single := h.single
  opened := h.opened
  held k c hopen := by
    rcases h.held k c hopen with hplace | he
    · exact .inl hplace
    · exact hkeep k c he hopen
  unique := h.unique
  known := h.known
  enrolled k c he := by
    rcases hsub k c he with he | ⟨hplace, -⟩
    · exact h.enrolled k c he
    · exact (h.known k c (h.opened k c hplace)).2
  tabled := h.tabled
  newest k old c he hp := by
    rcases hsub k old he with he | ⟨-, hnone⟩
    · exact h.newest k old c he hp
    · have hsome : s.peers k = some c := hp
      rw [hnone] at hsome
      cases hsome
  own := h.own
  once := h.once
  ended := h.ended

theorem Inv.sets (h : Inv hand s) (hs : HdPeerRegistry.SetsState s.reg reg) :
    Inv hand { s with reg := reg } := by
  have hsame : ∀ k, entry { s with reg := reg } k = entry s k := fun k =>
    entry_congr (hs.entryFd k) rfl
  apply h.registry (hs.distinct h.distinct)
  · intro k c he
    rw [hsame] at he
    exact .inl he
  · intro k c he _
    rw [hsame]
    exact .inr he

theorem Inv.forget (h : Inv hand s) (hdistinct : reg.KeysDistinct) (hself : entryFd reg key = none)
    (hne : ∀ k, k ≠ key → entryFd reg k = entryFd s.reg k)
    (hgone : ∀ conn, entry s key = some conn → Open s key conn → 0 < total s hand key conn) :
    Inv hand { s with reg := reg } := by
  have hother : ∀ k, k ≠ key → entry { s with reg := reg } k = entry s k := fun k hk =>
    entry_congr (hne k hk) rfl
  have hnone : entry { s with reg := reg } key = none := by
    rw [entry, hself, Option.map_none]
  apply h.registry hdistinct
  · intro k c he
    by_cases hk : k = key
    · rw [hk, hnone] at he
      cases he
    · rw [hother k hk] at he
      exact .inl he
  · intro k c he hopen
    by_cases hk : k = key
    · subst hk
      exact .inl (hgone c he hopen)
    · rw [hother k hk]
      exact .inr he

theorem Inv.insert (h : Inv (some (key, conn)) s) (hok : EntryOk s key) :
    Inv (some (key, conn)) (s.insert key conn) := by
  have hsub : ∀ k c, entry (s.insert key conn) k = some c → entry s k = some c ∨
      0 < total s (some (key, conn)) k c ∧ s.peers k = none := by
    intro k c he
    by_cases hl : hdPeersLookup s.reg key = none
    · by_cases hk : k = key
      · subst hk
        right
        rw [entry_insert_new hl he, total_hand]
        exact ⟨Nat.succ_pos _, hok hl⟩
      · rw [entry_insert_ne hk] at he
        exact .inl he
    · rw [entry_insert_known hl] at he
      exact .inl he
  have hkeep : ∀ k c, entry s k = some c → entry (s.insert key conn) k = some c := by
    intro k c he
    by_cases hl : hdPeersLookup s.reg key = none
    · have hk : k ≠ key := by
        rintro rfl
        rw [entry, HdPeerRegistry.entryFd_none hl, Option.map_none] at he
        cases he
      rw [entry_insert_ne hk, he]
    · rw [entry_insert_known hl, he]
  rw [State.insert] at hsub hkeep ⊢
  apply h.registry (h.distinct.insert key conn.fd) hsub
  exact fun k c he _ => .inr (hkeep k c he)

/-! ### Steps -/

theorem Inv.start (h : Inv (some (key, conn)) s) (phase : Phase) :
    Inv none (s.start phase key conn) :=
  h.move ⟨rfl, rfl, rfl, rfl, rfl⟩ (total_start s phase key conn) fun _ _ hp => .inl hp

theorem Inv.take (h : Inv none s) {n : ℕ} {t : Task} (ht : s.tasks[n]? = some t) :
    Inv (some (t.key, t.conn)) { s with tasks := s.tasks.eraseIdx n } :=
  h.move ⟨rfl, rfl, rfl, rfl, rfl⟩ (total_erase ht) fun _ _ hp => .inl hp

theorem Inv.join (h : Inv (some (key, conn)) s) : Inv none (s.enqueue key (.addPeer conn) true) :=
  h.move ⟨rfl, rfl, rfl, rfl, rfl⟩ (total_join s key conn) fun _ _ hp => .inl hp

theorem Inv.evict (h : Inv hand s) (key : Key) (fits : Bool) :
    Inv hand (s.enqueue key .removePeer fits) := by
  cases fits with
  | false => exact h
  | true =>
    exact h.move ⟨rfl, rfl, rfl, rfl, rfl⟩ (total_evict s hand key true) fun _ _ hp => .inl hp

theorem Inv.approve (h : Inv hand s) (key : Key) : Inv hand (s.approve key) := by
  rw [State.approve]
  exact h.sets (HdPeerRegistry.sets_approve s.reg key)

theorem Inv.connected (h : Inv none s) {phase : Phase} (hs : connected s phase key fd = some s') :
    Inv none s' := by
  unfold Closes.connected at hs
  split at hs
  · next hfree =>
    rw [Option.some.injEq] at hs
    rw [← hs]
    exact (h.connect hfree.1 hfree.2).start phase
  · cases hs

theorem Inv.handled (h : Inv none s) {n : ℕ} {t : Task} (ht : s.tasks[n]? = some t)
    {outcome : Outcome} (hok : outcome = .hd → EnrolOk s t.key) :
    Inv none (State.handle { s with tasks := s.tasks.eraseIdx n } t outcome) := by
  have htake := h.take ht
  cases outcome with
  | refused => exact htake.close
  | derp => exact htake.start .joining
  | hd =>
    obtain ⟨hentry, hmanual⟩ := hok rfl
    have hins := htake.insert hentry
    rw [State.handle]
    by_cases hmode : s.reg.enrollMode = .kAutoApprove
    · rw [if_pos hmode]
      exact (hins.approve t.key).start .inserted
    · rw [if_neg hmode]
      obtain ⟨hl, hfree⟩ := hmanual hmode
      obtain ⟨i, hi⟩ := Option.ne_none_iff_exists'.1 hfree
      have hopen : Open s t.key t.conn := by
        apply h.opened
        rw [← total_erase ht, total_hand]
        exact Nat.succ_pos _
      apply hins.park
      exact entry_insert_takes ⟨hl, hi⟩ (h.known _ _ hopen).1

theorem Inv.proceed (h : Inv none s) {n : ℕ} {t : Task} (ht : s.tasks[n]? = some t) {ok : Bool}
    (hphase : t.phase ≠ .handling) (hok : TaskOk s ok t) :
    Inv none (State.proceed { s with tasks := s.tasks.eraseIdx n } t ok) := by
  have htake := h.take ht
  unfold TaskOk at hok
  unfold State.proceed
  cases hp : t.phase with
  | handling => exact absurd hp hphase
  | dialled =>
    rw [hp] at hok
    exact (htake.insert hok).start .joining
  | inserted =>
    cases ok with
    | true => exact htake.start .joining
    | false => exact htake.close
  | joining =>
    cases ok with
    | true => exact htake.join
    | false =>
      rw [hp] at hok
      exact htake.park (hok rfl)
  | evicting => exact (htake.evict t.key ok).start .closing
  | closing => exact htake.close

theorem Inv.onEntry (h : Inv none s) (phase : Phase)
    (hpark : ∀ conn, entry s key = some conn → Parked s key conn)
    (hreg : ∀ hand, Inv hand s → (∀ conn, entry s key = some conn → Open s key conn →
      0 < total s hand key conn) → Inv hand { s with reg := reg }) :
    Inv none (Closes.onEntry s key phase reg) := by
  unfold Closes.onEntry
  cases he : entry s key with
  | none =>
    apply hreg none h
    intro conn hconn
    rw [he] at hconn
    cases hconn
  | some conn =>
    refine (hreg _ (h.pick (hpark conn he)) fun c hc _ => ?_).start phase
    rw [he, Option.some.injEq] at hc
    rw [hc, total_hand]
    exact Nat.succ_pos _

theorem Inv.revoke (h : Inv none s)
    (hpark : ∀ conn, entry s key = some conn → Parked s key conn) :
    Inv none (Closes.onEntry s key .evicting (hdPeersRevoke s.reg key)) := by
  apply h.onEntry .evicting hpark
  intro hand h hgone
  apply h.forget (h.distinct.revoke key) _ _ hgone
  · exact HdPeerRegistry.entryFd_revoke_self h.distinct key
  · exact fun k hk => HdPeerRegistry.entryFd_revoke_ne hk

theorem Inv.removed (h : Inv none s)
    (hkept : ∀ conn, entry s key = some conn → ¬Parked s key conn) :
    Inv none { s with reg := hdPeersRemove s.reg key } := by
  apply h.forget (h.distinct.remove key)
  · exact HdPeerRegistry.entryFd_none (HdPeerRegistry.lookup_remove_self h.distinct key)
  · exact fun k hk => HdPeerRegistry.entryFd_remove_ne hk
  · intro conn he hopen
    rw [total_none]
    by_contra hzero
    exact hkept conn he ⟨hopen, by omega⟩

theorem Inv.added (h : Inv (some (key, conn)) s) {hit : Bool} (hok : AddOk s key conn hit) :
    Inv none (s.processCmd key hit (.addPeer conn)) := by
  unfold AddOk at hok
  rw [State.processCmd]
  split
  next hin =>
    rw [if_pos hin] at hok
    obtain ⟨hnone, hold⟩ := hok
    refine h.move ⟨rfl, rfl, rfl, rfl, rfl⟩ (total_put hnone conn) fun k c hp => ?_
    by_cases hk : k = key
    · subst hk
      simp only [Function.update_self, Option.some.injEq] at hp
      rw [← hp]
      exact .inr ⟨hin.1, hold⟩
    · simp only [Function.update_of_ne hk] at hp
      exact .inl hp
  next hin =>
    rw [if_neg hin] at hok
    exact h.park hok

theorem Inv.dropped (h : Inv none s) (key : Key) (hit : Bool) :
    Inv none (s.processCmd key hit .removePeer) := by
  rw [State.processCmd]
  cases hp : s.peers key with
  | none => exact h
  | some conn =>
    dsimp only
    rw [if_pos (h.tabled key conn hp)]
    have htaken : Inv (some (key, conn)) { s with peers := Function.update s.peers key none } := by
      refine h.move ⟨rfl, rfl, rfl, rfl, rfl⟩ (total_take hp) fun k c hk => .inl ?_
      by_cases hkey : k = key
      · subst hkey
        simp at hk
      · simpa [hkey] using hk
    exact htaken.close

theorem Inv.worked (h : Inv none s) {hit : Bool}
    (hok : ∀ conn, (s.cmds key).head? = some (.addPeer conn) → AddOk s key conn hit)
    (hs : work s key hit = some s') : Inv none s' := by
  unfold work at hs
  cases hcmds : s.cmds key with
  | nil =>
    rw [hcmds] at hs
    cases hs
  | cons cmd rest =>
    rw [hcmds] at hs
    dsimp only at hs
    rw [Option.some.injEq] at hs
    rw [← hs]
    have hpop : Inv (cmd.hand key) { s with cmds := Function.update s.cmds key rest } :=
      h.move ⟨rfl, rfl, rfl, rfl, rfl⟩ (total_pop hcmds) fun _ _ hp => .inl hp
    cases cmd with
    | addPeer conn =>
      apply hpop.added
      apply hok
      rw [hcmds, List.head?_cons]
    | removePeer => exact hpop.dropped key hit

theorem inv_init (h : Init s) : Inv none s := by
  have hlookup : ∀ key, hdPeersLookup s.reg key = none := fun key =>
    HdPeerRegistry.lookup_none.2 fun i hl => absurd hl (h.empty i)
  have hentry : ∀ key, entry s key = none := by
    intro key
    rw [entry, HdPeerRegistry.entryFd_none (hlookup key), Option.map_none]
  have hplaces : ∀ key conn, total s none key conn = 0 := by
    intro key conn
    simp [total, places, h.tasks, h.cmds, h.peers]
  have hclosed : ∀ key conn, ¬Open s key conn := by
    intro key conn hopen
    rw [Open, h.socks] at hopen
    cases hopen
  constructor
  · exact fun i _ hl _ _ => absurd hl (h.empty i)
  · intro key conn
    rw [hplaces]
    exact Nat.zero_le _
  · intro key conn hpos
    rw [hplaces] at hpos
    omega
  · exact fun key conn hopen => absurd hopen (hclosed key conn)
  · exact fun key a b ha _ _ => absurd ha (hclosed key a)
  · exact fun key conn hopen => absurd hopen (hclosed key conn)
  · intro key conn he
    rw [hentry] at he
    cases he
  · intro key conn hp
    rw [h.peers] at hp
    cases hp
  · intro key old conn he _
    rw [hentry] at he
    cases he
  · intro c hc
    rw [h.closes] at hc
    cases hc
  · rw [h.closes]
    exact List.nodup_nil
  · intro c hc
    rw [h.closes] at hc
    cases hc

theorem inv_step {l : Label} (h : Inv none s) (hok : StepOk s l) (hs : step s l = some s') :
    Inv none s' := by
  cases l with
  | accept key fd => exact h.connected hs
  | dial key fd => exact h.connected hs
  | handle n outcome =>
    obtain ⟨t, ht, hs⟩ := Option.bind_eq_some_iff.1 hs
    rw [Option.ite_none_right_eq_some, Option.some.injEq] at hs
    rw [← hs.2]
    exact h.handled ht (hok t ht)
  | advance n ok =>
    obtain ⟨t, ht, hs⟩ := Option.bind_eq_some_iff.1 hs
    rw [Option.ite_none_left_eq_some, Option.some.injEq] at hs
    rw [← hs.2]
    exact h.proceed ht hs.1 (hok t ht)
  | peerApprove key =>
    rw [step, Option.some.injEq] at hs
    rw [← hs]
    exact h.onEntry .joining hok fun _ h _ => h.sets (HdPeerRegistry.sets_approve s.reg key)
  | peerDeny key =>
    rw [step, Option.some.injEq] at hs
    rw [← hs]
    exact h.onEntry .closing hok fun _ h _ => h.sets (HdPeerRegistry.sets_deny s.reg key)
  | peerRevoke key =>
    rw [step, Option.some.injEq] at hs
    rw [← hs]
    split
    next => exact h
    next => exact h.revoke hok
  | bundleRevoke key =>
    rw [step, Option.some.injEq] at hs
    rw [← hs]
    exact h.revoke hok
  | ctlApprove key =>
    rw [step, Option.some.injEq] at hs
    rw [← hs]
    exact h.approve key
  | ctlDeny key =>
    rw [step, Option.some.injEq] at hs
    rw [← hs]
    exact h.sets (HdPeerRegistry.sets_deny s.reg key)
  | ctlRemove key =>
    rw [step, Option.some.injEq] at hs
    rw [← hs]
    exact h.removed hok
  | peerGone key fits =>
    rw [step, Option.some.injEq] at hs
    rw [← hs]
    exact h.evict key fits
  | work key hit => exact h.worked hok hs

/-- Each socket is closed once, by a call that was meant for it. -/
theorem closed_once (h : Runs.Reach Init step StepOk s) : ClosedOnce s :=
  (h.invariant (fun _ h0 => inv_init h0) fun _ _ _ hs hok hstep =>
    inv_step hs hok hstep).closedOnce

/-! ### Runs -/

instance (s : State) (key : Key) (conn : Conn) : Decidable (Open s key conn) :=
  inferInstanceAs (Decidable (_ = _))

instance (s : State) (key : Key) (conn : Conn) : Decidable (Parked s key conn) :=
  inferInstanceAs (Decidable (_ ∧ _))

instance (s : State) (key : Key) : Decidable (EntryOk s key) :=
  inferInstanceAs (Decidable (_ → _))

instance (s : State) (key : Key) : Decidable (EnrolOk s key) :=
  inferInstanceAs (Decidable (_ ∧ _))

instance (s : State) (ok : Bool) (t : Task) : Decidable (TaskOk s ok t) := by
  unfold TaskOk
  cases t.phase <;> infer_instance

instance (s : State) (key : Key) (conn : Conn) (hit : Bool) : Decidable (AddOk s key conn hit) :=
  if hin : validFd conn.fd ∧ hit then
    decidable_of_iff (s.peers key = none ∧ ∀ old ∈ entry s key,
      old = conn ∨ old.serial < conn.serial ∧ ¬Open s key old) (by rw [AddOk, if_pos hin]; rfl)
  else decidable_of_iff (entry s key = some conn) (by rw [AddOk, if_neg hin])

instance (s : State) (l : Label) : Decidable (StepOk s l) :=
  match l with
  | .handle n outcome =>
    inferInstanceAs (Decidable (∀ t ∈ s.tasks[n]?, outcome = .hd → EnrolOk s t.key))
  | .advance n ok => inferInstanceAs (Decidable (∀ t ∈ s.tasks[n]?, TaskOk s ok t))
  | .peerApprove key | .peerDeny key | .peerRevoke key | .bundleRevoke key =>
    inferInstanceAs (Decidable (∀ conn ∈ entry s key, Parked s key conn))
  | .ctlRemove key => inferInstanceAs (Decidable (∀ conn ∈ entry s key, ¬Parked s key conn))
  | .work key hit =>
    decidable_of_iff (∀ cmd ∈ (s.cmds key).head?, ∀ conn ∈ (cmd.hand key).map Prod.snd,
      AddOk s key conn hit) (by
        constructor
        · intro h conn hq
          exact h _ hq conn rfl
        · rintro h (conn | -) hq c hc
          · obtain rfl : conn = c := Option.some.inj hc
            exact h conn hq
          · cases hc)
  | .accept _ _ | .dial _ _ | .ctlApprove _ | .ctlDeny _ | .peerGone _ _ =>
    inferInstanceAs (Decidable True)

theorem init_empty : Init {} :=
  ⟨HdPeerRegistry.not_live_empty, fun _ => rfl, rfl, fun _ => rfl, fun _ => rfl, rfl⟩

def deniedAndReconnected : List Label :=
  [.accept (byteKey 1) 5, .handle 0 .hd, .peerDeny (byteKey 1), .advance 0 true,
    .accept (byteKey 2) 5, .handle 0 .derp, .advance 0 true, .work (byteKey 2) true,
    .accept (byteKey 2) 6, .peerGone (byteKey 2) true, .handle 0 .derp, .advance 0 true,
    .work (byteKey 2) true, .work (byteKey 2) true]

theorem closed_once_reconnected :
    ∃ s, s.closes = [⟨byteKey 1, 1, some (byteKey 1, 1)⟩, ⟨byteKey 2, 1, some (byteKey 2, 1)⟩] ∧
      s.peers (byteKey 2) = some ⟨6, 2⟩ ∧ ClosedOnce s := by
  have hrun : (Runs.run (Runs.guarded step StepOk) {} deniedAndReconnected).map
      (fun s => (s.closes, s.peers (byteKey 2))) =
      some ([⟨byteKey 1, 1, some (byteKey 1, 1)⟩, ⟨byteKey 2, 1, some (byteKey 2, 1)⟩],
        some ⟨6, 2⟩) := by
    decide +kernel
  obtain ⟨s, hs, hval⟩ := Option.map_eq_some_iff.1 hrun
  rw [Prod.mk.injEq] at hval
  exact ⟨s, hval.1, hval.2, closed_once (Runs.reach_of_guarded (.start _ init_empty) hs)⟩

def revokedTwiceClosed : List Label :=
  [.accept (byteKey 1) 5, .handle 0 .hd, .peerApprove (byteKey 1), .advance 0 true,
    .work (byteKey 1) true, .peerRevoke (byteKey 1), .advance 0 true, .work (byteKey 1) true,
    .accept (byteKey 2) 5, .advance 0 true]

/-- The admin thread's `close` ends the next client's connection. -/
theorem revoke_closes_twice : ¬∀ s, Runs.Reach Init step Runs.Any s → ClosedOnce s := by
  intro hall
  have hrun : (Runs.run step {} revokedTwiceClosed).map State.closes =
      some [⟨byteKey 1, 1, some (byteKey 1, 1)⟩, ⟨byteKey 1, 1, some (byteKey 2, 1)⟩] := by
    decide +kernel
  obtain ⟨s, hs, hcloses⟩ := Option.map_eq_some_iff.1 hrun
  have hown := (hall s (Runs.reach_of_run init_empty hs)).own ⟨byteKey 1, 1, some (byteKey 2, 1)⟩
    (by rw [hcloses]; exact List.mem_cons_of_mem _ (List.mem_singleton_self _))
  exact absurd hown (by decide)

end Closes

end HyperDerp
