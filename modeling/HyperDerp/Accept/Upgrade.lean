import HyperDerp.Accept.Handshake
import HyperDerp.Accept.Http

/-!
# Accepting a DERP client (`server.cc:199-231`, `:248-630`)

The request is read into a buffer of its own, from which nothing goes back to the
socket. Reads that are interrupted by a signal are repeated and left out.
-/

namespace HyperDerp

open Text (utf8)
open ByteStream (Source)

/-- The loop of `ReadHttpRequest`. -/
def readHttpLoop (buf stream : Bytes) (reads : List ℕ) : Option (HttpRequest × Source Byte) :=
  match reads with
  | [] => none
  | n :: reads =>
    if kMaxHttpRequestSize ≤ buf.length then none
    else if n = 0 ∨ stream = [] then none
    else
      let space := kMaxHttpRequestSize - buf.length
      let buf := buf ++ stream.take (min n space)
      let stream := stream.drop (min n space)
      match parseHttpRequest buf with
      | .ok (_, req) => some (req, ⟨stream, reads⟩)
      | .error e => if e.code = .badRequest then none else readHttpLoop buf stream reads

def readHttpRequest (sock : Source Byte) : Option (HttpRequest × Source Byte) :=
  readHttpLoop [] sock.stream sock.reads

/-- A chunk boundary falls on the end of the header, or nothing can be read over it. -/
def Boundary (head tail : Bytes) (reads : List ℕ) : Prop :=
  (∃ i, (reads.take i).sum = head.length) ∨ head.length = kMaxHttpRequestSize ∨ tail = []

theorem readHttpLoop_spec {head tail : Bytes} {req : HttpRequest} (h : IsHeader head req)
    (reads : List ℕ) (buf stream : Bytes) (hbytes : buf ++ stream = head ++ tail)
    (hlt : buf.length < head.length) (hprompt : Source.Prompt ⟨stream, reads⟩) :
    ∃ rest, readHttpLoop buf stream reads = some (req, rest) ∧ rest.Prompt ∧
      (rest.stream = tail ↔ (∃ i, buf.length + (reads.take i).sum = head.length) ∨
        head.length = kMaxHttpRequestSize ∨ tail = []) := by
  have hsize := h.size
  have hlen := congrArg List.length hbytes
  rw [List.length_append, List.length_append] at hlen
  have hstream : stream ≠ [] := by
    rintro rfl
    rw [List.length_nil] at hlen
    omega
  induction reads generalizing buf stream with
  | nil => exact absurd hprompt.stream_nil hstream
  | cons n reads ih =>
    have hn := hprompt.read_pos
    have hspace : kMaxHttpRequestSize - buf.length ≠ 0 := by omega
    have hnext := hprompt.later (Source.later_read reads hn hspace hstream)
    unfold readHttpLoop
    rw [if_neg (by omega), if_neg (by simp [hn, hstream])]
    dsimp only
    generalize hk : min n (kMaxHttpRequestSize - buf.length) = k at hnext ⊢
    have hbytes' : (buf ++ stream.take k) ++ stream.drop k = head ++ tail := by
      rw [List.append_assoc, List.take_append_drop, hbytes]
    have hbuf : (buf ++ stream.take k).length = buf.length + min k stream.length := by
      rw [List.length_append, List.length_take]
    by_cases hmore : buf.length + min k stream.length < head.length
    · -- the chunk ends inside the header
      have hkn : k = n ∧ min k stream.length = n := by omega
      obtain ⟨more, hhead, hdrop⟩ : ∃ more, head = (buf ++ stream.take k) ++ more ∧
          stream.drop k = more ++ tail := by
        rcases List.append_eq_append_iff.mp hbytes' with ⟨more, hhead, hdrop⟩ | ⟨extra, hextra, -⟩
        · exact ⟨more, hhead, hdrop⟩
        · have hle := congrArg List.length hextra
          rw [hbuf, List.length_append] at hle
          omega
      have hmorene : more ≠ [] := by
        rintro rfl
        rw [List.append_nil] at hhead
        rw [hhead, hbuf] at hmore
        omega
      rw [h.parse_partial hhead.symm hmorene]
      dsimp only
      rw [if_neg (by simp)]
      obtain ⟨rest, hrest, hrestPrompt, hiff⟩ := ih (buf ++ stream.take k) (stream.drop k) hbytes'
        (by rw [hbuf]; exact hmore) hnext
        (by simpa only [List.length_append] using congrArg List.length hbytes')
        (by rw [hdrop]; simp [hmorene])
      refine ⟨rest, hrest, hrestPrompt, hiff.trans ?_⟩
      have hsum : (∃ i, (buf ++ stream.take k).length + (reads.take i).sum = head.length) ↔
          ∃ i, buf.length + ((n :: reads).take i).sum = head.length := by
        rw [hbuf, hkn.2]
        constructor
        · rintro ⟨i, hi⟩
          exact ⟨i + 1, by rw [List.take_succ_cons, List.sum_cons]; omega⟩
        · rintro ⟨_ | i, hi⟩
          · simp only [List.take_zero, List.sum_nil] at hi
            omega
          · rw [List.take_succ_cons, List.sum_cons] at hi
            exact ⟨i, by omega⟩
      rw [hsum]
    · -- the header is there, with what the chunk brought behind it
      obtain ⟨extra, hextra, htail⟩ : ∃ extra, buf ++ stream.take k = head ++ extra ∧
          tail = extra ++ stream.drop k := by
        rcases List.append_eq_append_iff.mp hbytes' with ⟨more, hhead, hdrop⟩ | ⟨extra, hextra, htail⟩
        · have hle := congrArg List.length hhead
          rw [List.length_append, hbuf] at hle
          have hnil : more = [] := List.eq_nil_of_length_eq_zero (by omega)
          subst hnil
          rw [List.append_nil] at hhead
          rw [List.nil_append] at hdrop
          exact ⟨[], by rw [List.append_nil, hhead], by rw [List.nil_append, hdrop]⟩
        · exact ⟨extra, hextra, htail⟩
      have hextralen := congrArg List.length hextra
      rw [hbuf, List.length_append] at hextralen
      rw [hextra, h.parse_append (by rw [List.length_append]; omega)]
      refine ⟨_, rfl, hnext, ?_⟩
      have hexact : stream.drop k = tail ↔ buf.length + min k stream.length = head.length := by
        constructor
        · intro heq
          have htaillen := congrArg List.length htail
          rw [heq, List.length_append] at htaillen
          omega
        · intro heq
          have hnil : extra = [] := List.eq_nil_of_length_eq_zero (by omega)
          rw [htail, hnil, List.nil_append]
      rw [hexact]
      constructor
      · intro heq
        by_cases htailnil : tail = []
        · exact .inr (.inr htailnil)
        · have htailpos := List.length_pos_iff.mpr htailnil
          by_cases hfull : head.length = kMaxHttpRequestSize
          · exact .inr (.inl hfull)
          · exact .inl ⟨1, by rw [List.take_succ_cons, List.take_zero, List.sum_singleton]; omega⟩
      · rintro (⟨_ | i, hi⟩ | hfull | rfl)
        · simp only [List.take_zero, List.sum_nil] at hi
          omega
        · rw [List.take_succ_cons, List.sum_cons] at hi
          omega
        · omega
        · rw [List.length_nil] at hlen
          omega

/-- `WriteUpgradeResponse`; `keyToHex` is `KeyToHex` of the server's key. -/
def upgradeResponse (keyToHex : Key → Bytes) (keys : ServerKeys) : Bytes :=
  utf8 "HTTP/1.1 101 Switching Protocols\r\nUpgrade: DERP\r\nConnection: Upgrade\r\n" ++
    utf8 "Derp-Version: 2\r\nDerp-Public-Key: " ++ keyToHex keys.publicKey ++ utf8 "\r\n\r\n"

inductive Accepted where
  | closed
  /-- Another path, or no upgrade: an answer of another branch of `HandleConnection`. -/
  | other (req : HttpRequest)
  | refused (why : HandshakeFailure)
  /-- A peer for the data plane, with what is left on its socket. -/
  | peer (info : ClientInfo) (sock : Source Byte)

/-- `HandleConnection` for the path of the DERP upgrade. -/
def handleConnection (ext : AcceptExtern) (keyToHex : Key → Bytes) (keys : ServerKeys)
    (sock : Source Byte) : Accepted :=
  match readHttpRequest sock with
  | none => .closed
  | some (req, sock) =>
    if req.path ≠ utf8 "/derp" ∨ req.hasUpgrade = false then .other req
    else if req.fastStart = false ∧ ext.writeAll (upgradeResponse keyToHex keys) = false then
      .closed
    else
      match performHandshake ext keys sock with
      | .error e => .refused e
      | .ok (info, sock) => .peer info sock

def Accepted.seen : Accepted → Except (Option HandshakeFailure) (Option (ClientInfo × Bytes))
  | .closed => .error none
  | .other _ => .ok none
  | .refused why => .error (some why)
  | .peer info sock => .ok (some (info, sock.stream))

def separately (stream : Bytes) : Source Byte := ⟨stream, List.replicate stream.length 1⟩

theorem separately_prompt (stream : Bytes) : (separately stream).Prompt where
  enough := by simp [Source.Enough, Source.arrivals, separately, List.countP_replicate]
  timely := by simp [Source.timeouts, separately, List.countP_replicate]

/-- A request for the DERP upgrade and nothing behind it. -/
structure UpgradeRequest (head : Bytes) (req : HttpRequest) : Prop extends IsHeader head req where
  path : req.path = utf8 "/derp"
  upgrade : req.hasUpgrade = true

/-- The handshake sees exactly what follows the request, and the connection ends up as when
the bytes arrive one by one. -/
structure HandshakeSees (ext : AcceptExtern) (keyToHex : Key → Bytes) (keys : ServerKeys)
    (head tail : Bytes) (reads : List ℕ) : Prop where
  bytes : ∃ req sock, readHttpRequest ⟨head ++ tail, reads⟩ = some (req, sock) ∧
    sock.stream = tail
  alike : (handleConnection ext keyToHex keys ⟨head ++ tail, reads⟩).seen =
    (handleConnection ext keyToHex keys (separately (head ++ tail))).seen

theorem readHttpRequest_spec {head tail : Bytes} {req : HttpRequest} {reads : List ℕ}
    (h : IsHeader head req) (hprompt : Source.Prompt ⟨head ++ tail, reads⟩) :
    ∃ sock, readHttpRequest ⟨head ++ tail, reads⟩ = some (req, sock) ∧ sock.Prompt ∧
      (sock.stream = tail ↔ Boundary head tail reads) := by
  have hspec := readHttpLoop_spec h reads [] (head ++ tail) rfl h.pos hprompt
  simpa only [List.length_nil, Nat.zero_add, readHttpRequest, Boundary] using hspec

theorem boundary_separately (head tail : Bytes) :
    Boundary head tail (separately (head ++ tail)).reads := by
  refine .inl ⟨head.length, ?_⟩
  rw [separately, List.take_replicate, List.sum_replicate, List.length_append]
  simp

theorem handleConnection_seen {ext : AcceptExtern} {keyToHex : Key → Bytes} {keys : ServerKeys}
    {head tail : Bytes} {req : HttpRequest} {reads : List ℕ} (h : IsHeader head req)
    (hprompt : Source.Prompt ⟨head ++ tail, reads⟩) (hcut : Boundary head tail reads) :
    (handleConnection ext keyToHex keys ⟨head ++ tail, reads⟩).seen =
      (handleConnection ext keyToHex keys (separately (head ++ tail))).seen := by
  obtain ⟨s, hread, hs, hiff⟩ := readHttpRequest_spec h hprompt
  obtain ⟨s', hread', hs', hiff'⟩ := readHttpRequest_spec h (separately_prompt (head ++ tail))
  have hstream : s.stream = s'.stream :=
    (hiff.mpr hcut).trans (hiff'.mpr (boundary_separately head tail)).symm
  have hsame := performHandshake_congr ext keys hs hs' hstream
  unfold handleConnection
  rw [hread, show readHttpRequest (separately (head ++ tail)) = some (req, s') from hread']
  dsimp only
  split
  · rfl
  split
  · rfl
  rcases h1 : performHandshake ext keys s with e | ⟨info, rest⟩
  · rcases h2 : performHandshake ext keys s' with e' | ⟨info', rest'⟩
    · rw [h1, h2] at hsame
      cases hsame
      rfl
    · rw [h1, h2] at hsame
      cases hsame
  · rcases h2 : performHandshake ext keys s' with e' | ⟨info', rest'⟩
    · rw [h1, h2] at hsame
      cases hsame
    · rw [h1, h2] at hsame
      simp only [handshakeSeen, Except.map, Except.ok.injEq, Prod.mk.injEq] at hsame
      simp only [Accepted.seen, hsame]

/-- Bytes after the upgrade request reach the handshake just when a chunk ends with the
request. -/
theorem handshake_sees_iff (ext : AcceptExtern) (keyToHex : Key → Bytes) (keys : ServerKeys)
    {head tail : Bytes} {req : HttpRequest} {reads : List ℕ} (h : UpgradeRequest head req)
    (hprompt : Source.Prompt ⟨head ++ tail, reads⟩) :
    HandshakeSees ext keyToHex keys head tail reads ↔ Boundary head tail reads := by
  obtain ⟨s, hread, -, hiff⟩ := readHttpRequest_spec h.toIsHeader hprompt
  constructor
  · intro hsees
    obtain ⟨req', s', hread', htail⟩ := hsees.bytes
    rw [hread] at hread'
    cases hread'
    exact hiff.mp htail
  · intro hcut
    exact ⟨⟨req, s, hread, hiff.mpr hcut⟩, handleConnection_seen h.toIsHeader hprompt hcut⟩

def fastStartRequest : Bytes :=
  utf8 "GET /derp HTTP/1.1\r\nUpgrade: DERP\r\nConnection: Upgrade\r\nDerp-Fast-Start: 1\r\n\r\n"

theorem fastStartRequest_upgrade : UpgradeRequest fastStartRequest
    { method := utf8 "GET", path := utf8 "/derp", hasUpgrade := true, upgrade := utf8 "DERP"
      fastStart := true } where
  parsed := by decide
  path := rfl
  upgrade := rfl

/-- An environment in which every write and every box succeeds. -/
def openExtern : AcceptExtern where
  writeAll _ := true
  nonce := List.replicate kNonceSize 0
  boxEasy message _ _ _ := some (message ++ List.replicate kBoxOverhead 0)
  boxOpenEasy boxed _ _ _ := some (boxed.drop kBoxOverhead)

def clientInfoFrame : Bytes := writeFrameHeader .kClientInfo 72 ++ List.replicate 72 0

theorem handshake_sees_separate :
    HandshakeSees openExtern (·.data) {} fastStartRequest clientInfoFrame
      (fastStartRequest.length :: List.replicate 200 77) := by
  apply (handshake_sees_iff _ _ _ fastStartRequest_upgrade ?_).mpr
  · exact .inl ⟨1, by decide⟩
  · exact ⟨Nat.le_of_ble_eq_true (by decide +kernel), by decide +kernel⟩

/-- A ClientInfo frame in the same segment as the request is gone. -/
theorem not_handshake_sees_coalesced :
    ¬ ∀ (ext : AcceptExtern) (keyToHex : Key → Bytes) (keys : ServerKeys) (head tail : Bytes)
      (req : HttpRequest) (reads : List ℕ), UpgradeRequest head req →
      Source.Prompt ⟨head ++ tail, reads⟩ → HandshakeSees ext keyToHex keys head tail reads := by
  intro h
  have hsees := h openExtern (·.data) {} fastStartRequest clientInfoFrame _
    (List.replicate 200 4096) fastStartRequest_upgrade
    ⟨Nat.le_of_ble_eq_true (by decide +kernel), by decide +kernel⟩
  obtain ⟨req, sock, hread, htail⟩ := hsees.bytes
  have hgone : (readHttpRequest ⟨fastStartRequest ++ clientInfoFrame,
      List.replicate 200 4096⟩).map (·.2.stream) = some [] := by
    decide +kernel
  rw [hread, Option.map_some, Option.some.injEq, htail] at hgone
  exact absurd hgone (by decide)

end HyperDerp
