import HyperDerp.Accept.HttpText
import HyperDerp.Accept.Upgrade
import HyperDerp.Lib.Dialogue

/-!
# Client and server set up a connection (`client.cc:27-75`, `:205-358`, `server.cc:199-231`)

The client and the server of `Accept` as programs that write to one another. TCP brings what was
written in pieces of any size, the client may send packets right behind its handshake.
-/

namespace HyperDerp.DerpClient

open Text (utf8)
open Dialogue (Prog)

/-- `ClientError` (`client.h:21-44`). -/
inductive ClientError where
  | sodiumInitFailed
  | socketFailed
  | badAddress
  | connectFailed
  | ioFailed
  | upgradeFailed
  | unexpectedFrame
  | badPayloadLength
  | badMagic
  | encryptionFailed
  | bufferOverflow
  deriving DecidableEq

/-- `Error<ClientError>`. -/
structure Failure where
  code : ClientError
  message : String
  deriving DecidableEq

/-- The part of `DerpClient` that the handshake uses. -/
structure Client where
  publicKey : Key
  privateKey : Key
  serverKey : Key := zeroKey
  host : String
  port : ℕ
  deriving DecidableEq

/-- What becomes of a connection on the server; the bytes left on its socket are those of the
program's source. -/
inductive ServerEnd where
  | closed
  | other (req : HttpRequest)
  | refused (why : HandshakeFailure)
  | peer (info : ClientInfo)
  deriving DecidableEq

inductive Outcome where
  | client (result : Except Failure Unit) (c : Client)
  | server (result : ServerEnd)

abbrev Party := Prog Byte Outcome

/-! ### The client -/

def fail (c : Client) (code : ClientError) (message : String) : Party :=
  .done (.client (.error ⟨code, message⟩) c)

/-- A request of more than 255 bytes does not fit the buffer, and what stands behind it goes out;
the text is the one that `format` makes. -/
def upgradeRequest (c : Client) : Bytes :=
  utf8 "GET /derp HTTP/1.1\r\nHost: " ++ utf8 c.host ++ utf8 ":" ++ Text.decimal c.port ++
    utf8 "\r\nUpgrade: DERP\r\nConnection: Upgrade\r\n\r\n"

/-- `sizeof(buf) - 1` in `ClientUpgrade`. -/
def kResponseMax : ℕ := 1023

def responseLoop {R : Type} : ℕ → Bytes → (Option Bytes → Prog Byte R) → Prog Byte R
  | 0, resp, k => k (some resp)
  | n + 1, resp, k => .read 1 fun bs =>
    if bs = [] then k none
    else if (resp ++ bs).drop ((resp ++ bs).length - 4) = utf8 "\r\n\r\n" then k (some (resp ++ bs))
    else responseLoop n (resp ++ bs) k

def clientUpgrade (c : Client) (k : Party) : Party :=
  .write (upgradeRequest c) fun ok =>
    if ok = false then fail c .ioFailed "write upgrade request failed"
    else
      responseLoop kResponseMax [] fun
        | none => fail c .ioFailed "read upgrade response failed"
        | some resp =>
          if utf8 "101" <:+: resp then k else fail c .upgradeFailed "no 101 in response"

def clientInfoJson : Bytes := utf8 "\x7b\"version\":2,\"CanAckPings\":true\x7d"

def clientInfoFrame (pub : Key) (nonce ciphertext : Bytes) : Bytes :=
  writeFrameHeader .kClientInfo (kKeySize + kNonceSize + (clientInfoJson.length + kBoxOverhead)) ++
    (pub.data ++ nonce ++ ciphertext)

def onServerInfo (c : Client) : Option Bytes → Party
  | none => fail c .ioFailed "read ServerInfo payload failed"
  | some _ => .done (.client (.ok ()) c)

def readServerInfo (c : Client) : Party :=
  Dialogue.readAll kFrameHeaderSize fun
    | none => fail c .ioFailed "read ServerInfo header failed"
    | some hdr =>
      if readFrameType hdr ≠ .kServerInfo then
        fail c .unexpectedFrame "expected ServerInfo frame"
      else if 1024 < readPayloadLen hdr then
        fail c .badPayloadLength "ServerInfo payload too large"
      else Dialogue.readAll (readPayloadLen hdr) (onServerInfo c)

/-- `nonce` is what `randombytes_buf` has drawn. -/
def sendClientInfo (ext : AcceptExtern) (nonce : Bytes) (c : Client) : Party :=
  if 256 < clientInfoJson.length + kBoxOverhead then
    fail c .bufferOverflow "ClientInfo frame too large"
  else
    match ext.boxEasy clientInfoJson nonce c.serverKey c.privateKey with
    | none => fail c .encryptionFailed "crypto_box_easy failed"
    | some ciphertext =>
      .write (clientInfoFrame c.publicKey nonce ciphertext) fun ok =>
        if ok = false then fail c .ioFailed "write ClientInfo failed" else readServerInfo c

/-- `ToKey` of bytes that are there. -/
def keyAt (data : Bytes) : Key :=
  if h : kKeySize ≤ data.length then toKey data h else zeroKey

def onServerKey (ext : AcceptExtern) (nonce : Bytes) (c : Client) : Option Bytes → Party
  | none => fail c .ioFailed "read ServerKey payload failed"
  | some payload =>
    if payload.take kMagic.length ≠ kMagic then fail c .badMagic "ServerKey magic mismatch"
    else sendClientInfo ext nonce { c with serverKey := keyAt (payload.drop kMagic.length) }

def clientHandshake (ext : AcceptExtern) (nonce : Bytes) (c : Client) : Party :=
  Dialogue.readAll kFrameHeaderSize fun
    | none => fail c .ioFailed "read ServerKey header failed"
    | some hdr =>
      if readFrameType hdr ≠ .kServerKey then
        fail c .unexpectedFrame "expected ServerKey frame"
      else if readPayloadLen hdr ≠ kServerKeyPayloadSize then
        fail c .badPayloadLength "bad ServerKey payload length"
      else Dialogue.readAll (readPayloadLen hdr) (onServerKey ext nonce c)

/-- `ClientUpgrade`, then `ClientHandshake`. -/
def connect (ext : AcceptExtern) (nonce : Bytes) (c : Client) : Party :=
  clientUpgrade c (clientHandshake ext nonce c)

/-! ### The server -/

def finish (result : ServerEnd) : Party := .done (.server result)

/-- `ReadHttpRequest` with room for `n` bytes behind `buf`. -/
def readHttp {R : Type} : ℕ → Bytes → (Option HttpRequest → Prog Byte R) → Prog Byte R
  | 0, _, k => k none
  | n + 1, buf, k =>
    if kMaxHttpRequestSize ≤ buf.length then k none
    else .read (kMaxHttpRequestSize - buf.length) fun bs =>
      if bs = [] then k none
      else
        match parseHttpRequest (buf ++ bs) with
        | .ok (_, req) => k (some req)
        | .error e => if e.code = .badRequest then k none else readHttp n (buf ++ bs) k

def serveInfo (ext : AcceptExtern) (keys : ServerKeys) (info : ClientInfo) : Party :=
  match buildServerInfoFrame ext 256 keys info.publicKey with
  | .error e => finish (.refused e)
  | .ok frame => .write frame fun ok =>
    if ok = false then finish (.refused ⟨.ioFailed, "write ServerInfo failed"⟩)
    else finish (.peer info)

def onClientInfo (ext : AcceptExtern) (keys : ServerKeys) : Option Bytes → Party
  | none => finish (.refused ⟨.ioFailed, "read ClientInfo payload failed"⟩)
  | some payload =>
    match parseClientInfo ext payload keys with
    | .error e => finish (.refused e)
    | .ok info => serveInfo ext keys info

/-- `performHandshake` as a program. -/
def serveHandshake (ext : AcceptExtern) (keys : ServerKeys) : Party :=
  .write (buildServerKeyFrame keys) fun ok =>
    if ok = false then finish (.refused ⟨.ioFailed, "write ServerKey failed"⟩)
    else Dialogue.readAll kFrameHeaderSize fun
      | none => finish (.refused ⟨.ioFailed, "read ClientInfo header failed"⟩)
      | some hdr =>
        if readFrameType hdr ≠ .kClientInfo then
          finish (.refused ⟨.unexpectedFrame, "expected ClientInfo frame"⟩)
        else if readPayloadLen hdr < kMinClientInfoPayload then
          finish (.refused ⟨.badPayloadLength, "ClientInfo payload too short"⟩)
        else if kMaxClientInfoPayload < readPayloadLen hdr then
          finish (.refused ⟨.badPayloadLength, "ClientInfo payload too long"⟩)
        else Dialogue.readAll (readPayloadLen hdr) (onClientInfo ext keys)

/-- `handleConnection` as a program. -/
def serve (ext : AcceptExtern) (keyToHex : Key → Bytes) (keys : ServerKeys) : Party :=
  readHttp kMaxHttpRequestSize [] fun
    | none => finish .closed
    | some req =>
      if req.path ≠ utf8 "/derp" ∨ req.hasUpgrade = false then finish (.other req)
      else if req.fastStart = true then serveHandshake ext keys
      else
        .write (upgradeResponse keyToHex keys) fun ok =>
          if ok = false then finish .closed else serveHandshake ext keys

/-! ### The server alone is `handleConnection` -/

open ByteStream (Source)

def Ends (accepted : Accepted) (r : Outcome × Source Byte) : Prop :=
  match accepted with
  | .closed => r.1 = .server .closed
  | .other req => r.1 = .server (.other req)
  | .refused why => r.1 = .server (.refused why)
  | .peer info sock => r = (.server (.peer info), sock)

def handshakeEnd : Except HandshakeFailure (ClientInfo × Source Byte) → Accepted
  | .error e => .refused e
  | .ok (info, sock) => .peer info sock

variable {ext : AcceptExtern} {keyToHex : Key → Bytes} {keys : ServerKeys}

theorem serveHandshake_run (ext : AcceptExtern) (keys : ServerKeys) (sock : Source Byte) :
    Ends (handshakeEnd (performHandshake ext keys sock))
      ((serveHandshake ext keys).run ext.writeAll sock) := by
  unfold serveHandshake performHandshake
  rw [Prog.run]
  by_cases hkey : ext.writeAll (buildServerKeyFrame keys) = false
  · rw [if_pos hkey, if_pos hkey]
    rfl
  rw [if_neg hkey, if_neg hkey]
  split
  · next hnone =>
    obtain ⟨s', hrun⟩ := Dialogue.run_readAll_none _ hnone
    rw [hrun]
    rfl
  next hdr sock1 hread =>
  rw [Dialogue.run_readAll_some _ hread]
  dsimp only
  split
  · rfl
  split
  · rfl
  split
  · rfl
  split
  · next hnone =>
    obtain ⟨s', hrun⟩ := Dialogue.run_readAll_none _ hnone
    rw [hrun]
    rfl
  next payload sock2 hread2 =>
  rw [Dialogue.run_readAll_some _ hread2]
  dsimp only [onClientInfo]
  cases parseClientInfo ext payload keys with
  | error e => rfl
  | ok info =>
    dsimp only [serveInfo]
    cases buildServerInfoFrame ext 256 keys info.publicKey with
    | error e => rfl
    | ok frame =>
      dsimp only
      rw [Prog.run]
      by_cases hinfo : ext.writeAll frame = false
      · rw [if_pos hinfo, if_pos hinfo]
        rfl
      · rw [if_neg hinfo, if_neg hinfo]
        rfl

theorem readHttp_run {R : Type} (w : Bytes → Bool) {n : ℕ} {buf stream : Bytes} {reads : List ℕ}
    (k : Option HttpRequest → Prog Byte R) (hn : kMaxHttpRequestSize ≤ buf.length + n) :
    (∀ req s', readHttpLoop buf stream reads = some (req, s') →
      (readHttp n buf k).run w ⟨stream, reads⟩ = (k (some req)).run w s') ∧
    (readHttpLoop buf stream reads = none →
      ∃ s', (readHttp n buf k).run w ⟨stream, reads⟩ = (k none).run w s') := by
  induction n generalizing buf stream reads with
  | zero =>
    unfold readHttpLoop readHttp
    cases reads with
    | nil => exact ⟨(fun _ _ h => by cases h), fun _ => ⟨_, rfl⟩⟩
    | cons c reads =>
      dsimp only
      rw [if_pos (by omega)]
      exact ⟨(fun _ _ h => by cases h), fun _ => ⟨_, rfl⟩⟩
  | succ n ih =>
    unfold readHttpLoop readHttp
    by_cases hfull : kMaxHttpRequestSize ≤ buf.length
    · rw [if_pos hfull]
      cases reads with
      | nil => exact ⟨(fun _ _ h => by cases h), fun _ => ⟨_, rfl⟩⟩
      | cons c reads =>
        dsimp only
        rw [if_pos hfull]
        exact ⟨(fun _ _ h => by cases h), fun _ => ⟨_, rfl⟩⟩
    · rw [if_neg hfull]
      cases reads with
      | nil =>
        refine ⟨(fun _ _ h => by cases h), fun _ => ⟨⟨stream, []⟩, ?_⟩⟩
        rw [Prog.run]
        rfl
      | cons c reads =>
        dsimp only
        rw [if_neg hfull, Prog.run]
        dsimp only
        by_cases hfail : c = 0 ∨ stream = []
        · rw [if_pos hfail, if_pos (by simpa using hfail)]
          exact ⟨(fun _ _ h => by cases h), fun _ => ⟨⟨stream, reads⟩, rfl⟩⟩
        · have hne : stream.take (min c (kMaxHttpRequestSize - buf.length)) ≠ [] := by
            rw [Ne, List.take_eq_nil_iff]
            rintro (hzero | rfl)
            · rw [not_or] at hfail
              omega
            · exact hfail (.inr rfl)
          have hlen : 0 < (stream.take (min c (kMaxHttpRequestSize - buf.length))).length :=
            List.length_pos_iff.2 hne
          rw [if_neg hfail, if_neg (by simpa using hfail), if_neg hne]
          cases parseHttpRequest (buf ++
              stream.take (min c (kMaxHttpRequestSize - buf.length))) with
          | ok r =>
            refine ⟨fun req s' h => ?_, fun h => by cases h⟩
            cases h
            rfl
          | error e =>
            dsimp only
            by_cases hbad : e.code = .badRequest
            · rw [if_pos hbad, if_pos hbad]
              exact ⟨(fun _ _ h => by cases h), fun _ => ⟨_, rfl⟩⟩
            · rw [if_neg hbad, if_neg hbad]
              exact ih (by rw [List.length_append]; omega)

theorem serve_run (ext : AcceptExtern) (keyToHex : Key → Bytes) (keys : ServerKeys)
    (sock : Source Byte) : Ends (handleConnection ext keyToHex keys sock)
      ((serve ext keyToHex keys).run ext.writeAll sock) := by
  have hroom : kMaxHttpRequestSize ≤ ([] : Bytes).length + kMaxHttpRequestSize := by simp
  unfold handleConnection serve
  split
  · next hnone =>
    obtain ⟨s', hrun⟩ := (readHttp_run ext.writeAll _ hroom).2 hnone
    rw [hrun]
    rfl
  next req sock1 hread =>
  rw [(readHttp_run ext.writeAll _ hroom).1 _ _ hread]
  dsimp only
  by_cases hother : req.path ≠ utf8 "/derp" ∨ req.hasUpgrade = false
  · rw [if_pos hother, if_pos hother]
    rfl
  rw [if_neg hother, if_neg hother]
  have hhs := serveHandshake_run ext keys sock1
  cases hfast : req.fastStart with
  | true =>
    rw [if_neg (by simp), if_pos rfl]
    exact hhs
  | false =>
    by_cases hup : ext.writeAll (upgradeResponse keyToHex keys) = false
    · rw [if_pos ⟨rfl, hup⟩, if_neg (by simp), Prog.run, if_pos hup]
      rfl
    · rw [if_neg (by simp [hup]), if_neg (by simp), Prog.run, if_neg hup]
      exact hhs

/-! ### Each party by itself -/

section

open Dialogue (Takes takes_readAll)
open HttpLines (IsBlock blankLine textOf)

theorem takes_responseLoop {R : Type} {resp got msg : Bytes} {n : ℕ}
    (k : Option Bytes → Prog Byte R) (h : IsBlock resp) (hresp : got ++ msg = resp) (hne : msg ≠ [])
    (hn : msg.length ≤ n) :
    Takes False (responseLoop n got k) msg (k (some resp)) := by
  induction n generalizing got msg with
  | zero => exact absurd (List.eq_nil_of_length_eq_zero (Nat.le_zero.1 hn)) hne
  | succ n ih =>
    obtain ⟨x, msg, rfl⟩ := List.exists_cons_of_ne_nil hne
    unfold responseLoop
    refine .read hne Nat.one_pos (.inr (by simp)) fun c hc hspace _ => ?_
    obtain rfl : c = 1 := by omega
    rw [List.take_succ_cons, List.take_zero, if_neg (List.cons_ne_nil _ _), List.drop_succ_cons,
      List.drop_zero]
    have hwhole : (got ++ [x]) ++ msg = resp := by rw [← hresp, List.append_assoc]; rfl
    have hblank : utf8 "\r\n\r\n" = blankLine := rfl
    by_cases hlast : msg = []
    · subst hlast
      rw [List.append_nil] at hwhole
      obtain ⟨u, hu⟩ := h.ends
      rw [hwhole, if_pos]
      · exact .nil _
      · rw [hu, hblank, List.length_append, show blankLine.length = 4 from rfl,
          Nat.add_sub_cancel, List.drop_left]
    · rw [if_neg]
      · exact ih hwhole hlast (by simpa using hn)
      · intro hend
        have hsuffix : blankLine <:+ got ++ [x] := by
          rw [← hblank, ← hend]
          exact List.drop_suffix _ _
        have heq := h.eq_of_ends ⟨msg, hwhole⟩ hsuffix
        rw [← hwhole] at heq
        exact hlast (List.append_cancel_left (by rw [List.append_nil]; exact heq.symm))

theorem takes_readHttp {R : Type} {input got msg : Bytes} {req : HttpRequest} {n : ℕ}
    (k : Option HttpRequest → Prog Byte R) (h : IsHeader input req) (hinput : got ++ msg = input)
    (hne : msg ≠ []) (hn : kMaxHttpRequestSize ≤ got.length + n) :
    Takes True (readHttp n got k) msg (k (some req)) := by
  have hsize := h.size
  induction n generalizing got msg with
  | zero =>
    have hlen := congrArg List.length hinput
    have hpos := List.length_pos_iff.2 hne
    rw [List.length_append] at hlen
    omega
  | succ n ih =>
    have hlen := congrArg List.length hinput
    have hpos := List.length_pos_iff.2 hne
    rw [List.length_append] at hlen
    unfold readHttp
    rw [if_neg (by omega)]
    refine .read hne (by omega) (.inl trivial) fun c hc _ hle => ?_
    have htake : msg.take c ≠ [] := by
      rw [Ne, List.take_eq_nil_iff]
      rintro (rfl | rfl)
      · omega
      · exact hne rfl
    rw [if_neg htake]
    have hwhole : (got ++ msg.take c) ++ msg.drop c = input := by
      rw [List.append_assoc, List.take_append_drop, hinput]
    by_cases hlast : msg.drop c = []
    · rw [hlast, List.append_nil] at hwhole
      rw [hlast, hwhole, h.parsed]
      exact .nil _
    · rw [h.parse_partial hwhole hlast]
      have htakepos := List.length_pos_iff.2 htake
      exact ih hwhole hlast (by rw [List.length_append]; omega)

theorem takes_frame {type : FrameType} {payload : Bytes} {k : Option Bytes → Party}
    (k' : Option Bytes → Party) (hlen : payload.length < 2 ^ 32)
    (hk : ∀ hdr, readFrameType hdr = type → readPayloadLen hdr = payload.length →
      k (some hdr) = Dialogue.readAll payload.length k') :
    Takes False (Dialogue.readAll kFrameHeaderSize k) (writeFrameHeader type payload.length ++ payload)
      (k' (some payload)) := by
  have hread : readPayloadLen (writeFrameHeader type payload.length) = payload.length := by
    have happ := readPayloadLen_write type payload.length [] hlen
    rwa [List.append_nil] at happ
  refine (takes_readAll (length_writeFrameHeader ..) k).append ?_
  rw [hk _ rfl hread]
  exact takes_readAll rfl k'

/-! ### The texts -/

open HttpLines (crlf headerName readLines Words)

theorem ciStartsWith_cons {a b : Byte} (h : a ||| 0x20 ≠ b ||| 0x20) (line name : Bytes) :
    ciStartsWith (a :: line) (b :: name) = false := by
  simp [ciStartsWith, h]

theorem headerName_host (text : Bytes) : headerName (utf8 "Host: " ++ text) = none := by
  have hline : utf8 "Host: " ++ text = 0x48 :: (utf8 "ost: " ++ text) := rfl
  have hup : HttpLines.HeaderName.upgrade.text ++ [HttpLines.colon] = 0x75 :: utf8 "pgrade:" := by
    decide
  have hconn : HttpLines.HeaderName.connection.text ++ [HttpLines.colon] =
      0x63 :: utf8 "onnection:" := by decide
  have hfast : HttpLines.HeaderName.derpFastStart.text ++ [HttpLines.colon] =
      0x64 :: utf8 "erp-fast-start:" := by decide
  rw [headerName, hline, hup, hconn, hfast, ciStartsWith_cons (by decide),
    ciStartsWith_cons (by decide), ciStartsWith_cons (by decide)]
  rfl

/-- `ClientConnect` has taken the host for an IPv4 address. -/
structure Dialled (c : Client) : Prop where
  host : ∀ b ∈ utf8 c.host, Text.isDigit b = true ∨ b = 0x2e
  length : (utf8 c.host).length ≤ 15
  port : c.port < 65536

def hostText (c : Client) : Bytes := utf8 c.host ++ (utf8 ":" ++ Text.decimal c.port)

def requestLines (c : Client) : List Bytes :=
  [utf8 "GET /derp HTTP/1.1", utf8 "Host: " ++ hostText c, utf8 "Upgrade: DERP",
    utf8 "Connection: Upgrade"]

theorem upgradeRequest_eq (c : Client) : upgradeRequest c = textOf (requestLines c) := by
  have hfirst : utf8 "GET /derp HTTP/1.1\r\nHost: " =
      utf8 "GET /derp HTTP/1.1" ++ (crlf ++ utf8 "Host: ") := by decide
  have hlast : utf8 "\r\nUpgrade: DERP\r\nConnection: Upgrade\r\n\r\n" =
      crlf ++ textOf [utf8 "Upgrade: DERP", utf8 "Connection: Upgrade"] := by decide
  simp only [upgradeRequest, requestLines, HttpLines.textOf_cons, hostText, hfirst, hlast,
    List.append_assoc]

theorem hostText_spec {c : Client} (h : Dialled c) :
    (hostText c).length ≤ 21 ∧ 0x0d ∉ hostText c := by
  have hdigits : (Text.decimal c.port).length ≤ 5 := by
    unfold Text.decimal
    split
    · simp
    · rw [List.length_map, List.length_reverse]
      exact Nat.digits_length_le_iff (by omega) c.port |>.2 (by have := h.port; omega)
  constructor
  · have hcolon : (utf8 ":").length = 1 := by decide
    have hlen := h.length
    simp only [hostText, List.length_append]
    omega
  · simp only [hostText, List.mem_append, not_or]
    refine ⟨fun hb => ?_, by decide, fun hb => ?_⟩
    · rcases h.host _ hb with hdigit | hdot
      · cases hdigit
      · cases hdot
    · cases Text.isDigit_decimal _ hb

theorem requestLines_plain {c : Client} (h : Dialled c) :
    ∀ l ∈ requestLines c, l ≠ [] ∧ 0x0d ∉ l := by
  have hhost := (hostText_spec h).2
  simp only [requestLines, List.mem_cons, List.not_mem_nil, or_false]
  rintro l (rfl | rfl | rfl | rfl)
  · decide
  · refine ⟨fun hnil => ?_, ?_⟩
    · exact absurd (List.append_eq_nil_iff.1 hnil).1 (by decide)
    · rw [List.mem_append, not_or]
      exact ⟨by decide, hhost⟩
  · decide
  · decide

def derpRequest : HttpRequest where
  method := utf8 "GET"
  path := utf8 "/derp"
  hasUpgrade := true
  upgrade := utf8 "DERP"

theorem isHeader_upgradeRequest {c : Client} (h : Dialled c) :
    IsHeader (upgradeRequest c) derpRequest := by
  have hwords : Words (textOf (requestLines c)) (utf8 "GET") (utf8 "/derp")
      (utf8 "HTTP/1.1" ++ (crlf ++ textOf (requestLines c).tail)) := by
    refine ⟨?_, by decide, by decide⟩
    rw [requestLines, HttpLines.textOf_cons, List.tail_cons]
    rfl
  have hsize : (textOf (requestLines c)).length ≤ kMaxHttpRequestSize := by
    have hhost := (hostText_spec h).1
    have h1 : (utf8 "GET /derp HTTP/1.1").length = 18 := by decide
    have h2 : (utf8 "Host: ").length = 6 := by decide
    have h3 : (textOf [utf8 "Upgrade: DERP", utf8 "Connection: Upgrade"]).length = 38 := by decide
    simp only [requestLines, HttpLines.textOf_cons _ [utf8 "Upgrade: DERP", _],
      HttpLines.textOf_cons _ [_, utf8 "Upgrade: DERP", _], List.length_append, crlf,
      List.length_cons, List.length_nil, h1, h2, h3, kMaxHttpRequestSize]
    omega
  have hheader := HttpLines.isHeader_textOf hwords (requestLines_plain h) hsize
  have hread : readLines { method := utf8 "GET", path := utf8 "/derp" }
      ([utf8 "Host: " ++ hostText c, utf8 "Upgrade: DERP", utf8 "Connection: Upgrade"] ++ [[]]) =
      derpRequest := by
    have hhost : ∀ r line, HttpLines.readHeader r line none = r := fun _ _ => rfl
    simp only [readLines, List.cons_append, List.nil_append, List.foldl_cons, headerName_host, hhost]
    decide
  rw [hread] at hheader
  rw [upgradeRequest_eq]
  exact hheader

def responseLines (hex : Bytes) : List Bytes :=
  [utf8 "HTTP/1.1 101 Switching Protocols", utf8 "Upgrade: DERP", utf8 "Connection: Upgrade",
    utf8 "Derp-Version: 2", utf8 "Derp-Public-Key: " ++ hex]

theorem upgradeResponse_eq (keyToHex : Key → Bytes) (keys : ServerKeys) :
    upgradeResponse keyToHex keys = textOf (responseLines (keyToHex keys.publicKey)) := by
  have hblank : utf8 "\r\n\r\n" = crlf ++ textOf [] := rfl
  have hhead : utf8 "HTTP/1.1 101 Switching Protocols\r\nUpgrade: DERP\r\nConnection: Upgrade\r\n" ++
      utf8 "Derp-Version: 2\r\nDerp-Public-Key: " =
      utf8 "HTTP/1.1 101 Switching Protocols" ++ (crlf ++ (utf8 "Upgrade: DERP" ++ (crlf ++
        (utf8 "Connection: Upgrade" ++ (crlf ++ (utf8 "Derp-Version: 2" ++ (crlf ++
          utf8 "Derp-Public-Key: "))))))) := by decide
  simp only [upgradeResponse, responseLines, hhead, hblank, HttpLines.textOf_cons,
    List.append_assoc]

/-- What the code relies on in `sodium_bin2hex`. -/
structure Hex (text : Bytes) : Prop where
  length : text.length ≤ 2 * kKeySize
  plain : 0x0d ∉ text

theorem isBlock_upgradeResponse (h : Hex (keyToHex keys.publicKey)) :
    IsBlock (upgradeResponse keyToHex keys) := by
  rw [upgradeResponse_eq]
  refine HttpLines.isBlock_textOf (List.cons_ne_nil _ _) ?_
  simp only [responseLines, List.mem_cons, List.not_mem_nil, or_false]
  rintro l (rfl | rfl | rfl | rfl | rfl)
  · decide
  · decide
  · decide
  · decide
  · refine ⟨fun hnil => ?_, ?_⟩
    · exact absurd (List.append_eq_nil_iff.1 hnil).1 (by decide)
    · rw [List.mem_append, not_or]
      exact ⟨by decide, h.plain⟩

theorem upgradeResponse_length (h : Hex (keyToHex keys.publicKey)) :
    (upgradeResponse keyToHex keys).length ≤ kResponseMax := by
  have h1 : (utf8 "HTTP/1.1 101 Switching Protocols\r\nUpgrade: DERP\r\nConnection: Upgrade\r\n").length = 70 := by decide
  have h2 : (utf8 "Derp-Version: 2\r\nDerp-Public-Key: ").length = 34 := by decide
  have h3 : (utf8 "\r\n\r\n").length = 4 := by decide
  have hhex := h.length
  simp only [upgradeResponse, List.length_append, h1, h2, h3, kResponseMax, kKeySize] at hhex ⊢
  omega

theorem upgradeResponse_switching (keyToHex : Key → Bytes) (keys : ServerKeys) :
    utf8 "101" <:+: upgradeResponse keyToHex keys := by
  rw [upgradeResponse_eq, responseLines, HttpLines.textOf_cons]
  have hline : utf8 "101" <:+: utf8 "HTTP/1.1 101 Switching Protocols" := by decide
  exact hline.trans (List.prefix_append _ _).isInfix

/-! ### Both together -/

open Dialogue (keeps_own keeps_other Net)

/-- What the owner of the first key pair seals for the owner of the second is opened by it. -/
structure Sealed (ext : AcceptExtern) (message nonce : Bytes) (pub priv pub' priv' : Key)
    (ciphertext : Bytes) : Prop where
  sealed : ext.boxEasy message nonce pub' priv = some ciphertext
  length : ciphertext.length = message.length + kBoxOverhead
  opened : ext.boxOpenEasy ciphertext nonce pub priv' = some message

def serverInfoFrame (nonce ciphertext : Bytes) : Bytes :=
  writeFrameHeader .kServerInfo (nonce ++ ciphertext).length ++ (nonce ++ ciphertext)

/-- The messages in order, those of the client marked `true`. -/
def script (keyToHex : Key → Bytes) (keys : ServerKeys) (c : Client)
    (clientInfo serverInfo : Bytes) : Dialogue.Script Byte :=
  [(true, upgradeRequest c), (false, upgradeResponse keyToHex keys),
    (false, buildServerKeyFrame keys), (true, clientInfo), (false, serverInfo)]

/-- What each party ends with: the client knows the server's key and the server the client's. -/
def agreed (keys : ServerKeys) (c : Client) : Bool → Outcome
  | true => .client (.ok ()) { c with serverKey := keys.publicKey }
  | false => .server (.peer { publicKey := c.publicKey, version := 2, canAckPings := true })

variable {nonce ciphertext ciphertext' : Bytes} {c : Client}

theorem clientInfoFrame_eq (hnonce : nonce.length = kNonceSize)
    (hlen : ciphertext.length = clientInfoJson.length + kBoxOverhead) :
    clientInfoFrame c.publicKey nonce ciphertext =
      writeFrameHeader .kClientInfo (c.publicKey.data ++ nonce ++ ciphertext).length ++
        (c.publicKey.data ++ nonce ++ ciphertext) := by
  rw [clientInfoFrame, List.length_append, List.length_append, c.publicKey.size, hnonce, hlen]

theorem serverKeyFrame_eq (keys : ServerKeys) : buildServerKeyFrame keys =
    writeFrameHeader .kServerKey (kMagic ++ keys.publicKey.data).length ++
      (kMagic ++ keys.publicKey.data) := by
  rw [buildServerKeyFrame, List.length_append, keys.publicKey.size, List.append_assoc]
  rfl

theorem connect_keeps (hhex : Hex (keyToHex keys.publicKey))
    (hinfo : ext.boxEasy clientInfoJson nonce keys.publicKey c.privateKey = some ciphertext)
    (hlen : (ext.nonce ++ ciphertext').length ≤ 1024) :
    Dialogue.Keeps true (agreed keys c true) (connect ext nonce c)
      (script keyToHex keys c (clientInfoFrame c.publicKey nonce ciphertext)
        (serverInfoFrame ext.nonce ciphertext')) := by
  have hkey : keyAt ((kMagic ++ keys.publicKey.data).drop kMagic.length) = keys.publicKey := by
    rw [List.drop_left, keyAt, dif_pos (Nat.le_of_eq keys.publicKey.size.symm)]
    exact Key.ext_data (List.take_of_length_le (Nat.le_of_eq keys.publicKey.size))
  have hkeySize : (kMagic ++ keys.publicKey.data).length = kServerKeyPayloadSize := by
    rw [List.length_append, keys.publicKey.size]
    rfl
  -- the request and the response
  refine keeps_own.2 ⟨_, rfl, ?_⟩
  rw [if_neg (by simp)]
  have hresp := isBlock_upgradeResponse hhex
  have hne : upgradeResponse keyToHex keys ≠ [] := by
    obtain ⟨u, hu⟩ := hresp.ends
    rw [hu]
    exact List.append_ne_nil_of_right_ne_nil _ (by decide)
  refine keeps_other.2 ⟨_, (takes_responseLoop _ hresp (List.nil_append _) hne
    (upgradeResponse_length hhex)).mono False.elim, ?_⟩
  dsimp only
  rw [if_pos (upgradeResponse_switching keyToHex keys), serverKeyFrame_eq]
  -- the server's key
  refine keeps_other.2 ⟨_, (takes_frame (onServerKey ext nonce c) (by rw [hkeySize]; decide)
    fun hdr htype hplen => ?_).mono False.elim, ?_⟩
  · dsimp only
    rw [if_neg (not_not.2 htype), if_neg (not_not.2 (hplen.trans hkeySize)), hplen]
  dsimp only [onServerKey]
  rw [List.take_left, if_neg (not_not.2 rfl), hkey]
  unfold sendClientInfo
  rw [if_neg (by decide), hinfo]
  -- what the client says and what the server says of itself
  refine keeps_own.2 ⟨_, rfl, ?_⟩
  rw [if_neg (by simp)]
  refine keeps_other.2 ⟨_, (takes_frame (onServerInfo _) (by omega)
    fun hdr htype hplen => ?_).mono False.elim, rfl⟩
  dsimp only
  rw [if_neg (not_not.2 htype), if_neg (by omega), hplen]

theorem parseClientInfo_sealed (hnonce : nonce.length = kNonceSize)
    (hinfo : Sealed ext clientInfoJson nonce c.publicKey c.privateKey keys.publicKey
      keys.privateKey ciphertext) :
    parseClientInfo ext (c.publicKey.data ++ nonce ++ ciphertext) keys =
      .ok { publicKey := c.publicKey, version := 2, canAckPings := true } := by
  have hjson : clientInfoJson.length = 32 := by decide
  have hct := hinfo.length
  have hpub := c.publicKey.size
  have hlen : (c.publicKey.data ++ nonce ++ ciphertext).length = 104 := by
    rw [List.length_append, List.length_append, hpub, hnonce, hct, hjson]
    rfl
  have hdrop : (c.publicKey.data ++ nonce ++ ciphertext).drop kKeySize = nonce ++ ciphertext := by
    rw [List.append_assoc]
    exact List.drop_left' hpub
  have hkey : ∀ h, toKey (c.publicKey.data ++ nonce ++ ciphertext) h = c.publicKey := by
    intro h
    refine Key.ext_data ?_
    change (c.publicKey.data ++ nonce ++ ciphertext).take kKeySize = _
    rw [List.append_assoc]
    exact List.take_left' hpub
  have hver : jsonInt clientInfoJson (utf8 "\"version\"") = 2 := by decide
  have hack : jsonBool clientInfoJson (utf8 "\"CanAckPings\"") = true := by decide
  have hprober : jsonBool clientInfoJson (utf8 "\"IsProber\"") = false := by decide
  unfold parseClientInfo
  rw [dif_neg (by rw [hlen]; decide), if_neg (by rw [hlen]; decide)]
  simp only [hdrop, hkey]
  rw [if_neg, List.drop_left' hnonce, List.take_left' hnonce, hinfo.opened]
  · simp only [hver, hack, hprober]
    rfl
  · rw [List.length_append, hnonce, hct, hjson]
    decide

theorem buildServerInfoFrame_sealed (hnonce : ext.nonce.length = kNonceSize)
    (hserver : Sealed ext serverInfoJson ext.nonce keys.publicKey keys.privateKey c.publicKey
      c.privateKey ciphertext') :
    buildServerInfoFrame ext 256 keys c.publicKey =
      .ok (serverInfoFrame ext.nonce ciphertext') := by
  unfold buildServerInfoFrame
  dsimp only
  rw [if_neg (by decide), hserver.sealed]
  dsimp only
  rw [serverInfoFrame, List.length_append, hnonce, hserver.length, List.append_assoc,
    Nat.add_assoc]

theorem serve_keeps (hc : Dialled c) (hnonce : nonce.length = kNonceSize)
    (hnonce' : ext.nonce.length = kNonceSize)
    (hinfo : Sealed ext clientInfoJson nonce c.publicKey c.privateKey keys.publicKey
      keys.privateKey ciphertext)
    (hserver : Sealed ext serverInfoJson ext.nonce keys.publicKey keys.privateKey c.publicKey
      c.privateKey ciphertext') :
    Dialogue.Keeps false (agreed keys c false) (serve ext keyToHex keys)
      (script keyToHex keys c (clientInfoFrame c.publicKey nonce ciphertext)
        (serverInfoFrame ext.nonce ciphertext')) := by
  have hjson : clientInfoJson.length = 32 := by decide
  have hsize : (c.publicKey.data ++ nonce ++ ciphertext).length = 104 := by
    rw [List.length_append, List.length_append, c.publicKey.size, hnonce, hinfo.length, hjson]
    rfl
  have hrequest := isHeader_upgradeRequest hc
  -- the request; what follows it is the server's own answer
  refine keeps_other.2 ⟨_, (takes_readHttp _ hrequest (List.nil_append _)
    (List.ne_nil_of_length_pos hrequest.pos) (by simp)).mono fun _ => rfl, ?_⟩
  dsimp only
  rw [if_neg (by decide), if_neg (by decide)]
  refine keeps_own.2 ⟨_, rfl, ?_⟩
  rw [if_neg (by simp)]
  refine keeps_own.2 ⟨_, rfl, ?_⟩
  rw [if_neg (by simp), clientInfoFrame_eq hnonce hinfo.length]
  refine keeps_other.2 ⟨_, (takes_frame (onClientInfo ext keys) (by rw [hsize]; decide)
    fun hdr htype hplen => ?_).mono False.elim, ?_⟩
  · rw [hsize] at hplen
    dsimp only
    rw [if_neg (not_not.2 htype), hplen, if_neg (by decide), if_neg (by decide), hsize]
  dsimp only [onClientInfo]
  rw [parseClientInfo_sealed hnonce hinfo]
  dsimp only [serveInfo]
  rw [buildServerInfoFrame_sealed hnonce' hserver]
  refine keeps_own.2 ⟨_, rfl, ?_⟩
  rw [if_neg (by simp)]
  rfl

def parties (ext : AcceptExtern) (keyToHex : Key → Bytes) (keys : ServerKeys) (nonce : Bytes)
    (c : Client) : Net Byte Outcome where
  prog
    | true => connect ext nonce c
    | false => serve ext keyToHex keys

/-- Whatever the interleaving and however TCP cuts what they write: neither party gets stuck, a
party that is done has what the other one has told it, and the bytes then in flight are those
written behind the handshake, none more and none fewer. -/
theorem handshake_agrees (hc : Dialled c) (hhex : Hex (keyToHex keys.publicKey))
    (hnonce : nonce.length = kNonceSize) (hnonce' : ext.nonce.length = kNonceSize)
    (hinfo : Sealed ext clientInfoJson nonce c.publicKey c.privateKey keys.publicKey
      keys.privateKey ciphertext)
    (hserver : Sealed ext serverInfoJson ext.nonce keys.publicKey keys.privateKey c.publicKey
      c.privateKey ciphertext') {s : Net Byte Outcome}
    (h : Runs.Reach (fun s => s = parties ext keyToHex keys nonce c) Dialogue.step Runs.Any s) :
    Dialogue.Agrees (agreed keys c) s := by
  have hlen : (ext.nonce ++ ciphertext').length ≤ 1024 := by
    have hjson : serverInfoJson.length = 13 := by decide
    rw [List.length_append, hnonce', hserver.length, hjson]
    decide
  have hkeeps : ∀ b, Dialogue.Keeps b (agreed keys c b) ((parties ext keyToHex keys nonce c).prog b)
      (script keyToHex keys c (clientInfoFrame c.publicKey nonce ciphertext)
        (serverInfoFrame ext.nonce ciphertext')) := by
    intro b
    cases b with
    | true => exact connect_keeps hhex hinfo.sealed hlen
    | false => exact serve_keeps hc hnonce hnonce' hinfo hserver
  have hproper : (script keyToHex keys c (clientInfoFrame c.publicKey nonce ciphertext)
      (serverInfoFrame ext.nonce ciphertext')).Proper := by
    have hne : ∀ type n (rest : Bytes), writeFrameHeader type n ++ rest ≠ [] :=
      fun _ _ _ => List.cons_ne_nil _ _
    have hrequest := (isHeader_upgradeRequest hc).pos
    obtain ⟨u, hu⟩ := (isBlock_upgradeResponse hhex).ends
    simp only [script, Dialogue.Script.Proper, List.forall_mem_cons]
    refine ⟨List.ne_nil_of_length_pos hrequest, ?_, ?_, hne _ _ _, hne _ _ _, nofun⟩
    · rw [hu]
      exact List.append_ne_nil_of_right_ne_nil _ (by decide)
    · rw [serverKeyFrame_eq]
      exact hne _ _ _
  have hinit := Dialogue.Init.mk hkeeps hproper (fun _ => rfl) fun _ => rfl
  exact Dialogue.agrees (fun s hs => hs ▸ hinit) h

/-! ### Two key pairs -/

/-- The client's key pair is that of the private key 1, 2, .., 32. -/
def aClient : Client where
  publicKey := ⟨[7, 163, 124, 188, 20, 32, 147, 200, 183, 85, 220, 27, 16, 232, 108, 180, 38,
                 55, 74, 209, 106, 168, 83, 237, 11, 223, 192, 178, 184, 109, 28, 124], rfl⟩
  privateKey := ⟨[1, 2, 3, 4, 5, 6, 7, 8, 9, 10, 11, 12, 13, 14, 15, 16, 17, 18, 19, 20, 21,
                  22, 23, 24, 25, 26, 27, 28, 29, 30, 31, 32], rfl⟩
  host := "10.0.0.1"
  port := 3340

def serverPair : ServerKeys where
  publicKey := ⟨[88, 105, 175, 244, 80, 84, 151, 50, 203, 170, 237, 94, 93, 249, 179, 10,
                 109, 163, 28, 176, 229, 116, 43, 173, 90, 212, 161, 167, 104, 241, 166, 123], rfl⟩
  privateKey := ⟨[33, 34, 35, 36, 37, 38, 39, 40, 41, 42, 43, 44, 45, 46, 47, 48, 49, 50, 51,
                  52, 53, 54, 55, 56, 57, 58, 59, 60, 61, 62, 63, 64], rfl⟩

/-- `clientInfoJson` in the client's box for the server under the nonce 1, 1, ... -/
def clientInfoBox : Bytes :=
  [206, 240, 48, 57, 173, 222, 224, 192, 228, 121, 108, 214, 25, 123, 148, 72, 165, 42, 177,
    229, 5, 199, 213, 70, 40, 157, 153, 113, 216, 80, 98, 42, 159, 102, 131, 170, 255, 246,
    230, 67, 134, 189, 213, 92, 108, 38, 114, 239]

/-- `serverInfoJson` in the server's box for the client under the nonce 0, 0, ... -/
def serverInfoBox : Bytes :=
  [202, 223, 21, 80, 210, 231, 89, 145, 71, 8, 174, 244, 172, 104, 76, 230, 152, 128, 17,
    232, 41, 79, 2, 198, 172, 126, 13, 74, 63]

def onesNonce : Bytes := List.replicate kNonceSize 1

def twoBoxes : AcceptExtern where
  writeAll _ := true
  nonce := List.replicate kNonceSize 0
  boxEasy message nonce pub priv :=
    if message = clientInfoJson ∧ nonce = onesNonce ∧ pub = serverPair.publicKey ∧
        priv = aClient.privateKey then some clientInfoBox
    else if message = serverInfoJson ∧ nonce = List.replicate kNonceSize 0 ∧
        pub = aClient.publicKey ∧ priv = serverPair.privateKey then some serverInfoBox
    else none
  boxOpenEasy boxed nonce pub priv :=
    if boxed = clientInfoBox ∧ nonce = onesNonce ∧ pub = aClient.publicKey ∧
        priv = serverPair.privateKey then some clientInfoJson
    else if boxed = serverInfoBox ∧ nonce = List.replicate kNonceSize 0 ∧
        pub = serverPair.publicKey ∧ priv = aClient.privateKey then some serverInfoJson
    else none

def toHex (key : Key) : Bytes :=
  let digit (n : Byte) : Byte := if n < 10 then 0x30 + n else 0x57 + n
  key.data.flatMap fun b => [digit (b / 16), digit (b % 16)]

/-- The request comes in two pieces; the ServerKey frame follows the response at once. -/
def handshakeRun : List (Dialogue.Label Byte) :=
  [.write true, .read false 30, .read false 49, .write false, .write false, .read true 1]

theorem handshake_under_way : ∃ s,
    Runs.run Dialogue.step (parties twoBoxes toHex serverPair onesNonce aClient) handshakeRun =
      some s ∧
    (s.incoming true).length = 172 + 45 - 1 ∧ Dialogue.Agrees (agreed serverPair aClient) s := by
  have hrun : ((Runs.run Dialogue.step (parties twoBoxes toHex serverPair onesNonce aClient)
      handshakeRun).map fun s => (s.incoming true).length) = some 216 := by
    decide +kernel
  obtain ⟨s, hs, hflight⟩ := Option.map_eq_some_iff.1 hrun
  have hc : Dialled aClient := ⟨by decide +kernel, by decide, by decide⟩
  have hhex : Hex (toHex serverPair.publicKey) := ⟨by decide, by decide⟩
  have hinfo : Sealed twoBoxes clientInfoJson onesNonce aClient.publicKey aClient.privateKey
      serverPair.publicKey serverPair.privateKey clientInfoBox :=
    ⟨by decide +kernel, by decide, by decide +kernel⟩
  have hserver : Sealed twoBoxes serverInfoJson twoBoxes.nonce serverPair.publicKey
      serverPair.privateKey aClient.publicKey aClient.privateKey serverInfoBox :=
    ⟨by decide +kernel, by decide, by decide +kernel⟩
  exact ⟨s, hs, hflight, handshake_agrees hc hhex rfl rfl hinfo hserver
    (Runs.reach_of_run rfl hs)⟩

end

end HyperDerp.DerpClient
