import HyperDerp.HdClient.Reassembly
import HyperDerp.Lib.Text

/-!
# Connecting and reconnecting (`hd_client.cc:105-316`, `:580-632`)

A connection that is being set up is what the server sends on it, as far as it
arrives before a read fails. The upgrade response is read byte by byte and the
enrolment response by `ReadAll`, which takes exactly as many bytes as it is asked
for however they arrive, so that chunks play no part here.
-/

namespace HyperDerp

open Text (utf8)
open ByteStream (Source)

/-- The environment of one attempt to connect. A `String` is the text of a failure. -/
structure Dial where
  fd : ℤ
  socket : Option String := none
  inetPton : String → Bool
  connect : Option String := none
  tls : Option String := none
  /-- `WriteAll` of these bytes succeeds. -/
  writeAll : Bytes → Bool
  /-- `crypto_auth` of a message under a key. -/
  cryptoAuth : Bytes → Key → Bytes

/-- What a step of the setup returns, the client after it and what is left of the stream. -/
structure Dialled where
  result : Except ClientError Unit
  client : HdClient
  rest : Bytes

def hdClientConnect (d : Dial) (c : HdClient) (host : String) (port : ℕ) :
    Except ClientError Unit × HdClient :=
  match d.socket with
  | some why => (.error ⟨.socketFailed, why⟩, { c with fd := -1 })
  | none =>
    if d.inetPton host = false then (.error ⟨.badAddress, host⟩, { c with fd := -1 })
    else
      match d.connect with
      | some why => (.error ⟨.connectFailed, why⟩, { c with fd := -1 })
      | none => (.ok (), { c with fd := d.fd, host := host, port := port, connected := true })

def hdClientTlsConnect (d : Dial) (c : HdClient) : Except ClientError Unit × HdClient :=
  match d.tls with
  | some why => (.error ⟨.ioFailed, why⟩, c)
  | none => (.ok (), { c with ssl := true, sslCtx := true, useTls := true })

def upgradeRequest (c : HdClient) : Bytes :=
  utf8 "GET /hd HTTP/1.1\r\nHost: " ++ utf8 c.host ++ utf8 ":" ++ Text.decimal c.port ++
    utf8 "\r\nUpgrade: HD\r\nConnection: Upgrade\r\n\r\n"

/-- `sizeof(buf) - 1` in `HdClientUpgrade`. -/
def kUpgradeResponseMax : ℕ := 1023

/-- The response up to its blank line: `n` bytes more have room behind `resp`. -/
def readResponse : ℕ → Bytes → Bytes → Option (Bytes × Bytes)
  | 0, resp, stream => some (resp, stream)
  | _ + 1, _, [] => none
  | n + 1, resp, x :: stream =>
    if (resp ++ [x]).drop ((resp ++ [x]).length - 4) = utf8 "\r\n\r\n" then
      some (resp ++ [x], stream)
    else readResponse n (resp ++ [x]) stream

def hdClientUpgrade (d : Dial) (c : HdClient) (stream : Bytes) : Dialled :=
  if d.writeAll (upgradeRequest c) = false then
    ⟨.error ⟨.ioFailed, "write upgrade request failed"⟩, c, stream⟩
  else
    match readResponse kUpgradeResponseMax [] stream with
    | none => ⟨.error ⟨.ioFailed, "read upgrade response failed"⟩, c, []⟩
    | some (resp, rest) =>
      if utf8 "101" <:+: resp then ⟨.ok (), c, rest⟩
      else ⟨.error ⟨.upgradeFailed, "no 101 in response"⟩, c, rest⟩

/-- `ReadAll`: exactly `n` bytes. -/
def clientReadAll (n : ℕ) (stream : Bytes) : Option (Bytes × Bytes) :=
  if n ≤ stream.length then some (stream.take n, stream.drop n) else none

def hdBuildEnroll (clientKey : Key) (hmac : Bytes) : Bytes :=
  hdWriteFrameHeader .kEnroll (kKeySize + hmac.length) ++ clientKey.data ++ hmac

/-- `sizeof(payload)` in `HdClientEnroll`. -/
def kEnrollResponseMax : ℕ := kKeySize + 256

def hdClientEnroll (d : Dial) (c : HdClient) (stream : Bytes) : Dialled :=
  if d.writeAll (hdBuildEnroll c.publicKey (d.cryptoAuth c.publicKey.data c.relayKey)) = false then
    ⟨.error ⟨.ioFailed, "write Enroll frame failed"⟩, c, stream⟩
  else
    match clientReadAll kHdFrameHeaderSize stream with
    | none => ⟨.error ⟨.ioFailed, "read enrollment response failed"⟩, c, []⟩
    | some (hdr, rest) =>
      let type := hdReadFrameType hdr
      let plen := hdReadPayloadLen hdr
      if hdIsValidPayloadLen plen = false then
        ⟨.error ⟨.badPayloadLength, "enrollment response payload too large"⟩, c, rest⟩
      else if kEnrollResponseMax < plen then
        ⟨.error ⟨.bufferOverflow, "enrollment response exceeds buffer"⟩, c, rest⟩
      else
        match clientReadAll plen rest with
        | none => ⟨.error ⟨.ioFailed, "read enrollment payload failed"⟩, c, []⟩
        | some (_, rest) =>
          if type = .kApproved then ⟨.ok (), { c with approved := true }, rest⟩
          else if type = .kDenied then
            ⟨.error ⟨.enrollmentDenied, "enrollment denied by relay"⟩, c, rest⟩
          else ⟨.error ⟨.unexpectedFrame, "expected Approved or Denied frame"⟩, c, rest⟩

def HdClient.dropConnection (c : HdClient) : HdClient :=
  { c with ssl := false, sslCtx := false, fd := -1, connected := false, approved := false }

/-- `use_tls` was set by the original `HdClientTlsConnect`, so that the handshake runs again on
the new fd. -/
def tlsAgain (d : Dial) (c : HdClient) : Except ClientError Unit × HdClient :=
  if c.useTls then hdClientTlsConnect d { c with useTls := false } else (.ok (), c)

def hdClientReconnect (d : Dial) (c : HdClient) (stream : Bytes) : Dialled :=
  let c := c.dropConnection
  match hdClientConnect d c c.host c.port with
  | (.error e, c) => ⟨.error e, c, stream⟩
  | (.ok (), c) =>
    match tlsAgain d c with
    | (.error e, c) => ⟨.error ⟨.ioFailed, e.message⟩, c, stream⟩
    | (.ok (), c) =>
      match hdClientUpgrade d c stream with
      | ⟨.error e, c, rest⟩ => ⟨.error ⟨.upgradeFailed, e.message⟩, c, rest⟩
      | ⟨.ok (), c, stream⟩ =>
        match hdClientEnroll d c stream with
        | ⟨.error e, c, rest⟩ => ⟨.error ⟨.enrollmentDenied, e.message⟩, c, rest⟩
        | ⟨.ok (), c, rest⟩ => ⟨.ok (), c, rest⟩

/-- `HdClientClose` frees the receive buffer too. -/
def hdClientClose (c : HdClient) : HdClient := { c.dropConnection with recvBuf := none }

@[simp] theorem unread_hdClientClose (c : HdClient) : (hdClientClose c).unread = [] := rfl

/-! ### What a setup consumes -/

variable {stream rest : Bytes} {d : Dial} {c c' : HdClient}

theorem readResponse_prefix {n : ℕ} {resp out : Bytes}
    (h : readResponse n resp stream = some (out, rest)) :
    ∃ used, stream = used ++ rest ∧
      ∀ tail, readResponse n resp (used ++ tail) = some (out, tail) := by
  induction n generalizing resp stream with
  | zero =>
    cases h
    exact ⟨[], rfl, fun _ => rfl⟩
  | succ n ih =>
    cases stream with
    | nil => cases h
    | cons x stream =>
      rw [readResponse] at h
      split at h
      · next hend =>
        cases h
        exact ⟨[x], rfl, fun tail => if_pos hend⟩
      · next hend =>
        obtain ⟨used, hused, htail⟩ := ih h
        refine ⟨x :: used, by rw [hused, List.cons_append], fun tail => ?_⟩
        rw [List.cons_append, readResponse, if_neg hend, htail]

theorem clientReadAll_append {n : ℕ} {out : Bytes} (h : out.length = n) (tail : Bytes) :
    clientReadAll n (out ++ tail) = some (out, tail) := by
  rw [clientReadAll, if_pos (by rw [List.length_append]; omega), ← h, List.take_left, List.drop_left]

theorem clientReadAll_prefix {n : ℕ} {out : Bytes} (h : clientReadAll n stream = some (out, rest)) :
    stream = out ++ rest ∧ out.length = n := by
  unfold clientReadAll at h
  split at h
  · next hle =>
    cases h
    exact ⟨(List.take_append_drop n stream).symm, List.length_take_of_le hle⟩
  · cases h

theorem upgrade_prefixed (h : hdClientUpgrade d c stream = ⟨.ok (), c', rest⟩) :
    c' = c ∧ ∃ used, stream = used ++ rest ∧
      ∀ tail, hdClientUpgrade d c (used ++ tail) = ⟨.ok (), c, tail⟩ := by
  unfold hdClientUpgrade at h ⊢
  split at h
  · cases h
  next hwrite =>
  rcases hread : readResponse kUpgradeResponseMax [] stream with _ | ⟨resp, rest'⟩
  · rw [hread] at h
    cases h
  · rw [hread] at h
    dsimp only at h
    split at h
    · next hfound =>
      cases h
      obtain ⟨used, hused, htail⟩ := readResponse_prefix hread
      refine ⟨rfl, used, hused, fun tail => ?_⟩
      rw [if_neg hwrite, htail]
      exact if_pos hfound
    · cases h

theorem enroll_prefixed (h : hdClientEnroll d c stream = ⟨.ok (), c', rest⟩) :
    c' = { c with approved := true } ∧ ∃ used, stream = used ++ rest ∧
      ∀ tail, hdClientEnroll d c (used ++ tail) = ⟨.ok (), { c with approved := true }, tail⟩ := by
  unfold hdClientEnroll at h ⊢
  split at h
  · cases h
  next hwrite =>
  rcases hhdr : clientReadAll kHdFrameHeaderSize stream with _ | ⟨hdr, rest₁⟩
  · rw [hhdr] at h
    cases h
  rw [hhdr] at h
  dsimp only at h
  split at h
  · cases h
  next hvalid =>
  split at h
  · cases h
  next hroom =>
  rcases hpay : clientReadAll (hdReadPayloadLen hdr) rest₁ with _ | ⟨payload, rest₂⟩
  · rw [hpay] at h
    cases h
  rw [hpay] at h
  dsimp only at h
  split at h
  · next htype =>
    cases h
    obtain ⟨hstream, hlen⟩ := clientReadAll_prefix hhdr
    obtain ⟨hrest, hplen⟩ := clientReadAll_prefix hpay
    refine ⟨rfl, hdr ++ payload, by rw [hstream, hrest, List.append_assoc], fun tail => ?_⟩
    rw [if_neg hwrite, List.append_assoc, clientReadAll_append hlen]
    dsimp only
    rw [if_neg hvalid, if_neg hroom, clientReadAll_append hplen]
    exact if_pos htype
  · split at h <;> cases h

theorem connect_recvBuf {host : String} {port : ℕ} {result : Except ClientError Unit}
    (h : hdClientConnect d c host port = (result, c')) :
    c'.recvBuf = c.recvBuf := by
  unfold hdClientConnect at h
  split at h
  · cases h
    rfl
  split at h
  · cases h
    rfl
  split at h <;>
  · cases h
    rfl

theorem tlsAgain_recvBuf {result : Except ClientError Unit} (h : tlsAgain d c = (result, c')) :
    c'.recvBuf = c.recvBuf := by
  unfold tlsAgain hdClientTlsConnect at h
  split at h
  · split at h <;>
    · cases h
      rfl
  · cases h
    rfl

theorem reconnect_prefix (h : hdClientReconnect d c stream = ⟨.ok (), c', rest⟩) :
    c'.recvBuf = c.recvBuf ∧ ∃ greeting, stream = greeting ++ rest ∧
      ∀ tail, hdClientReconnect d c (greeting ++ tail) = ⟨.ok (), c', tail⟩ := by
  unfold hdClientReconnect at h
  dsimp only at h
  rcases hconn : hdClientConnect d c.dropConnection c.dropConnection.host
    c.dropConnection.port with ⟨e | u, c₁⟩
  · rw [hconn] at h
    cases h
  rw [hconn] at h
  dsimp only at h
  rcases htls : tlsAgain d c₁ with ⟨e | u, c₂⟩
  · rw [htls] at h
    cases h
  rw [htls] at h
  dsimp only at h
  rcases hup : hdClientUpgrade d c₂ stream with ⟨e | u, c₃, stream₁⟩
  · rw [hup] at h
    cases h
  rw [hup] at h
  dsimp only at h
  rcases hen : hdClientEnroll d c₃ stream₁ with ⟨e | u, c₄, rest'⟩
  · rw [hen] at h
    cases h
  rw [hen] at h
  cases h
  obtain ⟨rfl, used, hused, hupgrade⟩ := upgrade_prefixed hup
  obtain ⟨rfl, used', hused', henroll⟩ := enroll_prefixed hen
  refine ⟨(tlsAgain_recvBuf htls).trans (connect_recvBuf hconn :), used ++ used',
    by rw [hused, hused', List.append_assoc], fun tail => ?_⟩
  unfold hdClientReconnect
  dsimp only
  rw [hconn]
  dsimp only
  rw [htls]
  dsimp only
  rw [List.append_assoc, hupgrade]
  dsimp only
  rw [henroll]

/-! ### A clean start -/

/-- After the greeting of a new connection only the frames of that connection come out, and
every call behaves as on a client that never had another connection. -/
structure StartsClean (d : Dial) (c : HdClient) (greeting : Bytes) : Prop where
  frames : ∀ frames : List ClientFrame, (∀ f ∈ frames, f.Valid ∧ f.Fits) →
    ∃ c', hdClientReconnect d c (greeting ++ encodeFrames frames) =
      ⟨.ok (), c', encodeFrames frames⟩ ∧ Reassembles c' frames
  alike : ∀ tail c', hdClientReconnect d c (greeting ++ tail) = ⟨.ok (), c', tail⟩ →
    ∀ n reads, recvCalls kHdMaxFramePayload n c' ⟨tail, reads⟩ =
      recvCalls kHdMaxFramePayload n { c' with recvBuf := none } ⟨tail, reads⟩

theorem recvCalls_congr {c₁ c₂ : HdClient} (n : ℕ) (sock : Source Byte) (h : c₁.unread = c₂.unread) :
    recvCalls kHdMaxFramePayload n c₁ sock = recvCalls kHdMaxFramePayload n c₂ sock := by
  induction n generalizing c₁ c₂ sock with
  | zero => rfl
  | succ n ih =>
    have hloop : (recvLoop kHdMaxFramePayload (c₁.recvBuf.getD .empty) sock.stream sock.reads).seen =
        (recvLoop kHdMaxFramePayload (c₂.recvBuf.getD .empty) sock.stream sock.reads).seen :=
      recvLoop_congr _ _ h
    simp only [Received.seen, Prod.mk.injEq] at hloop
    obtain ⟨hres, hunread, hsock⟩ := hloop
    rw [recvCalls, recvCalls]
    congr 1
    have hsock' : (hdClientRecvFrame c₁ kHdMaxFramePayload sock).2.2 =
        (hdClientRecvFrame c₂ kHdMaxFramePayload sock).2.2 := hsock
    rw [hsock']
    exact ih _ hunread

theorem Reassembles.unread_nil (h : ∀ type : HdFrameType, Reassembles c [⟨type, []⟩]) :
    c.unread = [] := by
  by_contra hne
  have hall := (h (hdReadFrameType c.unread + 1)).complete
    (bytewise (encodeFrames [⟨hdReadFrameType c.unread + 1, []⟩])) 1 rfl (bytewise_enough _)
    (by rw [bytewise_timeouts]; exact Nat.le_refl _)
  rw [recvCalls, recvCalls] at hall
  cases hres : (hdClientRecvFrame c kHdMaxFramePayload
      (bytewise (encodeFrames [⟨hdReadFrameType c.unread + 1, []⟩]))).1 with
  | error e =>
    rw [hres, okFrames_error] at hall
    cases hall
  | ok f =>
    rw [hres, okFrames_ok, List.cons.injEq] at hall
    have htype := (recvLoop_result_ok _ _ _ hres).2 hne
    rw [hall.1] at htype
    exact absurd htype (by simp [HdClient.unread])

theorem StartsClean.unread_nil {greeting : Bytes} (hclean : StartsClean d c greeting)
    (h : hdClientReconnect d c (greeting ++ rest) = ⟨.ok (), c', rest⟩) : c.unread = [] := by
  obtain ⟨hbuf, used, hused, hagain⟩ := reconnect_prefix h
  have hgreeting : greeting = used := List.append_cancel_right hused
  subst hgreeting
  have hunread : c'.unread = c.unread := by rw [HdClient.unread, HdClient.unread, hbuf]
  rw [← hunread]
  apply Reassembles.unread_nil
  intro type
  have hframe : ∀ f ∈ [(⟨type, []⟩ : ClientFrame)], f.Valid ∧ f.Fits := by
    intro f hf
    rw [List.mem_singleton] at hf
    subst hf
    exact ⟨rfl, Nat.le_of_ble_eq_true rfl⟩
  obtain ⟨c'', hc'', hall⟩ := hclean.frames _ hframe
  rw [hagain] at hc''
  cases hc''
  exact hall

/-- A reconnect starts from a clean stream just when nothing was left unparsed before it. -/
theorem reconnect_clean_iff {d : Dial} {c c' : HdClient} {greeting rest : Bytes}
    (h : hdClientReconnect d c (greeting ++ rest) = ⟨.ok (), c', rest⟩) :
    StartsClean d c greeting ↔ c.unread = [] := by
  obtain ⟨hbuf, used, hused, hagain⟩ := reconnect_prefix h
  have hgreeting : greeting = used := List.append_cancel_right hused
  subst hgreeting
  have hunread : c'.unread = c.unread := by rw [HdClient.unread, HdClient.unread, hbuf]
  constructor
  · exact fun hclean => hclean.unread_nil h
  · intro hnil
    constructor
    · intro frames hframes
      refine ⟨c', hagain _, reassembles_of_fits (hunread.trans hnil) ?_ ?_⟩
      · exact fun f hf => (hframes f hf).1
      · exact fun f hf => (hframes f hf).2
    · intro tail c'' hc'' n reads
      rw [hagain] at hc''
      cases hc''
      exact recvCalls_congr n _ (hunread.trans hnil)

/-- `crypto_auth` of key 1 under the relay key 9. -/
def openMac : Bytes :=
  [0xc6, 0x5a, 0xa3, 0x1f, 0xa3, 0xd0, 0x1a, 0x98, 0xb4, 0x4f, 0x4d, 0xb1, 0x68, 0xca, 0xca, 0x0f,
   0x5a, 0xc5, 0x01, 0x26, 0xf0, 0xac, 0x08, 0xd2, 0x9f, 0xa5, 0xab, 0x9e, 0x1a, 0xfc, 0xb0, 0xfb]

/-- One address answers. -/
def openDial : Dial where
  fd := 5
  inetPton host := host = "10.0.0.1"
  writeAll _ := true
  cryptoAuth _ _ := openMac

def openGreeting : Bytes :=
  utf8 "HTTP/1.1 101 Switching Protocols\r\n\r\n" ++
    hdWriteFrameHeader .kApproved kKeySize ++ (byteKey 1).data

/-- A client that was connected, with what it has received. -/
def lostClient (buf : RecvBuf) : HdClient where
  fd := 4
  publicKey := byteKey 1
  relayKey := byteKey 9
  connected := true
  approved := true
  host := "10.0.0.1"
  port := 443
  ssl := true
  sslCtx := true
  useTls := true
  recvBuf := some buf

theorem openGreeting_accepted (buf : RecvBuf) :
    hdClientReconnect openDial (lostClient buf) (openGreeting ++ []) =
      ⟨.ok (), { lostClient buf with fd := 5 }, []⟩ := by
  rfl

/-- The old connection has brought one frame, and it has been read. -/
theorem reconnect_clean_read :
    StartsClean openDial (lostClient ⟨hdWriteFrameHeader .kPing 0, 4, by decide, by decide⟩)
      openGreeting :=
  (reconnect_clean_iff (openGreeting_accepted _)).mpr (by decide)

/-- One byte of a frame that the old connection did not finish. -/
theorem not_reconnect_clean_cut_frame :
    ¬ ∀ (d : Dial) (c c' : HdClient) (greeting rest : Bytes),
      hdClientReconnect d c (greeting ++ rest) = ⟨.ok (), c', rest⟩ → StartsClean d c greeting := by
  intro h
  have haccepted := openGreeting_accepted ⟨[0x01], 0, by decide, by decide⟩
  have hnil := (h _ _ _ _ _ haccepted).unread_nil haccepted
  cases hnil

end HyperDerp
