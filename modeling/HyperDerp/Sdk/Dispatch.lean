import HyperDerp.HdClient.Connect
import HyperDerp.HdCodec.Readers
import HyperDerp.Lib.LastSplit
import HyperDerp.Sdk.OpenWaits
import HyperDerp.Sdk.Peers
import HyperDerp.Sdk.RecvLoop
import HyperDerp.Sdk.Tunnels

/-!
# What a frame does to the client (`sdk/src/client.cc:26-42`, `:354-535`)

`DispatchFrame` with everything it reads and writes. `none` is an exception that
leaves the function, on the thread of the receive loop.
-/

namespace HyperDerp.SdkDispatch

open LastSplit (splitLast)
open SdkPeers (PeerInfo parsePeerInfo payloadKey)
open Text (isDigit digitsValue utf8)

inductive Intent where
  | preferDirect
  | requireDirect
  | preferRelay
  | requireRelay
  deriving DecidableEq

structure Config where
  defaultRouting : Intent := .preferDirect
  allowUpgrade : Bool := true
  allowDowngrade : Bool := true

structure Connection where
  host : Bytes
  port : ℕ
  relayUrl : Bytes
  hd : HdClient
  status : RecvLoop.Status

/-- `Client::Impl` -/
structure Impl where
  config : Config
  conn : Connection
  peers : List PeerInfo
  tunnels : ℕ → Option Tunnels.Impl
  openWaits : ℕ → Option OpenWaits.OpenWait

/-- What is around one call: the order of the map of peers after an insertion, the answer of the
redirect callback, and what the writes to the socket return. -/
structure Around where
  rehash : List PeerInfo → List PeerInfo := id
  follow : Bool := true
  writes : List ℤ := []

inductive Event where
  | onPeer (peer : PeerInfo) (connected : Bool)
  | onRedirect (reason : Byte) (target : Bytes)
  | onData (src : ℕ) (payload : Bytes)
  | sent (bytes : Bytes)

/-! ### `ParseRelayUrl` -/

/-- `hd://` -/
def kScheme : Bytes := [0x68, 0x64, 0x3a, 0x2f, 0x2f]

def kColon : Byte := 0x3a

def stripScheme (url : Bytes) : Bytes := if kScheme.isPrefixOf url then url.drop 5 else url

/-- The result, `*host` and `*port`; `none` if `std::stoi` throws. -/
def parseRelayUrl (url : Bytes) : Option (Bool × Bytes × ℕ) :=
  let s := stripScheme url
  match splitLast kColon s with
  | none => some (!s.isEmpty, s, 443)
  | some (host, text) =>
    (HyperDerp.Config.stoi text).map fun r => (!host.isEmpty, host, (r.1 % 2 ^ 16).toNat)

/-! ### `DispatchFrame` -/

def onPeerInfo (impl : Impl) (payload : Bytes) (around : Around) : Impl × List Event :=
  let pi := parsePeerInfo payload
  ({ impl with peers := around.rehash (KeyedList.assign PeerInfo.peerId pi impl.peers) },
    [.onPeer pi true])

def onPeerGone (impl : Impl) (payload : Bytes) : Impl × List Event :=
  let key := payloadKey payload
  let found := impl.peers.find? (·.publicKey = key)
  let goneId := (found.map PeerInfo.peerId).getD 0
  let pi := found.getD { publicKey := key, peerId := 0, name := [] }
  ({ impl with
      peers := SdkPeers.removeGone key impl.peers
      tunnels := Function.update impl.tunnels goneId
        ((impl.tunnels goneId).map fun t => { t with mode := .closed }) },
    [.onPeer { pi with connected := false } false])

def onOpenConnectionResult (impl : Impl) (payload : Bytes) : Impl :=
  match hdParseOpenConnectionResult payload with
  | none => impl
  | some r =>
    { impl with
      openWaits := Function.update impl.openWaits r.correlationId
        ((impl.openWaits r.correlationId).map fun _ => { done := true, result := r }) }

def Intent.toHd : Intent → HdIntent
  | .preferDirect => .kPreferDirect
  | .requireDirect => .kRequireDirect
  | .preferRelay => .kPreferRelay
  | .requireRelay => .kRequireRelay

/-- The loop of raw writes: what of the response gets out. -/
def writeAll (bytes : Bytes) : List ℤ → Bytes
  | [] => []
  | w :: ws =>
    if bytes = [] then []
    else if w ≤ 0 then []
    else bytes.take w.toNat ++ writeAll (bytes.drop w.toNat) ws

def onIncomingConnection (impl : Impl) (payload : Bytes) (around : Around) : List Event :=
  match hdParseIncomingConnection payload with
  | none => []
  | some inc =>
    let flags := (if impl.config.allowUpgrade then kHdFlagAllowUpgrade else 0) |||
      (if impl.config.allowDowngrade then kHdFlagAllowDowngrade else 0)
    let response := hdBuildIncomingConnResponse inc.correlationId impl.config.defaultRouting.toHd
      flags kHdFlagAccept
    [.sent (writeAll response around.writes)]

def Connection.redirect (conn : Connection) (host : Bytes) (port : ℕ) (target : Bytes) :
    Connection where
  host := host
  port := port
  relayUrl := target
  hd := hdClientClose conn.hd
  status := .disconnected

def onRedirect (impl : Impl) (payload : Bytes) (around : Around) : Option (Impl × List Event) :=
  match hdParseRedirect payload (kHdRedirectMaxUrl + 1) with
  | none => some (impl, [])
  | some r =>
    let events := [Event.onRedirect r.reason r.url]
    if !around.follow || r.url.isEmpty then some (impl, events)
    else
      match parseRelayUrl r.url with
      | none => none
      | some (false, _, _) => some (impl, events)
      | some (true, host, port) =>
        some ({ impl with conn := impl.conn.redirect host port r.url }, events)

def onMeshData (impl : Impl) (payload : Bytes) : List Event :=
  let src := readU16 payload 0
  match impl.tunnels src with
  | none => []
  | some t => if t.onData && t.mode ≠ .closed then [.onData src (payload.drop 2)] else []

def dispatchFrame (impl : Impl) (type : HdFrameType) (payload : Bytes) (around : Around) :
    Option (Impl × List Event) :=
  if type = .kPeerInfo ∧ 34 ≤ payload.length then some (onPeerInfo impl payload around)
  else if type = .kPeerGone ∧ 32 ≤ payload.length then some (onPeerGone impl payload)
  else if type = .kOpenConnectionResult then some (onOpenConnectionResult impl payload, [])
  else if type = .kIncomingConnection then
    some (impl, onIncomingConnection impl payload around)
  else if type = .kRedirect ∧ 1 ≤ payload.length then onRedirect impl payload around
  else if type = .kMeshData ∧ 2 ≤ payload.length then some (impl, onMeshData impl payload)
  -- `kIncomingConnResult` is only logged
  else some (impl, [])

/-! ### Well-formed redirects -/

def PortText (text : Bytes) (port : ℕ) : Prop :=
  text ≠ [] ∧ (∀ c ∈ text, isDigit c = true) ∧ digitsValue text = port ∧ 1 ≤ port ∧ port ≤ 65535

inductive Authority : Bytes → Bytes → ℕ → Prop where
  | explicit (host text : Bytes) (port : ℕ) : host ≠ [] → PortText text port →
      Authority (host ++ kColon :: text) host port
  | default (host : Bytes) : host ≠ [] → kColon ∉ host → Authority host host 443

/-- An optional `hd://` before it. -/
def RelayUrl (url host : Bytes) (port : ℕ) : Prop := Authority (stripScheme url) host port

/-- The frame is a redirect to the URL, of a length that fits, and the callback follows it. -/
def Follows (type : HdFrameType) (payload : Bytes) (around : Around) (url : Bytes) : Prop :=
  type = .kRedirect ∧ (∃ reason, payload = reason :: url) ∧ url.length ≤ kHdRedirectMaxUrl ∧
    around.follow = true

/-- On every client the call returns, with the connection redirected by a well-formed URL and
left alone by everything else. -/
def Directed (type : HdFrameType) (payload : Bytes) (around : Around) : Prop :=
  ∀ impl, ∃ impl' events, dispatchFrame impl type payload around = some (impl', events) ∧
    (∀ url host port, Follows type payload around url → RelayUrl url host port →
      impl'.conn = impl.conn.redirect host port url) ∧
    ((¬∃ url host port, Follows type payload around url ∧ RelayUrl url host port) →
      impl'.conn = impl.conn)

/-- What follows the last colon of the URL is a port in range, or the host is empty and the port
one that `std::stoi` reads. -/
def Readable (url : Bytes) : Prop :=
  ∀ host text, splitLast kColon (stripScheme url) = some (host, text) →
    (∃ port, PortText text port) ∨
      (host = [] ∧ (HyperDerp.Config.stoi text).isSome)

variable {url host text payload : Bytes} {port port' : ℕ} {impl : Impl} {around : Around}
  {type : HdFrameType}

theorem PortText.no_colon (h : PortText text port) : kColon ∉ text := fun hmem =>
  absurd (h.2.1 kColon hmem) (by decide)

theorem PortText.stoi (h : PortText text port) :
    HyperDerp.Config.stoi text = some ((port : ℤ), text.length) := by
  obtain ⟨hne, hdigits, hvalue, -, hle⟩ := h
  obtain ⟨c, cs, rfl⟩ := List.exists_cons_of_ne_nil hne
  obtain ⟨hspace, hminus, hplus⟩ := Text.isDigit_first (hdigits c (List.mem_cons_self ..))
  have hall : (c :: cs).takeWhile isDigit = c :: cs := List.takeWhile_eq_self_iff.2 hdigits
  have hdrop : (c :: cs).dropWhile Text.isSpace = c :: cs := by
    rw [List.dropWhile_cons, hspace, if_neg Bool.false_ne_true]
  have hread : Text.readInteger (c :: cs) = some (false, port, (c :: cs).length) := by
    simp [Text.readInteger, hdrop, hall, hminus, hplus, hvalue]
  have hrange : -2 ^ 31 ≤ (port : ℤ) ∧ (port : ℤ) < 2 ^ 31 := by omega
  simp only [HyperDerp.Config.stoi, hread, Bool.false_eq_true, if_false, hrange, and_self, if_true]

theorem splitLast_of_portText (h : PortText text port) :
    splitLast kColon (host ++ kColon :: text) = some (host, text) :=
  LastSplit.splitLast_append host h.no_colon

theorem parse_of_relayUrl (h : RelayUrl url host port) :
    parseRelayUrl url = some (true, host, port) := by
  unfold RelayUrl at h
  unfold parseRelayUrl
  generalize stripScheme url = s at h
  cases h with
  | explicit host text port hhost htext =>
    have hport : ((port : ℤ) % 2 ^ 16).toNat = port := by
      have hle := htext.2.2.2.2
      omega
    simp only [splitLast_of_portText htext, htext.stoi, Option.map_some, hport]
    simp [hhost]
  | default host hhost hcolon =>
    simp [LastSplit.splitLast_none.mpr hcolon, hhost]

theorem Readable.relayUrl (h : Readable url) (hparse : parseRelayUrl url = some (true, host, port)) :
    RelayUrl url host port := by
  unfold Readable at h
  unfold parseRelayUrl at hparse
  unfold RelayUrl
  generalize stripScheme url = s at h hparse
  cases hsplit : splitLast kColon s with
  | none =>
    simp only [hsplit, Option.some.injEq, Prod.mk.injEq] at hparse
    obtain ⟨hne, rfl, rfl⟩ := hparse
    exact .default _ (by simpa using hne) (LastSplit.splitLast_none.mp hsplit)
  | some split =>
    obtain ⟨front, text⟩ := split
    obtain ⟨rfl, -⟩ := LastSplit.splitLast_some.mp hsplit
    simp only [hsplit, Option.map_eq_some_iff, Prod.mk.injEq] at hparse
    obtain ⟨r, hr, hne, rfl, rfl⟩ := hparse
    obtain ⟨value, htext⟩ | ⟨rfl, -⟩ := h front text hsplit
    · rw [htext.stoi] at hr
      obtain rfl := Option.some.inj hr
      have hport : ((value : ℤ) % 2 ^ 16).toNat = value := by
        have hle := htext.2.2.2.2
        omega
      rw [hport]
      exact .explicit front text value (by simpa using hne) htext
    · simp at hne

theorem Readable.parses (h : Readable url) : (parseRelayUrl url).isSome := by
  unfold Readable at h
  unfold parseRelayUrl
  cases hsplit : splitLast kColon (stripScheme url) with
  | none => simp [hsplit]
  | some split =>
    obtain ⟨front, text⟩ := split
    obtain ⟨value, htext⟩ | ⟨-, hsome⟩ := h front text hsplit
    · simp [hsplit, htext.stoi]
    · simp [hsplit, hsome]

theorem readable_of_reading {r : Bool × Bytes × ℕ} (hparse : parseRelayUrl url = some r)
    (hright : r.1 = true → ∃ host port, RelayUrl url host port) : Readable url := by
  intro front text hsplit
  unfold parseRelayUrl at hparse
  simp only [hsplit, Option.map_eq_some_iff] at hparse
  obtain ⟨value, hvalue, rfl⟩ := hparse
  by_cases hfront : front = []
  · exact .inr ⟨hfront, by rw [hvalue]; rfl⟩
  · obtain ⟨host, port, hurl⟩ := hright (by simpa using hfront)
    obtain ⟨hs, hcolon⟩ := LastSplit.splitLast_some.mp hsplit
    unfold RelayUrl at hurl
    generalize stripScheme url = s at hs hurl hsplit
    cases hurl with
    | explicit host text' port hhost htext =>
      rw [splitLast_of_portText htext] at hsplit
      cases hsplit
      exact .inl ⟨port, htext⟩
    | default host hhost hnone =>
      rw [LastSplit.splitLast_none.mpr hnone] at hsplit
      cases hsplit

/-! ### Frames -/

theorem hdParseRedirect_cons {reason : Byte} (h : url.length ≤ kHdRedirectMaxUrl) :
    hdParseRedirect (reason :: url) (kHdRedirectMaxUrl + 1) = some ⟨reason, url⟩ := by
  simp [hdParseRedirect, h]

theorem parse_nil : parseRelayUrl [] = some (false, [], 443) := by decide

theorem dispatch_redirect (impl : Impl) (h : Follows type payload around url) :
    dispatchFrame impl type payload around =
      match parseRelayUrl url with
      | none => none
      | some (false, _, _) => some (impl, [.onRedirect (payload.headD 0) url])
      | some (true, host, port) =>
        some ({ impl with conn := impl.conn.redirect host port url },
          [.onRedirect (payload.headD 0) url]) := by
  obtain ⟨rfl, ⟨reason, rfl⟩, hlength, hfollow⟩ := h
  have hbranch : dispatchFrame impl .kRedirect (reason :: url) around =
      onRedirect impl (reason :: url) around := by
    unfold dispatchFrame
    rw [if_neg fun h => absurd h.1 (by decide), if_neg fun h => absurd h.1 (by decide),
      if_neg (by decide), if_neg (by decide), if_pos ⟨rfl, by simp⟩]
  rw [hbranch]
  cases url with
  | nil => simp [onRedirect, hdParseRedirect_cons hlength, parse_nil]
  | cons c url => simp [onRedirect, hdParseRedirect_cons hlength, hfollow]

theorem dispatch_other (impl : Impl) (h : ∀ url, ¬Follows type payload around url) :
    ∃ impl' events, dispatchFrame impl type payload around = some (impl', events) ∧
      impl'.conn = impl.conn := by
  unfold dispatchFrame
  split
  · exact ⟨_, _, rfl, rfl⟩
  split
  · exact ⟨_, _, rfl, rfl⟩
  split
  · refine ⟨_, _, rfl, ?_⟩
    unfold onOpenConnectionResult
    split <;> rfl
  split
  · exact ⟨_, _, rfl, rfl⟩
  split
  · next hredirect =>
    obtain ⟨rfl, hlength⟩ := hredirect
    obtain ⟨reason, url, rfl⟩ := List.exists_cons_of_length_pos hlength
    unfold onRedirect
    by_cases hfit : url.length ≤ kHdRedirectMaxUrl
    · have hrefused : around.follow = false := by
        by_contra hfollow
        exact h url ⟨rfl, ⟨reason, rfl⟩, hfit, Bool.eq_true_of_not_eq_false hfollow⟩
      simp [hdParseRedirect_cons hfit, hrefused]
    · have hnone : hdParseRedirect (reason :: url) (kHdRedirectMaxUrl + 1) = none := by
        simp [hdParseRedirect, not_le.mp hfit]
      simp [hnone]
  split
  · exact ⟨_, _, rfl, rfl⟩
  · exact ⟨_, _, rfl, rfl⟩

theorem Follows.unique {url' : Bytes} (h : Follows type payload around url)
    (h' : Follows type payload around url') : url' = url := by
  obtain ⟨-, ⟨reason, rfl⟩, -⟩ := h
  obtain ⟨-, ⟨reason', heq⟩, -⟩ := h'
  exact (List.cons.inj heq).2.symm

theorem directed_redirect (h : Follows type payload around url) (hread : Readable url) :
    Directed type payload around := by
  intro impl
  obtain ⟨⟨ok, host, port⟩, hparse⟩ := Option.isSome_iff_exists.mp hread.parses
  rw [dispatch_redirect impl h, hparse]
  cases ok with
  | false =>
    have hnone : ∀ url' host' port', Follows type payload around url' →
        ¬RelayUrl url' host' port' := by
      intro url' host' port' hfollows hurl
      rw [h.unique hfollows] at hurl
      have hreading := parse_of_relayUrl hurl
      rw [hparse] at hreading
      cases hreading
    exact ⟨_, _, rfl, fun url' host' port' hf hurl => absurd hurl (hnone _ _ _ hf), fun _ => rfl⟩
  | true =>
    refine ⟨_, _, rfl, fun url' host' port' hfollows hurl => ?_, fun hno => ?_⟩
    · rw [h.unique hfollows] at hurl ⊢
      have hreading := parse_of_relayUrl hurl
      rw [hparse] at hreading
      cases hreading
      rfl
    · exact absurd ⟨url, host, port, h, hread.relayUrl hparse⟩ hno

def connected : Impl where
  config := {}
  conn := { host := [0x61], port := 443, relayUrl := [0x61], hd := {}, status := .connected }
  peers := []
  tunnels := fun _ => none
  openWaits := fun _ => none

theorem directed_iff :
    Directed type payload around ↔ ∀ url, Follows type payload around url → Readable url := by
  constructor
  · intro h url hfollows
    obtain ⟨impl', events, hdispatch, -, hsame⟩ := h connected
    rw [dispatch_redirect connected hfollows] at hdispatch
    cases hparse : parseRelayUrl url with
    | none =>
      rw [hparse] at hdispatch
      cases hdispatch
    | some r =>
      obtain ⟨ok, host, port⟩ := r
      refine readable_of_reading hparse fun hok => ?_
      -- a redirect to a URL without a reading takes the client off its connection
      by_contra hno
      have hkept := hsame fun ⟨url', host', port', hf, hurl⟩ =>
        hno ⟨host', port', hfollows.unique hf ▸ hurl⟩
      dsimp only at hok
      rw [hparse, hok] at hdispatch
      cases hdispatch
      cases hkept
  · intro h
    by_cases hany : ∃ url, Follows type payload around url
    · obtain ⟨url, hfollows⟩ := hany
      exact directed_redirect hfollows (h url hfollows)
    · intro impl
      have hnot : ∀ url, ¬Follows type payload around url := fun url hf => hany ⟨url, hf⟩
      obtain ⟨impl', events, hdispatch, hconn⟩ := dispatch_other impl hnot
      exact ⟨impl', events, hdispatch, fun url _ _ hf => absurd hf (hnot url), fun _ => hconn⟩

/-- A redirect to `a:`. -/
theorem empty_port_escapes : ¬∀ type payload around, Directed type payload around := by
  intro h
  obtain ⟨impl', events, hdispatch, -⟩ := h .kRedirect [0, 0x61, 0x3a] {} connected
  have hnone : dispatchFrame connected .kRedirect [0, 0x61, 0x3a] {} = none := by
    decide
  rw [hnone] at hdispatch
  cases hdispatch

end HyperDerp.SdkDispatch
