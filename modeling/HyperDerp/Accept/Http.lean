import HyperDerp.Protocol
import HyperDerp.Lib.Text

/-!
# HTTP requests (`http.cc:17-127`)

The parser looks for the blank line that ends the header and for nothing behind
it. A position in the buffer is the suffix that starts there.
-/

namespace HyperDerp

open Text (utf8)

def kMaxHttpRequestSize : ℕ := 4096

inductive HttpParseError where
  | incomplete
  | badRequest
  deriving DecidableEq

/-- `Error<HttpParseError>`. -/
structure HttpError where
  code : HttpParseError
  message : String
  deriving DecidableEq

structure HttpRequest where
  method : Bytes := []
  path : Bytes := []
  hasUpgrade : Bool := false
  upgrade : Bytes := []
  fastStart : Bool := false
  deriving DecidableEq

def findHeaderEnd (buf : Bytes) : Option Bytes := Text.seek (utf8 "\r\n\r\n") buf

def ciStartsWith (str pre : Bytes) : Bool :=
  decide (pre.length ≤ str.length) &&
    (List.zipWith (fun a b => a ||| 0x20 == b ||| 0x20) str pre).all id

def lTrim (s : Bytes) : Bytes := s.dropWhile fun b => b == 0x20 || b == 0x09

def headerLine (req : HttpRequest) (line : Bytes) : HttpRequest :=
  if ciStartsWith line (utf8 "upgrade:") then { req with upgrade := lTrim (line.drop 8) }
  else if ciStartsWith line (utf8 "connection:") then
    if ciStartsWith (lTrim (line.drop 11)) (utf8 "upgrade") then { req with hasUpgrade := true }
    else req
  else if ciStartsWith line (utf8 "derp-fast-start:") then
    if (lTrim (line.drop 16)).head? = some 0x31 then { req with fastStart := true } else req
  else req

def headerLoop : ℕ → HttpRequest → Bytes → HttpRequest
  | 0, req, _ => req
  | n + 1, req, headers =>
    if headers = [] then req
    else
      match Text.seek (utf8 "\r\n") headers with
      | none => req
      | some rest =>
        headerLoop n (headerLine req (headers.take (headers.length - rest.length))) (rest.drop 2)

def parseHeader (input : Bytes) : Except HttpError HttpRequest :=
  let method := input.takeWhile (· ≠ 0x20)
  let afterMethod := Text.skipTo 0x20 input
  let rest := afterMethod.drop 1
  let path := rest.takeWhile (· ≠ 0x20)
  if afterMethod = [] then .error ⟨.badRequest, "no space after method"⟩
  else if method = [] then .error ⟨.badRequest, "empty method"⟩
  else if Text.skipTo 0x20 rest = [] then .error ⟨.badRequest, "no space after path"⟩
  else if path = [] then .error ⟨.badRequest, "empty path"⟩
  else
    match Text.seek (utf8 "\r\n") input with
    | none => .error ⟨.badRequest, "no CRLF after request line"⟩
    | some crlf =>
      .ok (headerLoop crlf.length { method := method, path := path } (crlf.drop 2))

/-- `ParseHttpRequest`: the length of the header and what it says. -/
def parseHttpRequest (buf : Bytes) : Except HttpError (ℕ × HttpRequest) :=
  if kMaxHttpRequestSize < buf.length then .error ⟨.badRequest, "request exceeds max size"⟩
  else
    match findHeaderEnd buf with
    | none => .error ⟨.incomplete, "headers not yet complete"⟩
    | some rest =>
      let headerLen := buf.length - rest.length + 4
      (parseHeader (buf.take headerLen)).map (headerLen, ·)

/-! ### Where the header ends -/

theorem findHeaderEnd_length {buf rest : Bytes} (h : findHeaderEnd buf = some rest) :
    4 ≤ rest.length ∧ rest.length ≤ buf.length :=
  ⟨(Text.seek_prefixed h).length_le, (Text.seek_suffix h).length_le⟩

/-- A buffer that is one header and nothing behind it. -/
structure IsHeader (head : Bytes) (req : HttpRequest) : Prop where
  parsed : parseHttpRequest head = .ok (head.length, req)

variable {head : Bytes} {req : HttpRequest}

theorem IsHeader.size (h : IsHeader head req) :
    head.length ≤ kMaxHttpRequestSize := by
  have hparsed := h.parsed
  unfold parseHttpRequest at hparsed
  split at hparsed
  · cases hparsed
  · omega

theorem IsHeader.found (h : IsHeader head req) :
    ∃ rest, findHeaderEnd head = some rest ∧ rest.length = 4 ∧ parseHeader head = .ok req := by
  have hparsed := h.parsed
  unfold parseHttpRequest at hparsed
  rw [if_neg (Nat.not_lt.mpr h.size)] at hparsed
  rcases hfind : findHeaderEnd head with _ | rest
  · rw [hfind] at hparsed
    cases hparsed
  · rw [hfind] at hparsed
    dsimp only at hparsed
    obtain ⟨hfour, hle⟩ := findHeaderEnd_length hfind
    rcases hhead : parseHeader (head.take (head.length - rest.length + 4)) with e | req'
    · rw [hhead] at hparsed
      cases hparsed
    · rw [hhead] at hparsed
      simp only [Except.map, Except.ok.injEq, Prod.mk.injEq] at hparsed
      obtain ⟨hlen, rfl⟩ := hparsed
      rw [hlen, List.take_length] at hhead
      exact ⟨rest, rfl, by omega, hhead⟩

theorem IsHeader.pos (h : IsHeader head req) :
    0 < head.length := by
  obtain ⟨rest, hfind, hfour, -⟩ := h.found
  have hle := (findHeaderEnd_length hfind).2
  omega

theorem IsHeader.parse_append (h : IsHeader head req) {tail : Bytes}
    (hsize : (head ++ tail).length ≤ kMaxHttpRequestSize) :
    parseHttpRequest (head ++ tail) = .ok (head.length, req) := by
  obtain ⟨rest, hfind, hfour, hhead⟩ := h.found
  have hle := (findHeaderEnd_length hfind).2
  have hlen : (head ++ tail).length - (rest ++ tail).length + 4 = head.length := by
    rw [List.length_append, List.length_append]
    omega
  unfold parseHttpRequest
  rw [if_neg (Nat.not_lt.mpr hsize), findHeaderEnd, Text.seek_append hfind]
  dsimp only
  rw [hlen, List.take_left, hhead]
  rfl

theorem IsHeader.parse_partial {part more : Bytes} (h : IsHeader head req)
    (hpart : part ++ more = head) (hmore : more ≠ []) :
    parseHttpRequest part = .error ⟨.incomplete, "headers not yet complete"⟩ := by
  obtain ⟨rest, hfind, hfour, -⟩ := h.found
  have hsize := h.size
  have hlen : part.length + more.length = head.length := by rw [← hpart, List.length_append]
  have hpos := List.length_pos_iff.mpr hmore
  have hnone : findHeaderEnd part = none := by
    rcases hfound : findHeaderEnd part with _ | early
    · rfl
    · have hwhole := Text.seek_append hfound more
      rw [hpart] at hwhole
      have heq : early ++ more = rest := Option.some.inj (hwhole.symm.trans hfind)
      have hearly := (findHeaderEnd_length hfound).1
      have hlong := congrArg List.length heq
      rw [List.length_append] at hlong
      omega
  unfold parseHttpRequest
  rw [if_neg (by omega), hnone]

end HyperDerp
