import HyperDerp.Accept.Http

/-!
# Lines and names of an HTTP request (`http.cc:16-127`)

The method and the path are cut at the spaces of the whole header, the header
names are compared with bit `0x20` set in every character.
-/

namespace HyperDerp

namespace HttpLines

open Text (seek utf8)

variable {input line buf more written : Bytes} {req : HttpRequest} {n : ℕ}

/-! ### Lines -/

def crlf : Bytes := [0x0d, 0x0a]

def firstLine (input : Bytes) : Bytes :=
  match seek crlf input with
  | none => input
  | some rest => input.take (input.length - rest.length)

def linesUpTo : ℕ → Bytes → List Bytes
  | 0, _ => []
  | n + 1, headers =>
    match seek crlf headers with
    | none => []
    | some rest => headers.take (headers.length - rest.length) :: linesUpTo n (rest.drop 2)

def headerLines (input : Bytes) : List Bytes :=
  match seek crlf input with
  | none => []
  | some rest => linesUpTo rest.length (rest.drop 2)

structure Layout (input first : Bytes) (lines : List Bytes) : Prop where
  text : input = first ++ crlf ++ lines.flatMap fun l => l ++ crlf
  first : ¬crlf <:+: first
  lines : ∀ l ∈ lines, ¬crlf <:+: l

theorem seek_line (h : ¬crlf <:+: line) (rest : Bytes) :
    seek crlf (line ++ (crlf ++ rest)) = some (crlf ++ rest) := by
  induction line with
  | nil => simp [crlf, seek]
  | cons b line ih =>
    have htail : ¬crlf <:+: line := fun hin => h (hin.trans (List.suffix_cons b line).isInfix)
    have hnot : ¬crlf.isPrefixOf (b :: (line ++ (crlf ++ rest))) = true := by
      intro hpre
      cases line with
      | nil => simp [crlf] at hpre
      | cons b' line =>
        rw [List.isPrefixOf_iff_prefix] at hpre
        simp only [crlf, List.cons_append, List.cons_prefix_cons, List.nil_prefix, and_true] at hpre
        obtain ⟨rfl, rfl⟩ := hpre
        exact h ⟨[], line, rfl⟩
    rw [List.cons_append, seek, if_neg hnot, ih htail]

theorem take_line (line rest : Bytes) :
    (line ++ rest).take ((line ++ rest).length - rest.length) = line := by
  simp

theorem rest_ends {rest : Bytes} (h : crlf <:+ crlf ++ rest) : rest = [] ∨ crlf <:+ rest := by
  match rest with
  | [] => exact .inl rfl
  | [b] =>
    obtain ⟨u, hu⟩ := h
    have hlen := congrArg List.length hu
    match u with
    | [] => simp [crlf] at hlen
    | [a] => simp [crlf] at hu
    | _ :: _ :: _ => simp [crlf] at hlen
  | b :: b' :: rest =>
    exact .inr (List.suffix_of_suffix_length_le h (List.suffix_append crlf _) (by simp [crlf]))

theorem exists_line {s : Bytes} (h : crlf <:+ s) :
    ∃ line rest, s = line ++ (crlf ++ rest) ∧ (¬crlf <:+: line) ∧ (rest = [] ∨ crlf <:+ rest) := by
  induction s with
  | nil => simp [crlf] at h
  | cons b s ih =>
    by_cases hpre : crlf <+: b :: s
    · obtain ⟨rest, hrest⟩ := hpre
      refine ⟨[], rest, hrest.symm, by simp [crlf], ?_⟩
      rw [← hrest] at h
      exact rest_ends h
    · have hs : crlf <:+ s := by
        obtain heq | hs := List.suffix_cons_iff.mp h
        · exact absurd (heq ▸ List.prefix_rfl) hpre
        · exact hs
      obtain ⟨line, rest, rfl, hline, hrest⟩ := ih hs
      refine ⟨b :: line, rest, rfl, fun hin => ?_, hrest⟩
      obtain hfront | hin := List.infix_cons_iff.mp hin
      · exact hpre (hfront.trans (List.prefix_append (b :: line) (crlf ++ rest)))
      · exact hline hin

theorem linesUpTo_layout {s : Bytes} (hn : s.length ≤ n) (h : s = [] ∨ crlf <:+ s) :
    s = (linesUpTo n s).flatMap (fun l => l ++ crlf) ∧ ∀ l ∈ linesUpTo n s, ¬crlf <:+: l := by
  induction n generalizing s with
  | zero =>
    obtain rfl := List.length_eq_zero_iff.mp (Nat.le_zero.mp hn)
    exact ⟨rfl, nofun⟩
  | succ n ih =>
    obtain rfl | hends := h
    · exact ⟨rfl, nofun⟩
    obtain ⟨line, rest, rfl, hline, hrest⟩ := exists_line hends
    have hshort : rest.length ≤ n := by
      simp only [List.length_append, crlf, List.length_cons] at hn
      omega
    obtain ⟨htext, hlines⟩ := ih hshort hrest
    have hcut : linesUpTo (n + 1) (line ++ (crlf ++ rest)) = line :: linesUpTo n rest := by
      simp only [linesUpTo, seek_line hline, take_line]
      rfl
    rw [hcut]
    refine ⟨?_, ?_⟩
    · rw [List.flatMap_cons, ← htext, List.append_assoc]
    · intro l hl
      obtain rfl | hl := List.mem_cons.mp hl
      · exact hline
      · exact hlines l hl

theorem layout_of_ends (h : crlf <:+ input) :
    Layout input (firstLine input) (headerLines input) := by
  obtain ⟨line, rest, rfl, hline, hrest⟩ := exists_line h
  have hfirst : firstLine (line ++ (crlf ++ rest)) = line := by
    simp only [firstLine, seek_line hline, take_line]
  have hlines : headerLines (line ++ (crlf ++ rest)) = linesUpTo (crlf ++ rest).length rest := by
    simp only [headerLines, seek_line hline]
    rfl
  have hlong : rest.length ≤ (crlf ++ rest).length := by simp
  obtain ⟨htext, hnone⟩ := linesUpTo_layout hlong hrest
  rw [hfirst, hlines]
  refine ⟨?_, hline, hnone⟩
  rw [← htext, List.append_assoc]

/-! ### What is accepted -/

def blankLine : Bytes := utf8 "\r\n\r\n"

theorem findHeaderEnd_eq (buf : Bytes) : findHeaderEnd buf = seek blankLine buf := rfl

theorem findHeaderEnd_none : findHeaderEnd buf = none ↔ ¬blankLine <:+: buf := by
  rw [findHeaderEnd_eq]
  constructor
  · rintro hnone ⟨u, rest, rfl⟩
    have hfound : (seek blankLine (u ++ (blankLine ++ rest))).isSome = true :=
      Text.seek_isSome u rest
    rw [List.append_assoc] at hnone
    rw [hnone] at hfound
    cases hfound
  · intro hno
    cases hfound : seek blankLine buf with
    | none => rfl
    | some t =>
      obtain ⟨u, rest, hbuf⟩ := Text.seek_occurs hfound
      exact absurd ⟨u, rest, by rw [hbuf, List.append_assoc]⟩ hno

def IsBlock (input : Bytes) : Prop := findHeaderEnd input = some blankLine

theorem IsBlock.ends (h : IsBlock input) : ∃ u, input = u ++ blankLine := by
  obtain ⟨u, hu⟩ := Text.seek_suffix h
  exact ⟨u, hu.symm⟩

theorem IsBlock.crlf_suffix (h : IsBlock input) : crlf <:+ input := by
  obtain ⟨u, rfl⟩ := h.ends
  exact ⟨u ++ crlf, by rw [List.append_assoc]; rfl⟩

theorem exists_block {rest : Bytes} (h : findHeaderEnd buf = some rest) :
    ∃ input tail, buf = input ++ tail ∧ IsBlock input ∧ rest = blankLine ++ tail := by
  obtain ⟨u, rfl⟩ := Text.seek_suffix h
  obtain ⟨tail, rfl⟩ := Text.seek_prefixed h
  have hsome : (seek blankLine (u ++ (blankLine ++ []))).isSome = true := Text.seek_isSome u []
  rw [List.append_nil] at hsome
  obtain ⟨t, ht⟩ := Option.isSome_iff_exists.mp hsome
  refine ⟨u ++ blankLine, tail, by rw [List.append_assoc]; rfl, ?_, rfl⟩
  have hlonger := Text.seek_append ht tail
  rw [List.append_assoc] at hlonger
  have heq : blankLine ++ tail = t ++ tail := Option.some.inj (h.symm.trans hlonger)
  rw [IsBlock, findHeaderEnd_eq, ht, List.append_cancel_right heq]

theorem IsBlock.found (h : IsBlock input) (tail : Bytes) :
    findHeaderEnd (input ++ tail) = some (blankLine ++ tail) := Text.seek_append h tail

theorem IsBlock.parse (h : IsBlock input) {tail : Bytes}
    (hsize : (input ++ tail).length ≤ kMaxHttpRequestSize) :
    parseHttpRequest (input ++ tail) = (parseHeader input).map fun req => (input.length, req) := by
  obtain ⟨u, hu⟩ := h.ends
  have hlen : (input ++ tail).length - (blankLine ++ tail).length + 4 = input.length := by
    have hblank : blankLine.length = 4 := by decide
    rw [hu]
    simp only [List.length_append]
    omega
  unfold parseHttpRequest
  rw [if_neg (Nat.not_lt.mpr hsize), h.found tail]
  dsimp only
  rw [hlen, List.take_left]

theorem parse_ok_iff (hsize : buf.length ≤ kMaxHttpRequestSize) :
    parseHttpRequest buf = .ok (n, req) ↔ ∃ input tail, buf = input ++ tail ∧ IsBlock input ∧
      n = input.length ∧ parseHeader input = .ok req := by
  constructor
  · intro h
    cases hfound : findHeaderEnd buf with
    | none =>
      unfold parseHttpRequest at h
      rw [if_neg (Nat.not_lt.mpr hsize), hfound] at h
      cases h
    | some rest =>
      obtain ⟨input, tail, rfl, hblock, -⟩ := exists_block hfound
      rw [hblock.parse hsize] at h
      cases hhead : parseHeader input with
      | error e =>
        rw [hhead] at h
        cases h
      | ok req' =>
        rw [hhead] at h
        cases h
        exact ⟨input, tail, rfl, hblock, rfl, hhead⟩
  · rintro ⟨input, tail, rfl, hblock, rfl, hhead⟩
    rw [hblock.parse hsize, hhead]
    rfl

/-! ### The request line -/

abbrev space : Byte := 0x20

structure Words (s method path rest : Bytes) : Prop where
  text : s = method ++ space :: (path ++ space :: rest)
  method : method ≠ [] ∧ space ∉ method
  path : path ≠ [] ∧ space ∉ path

def RequestLine (line method path : Bytes) : Prop :=
  ∃ rest, Words line method path rest ∧ ∃ b ∈ rest, b ≠ space

variable {s method path rest : Bytes}

theorem cut_space (h : space ∉ method) (rest : Bytes) :
    (method ++ space :: rest).takeWhile (fun b => decide (b ≠ space)) = method ∧
      Text.skipTo space (method ++ space :: rest) = space :: rest := by
  refine ⟨?_, Text.skipTo_append h rest⟩
  rw [List.takeWhile_append_of_pos]
  · simp
  · intro b hb
    exact decide_eq_true fun hbs => h (hbs ▸ hb)

theorem exists_cut (h : Text.skipTo space s ≠ []) :
    ∃ word rest, s = word ++ space :: rest ∧ space ∉ word := by
  obtain ⟨b, rest, hskip⟩ := List.exists_cons_of_ne_nil h
  have hb : b = space := by
    have hhead := List.head_dropWhile_not (fun b => decide (b ≠ space)) h
    simp only [Text.skipTo] at hskip
    simp only [hskip, List.head_cons] at hhead
    simpa using hhead
  refine ⟨s.takeWhile fun b => decide (b ≠ space), rest, ?_, fun hmem => ?_⟩
  · have hwhole := List.takeWhile_append_dropWhile (p := fun b => decide (b ≠ space)) (l := s)
    rw [← hb, ← hskip, hb]
    exact hwhole.symm
  · have hno := List.mem_takeWhile_imp hmem
    simp at hno

theorem headerLoop_eq (headers : Bytes) :
    headerLoop n req headers = (linesUpTo n headers).foldl headerLine req := by
  induction n generalizing req headers with
  | zero => rfl
  | succ n ih =>
    by_cases hempty : headers = []
    · rw [hempty]
      rfl
    · simp only [headerLoop, hempty, if_false, linesUpTo]
      change (match seek crlf headers with | none => _ | some rest => _) = _
      cases seek crlf headers with
      | none => rfl
      | some rest =>
        simp only [List.foldl_cons]
        exact ih _

theorem parseHeader_eq (hwords : Words input method path rest)
    (hbreak : (seek crlf input).isSome = true) : parseHeader input =
      .ok ((headerLines input).foldl headerLine { method := method, path := path }) := by
  obtain ⟨after, hafter⟩ := Option.isSome_iff_exists.mp hbreak
  obtain ⟨htext, ⟨hmethod, hmspace⟩, hpath, hpspace⟩ := hwords
  obtain ⟨htake, hskip⟩ := cut_space hmspace (path ++ space :: rest)
  obtain ⟨htake', hskip'⟩ := cut_space hpspace rest
  have hseek : seek (utf8 "\r\n") input = some after := hafter
  rw [← htext] at htake hskip
  unfold parseHeader
  simp only [htake, hskip, List.drop_succ_cons, List.drop_zero, htake', hskip', hmethod, hpath,
    hseek, headerLoop_eq, reduceCtorEq, if_false, headerLines, hafter]

theorem parseHeader_words (h : parseHeader input = .ok req) :
    ∃ method path rest, Words input method path rest := by
  unfold parseHeader at h
  dsimp only at h
  split at h
  · cases h
  next hafter =>
  obtain ⟨method, tail, rfl, hmspace⟩ := exists_cut hafter
  obtain ⟨htake, hskip⟩ := cut_space hmspace tail
  rw [htake, hskip] at h
  simp only [List.drop_succ_cons, List.drop_zero] at h
  split at h
  · cases h
  next hmethod =>
  split at h
  · cases h
  next hafter' =>
  obtain ⟨path, rest, rfl, hpspace⟩ := exists_cut hafter'
  obtain ⟨htake', -⟩ := cut_space hpspace rest
  rw [htake'] at h
  split at h
  · cases h
  next hpath => exact ⟨method, path, rest, rfl, ⟨hmethod, hmspace⟩, hpath, hpspace⟩

theorem word_unique {word word' rest' : Bytes} (h : space ∉ word) (h' : space ∉ word')
    (heq : word ++ space :: rest = word' ++ space :: rest') : word = word' ∧ rest = rest' := by
  have hword := (cut_space h rest).1
  rw [heq, (cut_space h' rest').1] at hword
  rw [hword] at heq
  exact ⟨hword.symm, (List.cons.inj (List.append_cancel_left heq)).2⟩

theorem Words.unique {method' path' rest' tail : Bytes} (h : Words (s ++ tail) method path rest)
    (h' : Words s method' path' rest') : method = method' ∧ path = path' := by
  have heq : method ++ space :: (path ++ space :: rest) =
      method' ++ space :: (path' ++ space :: (rest' ++ tail)) := by
    rw [← h.text, h'.text]
    simp
  obtain ⟨hmethod, heq⟩ := word_unique h.method.2 h'.method.2 heq
  exact ⟨hmethod, (word_unique h.path.2 h'.path.2 heq).1⟩

/-! ### Header names -/

inductive HeaderName where
  | upgrade
  | connection
  | derpFastStart
  deriving DecidableEq

def HeaderName.text : HeaderName → Bytes
  | .upgrade => utf8 "upgrade"
  | .connection => utf8 "connection"
  | .derpFastStart => utf8 "derp-fast-start"

def colon : Byte := 0x3a

def headerName (line : Bytes) : Option HeaderName :=
  if ciStartsWith line (HeaderName.upgrade.text ++ [colon]) then some .upgrade
  else if ciStartsWith line (HeaderName.connection.text ++ [colon]) then some .connection
  else if ciStartsWith line (HeaderName.derpFastStart.text ++ [colon]) then some .derpFastStart
  else none

def readHeader (req : HttpRequest) (line : Bytes) : Option HeaderName → HttpRequest
  | some .upgrade => { req with upgrade := lTrim (line.drop 8) }
  | some .connection =>
    if ciStartsWith (lTrim (line.drop 11)) (utf8 "upgrade") then { req with hasUpgrade := true }
    else req
  | some .derpFastStart =>
    if (lTrim (line.drop 16)).head? = some 0x31 then { req with fastStart := true } else req
  | none => req

theorem headerLine_eq (req : HttpRequest) (line : Bytes) :
    headerLine req line = readHeader req line (headerName line) := by
  have hup : HeaderName.upgrade.text ++ [colon] = utf8 "upgrade:" := by decide
  have hconn : HeaderName.connection.text ++ [colon] = utf8 "connection:" := by decide
  have hfast : HeaderName.derpFastStart.text ++ [colon] = utf8 "derp-fast-start:" := by
    decide
  unfold headerLine headerName
  rw [hup, hconn, hfast]
  split
  · rfl
  split
  · rfl
  split <;> rfl

def lower (b : Byte) : Byte := if 0x41 ≤ b ∧ b ≤ 0x5a then b + 0x20 else b

/-- The line starts with the name in letters of either case, followed by a colon. -/
def Named (h : HeaderName) (line : Bytes) : Prop :=
  ∃ written rest, line = written ++ colon :: rest ∧ written.map lower = h.text

def fold (b : Byte) : Byte := if b = 0x0d then 0x2d else if b = 0x1a then 0x3a else lower b

/-- The line starts like the header but for a control character in the place of a hyphen or of
the colon. -/
def Lookalike (h : HeaderName) (line : Bytes) : Prop :=
  ∃ written rest, line = written ++ rest ∧ written.map fold = h.text ++ [colon] ∧
    (0x0d ∈ written ∨ 0x1a ∈ written)

def alphabet : Bytes := utf8 "abcdefghijklmnopqrstuvwxyz-:"

def Mark (b : Byte) : Prop := (0x61 ≤ b ∧ b ≤ 0x7a) ∨ b = 0x2d ∨ b = 0x3a

instance (b : Byte) : Decidable (Mark b) :=
  inferInstanceAs (Decidable ((0x61 ≤ b ∧ b ≤ 0x7a) ∨ b = 0x2d ∨ b = 0x3a))

theorem alphabet_mark : ∀ c ∈ alphabet, c ||| 0x20 = c ∧ Mark c := by decide +kernel

theorem fold_or (b : Byte) :
    fold b = b ||| 0x20 ∨ (¬Mark (fold b) ∧ ¬Mark (b ||| 0x20)) := by
  have hall : ∀ i : Fin 256, fold (UInt8.ofNat i) = UInt8.ofNat i ||| 0x20 ∨
      (¬Mark (fold (UInt8.ofNat i)) ∧ ¬Mark (UInt8.ofNat i ||| 0x20)) := by
    decide +kernel
  have hb := hall ⟨b.toNat, b.toNat_lt⟩
  rwa [UInt8.ofNat_toNat] at hb

theorem fold_eq {c : Byte} (hc : c ∈ alphabet) (b : Byte) :
    (b ||| 0x20 == c ||| 0x20) = (fold b == c) := by
  obtain ⟨hset, hmark⟩ := alphabet_mark c hc
  rw [hset]
  obtain hfold | ⟨hno, hno'⟩ := fold_or b
  · rw [hfold]
  · have hne : fold b ≠ c := fun heq => hno (heq ▸ hmark)
    have hne' : b ||| 0x20 ≠ c := fun heq => hno' (heq ▸ hmark)
    rw [beq_eq_false_iff_ne.mpr hne, beq_eq_false_iff_ne.mpr hne']

theorem text_alphabet (h : HeaderName) : ∀ c ∈ h.text ++ [colon], c ∈ alphabet := by
  cases h <;> decide +kernel

theorem ciStartsWith_iff {pre : Bytes} (hpre : ∀ c ∈ pre, c ∈ alphabet) :
    ciStartsWith line pre = true ↔ ∃ written rest, line = written ++ rest ∧ written.map fold = pre := by
  induction pre generalizing line with
  | nil =>
    refine iff_of_true ?_ ⟨[], line, rfl, rfl⟩
    cases line <;> rfl
  | cons c pre ih =>
    have hrest : ∀ c ∈ pre, c ∈ alphabet := fun c hc => hpre c (List.mem_cons_of_mem _ hc)
    cases line with
    | nil =>
      refine iff_of_false (by simp [ciStartsWith]) ?_
      rintro ⟨written, rest, heq, hmap⟩
      rw [(List.append_eq_nil_iff.mp heq.symm).1] at hmap
      cases hmap
    | cons b line =>
      have hcons : ciStartsWith (b :: line) (c :: pre) =
          ((fold b == c) && ciStartsWith line pre) := by
        rw [← fold_eq (hpre c (List.mem_cons_self ..))]
        simp only [ciStartsWith, List.length_cons, Nat.add_le_add_iff_right, List.zipWith_cons_cons,
          List.all_cons, id]
        rw [Bool.and_left_comm]
      rw [hcons, Bool.and_eq_true, ih hrest, beq_iff_eq]
      constructor
      · rintro ⟨hb, written, rest, rfl, hmap⟩
        exact ⟨b :: written, rest, rfl, by rw [List.map_cons, hb, hmap]⟩
      · rintro ⟨written, rest, heq, hmap⟩
        cases written with
        | nil => cases hmap
        | cons b' written =>
          simp only [List.cons_append, List.cons.injEq] at heq
          obtain ⟨rfl, rfl⟩ := heq
          rw [List.map_cons, List.cons.injEq] at hmap
          exact ⟨hmap.1, written, rest, rfl, hmap.2⟩

theorem ciStartsWith_head {h : HeaderName} (hline : ciStartsWith line (h.text ++ [colon]) = true) :
    (line.map fold).head? = h.text.head? := by
  obtain ⟨written, rest, rfl, hmap⟩ := (ciStartsWith_iff (text_alphabet h)).mp hline
  rw [List.map_append, hmap]
  cases h <;> rfl

theorem headerName_iff {h : HeaderName} :
    headerName line = some h ↔ ciStartsWith line (h.text ++ [colon]) = true := by
  have hone : ∀ h', ciStartsWith line (h.text ++ [colon]) = true →
      ciStartsWith line (h'.text ++ [colon]) = true → h' = h := by
    intro h' hh hh'
    have hhead := (ciStartsWith_head hh).symm.trans (ciStartsWith_head hh')
    revert hhead
    cases h <;> cases h' <;> decide
  unfold headerName
  split
  · next hu => exact ⟨fun heq => Option.some.inj heq ▸ hu, fun hh => by rw [hone _ hh hu]⟩
  next hu =>
  split
  · next hc => exact ⟨fun heq => Option.some.inj heq ▸ hc, fun hh => by rw [hone _ hh hc]⟩
  next hc =>
  split
  · next hd => exact ⟨fun heq => Option.some.inj heq ▸ hd, fun hh => by rw [hone _ hh hd]⟩
  next hd =>
  refine iff_of_false nofun fun hh => ?_
  cases h with
  | upgrade => exact hu hh
  | connection => exact hc hh
  | derpFastStart => exact hd hh

theorem text_no_control (h : HeaderName) : 0x0d ∉ h.text ∧ 0x1a ∉ h.text := by
  cases h <;> decide

theorem written_no_control {h : HeaderName} (hmap : written.map lower = h.text) :
    0x0d ∉ written ∧ 0x1a ∉ written := by
  obtain ⟨hcr, hsub⟩ := text_no_control h
  refine ⟨fun hmem => hcr ?_, fun hmem => hsub ?_⟩
  · rw [← hmap]
    exact List.mem_map_of_mem hmem
  · rw [← hmap]
    exact List.mem_map_of_mem hmem

theorem map_fold (hcr : 0x0d ∉ written) (hsub : 0x1a ∉ written) :
    written.map fold = written.map lower := by
  apply List.map_congr_left
  intro b hb
  have hb1 : b ≠ 0x0d := fun heq => hcr (heq ▸ hb)
  have hb2 : b ≠ 0x1a := fun heq => hsub (heq ▸ hb)
  rw [fold, if_neg hb1, if_neg hb2]

theorem lower_colon {b : Byte} (h : lower b = colon) : b = colon := by
  have hall : ∀ i : Fin 256, lower (UInt8.ofNat i) = colon → UInt8.ofNat i = colon := by
    decide +kernel
  have hb := hall ⟨b.toNat, b.toNat_lt⟩
  rw [UInt8.ofNat_toNat] at hb
  exact hb h

theorem starts_iff {h : HeaderName} : ciStartsWith line (h.text ++ [colon]) = true ↔
    Named h line ∨ Lookalike h line := by
  rw [ciStartsWith_iff (text_alphabet h)]
  constructor
  · rintro ⟨written, rest, rfl, hmap⟩
    by_cases hcontrol : 0x0d ∈ written ∨ 0x1a ∈ written
    · exact .inr ⟨written, rest, rfl, hmap, hcontrol⟩
    · have hno := not_or.mp hcontrol
      rw [map_fold hno.1 hno.2] at hmap
      obtain ⟨front, last, rfl, hfront, hlast⟩ := List.map_eq_append_iff.mp hmap
      obtain ⟨c, rfl, hc⟩ := List.map_eq_singleton_iff.mp hlast
      rw [lower_colon hc, List.append_assoc]
      exact .inl ⟨front, rest, rfl, hfront⟩
  · rintro (⟨written, rest, rfl, hmap⟩ | ⟨written, rest, rfl, hmap, -⟩)
    · have hno := written_no_control hmap
      refine ⟨written ++ [colon], rest, by simp, ?_⟩
      rw [List.map_append, map_fold hno.1 hno.2, hmap]
      rfl
    · exact ⟨written, rest, rfl, hmap⟩

theorem Lookalike.not_named {h : HeaderName} (hlook : Lookalike h line) : ¬Named h line := by
  obtain ⟨written, rest, rfl, hmap, hcontrol⟩ := hlook
  rintro ⟨written', rest', heq, hmap'⟩
  have hno := written_no_control hmap'
  have hlen : written.length = (written' ++ [colon]).length := by
    have h1 := congrArg List.length hmap
    have h2 := congrArg List.length hmap'
    simp only [List.length_map, List.length_append, List.length_singleton] at h1 h2 ⊢
    omega
  have hsame : written = written' ++ [colon] := by
    have heq' : written ++ rest = (written' ++ [colon]) ++ rest' := by simpa using heq
    exact (List.append_inj heq' hlen).1
  rw [hsame] at hcontrol
  simp only [List.mem_append, List.mem_singleton] at hcontrol
  obtain (hcr | hcr) | hsub | hsub := hcontrol
  · exact hno.1 hcr
  · exact absurd hcr (by decide)
  · exact hno.2 hsub
  · exact absurd hsub (by decide)

/-! ### The whole parser -/

/-- Buffers are parsed alike however they arrive, the words are those of the first line and the
headers those of their lines. -/
structure Accurate (buf : Bytes) : Prop where
  incomplete : ∀ part more, buf = part ++ more → ¬blankLine <:+: part →
    parseHttpRequest part = .error ⟨.incomplete, "headers not yet complete"⟩
  stable : ∀ n req, parseHttpRequest buf = .ok (n, req) → ∀ more,
    (buf ++ more).length ≤ kMaxHttpRequestSize → parseHttpRequest (buf ++ more) = .ok (n, req)
  layout : ∀ n req, parseHttpRequest buf = .ok (n, req) →
    Layout (buf.take n) (firstLine (buf.take n)) (headerLines (buf.take n)) ∧
      req = (headerLines (buf.take n)).foldl (fun r line => readHeader r line (headerName line))
        { method := req.method, path := req.path }
  words : ∀ n req, parseHttpRequest buf = .ok (n, req) →
    RequestLine (firstLine (buf.take n)) req.method req.path
  names : ∀ n req, parseHttpRequest buf = .ok (n, req) → ∀ line ∈ headerLines (buf.take n),
    ∀ h, headerName line = some h ↔ Named h line

/-- What the header of an accepted request must look like. -/
structure Plain (input : Bytes) : Prop where
  words : ∃ method path, RequestLine (firstLine input) method path
  names : ∀ line ∈ headerLines input, ∀ h, ¬Lookalike h line

/-- A header that is taken for a request: two words before a space each, on whatever lines. -/
def Request (input : Bytes) : Prop := IsBlock input ∧ ∃ method path rest, Words input method path rest

theorem readHeader_words (r : HttpRequest) (line : Bytes) (h : Option HeaderName) :
    (readHeader r line h).method = r.method ∧ (readHeader r line h).path = r.path := by
  cases h with
  | none => exact ⟨rfl, rfl⟩
  | some h =>
    cases h with
    | upgrade => exact ⟨rfl, rfl⟩
    | connection =>
      dsimp only [readHeader]
      split
      · exact ⟨rfl, rfl⟩
      · exact ⟨rfl, rfl⟩
    | derpFastStart =>
      dsimp only [readHeader]
      split
      · exact ⟨rfl, rfl⟩
      · exact ⟨rfl, rfl⟩

def readLines (r : HttpRequest) (lines : List Bytes) : HttpRequest :=
  lines.foldl (fun r line => readHeader r line (headerName line)) r

theorem readLines_words (r : HttpRequest) (lines : List Bytes) :
    (readLines r lines).method = r.method ∧ (readLines r lines).path = r.path := by
  induction lines generalizing r with
  | nil => exact ⟨rfl, rfl⟩
  | cons line lines ih =>
    have hline := readHeader_words r line (headerName line)
    have hlines := ih (readHeader r line (headerName line))
    exact ⟨hlines.1.trans hline.1, hlines.2.trans hline.2⟩

theorem IsBlock.reads {method path rest : Bytes} (hblock : IsBlock input)
    (hwords : Words input method path rest) : parseHeader input =
      .ok (readLines { method := method, path := path } (headerLines input)) := by
  obtain ⟨line, after, heq, hline, -⟩ := exists_line hblock.crlf_suffix
  have hbreak : (seek crlf input).isSome = true := by
    rw [heq, seek_line hline]
    rfl
  have hread : headerLine = fun r line => readHeader r line (headerName line) :=
    funext₂ headerLine_eq
  rw [parseHeader_eq hwords hbreak, hread]
  rfl

theorem parse_accepted (hsize : buf.length ≤ kMaxHttpRequestSize)
    (h : parseHttpRequest buf = .ok (n, req)) : ∃ input tail rest, buf = input ++ tail ∧
      n = input.length ∧ IsBlock input ∧ Words input req.method req.path rest ∧
      req = readLines { method := req.method, path := req.path } (headerLines input) := by
  obtain ⟨input, tail, hbuf, hblock, hn, hhead⟩ := (parse_ok_iff hsize).mp h
  obtain ⟨method, path, rest, hwords⟩ := parseHeader_words hhead
  rw [hblock.reads hwords] at hhead
  have hreq := Except.ok.inj hhead
  have hfields := readLines_words { method := method, path := path } (headerLines input)
  rw [hreq] at hfields
  dsimp only at hfields
  rw [← hfields.1, ← hfields.2] at hwords hreq
  exact ⟨input, tail, rest, hbuf, hn, hblock, hwords, hreq.symm⟩

theorem Request.accepted {tail : Bytes} (h : Request input)
    (hsize : (input ++ tail).length ≤ kMaxHttpRequestSize) :
    ∃ req rest, parseHttpRequest (input ++ tail) = .ok (input.length, req) ∧
      Words input req.method req.path rest := by
  obtain ⟨hblock, method, path, rest, hwords⟩ := h
  have hparse := hblock.parse hsize
  rw [hblock.reads hwords] at hparse
  have hfields := readLines_words { method := method, path := path } (headerLines input)
  refine ⟨_, rest, hparse, ?_⟩
  rw [hfields.1, hfields.2]
  exact hwords

theorem parse_incomplete {part : Bytes} (hsize : buf.length ≤ kMaxHttpRequestSize)
    (hbuf : buf = part ++ more) (hno : ¬blankLine <:+: part) :
    parseHttpRequest part = .error ⟨.incomplete, "headers not yet complete"⟩ := by
  have hpart : part.length ≤ kMaxHttpRequestSize := by
    rw [hbuf, List.length_append] at hsize
    omega
  unfold parseHttpRequest
  rw [if_neg (Nat.not_lt.mpr hpart), findHeaderEnd_none.mpr hno]

theorem parse_stable (hsize : (buf ++ more).length ≤ kMaxHttpRequestSize)
    (h : parseHttpRequest buf = .ok (n, req)) : parseHttpRequest (buf ++ more) = .ok (n, req) := by
  have hshort : buf.length ≤ kMaxHttpRequestSize := by
    rw [List.length_append] at hsize
    omega
  obtain ⟨input, tail, rfl, hblock, hn, hhead⟩ := (parse_ok_iff hshort).mp h
  exact (parse_ok_iff hsize).mpr ⟨input, tail ++ more, by rw [List.append_assoc], hblock, hn, hhead⟩

theorem accurate_iff (hsize : buf.length ≤ kMaxHttpRequestSize) :
    Accurate buf ↔ ∀ input tail, buf = input ++ tail → Request input → Plain input := by
  constructor
  · rintro h input tail rfl hrequest
    obtain ⟨req, rest, hparse, -⟩ := hrequest.accepted hsize
    have hwords := h.words _ _ hparse
    have hnames := h.names _ _ hparse
    rw [List.take_left] at hwords hnames
    refine ⟨⟨_, _, hwords⟩, fun line hline name hlook => hlook.not_named ?_⟩
    rw [← hnames line hline name, headerName_iff, starts_iff]
    exact .inr hlook
  · intro h
    refine ⟨fun part more => parse_incomplete hsize, fun n req hparse more hmore =>
      parse_stable hmore hparse, fun n req hparse => ?_, fun n req hparse => ?_,
      fun n req hparse => ?_⟩
    all_goals
      obtain ⟨input, tail, rest, rfl, rfl, hblock, hwords, hreq⟩ := parse_accepted hsize hparse
      rw [List.take_left]
    · exact ⟨layout_of_ends hblock.crlf_suffix, hreq⟩
    · obtain ⟨method, path, third, hfirst, hmore⟩ := (h _ _ rfl ⟨hblock, _, _, rest, hwords⟩).words
      have htext := (layout_of_ends hblock.crlf_suffix).text
      rw [htext, List.append_assoc] at hwords
      obtain ⟨hmethod, hpath⟩ := hwords.unique hfirst
      rw [hmethod, hpath]
      exact ⟨third, hfirst, hmore⟩
    · intro line hline name
      have hno := (h _ _ rfl ⟨hblock, _, _, rest, hwords⟩).names line hline name
      rw [headerName_iff, starts_iff]
      exact or_iff_left hno

/-! ### Two requests -/

def upgradeRequest : Bytes := utf8 "GET /derp HTTP/1.1\r\nUpgrade: DERP\r\n\r\n"

def twoWordRequest : Bytes := utf8 "GET /derp\r\nHost: relay 1\r\n\r\n"

theorem upgradeRequest_lines : firstLine upgradeRequest = utf8 "GET /derp HTTP/1.1" ∧
    headerLines upgradeRequest = [utf8 "Upgrade: DERP", []] := by
  decide

theorem upgradeRequest_plain : Plain upgradeRequest := by
  obtain ⟨hfirst, hlines⟩ := upgradeRequest_lines
  refine ⟨⟨utf8 "GET", utf8 "/derp", utf8 "HTTP/1.1", ?_, 0x48, by decide⟩, ?_⟩
  · rw [hfirst]
    exact ⟨by decide, by decide, by decide⟩
  · rw [hlines]
    intro line hline h hlook
    have hstarts : ciStartsWith line (h.text ++ [colon]) = true := starts_iff.mpr (.inr hlook)
    obtain rfl | hline := List.mem_cons.mp hline
    · cases h with
      | upgrade => exact hlook.not_named ⟨utf8 "Upgrade", utf8 " DERP", by decide⟩
      | connection => exact absurd hstarts (by decide)
      | derpFastStart => exact absurd hstarts (by decide)
    · obtain rfl := List.mem_singleton.mp hline
      revert hstarts
      cases h <;> decide

theorem accurate_upgradeRequest : Accurate upgradeRequest := by
  refine (accurate_iff (by decide)).mpr fun input tail hbuf hrequest => ?_
  have hfound := hrequest.1.found tail
  have hend : findHeaderEnd upgradeRequest = some blankLine := by decide
  rw [← hbuf, hend] at hfound
  have htail : tail = [] := by
    have heq := Option.some.inj hfound
    exact List.append_cancel_left (heq.symm.trans (List.append_nil _).symm)
  rw [htail, List.append_nil] at hbuf
  rw [← hbuf]
  exact upgradeRequest_plain

theorem twoWordRequest_inaccurate :
    ¬∀ buf : Bytes, buf.length ≤ kMaxHttpRequestSize → Accurate buf := by
  intro h
  have hparse : parseHttpRequest twoWordRequest = .ok (twoWordRequest.length,
      { method := utf8 "GET", path := utf8 "/derp\r\nHost:" }) := by
    decide
  obtain ⟨rest, hwords, -⟩ := (h twoWordRequest (by decide)).words _ _ hparse
  have hfirst : firstLine (twoWordRequest.take twoWordRequest.length) = utf8 "GET /derp" := by
    decide
  have hlen := congrArg List.length hwords.text
  rw [hfirst] at hlen
  simp only [List.length_append, List.length_cons] at hlen
  have hshort : (utf8 "GET /derp").length = 9 ∧ (utf8 "GET").length = 3 ∧
      (utf8 "/derp\r\nHost:").length = 12 := by
    decide
  omega

end HttpLines

end HyperDerp
