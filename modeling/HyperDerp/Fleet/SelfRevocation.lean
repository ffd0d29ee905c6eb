import HyperDerp.Fleet.Revocations
import HyperDerp.Lib.JsonText

/-!
# Whom a bundle revokes (`fleet_controller.cc:358-402`)

`ApplyRevocations` does not parse the signed body. From the first `"revocations"`
on it searches the text for the relay's own id in two spellings, and takes for a
fingerprint what stands between the next quotes after each `"peer_fingerprint"`.
That finds the entries of the section, if they are spelled so, and whatever else
in the rest of the text looks like one.
-/

namespace HyperDerp

namespace RevocationText

open HyperDerp.Bundle JsonText
open Text (utf8 seek skipTo)

def revocationsName : Bytes := utf8 "revocations"
def relayIdName : Bytes := utf8 "relay_id"
def fingerprintName : Bytes := utf8 "peer_fingerprint"

/-! ### The document -/

inductive Value where
  /-- a number, a truth value or null -/
  | lit (text : Bytes)
  | str (body : Bytes)
  | list (toks : List Tok)
  | object (toks : List Tok)

def Value.toks : Value → List Tok
  | .lit text => [.raw text]
  | .str body => [.str body]
  | .list toks => .sep 0x5b :: (toks ++ [.sep 0x5d])
  | .object toks => .sep 0x7b :: (toks ++ [.sep 0x7d])

structure Field where
  lead : Bytes := []
  key : Bytes
  gap : Bytes := []
  pad : Bytes := []
  value : Value
  trail : Bytes := []

def Field.toks (f : Field) : List Tok :=
  ([.raw f.lead, .str f.key, .raw f.gap, .sep kColon, .raw f.pad] : List Tok) ++ f.value.toks ++
    [Tok.raw f.trail]

inductive Piece where
  | tok (t : Tok)
  | entry (space : Bytes) (fields : List Field)

def Piece.toks : Piece → List Tok
  | .tok t => [t]
  | .entry space fields =>
    .sep 0x7b :: .raw space :: ([Tok.sep 0x2c].intercalate (fields.map Field.toks) ++ [.sep 0x7d])

def Piece.fields : Piece → List Field
  | .tok _ => []
  | .entry _ fields => fields

inductive Item where
  | entry (lead space : Bytes) (fields : List Field) (trail : Bytes)
  | other (lead : Bytes) (value : Value) (trail : Bytes)

def Item.pieces : Item → List Piece
  | .entry lead space fields trail => [.tok (.raw lead), .entry space fields, .tok (.raw trail)]
  | .other lead value trail => .tok (.raw lead) :: (value.toks.map .tok ++ [.tok (.raw trail)])

def commas (parts : List (List Piece)) : List Piece := [Piece.tok (.sep 0x2c)].intercalate parts

inductive Content where
  | items (space : Bytes) (entries : List Item)
  | value (v : Value)

def Content.pieces : Content → List Piece
  | .items space entries =>
    .tok (.sep 0x5b) :: .tok (.raw space) :: (commas (entries.map Item.pieces) ++ [.tok (.sep 0x5d)])
  | .value v => v.toks.map .tok

structure Part where
  lead : Bytes := []
  key : Bytes
  gap : Bytes := []
  pad : Bytes := []
  content : Content
  trail : Bytes := []

def Part.pieces (p : Part) : List Piece :=
  ([.tok (.raw p.lead), .tok (.str p.key), .tok (.raw p.gap), .tok (.sep kColon),
    .tok (.raw p.pad)] : List Piece) ++ p.content.pieces ++ [Piece.tok (.raw p.trail)]

inductive Section where
  | list (space : Bytes) (items : List Item)
  | lists (space : Bytes) (parts : List Part)

def Section.pieces : Section → List Piece
  | .list space items => Content.pieces (.items space items)
  | .lists space parts =>
    .tok (.sep 0x7b) :: .tok (.raw space) :: (commas (parts.map Part.pieces) ++ [.tok (.sep 0x7d)])

/-- A signed body: an object with the section and the members before and after it. -/
structure Document where
  lead : Bytes := []
  before : List Tok
  gap : Bytes := []
  pad : Bytes := []
  revocations : Section
  after : List Tok
  trail : Bytes := []

def Document.opening (d : Document) : List Tok := .raw d.lead :: .sep 0x7b :: d.before

def Document.pieces (d : Document) : List Piece :=
  .tok (.raw d.gap) :: .tok (.sep kColon) :: .tok (.raw d.pad) :: d.revocations.pieces

def Document.closing (d : Document) : List Tok := d.after ++ [Tok.sep 0x7d, Tok.raw d.trail]

def Document.toks (d : Document) : List Tok :=
  d.opening ++ .str revocationsName :: (d.pieces.flatMap Piece.toks ++ d.closing)

def Document.text (d : Document) : Bytes := render d.toks

def Document.fields (d : Document) : List Field := d.pieces.flatMap Piece.fields

/-! ### One reading of a text -/

def Spaces (s : Bytes) : Prop := ∀ c ∈ s, c ∈ utf8 " \t\n\r"

def Value.Ok : Value → Prop
  | .lit text => text ≠ [] ∧ ∀ c ∈ text, c ∉ utf8 " \t\n\r"
  | .str _ => True
  | .list toks | .object toks => nested [] toks = true

structure Field.Ok (f : Field) : Prop where
  lead : Spaces f.lead
  gap : Spaces f.gap
  pad : Spaces f.pad
  value : f.value.Ok
  trail : Spaces f.trail

def Item.Ok : Item → Prop
  | .entry lead space fields trail =>
    Spaces lead ∧ Spaces space ∧ (∀ f ∈ fields, f.Ok) ∧ Spaces trail
  | .other lead value trail =>
    Spaces lead ∧ value.Ok ∧ (∀ toks, value ≠ .object toks) ∧ Spaces trail

def Content.Ok : Content → Prop
  | .items space entries => Spaces space ∧ ∀ item ∈ entries, item.Ok
  | .value v => v.Ok ∧ ∀ toks, v ≠ .list toks

structure Part.Ok (p : Part) : Prop where
  lead : Spaces p.lead
  gap : Spaces p.gap
  pad : Spaces p.pad
  content : p.content.Ok
  trail : Spaces p.trail

def Section.Ok : Section → Prop
  | .list space items => Spaces space ∧ ∀ item ∈ items, item.Ok
  | .lists space parts => Spaces space ∧ ∀ p ∈ parts, p.Ok

/-- The parts of the document are what JSON takes them for. -/
structure Document.Ok (d : Document) : Prop where
  toks : ∀ t ∈ d.toks, t.Ok
  lead : Spaces d.lead
  before : nested [] d.before = true
  gap : Spaces d.gap
  pad : Spaces d.pad
  revocations : d.revocations.Ok
  after : nested [] d.after = true
  trail : Spaces d.trail

/-! ### What it says -/

def Decodes (decode : Bytes → Bytes) : Prop := ∀ body, backslash ∉ body → decode body = body

def Field.IsId (decode : Bytes → Bytes) (n : ℕ) (f : Field) : Prop :=
  decode f.key = relayIdName ∧ f.value = .lit (Text.decimal n)

def Document.Revokes (decode : Bytes → Bytes) (d : Document) (n : ℕ) : Prop :=
  ∃ f ∈ d.fields, f.IsId decode n

def Field.fingerprint (decode : Bytes → Bytes) (f : Field) : Option Bytes :=
  match f.value with
  | .str body => if decode f.key = fingerprintName then some (decode body) else none
  | .lit _ | .list _ | .object _ => none

def Document.fingerprints (decode : Bytes → Bytes) (d : Document) : List Bytes :=
  d.fields.filterMap (Field.fingerprint decode)

/-- The relay is revoked if its id is among the entries, and the fingerprints are theirs. -/
def Exact (decode : Bytes → Bytes) (fc : FleetController) (d : Document) : Prop :=
  ((applyRevocations fc d.text).2 = true ↔ d.Revokes decode fc.relayId) ∧
    revokedFingerprints d.text = d.fingerprints decode

/-! ### When the search finds it -/

def Document.searched (d : Document) : List Tok :=
  (d.toks.dropWhile fun t => !t.ends revocationsName).tail

/-- A name `relay_id` with a colon, at most one space and the digits of `n`. -/
def Hit (n : ℕ) (toks : List Tok) : Prop :=
  ∃ pre t post, toks = pre ++ t :: post ∧ t.ends relayIdName = true ∧
    (utf8 ":" ++ Text.decimal n <+: render post ∨ utf8 ": " ++ Text.decimal n <+: render post)

/-- The member is spelled as it is searched for. -/
structure Field.Plain (n : ℕ) (f : Field) : Prop where
  key : f.key = relayIdName
  gap : f.gap = []
  pad : f.pad = [] ∨ f.pad = utf8 " "
  value : f.value = .lit (Text.decimal n)

/-- The member is a fingerprint without escapes, or has nothing to do with fingerprints. -/
def Field.Orderly (decode : Bytes → Bytes) (f : Field) : Prop :=
  (f.key = fingerprintName ∧ ∃ body, f.value = .str body ∧ backslash ∉ body) ∨
    (∀ t ∈ f.toks, t.ends fingerprintName = false) ∧ f.fingerprint decode = none

/-- The own id is in an entry as it is searched for, or it is in no entry and is not found; the
name of a fingerprint occurs in the members of the entries only. -/
structure Spelled (decode : Bytes → Bytes) (n : ℕ) (d : Document) : Prop where
  ids : (∃ f ∈ d.fields, f.Plain n) ∨ ¬d.Revokes decode n ∧ ¬Hit n d.searched
  before : ∀ t ∈ d.opening.dropWhile fun t => !t.ends revocationsName,
    t.ends fingerprintName = false
  between : ∀ t, .tok t ∈ d.pieces → t.ends fingerprintName = false
  fields : ∀ f ∈ d.fields, f.Orderly decode
  after : ∀ t ∈ d.closing, t.ends fingerprintName = false

/-! ### The names -/

theorem isName_revocations : IsName revocationsName := by
  refine ⟨by decide, by decide, 0x76, by decide, by decide, by decide⟩

theorem isName_relayId : IsName relayIdName := by
  refine ⟨by decide, by decide, 0x5f, by decide, by decide, by decide⟩

theorem isName_fingerprint : IsName fingerprintName := by
  refine ⟨by decide, by decide, 0x5f, by decide, by decide, by decide⟩

theorem quoted_eq (name : Bytes) : Bundle.quoted name = JsonText.quoted name := rfl

variable {decode : Bytes → Bytes} {d : Document} {f : Field} {n : ℕ} {t : Tok}
  {toks ts us : List Tok} {fps gps : List Bytes}

/-! ### The tail -/

theorem ends_section : (Tok.str revocationsName).ends revocationsName = true := by decide

theorem searched_eq (d : Document) : ∃ ts, d.searched =
    ts ++ (d.pieces.flatMap Piece.toks ++ d.closing) ∧
      ∀ t ∈ ts, t ∈ (d.opening.dropWhile fun t => !t.ends revocationsName) ∨
        t = .str revocationsName := by
  unfold Document.searched Document.toks
  rw [List.dropWhile_append]
  split
  · refine ⟨[], ?_, nofun⟩
    rw [List.dropWhile_cons, ends_section]
    rfl
  · next hne =>
    cases hd : d.opening.dropWhile fun t => !t.ends revocationsName with
    | nil => simp [hd] at hne
    | cons t ts =>
      refine ⟨ts ++ [Tok.str revocationsName], by simp, fun u hu => ?_⟩
      rcases List.mem_append.1 hu with hu | hu
      · exact .inl (List.mem_cons_of_mem _ hu)
      · exact .inr (List.mem_singleton.1 hu)

theorem searched_ok (h : d.Ok) : ∀ t ∈ Tok.str revocationsName :: d.searched, t.Ok := by
  intro t ht
  rcases List.mem_cons.1 ht with rfl | ht
  · have hmem : Tok.str revocationsName ∈ d.toks := by simp [Document.toks]
    exact h.toks _ hmem
  · exact h.toks t ((List.dropWhile_sublist _).subset (List.mem_of_mem_tail ht))

theorem tail_eq (h : d.Ok) :
    revocationsTail d.text = some (render (.str revocationsName :: d.searched)) := by
  unfold revocationsTail Document.text
  rw [quoted_eq, show utf8 "revocations" = revocationsName from rfl,
    seek_render isName_revocations h.toks]
  have hmem : Tok.str revocationsName ∈ d.toks := by simp [Document.toks]
  unfold Document.searched
  cases hd : d.toks.dropWhile fun t => !t.ends revocationsName with
  | nil =>
    have hnone := List.dropWhile_eq_nil_iff.1 hd _ hmem
    rw [ends_section] at hnone
    cases hnone
  | cons t ts => rfl

/-! ### The own id -/

theorem revokesSelf_iff (h : d.Ok) (hn : 1 ≤ n) :
    revokesSelf n d.text = true ↔ Hit n d.searched := by
  have hok := searched_ok h
  have hcolon : utf8 "\"relay_id\":" = JsonText.quoted relayIdName ++ utf8 ":" := by decide
  have hspace : utf8 "\"relay_id\": " = JsonText.quoted relayIdName ++ utf8 ": " := by decide
  have hne : n ≠ 0 := by omega
  -- the name of the section is no hit
  have hfirst : ∀ pre t post, Tok.str revocationsName :: d.searched = pre ++ t :: post →
      t.ends relayIdName = true → ∃ pre', d.searched = pre' ++ t :: post := by
    intro pre t post heq ht
    cases pre with
    | nil =>
      rw [← (List.cons.inj heq).1] at ht
      exact absurd ht (by decide)
    | cons u pre => exact ⟨pre, (List.cons.inj heq).2⟩
  unfold revokesSelf
  rw [tail_eq h]
  simp only [hcolon, hspace, List.append_assoc, Bool.and_eq_true, Bool.or_eq_true,
    decide_eq_true_eq, seek_isSome_iff isName_relayId hok]
  constructor
  · rintro ⟨-, ⟨pre, t, post, heq, ht, hw⟩ | ⟨pre, t, post, heq, ht, hw⟩⟩
    · obtain ⟨pre', hpre'⟩ := hfirst pre t post heq ht
      exact ⟨pre', t, post, hpre', ht, .inl hw⟩
    · obtain ⟨pre', hpre'⟩ := hfirst pre t post heq ht
      exact ⟨pre', t, post, hpre', ht, .inr hw⟩
  · rintro ⟨pre, t, post, heq, ht, hw | hw⟩
    · exact ⟨hne, .inl ⟨.str revocationsName :: pre, t, post, by rw [heq]; rfl, ht, hw⟩⟩
    · exact ⟨hne, .inr ⟨.str revocationsName :: pre, t, post, by rw [heq]; rfl, ht, hw⟩⟩

theorem field_toks (hf : f ∈ d.fields) :
    ∃ pre post, d.pieces.flatMap Piece.toks = pre ++ f.toks ++ post := by
  obtain ⟨piece, hpiece, hfp⟩ := List.mem_flatMap.1 hf
  obtain ⟨ps, qs, hsplit⟩ := List.append_of_mem hpiece
  cases piece with
  | tok t => cases hfp
  | entry space fields =>
    obtain ⟨fs, gs, hfields⟩ := List.append_of_mem hfp
    have hjoin : ∀ (xs ys : List (List Tok)) (x : List Tok), ∃ pre post,
        [Tok.sep 0x2c].intercalate (xs ++ x :: ys) = pre ++ x ++ post := by
      intro xs ys x
      induction xs with
      | nil =>
        cases ys with
        | nil => exact ⟨[], [], by simp [List.intercalate]⟩
        | cons y ys => exact ⟨[], _, by simp [List.intercalate]; rfl⟩
      | cons z xs ih =>
        obtain ⟨pre, post, hpre⟩ := ih
        refine ⟨z ++ .sep 0x2c :: pre, post, ?_⟩
        have hstep : [Tok.sep 0x2c].intercalate (z :: (xs ++ x :: ys)) =
            z ++ .sep 0x2c :: [Tok.sep 0x2c].intercalate (xs ++ x :: ys) := by
          cases xs <;> simp [List.intercalate]
        rw [List.cons_append, hstep, hpre]
        simp
    obtain ⟨pre, post, hpre⟩ := hjoin (fs.map Field.toks) (gs.map Field.toks) f.toks
    refine ⟨ps.flatMap Piece.toks ++ .sep 0x7b :: .raw space :: pre,
      post ++ .sep 0x7d :: qs.flatMap Piece.toks, ?_⟩
    have htoks : (Piece.entry space fields).toks =
        .sep 0x7b :: .raw space :: (pre ++ f.toks ++ post ++ [Tok.sep 0x7d]) := by
      rw [Piece.toks, ← hpre]
      have hfields' : fields = fs ++ f :: gs := hfields
      rw [hfields', List.map_append, List.map_cons]
    rw [hsplit, List.flatMap_append, List.flatMap_cons, htoks]
    simp

theorem Field.Plain.hit (h : f.Plain n) (hf : f ∈ d.fields) : Hit n d.searched := by
  obtain ⟨ts, hts, -⟩ := searched_eq d
  obtain ⟨pre, post, hsection⟩ := field_toks hf
  refine ⟨ts ++ pre ++ [Tok.raw f.lead], .str f.key, [Tok.raw f.gap, Tok.sep kColon, Tok.raw f.pad] ++
    f.value.toks ++ [Tok.raw f.trail] ++ post ++ d.closing,
    ?_, ?_, ?_⟩
  · rw [hts, hsection]
    simp [Field.toks]
  · rw [h.key]
    decide
  · rw [h.gap, h.value]
    have hcolon : utf8 ":" = [kColon] := by decide
    have hspace : utf8 ": " = kColon :: utf8 " " := by decide
    rcases h.pad with hpad | hpad
    · rw [hpad, hcolon]
      left
      exact ⟨f.trail ++ (render post ++ render d.closing), by simp [Value.toks, Tok.text]⟩
    · rw [hpad, hspace]
      right
      exact ⟨f.trail ++ (render post ++ render d.closing), by simp [Value.toks, Tok.text]⟩

theorem Field.Plain.isId (h : f.Plain n) (hd : Decodes decode) : f.IsId decode n := by
  refine ⟨?_, h.value⟩
  rw [hd f.key (by rw [h.key]; decide), h.key]

/-! ### The fingerprints -/

/-- The scan finds these fingerprints in the tokens. -/
inductive Scan : List Tok → List Bytes → Prop
  | nil : Scan [] []
  | skip {t : Tok} {ts : List Tok} {fps : List Bytes} : t.ends fingerprintName = false →
      Scan ts fps → Scan (t :: ts) fps
  | found (gap pad : Bytes) {fp : Bytes} {ts : List Tok} {fps : List Bytes} : quote ∉ fp →
      Scan ts fps →
      Scan (.str fingerprintName :: .raw gap :: .sep kColon :: .raw pad :: .str fp :: ts) (fp :: fps)

theorem Scan.append (h : Scan ts fps) (h' : Scan us gps) : Scan (ts ++ us) (fps ++ gps) := by
  induction h with
  | nil => exact h'
  | skip ht _ ih => exact .skip ht ih
  | found gap pad hfp _ ih => exact .found gap pad hfp ih

theorem scan_quiet (h : ∀ t ∈ ts, t.ends fingerprintName = false) : Scan ts [] := by
  induction ts with
  | nil => exact .nil
  | cons t ts ih =>
    exact .skip (h t (List.mem_cons_self ..)) (ih fun u hu => h u (List.mem_cons_of_mem _ hu))

theorem scanPeers_congr {s s' : Bytes}
    (h : seek (Bundle.quoted fingerprintName) s = seek (Bundle.quoted fingerprintName) s')
    (fuel : ℕ) : scanPeers fuel s = scanPeers fuel s' := by
  cases fuel with
  | zero => rfl
  | succ fuel =>
    unfold scanPeers
    rw [show utf8 "peer_fingerprint" = fingerprintName from rfl, h]

theorem scanPeers_found {gap pad fp : Bytes} (hgap : kColon ∉ gap) (hpad : kQuote ∉ pad)
    (hfp : kQuote ∉ fp) {s rest : Bytes} (fuel : ℕ)
    (h : seek (Bundle.quoted fingerprintName) s = some (Bundle.quoted fingerprintName ++
      (gap ++ kColon :: (pad ++ kQuote :: (fp ++ kQuote :: rest))))) :
    scanPeers (fuel + 1) s = fp :: scanPeers fuel rest := by
  have hcolon : skipTo kColon (Bundle.quoted fingerprintName ++
      (gap ++ kColon :: (pad ++ kQuote :: (fp ++ kQuote :: rest)))) =
      kColon :: (pad ++ kQuote :: (fp ++ kQuote :: rest)) := by
    have hname : kColon ∉ Bundle.quoted fingerprintName := by decide
    rw [← List.append_assoc]
    apply Text.skipTo_append
    rw [List.mem_append, not_or]
    exact ⟨hname, hgap⟩
  have hopen : skipTo kQuote (kColon :: (pad ++ kQuote :: (fp ++ kQuote :: rest))) =
      kQuote :: (fp ++ kQuote :: rest) := by
    rw [← List.cons_append]
    apply Text.skipTo_append
    rw [List.mem_cons, not_or]
    exact ⟨by decide, hpad⟩
  have hclose : skipTo kQuote (fp ++ kQuote :: rest) = kQuote :: rest :=
    Text.skipTo_append hfp rest
  have htake : (fp ++ kQuote :: rest).takeWhile (fun c => decide (c ≠ kQuote)) = fp := by
    rw [List.takeWhile_append_of_pos]
    · simp
    · intro b hb
      apply decide_eq_true
      rintro rfl
      exact hfp hb
  conv_lhs => unfold scanPeers
  rw [show utf8 "peer_fingerprint" = fingerprintName from rfl, h]
  dsimp only
  rw [hcolon, hopen]
  dsimp only
  rw [hclose, htake]

theorem ends_fingerprint : (Tok.str fingerprintName).ends fingerprintName = true := by decide

theorem Scan.peers (h : Scan toks fps) (hok : ∀ t ∈ toks, t.Ok) {fuel : ℕ}
    (hfuel : (render toks).length ≤ fuel) : scanPeers fuel (render toks) = fps := by
  induction h generalizing fuel with
  | nil => cases fuel <;> rfl
  | @skip t ts fps ht _ ih =>
    have hok' : ∀ t ∈ ts, t.Ok := fun u hu => hok u (List.mem_cons_of_mem _ hu)
    have hseek : seek (Bundle.quoted fingerprintName) (render (t :: ts)) =
        seek (Bundle.quoted fingerprintName) (render ts) := by
      rw [quoted_eq, seek_render isName_fingerprint hok, seek_render isName_fingerprint hok',
        List.dropWhile_cons, ht]
      rfl
    rw [scanPeers_congr hseek]
    apply ih hok'
    rw [render_cons, List.length_append] at hfuel
    omega
  | @found gap pad fp ts fps hfp _ ih =>
    have hgap : (Tok.raw gap).Ok := hok _ (by simp)
    have hpad : (Tok.raw pad).Ok := hok _ (by simp)
    have hcolon : kColon ∉ gap := fun hmem => absurd (hgap kColon hmem) (by decide)
    have hquote : kQuote ∉ pad := fun hmem => absurd (hpad kQuote hmem) (by decide)
    have hrest : ∀ t ∈ ts, t.Ok := fun u hu => hok u (by simp [hu])
    have hseek : seek (Bundle.quoted fingerprintName) (render (.str fingerprintName :: .raw gap ::
        .sep kColon :: .raw pad :: .str fp :: ts)) = some (Bundle.quoted fingerprintName ++
          (gap ++ kColon :: (pad ++ kQuote :: (fp ++ kQuote :: render ts)))) := by
      rw [quoted_eq, seek_render isName_fingerprint hok, List.dropWhile_cons, ends_fingerprint]
      simp [Tok.text, quote, kQuote]
    obtain ⟨fuel, rfl⟩ : ∃ k, fuel = k + 1 := by
      refine ⟨fuel - 1, ?_⟩
      simp only [render_cons, Tok.text, List.length_append, List.length_cons] at hfuel
      omega
    rw [scanPeers_found hcolon hquote hfp fuel hseek, ih hrest]
    simp only [render_cons, Tok.text, List.length_append, List.length_cons] at hfuel
    omega

theorem noQuote_of_escaped {body : Bytes} (h : Escaped body) (hb : backslash ∉ body) :
    quote ∉ body := by
  induction h with
  | nil => nofun
  | plain hq _ _ ih =>
    rw [List.mem_cons, not_or] at hb ⊢
    exact ⟨Ne.symm hq, ih hb.2⟩
  | pair c _ _ => simp at hb

theorem Field.Orderly.scan (h : f.Orderly decode) (hd : Decodes decode) (hok : ∀ t ∈ f.toks, t.Ok) :
    Scan f.toks (f.fingerprint decode).toList := by
  rcases h with ⟨hkey, body, hvalue, hb⟩ | ⟨hquiet, hnone⟩
  · have hfp : f.fingerprint decode = some body := by
      unfold Field.fingerprint
      rw [hvalue, hkey]
      dsimp only
      rw [if_pos (hd _ (by decide)), hd body hb]
    have htoks : f.toks = [.raw f.lead, .str fingerprintName, .raw f.gap, .sep kColon, .raw f.pad,
        .str body, .raw f.trail] := by
      simp [Field.toks, hkey, hvalue, Value.toks]
    have hbody : (Tok.str body).Ok := hok _ (by simp [htoks])
    rw [htoks, hfp]
    exact .skip rfl (.found f.gap f.pad (noQuote_of_escaped hbody hb) (.skip rfl .nil))
  · rw [hnone]
    exact scan_quiet hquiet

theorem scan_fields {fields : List Field} (hd : Decodes decode)
    (hord : ∀ f ∈ fields, f.Orderly decode) (hok : ∀ f ∈ fields, ∀ t ∈ f.toks, t.Ok) :
    Scan ([Tok.sep 0x2c].intercalate (fields.map Field.toks))
      (fields.filterMap (Field.fingerprint decode)) := by
  induction fields with
  | nil => exact .nil
  | cons f fields ih =>
    have hhead := (hord f (by simp)).scan hd (hok f (by simp))
    have hrest := ih (fun g hg => hord g (by simp [hg])) fun g hg => hok g (by simp [hg])
    have hsplit : (f :: fields).filterMap (Field.fingerprint decode) =
        (f.fingerprint decode).toList ++ fields.filterMap (Field.fingerprint decode) := by
      cases hf : f.fingerprint decode <;> simp [hf]
    rw [hsplit]
    cases fields with
    | nil => simpa [List.intercalate] using hhead
    | cons g fields =>
      have hjoin : [Tok.sep 0x2c].intercalate ((f :: g :: fields).map Field.toks) =
          f.toks ++ .sep 0x2c :: [Tok.sep 0x2c].intercalate ((g :: fields).map Field.toks) := by
        simp [List.intercalate]
      rw [hjoin]
      exact hhead.append (.skip rfl hrest)

theorem scan_section {pieces : List Piece} (hd : Decodes decode)
    (hbetween : ∀ t, .tok t ∈ pieces → t.ends fingerprintName = false)
    (hord : ∀ f ∈ pieces.flatMap Piece.fields, f.Orderly decode)
    (hok : ∀ f ∈ pieces.flatMap Piece.fields, ∀ t ∈ f.toks, t.Ok) :
    Scan (pieces.flatMap Piece.toks)
      ((pieces.flatMap Piece.fields).filterMap (Field.fingerprint decode)) := by
  induction pieces with
  | nil => exact .nil
  | cons piece pieces ih =>
    simp only [List.flatMap_cons, List.mem_append] at hord hok ⊢
    have hrest := ih (fun t ht => hbetween t (List.mem_cons_of_mem _ ht))
      (fun f hf => hord f (.inr hf)) fun f hf => hok f (.inr hf)
    rw [List.filterMap_append]
    refine Scan.append ?_ hrest
    cases piece with
    | tok t => exact .skip (hbetween t (List.mem_cons_self ..)) .nil
    | entry space fields =>
      have hfields := scan_fields hd (fun f hf => hord f (.inl hf)) fun f hf => hok f (.inl hf)
      have hclosed := hfields.append (.skip (t := .sep 0x7d) rfl .nil)
      rw [List.append_nil] at hclosed
      exact .skip rfl (.skip rfl hclosed)

theorem revokedFingerprints_eq (hdec : Decodes decode) (hd : d.Ok) (h : Spelled decode n d) :
    revokedFingerprints d.text = d.fingerprints decode := by
  have hok := searched_ok hd
  have hfields : ∀ f ∈ d.fields, ∀ t ∈ f.toks, t.Ok := by
    intro f hf t ht
    obtain ⟨pre, post, hsection⟩ := field_toks hf
    apply hd.toks
    simp [Document.toks, hsection, ht]
  obtain ⟨ts, hts, hbefore⟩ := searched_eq d
  have hquiet : ∀ t ∈ ts, t.ends fingerprintName = false := by
    intro t ht
    rcases hbefore t ht with hmem | rfl
    · exact h.before t hmem
    · decide
  have hafter := (scan_section hdec h.between h.fields hfields).append (scan_quiet h.after)
  have hscan : Scan (.str revocationsName :: d.searched) (d.fingerprints decode) := by
    rw [hts]
    have hwhole := (scan_quiet hquiet).append hafter
    rw [List.nil_append, List.append_nil] at hwhole
    exact .skip (by decide) hwhole
  unfold revokedFingerprints
  rw [tail_eq hd]
  exact hscan.peers hok le_rfl

theorem revokesSelf_iff_revokes (hdec : Decodes decode) (hd : d.Ok) (hn : 1 ≤ n)
    (h : Spelled decode n d) : revokesSelf n d.text = true ↔ d.Revokes decode n := by
  rw [revokesSelf_iff hd hn]
  rcases h.ids with ⟨f, hf, hplain⟩ | ⟨hnot, hmiss⟩
  · exact iff_of_true (hplain.hit hf) ⟨f, hf, hplain.isId hdec⟩
  · exact iff_of_false hmiss hnot

theorem revocations_exact {fc : FleetController} (hdec : Decodes decode) (hd : d.Ok)
    (hid : 1 ≤ fc.relayId) (h : Spelled decode fc.relayId d) : Exact decode fc d :=
  ⟨revokesSelf_iff_revokes hdec hd hid h, revokedFingerprints_eq hdec hd h⟩

/-! ### Relays 1 and 10 -/

def firstMembers : List Tok :=
  [.str (utf8 "fleet_id"), .sep kColon, .str (utf8 "f"), .sep 0x2c,
    .str (utf8 "version"), .sep kColon, .raw (utf8 "1"), .sep 0x2c]

def ownId : Field := { key := relayIdName, pad := utf8 " ", value := .lit (utf8 "1") }

def peerId : Field := { key := fingerprintName, value := .str (utf8 "ck_01") }

def oneRevoked : Document where
  before := firstMembers
  revocations := .lists []
    [{ key := utf8 "relays", content := .items [] [.entry [] [] [ownId] []] },
      { key := utf8 "peers", content := .items [] [.entry [] [] [peerId] []] }]
  after := []

theorem oneRevoked_fields : oneRevoked.fields = [ownId, peerId] := rfl

theorem oneRevoked_ok : oneRevoked.Ok where
  toks := by decide +kernel
  lead := nofun
  before := by decide
  gap := nofun
  pad := nofun
  revocations := by
    have hentry : ∀ f : Field, f.Ok → (Item.entry [] [] [f] []).Ok := fun f hf =>
      ⟨nofun, nofun, fun g hg => List.mem_singleton.1 hg ▸ hf, nofun⟩
    have hown : ownId.Ok := ⟨nofun, nofun, by unfold Spaces; decide +kernel,
      ⟨by decide +kernel, by decide +kernel⟩, nofun⟩
    have hpeer : peerId.Ok := ⟨nofun, nofun, nofun, trivial, nofun⟩
    have hitems : ∀ item : Item, item.Ok → (Content.items [] [item]).Ok := fun item hitem =>
      ⟨nofun, fun i hi => List.mem_singleton.1 hi ▸ hitem⟩
    simp only [oneRevoked, Section.Ok, List.forall_mem_cons]
    exact ⟨nofun, ⟨nofun, nofun, nofun, hitems _ (hentry _ hown), nofun⟩,
      ⟨nofun, nofun, nofun, hitems _ (hentry _ hpeer), nofun⟩, nofun⟩
  after := rfl
  trail := nofun

theorem oneRevoked_spelled : Spelled id 1 oneRevoked where
  ids := .inl ⟨ownId, by rw [oneRevoked_fields]; exact List.mem_cons_self .., rfl, rfl, .inr rfl, rfl⟩
  before := by decide
  between := by
    have hquiet : (oneRevoked.pieces.all fun
      | .tok t => !t.ends fingerprintName
      | .entry _ _ => true) = true := by decide
    intro t ht
    simpa using List.all_eq_true.1 hquiet _ ht
  fields := by
    rw [oneRevoked_fields]
    intro f hf
    rcases List.mem_pair.1 hf with rfl | rfl
    · exact .inr ⟨by decide, rfl⟩
    · exact .inl ⟨rfl, utf8 "ck_01", rfl, by decide⟩
  after := by decide

theorem revocations_exact_one :
    Exact id { relayId := 1 } oneRevoked ∧ oneRevoked.fingerprints id = [utf8 "ck_01"] :=
  ⟨revocations_exact (fun _ _ => rfl) oneRevoked_ok le_rfl oneRevoked_spelled, by
    rw [Document.fingerprints, oneRevoked_fields]
    decide⟩

def tenRevoked : Document where
  before := firstMembers
  revocations := .list [] [.entry [] [] [{ key := relayIdName, value := .lit (utf8 "10") }] []]
  after := []

def tenBundle : Bytes :=
  utf8 ("\x7b\"fleet_id\":\"f\",\"version\":1,\"signature_b64\":\"WzWFoqu/3LGxdK/PZHglf6+EUMF" ++
    "7pFZFurMU6rIYou6XiLaChvz0DoSMlrBJN6LiLDJLKDyXFx5qYtAeHFoIAQ==\",\"signed_body_b64\":" ++
    "\"eyJmbGVldF9pZCI6ImYiLCJ2ZXJzaW9uIjoxLCJyZXZvY2F0aW9ucyI6W3sicmVsYXlfaWQiOjEwfV19\"\x7d")

def tenPubkeyB64 : Bytes := utf8 "11qYAYKxCrfVS/7TyWQHOg7hcvPapiMlrwIaaPcHURo="

def tenSodium : Sodium where
  verifyDetached sig msg pk :=
    decide (b64Decode tenPubkeyB64 = some pk) &&
      (parseOuter tenBundle).any fun outer =>
        decide (b64Decode outer.signedB64 = some msg) && decide (b64Decode outer.sigB64 = some sig)
  hex2bin _ := none

def relayOne : FleetController :=
  { config := { signingPubkeyB64 := tenPubkeyB64, fleetId := utf8 "f" }, relayId := 1 }

theorem tenRevoked_ok : tenRevoked.Ok where
  toks := by decide +kernel
  lead := nofun
  before := by decide
  gap := nofun
  pad := nofun
  revocations := by
    refine ⟨nofun, fun item hitem => ?_⟩
    rw [List.mem_singleton.1 hitem]
    refine ⟨nofun, nofun, fun f hf => ?_, nofun⟩
    rw [List.mem_singleton.1 hf]
    exact ⟨nofun, nofun, nofun, ⟨by decide +kernel, by decide +kernel⟩, nofun⟩
  after := rfl
  trail := nofun

/-- Relay 1 takes the id 10 for its own. -/
theorem ten_taken_for_one : ¬∀ (decode : Bytes → Bytes) (sodium : Sodium) (fc : FleetController)
    (body : Bytes) (version : ℤ) (d : Document), Decodes decode → d.Ok → 1 ≤ fc.relayId →
      checkBundle sodium fc body = .ok (d.text, version) → Exact decode fc d := by
  intro h
  have haccepted : checkBundle tenSodium relayOne tenBundle = .ok (tenRevoked.text, 1) := by
    decide +kernel
  have hself : (applyRevocations relayOne tenRevoked.text).2 = true := by decide
  have hexact := h id tenSodium relayOne tenBundle 1 tenRevoked (fun _ _ => rfl) tenRevoked_ok
    le_rfl haccepted
  obtain ⟨f, hf, -, hvalue⟩ := hexact.1.1 hself
  have hfields : tenRevoked.fields = [{ key := relayIdName, value := .lit (utf8 "10") }] := by
    simp [Document.fields, Document.pieces, tenRevoked, Section.pieces, commas, Content.pieces,
      Item.pieces, List.intercalate, Piece.fields]
  rw [hfields, List.mem_singleton] at hf
  rw [hf] at hvalue
  have hten := Value.lit.inj hvalue
  exact absurd hten (by decide)

end RevocationText

end HyperDerp
