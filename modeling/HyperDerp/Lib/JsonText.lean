import HyperDerp.Lib.Text

/-!
# Searching JSON as text

A JSON text is a sequence of tokens. A quoted name without quotes and backslashes
is found in it where a string ends in the name: the string is the name, or has an
escaped quote before it. Spaces and literals have none of the name's letters, so
the quote that ends one string and the one that begins the next are never taken
for the two around a name.
-/

namespace JsonText

open Text

def quote : UInt8 := 0x22
def backslash : UInt8 := 0x5c

inductive Escaped : Str → Prop
  | nil : Escaped []
  | plain {b : UInt8} {s : Str} : b ≠ quote → b ≠ backslash → Escaped s → Escaped (b :: s)
  | pair (c : UInt8) {s : Str} : Escaped s → Escaped (backslash :: c :: s)

def isEscaped : Str → Bool
  | [] => true
  | [b] => decide (b ≠ quote) && decide (b ≠ backslash)
  | b :: c :: s =>
    if b = backslash then isEscaped s else decide (b ≠ quote) && isEscaped (c :: s)

theorem escaped_of_isEscaped {s : Str} (h : isEscaped s = true) : Escaped s := by
  fun_induction isEscaped s with
  | case1 => exact .nil
  | case2 b =>
    simp only [Bool.and_eq_true, decide_eq_true_eq] at h
    exact .plain h.1 h.2 .nil
  | case3 c s ih => exact .pair c (ih h)
  | case4 b c s hb ih =>
    simp only [Bool.and_eq_true, decide_eq_true_eq] at h
    exact .plain h.1 hb (ih h.2)

theorem isEscaped_of_escaped {s : Str} (h : Escaped s) : isEscaped s = true := by
  induction h with
  | nil => rfl
  | @plain b s hq hb _ ih =>
    cases s with
    | nil => simp [isEscaped, hq, hb]
    | cons c s => simp [isEscaped, hq, hb, ih]
  | pair c _ ih => simp [isEscaped, ih]

instance (s : Str) : Decidable (Escaped s) :=
  decidable_of_iff (isEscaped s = true) ⟨escaped_of_isEscaped, isEscaped_of_escaped⟩

inductive Tok where
  | sep (c : UInt8)
  /-- a number, a truth value, null or spaces -/
  | raw (text : Str)
  | str (body : Str)

def isSep (c : UInt8) : Bool := (utf8 "\x7b\x7d[],:").contains c

def isRaw (c : UInt8) : Bool := (utf8 " \t\n\r0123456789+-.eEtrufalsn").contains c

def Tok.Ok : Tok → Prop
  | .sep c => isSep c = true
  | .raw text => ∀ c ∈ text, isRaw c = true
  | .str body => Escaped body

instance : (t : Tok) → Decidable t.Ok
  | .sep c => inferInstanceAs (Decidable (isSep c = true))
  | .raw text => inferInstanceAs (Decidable (∀ c ∈ text, isRaw c = true))
  | .str body => inferInstanceAs (Decidable (Escaped body))

def Tok.text : Tok → Str
  | .sep c => [c]
  | .raw text => text
  | .str body => quote :: body ++ [quote]

def render (toks : List Tok) : Str := toks.flatMap Tok.text

def nested : List UInt8 → List Tok → Bool
  | [], [] => true
  | _ :: _, [] => false
  | stack, .sep c :: ts =>
    if c = 0x5b then nested (0x5d :: stack) ts
    else if c = 0x7b then nested (0x7d :: stack) ts
    else if c = 0x5d ∨ c = 0x7d then
      match stack with
      | [] => false
      | closing :: stack => decide (c = closing) && nested stack ts
    else nested stack ts
  | stack, .raw _ :: ts | stack, .str _ :: ts => nested stack ts

def Tok.ends (name : Str) : Tok → Bool
  | .str body => (quote :: name).isSuffixOf (quote :: body)
  | .sep _ | .raw _ => false

def quoted (name : Str) : Str := quote :: name ++ [quote]

structure IsName (name : Str) : Prop where
  noQuote : quote ∉ name
  noBackslash : backslash ∉ name
  letter : ∃ c ∈ name, isRaw c = false ∧ isSep c = false

variable {name u v rest : Str} {t : Tok} {toks ts : List Tok}

@[simp] theorem render_nil : render [] = [] := rfl

@[simp] theorem render_cons (t : Tok) (ts : List Tok) : render (t :: ts) = t.text ++ render ts :=
  List.flatMap_cons

@[simp] theorem render_append (ts us : List Tok) : render (ts ++ us) = render ts ++ render us :=
  List.flatMap_append

theorem Escaped.after_quote {s : Str} (h : Escaped s) (hs : s = u ++ quote :: v) : Escaped v := by
  induction h generalizing u with
  | nil => simp at hs
  | plain hq _ _ ih =>
    cases u with
    | nil => exact absurd (List.cons.inj hs).1 hq
    | cons c u => exact ih (List.cons.inj hs).2
  | pair c h ih =>
    match u with
    | [] => exact absurd (List.cons.inj hs).1 (by decide)
    | [_] =>
      rw [← (List.cons.inj (List.cons.inj hs).2).2]
      exact h
    | _ :: _ :: u => exact ih (List.cons.inj (List.cons.inj hs).2).2

theorem Escaped.eq_name {s r : Str} (h : Escaped s) (hq : quote ∉ name) (hb : backslash ∉ name)
    (heq : s ++ quote :: r = name ++ quote :: rest) : s = name ∧ r = rest := by
  induction h generalizing name with
  | nil =>
    cases name with
    | nil => exact ⟨rfl, (List.cons.inj heq).2⟩
    | cons c name =>
      rw [(List.cons.inj heq).1] at hq
      exact absurd (List.mem_cons_self ..) hq
  | plain hne _ _ ih =>
    cases name with
    | nil => exact absurd (List.cons.inj heq).1 hne
    | cons c name =>
      rw [List.mem_cons, not_or] at hq hb
      obtain ⟨hc, htail⟩ := List.cons.inj heq
      obtain ⟨hs, hr⟩ := ih hq.2 hb.2 htail
      rw [hc, hs]
      exact ⟨rfl, hr⟩
  | pair c _ _ =>
    cases name with
    | nil => exact absurd (List.cons.inj heq).1 (by decide)
    | cons c name =>
      rw [(List.cons.inj heq).1] at hb
      exact absurd (List.mem_cons_self ..) hb

theorem not_name_after (htoks : ∀ t ∈ toks, t.Ok) (hq : quote ∉ name)
    (hletter : ∃ c ∈ name, isRaw c = false ∧ isSep c = false) :
    render toks ≠ name ++ quote :: rest := by
  induction toks generalizing name with
  | nil => simp
  | cons t toks ih =>
    have ih' : ∀ name, quote ∉ name → (∃ c ∈ name, isRaw c = false ∧ isSep c = false) →
        render toks ≠ name ++ quote :: rest :=
      fun name => ih fun t ht => htoks t (List.mem_cons_of_mem _ ht)
    have ht := htoks t (List.mem_cons_self ..)
    -- the letter is not a byte of a space, a literal or a separator
    have hskip : ∀ (c : UInt8) (s name : Str), (isRaw c = true ∨ isSep c = true) → quote ∉ name →
        (∃ c ∈ name, isRaw c = false ∧ isSep c = false) →
        (∀ name', quote ∉ name' → (∃ c ∈ name', isRaw c = false ∧ isSep c = false) →
          s ≠ name' ++ quote :: rest) → c :: s ≠ name ++ quote :: rest := by
      rintro c s name hc hq ⟨d, hd, hraw, hsep⟩ hs heq
      cases name with
      | nil => cases hd
      | cons c' name =>
        obtain ⟨rfl, htail⟩ := List.cons.inj heq
        rw [List.mem_cons, not_or] at hq
        rcases List.mem_cons.1 hd with rfl | hd
        · rw [hraw, hsep] at hc
          simp at hc
        · exact hs name hq.2 ⟨d, hd, hraw, hsep⟩ htail
    rw [render_cons]
    cases t with
    | sep c => exact hskip c _ _ (.inr ht) hq hletter ih'
    | raw text =>
      simp only [Tok.text]
      clear htoks
      induction text generalizing name with
      | nil => exact ih' name hq hletter
      | cons c text ihtext =>
        have htail : (Tok.raw text).Ok := fun d hd => ht d (List.mem_cons_of_mem _ hd)
        exact hskip c _ _ (.inl (ht c (List.mem_cons_self ..))) hq hletter
          fun name' hq' hl' => ihtext hq' hl' htail
    | str body =>
      intro heq
      cases name with
      | nil =>
        obtain ⟨c, hc, -⟩ := hletter
        cases hc
      | cons c name =>
        have hc := (List.cons.inj heq).1
        rw [← hc] at hq
        exact hq (List.mem_cons_self ..)

/-! ### Where a name occurs -/

theorem quote_not_raw (h : t.Ok) (hstr : ∀ body, t ≠ .str body) : quote ∉ t.text := by
  cases t with
  | sep c =>
    intro hq
    have hsep : isSep c = true := h
    rw [← List.mem_singleton.1 hq] at hsep
    exact absurd hsep (by decide)
  | raw text => exact fun hq => absurd (h quote hq) (by decide)
  | str body => exact absurd rfl (hstr body)

structure Occurs (name : Str) (toks : List Tok) (u rest : Str) (pre : List Tok) (body : Str)
    (post : List Tok) (x : Str) : Prop where
  split : toks = pre ++ .str body :: post
  body : quote :: body = x ++ quote :: name
  before : u = render pre ++ x
  after : rest = render post

theorem occurs (hn : IsName name) (htoks : ∀ t ∈ toks, t.Ok)
    (h : render toks = u ++ quote :: (name ++ quote :: rest)) :
    ∃ pre body post x, Occurs name toks u rest pre body post x := by
  induction toks generalizing u with
  | nil => simp at h
  | cons t toks ih =>
    have ht := htoks t (List.mem_cons_self ..)
    have hok : ∀ t ∈ toks, t.Ok := fun t ht => htoks t (List.mem_cons_of_mem _ ht)
    -- an occurrence after the first token
    have hlater : ∀ u', u = t.text ++ u' →
        render toks = u' ++ quote :: (name ++ quote :: rest) →
        ∃ pre body post x, Occurs name (t :: toks) u rest pre body post x := by
      intro u' hu hrest
      obtain ⟨pre, body, post, x, ho⟩ := ih hok hrest
      refine ⟨t :: pre, body, post, x, ?_, ho.body, ?_, ho.after⟩
      · rw [ho.split, List.cons_append]
      · rw [hu, ho.before, render_cons, List.append_assoc]
    rw [render_cons] at h
    by_cases hstr : ∃ body, t = .str body
    · obtain ⟨body, rfl⟩ := hstr
      have hbody : Escaped body := ht
      simp only [Tok.text, List.cons_append, List.append_assoc, List.nil_append] at h
      cases u with
      | nil =>
        obtain ⟨hb, hr⟩ := hbody.eq_name hn.noQuote hn.noBackslash (List.cons.inj h).2
        exact ⟨[], body, toks, [], rfl, by rw [hb]; rfl, rfl, hr.symm⟩
      | cons c u =>
        obtain ⟨rfl, hu⟩ := List.cons.inj h
        -- at or after the closing quote
        have hend : ∀ a, u = body ++ a → quote :: render toks =
            a ++ quote :: (name ++ quote :: rest) →
            ∃ pre body' post x, Occurs name (.str body :: toks) (quote :: u) rest pre body' post x := by
          intro a ha heq
          cases a with
          | nil => exact absurd (List.cons.inj heq).2 (not_name_after hok hn.noQuote hn.letter)
          | cons d a =>
            obtain ⟨rfl, hrest⟩ := List.cons.inj heq
            exact hlater a (by rw [ha]; simp [Tok.text]) hrest
        rcases List.append_eq_append_iff.1 hu with ⟨a, ha, heq⟩ | ⟨a, ha, heq⟩
        · exact hend a ha heq
        · cases a with
          | nil =>
            rw [List.append_nil] at ha
            exact hend [] (by rw [ha, List.append_nil]) heq.symm
          | cons d v =>
            obtain ⟨rfl, hv⟩ := List.cons.inj heq
            obtain ⟨hv, hr⟩ := (hbody.after_quote ha).eq_name hn.noQuote hn.noBackslash hv.symm
            refine ⟨[], body, toks, quote :: u, rfl, ?_, rfl, hr.symm⟩
            rw [ha, hv, List.cons_append]
    · have hq := quote_not_raw ht fun body hb => hstr ⟨body, hb⟩
      rcases List.append_eq_append_iff.1 h with ⟨a, ha, heq⟩ | ⟨a, ha, heq⟩
      · exact hlater a ha heq
      · cases a with
        | nil =>
          rw [List.append_nil] at ha
          exact hlater [] (by rw [ha, List.append_nil]) heq.symm
        | cons d a =>
          rw [ha, ← (List.cons.inj heq).1] at hq
          simp at hq

theorem Occurs.ends {pre post : List Tok} {body x : Str}
    (h : Occurs name toks u rest pre body post x) : (Tok.str body).ends name = true :=
  List.isSuffixOf_iff_suffix.2 ⟨x, h.body.symm⟩

theorem ends_some (h : t.ends name = true) :
    ∃ body x, t = .str body ∧ quote :: body = x ++ quote :: name := by
  cases t with
  | str body =>
    obtain ⟨x, hx⟩ := List.isSuffixOf_iff_suffix.1 h
    exact ⟨body, x, rfl, hx.symm⟩
  | sep c => cases h
  | raw text => cases h

theorem seek_render (hn : IsName name) (htoks : ∀ t ∈ toks, t.Ok) :
    seek (quoted name) (render toks) =
      match toks.dropWhile fun t => !t.ends name with
      | [] => none
      | _ :: post => some (quoted name ++ render post) := by
  have hquoted : ∀ r, quoted name ++ r = quote :: (name ++ quote :: r) := by
    intro r
    simp [quoted]
  have hsplit := List.takeWhile_append_dropWhile (p := fun t => !t.ends name) (l := toks)
  have hpre : ∀ t ∈ toks.takeWhile fun t => !t.ends name, t.ends name = false := by
    intro t ht
    simpa using List.mem_takeWhile_imp ht
  cases hd : toks.dropWhile fun t => !t.ends name with
  | nil =>
    rw [hd, List.append_nil] at hsplit
    cases hs : seek (quoted name) (render toks) with
    | none => rfl
    | some s =>
      obtain ⟨u, rest, hocc⟩ := seek_occurs hs
      rw [hquoted] at hocc
      obtain ⟨pre, body, post, x, ho⟩ := occurs hn htoks hocc
      have hmem := hpre (.str body) (by rw [hsplit, ho.split]; simp)
      rw [ho.ends] at hmem
      cases hmem
  | cons t post =>
    have ht : t.ends name = true := by
      have hhead := List.head_dropWhile_not (fun t : Tok => !t.ends name) (l := toks)
        (by rw [hd]; nofun)
      simpa [hd] using hhead
    obtain ⟨body, x, rfl, hbody⟩ := ends_some ht
    rw [hd] at hsplit
    generalize (toks.takeWhile fun t => !t.ends name) = pre at hpre hsplit
    apply seek_first (u := render pre ++ x)
    · rw [← hsplit, hquoted, render_append, render_cons, Tok.text, hbody]
      simp
    · intro u' rest' hocc
      rw [hquoted] at hocc
      obtain ⟨pre', body', post', x', ho⟩ := occurs hn htoks hocc
      rw [ho.before, List.length_append, List.length_append]
      have hlen : (quote :: body).length = x.length + (quote :: name).length := by
        rw [hbody, List.length_append]
      have hlen' : (quote :: body').length = x'.length + (quote :: name).length := by
        rw [ho.body, List.length_append]
      rw [ho.split] at hsplit
      rcases List.append_eq_append_iff.1 hsplit with ⟨a, ha, heq⟩ | ⟨a, ha, heq⟩
      · cases a with
        | nil =>
          have hsame := (List.cons.inj heq).1
          cases hsame
          rw [ha, List.append_nil]
          omega
        | cons t a =>
          obtain ⟨rfl, -⟩ := List.cons.inj heq
          rw [ha]
          simp only [render_append, render_cons, Tok.text, List.length_append, List.length_cons]
          rw [List.length_cons] at hlen
          omega
      · cases a with
        | nil =>
          have hsame := (List.cons.inj heq).1
          cases hsame
          rw [ha, List.append_nil]
          omega
        | cons t a =>
          obtain ⟨rfl, -⟩ := List.cons.inj heq
          have hmem := hpre (.str body') (by rw [ha]; simp)
          rw [ho.ends] at hmem
          cases hmem

theorem seek_isSome_iff (hn : IsName name) (htoks : ∀ t ∈ toks, t.Ok) (w : Str) :
    (seek (quoted name ++ w) (render toks)).isSome = true ↔
      ∃ pre t post, toks = pre ++ t :: post ∧ t.ends name = true ∧ w <+: render post := by
  constructor
  · intro h
    obtain ⟨s, hs⟩ := Option.isSome_iff_exists.1 h
    obtain ⟨u, rest, hocc⟩ := seek_occurs hs
    have heq : render toks = u ++ quote :: (name ++ quote :: (w ++ rest)) := by
      rw [hocc]
      simp [quoted]
    obtain ⟨pre, body, post, x, ho⟩ := occurs hn htoks heq
    exact ⟨pre, .str body, post, ho.split, ho.ends, rest, ho.after⟩
  · rintro ⟨pre, t, post, rfl, ht, rest, hw⟩
    obtain ⟨body, x, rfl, hbody⟩ := ends_some ht
    have heq : render (pre ++ .str body :: post) =
        (render pre ++ x) ++ ((quoted name ++ w) ++ rest) := by
      rw [render_append, render_cons, Tok.text, hbody, ← hw]
      simp [quoted]
    rw [heq]
    exact seek_isSome ..

end JsonText
