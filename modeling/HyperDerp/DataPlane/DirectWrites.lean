import HyperDerp.DataPlane.SendStream
import HyperDerp.Lib.Concat

/-!
# Direct writes beside the send queue (`control_plane.cc:916-1012`, `einheit_channel.cc:552-598`)

A peer's worker sends from the queue of the peer. The control thread and the threads of the
administration write their frames to the descriptor themselves, in a loop that goes on after a
partial write. Nothing keeps the calls of two writers apart.
-/

namespace HyperDerp.DirectWrites

/-- Where the loop of `WriteFullFrame` stands, and that of `WriteAll` in the handshake. -/
structure WriteFullFrame where
  buf : Bytes
  total : ℕ := 0

/-- What `write` returns: a count, `EINTR` or `EAGAIN`, and everything else. -/
inductive Wrote where
  | bytes (w : ℕ)
  | again
  | failed

/-- One turn of the loop, `none` where the function returns. -/
def WriteFullFrame.turn (f : WriteFullFrame) : Wrote → Option WriteFullFrame
  | .again => some f
  | .failed => none
  | .bytes w => if f.total + w < f.buf.length then some { f with total := f.total + w } else none

/-- A peer's socket, the worker that owns it and the threads that write to it. -/
structure State (T : Type) where
  sys : SendSys
  writers : T → Option WriteFullFrame := fun _ => none
  /-- What the peer receives. -/
  stream : Bytes := []
  /-- The frames that `EnqueueSend` took. -/
  taken : List Bytes := []
  /-- The frames that the threads set out to write. -/
  direct : List Bytes := []
  /-- A thread gave up in the middle of a frame. -/
  cut : Bool := false

inductive Label (T : Type) where
  | worker (l : SendStep)
  | start (t : T) (frame : Bytes)
  | write (t : T) (r : Wrote)

variable {T : Type}

def State.frames (s : State T) : List Bytes := s.taken ++ s.direct

def Wrote.possible (f : WriteFullFrame) : Wrote → Prop
  | .bytes w => 0 < w ∧ f.total + w ≤ f.buf.length
  | _ => True

instance (f : WriteFullFrame) : (r : Wrote) → Decidable (r.possible f)
  | .bytes w => inferInstanceAs (Decidable (0 < w ∧ f.total + w ≤ f.buf.length))
  | .again | .failed => isTrue trivial

def Wrote.put (f : WriteFullFrame) : Wrote → Bytes
  | .bytes w => (f.buf.drop f.total).take w
  | _ => []

section System

variable (p : Slot) (fd : Fd)

def takenAfter (s : State T) : SendStep → List Bytes
  | .enqueue data =>
    if (enqueueSend s.sys.w p data).stats.drops = s.sys.w.stats.drops then s.taken ++ [data]
    else s.taken
  | _ => s.taken

variable [DecidableEq T]

def step (s : State T) : Label T → Option (State T)
  | .worker l => (SendSys.step p fd s.sys l).map fun sys =>
      { s with
        sys := sys
        stream := s.stream ++ sys.sock.drop s.sys.sock.length
        taken := takenAfter p s l }
  | .start t frame =>
    match s.writers t with
    | some _ => none
    | none =>
      if frame = [] then some s
      else some { s with
        writers := Function.update s.writers t (some ⟨frame, 0⟩)
        direct := s.direct ++ [frame] }
  | .write t r =>
    match s.writers t with
    | none => none
    | some f =>
      if r.possible f then
        some { s with
          writers := Function.update s.writers t (f.turn r)
          stream := s.stream ++ r.put f
          cut := s.cut || (match r with
            | .failed => decide (0 < f.total)
            | _ => false) }
      else none

end System

structure Init (p : Slot) (fd : Fd) (s : State T) : Prop where
  fresh : s.sys.Fresh p fd
  writers : ∀ t, s.writers t = none
  stream : s.stream = []
  taken : s.taken = []
  direct : s.direct = []
  cut : s.cut = false

def State.MidFrame (s : State T) (t : T) : Prop := ∃ f, s.writers t = some f ∧ 0 < f.total

def State.Between (s : State T) : Prop := ∃ ts, ts <+: s.taken ∧ s.sys.sock = ts.flatten

def State.Quiet (s : State T) : Prop := s.Between ∧ (∀ t, ¬s.MidFrame t) ∧ s.cut = false

/-- The peer receives whole frames, and behind them the beginning of one at most. -/
def Whole (s : State T) : Prop :=
  ∃ (fs : List Bytes) (part : Bytes), (∀ f ∈ fs, f ∈ s.frames) ∧ s.stream = fs.flatten ++ part ∧
    (part = [] ∨ ∃ f ∈ s.frames, part <+: f ∧ part ≠ f) ∧ (s.Quiet → part = [])

def TakesBytes : SendStep → Prop
  | .exec (.again _) => False
  | .exec _ => True
  | _ => False

/-- The worker's own sends are in order, and who puts bytes on the socket finds no frame of
another writer there in part. -/
def Turn (p : Slot) (s : State T) : Label T → Prop
  | .worker l => s.sys.stepOk p l ∧ (TakesBytes l → s.cut = false ∧ ∀ t, ¬s.MidFrame t)
  | .write t (.bytes _) => s.cut = false ∧ s.Between ∧ ∀ u, u ≠ t → ¬s.MidFrame u
  | _ => True

/-! ### The worker's bytes -/

section

variable {p : Slot} {fd : Fd}

theorem step_sock {s s' : SendSys} {l : SendStep} (hs : SendSys.step p fd s l = some s') :
    s.sock <+: s'.sock ∧ (¬TakesBytes l → s'.sock = s.sock) := by
  unfold SendSys.step at hs
  cases l with
  | enqueue data | flush | pollWrite | notif =>
    cases hs
    exact ⟨List.prefix_rfl, fun _ => rfl⟩
  | exec o =>
    dsimp only at hs
    split at hs
    · cases hs
    cases o with
    | full =>
      cases hs
      exact ⟨List.prefix_append .., fun hno => absurd trivial hno⟩
    | short n =>
      dsimp only at hs
      split at hs
      · cases hs
        exact ⟨List.prefix_append .., fun hno => absurd trivial hno⟩
      · cases hs
    | again r =>
      cases hs
      exact ⟨List.prefix_rfl, fun _ => rfl⟩
  | complete more =>
    dsimp only at hs
    split at hs
    · cases hs
    · cases hs
      exact ⟨List.prefix_rfl, fun _ => rfl⟩

theorem step_enq {s : State T} {sys : SendSys} {l : SendStep}
    (hs : SendSys.step p fd s.sys l = some sys) (h : s.sys.enq = s.taken.flatten) :
    sys.enq = (takenAfter p s l).flatten := by
  unfold SendSys.step at hs
  cases l with
  | enqueue data =>
    cases hs
    simp only [takenAfter]
    split
    · rw [h, List.flatten_append, List.flatten_singleton]
    · exact h
  | flush | pollWrite | notif =>
    cases hs
    exact h
  | exec o =>
    dsimp only at hs
    split at hs
    · cases hs
    cases o with
    | full | again r =>
      cases hs
      exact h
    | short n =>
      dsimp only at hs
      split at hs
      · cases hs
        exact h
      · cases hs
  | complete more =>
    dsimp only at hs
    split at hs
    · cases hs
    · cases hs
      exact h

theorem takenAfter_grow (p : Slot) (s : State T) (l : SendStep) :
    s.taken <+: takenAfter p s l := by
  unfold takenAfter
  split
  · split
    · exact List.prefix_append ..
    · exact List.prefix_rfl
  · exact List.prefix_rfl

theorem takenAfter_takes {s : State T} {l : SendStep} (h : TakesBytes l) :
    takenAfter p s l = s.taken := by
  cases l with
  | exec o => rfl
  | enqueue _ | flush | pollWrite | complete _ | notif => exact h.elim

end

/-! ### The frame on the socket in part -/

section

variable {p : Slot} {fd : Fd} {s s' : State T} {part : Bytes}

theorem mem_frames_taken {f : Bytes} (h : f ∈ s.taken) : f ∈ s.frames :=
  List.mem_append_left _ h

theorem mem_frames_direct {f : Bytes} (h : f ∈ s.direct) : f ∈ s.frames :=
  List.mem_append_right _ h

theorem frames_grow {taken direct : List Bytes} (htaken : s.taken <+: taken)
    (hdirect : s.direct <+: direct) : s.frames ⊆ taken ++ direct := by
  intro f hf
  obtain hf | hf := List.mem_append.mp hf
  · exact List.mem_append_left _ (htaken.subset hf)
  · exact List.mem_append_right _ (hdirect.subset hf)

inductive Place (s : State T) (part : Bytes) : Prop
  | worker (ts : List Bytes) : ts <+: s.taken → s.sys.sock = ts.flatten ++ part →
      Concat.Tail s.taken ts part → (∀ t, ¬s.MidFrame t) → s.cut = false → Place s part
  | thread (t : T) (f : WriteFullFrame) : s.writers t = some f → 0 < f.total →
      part = f.buf.take f.total → s.Between → (∀ u, u ≠ t → ¬s.MidFrame u) → s.cut = false →
      Place s part
  | cut (f : Bytes) : s.cut = true → f ∈ s.frames → part <+: f → part ≠ f → Place s part

structure Inv (p : Slot) (fd : Fd) (s : State T) : Prop where
  order : s.sys.InOrder p fd
  enq : s.sys.enq = s.taken.flatten
  writers : ∀ t f, s.writers t = some f → f.buf ∈ s.direct ∧ f.total < f.buf.length
  place : ∃ (fs : List Bytes) (part : Bytes), (∀ f ∈ fs, f ∈ s.frames) ∧
    s.stream = fs.flatten ++ part ∧ Place s part

theorem between_grow (h : s.Between) (hsock : s'.sys.sock = s.sys.sock)
    (htaken : s.taken <+: s'.taken) : s'.Between := by
  obtain ⟨ts, hts, heq⟩ := h
  exact ⟨ts, hts.trans htaken, hsock.trans heq⟩

theorem Place.keep (h : Place s part) (hsock : s'.sys.sock = s.sys.sock)
    (htaken : s.taken <+: s'.taken) (hdirect : s.direct <+: s'.direct) (hcut : s'.cut = s.cut)
    (hmid : ∀ t f, 0 < f.total → (s'.writers t = some f ↔ s.writers t = some f)) :
    Place s' part := by
  have hback : ∀ t, s'.MidFrame t → s.MidFrame t := by
    rintro t ⟨f, hf, hpos⟩
    exact ⟨f, (hmid t f hpos).mp hf, hpos⟩
  cases h with
  | worker ts hts heq htail hno hwhole =>
    exact .worker ts (hts.trans htaken) (hsock.trans heq) (htail.mono htaken)
      (fun t ht => hno t (hback t ht)) (hcut.trans hwhole)
  | thread t f hf hpos hpart hbetween hno hwhole =>
    exact .thread t f ((hmid t f hpos).mpr hf) hpos hpart (between_grow hbetween hsock htaken)
      (fun u hu ht => hno u hu (hback u ht)) (hcut.trans hwhole)
  | cut f hgiven hf hpart hne =>
    exact .cut f (hcut.trans hgiven) (frames_grow htaken hdirect hf) hpart hne

theorem Place.of_between (h : Place s part) (hbetween : s.Between) (hwhole : s.cut = false) {t : T}
    {f : WriteFullFrame} (hf : s.writers t = some f) (hno : ∀ u, u ≠ t → ¬s.MidFrame u) :
    part = f.buf.take f.total := by
  cases h with
  | worker ts hts heq htail hnone _ =>
    obtain ⟨us, hus, hsock⟩ := hbetween
    have hzero : f.total = 0 := Nat.eq_zero_of_not_pos fun hpos => hnone t ⟨f, hf, hpos⟩
    rw [hzero, List.take_zero]
    exact htail.eq_nil hus (heq.symm.trans hsock)
  | thread u g hg hpos hpart _ _ _ =>
    by_cases hu : u = t
    · subst hu
      rw [hg] at hf
      rw [← Option.some.inj hf]
      exact hpart
    · exact absurd ⟨g, hg, hpos⟩ (hno u hu)
  | cut _ hgiven _ _ _ =>
    rw [hwhole] at hgiven
    cases hgiven

theorem Inv.whole (h : Inv p fd s) : Whole s := by
  obtain ⟨fs, part, hfs, hstream, hplace⟩ := h.place
  refine ⟨fs, part, hfs, hstream, ?_⟩
  cases hplace with
  | worker ts hts heq htail _ _ =>
    refine ⟨?_, fun ⟨⟨us, hus, hsock⟩, _⟩ => htail.eq_nil hus (heq.symm.trans hsock)⟩
    obtain hnil | ⟨f, hf, hpart⟩ := htail
    · exact .inl hnil
    · have hmem : f ∈ s.taken := hf.subset (List.mem_append_right _ (List.mem_singleton_self f))
      exact .inr ⟨f, mem_frames_taken hmem, hpart⟩
  | thread t f hf hpos hpart _ _ _ =>
    refine ⟨.inr ⟨f.buf, ?_, ?_, ?_⟩, fun ⟨_, hno, _⟩ => absurd ⟨f, hf, hpos⟩ (hno t)⟩
    · exact mem_frames_direct (h.writers t f hf).1
    · rw [hpart]
      exact List.take_prefix ..
    · intro heq
      have hlen := congrArg List.length (hpart.symm.trans heq)
      have hlt := (h.writers t f hf).2
      rw [List.length_take] at hlen
      omega
  | cut f hgiven hf hpart hne =>
    refine ⟨.inr ⟨f, hf, hpart, hne⟩, fun ⟨_, _, hwhole⟩ => ?_⟩
    rw [hwhole] at hgiven
    cases hgiven

theorem init_inv (h : Init p fd s) : Inv p fd s := by
  refine ⟨fresh_inOrder h.fresh, ?_, fun t f hf => ?_, [], [], nofun, h.stream, ?_⟩
  · rw [h.fresh.enq, h.taken]
    rfl
  · rw [h.writers t] at hf
    cases hf
  · refine .worker [] List.nil_prefix h.fresh.sock (.inl rfl) ?_ h.cut
    rintro t ⟨f, hf, _⟩
    rw [h.writers t] at hf
    cases hf

/-! ### Steps -/

variable [DecidableEq T]

theorem worker_inv (h : Inv p fd s) {l : SendStep} (hok : Turn p s (.worker l))
    (hs : step p fd s (.worker l) = some s') : Inv p fd s' := by
  obtain ⟨hstepOk, htakes⟩ := hok
  obtain ⟨sys, hsys, rfl⟩ := Option.map_eq_some_iff.mp hs
  have horder : sys.InOrder p fd := step_inOrder h.order hstepOk hsys
  have henq := step_enq hsys h.enq
  have hgrow := takenAfter_grow p s l
  obtain ⟨fs, part, hfs, hstream, hplace⟩ := h.place
  refine ⟨horder, henq, h.writers, ?_⟩
  obtain ⟨⟨new, hnew⟩, hkept⟩ := step_sock hsys
  by_cases hbytes : TakesBytes l
  · obtain ⟨hwhole, hno⟩ := htakes hbytes
    have hsame : takenAfter p s l = s.taken := takenAfter_takes hbytes
    rw [hsame] at henq
    cases hplace with
    | worker ts hts heq htail _ _ =>
      have haccepted : ts.flatten ++ part ++ new <+: s.taken.flatten := by
        obtain ⟨rem, hrem, -⟩ := horder
        rw [← henq, hrem, ← hnew, heq]
        exact List.prefix_append ..
      obtain ⟨mid, part', hmid, hcut, htail'⟩ := Concat.exists_later_cut hts haccepted
      refine ⟨fs ++ mid, part', fun f hf => ?_, ?_, .worker (ts ++ mid) ?_ ?_ ?_ hno hwhole⟩
      · obtain hf | hf := List.mem_append.mp hf
        · exact frames_grow hgrow List.prefix_rfl (hfs f hf)
        · refine mem_frames_taken (hgrow.subset (hmid.subset ?_))
          exact List.mem_append_right _ hf
      · dsimp only
        rw [hstream, ← hnew, List.drop_left, List.append_assoc, hcut, List.flatten_append,
          List.append_assoc]
      · exact hsame ▸ hmid
      · dsimp only
        rw [← hnew, heq, List.append_assoc, hcut, List.flatten_append, List.append_assoc]
      · exact hsame ▸ htail'
    | thread t f hf hpos _ _ _ _ => exact absurd ⟨f, hf, hpos⟩ (hno t)
    | cut f hgiven _ _ _ =>
      rw [hwhole] at hgiven
      cases hgiven
  · have hsock := hkept hbytes
    refine ⟨fs, part, fun f hf => frames_grow hgrow List.prefix_rfl (hfs f hf), ?_,
      hplace.keep hsock hgrow List.prefix_rfl rfl fun _ _ _ => Iff.rfl⟩
    dsimp only
    rw [hsock, List.drop_length, List.append_nil, hstream]

theorem start_inv (h : Inv p fd s) {t : T} {frame : Bytes}
    (hs : step p fd s (.start t frame) = some s') : Inv p fd s' := by
  rw [step] at hs
  split at hs
  · cases hs
  next hidle =>
  split at hs
  · rw [← Option.some.inj hs]
    exact h
  next hne =>
  have hdirect : s.direct <+: s.direct ++ [frame] := List.prefix_append ..
  obtain ⟨fs, part, hfs, hstream, hplace⟩ := h.place
  rw [← Option.some.inj hs]
  refine ⟨h.order, h.enq, fun u f hf => ?_, fs, part, fun f hf => ?_, hstream,
    hplace.keep rfl List.prefix_rfl hdirect rfl fun u f hpos => ?_⟩
  · dsimp only at hf
    by_cases hu : u = t
    · subst hu
      rw [Function.update_self] at hf
      obtain rfl := Option.some.inj hf
      exact ⟨List.mem_append_right _ (List.mem_singleton_self _), List.length_pos_of_ne_nil hne⟩
    · rw [Function.update_of_ne hu] at hf
      obtain ⟨hmem, hlt⟩ := h.writers u f hf
      exact ⟨hdirect.subset hmem, hlt⟩
  · exact frames_grow List.prefix_rfl hdirect (hfs f hf)
  · by_cases hu : u = t
    · subst hu
      dsimp only
      rw [Function.update_self, hidle]
      refine iff_of_false (fun heq => ?_) nofun
      rw [← Option.some.inj heq] at hpos
      exact absurd hpos (Nat.lt_irrefl 0)
    · dsimp only
      rw [Function.update_of_ne hu]

theorem writers_turn {t : T} {f : WriteFullFrame} {r : Wrote}
    (h : ∀ t f, s.writers t = some f → f.buf ∈ s.direct ∧ f.total < f.buf.length)
    (hf : s.writers t = some f) (u : T) (g : WriteFullFrame)
    (hg : Function.update s.writers t (f.turn r) u = some g) :
    g.buf ∈ s.direct ∧ g.total < g.buf.length := by
  by_cases hu : u = t
  · subst hu
    rw [Function.update_self] at hg
    cases r with
    | again =>
      rw [← Option.some.inj hg]
      exact h u f hf
    | failed => cases hg
    | bytes w =>
      rw [WriteFullFrame.turn] at hg
      split at hg
      · next hlt =>
        rw [← Option.some.inj hg]
        exact ⟨(h u f hf).1, hlt⟩
      · cases hg
  · rw [Function.update_of_ne hu] at hg
    exact h u g hg

theorem bytes_place {fs : List Bytes} {t : T} {f : WriteFullFrame} {w : ℕ} (h : Inv p fd s)
    (hfs : ∀ f ∈ fs, f ∈ s.frames) (hstream : s.stream = fs.flatten ++ part)
    (hplace : Place s part) (hf : s.writers t = some f) (hw : 0 < w)
    (hwhole : s.cut = false) (hbetween : s.Between)
    (hno : ∀ u, u ≠ t → ¬s.MidFrame u) (hsys : s'.sys = s.sys) (htaken : s'.taken = s.taken)
    (hdirect : s'.direct = s.direct) (hcut : s'.cut = false)
    (hwriters : s'.writers = Function.update s.writers t (f.turn (.bytes w)))
    (hstream' : s'.stream = s.stream ++ (f.buf.drop f.total).take w) :
    ∃ (fs : List Bytes) (part : Bytes), (∀ f ∈ fs, f ∈ s'.frames) ∧
      s'.stream = fs.flatten ++ part ∧ Place s' part := by
  have hframes : s'.frames = s.frames := by rw [State.frames, htaken, hdirect, State.frames]
  have hbetween' : s'.Between := between_grow hbetween (by rw [hsys]) (by rw [htaken])
  have hpart := hplace.of_between hbetween hwhole hf hno
  have hall : s'.stream = fs.flatten ++ f.buf.take (f.total + w) := by
    rw [hstream', hstream, hpart, List.append_assoc, ← List.take_add]
  have hother : ∀ u, u ≠ t → ¬s'.MidFrame u := by
    rintro u hu ⟨g, hg, hpos⟩
    rw [hwriters, Function.update_of_ne hu] at hg
    exact hno u hu ⟨g, hg, hpos⟩
  have hturn : s'.writers t = f.turn (.bytes w) := by rw [hwriters, Function.update_self]
  by_cases hlt : f.total + w < f.buf.length
  · rw [WriteFullFrame.turn, if_pos hlt] at hturn
    refine ⟨fs, _, fun g hg => hframes ▸ hfs g hg, hall, .thread t _ hturn ?_ rfl hbetween' hother
      hcut⟩
    exact Nat.add_pos_right _ hw
  · rw [WriteFullFrame.turn, if_neg hlt] at hturn
    have hdone : f.buf.take (f.total + w) = f.buf := List.take_of_length_le (Nat.not_lt.mp hlt)
    obtain ⟨ts, hts, hsock⟩ := hbetween'
    refine ⟨fs ++ [f.buf], [], fun g hg => ?_, ?_, .worker ts hts ?_ (.inl rfl) ?_ hcut⟩
    · rw [hframes]
      obtain hg | hg := List.mem_append.mp hg
      · exact hfs g hg
      · rw [List.mem_singleton.mp hg]
        exact mem_frames_direct (h.writers t f hf).1
    · rw [hall, hdone, List.flatten_append, List.flatten_singleton, List.append_nil]
    · rw [hsock, List.append_nil]
    · intro u hu
      by_cases hut : u = t
      · subst hut
        obtain ⟨g, hg, -⟩ := hu
        rw [hturn] at hg
        cases hg
      · exact hother u hut hu

theorem write_inv (h : Inv p fd s) {t : T} {r : Wrote} (hok : Turn p s (.write t r))
    (hs : step p fd s (.write t r) = some s') : Inv p fd s' := by
  rw [step] at hs
  split at hs
  · cases hs
  next f hf =>
  split at hs
  case isFalse => cases hs
  next hpossible =>
  have hs' := Option.some.inj hs
  have hwriters := writers_turn (r := r) h.writers hf
  obtain ⟨fs, part, hfs, hstream, hplace⟩ := h.place
  cases r with
  | bytes w =>
    obtain ⟨hwhole, hbetween, hno⟩ := hok
    have hcut : s'.cut = false := by
      rw [← hs']
      simp [hwhole]
    have hnext := bytes_place h hfs hstream hplace hf hpossible.1 hwhole hbetween hno
      (congrArg State.sys hs').symm (congrArg State.taken hs').symm (congrArg State.direct hs').symm
      hcut (congrArg State.writers hs').symm (congrArg State.stream hs').symm
    rw [← hs'] at hnext ⊢
    exact ⟨h.order, h.enq, hwriters, hnext⟩
  | again =>
    rw [← hs']
    refine ⟨h.order, h.enq, hwriters, fs, part, hfs, ?_,
      hplace.keep rfl List.prefix_rfl List.prefix_rfl (Bool.or_false _) fun u g _ => ?_⟩
    · exact (List.append_nil _).trans hstream
    · have hsame : Function.update s.writers t (f.turn .again) = s.writers := by
        rw [WriteFullFrame.turn, ← hf, Function.update_eq_self]
      dsimp only
      rw [hsame]
  | failed =>
    rw [← hs']
    refine ⟨h.order, h.enq, hwriters, fs, part, hfs, (List.append_nil _).trans hstream, ?_⟩
    by_cases hmid : 0 < f.total
    · cases hplace with
      | worker ts hts heq htail hno _ => exact absurd ⟨f, hf, hmid⟩ (hno t)
      | thread u g hg hpos hpart _ hno _ =>
        obtain ⟨hmem, hlt⟩ := h.writers u g hg
        refine .cut g.buf (by simp [hmid]) (mem_frames_direct hmem) ?_ ?_
        · rw [hpart]
          exact List.take_prefix ..
        · intro heq
          have hlen := congrArg List.length (hpart.symm.trans heq)
          rw [List.length_take] at hlen
          omega
      | cut g hgiven hg hpart hne =>
        exact .cut g (by simp [hgiven]) hg hpart hne
    · refine hplace.keep rfl List.prefix_rfl List.prefix_rfl (by simp [hmid]) fun u g hpos => ?_
      by_cases hu : u = t
      · subst hu
        dsimp only
        rw [Function.update_self, hf]
        refine iff_of_false nofun fun heq => hmid ?_
        rw [Option.some.inj heq]
        exact hpos
      · dsimp only
        rw [Function.update_of_ne hu]

theorem step_inv (h : Inv p fd s) {l : Label T} (hok : Turn p s l)
    (hs : step p fd s l = some s') : Inv p fd s' := by
  cases l with
  | worker l => exact worker_inv h hok hs
  | start t frame => exact start_inv h hs
  | write t r => exact write_inv h hok hs

/-- In turns, the writers leave whole frames on the socket. -/
theorem frames_whole (h : Runs.Reach (Init p fd) (step p fd) (Turn p) s) : Whole s := by
  have hinv : Inv p fd s :=
    h.invariant (fun _ h0 => init_inv h0) fun _ _ _ hi hok hs => step_inv hi hok hs
  exact hinv.whole

end

/-! ### A write between the two halves of a send -/

inductive Thread where
  | control
  | admin
  deriving DecidableEq

def oneSocket : State Thread := { sys := oneSender }

theorem oneSocket_init : Init 0 3 oneSocket :=
  ⟨oneSender_fresh, fun _ => rfl, rfl, rfl, rfl, rfl⟩

/-- The control thread writes while the rest of the worker's frame is still to come. -/
theorem frames_interleaved :
    ¬∀ s : State Thread, Runs.Reach (Init 0 3) (step 0 3) Runs.Any s → Whole s := by
  intro hall
  have hrun : ((Runs.run (step 0 3) oneSocket
      [.worker (.enqueue [1, 2]), .worker .flush, .worker (.exec (.short 1)), .start .control [9],
        .write .control (.bytes 1)]).map fun s => (s.stream, s.frames)) =
      some ([1, 9], [[1, 2], [9]]) := by decide
  obtain ⟨s, hs, heq⟩ := Option.map_eq_some_iff.mp hrun
  obtain ⟨hstream, hframes⟩ := Prod.mk.inj heq
  obtain ⟨fs, part, hfs, hcut, hpart, -⟩ := hall s (Runs.reach_of_run oneSocket_init hs)
  rw [hstream] at hcut
  rw [hframes] at hfs hpart
  cases fs with
  | nil =>
    obtain rfl : part = [1, 9] := hcut.symm
    simp at hpart
  | cons f fs =>
    have hf := hfs f (List.mem_cons_self ..)
    simp only [List.mem_cons, List.not_mem_nil, or_false] at hf
    obtain rfl | rfl := hf
    · simp at hcut
    · simp at hcut

/-- The worker's frame is sent, then the control thread writes its own in two calls. -/
theorem frames_whole_in_turn :
    ∃ s : State Thread, Runs.Reach (Init 0 3) (step 0 3) (Turn 0) s ∧ s.stream = [1, 2, 9, 8] ∧
      Whole s := by
  have hrun : ((Runs.run (step 0 3) oneSocket
      [.worker (.enqueue [1, 2]), .worker .flush, .worker (.exec .full), .start .control [9, 8],
        .write .control (.bytes 1), .write .control (.bytes 1)]).map fun s => s.stream) =
      some [1, 2, 9, 8] := by decide
  obtain ⟨s, hs, heq⟩ := Option.map_eq_some_iff.mp hrun
  have hidle : ∀ t : Thread, ¬oneSocket.MidFrame t := by
    rintro t ⟨f, hf, -⟩
    cases hf
  have hok : Runs.RunOk (step 0 3) (Turn 0) oneSocket
      [.worker (.enqueue [1, 2]), .worker .flush, .worker (.exec .full), .start .control [9, 8],
        .write .control (.bytes 1), .write .control (.bytes 1)] := by
    refine ⟨⟨trivial, nofun⟩, fun s1 h1 => ⟨⟨trivial, nofun⟩, fun s2 h2 => ⟨?_, fun s3 h3 =>
      ⟨trivial, fun s4 h4 => ⟨?_, fun s5 h5 => ⟨?_, fun _ _ => trivial⟩⟩⟩⟩⟩⟩
    · cases h1
      cases h2
      refine ⟨fun u hu hst => ?_, fun _ => ⟨rfl, hidle⟩⟩
      cases hu
      cases hst
    · cases h1
      cases h2
      cases h3
      cases h4
      refine ⟨rfl, ⟨[[1, 2]], List.prefix_rfl, rfl⟩, fun u hu => ?_⟩
      rintro ⟨f, hf, -⟩
      cases u with
      | control => exact hu rfl
      | admin => cases hf
    · cases h1
      cases h2
      cases h3
      cases h4
      cases h5
      refine ⟨rfl, ⟨[[1, 2]], List.prefix_rfl, rfl⟩, fun u hu => ?_⟩
      rintro ⟨f, hf, -⟩
      cases u with
      | control => exact hu rfl
      | admin => cases hf
  have hr := Runs.reach_run (.start oneSocket oneSocket_init) hok hs
  exact ⟨s, hr, heq, frames_whole hr⟩

end HyperDerp.DirectWrites
