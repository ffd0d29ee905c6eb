import HyperDerp.Lib.ByteStream
import HyperDerp.Lib.Runs

/-!
# Two programs in dialogue

Two sequential programs read from one another through two streams. A script lists the messages of
both in order. When each program by itself keeps to the script, however its reads cut what comes,
the two together do so in every interleaving: neither gets stuck or takes a byte too many.
-/

namespace Dialogue

variable {α R : Type}

inductive Prog (α R : Type) where
  | done (r : R)
  /-- Goes on with whether all was written. -/
  | write (data : List α) (k : Bool → Prog α R)
  /-- Goes on with at most `space` elements, or with none when the read fails. -/
  | read (space : ℕ) (k : List α → Prog α R)

/-- Side `b` reads from `incoming b`; `said b` is what it has written since it was done. -/
structure Net (α R : Type) where
  prog : Bool → Prog α R
  incoming : Bool → List α := fun _ => []
  said : Bool → List α := fun _ => []

inductive Label (α : Type) where
  | write (b : Bool)
  | read (b : Bool) (n : ℕ)
  /-- A side that is done goes on writing. -/
  | talk (b : Bool) (data : List α)

def Net.become (s : Net α R) (b : Bool) (p : Prog α R) : Net α R :=
  { s with prog := Function.update s.prog b p }

def Net.send (s : Net α R) (b : Bool) (data : List α) : Net α R :=
  { s with incoming := Function.update s.incoming (!b) (s.incoming (!b) ++ data) }

def step (s : Net α R) : Label α → Option (Net α R)
  | .write b =>
    match s.prog b with
    | .write data k => some ((s.become b (k true)).send b data)
    | _ => none
  | .read b n =>
    match s.prog b with
    | .read space k =>
      if 0 < n ∧ n ≤ space ∧ n ≤ (s.incoming b).length then
        some { s.become b (k ((s.incoming b).take n)) with
          incoming := Function.update s.incoming b ((s.incoming b).drop n) }
      else none
    | _ => none
  | .talk b data =>
    match s.prog b with
    | .done _ => some { s.send b data with said := Function.update s.said b (s.said b ++ data) }
    | _ => none

/-! ### Programs that keep to a script -/

/-- The reads of a program take a message, however it comes, and end as `q`. Unless nothing can
come behind the message (`alone`), they do not ask for more. -/
inductive Takes (alone : Prop) : Prog α R → List α → Prog α R → Prop
  | nil (p) : Takes alone p [] p
  | read {space : ℕ} {k : List α → Prog α R} {msg : List α} {q : Prog α R} (hne : msg ≠ [])
      (hpos : 0 < space) (hfit : alone ∨ space ≤ msg.length)
      (hk : ∀ n, 0 < n → n ≤ space → n ≤ msg.length → Takes alone (k (msg.take n)) (msg.drop n) q) :
      Takes alone (.read space k) msg q

abbrev Script (α : Type) := List (Bool × List α)

/-- The next message is one of side `b`. -/
def Script.TurnOf (b : Bool) (script : Script α) : Prop := script.head?.map Prod.fst = some b

def Keeps (b : Bool) (r : R) : Prog α R → Script α → Prop
  | p, [] => p = .done r
  | p, (w, msg) :: rest =>
    if w = b then ∃ k, p = .write msg k ∧ Keeps b r (k true) rest
    else ∃ q, Takes (Script.TurnOf b rest) p msg q ∧ Keeps b r q rest

variable {b w : Bool} {r : R} {p q : Prog α R} {msg : List α} {script rest : Script α}

theorem Takes.mono {a a' : Prop} (h : a → a') (ht : Takes a p msg q) : Takes a' p msg q := by
  induction ht with
  | nil p => exact .nil p
  | read hne hpos hfit _ ih => exact .read hne hpos (hfit.imp_left h) ih

theorem Takes.append {a : Prop} {m m' : List α} {p' : Prog α R} (h : Takes False p m p')
    (h' : Takes a p' m' q) : Takes a p (m ++ m') q := by
  induction h with
  | nil p => exact h'
  | read hne hpos hfit _ ih =>
    rename_i msg _ _
    have hle := hfit.resolve_left id
    refine .read (by simp [hne]) hpos (.inr (by rw [List.length_append]; omega))
      fun n hn hsp hlen => ?_
    have hcut := ih n hn hsp (by omega) h'
    rwa [List.take_append_of_le_length (by omega), List.drop_append_of_le_length (by omega)]

theorem Takes.of_ne {a : Prop} (h : Takes a p msg q) (hne : msg ≠ []) :
    ∃ space k, p = .read space k ∧ 0 < space ∧ (a ∨ space ≤ msg.length) ∧
      ∀ n, 0 < n → n ≤ space → n ≤ msg.length → Takes a (k (msg.take n)) (msg.drop n) q := by
  cases h with
  | nil => exact absurd rfl hne
  | read _ hpos hfit hk => exact ⟨_, _, rfl, hpos, hfit, hk⟩

theorem Takes.of_nil {a : Prop} (h : Takes a p [] q) : p = q := by
  cases h with
  | nil => rfl
  | read hne _ _ _ => exact absurd rfl hne

def Script.Proper (script : Script α) : Prop := ∀ m ∈ script, m.2 ≠ []

theorem keeps_own : Keeps b r p ((b, msg) :: rest) ↔
    ∃ k, p = .write msg k ∧ Keeps b r (k true) rest := by
  rw [Keeps, if_pos rfl]

theorem keeps_other : Keeps b r p ((!b, msg) :: rest) ↔
    ∃ q, Takes (Script.TurnOf b rest) p msg q ∧ Keeps b r q rest := by
  rw [Keeps, if_neg (by simp)]

theorem Keeps.cases (h : Keeps b r p script) (hs : script.Proper) :
    (script = [] ∧ p = .done r) ∨
    (∃ msg rest k, script = (b, msg) :: rest ∧ p = .write msg k ∧ Keeps b r (k true) rest) ∨
    ∃ msg rest space k, script = (!b, msg) :: rest ∧ msg ≠ [] ∧ p = .read space k ∧ 0 < space := by
  cases script with
  | nil => exact .inl ⟨rfl, h⟩
  | cons m rest =>
    obtain ⟨w, msg⟩ := m
    by_cases hw : w = b
    · subst hw
      obtain ⟨k, rfl, hk⟩ := keeps_own.1 h
      exact .inr (.inl ⟨msg, rest, k, rfl, rfl, hk⟩)
    · have hw' : w = !b := by cases w <;> cases b <;> simp_all
      subst hw'
      obtain ⟨q, ht, -⟩ := keeps_other.1 h
      have hne : msg ≠ [] := hs _ (List.mem_cons_self ..)
      obtain ⟨space, k, rfl, hpos, -⟩ := ht.of_ne hne
      exact .inr (.inr ⟨msg, rest, space, k, rfl, hne, rfl, hpos⟩)

theorem Keeps.of_done {r' : R} (h : Keeps b r (.done r') script) (hs : script.Proper) :
    script = [] ∧ r' = r := by
  rcases h.cases hs with ⟨rfl, heq⟩ | ⟨_, _, _, _, heq, _⟩ | ⟨_, _, _, _, _, _, heq, _⟩
  · cases heq
    exact ⟨rfl, rfl⟩
  · cases heq
  · cases heq

/-! ### Both together -/

def messages (w : Bool) (msgs : List (List α)) : Script α := msgs.map fun m => (w, m)

/-- Side `b` is behind: `msgs` of the other side are on their way to it, the other side is at
`rest`. A side that goes on writing is done. -/
structure Between (res : Bool → R) (s : Net α R) (b : Bool) (msgs : List (List α))
    (rest : Script α) : Prop where
  behind : Keeps b (res b) (s.prog b) (messages (!b) msgs ++ rest)
  ahead : Keeps (!b) (res (!b)) (s.prog (!b)) rest
  proper : Script.Proper (messages (!b) msgs ++ rest)
  toBehind : s.incoming b = msgs.flatten ++ s.said (!b)
  toAhead : s.incoming (!b) = s.said b
  finished : ∀ a, s.said a ≠ [] → ∃ r, s.prog a = .done r

def Inv (res : Bool → R) (s : Net α R) : Prop := ∃ b msgs rest, Between res s b msgs rest

/-- Both sides keep to the script and nothing has been written. -/
structure Init (script : Script α) (res : Bool → R) (s : Net α R) : Prop where
  keeps : ∀ b, Keeps b (res b) (s.prog b) script
  proper : script.Proper
  incoming : ∀ b, s.incoming b = []
  said : ∀ b, s.said b = []

variable {res : Bool → R} {s s' : Net α R} {msgs : List (List α)}

theorem Init.inv (h : Init script res s) : Inv res s := by
  refine ⟨true, [], script, h.keeps true, h.keeps false, h.proper, ?_, ?_, fun a ha => ?_⟩
  · rw [h.incoming, h.said]
    rfl
  · rw [h.incoming, h.said]
  · exact absurd (h.said a) ha

theorem Script.Proper.tail {rest' : Script α} (h : Script.Proper (rest' ++ rest)) :
    rest.Proper :=
  fun m hm => h m (List.mem_append_right _ hm)

theorem Between.silent (h : Between res s b msgs rest) {a : Bool}
    (hp : ∀ r, s.prog a ≠ .done r) : s.said a = [] := by
  by_contra hne
  obtain ⟨r, hr⟩ := h.finished a hne
  exact hp r hr

theorem Between.write_behind (h : Between res s b msgs rest) {data : List α}
    {k : Bool → Prog α R} (hp : s.prog b = .write data k) :
    ∃ rest', Between res ((s.become b (k true)).send b data) (!b) [data] rest' := by
  have hsaid : s.said b = [] := h.silent (by rw [hp]; nofun)
  have hkeeps := h.behind
  rw [hp] at hkeeps
  rcases hkeeps.cases h.proper with ⟨_, heq⟩ | ⟨msg, rest', k', hs, heq, hk⟩ | ⟨_, _, _, _, _, _, heq, _⟩
  · cases heq
  · cases heq
    cases msgs with
    | cons m msgs =>
      simp only [messages, List.map_cons, List.cons_append, List.cons.injEq, Prod.mk.injEq] at hs
      exact absurd hs.1.1 (by cases b <;> simp)
    | nil =>
      have hrest : rest = (b, data) :: rest' := hs
      refine ⟨rest', ?_, ?_, ?_, ?_, ?_, fun a ha => ?_⟩
      · have hahead := h.ahead
        rw [hrest] at hahead
        simpa [messages, Net.send, Net.become] using hahead
      · simpa [Net.send, Net.become] using hk
      · have hproper := h.proper
        rw [hrest] at hproper
        simpa [messages] using hproper
      · simp [Net.send, Net.become, h.toAhead, hsaid]
      · have hto := h.toBehind
        simp only [List.flatten_nil, List.nil_append] at hto
        simpa [Net.send, Net.become] using hto
      · have hne : a ≠ b := by
          rintro rfl
          exact ha hsaid
        obtain ⟨r', hr'⟩ := h.finished a ha
        exact ⟨r', by simpa [Net.send, Net.become, hne] using hr'⟩
  · cases heq

theorem Between.write_ahead (h : Between res s b msgs rest) {data : List α}
    {k : Bool → Prog α R} (hp : s.prog (!b) = .write data k) :
    ∃ rest', Between res ((s.become (!b) (k true)).send (!b) data) b (msgs ++ [data]) rest' := by
  have hsaid : s.said (!b) = [] := h.silent (by rw [hp]; nofun)
  have hkeeps := h.ahead
  rw [hp] at hkeeps
  rcases hkeeps.cases h.proper.tail with ⟨_, heq⟩ | ⟨msg, rest', k', hs, heq, hk⟩ | ⟨_, _, _, _, _, _, heq, _⟩
  · cases heq
  · cases heq
    subst hs
    refine ⟨rest', ?_, ?_, ?_, ?_, ?_, fun a ha => ?_⟩
    · simpa [messages, Net.send, Net.become] using h.behind
    · simpa [Net.send, Net.become] using hk
    · simpa [messages] using h.proper
    · simp [Net.send, Net.become, h.toBehind, hsaid]
    · simp [Net.send, Net.become, h.toAhead]
    · have hne : a ≠ !b := by
        rintro rfl
        exact ha hsaid
      obtain ⟨r', hr'⟩ := h.finished a ha
      exact ⟨r', by simpa [Net.send, Net.become, hne] using hr'⟩
  · cases heq

theorem Between.not_read_ahead (h : Between res s b msgs rest) {space : ℕ}
    {k : List α → Prog α R} (hp : s.prog (!b) = .read space k) : s.incoming (!b) = [] := by
  by_contra hne
  rw [h.toAhead] at hne
  obtain ⟨r', hr'⟩ := h.finished b hne
  have hkeeps := h.behind
  rw [hr'] at hkeeps
  obtain ⟨hnil, -⟩ := hkeeps.of_done h.proper
  have hrest : rest = [] := (List.append_eq_nil_iff.1 hnil).2
  have hahead := h.ahead
  rw [hp, hrest] at hahead
  cases hahead

theorem Between.alone {m : List α} (h : Between res s b (m :: msgs) rest)
    (hturn : Script.TurnOf b (messages (!b) msgs ++ rest)) : s.incoming b = m := by
  cases msgs with
  | cons m' msgs =>
    simp [Script.TurnOf, messages] at hturn
  | nil =>
    cases rest with
    | nil => simp [Script.TurnOf, messages] at hturn
    | cons x rest =>
      obtain ⟨w, msg⟩ := x
      have hw : w = b := by simpa [Script.TurnOf, messages] using hturn
      subst hw
      have hsaid : s.said (!w) = [] := by
        refine h.silent fun r hr => ?_
        have hahead := h.ahead
        rw [hr] at hahead
        cases (hahead.of_done h.proper.tail).1
      rw [h.toBehind, hsaid]
      simp

theorem Between.read_behind (h : Between res s b msgs rest) {space n : ℕ}
    {k : List α → Prog α R} (hp : s.prog b = .read space k) (hn : 0 < n) (hspace : n ≤ space)
    (hlen : n ≤ (s.incoming b).length) :
    ∃ msgs', Between res { s.become b (k ((s.incoming b).take n)) with
      incoming := Function.update s.incoming b ((s.incoming b).drop n) } b msgs' rest := by
  have hkeeps := h.behind
  rw [hp] at hkeeps
  cases msgs with
  | nil =>
    -- nothing is there that the other side has not written since it was done
    exfalso
    have hin : s.incoming b = s.said (!b) := by simpa using h.toBehind
    have hsaid : s.said (!b) ≠ [] := by
      rintro heq
      rw [hin, heq, List.length_nil] at hlen
      omega
    obtain ⟨r', hr'⟩ := h.finished (!b) hsaid
    have hahead := h.ahead
    rw [hr'] at hahead
    have hrest : rest = [] := (hahead.of_done h.proper.tail).1
    subst hrest
    cases hkeeps
  | cons m msgs =>
    have hm : m ≠ [] := h.proper (!b, m) (List.mem_cons_self ..)
    obtain ⟨q, ht, hq⟩ := keeps_other.1 hkeeps
    obtain ⟨space', k', heq, -, hfit, hk⟩ := ht.of_ne hm
    cases heq
    have hnm : n ≤ m.length := by
      rcases hfit with halone | hfit
      · rwa [h.alone halone] at hlen
      · omega
    have hin : s.incoming b = m ++ (msgs.flatten ++ s.said (!b)) := by
      rw [h.toBehind, List.flatten_cons, List.append_assoc]
    have htake := hk n hn hspace hnm
    rw [hin, List.take_append_of_le_length hnm, List.drop_append_of_le_length hnm]
    have hover : ∀ a, s.said a ≠ [] → ∃ r, Function.update s.prog b (k (m.take n)) a = .done r := by
      intro a ha
      have hne : a ≠ b := by
        rintro rfl
        obtain ⟨r', hr'⟩ := h.finished a ha
        rw [hp] at hr'
        cases hr'
      rw [Function.update_of_ne hne]
      exact h.finished a ha
    have hproper : Script.Proper (messages (!b) msgs ++ rest) :=
      fun x hx => h.proper x (List.mem_cons_of_mem _ hx)
    by_cases hend : m.drop n = []
    · rw [hend] at htake
      rw [← htake.of_nil] at hq
      refine ⟨msgs, ?_, ?_, hproper, ?_, ?_, hover⟩
      · simpa [Net.become, messages] using hq
      · simpa [Net.become] using h.ahead
      · simp [Net.become, hend]
      · simpa [Net.become] using h.toAhead
    · refine ⟨m.drop n :: msgs, ?_, ?_, ?_, ?_, ?_, hover⟩
      · simpa [Net.become, messages] using keeps_other.2 ⟨q, htake, hq⟩
      · simpa [Net.become] using h.ahead
      · exact List.forall_mem_cons.2 ⟨hend, hproper⟩
      · simp [Net.become]
      · simpa [Net.become] using h.toAhead

theorem Between.talk (h : Between res s b msgs rest) {a : Bool} {r' : R}
    (hp : s.prog a = .done r') (data : List α) :
    Between res { s.send a data with said := Function.update s.said a (s.said a ++ data) }
      b msgs rest := by
  have hover : ∀ a', Function.update s.said a (s.said a ++ data) a' ≠ [] →
      ∃ r, s.prog a' = .done r := by
    intro a' ha'
    by_cases haa : a' = a
    · subst haa
      exact ⟨r', hp⟩
    · rw [Function.update_of_ne haa] at ha'
      exact h.finished a' ha'
  by_cases hab : a = b
  · subst hab
    exact ⟨h.behind, h.ahead, h.proper, by simpa [Net.send] using h.toBehind,
      by simp [Net.send, h.toAhead], hover⟩
  · have ha : a = !b := by cases a <;> cases b <;> simp_all
    subst ha
    exact ⟨h.behind, h.ahead, h.proper, by simp [Net.send, h.toBehind],
      by simpa [Net.send] using h.toAhead, hover⟩

theorem Inv.step (h : Inv res s) {l : Label α} (hs : step s l = some s') : Inv res s' := by
  obtain ⟨b, msgs, rest, hb⟩ := h
  have hside : ∀ a, a = b ∨ a = !b := fun a => by cases a <;> cases b <;> simp
  cases l with
  | write a =>
    simp only [Dialogue.step] at hs
    split at hs
    · next data k hp =>
      cases hs
      rcases hside a with rfl | rfl
      · obtain ⟨rest', hb'⟩ := hb.write_behind hp
        exact ⟨_, _, rest', hb'⟩
      · obtain ⟨rest', hb'⟩ := hb.write_ahead hp
        exact ⟨_, _, rest', hb'⟩
    · cases hs
  | read a n =>
    simp only [Dialogue.step] at hs
    split at hs
    · next space k hp =>
      split at hs
      · next hn =>
        cases hs
        rcases hside a with rfl | rfl
        · obtain ⟨msgs', hb'⟩ := hb.read_behind hp hn.1 hn.2.1 hn.2.2
          exact ⟨_, msgs', _, hb'⟩
        · rw [hb.not_read_ahead hp, List.length_nil] at hn
          omega
      · cases hs
    · cases hs
  | talk a data =>
    simp only [Dialogue.step] at hs
    split at hs
    · next r' hp =>
      cases hs
      exact ⟨_, _, _, hb.talk hp data⟩
    · cases hs

/-- What holds in every state of two programs that keep to one script: a side that is done has its
result, when both are nothing is in flight but what was written since, and until then one of them
can go on. -/
structure Agrees (res : Bool → R) (s : Net α R) : Prop where
  result : ∀ b r, s.prog b = .done r → r = res b
  left : (∀ b, ∃ r, s.prog b = .done r) → ∀ b, s.incoming b = s.said (!b)
  goesOn : (∀ b, ∃ r, s.prog b = .done r) ∨ ∃ l s', (∀ b data, l ≠ .talk b data) ∧
    step s l = some s'

theorem Between.agrees (h : Between res s b msgs rest) : Agrees res s := by
  have hside : ∀ a, a = b ∨ a = !b := fun a => by cases a <;> cases b <;> simp
  have hnil : (∃ r, s.prog b = .done r) → msgs = [] ∧ rest = [] := by
    rintro ⟨r', hr'⟩
    have hkeeps := h.behind
    rw [hr'] at hkeeps
    have hempty := List.append_eq_nil_iff.1 (hkeeps.of_done h.proper).1
    exact ⟨List.map_eq_nil_iff.1 hempty.1, hempty.2⟩
  refine ⟨fun a r' hr' => ?_, fun hall a => ?_, ?_⟩
  · rcases hside a with rfl | rfl
    · have hkeeps := h.behind
      rw [hr'] at hkeeps
      exact (hkeeps.of_done h.proper).2
    · have hkeeps := h.ahead
      rw [hr'] at hkeeps
      exact (hkeeps.of_done h.proper.tail).2
  · obtain ⟨rfl, -⟩ := hnil (hall b)
    rcases hside a with rfl | rfl
    · simpa using h.toBehind
    · rw [h.toAhead, Bool.not_not]
  · rcases h.behind.cases h.proper with ⟨heq, hp⟩ | ⟨msg, rest', k, -, hp, -⟩ |
      ⟨msg, rest', space, k, heq, hne, hp, hpos⟩
    · obtain ⟨-, rfl⟩ := hnil ⟨_, hp⟩
      left
      intro a
      rcases hside a with rfl | rfl
      · exact ⟨_, hp⟩
      · exact ⟨_, h.ahead⟩
    · right
      exact ⟨.write b, _, by simp, by simp only [Dialogue.step, hp]; rfl⟩
    · right
      cases msgs with
      | cons m msgs =>
        have hm : m ≠ [] := h.proper (!b, m) (List.mem_cons_self ..)
        have hlen : 1 ≤ (s.incoming b).length := by
          have hmpos := List.length_pos_iff.2 hm
          rw [h.toBehind, List.flatten_cons]
          simp only [List.length_append]
          omega
        exact ⟨.read b 1, _, by simp, by
          simp only [Dialogue.step, hp]
          exact if_pos ⟨Nat.one_pos, hpos, hlen⟩⟩
      | nil =>
        -- the message is still to be written
        have hrest : rest = (!b, msg) :: rest' := heq
        have hahead := h.ahead
        rw [hrest] at hahead
        obtain ⟨k', hk', -⟩ := keeps_own.1 hahead
        exact ⟨.write (!b), _, by simp, by simp only [Dialogue.step, hk']; rfl⟩

theorem agrees {init : Net α R → Prop} (hinit : ∀ s, init s → Init script res s)
    (h : Runs.Reach init step Runs.Any s) : Agrees res s := by
  have hinv : Inv res s :=
    h.invariant (fun s h0 => (hinit s h0).inv) fun _ _ _ hi _ hs => hi.step hs
  obtain ⟨b, msgs, rest, hb⟩ := hinv
  exact hb.agrees

/-! ### Exact reads -/

/-- Reads until `n` elements are there behind those of `got`; every read brings one at least. -/
def readLoop (n : ℕ) : ℕ → List α → (Option (List α) → Prog α R) → Prog α R
  | 0, got, k => k (some got)
  | fuel + 1, got, k =>
    if n ≤ got.length then k (some got)
    else .read (n - got.length) fun bs =>
      if bs = [] then k none else readLoop n fuel (got ++ bs) k

def readAll (n : ℕ) (k : Option (List α) → Prog α R) : Prog α R := readLoop n n [] k

theorem takes_readLoop {n fuel : ℕ} {got : List α} (k : Option (List α) → Prog α R)
    (hfuel : n ≤ got.length + fuel) (hmsg : got.length + msg.length = n) :
    Takes False (readLoop n fuel got k) msg (k (some (got ++ msg))) := by
  induction fuel generalizing got msg with
  | zero =>
    have hnil : msg = [] := List.eq_nil_of_length_eq_zero (by omega)
    rw [hnil, List.append_nil]
    exact .nil _
  | succ fuel ih =>
    unfold readLoop
    by_cases hdone : n ≤ got.length
    · have hnil : msg = [] := List.eq_nil_of_length_eq_zero (by omega)
      rw [if_pos hdone, hnil, List.append_nil]
      exact .nil _
    · rw [if_neg hdone]
      have hne : msg ≠ [] := by
        rintro rfl
        rw [List.length_nil] at hmsg
        omega
      refine .read hne (by omega) (.inr (by omega)) fun c hc hspace hlen => ?_
      have htake : msg.take c ≠ [] := by
        rw [Ne, List.take_eq_nil_iff]
        rintro (rfl | rfl)
        · omega
        · exact hne rfl
      rw [if_neg htake]
      have hcut : Takes False (readLoop n fuel (got ++ msg.take c) k) (msg.drop c)
          (k (some (got ++ msg.take c ++ msg.drop c))) :=
        ih (by rw [List.length_append, List.length_take]; omega)
          (by rw [List.length_append, List.length_take, List.length_drop]; omega)
      rwa [List.append_assoc, List.take_append_drop] at hcut

theorem takes_readAll {n : ℕ} (h : msg.length = n) (k : Option (List α) → Prog α R) :
    Takes False (readAll n k) msg (k (some msg)) :=
  takes_readLoop k (by simp) (by simpa using h)

/-! ### A program alone -/

open ByteStream (Source)

/-- A program on a source, its writes answered by `w`. -/
def Prog.run (w : List α → Bool) : Prog α R → Source α → R × Source α
  | .done r, s => (r, s)
  | .write data k, s => (k (w data)).run w s
  | .read space k, s =>
    match s.reads with
    | [] => (k []).run w s
    | n :: reads =>
      if n = 0 ∨ s.stream.isEmpty then (k []).run w ⟨s.stream, reads⟩
      else (k (s.stream.take (min n space))).run w ⟨s.stream.drop (min n space), reads⟩

theorem run_readLoop (f : List α → Bool) {n fuel : ℕ} {got stream : List α} {reads : List ℕ}
    (k : Option (List α) → Prog α R) (hfuel : n ≤ got.length + fuel) :
    (∀ x s', Source.readAllLoop n got stream reads = some (x, s') →
      (readLoop n fuel got k).run f ⟨stream, reads⟩ = (k (some x)).run f s') ∧
    (Source.readAllLoop n got stream reads = none →
      ∃ s', (readLoop n fuel got k).run f ⟨stream, reads⟩ = (k none).run f s') := by
  induction fuel generalizing got stream reads with
  | zero =>
    have hdone : Source.readAllLoop n got stream reads = some (got, ⟨stream, reads⟩) := by
      unfold Source.readAllLoop
      exact if_pos (by omega)
    rw [hdone]
    refine ⟨fun x s' h => ?_, fun h => by cases h⟩
    cases h
    rfl
  | succ fuel ih =>
    unfold readLoop Source.readAllLoop
    by_cases hdone : n ≤ got.length
    · rw [if_pos hdone, if_pos hdone]
      refine ⟨fun x s' h => ?_, fun h => by cases h⟩
      cases h
      rfl
    · rw [if_neg hdone, if_neg hdone]
      cases reads with
      | nil =>
        refine ⟨(fun _ _ h => by cases h), fun _ => ⟨⟨stream, []⟩, ?_⟩⟩
        rw [Prog.run]
        rfl
      | cons c reads =>
        dsimp only
        rw [Prog.run]
        dsimp only
        by_cases hfail : c = 0 ∨ stream.isEmpty
        · rw [if_pos hfail, if_pos hfail]
          exact ⟨(fun _ _ h => by cases h), fun _ => ⟨⟨stream, reads⟩, rfl⟩⟩
        · have htake : stream.take (min c (n - got.length)) ≠ [] := by
            rw [Ne, List.take_eq_nil_iff]
            rintro (hzero | rfl)
            · rw [not_or] at hfail
              omega
            · exact hfail (.inr rfl)
          rw [if_neg hfail, if_neg hfail, if_neg htake]
          have hlen : 0 < (stream.take (min c (n - got.length))).length :=
            List.length_pos_iff.2 htake
          exact ih (by rw [List.length_append]; omega)

theorem run_readAll_some {f : List α → Bool} {n : ℕ} {s s' : Source α} {x : List α}
    (k : Option (List α) → Prog α R) (h : s.readAll n = some (x, s')) :
    (readAll n k).run f s = (k (some x)).run f s' :=
  (run_readLoop f k (by simp)).1 x s' h

theorem run_readAll_none {f : List α → Bool} {n : ℕ} {s : Source α}
    (k : Option (List α) → Prog α R) (h : s.readAll n = none) :
    ∃ s', (readAll n k).run f s = (k none).run f s' :=
  (run_readLoop f k (by simp)).2 h

end Dialogue
