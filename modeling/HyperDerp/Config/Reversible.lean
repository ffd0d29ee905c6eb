import HyperDerp.Config.Steps
import Mathlib.Data.List.GetD

/-!
# Reading the commit log back (`einheit_channel.cc:1028-1168`)

The format escapes nothing, so a record comes back exactly if its values have no
tab and no newline, and the validators of the fleet id and of the numbers let both
through. `std::getline` returns a last line that has no newline, so a record that
was cut off in writing counts if what is there of it reads as a record.
-/

namespace HyperDerp

namespace Config

open Text (utf8 tab newline lines fields joinFields)

/-- A record that a commit writes: `set` and `delete` have let its entries through. -/
structure Entry.Accepted (e : Entry) : Prop where
  sets : ∀ kv ∈ e.record.sets, EntryOk kv
  deletes : ∀ k ∈ e.record.deletes, ∃ p, findPath k = some p
  ts : ∀ c ∈ e.ts, Text.isDigit c = true ∨ c ∈ utf8 "-:T.Z"
  id : e.record.commitId < 2 ^ 64

/-- The record is one line, and the line parses to the record. -/
def Entry.Reversible (e : Entry) : Prop :=
  ∃ line, lines (encodeCommitRecord e.record.commitId e.ts e.record) = [line] ∧
    parseCommitLine line = some e.record

/-- What follows the complete records is not loaded, and they are. -/
def LoadsBack (entries : List Entry) (rest : Bytes) : Prop :=
  (loadCommitLog (logOf entries ++ rest)).1 = entries.map Entry.record

def Torn (rest : Bytes) : Prop :=
  ∃ e : Entry, e.Accepted ∧ rest <+: encodeCommitRecord e.record.commitId e.ts e.record ∧
    rest ≠ encodeCommitRecord e.record.commitId e.ts e.record

/-! ### Lines that read as a record -/

inductive WholeOps : List Bytes → Prop
  | nil : WholeOps []
  | set (k v : Bytes) (ops : List Bytes) : WholeOps ops → WholeOps (utf8 "S" :: k :: v :: ops)
  | delete (k : Bytes) (ops : List Bytes) : WholeOps ops → WholeOps (utf8 "D" :: k :: ops)

/-- A number that fits, anything, and whole sets and deletes. -/
def Reads (line : Bytes) : Prop :=
  ∃ id ts ops, fields line = id :: ts :: ops ∧ stoull id ≠ none ∧ WholeOps ops

variable {rec : CommitRecord} {ts line rest : Bytes} {entries : List Entry} {e : Entry}

theorem wholeOps_of_parse {toks : List Bytes} (h : parseOps toks ≠ none) : WholeOps toks := by
  fun_induction parseOps toks with
  | case1 => exact .nil
  | case2 k v ops ih => exact .set k v ops (ih fun hnone => h (by rw [hnone]; rfl))
  | case5 k ops hne ih => exact .delete k ops (ih fun hnone => h (by rw [hnone]; rfl))
  | case3 => exact absurd rfl h
  | case4 => exact absurd rfl h
  | case6 => exact absurd rfl h
  | case7 => exact absurd rfl h

theorem parse_of_wholeOps {toks : List Bytes} (h : WholeOps toks) : parseOps toks ≠ none := by
  induction h with
  | nil => nofun
  | set k v ops _ ih =>
    rw [parseOps_set]
    simpa using ih
  | delete k ops _ ih =>
    rw [parseOps_delete]
    simpa using ih

theorem reads_iff : Reads line ↔ parseCommitLine line ≠ none := by
  unfold parseCommitLine
  constructor
  · rintro ⟨id, ts, ops, hfields, hid, hops⟩
    obtain ⟨n, hn⟩ := Option.ne_none_iff_exists'.1 hid
    rw [hfields]
    dsimp only
    rw [hn]
    simpa using parse_of_wholeOps hops
  · intro h
    split at h
    · next id ts ops hfields =>
      refine ⟨id, ts, ops, hfields, fun hnone => ?_, ?_⟩
      · rw [hnone] at h
        exact h rfl
      · split at h
        · exact absurd rfl h
        · exact wholeOps_of_parse fun hnone => h (by rw [hnone]; rfl)
    · exact absurd rfl h
    · exact absurd rfl h

theorem parseOps_mem {toks : List Bytes} {ops : List (Bytes × Bytes) × List Bytes}
    (h : parseOps toks = some ops) : ∀ kv ∈ ops.1, kv.2 ∈ toks := by
  fun_induction parseOps toks generalizing ops with
  | case1 =>
    cases h
    nofun
  | case2 k v toks ih =>
    obtain ⟨ops', hops', rfl⟩ := Option.map_eq_some_iff.1 h
    intro kv hkv
    rcases List.mem_cons.1 hkv with rfl | hkv
    · simp
    · simp [ih hops' kv hkv]
  | case5 k toks hne ih =>
    obtain ⟨ops', hops', rfl⟩ := Option.map_eq_some_iff.1 h
    intro kv hkv
    simp [ih hops' kv hkv]
  | case3 => cases h
  | case4 => cases h
  | case6 => cases h
  | case7 => cases h

theorem parse_mem (h : parseCommitLine line = some rec) : ∀ kv ∈ rec.sets, kv.2 ∈ fields line := by
  unfold parseCommitLine at h
  split at h
  · next id ts toks hfields =>
    split at h
    · cases h
    · obtain ⟨ops, hops, rfl⟩ := Option.map_eq_some_iff.1 h
      intro kv hkv
      rw [hfields]
      exact List.mem_cons_of_mem _ (List.mem_cons_of_mem _ (parseOps_mem hops kv hkv))
  · cases h
  · cases h

/-! ### One record -/

theorem Entry.Accepted.ok (h : e.Accepted) (hv : ∀ kv ∈ e.record.sets, Clean kv.2) : e.Ok := by
  refine ⟨⟨fun kv hkv => ⟨(h.sets kv hkv).clean_fst, hv kv hkv⟩, fun k hk => ?_⟩,
    clean_rfc3339 h.ts, h.id⟩
  obtain ⟨p, hp⟩ := h.deletes k hk
  rw [← findPath_some hp]
  exact clean_name p

theorem Entry.Ok.reversible (h : e.Ok) : e.Reversible := by
  refine ⟨e.record.line e.ts, ?_, parse_line h.record h.ts h.id⟩
  rw [encode_line, Text.lines_cons _ _ (newline_not_mem_line h.record h.ts)]
  rfl

theorem Entry.Reversible.clean (h : e.Reversible) : ∀ kv ∈ e.record.sets, Clean kv.2 := by
  obtain ⟨line, hlines, hparse⟩ := h
  intro kv hkv
  refine ⟨Text.tab_not_mem_fields (parse_mem hparse kv hkv), fun hmem => ?_⟩
  -- a newline in a value is one more line
  have hcount := Text.lines_length (e.record.line e.ts)
  rw [encode_line] at hlines
  rw [hlines, List.length_singleton] at hcount
  have hzero : (e.record.line e.ts).count newline = 0 := by omega
  apply List.count_eq_zero.1 hzero
  apply Text.mem_joinFields (f := kv.2) _ hmem
  simp only [CommitRecord.opFields, List.mem_cons, List.mem_append, List.mem_flatMap]
  exact .inr (.inr (.inl ⟨kv, hkv, by simp⟩))

/-! ### The whole log -/

theorem load_append (s : Bytes) (rest : Bytes) :
    (loadCommitLog (s ++ newline :: rest)).1 =
      (loadCommitLog (s ++ [newline])).1 ++ (loadCommitLog rest).1 := by
  unfold loadCommitLog
  dsimp only
  rw [Text.lines_append, List.filter_append, List.filterMap_append]

theorem Entry.Reversible.load (h : e.Reversible) :
    (loadCommitLog (encodeCommitRecord e.record.commitId e.ts e.record)).1 = [e.record] := by
  obtain ⟨line, hlines, hparse⟩ := h
  have hne : line ≠ [] := by
    rintro rfl
    cases hparse
  unfold loadCommitLog
  rw [hlines]
  simp [hne, hparse]

theorem load_entries (h : ∀ e ∈ entries, e.Reversible) (rest : Bytes) :
    (loadCommitLog (logOf entries ++ rest)).1 =
      entries.map Entry.record ++ (loadCommitLog rest).1 := by
  induction entries with
  | nil => rfl
  | cons e entries ih =>
    have hlog : logOf (e :: entries) ++ rest =
        e.record.line e.ts ++ newline :: (logOf entries ++ rest) := by
      simp [logOf, encode_line]
    rw [hlog, load_append, ← encode_line, (h e (List.mem_cons_self ..)).load,
      ih fun e he => h e (List.mem_cons_of_mem _ he)]
    rfl

theorem load_nothing :
    (loadCommitLog rest).1 = [] ↔ ∀ line ∈ lines rest, line = [] ∨ ¬Reads line := by
  unfold loadCommitLog
  simp only [List.filterMap_eq_nil_iff, List.mem_filter, decide_eq_true_eq, reads_iff, not_not,
    and_imp]
  constructor
  · intro h line hline
    by_cases hempty : line = []
    · exact .inl hempty
    · exact .inr (h line hline hempty)
  · intro h line hline hne
    exact (h line hline).resolve_left hne

/-- Records come back, and nothing else does, exactly if no value has a tab or a newline and no
line of what follows them reads as a record. -/
theorem log_reversible_iff (h : ∀ e ∈ entries, e.Accepted) (rest : Bytes) :
    (∀ e ∈ entries, e.Reversible) ∧ LoadsBack entries rest ↔
      (∀ e ∈ entries, ∀ kv ∈ e.record.sets, Clean kv.2) ∧
        ∀ line ∈ lines rest, line = [] ∨ ¬Reads line := by
  have hrest : (∀ e ∈ entries, e.Reversible) →
      (LoadsBack entries rest ↔ ∀ line ∈ lines rest, line = [] ∨ ¬Reads line) := by
    intro hrev
    rw [← load_nothing, LoadsBack, load_entries hrev]
    exact List.append_right_eq_self
  constructor
  · rintro ⟨hrev, hload⟩
    exact ⟨fun e he => (hrev e he).clean, (hrest hrev).1 hload⟩
  · rintro ⟨hclean, hnone⟩
    have hrev : ∀ e ∈ entries, e.Reversible :=
      fun e he => ((h e he).ok (hclean e he)).reversible
    exact ⟨hrev, (hrest hrev).2 hnone⟩

/-! ### Where a record is cut off -/

/-- So many tabs are written when the time, a value or a deleted path is being written. -/
def CommitRecord.CutWhole (rec : CommitRecord) (tabs : ℕ) : Prop :=
  tabs = 1 ∨ (∃ i < rec.sets.length, tabs = 3 * i + 4) ∨
    ∃ j < rec.deletes.length, tabs = 3 * rec.sets.length + 2 * j + 3

theorem wholeOps_set (k v : Bytes) (ops : List Bytes) :
    WholeOps (utf8 "S" :: k :: v :: ops) ↔ WholeOps ops := by
  refine ⟨fun h => wholeOps_of_parse fun hnone => parse_of_wholeOps h ?_, .set k v ops⟩
  rw [parseOps_set, hnone]
  rfl

theorem wholeOps_delete (k : Bytes) (ops : List Bytes) :
    WholeOps (utf8 "D" :: k :: ops) ↔ WholeOps ops := by
  refine ⟨fun h => wholeOps_of_parse fun hnone => parse_of_wholeOps h ?_, .delete k ops⟩
  rw [parseOps_delete, hnone]
  rfl

theorem not_wholeOps_tag (g : Bytes) : ¬WholeOps [g] := nofun

theorem not_wholeOps_path (g : Bytes) : ¬WholeOps [utf8 "S", g] :=
  fun h => parse_of_wholeOps h (by simp [parseOps])

theorem wholeOps_deletes (ks : List Bytes) {m : ℕ}
    (hm : m < (ks.flatMap fun k => [utf8 "D", k]).length) (g : Bytes) :
    WholeOps ((ks.flatMap fun k => [utf8 "D", k]).take m ++ [g]) ↔
      ∃ j < ks.length, m = 2 * j + 1 := by
  induction ks generalizing m with
  | nil => exact absurd hm (Nat.not_lt_zero m)
  | cons k ks ih =>
    simp only [List.flatMap_cons, List.cons_append, List.nil_append] at hm ⊢
    match m with
    | 0 => exact iff_of_false (not_wholeOps_tag g) (by omega)
    | 1 => exact iff_of_true (.delete g [] .nil) ⟨0, by simp, rfl⟩
    | m + 2 =>
      rw [List.take_succ_cons, List.take_succ_cons, List.cons_append, List.cons_append,
        wholeOps_delete, ih (by simpa using hm)]
      constructor
      · rintro ⟨j, hj, rfl⟩
        exact ⟨j + 1, by simpa using hj, by omega⟩
      · rintro ⟨j, hj, heq⟩
        rw [List.length_cons] at hj
        exact ⟨j - 1, by omega, by omega⟩

theorem wholeOps_take (rec : CommitRecord) {m : ℕ} (hm : m < rec.opFields.length) (g : Bytes) :
    WholeOps (rec.opFields.take m ++ [g]) ↔ (∃ i < rec.sets.length, m = 3 * i + 2) ∨
      ∃ j < rec.deletes.length, m = 3 * rec.sets.length + 2 * j + 1 := by
  obtain ⟨id, sets, deletes⟩ := rec
  unfold CommitRecord.opFields at hm ⊢
  dsimp only at hm ⊢
  induction sets generalizing m with
  | nil =>
    rw [List.flatMap_nil, List.nil_append] at hm ⊢
    rw [wholeOps_deletes deletes hm]
    simp
  | cons kv sets ih =>
    simp only [List.flatMap_cons, List.cons_append, List.nil_append] at hm ⊢
    match m with
    | 0 => exact iff_of_false (not_wholeOps_tag g) (by simp)
    | 1 => exact iff_of_false (not_wholeOps_path g) (by simp)
    | 2 => exact iff_of_true (.set _ g [] .nil) (.inl ⟨0, by simp, rfl⟩)
    | m + 3 =>
      rw [List.take_succ_cons, List.take_succ_cons, List.take_succ_cons, List.cons_append,
        List.cons_append, List.cons_append, wholeOps_set, ih (by simpa using hm),
        List.length_cons]
      constructor
      · rintro (⟨i, hi, rfl⟩ | ⟨j, hj, rfl⟩)
        · exact .inl ⟨i + 1, by omega, by omega⟩
        · exact .inr ⟨j, hj, by omega⟩
      · rintro (⟨i, hi, heq⟩ | ⟨j, hj, heq⟩)
        · exact .inl ⟨i - 1, by omega, by omega⟩
        · exact .inr ⟨j, hj, by omega⟩

theorem torn_reads_iff (h : rec.Clean) (hts : Clean ts) (hid : rec.commitId < 2 ^ 64)
    (hp : rest <+: rec.line ts) : Reads rest ↔ rec.CutWhole (rest.count tab) := by
  obtain ⟨hlt, g, -, hfields⟩ :=
    Text.fields_prefix (fun f hf => (clean_fields h hts f hf).1) nofun hp
  unfold Reads CommitRecord.CutWhole
  generalize rest.count tab = n at hlt hfields ⊢
  rw [hfields]
  match n with
  | 0 => exact iff_of_false (by simp) (by omega)
  | 1 =>
    refine iff_of_true ⟨_, _, _, rfl, ?_, .nil⟩ (.inl rfl)
    rw [stoull_decimal hid]
    nofun
  | n + 2 =>
    rw [List.take_succ_cons, List.take_succ_cons, List.cons_append, List.cons_append]
    have hn : n < rec.opFields.length := by simpa using hlt
    constructor
    · rintro ⟨id, ts', ops, heq, -, hops⟩
      rw [List.cons.injEq, List.cons.injEq] at heq
      rw [← heq.2.2, wholeOps_take rec hn] at hops
      rcases hops with ⟨i, hi, rfl⟩ | ⟨j, hj, rfl⟩
      · exact .inr (.inl ⟨i, hi, by omega⟩)
      · exact .inr (.inr ⟨j, hj, by omega⟩)
    · rintro (hone | ⟨i, hi, heq⟩ | ⟨j, hj, heq⟩)
      · omega
      · refine ⟨_, _, _, rfl, ?_, (wholeOps_take rec hn g).2 (.inl ⟨i, hi, by omega⟩)⟩
        rw [stoull_decimal hid]
        nofun
      · refine ⟨_, _, _, rfl, ?_, (wholeOps_take rec hn g).2 (.inr ⟨j, hj, by omega⟩)⟩
        rw [stoull_decimal hid]
        nofun

/-! ### A fleet id with a tab, and a torn line -/

def tabbed : Entry :=
  ⟨{ commitId := 1, sets := [(utf8 "hd.federation.fleet_id", utf8 "a\tD\tlog_level")] },
    utf8 "2026-01-01T00:00:00Z"⟩

theorem tabbed_accepted : tabbed.Accepted := by
  refine ⟨fun kv hkv => ?_, nofun, ?_, by decide⟩
  · rw [show kv = _ from List.mem_singleton.1 hkv]
    exact ⟨.fleetId, by decide, rfl⟩
  · decide +kernel

example : parseCommitLine (tabbed.record.line tabbed.ts) =
    some ⟨1, [(utf8 "hd.federation.fleet_id", utf8 "a")], [utf8 "log_level"]⟩ := by
  decide

/-- The tab makes it another record; and cut off in its time, it is loaded. -/
theorem log_not_reversible : (¬∀ e : Entry, e.Accepted → e.Reversible) ∧
    ¬∀ (entries : List Entry) (rest : Bytes), (∀ e ∈ entries, e.Accepted) →
      (∀ e ∈ entries, e.Reversible) → Torn rest → LoadsBack entries rest := by
  constructor
  · intro hall
    have hclean := (hall tabbed tabbed_accepted).clean _ (List.mem_singleton_self _)
    exact absurd hclean (by decide)
  · intro hall
    have htorn : Torn (utf8 "1\t2026-") :=
      ⟨tabbed, tabbed_accepted, by decide, by decide⟩
    have hload := hall [] _ nofun nofun htorn
    unfold LoadsBack at hload
    exact absurd hload (by decide)

/-- A record that comes back with a torn one behind it. -/
theorem log_reversible_one : (∀ e ∈ [Entry.mk ⟨1, [(utf8 "log_level", utf8 "debug")], []⟩ []],
    e.Reversible) ∧ LoadsBack [⟨⟨1, [(utf8 "log_level", utf8 "debug")], []⟩, []⟩]
      (utf8 "2\t\tS\tlog") := by
  refine (log_reversible_iff (fun e he => ?_) _).2 ⟨?_, ?_⟩
  · rw [List.mem_singleton.1 he]
    refine ⟨fun kv hkv => ?_, nofun, nofun, by decide⟩
    rw [List.mem_singleton.1 hkv]
    exact ⟨.logLevel, by decide, by decide⟩
  · decide
  · intro line hline
    have hone : line = utf8 "2\t\tS\tlog" := by
      have hlines : lines (utf8 "2\t\tS\tlog") = [utf8 "2\t\tS\tlog"] := by decide
      rw [hlines] at hline
      exact List.mem_singleton.1 hline
    right
    rw [hone, reads_iff]
    decide

end Config

end HyperDerp
