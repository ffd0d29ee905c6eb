import HyperDerp.Config.Paths

/-!
# Commit log (`einheit_channel.cc:1028-1168`)

One line for each commit, its fields separated by tabs. The text of a path or a
value is written as it is. The file is the list of its bytes, and the timestamp of
a loaded record, which only `show commits` prints, is left out.
-/

namespace HyperDerp

namespace Config

open Text (utf8 tab newline lines fields joinFields)

structure CommitRecord where
  commitId : ℕ := 0
  sets : List (Bytes × Bytes) := []
  deletes : List Bytes := []
  deriving DecidableEq

def encodeCommitRecord (commitId : ℕ) (ts : Bytes) (rec : CommitRecord) : Bytes :=
  Text.decimal commitId ++ utf8 "\t" ++ ts ++
    (rec.sets.flatMap fun kv => utf8 "\tS\t" ++ kv.1 ++ utf8 "\t" ++ kv.2) ++
    (rec.deletes.flatMap fun k => utf8 "\tD\t" ++ k) ++ utf8 "\n"

def parseOps : List Bytes → Option (List (Bytes × Bytes) × List Bytes)
  | [] => some ([], [])
  | op :: toks =>
    if op = utf8 "S" then
      match toks with
      | k :: v :: rest => (parseOps rest).map fun ops => ((k, v) :: ops.1, ops.2)
      | [_] | [] => none
    else if op = utf8 "D" then
      match toks with
      | k :: rest => (parseOps rest).map fun ops => (ops.1, k :: ops.2)
      | [] => none
    else none

def parseCommitLine (line : Bytes) : Option CommitRecord :=
  match fields line with
  | id :: _ :: toks =>
    match stoull id with
    | none => none
    | some (commitId, _) => (parseOps toks).map fun ops => ⟨commitId, ops.1, ops.2⟩
  | [_] | [] => none

/-- The records of the lines that parse, and the number of bad lines. -/
def loadCommitLog (log : Bytes) : List CommitRecord × ℕ :=
  let full := (lines log).filter fun line => decide (line ≠ [])
  (full.filterMap parseCommitLine, (full.filter fun line => (parseCommitLine line).isNone).length)

/-! ### Round trip -/

def Clean (v : Bytes) : Prop := tab ∉ v ∧ newline ∉ v

instance (v : Bytes) : Decidable (Clean v) := inferInstanceAs (Decidable (_ ∧ _))

structure CommitRecord.Clean (rec : CommitRecord) : Prop where
  sets : ∀ kv ∈ rec.sets, Config.Clean kv.1 ∧ Config.Clean kv.2
  deletes : ∀ k ∈ rec.deletes, Config.Clean k

def CommitRecord.opFields (rec : CommitRecord) : List Bytes :=
  (rec.sets.flatMap fun kv => [utf8 "S", kv.1, kv.2]) ++ rec.deletes.flatMap fun k => [utf8 "D", k]

def CommitRecord.line (rec : CommitRecord) (ts : Bytes) : Bytes :=
  joinFields (Text.decimal rec.commitId :: ts :: rec.opFields)

variable {rec : CommitRecord} {ts : Bytes} {log : Bytes}

theorem encode_line (rec : CommitRecord) (ts : Bytes) :
    encodeCommitRecord rec.commitId ts rec = rec.line ts ++ [newline] := by
  have hS : utf8 "\tS\t" = tab :: utf8 "S" ++ [tab] := by decide
  have hD : utf8 "\tD\t" = tab :: utf8 "D" ++ [tab] := by decide
  have ht : utf8 "\t" = [tab] := by decide
  have hn : utf8 "\n" = [newline] := by decide
  rw [encodeCommitRecord, CommitRecord.line, Text.joinFields_cons, hS, hD, ht, hn]
  simp [CommitRecord.opFields, List.flatMap_append, List.flatMap_assoc]

theorem parseOps_set (k v : Bytes) (toks : List Bytes) :
    parseOps (utf8 "S" :: k :: v :: toks) =
      (parseOps toks).map fun ops => ((k, v) :: ops.1, ops.2) := by
  simp only [parseOps, if_true]

theorem parseOps_delete (k : Bytes) (toks : List Bytes) :
    parseOps (utf8 "D" :: k :: toks) = (parseOps toks).map fun ops => (ops.1, k :: ops.2) := by
  have hne : utf8 "D" ≠ utf8 "S" := by decide
  cases toks with
  | nil => simp only [parseOps, if_neg hne, if_true]
  | cons v toks => simp only [parseOps, if_neg hne, if_true]

theorem parseOps_deletes (ks : List Bytes) :
    parseOps (ks.flatMap fun k => [utf8 "D", k]) = some ([], ks) := by
  induction ks with
  | nil => rfl
  | cons k ks ih =>
    rw [List.flatMap_cons, List.cons_append, List.cons_append, List.nil_append, parseOps_delete, ih]
    rfl

theorem parseOps_opFields (rec : CommitRecord) :
    parseOps rec.opFields = some (rec.sets, rec.deletes) := by
  obtain ⟨id, sets, deletes⟩ := rec
  simp only [CommitRecord.opFields]
  induction sets with
  | nil => exact parseOps_deletes deletes
  | cons kv sets ih =>
    simp only [List.flatMap_cons, List.cons_append, List.nil_append, parseOps_set, ih,
      Option.map_some]

theorem clean_decimal (n : ℕ) : Clean (Text.decimal n) := by
  constructor
  · intro h
    exact absurd (Text.isDigit_decimal _ h) (by decide)
  · intro h
    exact absurd (Text.isDigit_decimal _ h) (by decide)

theorem clean_fields (h : rec.Clean) (hts : Clean ts) :
    ∀ f ∈ Text.decimal rec.commitId :: ts :: rec.opFields, Clean f := by
  intro f hf
  simp only [CommitRecord.opFields, List.mem_cons, List.mem_append, List.mem_flatMap,
    List.not_mem_nil, or_false] at hf
  rcases hf with rfl | rfl | ⟨kv, hkv, rfl | rfl | rfl⟩ | ⟨k, hk, rfl | rfl⟩
  · exact clean_decimal _
  · exact hts
  · decide
  · exact (h.sets kv hkv).1
  · exact (h.sets kv hkv).2
  · decide
  · exact h.deletes _ hk

theorem newline_not_mem_line (h : rec.Clean) (hts : Clean ts) : newline ∉ rec.line ts := by
  have hf := clean_fields h hts
  intro hn
  rw [CommitRecord.line, Text.joinFields_cons, List.mem_append, List.mem_flatMap] at hn
  rcases hn with hn | ⟨f, hmem, hn⟩
  · exact (hf _ (List.mem_cons_self ..)).2 hn
  · rcases List.mem_cons.1 hn with heq | hn
    · exact absurd heq (by decide)
    · exact (hf f (List.mem_cons_of_mem _ hmem)).2 hn

theorem line_ne_nil (rec : CommitRecord) (ts : Bytes) : rec.line ts ≠ [] := by
  rw [CommitRecord.line, Text.joinFields_cons]
  intro h
  exact Text.decimal_ne_nil _ (List.append_eq_nil_iff.1 h).1

theorem stoull_decimal {n : ℕ} (h : n < 2 ^ 64) :
    stoull (Text.decimal n) = some (n, (Text.decimal n).length) := by
  unfold stoull
  rw [Text.readInteger_decimal]
  simp only [h, if_true, Bool.false_eq_true, if_false]

theorem parse_line (h : rec.Clean) (hts : Clean ts) (hid : rec.commitId < 2 ^ 64) :
    parseCommitLine (rec.line ts) = some rec := by
  have hfields : fields (rec.line ts) = Text.decimal rec.commitId :: ts :: rec.opFields :=
    Text.fields_join (fun f hf => (clean_fields h hts f hf).1) nofun
  unfold parseCommitLine
  rw [hfields]
  simp only [stoull_decimal hid, parseOps_opFields, Option.map_some]

/-! ### Logs of clean records -/

structure Entry where
  record : CommitRecord
  ts : Bytes

structure Entry.Ok (e : Entry) : Prop where
  record : e.record.Clean
  ts : Config.Clean e.ts
  id : e.record.commitId < 2 ^ 64

def logOf (entries : List Entry) : Bytes :=
  entries.flatMap fun e => encodeCommitRecord e.record.commitId e.ts e.record

theorem logOf_append (entries : List Entry) (e : Entry) :
    logOf (entries ++ [e]) = logOf entries ++ encodeCommitRecord e.record.commitId e.ts e.record := by
  simp [logOf]

theorem lines_logOf {entries : List Entry} (h : ∀ e ∈ entries, e.Ok) :
    lines (logOf entries) = entries.map fun e => e.record.line e.ts := by
  have hlog : logOf entries = (entries.map fun e => e.record.line e.ts).flatMap
      fun l => l ++ [newline] := by
    simp only [logOf, encode_line, List.flatMap_map]
  rw [hlog]
  apply Text.lines_flatMap
  intro l hl
  obtain ⟨e, he, rfl⟩ := List.mem_map.1 hl
  exact newline_not_mem_line (h e he).record (h e he).ts

theorem load_logOf {entries : List Entry} (h : ∀ e ∈ entries, e.Ok) :
    loadCommitLog (logOf entries) = (entries.map Entry.record, 0) := by
  have hfull : ((lines (logOf entries)).filter fun line => decide (line ≠ [])) =
      entries.map fun e => e.record.line e.ts := by
    rw [lines_logOf h, List.filter_eq_self]
    intro l hl
    obtain ⟨e, -, rfl⟩ := List.mem_map.1 hl
    exact decide_eq_true (line_ne_nil e.record e.ts)
  have hparse : ∀ e ∈ entries, parseCommitLine (e.record.line e.ts) = some e.record :=
    fun e he => parse_line (h e he).record (h e he).ts (h e he).id
  unfold loadCommitLog
  simp only [hfull, Prod.mk.injEq, List.filterMap_map]
  constructor
  · clear hfull h
    induction entries with
    | nil => rfl
    | cons e entries ih =>
      have hrest : ∀ e ∈ entries, parseCommitLine (e.record.line e.ts) = some e.record :=
        fun e he => hparse e (List.mem_cons_of_mem _ he)
      rw [List.filterMap_cons, Function.comp_apply, hparse e (List.mem_cons_self ..), ih hrest,
        List.map_cons]
  · rw [List.length_eq_zero_iff, List.filter_eq_nil_iff]
    intro l hl
    obtain ⟨e, he, rfl⟩ := List.mem_map.1 hl
    rw [hparse e he]
    exact Bool.false_ne_true

end Config

end HyperDerp
