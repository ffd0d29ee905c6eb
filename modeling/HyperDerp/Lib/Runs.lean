/-!
# Runs of a labelled step function

A system is an initial condition and a function `step : S → L → Option S`, where
`none` means that the label is not enabled. `Reach` collects the states of all
runs whose every step satisfies a side condition `ok` on the state before the
step and its label. Invariants are proved with `Reach.invariant`; concrete runs
are computed with `run` and turned into reachable states with `reach_of_run`.
-/

namespace Runs

variable {S L : Type} (init : S → Prop) (step : S → L → Option S) (ok : S → L → Prop)

inductive Reach : S → Prop
  | start (s : S) : init s → Reach s
  | next (s s' : S) (l : L) : Reach s → ok s l → step s l = some s' → Reach s'

def Any : S → L → Prop := fun _ _ => True

variable {init step ok}

theorem Reach.invariant {P : S → Prop} (h0 : ∀ s, init s → P s)
    (hs : ∀ s s' l, P s → ok s l → step s l = some s' → P s') {s : S}
    (h : Reach init step ok s) : P s := by
  induction h with
  | start s h => exact h0 s h
  | next s s' l _ hok hstep ih => exact hs s s' l ih hok hstep

theorem Reach.mono {ok' : S → L → Prop} (himp : ∀ s l, ok s l → ok' s l) {s : S}
    (h : Reach init step ok s) : Reach init step ok' s := by
  induction h with
  | start s h => exact .start s h
  | next s s' l _ hok hstep ih => exact .next s s' l ih (himp s l hok) hstep

def run (step : S → L → Option S) : S → List L → Option S
  | s, [] => some s
  | s, l :: ls =>
    match step s l with
    | some s' => run step s' ls
    | none => none

theorem run_snoc (s : S) (ls : List L) (l : L) :
    run step s (ls ++ [l]) = (run step s ls).bind fun s' => step s' l := by
  induction ls generalizing s with
  | nil =>
    simp only [List.nil_append, run, Option.bind_some]
    cases step s l <;> rfl
  | cons l' ls ih =>
    simp only [List.cons_append, run]
    cases step s l' with
    | none => rfl
    | some s1 => exact ih s1

theorem run_append (s : S) (xs ys : List L) :
    run step s (xs ++ ys) = (run step s xs).bind fun s' => run step s' ys := by
  induction xs generalizing s with
  | nil => rfl
  | cons x xs ih =>
    simp only [List.cons_append, run]
    cases step s x with
    | none => rfl
    | some s' => exact ih s'

def RunOk (step : S → L → Option S) (ok : S → L → Prop) : S → List L → Prop
  | _, [] => True
  | s, l :: ls => ok s l ∧ ∀ s', step s l = some s' → RunOk step ok s' ls

theorem reach_run {s s' : S} (hs : Reach init step ok s) {ls : List L} (hok : RunOk step ok s ls)
    (h : run step s ls = some s') : Reach init step ok s' := by
  induction ls generalizing s with
  | nil =>
    cases h
    exact hs
  | cons l ls ih =>
    simp only [run] at h
    split at h
    · next s1 hstep => exact ih (.next s s1 l hs hok.1 hstep) (hok.2 s1 hstep) h
    · cases h

theorem runOk_of_forall {ls : List L} (h : ∀ s, ∀ l ∈ ls, ok s l) (s : S) :
    RunOk step ok s ls := by
  induction ls generalizing s with
  | nil => trivial
  | cons l ls ih =>
    refine ⟨h s l (List.mem_cons_self ..), fun s' _ => ih (fun s l hl => ?_) s'⟩
    exact h s l (List.mem_cons_of_mem _ hl)

theorem runOk_of_kept {P : S → Prop} {ls : List L} (hok : ∀ s, P s → ∀ l ∈ ls, ok s l)
    (hkept : ∀ s s', P s → ∀ l ∈ ls, step s l = some s' → P s') {s : S} (h : P s) :
    RunOk step ok s ls := by
  induction ls generalizing s with
  | nil => trivial
  | cons l ls ih =>
    refine ⟨hok s h l (List.mem_cons_self ..), fun s' hs => ?_⟩
    apply ih
    · exact fun s hs l hl => hok s hs l (List.mem_cons_of_mem _ hl)
    · exact fun s s' hs l hl => hkept s s' hs l (List.mem_cons_of_mem _ hl)
    · exact hkept s s' h l (List.mem_cons_self ..) hs

theorem RunOk.mono {ok' : S → L → Prop} {s : S} {ls : List L} (h : RunOk step ok s ls)
    (himp : ∀ s l, ok s l → ok' s l) : RunOk step ok' s ls := by
  induction ls generalizing s with
  | nil => trivial
  | cons l ls ih => exact ⟨himp s l h.1, fun s' hs => ih (h.2 s' hs)⟩

theorem runOk_snoc {s : S} {ls : List L} {l : L} (h : RunOk step ok s ls) (hl : ∀ s, ok s l) :
    RunOk step ok s (ls ++ [l]) := by
  induction ls generalizing s with
  | nil => exact ⟨hl s, fun _ _ => trivial⟩
  | cons l' ls ih => exact ⟨h.1, fun s' hs => ih (h.2 s' hs)⟩

theorem runOk_any (s : S) (ls : List L) : RunOk step Any s ls :=
  runOk_of_forall (fun _ _ _ => trivial) s

theorem reach_of_run {s s' : S} (hs : init s) {ls : List L} (h : run step s ls = some s') :
    Reach init step Any s' :=
  reach_run (.start s hs) (runOk_any s ls) h

/-- Runs whose every step passes the test of its side condition. -/
def guarded (step : S → L → Option S) (ok : S → L → Prop) [∀ s l, Decidable (ok s l)] (s : S)
    (l : L) : Option S :=
  if ok s l then step s l else none

theorem reach_of_guarded [∀ s l, Decidable (ok s l)] {s s' : S} (hs : Reach init step ok s)
    {ls : List L} (h : run (guarded step ok) s ls = some s') : Reach init step ok s' := by
  induction ls generalizing s with
  | nil =>
    cases h
    exact hs
  | cons l ls ih =>
    simp only [run] at h
    split at h
    · next s1 hstep =>
      simp only [guarded, Option.ite_none_right_eq_some] at hstep
      exact ih (.next s s1 l hs hstep.1 hstep.2) h
    · cases h

end Runs
