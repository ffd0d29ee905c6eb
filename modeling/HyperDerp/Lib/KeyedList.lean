import Mathlib.Data.List.Nodup
import Mathlib.Data.List.Perm.Basic

/-!
# Maps as lists of entries

A map is the list of its entries in the order in which a scan meets them; no two have the same
key. A scan for something that at most one entry has finds it in any order.
-/

namespace KeyedList

variable {α κ : Type} {key : α → κ} {l l' : List α} {x y : α} {k : κ}

def Keyed (key : α → κ) (l : List α) : Prop := (l.map key).Nodup

theorem Keyed.inj (h : Keyed key l) (hx : x ∈ l) (hy : y ∈ l) (heq : key x = key y) : x = y :=
  List.inj_on_of_nodup_map h hx hy heq

theorem Keyed.perm (h : Keyed key l) (hp : l'.Perm l) : Keyed key l' :=
  (hp.map key).nodup_iff.mpr h

theorem Keyed.filter (h : Keyed key l) (p : α → Bool) : Keyed key (l.filter p) :=
  h.sublist (List.filter_sublist.map key)

theorem find?_unique {p : α → Bool} (hx : x ∈ l) (hp : p x = true)
    (huniq : ∀ y ∈ l, p y = true → y = x) : l.find? p = some x := by
  cases hfind : l.find? p with
  | none =>
    have hnone := List.find?_eq_none.mp hfind x hx
    exact (hnone hp).elim
  | some y => rw [huniq y (List.mem_of_find?_eq_some hfind) (List.find?_some hfind)]

theorem filter_unique {p : α → Bool} (hl : l.Nodup) (hx : x ∈ l) (hp : p x = true)
    (huniq : ∀ y ∈ l, p y = true → y = x) : l.filter p = [x] := by
  apply List.perm_singleton.mp
  rw [List.perm_ext_iff_of_nodup (hl.filter p) (List.nodup_singleton x)]
  intro y
  rw [List.mem_filter, List.mem_singleton]
  constructor
  · exact fun h => huniq y h.1 h.2
  · rintro rfl
    exact ⟨hx, hp⟩

section

variable [DecidableEq κ]

/-- `m[key x] = x` -/
def assign (key : α → κ) (x : α) (l : List α) : List α := x :: l.filter (key · ≠ key x)

def erase (key : α → κ) (k : κ) (l : List α) : List α := l.filter (key · ≠ k)

@[simp] theorem mem_assign : y ∈ assign key x l ↔ y = x ∨ y ∈ l ∧ key y ≠ key x := by
  simp [assign]

@[simp] theorem mem_erase : y ∈ erase key k l ↔ y ∈ l ∧ key y ≠ k := by simp [erase]

theorem Keyed.assign (h : Keyed key l) : Keyed key (assign key x l) := by
  refine List.nodup_cons.mpr ⟨?_, h.filter _⟩
  simp

theorem Keyed.erase (h : Keyed key l) : Keyed key (erase key k l) := h.filter _

end

end KeyedList
