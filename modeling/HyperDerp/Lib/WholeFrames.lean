import HyperDerp.Lib.Framing
import Mathlib.Data.List.Induction

/-!
# Streams of whole frames

A sender writes whole frames with acceptable headers. Wherever such a stream ends and however it
is cut, a receiver that scans each piece behind what the last one left finds the first frames.
-/

namespace Framing

variable {α : Type} (F : Format α) (p : ℕ → Bool)

/-- One frame with an acceptable header. -/
structure Whole (f : List α) : Prop where
  hdr : F.hdr ≤ f.length
  size : F.size f = f.length
  ok : p (F.len f) = true

variable {F p} {f s : List α} {fs : List (List α)}

theorem Whole.scan (h : Whole F p f) (t : List α) :
    scan F p (f ++ t) = { scan F p t with frames := f :: (scan F p t).frames } := by
  have hsize : F.size (f ++ t) = f.length := (size_append F t h.hdr).trans h.size
  have hc : F.Complete (f ++ t) := ⟨by simpa using Nat.le_add_right_of_le h.hdr, by simp [hsize]⟩
  have hok : p (F.len (f ++ t)) = true := by rw [F.len_append f t h.hdr, h.ok]
  rw [scan_frame F p hok hc, hsize, List.take_left', List.drop_left']
  · rfl
  · rfl

theorem Whole.pending (h : Whole F p f) (hs : s <+: f) (hlt : s.length < f.length) :
    Pending F p s := by
  obtain ⟨t, rfl⟩ := hs
  by_cases hhdr : s.length < F.hdr
  · exact .inl hhdr
  · have hle : F.hdr ≤ s.length := by omega
    have hok := h.ok
    have hsize := h.size
    rw [F.len_append s t hle] at hok
    rw [size_append F t hle] at hsize
    exact .inr ⟨hok, by omega⟩

theorem scan_whole (hfs : ∀ f ∈ fs, Whole F p f) (hs : s <+: fs.flatten) :
    (scan F p s).frames <+: fs ∧ (scan F p s).stopped = false := by
  induction fs generalizing s with
  | nil =>
    have hnil : s = [] := List.prefix_nil.1 hs
    subst hnil
    rw [scan_pending F p (pending_nil F p)]
    exact ⟨List.prefix_rfl, rfl⟩
  | cons f fs ih =>
    have hf := hfs f (List.mem_cons_self ..)
    rw [List.flatten_cons] at hs
    by_cases hlt : s.length < f.length
    · have hpre : s <+: f := List.prefix_of_prefix_length_le hs (List.prefix_append ..) (by omega)
      rw [scan_pending F p (hf.pending hpre hlt)]
      exact ⟨List.nil_prefix, rfl⟩
    · have hpre : f <+: s := List.prefix_of_prefix_length_le (List.prefix_append ..) hs (by omega)
      obtain ⟨t, rfl⟩ := hpre
      obtain ⟨hframes, hstop⟩ := ih (fun g hg => hfs g (List.mem_cons_of_mem _ hg))
        ((List.prefix_append_right_inj f).1 hs)
      rw [hf.scan]
      exact ⟨List.cons_prefix_cons.2 ⟨rfl, hframes⟩, hstop⟩

variable (F p)

/-- Each piece is scanned behind what the last one left; after an unacceptable header the rest of
the piece is gone. -/
def feed (chunks : List (List α)) : List (List α) × List α :=
  chunks.foldl (fun r chunk =>
    let sc := scan F p (r.2 ++ chunk)
    (r.1 ++ sc.frames, if sc.stopped then [] else sc.rest)) ([], [])

theorem feed_snoc (chunks : List (List α)) (chunk : List α) :
    feed F p (chunks ++ [chunk]) =
      ((feed F p chunks).1 ++ (scan F p ((feed F p chunks).2 ++ chunk)).frames,
        if (scan F p ((feed F p chunks).2 ++ chunk)).stopped then []
        else (scan F p ((feed F p chunks).2 ++ chunk)).rest) := by
  unfold feed
  rw [List.foldl_append]
  rfl

theorem feed_pending (chunks : List (List α)) : Pending F p (feed F p chunks).2 := by
  rcases List.eq_nil_or_concat chunks with rfl | ⟨init, chunk, rfl⟩
  · exact pending_nil F p
  · rw [List.concat_eq_append, feed_snoc]
    dsimp only
    split
    · exact pending_nil F p
    · next h => exact scan_rest F p _ (by simpa using h)

variable {F p}

theorem feed_whole {chunks : List (List α)} (hfs : ∀ f ∈ fs, Whole F p f)
    (h : chunks.flatten <+: fs.flatten) :
    feed F p chunks = ((scan F p chunks.flatten).frames, (scan F p chunks.flatten).rest) := by
  induction chunks using List.reverseRecOn with
  | nil =>
    rw [List.flatten_nil, scan_pending F p (pending_nil F p)]
    rfl
  | append_singleton chunks chunk ih =>
    rw [List.flatten_append, List.flatten_singleton] at h ⊢
    have hbefore : chunks.flatten <+: fs.flatten := (List.prefix_append ..).trans h
    obtain ⟨-, hstop⟩ := scan_whole hfs hbefore
    have hall := (scan_whole hfs h).2
    have happ := scan_append F p chunks.flatten chunk
    rw [hstop, if_neg Bool.noConfusion] at happ
    rw [happ] at hall
    rw [feed_snoc, ih hbefore, happ, hall]
    rfl

theorem feed_frames_prefix {chunks : List (List α)} (hfs : ∀ f ∈ fs, Whole F p f)
    (h : chunks.flatten <+: fs.flatten) : (feed F p chunks).1 <+: fs := by
  rw [feed_whole hfs h]
  exact (scan_whole hfs h).1

end Framing
