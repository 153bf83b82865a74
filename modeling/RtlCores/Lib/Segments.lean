import Mathlib.Data.List.Basic

/-!
# Segments of a list

The maximal stretches of a list without a separator, in order.  A list is read from the front as its
first segment, the separators behind it, and the rest.
-/

namespace RtlCores.Lib

section Flatten

variable {α : Type*}

theorem flatten_modifyHead_cons (x : α) {ls : List (List α)} (h : ls ≠ []) :
    (ls.modifyHead (List.cons x)).flatten = x :: ls.flatten := by
  cases ls with
  | nil => exact absurd rfl h
  | cons r rs => rfl

theorem flatten_filter_isEmpty (ls : List (List α)) :
    (ls.filter fun r ↦ !r.isEmpty).flatten = ls.flatten := by
  induction ls with
  | nil => rfl
  | cons r rs ih =>
    cases r with
    | nil => exact ih
    | cons x r => rw [List.filter_cons_of_pos rfl, List.flatten_cons, ih, List.flatten_cons]

end Flatten

variable {α : Type*} [DecidableEq α] {sep : α} {l r : List α}

/-- The maximal stretches of `l` without `sep`. -/
def segments (sep : α) (l : List α) : List (List α) := (l.splitOn sep).filter fun r ↦ !r.isEmpty

theorem ne_nil_of_mem_segments (h : r ∈ segments sep l) : r ≠ [] := by
  obtain ⟨-, hne⟩ := List.mem_filter.mp h
  rintro rfl
  exact Bool.false_ne_true hne

/-- A list without separators is its own segment, unless it is empty. -/
theorem segments_of_notMem (h : sep ∉ l) : segments sep l = if l = [] then [] else [l] := by
  have hsplit : l.splitOn sep = [l] := by
    rw [List.splitOn_eq_splitOnP]
    refine List.splitOnP_eq_singleton ?_
    rintro x hx
    rw [beq_eq_false_iff_ne]
    rintro rfl
    exact h hx
  rw [segments, hsplit]
  cases l with
  | nil => rfl
  | cons x l => rfl

theorem segments_append_sep (l l' : List α) :
    segments sep (l ++ sep :: l') = segments sep l ++ segments sep l' := by
  have hsplit : (l ++ sep :: l').splitOn sep = l.splitOn sep ++ l'.splitOn sep :=
    List.splitOnP_append_cons l l' (beq_self_eq_true sep)
  rw [segments, hsplit, List.filter_append]
  rfl

theorem segments_replicate_append (n : Nat) (l : List α) :
    segments sep (List.replicate n sep ++ l) = segments sep l := by
  induction n with
  | zero => rfl
  | succ n ih =>
    have hcons : List.replicate (n + 1) sep ++ l = [] ++ sep :: (List.replicate n sep ++ l) := rfl
    rw [hcons, segments_append_sep, ih, segments_of_notMem List.not_mem_nil]
    rfl

/-- Every element that is no separator is in a segment, once and in its place. -/
theorem flatten_segments (sep : α) (l : List α) :
    (segments sep l).flatten = l.filter (· ≠ sep) := by
  rw [segments, flatten_filter_isEmpty]
  induction l with
  | nil => rfl
  | cons x l ih =>
    rw [List.splitOn_cons_eq_if_modifyHead]
    by_cases hx : x = sep
    · subst hx
      rw [if_pos (beq_self_eq_true x), List.flatten_cons, ih, List.filter_cons_of_neg (by simp)]
      rfl
    · rw [if_neg (by simpa using hx), flatten_modifyHead_cons x (List.splitOn_ne_nil sep l), ih,
        List.filter_cons_of_pos (by simpa using hx)]

/-- A list is `r`, its first segment, then `n` separators, then `rest`. -/
structure FirstSegment (sep : α) (l r : List α) (n : Nat) (rest : List α) : Prop where
  eq : l = r ++ (List.replicate n sep ++ rest)
  notMem : sep ∉ r
  head : rest.head? ≠ some sep
  ends : n = 0 → rest = []

theorem exists_firstSegment (sep : α) (l : List α) : ∃ r n rest, FirstSegment sep l r n rest := by
  induction l with
  | nil => exact ⟨[], 0, [], rfl, List.not_mem_nil, by simp, fun _ ↦ rfl⟩
  | cons x l ih =>
    obtain ⟨r, n, rest, h⟩ := ih
    by_cases hx : x = sep
    · subst hx
      cases r with
      | nil =>
        refine ⟨[], n + 1, rest, ?_, List.not_mem_nil, h.head, fun h0 ↦ absurd h0 (by simp)⟩
        rw [h.eq]
        rfl
      | cons y r =>
        refine ⟨[], 1, l, rfl, List.not_mem_nil, ?_, fun h1 ↦ absurd h1 (by simp)⟩
        rw [h.eq]
        rintro ⟨⟩
        exact h.notMem List.mem_cons_self
    · refine ⟨x :: r, n, rest, ?_, ?_, h.head, h.ends⟩
      · rw [h.eq]
        rfl
      · rw [List.mem_cons, not_or]
        exact ⟨Ne.symm hx, h.notMem⟩

theorem FirstSegment.segments {n : Nat} {rest : List α} (h : FirstSegment sep l r n rest) :
    Lib.segments sep l = (if r = [] then [] else [r]) ++ Lib.segments sep rest := by
  cases n with
  | zero =>
    rw [h.eq, h.ends rfl]
    show Lib.segments sep (r ++ []) = _
    rw [List.append_nil, segments_of_notMem h.notMem]
    exact (List.append_nil (if r = [] then [] else [r])).symm
  | succ n =>
    have heq : l = r ++ sep :: (List.replicate n sep ++ rest) := h.eq
    rw [heq, segments_append_sep, segments_of_notMem h.notMem, segments_replicate_append]

end RtlCores.Lib
