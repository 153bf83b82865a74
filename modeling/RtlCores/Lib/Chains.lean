import Mathlib.Data.List.Infix
import RtlCores.Lib.Clocked
import RtlCores.Lib.Serial

/-!
# Growing lists and streams

A machine that steps now and then leaves a list of the inputs of its steps, which grows.  The lists
of a growing chain are the beginnings of one stream, so such a machine is driven by a stream.
-/

namespace RtlCores.Lib

variable {α S : Type*}

theorem getElem_trace (x : Nat → α) (t n k : Nat) (hk : k < (trace x t n).length) :
    (trace x t n)[k] = x (t + k) := by
  simp only [trace, List.getElem_map, List.getElem_range]

/-- Later lists of a growing chain begin with the earlier ones. -/
theorem prefix_of_chain {f : Nat → List α} (h : ∀ n, f n <+: f (n + 1)) {m n : Nat} (hmn : m ≤ n) :
    f m <+: f n := by
  induction n, hmn using Nat.le_induction with
  | base => exact List.prefix_rfl
  | succ n _ ih => exact ih.trans (h n)

/-- A growing chain of lists consists of the beginnings of a stream. -/
theorem exists_stream [Inhabited α] {f : Nat → List α} (h : ∀ n, f n <+: f (n + 1)) :
    ∃ x : Nat → α, ∀ n, f n = trace x 0 (f n).length := by
  classical
  refine ⟨fun k ↦ if hk : ∃ n, k < (f n).length then (f hk.choose).get ⟨k, hk.choose_spec⟩
    else default, fun n ↦ ?_⟩
  refine List.ext_getElem (length_trace _ _ _).symm fun k hk _ ↦ ?_
  have hex : ∃ n, k < (f n).length := ⟨n, hk⟩
  rw [getElem_trace, Nat.zero_add, dif_pos hex]
  rcases Nat.le_total n hex.choose with hle | hle
  · exact (prefix_of_chain h hle).getElem hk
  · exact ((prefix_of_chain h hle).getElem hex.choose_spec).symm

/-- The inputs of a run one after another. -/
theorem foldl_trace (step : α → S → S) (x : Nat → α) (s : S) (n : Nat) :
    (trace x 0 n).foldl (fun s i ↦ step i s) s = run step x s n := by
  induction n with
  | zero => rfl
  | succ n ih => rw [trace_succ, List.foldl_append, ih, Nat.zero_add]; rfl

/-- A chain that grows again and again grows beyond all bounds. -/
theorem exists_length_ge {f : Nat → List α} (h : ∀ n, f n <+: f (n + 1))
    (hgrows : ∀ n, ∃ m, n ≤ m ∧ (f m).length < (f (m + 1)).length) (k : Nat) :
    ∃ n, k ≤ (f n).length := by
  induction k with
  | zero => exact ⟨0, Nat.zero_le _⟩
  | succ k ih =>
    obtain ⟨n, hn⟩ := ih
    obtain ⟨m, hnm, hm⟩ := hgrows n
    exact ⟨m + 1, (hn.trans (prefix_of_chain h hnm).length_le).trans_lt hm⟩

end RtlCores.Lib
