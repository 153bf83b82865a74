import RtlCores.Lib.Bits

/-!
# Clocked machines

A synchronous circuit is a step function from an input and a state to the next state;
a run is driven by a stream of inputs, one per clock period.  This module has the rules
by which facts about one period become facts about runs: the invariant rule, the rule for
two machines related period by period, the pointwise rule for runs whose every period
meets a condition, and the conservation rule for items that enter and leave.
-/

namespace RtlCores.Lib

variable {I S T : Type*}

/-- The state after `n` periods of `step` driven by the input stream `is`. -/
def run (step : I → S → S) (is : Nat → I) (s : S) : Nat → S
  | 0 => s
  | n + 1 => step (is n) (run step is s n)

@[simp] theorem run_zero (step : I → S → S) (is : Nat → I) (s : S) :
    run step is s 0 = s := rfl

@[simp] theorem run_succ (step : I → S → S) (is : Nat → I) (s : S) (n : Nat) :
    run step is s (n + 1) = step (is n) (run step is s n) := rfl

/-- A run of `m + n` periods is a run of `m` periods followed by one of `n`. -/
theorem run_add (step : I → S → S) (is : Nat → I) (s : S) (m n : Nat) :
    run step is s (m + n) = run step (fun k ↦ is (m + k)) (run step is s m) n := by
  induction n with
  | zero => rfl
  | succ n ih => rw [← Nat.add_assoc, run_succ, ih, run_succ]

/-- `s` is reached from a state satisfying `init` by some run. -/
def Reachable (init : S → Prop) (step : I → S → S) (s : S) : Prop :=
  ∃ s₀ is n, init s₀ ∧ run step is s₀ n = s

/-- The invariant rule: what holds initially and is kept by every period holds in every
state of every run. -/
theorem run_invariant (step : I → S → S) (P : S → Prop) (hstep : ∀ i s, P s → P (step i s))
    (is : Nat → I) {s : S} (h : P s) (n : Nat) : P (run step is s n) := by
  induction n with
  | zero => exact h
  | succ n ih => exact hstep _ _ ih

theorem Reachable.invariant {init : S → Prop} {step : I → S → S} {P : S → Prop}
    (hinit : ∀ s, init s → P s) (hstep : ∀ i s, P s → P (step i s)) {s : S}
    (h : Reachable init step s) : P s := by
  obtain ⟨s₀, is, n, h₀, rfl⟩ := h
  exact run_invariant step P hstep is (hinit s₀ h₀) n

/-- A run depends on the inputs of its periods only. -/
theorem run_congr (step : I → S → S) {is js : Nat → I} (s : S) {n : Nat}
    (h : ∀ k < n, is k = js k) : run step is s n = run step js s n := by
  induction n with
  | zero => rfl
  | succ n ih =>
    rw [run_succ, run_succ, ih fun k hk ↦ h k (Nat.lt_succ_of_lt hk), h n (Nat.lt_succ_self n)]

/-- What is reached from a reachable state is reachable. -/
theorem Reachable.run {init : S → Prop} {step : I → S → S} {s : S} (h : Reachable init step s)
    (is : Nat → I) (n : Nat) : Reachable init step (run step is s n) := by
  obtain ⟨s₀, js, m, h₀, rfl⟩ := h
  refine ⟨s₀, fun k ↦ if k < m then js k else is (k - m), m + n, h₀, ?_⟩
  have hfirst : Lib.run step (fun k ↦ if k < m then js k else is (k - m)) s₀ m =
      Lib.run step js s₀ m := run_congr step s₀ fun k hk ↦ if_pos hk
  rw [run_add, hfirst]
  refine run_congr step _ fun k _ ↦ ?_
  show (if m + k < m then js (m + k) else is (m + k - m)) = is k
  rw [if_neg (Nat.not_lt.mpr (Nat.le_add_right m k)), Nat.add_sub_cancel_left]

/-- The simulation rule: two machines whose states stay related period by period, from related
states and under the same inputs, under a condition `C` that the left run meets in every
period. -/
theorem run_simulates_of (step : I → S → S) (step' : I → T → T) (R : S → T → Prop)
    (C : I → S → Prop) (hstep : ∀ i s t, C i s → R s t → R (step i s) (step' i t))
    (is : Nat → I) {s : S} {t : T} (hC : ∀ n, C (is n) (run step is s n)) (h : R s t)
    (n : Nat) : R (run step is s n) (run step' is t n) := by
  induction n with
  | zero => exact h
  | succ n ih => exact hstep _ _ _ (hC n) ih

/-- Two machines in the same state agree throughout a run exactly when the steps that the one of
them takes are steps of the other. -/
theorem run_eq_iff (step step' : I → S → S) (is : Nat → I) (s : S) :
    (∀ n, run step is s n = run step' is s n) ↔
      ∀ n, step (is n) (run step is s n) = step' (is n) (run step is s n) := by
  constructor
  · intro h n
    have hnext := h (n + 1)
    rwa [run_succ, run_succ, ← h n] at hnext
  · intro h n
    induction n with
    | zero => rfl
    | succ n ih => rw [run_succ, h n, ih, run_succ]

/-! ## Items that enter and leave -/

variable {α : Type*}

/-- The items that `out` emits during the first `n` periods of a run, in order. -/
def emitted (out : I → S → Option α) (step : I → S → S) (is : Nat → I) (s : S) : Nat → List α
  | 0 => []
  | n + 1 => emitted out step is s n ++ (out (is n) (run step is s n)).toList

theorem emitted_add (out : I → S → Option α) (step : I → S → S) (is : Nat → I) (s : S)
    (m n : Nat) :
    emitted out step is s (m + n) =
      emitted out step is s m ++ emitted out step (fun k ↦ is (m + k)) (run step is s m) n := by
  induction n with
  | zero => exact (List.append_nil _).symm
  | succ n ih => rw [← Nat.add_assoc, emitted, ih, run_add, emitted, List.append_assoc]

/-- A run emits nothing exactly if none of its periods does. -/
theorem emitted_eq_nil_iff (out : I → S → Option α) (step : I → S → S) (is : Nat → I) (s : S)
    (n : Nat) : emitted out step is s n = [] ↔ ∀ k < n, out (is k) (run step is s k) = none := by
  induction n with
  | zero =>
    refine iff_of_true rfl ?_
    rintro k hk
    exact absurd hk (Nat.not_lt_zero k)
  | succ n ih =>
    rw [emitted, List.append_eq_nil_iff, ih, Option.toList_eq_nil_iff]
    constructor
    · rintro ⟨hbefore, hlast⟩ k hk
      rcases Nat.lt_succ_iff_lt_or_eq.mp hk with hlt | rfl
      · exact hbefore k hlt
      · exact hlast
    · rintro hall
      exact ⟨fun k hk ↦ hall k (Nat.lt_succ_of_lt hk), hall n (Nat.lt_succ_self n)⟩

/-- The conservation rule: if in every period what is held and what comes in is what goes
out and what is held afterwards, then the same is true of a run. -/
theorem emitted_conserve (step : I → S → S) (enter leave : I → S → Option α)
    (held : S → List α) (is : Nat → I) (s : S) (n : Nat)
    (hstep : ∀ k < n, held (run step is s k) ++ (enter (is k) (run step is s k)).toList =
      (leave (is k) (run step is s k)).toList ++ held (run step is s (k + 1))) :
    held s ++ emitted enter step is s n = emitted leave step is s n ++ held (run step is s n) := by
  induction n with
  | zero => simp [emitted]
  | succ n ih =>
    have hpre := ih fun k hk ↦ hstep k (Nat.lt_succ_of_lt hk)
    calc held s ++ emitted enter step is s (n + 1)
        = (held s ++ emitted enter step is s n) ++ (enter (is n) (run step is s n)).toList := by
          rw [emitted, List.append_assoc]
      _ = emitted leave step is s n ++
            (held (run step is s n) ++ (enter (is n) (run step is s n)).toList) := by
          rw [hpre, List.append_assoc]
      _ = emitted leave step is s (n + 1) ++ held (run step is s (n + 1)) := by
          rw [hstep n (by omega), emitted, List.append_assoc]

end RtlCores.Lib
