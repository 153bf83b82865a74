import Mathlib

/-!
# Stretches of time cut at the multiples of a phase

Time is a natural number.  A stretch of it may be walked in steps, and if none of the steps jumps
over a multiple of the phase, the multiples in the stretch are the ends of steps.
-/

namespace RtlCores.Lib

variable {p : Nat}

/-- The multiples of `p` behind `ts` up to `ts + t`, in order. -/
def multiples (p ts t : Nat) : List Nat := (List.range' (ts + 1) t).filter (p ∣ ·)

theorem mem_multiples {ts t n : Nat} : n ∈ multiples p ts t ↔ (ts < n ∧ n ≤ ts + t) ∧ p ∣ n := by
  rw [multiples, List.mem_filter, List.mem_range'_1, decide_eq_true_iff]
  exact and_congr_left' (by omega)

/-- Each multiple is there once. -/
theorem pairwise_multiples (p ts t : Nat) : (multiples p ts t).Pairwise (· < ·) :=
  List.Pairwise.filter _ (List.pairwise_lt_range' 1)

theorem multiples_add (p ts d t : Nat) :
    multiples p ts (d + t) = multiples p ts d ++ multiples p (ts + d) t := by
  have hrange : List.range' (ts + 1) (d + t) =
      List.range' (ts + 1) d ++ List.range' (ts + d + 1) t := by
    rw [← List.range'_append_1]
    congr 2
    omega
  rw [multiples, hrange, List.filter_append, multiples, multiples]

/-- A step that jumps over no multiple can only end on one. -/
theorem multiples_step {ts d : Nat} (h : ts % p + d ≤ p) :
    multiples p ts d = if d ≠ 0 ∧ p ∣ ts + d then [ts + d] else [] := by
  cases d with
  | zero => rfl
  | succ d =>
    have hinside : multiples p ts d = [] := by
      rw [multiples, List.filter_eq_nil_iff]
      intro n hn
      rw [List.mem_range'_1] at hn
      rw [decide_eq_true_iff]
      intro hdvd
      obtain ⟨k, rfl⟩ := Nat.exists_eq_add_of_le hn.1
      have hmod : (ts + 1 + k) % p = ts % p + (1 + k) := by
        rw [Nat.add_assoc, ← Nat.mod_add_mod]
        exact Nat.mod_eq_of_lt (by omega)
      rw [Nat.mod_eq_zero_of_dvd hdvd] at hmod
      omega
    have hlast : multiples p (ts + d) 1 = if p ∣ ts + d + 1 then [ts + d + 1] else [] := by
      rw [multiples, List.range'_one, List.filter_singleton]
      simp
    rw [multiples_add, hinside, hlast, List.nil_append]
    simp [Nat.add_assoc]

/-- How many multiples there are. -/
theorem length_multiples (p ts t : Nat) : ts / p + (multiples p ts t).length = (ts + t) / p := by
  induction t with
  | zero => rfl
  | succ t ih =>
    have hlast : (multiples p (ts + t) 1).length = if p ∣ ts + t + 1 then 1 else 0 := by
      rw [multiples, List.range'_one, List.filter_singleton]
      split <;> simp_all
    rw [multiples_add, List.length_append, ← Nat.add_assoc, ih, hlast, ← Nat.add_assoc,
      Nat.succ_div]

/-- No step jumps over a multiple. -/
def Stepped (p : Nat) : Nat → List Nat → Prop
  | _, [] => True
  | ts, d :: ds => ts % p + d ≤ p ∧ Stepped p (ts + d) ds

theorem Stepped.le {ts : Nat} {ds : List Nat} (h : Stepped p ts ds) {d : Nat} (hd : d ∈ ds) :
    d ≤ p := by
  induction ds generalizing ts with
  | nil => cases hd
  | cons e ds ih =>
    cases hd with
    | head => exact (Nat.le_add_left d _).trans h.1
    | tail _ hd => exact ih h.2 hd

theorem stepped_append {ts : Nat} {ds es : List Nat} (hds : Stepped p ts ds)
    (hes : Stepped p (ts + ds.sum) es) : Stepped p ts (ds ++ es) := by
  induction ds generalizing ts with
  | nil => exact hes
  | cons d ds ih =>
    rw [List.sum_cons, ← Nat.add_assoc] at hes
    exact ⟨hds.1, ih hds.2 hes⟩

/-- Whole phases from a multiple on. -/
theorem stepped_replicate {ts : Nat} (h : p ∣ ts) (n : Nat) :
    Stepped p ts (List.replicate n p) := by
  induction n generalizing ts with
  | zero => trivial
  | succ n ih =>
    refine ⟨?_, ih (Nat.dvd_add h (Nat.dvd_refl p))⟩
    rw [Nat.mod_eq_zero_of_dvd h, Nat.zero_add]

/-- The multiples that a step ends on, standing still apart. -/
def landings (p : Nat) : Nat → List Nat → List Nat
  | _, [] => []
  | ts, d :: ds => (if d ≠ 0 ∧ p ∣ ts + d then [ts + d] else []) ++ landings p (ts + d) ds

theorem landings_eq {ts : Nat} {ds : List Nat} (h : Stepped p ts ds) :
    landings p ts ds = multiples p ts ds.sum := by
  induction ds generalizing ts with
  | nil => rfl
  | cons d ds ih => rw [landings, ih h.2, List.sum_cons, multiples_add, multiples_step h.1]

end RtlCores.Lib
