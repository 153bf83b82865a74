import Mathlib

/-!
# Sorting by exchanging neighbours

Bubble sort on sequences, for any total and transitive relation.  A pass takes the last of
the elements it goes over to the end; the passes get shorter by one element each.  Every
exchange permutes the elements that the pass goes over and no others.
-/

namespace RtlCores.Lib

variable {α : Type*}

/-! ## Rearranging a prefix -/

/-- `b` is `a` with its first `n` elements permuted. -/
def Shuffle (n : Nat) (a b : Nat → α) : Prop :=
  ∃ σ : Equiv.Perm Nat, (∀ k, n ≤ k → σ k = k) ∧ b = a ∘ σ

namespace Shuffle

variable {m n : Nat} {a b c : Nat → α}

theorem refl (n : Nat) (a : Nat → α) : Shuffle n a a := ⟨1, fun _ _ ↦ rfl, rfl⟩

theorem trans (hab : Shuffle n a b) (hbc : Shuffle n b c) : Shuffle n a c := by
  obtain ⟨σ, hσ, rfl⟩ := hab
  obtain ⟨τ, hτ, rfl⟩ := hbc
  refine ⟨σ * τ, fun k hk ↦ ?_, rfl⟩
  rw [Equiv.Perm.mul_apply, hτ k hk, hσ k hk]

theorem mono (hmn : m ≤ n) (h : Shuffle m a b) : Shuffle n a b := by
  obtain ⟨σ, hσ, hb⟩ := h
  exact ⟨σ, fun k hk ↦ hσ k (hmn.trans hk), hb⟩

theorem swap {k : Nat} (hk : k + 1 < n) : Shuffle n a (a ∘ Equiv.swap k (k + 1)) :=
  ⟨Equiv.swap k (k + 1), fun _ hi ↦ Equiv.swap_apply_of_ne_of_ne (by omega) (by omega), rfl⟩

/-- The elements behind the prefix stay. -/
theorem apply_of_le (h : Shuffle n a b) {k : Nat} (hk : n ≤ k) : b k = a k := by
  obtain ⟨σ, hσ, rfl⟩ := h
  rw [Function.comp_apply, hσ k hk]

/-- A permutation that fixes what is not below `n` keeps what is. -/
theorem lt_of_lt {σ : Equiv.Perm Nat} (hσ : ∀ k, n ≤ k → σ k = k) {k : Nat} (hk : k < n) :
    σ k < n := by
  by_contra hge
  have hfix := σ.injective (hσ (σ k) (by omega))
  omega

/-- What is true of all elements of the prefix stays true of them. -/
theorem forall_lt (h : Shuffle n a b) {P : α → Prop} (hP : ∀ k < n, P (a k)) :
    ∀ k < n, P (b k) := by
  obtain ⟨σ, hσ, rfl⟩ := h
  exact fun k hk ↦ hP _ (lt_of_lt hσ hk)

theorem perm (h : Shuffle n a b) : ((List.range n).map b).Perm ((List.range n).map a) := by
  obtain ⟨σ, hσ, rfl⟩ := h
  rw [← List.map_map]
  refine List.Perm.map a ((List.perm_ext_iff_of_nodup ?_ List.nodup_range).mpr fun i ↦ ?_)
  · exact List.nodup_range.map σ.injective
  · rw [List.mem_map, List.mem_range]
    constructor
    · rintro ⟨k, hk, rfl⟩
      exact lt_of_lt hσ (List.mem_range.mp hk)
    · intro hi
      -- the inverse fixes the same elements
      have hinv : ∀ k, n ≤ k → σ.symm k = k := by
        intro k hk
        rw [Equiv.symm_apply_eq, hσ k hk]
      exact ⟨σ.symm i, List.mem_range.mpr (lt_of_lt hinv hi), σ.apply_symm_apply i⟩

end Shuffle

/-! ## Passes -/

section Passes

variable (r : α → α → Prop) [DecidableRel r]

/-- Elements `k` and `k + 1` put in order. -/
def exchange (a : Nat → α) (k : Nat) : Nat → α :=
  if r (a k) (a (k + 1)) then a else a ∘ Equiv.swap k (k + 1)

/-- A pass of `m` exchanges, from the front. -/
def pass (a : Nat → α) : Nat → Nat → α
  | 0 => a
  | m + 1 => exchange r (pass a m) m

/-- The first `j` passes over `n` elements. -/
def passes (n : Nat) (a : Nat → α) : Nat → Nat → α
  | 0 => a
  | j + 1 => pass r (passes n a j) (n - 1 - j)

theorem exchange_shuffle (a : Nat → α) {n k : Nat} (hk : k + 1 < n) :
    Shuffle n a (exchange r a k) := by
  rw [exchange]
  split
  · exact .refl n a
  · exact .swap hk

theorem pass_shuffle (a : Nat → α) {m n : Nat} (hm : m < n) : Shuffle n a (pass r a m) := by
  induction m with
  | zero => exact .refl n a
  | succ m ih => exact (ih (by omega)).trans (exchange_shuffle r _ hm)

theorem passes_shuffle (n : Nat) (a : Nat → α) (j : Nat) (hj : j ≤ n - 1) :
    Shuffle n a (passes r n a j) := by
  induction j with
  | zero => exact .refl n a
  | succ j ih => exact (ih (by omega)).trans (pass_shuffle r _ (by omega))

omit [DecidableRel r] in
theorem rel_self [Std.Total r] (x : α) : r x x := (Std.Total.total x x).elim id id

variable [Std.Total r] [IsTrans α r]

/-- A pass leaves at its end an element that comes after all it went over. -/
theorem pass_last (a : Nat → α) (m : Nat) : ∀ k ≤ m, r (pass r a m k) (pass r a m m) := by
  induction m with
  | zero =>
    rintro k hk
    rw [Nat.le_zero.mp hk]
    exact rel_self r _
  | succ m ih =>
    rintro k hk
    rw [pass, exchange]
    split
    case isTrue hr =>
      rcases Nat.lt_or_eq_of_le hk with hlt | rfl
      · exact IsTrans.trans _ _ _ (ih k (by omega)) hr
      · exact rel_self r _
    case isFalse hr =>
      have hlast : (pass r a m ∘ Equiv.swap m (m + 1)) (m + 1) = pass r a m m := by
        rw [Function.comp_apply, Equiv.swap_apply_right]
      rw [hlast]
      rcases Nat.lt_trichotomy k m with hlt | rfl | hgt
      · rw [Function.comp_apply, Equiv.swap_apply_of_ne_of_ne (by omega) (by omega)]
        exact ih k (by omega)
      · rw [Function.comp_apply, Equiv.swap_apply_left]
        exact (Std.Total.total _ _).resolve_left hr
      · rw [show k = m + 1 by omega, hlast]
        exact rel_self r _

/-- After `j` passes the last `j` elements are where they belong. -/
theorem passes_tail (n : Nat) (a : Nat → α) (j : Nat) (hj : j < n) :
    ∀ i k, i ≤ k → k < n → n - j ≤ k → r (passes r n a j i) (passes r n a j k) := by
  induction j with
  | zero =>
    intro i k hik hk htail
    omega
  | succ j ih =>
    intro i k hik hk htail
    have hshuffle : Shuffle (n - j) (passes r n a j) (passes r n a (j + 1)) :=
      pass_shuffle r _ (by omega)
    rcases Nat.lt_or_ge k (n - j) with hlt | hge
    · obtain rfl : k = n - 1 - j := by omega
      exact pass_last r _ _ i hik
    · rw [hshuffle.apply_of_le hge]
      rcases Nat.lt_or_ge i (n - j) with hi | hi
      · exact hshuffle.forall_lt (P := fun x ↦ r x (passes r n a j k))
          (fun i' hi' ↦ ih (by omega) i' k (by omega) hk hge) i hi
      · rw [hshuffle.apply_of_le hi]
        exact ih (by omega) i k hik hk hge

/-- After `n - 1` passes the elements are in order. -/
theorem passes_pairwise (n : Nat) (a : Nat → α) :
    ((List.range n).map (passes r n a (n - 1))).Pairwise r := by
  rw [List.pairwise_map]
  refine List.Pairwise.imp_of_mem ?_ List.pairwise_lt_range
  intro i k hi hk hik
  have hkn := List.mem_range.mp hk
  exact passes_tail r n a (n - 1) (by omega) i k hik.le hkn (by omega)

end Passes

end RtlCores.Lib
