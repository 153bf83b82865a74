import RtlCores.Lib.Bits
import Mathlib.Data.List.Rotate

/-!
# Chains of shift registers

Registers of equal width in a row, each of which shifts towards its high end and takes in at
the bottom what the one before it puts out at the top.  Written out highest bit first, with
the last register in front, a chain is a delay line; closed to a ring it rotates.
-/

namespace RtlCores.Lib

variable {w : Nat}

/-! ## One register -/

/-- The bits of a word in the order in which they leave at the top. -/
def msbBits (v : BitVec w) : List Bool := (List.range w).map fun j ↦ v.getLsbD (w - 1 - j)

@[simp] theorem length_msbBits (v : BitVec w) : (msbBits v).length = w := by
  simp [msbBits]

theorem getElem?_msbBits (v : BitVec w) {j : Nat} (hj : j < w) :
    (msbBits v)[j]? = some (v.getLsbD (w - 1 - j)) := by
  simp [msbBits, hj]

/-- A word is read off its bits. -/
theorem getLsbD_of_msbBits {v : BitVec w} {l : List Bool} (h : msbBits v = l) {j : Nat}
    (hj : j < w) : l[w - 1 - j]? = some (v.getLsbD j) := by
  rw [← h, getElem?_msbBits v (by omega), show w - 1 - (w - 1 - j) = j by omega]

theorem msbBits_inj {v v' : BitVec w} (h : msbBits v = msbBits v') : v = v' := by
  apply BitVec.eq_of_getLsbD_eq
  intro j hj
  have hv := getLsbD_of_msbBits h hj
  rw [getLsbD_of_msbBits rfl hj] at hv
  exact (Option.some.inj hv).symm

/-- Rotated by `n` positions, a word has its highest `n` bits at the bottom. -/
theorem toNat_mod_of_rotate {v v' : BitVec w} {n : Nat} (h : msbBits v' = (msbBits v).rotate n)
    (hn : n ≤ w) : v'.toNat % 2 ^ n = v.toNat / 2 ^ (w - n) := by
  apply Nat.eq_of_testBit_eq
  intro j
  rw [Nat.testBit_mod_two_pow, Nat.testBit_div_two_pow, BitVec.testBit_toNat, BitVec.testBit_toNat]
  by_cases hj : j < n
  · have hbit := getLsbD_of_msbBits h (show j < w by omega)
    rw [List.getElem?_rotate (by rw [length_msbBits]; omega), length_msbBits,
      show (w - 1 - j + n) % w = n - 1 - j by
        rw [show w - 1 - j + n = n - 1 - j + w by omega, Nat.add_mod_right,
          Nat.mod_eq_of_lt (by omega)],
      getElem?_msbBits v (by omega), show w - 1 - (n - 1 - j) = j + (w - n) by omega] at hbit
    rw [decide_eq_true hj, Bool.true_and, Option.some.inj hbit]
  · rw [decide_eq_false hj, Bool.false_and, BitVec.getLsbD_of_ge _ _ (by omega)]

theorem msbBits_eq_cons (v : BitVec (w + 1)) :
    msbBits v = v.getLsbD w :: (List.range w).map fun j ↦ v.getLsbD (w - (j + 1)) := by
  rw [msbBits, List.range_succ_eq_map, List.map_cons, List.map_map]
  rfl

/-- Shifting a bit in moves the others up by one. -/
theorem msbBits_shiftConcat (v : BitVec (w + 1)) (b : Bool) :
    v.getLsbD w :: msbBits (v.shiftConcat b) = msbBits v ++ [b] := by
  have hlow : (List.range w).map (fun j ↦ (v.shiftConcat b).getLsbD (w - j)) =
      (List.range w).map fun j ↦ v.getLsbD (w - (j + 1)) := by
    refine List.map_congr_left fun j hj ↦ ?_
    have hjw := List.mem_range.mp hj
    rw [BitVec.getLsbD_shiftConcat, decide_eq_true (by omega), Bool.true_and,
      if_neg (by omega), Nat.sub_sub]
  have hbits : msbBits (v.shiftConcat b) =
      (List.range w).map (fun j ↦ (v.shiftConcat b).getLsbD (w - j)) ++ [b] := by
    rw [msbBits, List.range_succ, List.map_append]
    simp
  rw [hbits, hlow, msbBits_eq_cons, List.cons_append]

/-- The same with the bit that leaves in front. -/
theorem exists_msbBits (v : BitVec (w + 1)) :
    ∃ l, msbBits v = v.getLsbD w :: l ∧ ∀ b, msbBits (v.shiftConcat b) = l ++ [b] := by
  refine ⟨_, msbBits_eq_cons v, fun b ↦ ?_⟩
  have h := msbBits_shiftConcat v b
  rw [msbBits_eq_cons v, List.cons_append] at h
  exact (List.cons.inj h).2

theorem rotate_one (b : Bool) (l : List Bool) : (b :: l).rotate 1 = l ++ [b] := by
  rw [List.rotate_cons_succ, List.rotate_zero]

/-- A register whose output is fed back rotates. -/
theorem msbBits_shiftConcat_self (v : BitVec (w + 1)) :
    msbBits (v.shiftConcat (v.getLsbD w)) = (msbBits v).rotate 1 := by
  obtain ⟨l, hv, hshift⟩ := exists_msbBits v
  rw [hshift, hv, rotate_one]

/-! ## Chains -/

/-- One clock of a chain that `b` enters. -/
def pushAll (b : Bool) : List (BitVec (w + 1)) → List (BitVec (w + 1))
  | [] => []
  | v :: vs => v.shiftConcat b :: pushAll (v.getLsbD w) vs

/-- What leaves a chain that `b` enters; an empty chain is a wire. -/
def chainOut (b : Bool) : List (BitVec (w + 1)) → Bool
  | [] => b
  | v :: vs => chainOut (v.getLsbD w) vs

/-- The contents of a chain, the bit that leaves next in front. -/
def chainBits : List (BitVec (w + 1)) → List Bool
  | [] => []
  | v :: vs => chainBits vs ++ msbBits v

@[simp] theorem length_chainBits (vs : List (BitVec (w + 1))) :
    (chainBits vs).length = (w + 1) * vs.length := by
  induction vs with
  | nil => rfl
  | cons v vs ih => rw [chainBits, List.length_append, ih, length_msbBits, List.length_cons,
      Nat.mul_succ]

/-- A chain is a delay line: what it holds and what enters is what leaves and what it holds
afterwards. -/
theorem chainOut_cons_chainBits (b : Bool) (vs : List (BitVec (w + 1))) :
    chainOut b vs :: chainBits (pushAll b vs) = chainBits vs ++ [b] := by
  induction vs generalizing b with
  | nil => rfl
  | cons v vs ih =>
    calc chainOut b (v :: vs) :: chainBits (pushAll b (v :: vs))
        = (chainOut (v.getLsbD w) vs :: chainBits (pushAll (v.getLsbD w) vs)) ++
            msbBits (v.shiftConcat b) := rfl
      _ = chainBits vs ++ (v.getLsbD w :: msbBits (v.shiftConcat b)) := by
          rw [ih, List.append_assoc, List.singleton_append]
      _ = chainBits (v :: vs) ++ [b] := by
          rw [msbBits_shiftConcat, chainBits, List.append_assoc]

/-- What leaves a chain that holds something does not depend on what enters. -/
theorem chainOut_congr {vs : List (BitVec (w + 1))} (h : vs ≠ []) (b b' : Bool) :
    chainOut b vs = chainOut b' vs := by
  cases vs with
  | nil => exact absurd rfl h
  | cons v vs => rfl

/-! ## Rings -/

/-- The contents of a ring: a register and the chain from its output back to its input. -/
def ringBits (v : BitVec (w + 1)) (vs : List (BitVec (w + 1))) : List Bool :=
  chainBits vs ++ msbBits v

@[simp] theorem length_ringBits (v : BitVec (w + 1)) (vs : List (BitVec (w + 1))) :
    (ringBits v vs).length = (w + 1) * (vs.length + 1) := by
  rw [ringBits, List.length_append, length_chainBits, length_msbBits, Nat.mul_succ]

/-- One clock of a ring rotates it by one position. -/
theorem ringBits_step (v : BitVec (w + 1)) (vs : List (BitVec (w + 1))) :
    ringBits (v.shiftConcat (chainOut (v.getLsbD w) vs)) (pushAll (v.getLsbD w) vs) =
      (ringBits v vs).rotate 1 := by
  obtain ⟨l, hv, hshift⟩ := exists_msbBits v
  have hchain := chainOut_cons_chainBits (v.getLsbD w) vs
  calc ringBits (v.shiftConcat (chainOut (v.getLsbD w) vs)) (pushAll (v.getLsbD w) vs)
      = (chainBits (pushAll (v.getLsbD w) vs) ++ l) ++ [chainOut (v.getLsbD w) vs] := by
        rw [ringBits, hshift, List.append_assoc]
    _ = ((chainOut (v.getLsbD w) vs :: chainBits (pushAll (v.getLsbD w) vs)) ++ l).rotate 1 := by
        rw [List.cons_append, rotate_one]
    _ = (ringBits v vs).rotate 1 := by
        rw [hchain, ringBits, hv, List.append_assoc, List.singleton_append]

/-- The bit about to enter the register is the one in front. -/
theorem ringBits_head? (v : BitVec (w + 1)) (vs : List (BitVec (w + 1))) :
    (ringBits v vs)[0]? = some (chainOut (v.getLsbD w) vs) := by
  have h := congrArg List.head? (chainOut_cons_chainBits (v.getLsbD w) vs)
  rw [List.head?_cons] at h
  rw [← List.head?_eq_getElem?, ringBits, msbBits_eq_cons, ← List.singleton_append,
    ← List.append_assoc, List.head?_append, ← h]
  rfl

/-- The bit about to leave the register lies behind the chain. -/
theorem ringBits_getElem? (v : BitVec (w + 1)) (vs : List (BitVec (w + 1))) :
    (ringBits v vs)[(w + 1) * vs.length]? = some (v.getLsbD w) := by
  rw [ringBits, List.getElem?_append_right (by rw [length_chainBits]), length_chainBits,
    Nat.sub_self, msbBits_eq_cons]
  rfl

end RtlCores.Lib
