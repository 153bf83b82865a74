import RtlCores.Lib.IsaWord

/-!
# Numbers of 64 bits that stand for words of 32 bits

A reference model that adds two signed 32-bit numbers in 64 bits keeps a sum that a 32-bit register
would wrap.  The low half is the word of the register either way.  What looks at the order of two
numbers, or shifts the sign down, sees whether the sum was wrapped.
-/

namespace RtlCores.Lib

/-- The number `a` stands for the word `x`: it is the signed value of `x` or, if the word has
wrapped from below, lies 2 ^ 32 below the value of a word that is not negative. -/
structure Widened (a : BitVec 64) (x : BitVec 32) (wraps : Bool) : Prop where
  toInt : a.toInt = x.toInt - if wraps then 2 ^ 32 else 0
  nonneg : wraps = true → x.msb = false

theorem masked_eq_iff (a : BitVec 64) (x : BitVec 32) :
    a &&& (1#64 <<< 32 - 1) = x.setWidth 64 ↔ a.setWidth 32 = x := by
  have hmask : a &&& (1#64 <<< 32 - 1) = (a.setWidth 32).setWidth 64 := by
    ext i hi
    have hbit : (1#64 <<< 32 - 1 : BitVec 64) = BitVec.setWidth 64 (BitVec.allOnes 32) := by decide
    rw [hbit, BitVec.getElem_and, BitVec.getElem_setWidth, BitVec.getElem_setWidth,
      BitVec.getLsbD_allOnes, BitVec.getLsbD_setWidth, BitVec.getLsbD_eq_getElem hi, Bool.and_comm]
  rw [hmask]
  constructor
  · intro h
    have hback (y : BitVec 32) : (y.setWidth 64).setWidth 32 = y := by
      rw [BitVec.setWidth_setWidth_of_le y (show 32 ≤ 64 by decide), BitVec.setWidth_eq]
    rw [← hback (a.setWidth 32), h, hback]
  · rintro rfl
    rfl

theorem toInt_msb (x : BitVec 32) :
    x.toInt = x.toNat - (if x.msb then 2 ^ 32 else 0 : Int) := by
  rw [BitVec.toInt_eq_msb_cond]
  split
  · norm_num
  · rw [sub_zero]

/-- The signed value of a word, widened. -/
theorem Widened.signExtend (x : BitVec 32) : Widened (x.signExtend 64) x false where
  toInt := by
    rw [BitVec.toInt_signExtend_of_le (by decide)]
    exact (sub_zero _).symm
  nonneg h := absurd h (by decide)

/-- A sum of two words that does not wrap from above. -/
theorem Widened.sum (u v : BitVec 32) (hlt : u.toInt + v.toInt < 2 ^ 31) :
    Widened (u.signExtend 64 + v.signExtend 64) (u + v) (u.toInt + v.toInt < -2 ^ 31) := by
  have hu := u.le_toInt
  have hv := v.le_toInt
  have hsum : (u.signExtend 64 + v.signExtend 64).toInt = u.toInt + v.toInt := by
    rw [BitVec.toInt_add, BitVec.toInt_signExtend_of_le (by decide),
      BitVec.toInt_signExtend_of_le (by decide)]
    exact Int.bmod_eq_of_le (by omega) (by omega)
  have hword : (u + v).toInt =
      u.toInt + v.toInt + if u.toInt + v.toInt < -2 ^ 31 then 2 ^ 32 else 0 := by
    rw [BitVec.toInt_add]
    split
    · rw [← Int.add_bmod_right]
      exact Int.bmod_eq_of_le (by omega) (by omega)
    · rw [Int.bmod_eq_of_le (by omega) (by omega), Int.add_zero]
  constructor
  · rw [hsum, hword]
    simp
  · intro hwraps
    rw [decide_eq_true_iff] at hwraps
    rw [BitVec.msb_eq_toInt, decide_eq_false_iff_not, hword, if_pos hwraps]
    omega

namespace Widened

variable {a b : BitVec 64} {x y : BitVec 32} {wa wb : Bool}

theorem toNat (h : Widened a x wa) :
    a.toNat = x.toNat + if x.msb ∨ wa then 2 ^ 64 - 2 ^ 32 else 0 := by
  have hval := h.toInt
  have hx := x.isLt
  have ha := a.isLt
  rw [toInt_msb, BitVec.toInt_eq_toNat_cond] at hval
  cases wa with
  | false =>
    cases hmsb : x.msb <;> simp only [hmsb] at hval ⊢ <;> grind
  | true =>
    have hmsb := h.nonneg rfl
    simp only [hmsb] at hval ⊢
    grind

theorem low (h : Widened a x wa) : a.setWidth 32 = x := by
  apply BitVec.eq_of_toNat_eq
  have hx := x.isLt
  rw [BitVec.toNat_setWidth, h.toNat]
  split <;> omega

/-- The upper half is filled with the sign of the number. -/
theorem getLsbD_high (h : Widened a x wa) {j : Nat} (hj : j < 32) :
    a.getLsbD (32 + j) = (x.msb || wa) := by
  have hx := x.isLt
  have hdiv : a.toNat / 2 ^ 32 = if x.msb ∨ wa then 2 ^ 32 - 1 else 0 := by
    rw [h.toNat]
    split <;> omega
  rw [BitVec.getLsbD, Nat.add_comm, ← Nat.testBit_div_two_pow, hdiv]
  split
  case isTrue hand => rw [Nat.testBit_two_pow_sub_one, decide_eq_true hj]; simpa using hand
  case isFalse hand => rw [Nat.zero_testBit]; simpa using hand

/-- The signed order is that of the words, unless one of them has wrapped. -/
theorem slt_iff (ha : Widened a x wa) (hb : Widened b y wb) :
    a.slt b = if wa = wb then x.slt y else wa := by
  have hx := x.toInt_lt
  have hy := y.toInt_lt
  have hx' := x.le_toInt
  have hy' := y.le_toInt
  rw [BitVec.slt, BitVec.slt, ha.toInt, hb.toInt]
  cases wa <;> cases wb <;> simp <;> omega

/-- So is the unsigned order, unless one of them has wrapped and the other is not negative. -/
theorem ult_iff (ha : Widened a x wa) (hb : Widened b y wb) :
    a.ult b = if wa = wb ∨ x.msb ∨ y.msb then x.ult y else wb := by
  have hx := x.isLt
  have hy := y.isLt
  have hxmsb : x.msb = true ↔ 2 ^ 31 ≤ x.toNat := by rw [BitVec.msb_eq_decide, decide_eq_true_iff]
  have hymsb : y.msb = true ↔ 2 ^ 31 ≤ y.toNat := by rw [BitVec.msb_eq_decide, decide_eq_true_iff]
  have hwx := ha.nonneg
  have hwy := hb.nonneg
  rw [BitVec.ult, BitVec.ult, ha.toNat, hb.toNat]
  cases wa <;> cases wb <;> cases hmx : x.msb <;> cases hmy : y.msb <;> simp_all <;> omega

/-! The low half of a result. -/

theorem low_add (ha : Widened a x wa) (hb : Widened b y wb) : (a + b).setWidth 32 = x + y := by
  rw [BitVec.setWidth_add a b (by decide), ha.low, hb.low]

theorem low_sub (ha : Widened a x wa) (hb : Widened b y wb) : (a - b).setWidth 32 = x - y := by
  rw [BitVec.sub_eq_add_neg, BitVec.setWidth_add _ _ (by decide),
    BitVec.setWidth_neg_of_le (by decide), ha.low, hb.low, ← BitVec.sub_eq_add_neg]

theorem low_xor (ha : Widened a x wa) (hb : Widened b y wb) :
    (a ^^^ b).setWidth 32 = x ^^^ y := by
  rw [BitVec.setWidth_xor, ha.low, hb.low]

theorem low_and (ha : Widened a x wa) (hb : Widened b y wb) :
    (a &&& b).setWidth 32 = x &&& y := by
  rw [BitVec.setWidth_and, ha.low, hb.low]

theorem low_or (ha : Widened a x wa) (hb : Widened b y wb) :
    (a ||| b).setWidth 32 = x ||| y := by
  rw [BitVec.setWidth_or, ha.low, hb.low]

theorem low_shiftLeft (ha : Widened a x wa) (s : Nat) : (a <<< s).setWidth 32 = x <<< s := by
  rw [Isa.setWidth_shiftLeft, ha.low]

/-- A logical shift needs the upper half masked. -/
theorem low_ushiftRight (ha : Widened a x wa) {s : Nat} (hs : s < 32) :
    ((a &&& 0xFFFFFFFF) >>> s).setWidth 32 = x >>> s := by
  have hmask : a &&& 0xFFFFFFFF = x.setWidth 64 := (masked_eq_iff a x).mpr ha.low
  have hlow : (x.setWidth 64).setWidth 32 = x := by
    rw [BitVec.setWidth_setWidth_of_le x (show 32 ≤ 64 by decide), BitVec.setWidth_eq]
  have hshift := (Isa.setWidth_ushiftRight_iff (x.setWidth 64) hs).mpr
  rw [hlow] at hshift
  rw [hmask]
  refine hshift fun j _ ↦ ?_
  rw [BitVec.getLsbD_setWidth, BitVec.getLsbD_of_ge x _ (by omega), Bool.and_false]

/-- An arithmetic shift brings the sign of the number down, which is not that of a wrapped word. -/
theorem low_sshiftRight_iff (ha : Widened a x wa) {s : Nat} (hs : s < 32) :
    (a.sshiftRight s).setWidth 32 = x.sshiftRight s ↔ wa = false ∨ s = 0 := by
  have hsign : a.getLsbD 31 = x.msb := by
    rw [← ha.low, BitVec.msb_eq_getLsbD_last, BitVec.getLsbD_setWidth]
    rfl
  have hshift := Isa.setWidth_sshiftRight_iff a hs
  rw [ha.low, hsign] at hshift
  rw [hshift]
  constructor
  · intro h
    rcases Nat.eq_zero_or_pos s with hzero | hpos
    · exact .inr hzero
    · refine .inl ?_
      have hbit := h 0 hpos
      rw [ha.getLsbD_high (by decide)] at hbit
      by_contra hwraps
      rw [Bool.not_eq_false] at hwraps
      rw [ha.nonneg hwraps, hwraps] at hbit
      contradiction
  · rintro (rfl | rfl) j hj
    · rw [ha.getLsbD_high (hj.trans hs), Bool.or_false]
    · exact absurd hj j.not_lt_zero

end Widened

end RtlCores.Lib
