import RtlCores.Lib.Ripple

/-!
# The ripple-carry adder and comparator (`modules/adder.v`)

The gate-level `adder`: half adders, full adders, a chain of `n` of them, and the
comparison flags read off the subtraction.  Gate delays are left out; the wires have
their settled values.
-/

namespace RtlCores.Modules

open RtlCores.Lib

variable {n : Nat}

/-- `half_adder`, as the pair of its outputs `(sum, carry)`. -/
def halfAdder (a b : Bool) : Bool × Bool := (a ^^ b, a && b)

/-- `full_adder`: two half adders and an or gate. -/
def fullAdder (a b cin : Bool) : Bool × Bool :=
  let h0 := halfAdder a b
  let h1 := halfAdder h0.1 cin
  (h1.1, h0.2 || h1.2)

/-- Output ports of `adder`. -/
structure AdderOut (n : Nat) where
  sum : BitVec n
  carry : Bool
  overflow : Bool
  eq : Bool
  lt : Bool
  ltu : Bool

/-- The operand `Y[k] ^ Nadd_sub` of every stage. -/
def adderOperand (naddSub : Bool) (y : BitVec n) : BitVec n := y ^^^ fill n naddSub

/-- The carry wires `C` of `adder`. -/
def adderC (naddSub : Bool) (x y : BitVec n) : Nat → Bool :=
  chainCarry fullAdder x.getLsbD (adderOperand naddSub y).getLsbD naddSub

/-- `adder`: `naddSub` is 0 for an addition and 1 for a subtraction. -/
def adder (naddSub : Bool) (x y : BitVec n) : AdderOut n :=
  let sum := chainSum fullAdder x.getLsbD (adderOperand naddSub y).getLsbD naddSub
  let carry := adderC naddSub x y n
  -- the source's name; the wire is 1 when the two sign bits differ
  let sameSign := x.getLsbD (n - 1) ^^ y.getLsbD (n - 1)
  let eq := sum == 0
  { sum := sum
    carry := carry
    overflow := adderC naddSub x y (n - 1) ^^ adderC naddSub x y n
    eq := eq
    ltu := !eq && !carry
    lt := !eq && ((!sameSign && !carry) || (sameSign && carry)) }

theorem fullAdder_isFullAdder : IsFullAdder fullAdder where
  sum := by decide
  carry := by decide

@[simp] theorem adderOperand_false (y : BitVec n) : adderOperand false y = y := by
  simp [adderOperand]

@[simp] theorem adderOperand_true (y : BitVec n) : adderOperand true y = ~~~y := by
  ext i hi
  simp [adderOperand]

/-- In add mode the sum is the sum modulo `2 ^ n`. -/
@[simp] theorem adder_sum_add (x y : BitVec n) : (adder false x y).sum = x + y := by
  have h := chainSum_eq_add fullAdder_isFullAdder x y false
  simpa [adder] using h

/-- In subtract mode the sum is the difference modulo `2 ^ n`. -/
@[simp] theorem adder_sum_sub (x y : BitVec n) : (adder true x y).sum = x - y := by
  have h := chainSum_not_eq_sub fullAdder_isFullAdder x y
  simpa [adder] using h

/-- In subtract mode the carry out says that there was no borrow. -/
theorem adder_carry_sub (x y : BitVec n) : (adder true x y).carry = !(x.ult y) := by
  rw [← carry_sub, ← chainCarry_eq_carry fullAdder_isFullAdder, ← adderOperand_true]
  rfl

/-- In subtract mode `eq` is equality. -/
@[simp] theorem adder_eq (x y : BitVec n) : (adder true x y).eq = (x == y) := by
  have h : (adder true x y).eq = ((adder true x y).sum == 0) := rfl
  rw [h, adder_sum_sub, Bool.eq_iff_iff, beq_iff_eq, beq_iff_eq, BitVec.sub_eq_iff_eq_add]
  simp

/-- In subtract mode `ltu` is the unsigned comparison. -/
@[simp] theorem adder_ltu (x y : BitVec n) : (adder true x y).ltu = x.ult y := by
  have h : (adder true x y).ltu = (!(adder true x y).eq && !(adder true x y).carry) := rfl
  rw [h, adder_eq, adder_carry_sub, Bool.not_not]
  by_cases hxy : x = y
  · subst hxy; simp [BitVec.ult]
  · simp [hxy]

/-- In subtract mode `lt` is the signed comparison. -/
@[simp] theorem adder_lt (x y : BitVec n) : (adder true x y).lt = x.slt y := by
  have h : (adder true x y).lt = (!(adder true x y).eq &&
      ((!(x.getLsbD (n - 1) ^^ y.getLsbD (n - 1)) && !(adder true x y).carry) ||
        ((x.getLsbD (n - 1) ^^ y.getLsbD (n - 1)) && (adder true x y).carry))) := rfl
  rw [h, adder_eq, adder_carry_sub, Bool.not_not, BitVec.slt_eq_not_carry, carry_sub,
    BitVec.msb_eq_getLsbD_last, BitVec.msb_eq_getLsbD_last]
  by_cases hxy : x = y
  · subst hxy; simp [BitVec.ult]
  · have hne : (x == y) = false := by simpa using hxy
    rw [hne]
    cases x.getLsbD (n - 1) <;> cases y.getLsbD (n - 1) <;> cases x.ult y <;> rfl

end RtlCores.Modules
