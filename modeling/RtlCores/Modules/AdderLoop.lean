import RtlCores.Modules.Adder

/-!
# The other adders of `modules/adder.v`, and what all of them compute

With `GATE_FLOW_OFF` the `adder` is an `always` block that runs a loop over the bits, and
so is `fast_adder` in every build.  The two loops differ in the expression for the next
carry only.  Whatever the registers held before, a run of the block leaves in them the
wires of the gate-level chain, and the ports are then stated over the integers.
-/

namespace RtlCores.Modules

open RtlCores.Lib

variable {n : Nat}

/-! ## The data-flow full adder -/

/-- `half_adder` with `GATE_FLOW_OFF`. -/
def halfAdderDataflow (a b : Bool) : Bool × Bool :=
  let carry := a && b
  let sum := a ^^ b
  (sum, carry)

/-- `full_adder` with `GATE_FLOW_OFF`. -/
def fullAdderDataflow (a b cin : Bool) : Bool × Bool :=
  let sum := a ^^ b ^^ cin
  let carry := (a && b) || (a && cin) || (b && cin)
  (sum, carry)

theorem halfAdder_eq_dataflow : halfAdder = halfAdderDataflow := rfl

theorem fullAdder_eq_dataflow : fullAdder = fullAdderDataflow := by
  funext a b cin
  cases a <;> cases b <;> cases cin <;> rfl

/-! ## The loops -/

/-- The registers that the `always` blocks assign. -/
structure LoopRegs (n : Nat) where
  C : BitVec (n + 1)
  S : BitVec n
  y2c : BitVec n

/-- The body of the `for` loop, `next` being the expression assigned to `C[k + 1]`. -/
def LoopRegs.body (next : Bool → Bool → Bool → Bool) (naddSub : Bool) (x y : BitVec n) (k : Nat)
    (r : LoopRegs n) : LoopRegs n :=
  let y2c := splice r.y2c k (BitVec.ofBool (y.getLsbD k ^^ naddSub))
  let S := splice r.S k (BitVec.ofBool (x.getLsbD k ^^ y2c.getLsbD k ^^ r.C.getLsbD k))
  let C := splice r.C (k + 1)
    (BitVec.ofBool (next (x.getLsbD k) (y2c.getLsbD k) (r.C.getLsbD k)))
  { C := C, S := S, y2c := y2c }

/-- The `always` block after `k` rounds of its loop. -/
def LoopRegs.rounds (next : Bool → Bool → Bool → Bool) (naddSub : Bool) (x y : BitVec n)
    (r : LoopRegs n) : Nat → LoopRegs n
  | 0 => { r with C := splice r.C 0 (BitVec.ofBool naddSub) }
  | k + 1 => (rounds next naddSub x y r k).body next naddSub x y k

/-- `C[k + 1]` of `adder` with `GATE_FLOW_OFF`. -/
def adderNext (x y2c c : Bool) : Bool := (x && y2c) || (x && c) || (y2c && c)

/-- `C[k + 1]` of `fast_adder`. -/
def fastAdderNext (x y2c c : Bool) : Bool := (x && y2c) || ((x || y2c) && c)

/-- `adder` with `GATE_FLOW_OFF`, the registers holding `r` before the block runs. -/
def adderLoop (r : LoopRegs n) (naddSub : Bool) (x y : BitVec n) : AdderOut n :=
  let r' := r.rounds adderNext naddSub x y n
  let sum := r'.S
  let carry := r'.C.getLsbD n
  let sameSign := x.getLsbD (n - 1) ^^ y.getLsbD (n - 1)
  let eq := sum == 0
  { sum := sum
    carry := carry
    overflow := r'.C.getLsbD (n - 1) ^^ r'.C.getLsbD n
    eq := eq
    ltu := !eq && !carry
    lt := !eq && ((!sameSign && !carry) || (sameSign && carry)) }

/-- `fast_adder`, the registers holding `r` before the block runs. -/
def fastAdder (r : LoopRegs n) (naddSub : Bool) (x y : BitVec n) : AdderOut n :=
  let r' := r.rounds fastAdderNext naddSub x y n
  let sum := r'.S
  let carry := r'.C.getLsbD n
  let sameSign := x.getLsbD (n - 1) ^^ y.getLsbD (n - 1)
  let eq := naddSub && (sum == 0)
  let cmp := naddSub && !eq
  { sum := sum
    carry := carry
    overflow := r'.C.getLsbD (n - 1) ^^ r'.C.getLsbD n
    eq := eq
    ltu := cmp && !carry
    lt := cmp && ((!sameSign && !carry) || (sameSign && carry)) }

theorem adderNext_eq_atLeastTwo (x y2c c : Bool) : adderNext x y2c c = x.atLeastTwo y2c c := by
  cases x <;> cases y2c <;> cases c <;> rfl

theorem fastAdderNext_eq_atLeastTwo (x y2c c : Bool) :
    fastAdderNext x y2c c = x.atLeastTwo y2c c := by
  cases x <;> cases y2c <;> cases c <;> rfl

/-- The registers agree with the wires of the gate-level chain below position `k`. -/
structure LoopRegs.AgreesTo (naddSub : Bool) (x y : BitVec n) (k : Nat) (r : LoopRegs n) :
    Prop where
  C : ∀ j ≤ k, r.C.getLsbD j = adderC naddSub x y j
  S : ∀ j < k, r.S.getLsbD j = (adder naddSub x y).sum.getLsbD j

theorem getLsbD_adderOperand (naddSub : Bool) (y : BitVec n) {k : Nat} (hk : k < n) :
    (adderOperand naddSub y).getLsbD k = (y.getLsbD k ^^ naddSub) := by
  rw [adderOperand, BitVec.getLsbD_xor, BitVec.getLsbD_eq_getElem hk (x := fill n naddSub),
    getElem_fill]

theorem getLsbD_adder_sum (naddSub : Bool) (x y : BitVec n) {k : Nat} (hk : k < n) :
    (adder naddSub x y).sum.getLsbD k =
      (x.getLsbD k ^^ (y.getLsbD k ^^ naddSub) ^^ adderC naddSub x y k) := by
  have hsum : (adder naddSub x y).sum.getLsbD k = (fullAdder (x.getLsbD k)
      ((adderOperand naddSub y).getLsbD k) (adderC naddSub x y k)).1 := by
    rw [BitVec.getLsbD_eq_getElem hk]
    exact BitVec.getElem_ofFnLE _ _ hk
  rw [hsum, fullAdder_isFullAdder.sum, getLsbD_adderOperand naddSub y hk, ← Bool.xor_assoc]

theorem adderC_succ (naddSub : Bool) (x y : BitVec n) {k : Nat} (hk : k < n) :
    adderC naddSub x y (k + 1) =
      (x.getLsbD k).atLeastTwo (y.getLsbD k ^^ naddSub) (adderC naddSub x y k) := by
  rw [← getLsbD_adderOperand naddSub y hk, ← fullAdder_isFullAdder.carry]
  rfl

/-- One round extends the agreement by one position. -/
theorem LoopRegs.AgreesTo.body {next : Bool → Bool → Bool → Bool}
    (hnext : ∀ a b c, next a b c = a.atLeastTwo b c) {naddSub : Bool} {x y : BitVec n} {k : Nat}
    {r : LoopRegs n} (h : r.AgreesTo naddSub x y k) (hk : k < n) :
    (r.body next naddSub x y k).AgreesTo naddSub x y (k + 1) where
  C j hj := by
    rw [LoopRegs.body, getLsbD_splice_ofBool _ _ _ fun _ ↦ (by omega),
      getLsbD_splice_ofBool _ _ _ fun _ ↦ hk, if_pos rfl, hnext, h.C k le_rfl]
    by_cases hjk : j = k + 1
    · rw [if_pos hjk, hjk, adderC_succ naddSub x y hk]
    · rw [if_neg hjk, h.C j (by omega)]
  S j hj := by
    rw [LoopRegs.body, getLsbD_splice_ofBool _ _ _ fun _ ↦ hk,
      getLsbD_splice_ofBool _ _ _ fun _ ↦ hk, if_pos rfl, h.C k le_rfl]
    by_cases hjk : j = k
    · rw [if_pos hjk, hjk, getLsbD_adder_sum naddSub x y hk]
    · rw [if_neg hjk, h.S j (by omega)]

theorem LoopRegs.rounds_agreesTo {next : Bool → Bool → Bool → Bool}
    (hnext : ∀ a b c, next a b c = a.atLeastTwo b c) (naddSub : Bool) (x y : BitVec n)
    (r : LoopRegs n) {k : Nat} (hk : k ≤ n) :
    (r.rounds next naddSub x y k).AgreesTo naddSub x y k := by
  induction k with
  | zero =>
    refine ⟨fun j hj ↦ ?_, fun j hj ↦ absurd hj (by omega)⟩
    obtain rfl : j = 0 := by omega
    rw [LoopRegs.rounds, getLsbD_splice_ofBool _ _ _ fun _ ↦ (by omega), if_pos rfl]
    rfl
  | succ k ih => exact (ih (by omega)).body hnext (by omega)

theorem LoopRegs.AgreesTo.S_eq {naddSub : Bool} {x y : BitVec n} {r : LoopRegs n}
    (h : r.AgreesTo naddSub x y n) : r.S = (adder naddSub x y).sum :=
  BitVec.eq_of_getLsbD_eq h.S

/-- The loop of `adder` drives the ports of the gate-level chain. -/
theorem adderLoop_eq_adder (r : LoopRegs n) (naddSub : Bool) (x y : BitVec n) :
    adderLoop r naddSub x y = adder naddSub x y := by
  have h := r.rounds_agreesTo adderNext_eq_atLeastTwo naddSub x y le_rfl
  rw [adderLoop, h.S_eq, h.C n le_rfl, h.C (n - 1) (by omega)]
  rfl

/-- `fast_adder` drives the ports of `adder`, its flags being masked outside subtract mode. -/
theorem fastAdder_eq_adder (r : LoopRegs n) (naddSub : Bool) (x y : BitVec n) :
    fastAdder r naddSub x y =
      { adder naddSub x y with
        eq := naddSub && (adder naddSub x y).eq
        ltu := naddSub && (adder naddSub x y).ltu
        lt := naddSub && (adder naddSub x y).lt } := by
  have h := r.rounds_agreesTo fastAdderNext_eq_atLeastTwo naddSub x y le_rfl
  rw [fastAdder, h.S_eq, h.C n le_rfl, h.C (n - 1) (by omega)]
  cases naddSub <;> rfl

/-! ## Over the integers -/

/-- The ports `sum`, `carry` and `overflow` of an addition. -/
structure AdderOut.Adds (x y : BitVec n) (o : AdderOut n) : Prop where
  sum : o.sum.toNat = (x.toNat + y.toNat) % 2 ^ n
  carry : o.carry = true ↔ 2 ^ n ≤ x.toNat + y.toNat
  overflow : o.overflow = true ↔ ¬ FitsSigned n (x.toInt + y.toInt)

/-- The ports of a subtraction, the comparison flags among them. -/
structure AdderOut.Subtracts (x y : BitVec n) (o : AdderOut n) : Prop where
  sum : (o.sum.toNat : Int) = ((x.toNat : Int) - y.toNat) % 2 ^ n
  carry : o.carry = true ↔ y.toNat ≤ x.toNat
  overflow : o.overflow = true ↔ ¬ FitsSigned n (x.toInt - y.toInt)
  eq : o.eq = true ↔ x = y
  ltu : o.ltu = true ↔ x.toNat < y.toNat
  lt : o.lt = true ↔ x.toInt < y.toInt

theorem adderC_eq_carry (naddSub : Bool) (x y : BitVec n) (k : Nat) :
    adderC naddSub x y k = BitVec.carry k x (adderOperand naddSub y) naddSub :=
  chainCarry_eq_carry fullAdder_isFullAdder x _ naddSub k

theorem adder_overflow_iff (hn : 0 < n) (naddSub : Bool) (x y : BitVec n) :
    (adder naddSub x y).overflow = true ↔
      ¬ FitsSigned n (x.toInt + (adderOperand naddSub y).toInt + naddSub.toNat) := by
  have hwires : (adder naddSub x y).overflow =
      (adderC naddSub x y (n - 1) ^^ adderC naddSub x y n) := rfl
  rw [hwires, adderC_eq_carry, adderC_eq_carry]
  exact carry_xor_carry_iff hn x _ naddSub

/-- In add mode `adder` adds. -/
theorem adder_adds (hn : 0 < n) (x y : BitVec n) : (adder false x y).Adds x y where
  sum := by rw [adder_sum_add, BitVec.toNat_add]
  carry := by
    have hwire : (adder false x y).carry = adderC false x y n := rfl
    rw [hwire, adderC_eq_carry, adderOperand_false, carry_width_iff]
    rfl
  overflow := by
    rw [adder_overflow_iff hn, adderOperand_false]
    simp

/-- A complemented word read as a signed number. -/
theorem toInt_not_eq (hn : 0 < n) (x : BitVec n) : (~~~x).toInt = -x.toInt - 1 := by
  have hpow : 2 ^ n = 2 * 2 ^ (n - 1) := by
    rw [← Nat.pow_succ', Nat.succ_eq_add_one, Nat.sub_add_cancel hn]
  have hlt := x.isLt
  rw [BitVec.toInt_eq_toNat_cond, BitVec.toInt_eq_toNat_cond, BitVec.toNat_not]
  generalize 2 ^ n = m at *
  generalize 2 ^ (n - 1) = p at *
  split <;> split <;> omega

/-- In subtract mode `adder` subtracts and compares. -/
theorem adder_subtracts (hn : 0 < n) (x y : BitVec n) : (adder true x y).Subtracts x y where
  sum := by
    have hle : y.toNat ≤ 2 ^ n := y.isLt.le
    have hval : ((2 ^ n - y.toNat + x.toNat : Nat) : Int) = (x.toNat - y.toNat) + 2 ^ n := by
      push_cast [hle]
      ring
    rw [adder_sum_sub, BitVec.toNat_sub, Int.natCast_emod, hval]
    push_cast
    exact Int.add_emod_right _ _
  carry := by
    rw [adder_carry_sub]
    simp [BitVec.ult]
  overflow := by
    rw [adder_overflow_iff hn, adderOperand_true, toInt_not_eq hn]
    have hval : x.toInt + (-y.toInt - 1) + (Bool.toNat true : Int) = x.toInt - y.toInt := by
      rw [Bool.toNat_true]; omega
    rw [hval]
  eq := by simp
  ltu := by simp [BitVec.ult]
  lt := by simp [BitVec.slt]

/-- Every adder of the source, in both modes. -/
theorem adders_compute (hn : 0 < n) (x y : BitVec n) (r : LoopRegs n) :
    ((adder false x y).Adds x y ∧ (adder true x y).Subtracts x y) ∧
    ((adderLoop r false x y).Adds x y ∧ (adderLoop r true x y).Subtracts x y) ∧
    ((fastAdder r false x y).Adds x y ∧ (fastAdder r true x y).Subtracts x y) := by
  have hadd := adder_adds hn x y
  have hsub := adder_subtracts hn x y
  refine ⟨⟨hadd, hsub⟩, ⟨?_, ?_⟩, ⟨?_, ?_⟩⟩
  · rw [adderLoop_eq_adder]; exact hadd
  · rw [adderLoop_eq_adder]; exact hsub
  · rw [fastAdder_eq_adder]; exact ⟨hadd.sum, hadd.carry, hadd.overflow⟩
  · rw [fastAdder_eq_adder]; exact hsub

/-- `-7 + -8` overflows and carries, and `-7` is not below `-8`. -/
theorem adders_compute_nibbles :
    (adder false 9#4 8#4).overflow = true ∧ (adder false 9#4 8#4).carry = true ∧
      (fastAdder ⟨0, 0, 0⟩ true 9#4 8#4).lt = false := by
  have h := adders_compute (by decide) 9#4 8#4 ⟨0, 0, 0⟩
  refine ⟨h.1.1.overflow.mpr (by decide), h.1.1.carry.mpr (by decide), ?_⟩
  rw [Bool.eq_false_iff, ne_eq, h.2.2.2.lt]
  decide

end RtlCores.Modules
