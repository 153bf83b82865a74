import RtlCores.Lib.Bits

/-!
# Ripple-carry arithmetic

A chain of one-bit adders computes the carry into position `k + 1` from the two
operand bits and the carry into position `k`.  Whatever gates realise one stage,
the stage is determined by two facts: its sum is the exclusive or of its three
inputs and its carry is their majority.  `IsFullAdder` states them, and everything
below follows for every such stage and every width.
-/

namespace RtlCores.Lib

variable {w : Nat}

/-- A one-bit stage `a b cin ↦ (sum, carry)` that adds its three inputs. -/
structure IsFullAdder (f : Bool → Bool → Bool → Bool × Bool) : Prop where
  sum : ∀ a b c, (f a b c).1 = (a ^^ (b ^^ c))
  carry : ∀ a b c, (f a b c).2 = a.atLeastTwo b c

/-- The carry into position `k` of a chain of stages `f` over the bits `x`, `y`. -/
def chainCarry (f : Bool → Bool → Bool → Bool × Bool) (x y : Nat → Bool) (c₀ : Bool) :
    Nat → Bool
  | 0 => c₀
  | k + 1 => (f (x k) (y k) (chainCarry f x y c₀ k)).2

/-- The word of sums of a chain of stages. -/
def chainSum (f : Bool → Bool → Bool → Bool × Bool) (x y : Nat → Bool) (c₀ : Bool) :
    BitVec w :=
  BitVec.ofFnLE fun i ↦ (f (x i.val) (y i.val) (chainCarry f x y c₀ i.val)).1

variable {f : Bool → Bool → Bool → Bool × Bool}

/-- The chained carry is the carry of the addition. -/
theorem chainCarry_eq_carry (hf : IsFullAdder f) (x y : BitVec w) (c₀ : Bool) (k : Nat) :
    chainCarry f x.getLsbD y.getLsbD c₀ k = BitVec.carry k x y c₀ := by
  induction k with
  | zero => simp [chainCarry]
  | succ k ih => rw [chainCarry, hf.carry, ih, BitVec.carry_succ]

/-- The chained sum is the addition. -/
theorem chainSum_eq_add (hf : IsFullAdder f) (x y : BitVec w) (c₀ : Bool) :
    chainSum f x.getLsbD y.getLsbD c₀ = x + y + BitVec.setWidth w (BitVec.ofBool c₀) := by
  ext i hi
  rw [BitVec.getElem_add_add_bool hi]
  simp [chainSum, hf.sum, chainCarry_eq_carry hf]

/-- A carry in on a word is the word `1`. -/
theorem setWidth_ofBool_true : BitVec.setWidth w (BitVec.ofBool true) = 1#w := by
  apply BitVec.eq_of_toNat_eq
  simp

/-- Chaining over the complement with a carry in is subtraction. -/
theorem chainSum_not_eq_sub (hf : IsFullAdder f) (x y : BitVec w) :
    chainSum f x.getLsbD (~~~y).getLsbD true = x - y := by
  rw [chainSum_eq_add hf, setWidth_ofBool_true, BitVec.sub_eq_add_neg, BitVec.neg_eq_not_add,
    BitVec.add_assoc]

/-- No carry out of a subtraction means the minuend is the smaller, unsigned. -/
theorem carry_sub (x y : BitVec w) : BitVec.carry w x (~~~y) true = !(x.ult y) := by
  rw [BitVec.ult_eq_not_carry, Bool.not_not]

/-! ## Carries and integers -/

/-- The integer `z` is the value of a signed word of `w` bits. -/
def FitsSigned (w : Nat) (z : Int) : Prop := -2 ^ (w - 1) ≤ z ∧ z < 2 ^ (w - 1)

instance (w : Nat) (z : Int) : Decidable (FitsSigned w z) :=
  inferInstanceAs (Decidable (_ ∧ _))

theorem carry_iff (k : Nat) (x y : BitVec w) (c : Bool) :
    BitVec.carry k x y c = true ↔ 2 ^ k ≤ x.toNat % 2 ^ k + y.toNat % 2 ^ k + c.toNat := by
  simp [BitVec.carry]

/-- The carry out says that the sum does not fit in the word. -/
theorem carry_width_iff (x y : BitVec w) (c : Bool) :
    BitVec.carry w x y c = true ↔ 2 ^ w ≤ x.toNat + y.toNat + c.toNat := by
  rw [carry_iff, Nat.mod_eq_of_lt x.isLt, Nat.mod_eq_of_lt y.isLt]

/-- The two topmost carries differ exactly when the signed sum does not fit in the word. -/
theorem carry_xor_carry_iff (hw : 0 < w) (x y : BitVec w) (c : Bool) :
    (BitVec.carry (w - 1) x y c ^^ BitVec.carry w x y c) = true ↔
      ¬ FitsSigned w (x.toInt + y.toInt + c.toNat) := by
  have hxor : ∀ a b : Bool, (a ^^ b) = true ↔ ¬(a = true ↔ b = true) := by decide
  have hxm := Nat.mod_lt x.toNat (Nat.two_pow_pos (w - 1))
  have hym := Nat.mod_lt y.toNat (Nat.two_pow_pos (w - 1))
  have hpow : 2 ^ w = 2 * 2 ^ (w - 1) := by
    rw [← Nat.pow_succ', Nat.succ_eq_add_one, Nat.sub_add_cancel hw]
  have hcast : (2 : Int) ^ (w - 1) = (2 ^ (w - 1) : Nat) := by push_cast; rfl
  rw [hxor, carry_iff, carry_width_iff, toNat_eq_low_add_top hw x, toNat_eq_low_add_top hw y,
    toInt_eq_low_sub_sign hw x, toInt_eq_low_sub_sign hw y, FitsSigned, hcast, hpow]
  simp only [Nat.mul_add_mod, Nat.mod_mod]
  generalize x.toNat % 2 ^ (w - 1) = xl at *
  generalize y.toNat % 2 ^ (w - 1) = yl at *
  generalize 2 ^ (w - 1) = p at *
  -- by the sign bits and the carry in; what is left is linear in `p` and the low bits
  cases x.getLsbD (w - 1) <;> cases y.getLsbD (w - 1) <;> cases c <;>
    simp only [Bool.toNat_true, Bool.toNat_false] <;> omega

/-! ## Sums and bitwise operations

A sum can be computed from the disjunction and the conjunction of its operands, because
one stage cannot tell the pair `x`, `y` from the pair `x ||| y`, `x &&& y`. -/

theorem carry_or_and (x y : BitVec w) (c₀ : Bool) (k : Nat) :
    BitVec.carry k (x ||| y) (x &&& y) c₀ = BitVec.carry k x y c₀ := by
  induction k with
  | zero => simp
  | succ k ih =>
    rw [BitVec.carry_succ, BitVec.carry_succ, ih, BitVec.getLsbD_or, BitVec.getLsbD_and]
    cases x.getLsbD k <;> cases y.getLsbD k <;> cases BitVec.carry k x y c₀ <;> rfl

theorem or_add_and (x y : BitVec w) : (x ||| y) + (x &&& y) = x + y := by
  ext i hi
  rw [BitVec.getElem_add hi, BitVec.getElem_add hi, carry_or_and, BitVec.getElem_or,
    BitVec.getElem_and]
  cases x[i] <;> cases y[i] <;> simp

theorem xor_add_and (x y : BitVec w) : (x ^^^ y) + (x &&& y) = x ||| y := by
  rw [BitVec.add_eq_or_of_and_eq_zero]
  · ext i hi
    simp only [BitVec.getElem_or, BitVec.getElem_xor, BitVec.getElem_and]
    cases x[i] <;> cases y[i] <;> rfl
  · ext i hi
    simp only [BitVec.getElem_xor, BitVec.getElem_and, BitVec.getElem_zero]
    cases x[i] <;> cases y[i] <;> rfl

/-- A disjunction is the sum exactly when no bit is in both words. -/
theorem or_eq_add_iff (x y : BitVec w) : x ||| y = x + y ↔ x &&& y = 0 := by
  rw [← or_add_and x y]
  exact left_eq_add

/-- A conjunction is the sum exactly when both words are zero. -/
theorem and_eq_add_iff (x y : BitVec w) : x &&& y = x + y ↔ x = 0 ∧ y = 0 := by
  rw [← or_add_and x y, right_eq_add]
  exact BitVec.or_eq_zero_iff

/-- An exclusive or is the sum exactly when the bits in both words, doubled, vanish. -/
theorem xor_eq_add_iff (x y : BitVec w) : x ^^^ y = x + y ↔ (x &&& y) + (x &&& y) = 0 := by
  rw [← or_add_and x y, ← xor_add_and x y, BitVec.add_assoc]
  exact left_eq_add

/-! ## Counting

A counter toggles a bit when all bits below it are ones to count up, or zeros to count down.  The
conditions form a chain, which is the carry of an increment and the complement of the carry of the
addition of all ones. -/

/-- Whether bit `k` toggles, from the bits below it. -/
def toggles (en up : Bool) (x : Nat → Bool) : Nat → Bool
  | 0 => en
  | k + 1 => toggles en up x k && up == x k

/-- The word with the bits toggled that the chain tells to. -/
def toggled (en up : Bool) (x : BitVec w) : BitVec w :=
  BitVec.ofFnLE fun i ↦ toggles en up x.getLsbD i.val ^^ x.getLsbD i.val

theorem toggles_up (en : Bool) (x : BitVec w) (k : Nat) :
    toggles en true x.getLsbD k = BitVec.carry k x 0 en := by
  induction k with
  | zero => exact BitVec.carry_zero.symm
  | succ k ih =>
    rw [toggles, ih, BitVec.carry_succ]
    cases x.getLsbD k <;> simp

theorem toggles_down (en : Bool) (x : BitVec w) {k : Nat} (hk : k ≤ w) :
    toggles en false x.getLsbD k = !BitVec.carry k x (BitVec.allOnes w) (!en) := by
  induction k with
  | zero => simp [toggles]
  | succ k ih =>
    have hlt : k < w := hk
    rw [toggles, ih hlt.le, BitVec.carry_succ, BitVec.getLsbD_allOnes, decide_eq_true hlt]
    cases x.getLsbD k <;> simp

theorem toggled_up (en : Bool) (x : BitVec w) :
    toggled en true x = x + BitVec.setWidth w (BitVec.ofBool en) := by
  have hadd : x + BitVec.setWidth w (BitVec.ofBool en) =
      x + 0 + BitVec.setWidth w (BitVec.ofBool en) := by rw [add_zero]
  rw [hadd]
  ext i hi
  rw [BitVec.getElem_add_add_bool hi]
  simp [toggled, toggles_up, Bool.xor_comm]

theorem toggled_down (en : Bool) (x : BitVec w) :
    toggled en false x = x + BitVec.allOnes w + BitVec.setWidth w (BitVec.ofBool (!en)) := by
  ext i hi
  rw [BitVec.getElem_add_add_bool hi]
  simp [toggled, toggles_down en x hi.le, Bool.xor_comm]

/-- Toggling along the chain counts modulo `2 ^ w`. -/
theorem toNat_toggled (en up : Bool) (x : BitVec w) :
    (toggled en up x).toNat =
      if en then (if up then (x.toNat + 1) % 2 ^ w else (x.toNat + (2 ^ w - 1)) % 2 ^ w)
      else x.toNat := by
  cases up with
  | true =>
    rw [toggled_up]
    cases en with
    | true => rw [setWidth_ofBool_true, BitVec.toNat_add, BitVec.toNat_ofNat, Nat.add_mod_mod]; rfl
    | false => simp
  | false =>
    rw [toggled_down]
    cases en with
    | true => simp
    | false =>
      rw [Bool.not_false, setWidth_ofBool_true, BitVec.add_assoc, ← BitVec.neg_one_eq_allOnes,
        BitVec.add_comm (-1#w), ← BitVec.sub_eq_add_neg, BitVec.sub_self, BitVec.add_zero]
      rfl

end RtlCores.Lib
