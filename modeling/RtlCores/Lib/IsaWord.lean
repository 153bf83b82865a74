import RtlCores.Lib.Isa

/-!
# The 32-bit operations of RV64I

Arithmetic on the low halves of 64-bit registers, the result sign-extended, and what becomes
of it when the operation is carried out on whole registers and cut to 32 bits afterwards.
-/

namespace RtlCores.Lib.Isa

namespace ArithOp

/-- The operations that RV64I has a 32-bit form of. -/
def hasWord : ArithOp → Bool
  | add | sub | sll | srl | sra => true
  | _ => false

/-- The 32-bit form of an operation. -/
def applyWord (a b : BitVec 64) (op : ArithOp) : BitVec 64 :=
  (op.apply (a.setWidth 32) (b.setWidth 32)).signExtend 64

/-- The operation on whole registers, cut to its low half. -/
def applyNarrowed (a b : BitVec 64) (op : ArithOp) : BitVec 64 :=
  ((op.apply a b).setWidth 32).signExtend 64

/-- What the upper halves of the operands must be for the two to agree.  A shift of a whole
register counts six bits of `b`: with bit 5 clear a right shift by `s` brings down the lowest
`s` bits of the upper half, with bit 5 set it brings down the upper half itself. -/
def UpperHalfOk (a b : BitVec 64) : ArithOp → Prop
  | sll => b.getLsbD 5 = false ∨ ∀ j < 32 - b.toNat % 32, a.getLsbD j = false
  | srl =>
    if b.getLsbD 5 then ∀ j < 32, b.toNat % 32 ≤ j → a.getLsbD (32 + j) = a.getLsbD j
    else ∀ j < b.toNat % 32, a.getLsbD (32 + j) = false
  | sra =>
    if b.getLsbD 5 then ∀ j < 32, b.toNat % 32 ≤ j → a.getLsbD (32 + j) = a.getLsbD j
    else ∀ j < b.toNat % 32, a.getLsbD (32 + j) = a.getLsbD 31
  | _ => True

end ArithOp

/-- The six-bit shift amount is the five-bit one and bit 5. -/
theorem shamt_split (b : BitVec 64) :
    b.toNat % 64 = b.toNat % 32 + if b.getLsbD 5 then 32 else 0 := by
  have hbit : b.getLsbD 5 = decide (b.toNat / 32 % 2 = 1) := by
    rw [BitVec.getLsbD, Nat.testBit_eq_decide_div_mod_eq]
  rw [hbit]
  by_cases h : b.toNat / 32 % 2 = 1
  · rw [if_pos (by simpa using h)]
    omega
  · rw [if_neg (by simpa using h)]
    omega

/-- The low half determines a sign-extended word. -/
theorem signExtend_inj {x y : BitVec 32} : x.signExtend 64 = y.signExtend 64 ↔ x = y := by
  constructor
  · intro h
    apply BitVec.eq_of_getLsbD_eq
    intro i hi
    have hbit := congrArg (fun v ↦ v.getLsbD i) h
    have hi' : i < 64 := by omega
    simpa only [BitVec.getLsbD_signExtend, hi, hi', decide_true, Bool.true_and, if_true] using hbit
  · rintro rfl
    rfl

/-- Words are equal bit by bit. -/
theorem eq_iff_getLsbD {w : Nat} {x y : BitVec w} :
    x = y ↔ ∀ i < w, x.getLsbD i = y.getLsbD i :=
  ⟨fun h _ _ ↦ by rw [h], BitVec.eq_of_getLsbD_eq⟩

section Shifts

variable (a : BitVec 64) {s i : Nat}

/-! Bit `i` of the low half of a shifted register, and of the shifted low half. -/

theorem getLsbD_low_shiftLeft (hi : i < 32) (n : Nat) :
    ((a <<< n).setWidth 32).getLsbD i = (!decide (i < n) && a.getLsbD (i - n)) := by
  have hi' : i < 64 := by omega
  simp only [BitVec.getLsbD_setWidth, BitVec.getLsbD_shiftLeft, hi, hi', decide_true,
    Bool.true_and]

theorem getLsbD_shiftLeft_low (hi : i < 32) (s : Nat) :
    (a.setWidth 32 <<< s).getLsbD i = (!decide (i < s) && a.getLsbD (i - s)) := by
  have hi' : i - s < 32 := by omega
  simp only [BitVec.getLsbD_setWidth, BitVec.getLsbD_shiftLeft, hi, hi', decide_true,
    Bool.true_and]

theorem getLsbD_low_ushiftRight (hi : i < 32) (n : Nat) :
    ((a >>> n).setWidth 32).getLsbD i = a.getLsbD (n + i) := by
  simp only [BitVec.getLsbD_setWidth, BitVec.getLsbD_ushiftRight, hi, decide_true, Bool.true_and]

theorem getLsbD_ushiftRight_low (s : Nat) :
    (a.setWidth 32 >>> s).getLsbD i = (decide (s + i < 32) && a.getLsbD (s + i)) := by
  rw [BitVec.getLsbD_ushiftRight, BitVec.getLsbD_setWidth]

theorem getLsbD_low_sshiftRight (hi : i < 32) (n : Nat) :
    ((a.sshiftRight n).setWidth 32).getLsbD i =
      if n + i < 64 then a.getLsbD (n + i) else a.getLsbD 63 := by
  have hi' : ¬ 64 ≤ i := by omega
  simp only [BitVec.getLsbD_setWidth, BitVec.getLsbD_sshiftRight, BitVec.msb_eq_getLsbD_last, hi,
    hi', decide_true, decide_false, Bool.not_false, Bool.true_and]

theorem getLsbD_sshiftRight_low (hi : i < 32) (s : Nat) :
    ((a.setWidth 32).sshiftRight s).getLsbD i =
      if s + i < 32 then a.getLsbD (s + i) else a.getLsbD 31 := by
  have hi' : ¬ 32 ≤ i := by omega
  rw [BitVec.getLsbD_sshiftRight, BitVec.msb_eq_getLsbD_last, BitVec.getLsbD_setWidth,
    BitVec.getLsbD_setWidth]
  by_cases hs : s + i < 32
  · simp only [hi', hs, if_true, decide_true, decide_false, Bool.not_false, Bool.true_and]
  · simp only [hi', hs, if_false, decide_false, Bool.not_false, Bool.true_and]
    rfl

/-- A left shift by fewer than 32 bits commutes with taking the low half. -/
theorem setWidth_shiftLeft (s : Nat) : (a <<< s).setWidth 32 = a.setWidth 32 <<< s := by
  rw [eq_iff_getLsbD]
  intro i hi
  rw [getLsbD_low_shiftLeft a hi, getLsbD_shiftLeft_low a hi]

/-- A left shift by 32 bits more leaves nothing in the low half. -/
theorem setWidth_shiftLeft_high_iff :
    (a <<< (s + 32)).setWidth 32 = a.setWidth 32 <<< s ↔ ∀ j < 32 - s, a.getLsbD j = false := by
  have hhigh {i : Nat} (hi : i < 32) : ((a <<< (s + 32)).setWidth 32).getLsbD i = false := by
    rw [getLsbD_low_shiftLeft a hi, decide_eq_true (by omega)]
    rfl
  rw [eq_iff_getLsbD]
  constructor
  · intro h j hj
    have hbit := h (s + j) (by omega)
    rw [hhigh (by omega), getLsbD_shiftLeft_low a (by omega), decide_eq_false (by omega),
      Nat.add_sub_cancel_left] at hbit
    exact hbit.symm
  · intro h i hi
    rw [hhigh hi, getLsbD_shiftLeft_low a hi]
    by_cases hs : i < s
    · rw [decide_eq_true hs]
      rfl
    · rw [h (i - s) (by omega), Bool.and_false]

/-- A word that takes its bits from `s` further up, against one that does so within 32 bits and is
filled up with `fill`. -/
theorem eq_iff_of_shifted {x y : BitVec 32} {g : Nat → Bool} {fill : Bool} (hs : s < 32)
    (hx : ∀ i < 32, x.getLsbD i = g (s + i))
    (hy : ∀ i < 32, y.getLsbD i = if s + i < 32 then g (s + i) else fill) :
    x = y ↔ ∀ j < s, g (32 + j) = fill := by
  rw [eq_iff_getLsbD]
  constructor
  · intro h j hj
    have hbit := h (32 - s + j) (by omega)
    have hsum : s + (32 - s + j) = 32 + j := by omega
    rwa [hx _ (by omega), hy _ (by omega), hsum, if_neg (by omega)] at hbit
  · intro h i hi
    rw [hx i hi, hy i hi]
    by_cases hin : s + i < 32
    · rw [if_pos hin]
    · have hbit := h (s + i - 32) (by omega)
      have hsum : 32 + (s + i - 32) = s + i := by omega
      rw [if_neg hin, ← hsum, hbit]

/-- A word that takes its bits from the upper half, against one that takes them from the lower;
where these are used up, one has the top bit of the upper half and the other that of the lower, or
both have the same `fill`. -/
theorem eq_iff_of_shifted_high {x y : BitVec 32} {g : Nat → Bool} {fill fill' : Bool}
    (hx : ∀ i < 32, x.getLsbD i = if s + i < 32 then g (32 + (s + i)) else fill)
    (hy : ∀ i < 32, y.getLsbD i = if s + i < 32 then g (s + i) else fill')
    (hfill : (∀ j < 32, s ≤ j → g (32 + j) = g j) → fill = fill') :
    x = y ↔ ∀ j < 32, s ≤ j → g (32 + j) = g j := by
  rw [eq_iff_getLsbD]
  constructor
  · intro h j hj hsj
    have hbit := h (j - s) (by omega)
    have hsum : s + (j - s) = j := by omega
    rwa [hx _ (by omega), hy _ (by omega), hsum, if_pos hj, if_pos hj] at hbit
  · intro h i hi
    rw [hx i hi, hy i hi]
    by_cases hin : s + i < 32
    · rw [if_pos hin, if_pos hin, h (s + i) hin (by omega)]
    · rw [if_neg hin, if_neg hin, hfill h]

/-- A logical right shift brings the lowest bits of the upper half down. -/
theorem setWidth_ushiftRight_iff (hs : s < 32) :
    (a >>> s).setWidth 32 = a.setWidth 32 >>> s ↔ ∀ j < s, a.getLsbD (32 + j) = false := by
  refine eq_iff_of_shifted (g := a.getLsbD) hs (fun i hi ↦ getLsbD_low_ushiftRight a hi s)
    fun i _ ↦ ?_
  rw [getLsbD_ushiftRight_low]
  by_cases hin : s + i < 32 <;> simp [hin]

/-- A logical right shift by 32 bits more shows the upper half. -/
theorem setWidth_ushiftRight_high_iff :
    (a >>> (s + 32)).setWidth 32 = a.setWidth 32 >>> s ↔
      ∀ j < 32, s ≤ j → a.getLsbD (32 + j) = a.getLsbD j := by
  have hsum (i : Nat) : s + 32 + i = 32 + (s + i) := by omega
  refine eq_iff_of_shifted_high (g := a.getLsbD) (fun i hi ↦ ?_) (fun i _ ↦ ?_)
    fun _ ↦ (rfl : false = false)
  · rw [getLsbD_low_ushiftRight a hi, hsum]
    by_cases hin : s + i < 32
    · rw [if_pos hin]
    · rw [if_neg hin, BitVec.getLsbD_of_ge a _ (by omega)]
  · rw [getLsbD_ushiftRight_low]
    by_cases hin : s + i < 32 <;> simp [hin]

/-- An arithmetic right shift brings them down where copies of the sign belong. -/
theorem setWidth_sshiftRight_iff (hs : s < 32) :
    (a.sshiftRight s).setWidth 32 = (a.setWidth 32).sshiftRight s ↔
      ∀ j < s, a.getLsbD (32 + j) = a.getLsbD 31 := by
  refine eq_iff_of_shifted (g := a.getLsbD) hs (fun i hi ↦ ?_) fun i hi ↦ ?_
  · rw [getLsbD_low_sshiftRight a hi, if_pos (by omega)]
  · rw [getLsbD_sshiftRight_low a hi]

theorem setWidth_sshiftRight_high_iff (hs : s < 32) :
    (a.sshiftRight (s + 32)).setWidth 32 = (a.setWidth 32).sshiftRight s ↔
      ∀ j < 32, s ≤ j → a.getLsbD (32 + j) = a.getLsbD j := by
  have hsum (i : Nat) : s + 32 + i = 32 + (s + i) := by omega
  refine eq_iff_of_shifted_high (g := a.getLsbD) (fun i hi ↦ ?_) (fun i hi ↦ ?_)
    fun h ↦ h 31 (by decide) (by omega)
  · rw [getLsbD_low_sshiftRight a hi, hsum]
    by_cases hin : s + i < 32
    · rw [if_pos hin, if_pos (by omega)]
    · rw [if_neg hin, if_neg (by omega)]
  · rw [getLsbD_sshiftRight_low a hi]

end Shifts

/-- The operation on whole registers gives the 32-bit result exactly if the upper halves are
right. -/
theorem ArithOp.applyNarrowed_eq_iff (a b : BitVec 64) {op : ArithOp} (hop : op.hasWord = true) :
    op.applyNarrowed a b = op.applyWord a b ↔ op.UpperHalfOk a b := by
  have hs : b.toNat % 32 < 32 := Nat.mod_lt _ (by decide)
  have hlow : (b.setWidth 32).toNat % 32 = b.toNat % 32 := by
    rw [BitVec.toNat_setWidth]
    omega
  have hsplit := shamt_split b
  rw [applyNarrowed, applyWord, signExtend_inj]
  cases op with
  | add => exact ⟨fun _ ↦ trivial, fun _ ↦ BitVec.setWidth_add a b (by decide)⟩
  | sub =>
    refine ⟨fun _ ↦ trivial, fun _ ↦ ?_⟩
    rw [apply, apply, BitVec.sub_eq_add_neg, BitVec.sub_eq_add_neg,
      BitVec.setWidth_add _ _ (by decide), BitVec.setWidth_neg_of_le (by decide)]
  | sll =>
    rw [apply, apply, UpperHalfOk, hlow, hsplit]
    cases h5 : b.getLsbD 5 with
    | false => exact ⟨fun _ ↦ .inl rfl, fun _ ↦ setWidth_shiftLeft a _⟩
    | true =>
      rw [if_pos rfl, setWidth_shiftLeft_high_iff]
      exact ⟨.inr, fun h ↦ h.resolve_left (by decide)⟩
  | srl =>
    rw [apply, apply, UpperHalfOk, hlow, hsplit]
    cases h5 : b.getLsbD 5 with
    | false => exact setWidth_ushiftRight_iff a hs
    | true => exact setWidth_ushiftRight_high_iff a
  | sra =>
    rw [apply, apply, UpperHalfOk, hlow, hsplit]
    cases h5 : b.getLsbD 5 with
    | false => exact setWidth_sshiftRight_iff a hs
    | true => exact setWidth_sshiftRight_high_iff a hs
  | slt | sltu | xor | or | and => exact absurd hop (by decide)

/-! ## Encodings -/

/-- The 32-bit instructions, with their operands. -/
inductive WordInstr where
  | opImm32 (op : ArithOp) (rd rs1 : BitVec 5) (imm : BitVec 12)
  | opReg32 (op : ArithOp) (rd rs1 rs2 : BitVec 5)
deriving DecidableEq, Repr

/-- `w` is a valid encoding of a 32-bit instruction; a shift amount has five bits. -/
inductive EncodesWord (w : BitVec 32) : WordInstr → Prop
  | opImm32 (op : ArithOp) (hword : op.hasWord = true) (hsub : op ≠ .sub)
      (hop : opcode w = 0b0011011) (hf3 : funct3 w = op.funct3)
      (hshift : op.isShift → funct7 w = op.funct7) :
      EncodesWord w (.opImm32 op (rd w) (rs1 w) (immI w))
  | opReg32 (op : ArithOp) (hword : op.hasWord = true) (hop : opcode w = 0b0111011)
      (hf3 : funct3 w = op.funct3) (hf7 : funct7 w = op.funct7) :
      EncodesWord w (.opReg32 op (rd w) (rs1 w) (rs2 w))

namespace WordInstr

def op : WordInstr → ArithOp
  | opImm32 op _ _ _ | opReg32 op _ _ _ => op

def rd : WordInstr → BitVec 5
  | opImm32 _ rd _ _ | opReg32 _ rd _ _ => rd

variable (regs : BitVec 5 → BitVec 64)

/-- The first operand. -/
def left : WordInstr → BitVec 64
  | opImm32 _ _ rs1 _ | opReg32 _ _ rs1 _ => regs rs1

/-- The second operand. -/
def right : WordInstr → BitVec 64
  | opImm32 _ _ _ imm => imm.signExtend 64
  | opReg32 _ _ _ rs2 => regs rs2

/-- What the instruction writes to `rd`. -/
def result (i : WordInstr) : BitVec 64 := i.op.applyWord (i.left regs) (i.right regs)

end WordInstr

theorem EncodesWord.hasWord {w : BitVec 32} {i : WordInstr} (h : EncodesWord w i) :
    i.op.hasWord = true := by
  cases h with
  | opImm32 op hword => exact hword
  | opReg32 op hword => exact hword

end RtlCores.Lib.Isa
