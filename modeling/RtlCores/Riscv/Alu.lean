import RtlCores.Modules.Adder
import RtlCores.Modules.Shift
import RtlCores.Riscv.Pkg

/-!
# ALU and branch comparator (`RISCV_SingleCycle/alu.sv`, `branch_control.sv`)

Both have a gate-flow version, built on the `adder` and `shift` modules, and a data-flow
alternative.  The gate-flow versions are the ones the core uses.
-/

namespace RtlCores.Riscv

open RtlCores.Modules

variable {xlen : Nat}

/-- `alu` in its gate-flow version. -/
def alu (aluOp : AluOp) (aluA aluB : BitVec xlen) : BitVec xlen :=
  let naddSub := match aluOp with
    | .sltu | .slt | .sub => true
    | _ => false
  let rightEn := match aluOp with
    | .sra | .srl => true
    | _ => false
  let signExt := match aluOp with
    | .sra => true
    | _ => false
  let shiftsNum : BitVec (Nat.clog 2 xlen + 1) :=
    (aluB.extractLsb' 0 (Nat.clog 2 xlen)).setWidth (Nat.clog 2 xlen + 1)
  let fa := adder naddSub aluA aluB
  let outSh := shift rightEn signExt aluA shiftsNum
  match aluOp with
  | .add | .sub => fa.sum
  | .sll | .srl | .sra => outSh
  | .xor => aluA ^^^ aluB
  | .and => aluA &&& aluB
  | .or => aluA ||| aluB
  | .slt => (BitVec.ofBool fa.lt).setWidth xlen
  | .sltu => (BitVec.ofBool fa.ltu).setWidth xlen

/-- `alu_dataflow` -/
def aluDataflow (aluOp : AluOp) (aluA aluB : BitVec xlen) : BitVec xlen :=
  let shamt := aluB.extractLsb' 0 (Nat.clog 2 xlen)
  match aluOp with
  | .add => aluA + aluB
  | .sub => aluA - aluB
  | .sll => aluA <<< shamt.toNat
  | .srl => aluA >>> shamt.toNat
  | .sra => aluA.sshiftRight shamt.toNat
  | .xor => aluA ^^^ aluB
  | .and => aluA &&& aluB
  | .or => aluA ||| aluB
  | .slt => if aluA.slt aluB then 1 else 0
  | .sltu => if aluA.ult aluB then 1 else 0

/-- `branch_control` in its gate-flow version. -/
def branchControl (bType : Bool) (funct3 : BitVec 3) (rs1Data rs2Data : BitVec xlen) : Bool :=
  let cmp := adder true rs1Data rs2Data
  let bTake :=
    if funct3 = BTypeFunct3.beq then cmp.eq
    else if funct3 = BTypeFunct3.bne then !cmp.eq
    else if funct3 = BTypeFunct3.blt then cmp.lt
    else if funct3 = BTypeFunct3.bge then !cmp.lt || cmp.eq
    else if funct3 = BTypeFunct3.bltu then cmp.ltu
    else if funct3 = BTypeFunct3.bgeu then !cmp.ltu || cmp.eq
    else false
  bType && bTake

/-- `branch_control` with `GATE_FLOW_OFF`. -/
def branchControlDataflow (bType : Bool) (funct3 : BitVec 3) (rs1Data rs2Data : BitVec xlen) :
    Bool :=
  if bType then
    if funct3 = BTypeFunct3.beq then rs1Data == rs2Data
    else if funct3 = BTypeFunct3.bne then rs1Data != rs2Data
    else if funct3 = BTypeFunct3.blt then rs1Data.slt rs2Data
    else if funct3 = BTypeFunct3.bge then rs2Data.sle rs1Data
    else if funct3 = BTypeFunct3.bltu then rs1Data.ult rs2Data
    else if funct3 = BTypeFunct3.bgeu then rs2Data.ule rs1Data
    else false
  else false

theorem setWidth_ofBool_eq_ite (b : Bool) :
    (BitVec.ofBool b).setWidth xlen = if b then 1 else 0 := by
  cases b with
  | false => simp
  | true => exact RtlCores.Lib.setWidth_ofBool_true

/-- The gate-flow ALU computes what its data-flow alternative does. -/
theorem alu_eq_aluDataflow (op : AluOp) (a b : BitVec xlen) : alu op a b = aluDataflow op a b := by
  have hshamt : ((b.extractLsb' 0 (Nat.clog 2 xlen)).setWidth (Nat.clog 2 xlen + 1)).toNat
      = (b.extractLsb' 0 (Nat.clog 2 xlen)).toNat :=
    BitVec.toNat_setWidth_of_le (by omega)
  cases op <;> simp only [alu, aluDataflow, adder_sum_add, adder_sum_sub, adder_lt, adder_ltu,
    shift_left, shift_right_logical, shift_right_arith, setWidth_ofBool_eq_ite, hshamt]

/-! ## The four-bit port

The port `alu_op` carries any four-bit code.  The enumeration names ten of them, and the
others take the `default` branch of every `case`. -/

/-- The operation that a code of `op_enum_alu` names. -/
def AluOp.ofCode (code : BitVec 4) : Option AluOp :=
  [.add, .sub, .sll, .srl, .sra, .xor, .and, .or, .slt, .sltu][code.toNat]?

/-- `alu` in its gate-flow version, on the port. -/
def aluPort (aluOp : BitVec 4) (aluA aluB : BitVec xlen) : BitVec xlen :=
  let naddSub := match AluOp.ofCode aluOp with
    | some .sltu | some .slt | some .sub => true
    | _ => false
  let rightEn := match AluOp.ofCode aluOp with
    | some .sra | some .srl => true
    | _ => false
  let signExt := match AluOp.ofCode aluOp with
    | some .sra => true
    | _ => false
  let shiftsNum : BitVec (Nat.clog 2 xlen + 1) :=
    (aluB.extractLsb' 0 (Nat.clog 2 xlen)).setWidth (Nat.clog 2 xlen + 1)
  let fa := adder naddSub aluA aluB
  let outSh := shift rightEn signExt aluA shiftsNum
  match AluOp.ofCode aluOp with
  | some .add | some .sub => fa.sum
  | some .sll | some .srl | some .sra => outSh
  | some .xor => aluA ^^^ aluB
  | some .and => aluA &&& aluB
  | some .or => aluA ||| aluB
  | some .slt => (BitVec.ofBool fa.lt).setWidth xlen
  | some .sltu => (BitVec.ofBool fa.ltu).setWidth xlen
  | none => 0

/-- `alu_dataflow` on the port. -/
def aluDataflowPort (aluOp : BitVec 4) (aluA aluB : BitVec xlen) : BitVec xlen :=
  let shamt := aluB.extractLsb' 0 (Nat.clog 2 xlen)
  match AluOp.ofCode aluOp with
  | some .add => aluA + aluB
  | some .sub => aluA - aluB
  | some .sll => aluA <<< shamt.toNat
  | some .srl => aluA >>> shamt.toNat
  | some .sra => aluA.sshiftRight shamt.toNat
  | some .xor => aluA ^^^ aluB
  | some .and => aluA &&& aluB
  | some .or => aluA ||| aluB
  | some .slt => if aluA.slt aluB then 1 else 0
  | some .sltu => if aluA.ult aluB then 1 else 0
  | none => 0

/-- On the code of an operation the port versions are the versions of the operation. -/
theorem aluPort_of_some {code : BitVec 4} {op : AluOp} (h : AluOp.ofCode code = some op)
    (a b : BitVec xlen) : aluPort code a b = alu op a b := by
  cases op <;> simp only [aluPort, alu, h]

theorem aluDataflowPort_of_some {code : BitVec 4} {op : AluOp} (h : AluOp.ofCode code = some op)
    (a b : BitVec xlen) : aluDataflowPort code a b = aluDataflow op a b := by
  cases op <;> simp only [aluDataflowPort, aluDataflow, h]

/-- The two versions of the ALU agree on every code. -/
theorem aluPort_eq_aluDataflowPort (code : BitVec 4) (a b : BitVec xlen) :
    aluPort code a b = aluDataflowPort code a b := by
  cases h : AluOp.ofCode code with
  | some op => rw [aluPort_of_some h, aluDataflowPort_of_some h, alu_eq_aluDataflow]
  | none => rw [aluPort, aluDataflowPort, h]

theorem not_slt_or_eq (a b : BitVec xlen) : (!a.slt b || a == b) = b.sle a := by
  rw [BitVec.sle_eq_not_slt]
  by_cases hab : a = b
  · subst hab; simp [BitVec.slt]
  · simp [hab]

theorem not_ult_or_eq (a b : BitVec xlen) : (!a.ult b || a == b) = b.ule a := by
  rw [BitVec.ule_eq_not_ult]
  by_cases hab : a = b
  · subst hab; simp [BitVec.ult]
  · simp [hab]

/-- The two versions of the branch comparator agree on every `funct3`. -/
theorem branchControl_eq_dataflow (bType : Bool) (funct3 : BitVec 3) (a b : BitVec xlen) :
    branchControl bType funct3 a b = branchControlDataflow bType funct3 a b := by
  rw [branchControl, branchControlDataflow, adder_eq, adder_lt, adder_ltu, not_slt_or_eq,
    not_ult_or_eq]
  cases bType with
  | false => rfl
  | true => rfl

/-- Gate flow and data flow compute the same, in the ALU and in the branch comparator. -/
theorem gate_flow_eq_dataflow :
    (∀ (aluOp : BitVec 4) (a b : BitVec xlen), aluPort aluOp a b = aluDataflowPort aluOp a b) ∧
    ∀ (bType : Bool) (funct3 : BitVec 3) (a b : BitVec xlen),
      branchControl bType funct3 a b = branchControlDataflow bType funct3 a b :=
  ⟨aluPort_eq_aluDataflowPort, branchControl_eq_dataflow⟩

end RtlCores.Riscv
