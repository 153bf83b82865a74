import RtlCores.Lib.Isa
import RtlCores.Modules.Memory
import RtlCores.Riscv.Core

/-!
# The blocks of the core against the base instruction set

Immediates, ALU, branch comparator and data alignment, each as the instruction set has it.
-/

namespace RtlCores.Riscv

open RtlCores.Lib RtlCores.Modules

variable {xlen : Nat}

/-! ## Immediates -/

theorem msb_immS (w : BitVec 32) : (Isa.immS w).msb = w.getLsbD 31 := by
  rw [Isa.immS, BitVec.msb_append]
  simp [BitVec.msb_eq_getLsbD_last]

theorem msb_immB (w : BitVec 32) : (Isa.immB w).msb = w.getLsbD 31 := by
  rw [Isa.immB, BitVec.msb_append, BitVec.msb_append, BitVec.msb_append, BitVec.msb_append]
  simp [BitVec.msb_eq_getLsbD_last]

theorem msb_immJ (w : BitVec 32) : (Isa.immJ w).msb = w.getLsbD 31 := by
  rw [Isa.immJ, BitVec.msb_append, BitVec.msb_append, BitVec.msb_append, BitVec.msb_append]
  simp [BitVec.msb_eq_getLsbD_last]

theorem immS_eq (w : BitVec 32) : immS w = (Isa.immS w).signExtend 32 := by
  ext i hi
  rw [BitVec.getElem_signExtend, msb_immS, immS, Isa.immS]
  grind [getElem_fill]

theorem immB_eq (w : BitVec 32) : immB w = (Isa.immB w).signExtend 32 := by
  ext i hi
  rw [BitVec.getElem_signExtend, msb_immB, immB, Isa.immB]
  grind [getElem_fill]

theorem immJ_eq (w : BitVec 32) : immJ w = (Isa.immJ w).signExtend 32 := by
  ext i hi
  rw [BitVec.getElem_signExtend, msb_immJ, immJ, Isa.immJ]
  grind [getElem_fill]

/-- The immediate that the decoder selects for a type. -/
theorem decode_immediate {w : BitVec 32} {t : InstrType} (h : (decode w).toInstrType = t) :
    (decode w).immediate =
      if t.sType then immS w
      else if t.iType then immI w
      else if t.bType then immB w
      else if t.uType then immU w
      else if t.jType then immJ w
      else 0 := by
  subst h
  rfl

theorem decode_immI {w : BitVec 32} (h : (decode w).toInstrType = { iType := true }) :
    (decode w).immediate.signExtend xlen = (Isa.immI w).signExtend xlen := by
  rw [decode_immediate h]
  show (immI w).signExtend xlen = _
  rw [immI_eq, signExtend_signExtend (by decide), Isa.immI]

theorem decode_immS {w : BitVec 32} (h : (decode w).toInstrType = { sType := true }) :
    (decode w).immediate.signExtend xlen = (Isa.immS w).signExtend xlen := by
  rw [decode_immediate h]
  show (immS w).signExtend xlen = _
  rw [immS_eq, signExtend_signExtend (by decide)]

theorem decode_immB {w : BitVec 32} (h : (decode w).toInstrType = { bType := true }) :
    (decode w).immediate.signExtend xlen = (Isa.immB w).signExtend xlen := by
  rw [decode_immediate h]
  show (immB w).signExtend xlen = _
  rw [immB_eq, signExtend_signExtend (by decide)]

theorem decode_immJ {w : BitVec 32} (h : (decode w).toInstrType = { jType := true }) :
    (decode w).immediate.signExtend xlen = (Isa.immJ w).signExtend xlen := by
  rw [decode_immediate h]
  show (immJ w).signExtend xlen = _
  rw [immJ_eq, signExtend_signExtend (by decide)]

theorem decode_immU {w : BitVec 32} (h : (decode w).toInstrType = { uType := true }) :
    (decode w).immediate.signExtend xlen = (Isa.immU w ++ 0#12).signExtend xlen := by
  rw [decode_immediate h]
  rfl

/-! ## Operations -/

/-- The ALU operation of an arithmetic instruction. -/
def aluOpFor : Isa.ArithOp → AluOp
  | .add => .add
  | .sub => .sub
  | .sll => .sll
  | .slt => .slt
  | .sltu => .sltu
  | .xor => .xor
  | .srl => .srl
  | .sra => .sra
  | .or => .or
  | .and => .and

/-- The ALU's shift amounts are those of the instruction set. -/
theorem toNat_shamt (hx : xlen = 32 ∨ xlen = 64) (b : BitVec xlen) :
    (b.extractLsb' 0 (Nat.clog 2 xlen)).toNat = b.toNat % xlen := by
  rw [BitVec.extractLsb'_toNat, Nat.shiftRight_zero]
  rcases hx with rfl | rfl
  · rfl
  · rfl

theorem alu_aluOpFor (hx : xlen = 32 ∨ xlen = 64) (op : Isa.ArithOp) (a b : BitVec xlen) :
    alu (aluOpFor op) a b = op.apply a b := by
  have hshamt := toNat_shamt hx b
  rw [alu_eq_aluDataflow]
  cases op with
  | sll => rw [aluOpFor, aluDataflow, hshamt, Isa.ArithOp.apply]
  | srl => rw [aluOpFor, aluDataflow, hshamt, Isa.ArithOp.apply]
  | sra => rw [aluOpFor, aluDataflow, hshamt, Isa.ArithOp.apply]
  | slt => simp [aluOpFor, aluDataflow, Isa.ArithOp.apply, BitVec.slt]
  | sltu => simp [aluOpFor, aluDataflow, Isa.ArithOp.apply, BitVec.ult]
  | add | sub | xor | or | and => rfl

/-- The branch comparator decides the condition. -/
theorem branchControl_funct3 (op : Isa.BranchOp) (a b : BitVec xlen) :
    branchControl true op.funct3 a b = op.holds a b := by
  cases op with
  | beq =>
    show (adder true a b).eq = decide (a = b)
    rw [adder_eq, beq_eq_decide]
  | bne =>
    show (!(adder true a b).eq) = decide (a ≠ b)
    rw [adder_eq, beq_eq_decide, decide_not]
  | blt => exact adder_lt a b
  | bge =>
    show (!(adder true a b).lt || (adder true a b).eq) = decide (b.toInt ≤ a.toInt)
    rw [adder_lt, adder_eq, not_slt_or_eq]
    rfl
  | bltu => exact adder_ltu a b
  | bgeu =>
    show (!(adder true a b).ltu || (adder true a b).eq) = decide (b.toNat ≤ a.toNat)
    rw [adder_ltu, adder_eq, not_ult_or_eq]
    rfl

/-! ## Data sizes -/

/-- The block size on the data bus for an access of `n` bytes. -/
def sizeFor (n : Nat) : BitVec 3 :=
  if n = 1 then DmemSize.byte
  else if n = 2 then DmemSize.half
  else if n = 4 then DmemSize.word
  else DmemSize.dubl

/-- The widths of the data accesses of an instruction set of width `xlen`. -/
def AccessBytes (xlen n : Nat) : Prop := n = 1 ∨ n = 2 ∨ n = 4 ∨ n = 8 ∧ xlen = 64

theorem blockBytes_blockSize (hx : xlen = 32 ∨ xlen = 64) {n : Nat} (hn : AccessBytes xlen n) :
    blockBytes (blockSize xlen (sizeFor n)) = n := by
  rcases hn with rfl | rfl | rfl | ⟨rfl, rfl⟩
  · rcases hx with rfl | rfl <;> rfl
  · rcases hx with rfl | rfl <;> rfl
  · rcases hx with rfl | rfl <;> rfl
  · rfl

theorem AccessBytes.le (hx : xlen = 32 ∨ xlen = 64) {n : Nat} (hn : AccessBytes xlen n) :
    8 * n ≤ xlen := by
  rw [AccessBytes] at hn
  omega

theorem supportedWidth (hx : xlen = 32 ∨ xlen = 64) : SupportedWidth xlen := by
  rw [SupportedWidth]
  omega

theorem blockSize_le_four (hx : xlen = 32 ∨ xlen = 64) (size : BitVec 3) :
    blockSize xlen size ≤ 4 := by
  refine le_trans (blockSize_le (supportedWidth hx) size) ?_
  rcases hx with rfl | rfl <;> decide

/-- The sign extender extends the block that was read. -/
theorem signExtender_sizeFor (hx : xlen = 32 ∨ xlen = 64) {n : Nat} (hn : AccessBytes xlen n)
    (v : BitVec (8 * n)) :
    signExtender (sizeFor n) false (v.setWidth xlen) = v.signExtend xlen := by
  have hcut : (v.setWidth xlen).extractLsb' 0 (8 * n) = v := by
    have hle := hn.le hx
    ext i hi
    have hix : i < xlen := by omega
    simp [hi, hix]
  have hext (hpos : 0 < 8 * n) :
      extendFrom (8 * n) ((v.setWidth xlen).getLsbD (8 * n - 1)) (v.setWidth xlen) =
        v.signExtend xlen := by
    rw [extendFrom_eq_signExtend hpos, hcut]
  have h8 : xlen ≠ 8 := by omega
  have h16 : xlen ≠ 16 := by omega
  rw [signExtender, signOf, if_neg h8, if_neg h8, if_neg h16, if_neg h16]
  rcases hn with rfl | rfl | rfl | ⟨rfl, rfl⟩
  · exact hext (by decide)
  · exact hext (by decide)
  · exact hext (by decide)
  · show v.setWidth 64 = v.signExtend 64
    rw [BitVec.setWidth_eq, BitVec.signExtend_eq]

theorem signExtender_true (size : BitVec 3) (v : BitVec xlen) : signExtender size true v = v := by
  rw [signExtender]
  split <;> rfl

/-- The store data have the bytes of the register. -/
theorem byteAt_dataHandler (hx : xlen = 32 ∨ xlen = 64) {n : Nat} (hn : AccessBytes xlen n)
    (v : BitVec xlen) {k : Nat} (hk : k < n) :
    byteAt (dataHandler (sizeFor n) v) k = byteAt v k := by
  have hcut (m : Nat) (hm : 8 * (k + 1) ≤ m) (hmx : m ≤ xlen) :
      byteAt ((v.extractLsb' 0 m).setWidth xlen) k = byteAt v k := by
    ext i hi
    have hin : 8 * k + i < m := by omega
    have hix : 8 * k + i < xlen := by omega
    simp [byteAt, hin, hix]
  have h8 : xlen ≠ 8 := by omega
  have h16 : xlen ≠ 16 := by omega
  have hle := hn.le hx
  rw [dataHandler, if_neg h8, if_neg h16]
  rcases hn with rfl | rfl | rfl | ⟨rfl, rfl⟩
  · exact hcut 8 (by omega) hle
  · exact hcut 16 (by omega) hle
  · exact hcut 32 (by omega) hle
  · rfl

/-! ## What the instructions select -/

/-- The ALU operation of a register-register word. -/
theorem arithOp_reg (op : Isa.ArithOp) :
    Control.arithOp op.funct3 (if op.funct7.getLsbD 5 then .sub else .add)
      (if op.funct7.getLsbD 5 then .sra else .srl) = aluOpFor op := by
  cases op <;> rfl

/-- The ALU operation of a register-immediate word: bit 30 belongs to the immediate unless the
operation is a shift. -/
theorem arithOp_imm (op : Isa.ArithOp) (hsub : op ≠ .sub) {bit30 : Bool}
    (hshift : op.isShift → bit30 = op.funct7.getLsbD 5) :
    Control.arithOp op.funct3 .add (if bit30 then .sra else .srl) = aluOpFor op := by
  cases op with
  | sub => exact absurd rfl hsub
  | srl =>
    rw [hshift rfl]
    rfl
  | sra =>
    rw [hshift rfl]
    rfl
  | add | sll | slt | sltu | xor | or | and => rfl

/-- Bit 30 of a shift by an immediate. -/
theorem getLsbD_shiftHigh (w : BitVec 32) (xlen : Nat) :
    (Isa.shiftHigh w xlen).getLsbD 5 = (Isa.funct7 w).getLsbD 5 := by
  rw [Isa.shiftHigh]
  split
  · rfl
  · rw [BitVec.getLsbD_append]
    simp [Isa.funct7]

theorem accessBytes_load {op : Isa.LoadOp} (h : op.needs64 → xlen = 64) :
    AccessBytes xlen op.bytes := by
  cases op with
  | lb | lbu => exact .inl rfl
  | lh | lhu => exact .inr (.inl rfl)
  | lw | lwu => exact .inr (.inr (.inl rfl))
  | ld => exact .inr (.inr (.inr ⟨rfl, h rfl⟩))

theorem accessBytes_store {op : Isa.StoreOp} (h : op.needs64 → xlen = 64) :
    AccessBytes xlen op.bytes := by
  cases op with
  | sb => exact .inl rfl
  | sh => exact .inr (.inl rfl)
  | sw => exact .inr (.inr (.inl rfl))
  | sd => exact .inr (.inr (.inr ⟨rfl, h rfl⟩))

/-- What a load puts into its register; bit 2 of `funct3` asks for zero extension. -/
theorem signExtender_load (hx : xlen = 32 ∨ xlen = 64) {op : Isa.LoadOp}
    (h : op.needs64 → xlen = 64) (v : BitVec (8 * op.bytes)) :
    signExtender (sizeFor op.bytes) (op.funct3.getLsbD 2) (v.setWidth xlen) = op.extend xlen v := by
  have hsign := signExtender_sizeFor hx (accessBytes_load h) v
  cases op with
  | lb | lh | lw | ld => exact hsign
  | lbu | lhu | lwu => exact signExtender_true _ _

end RtlCores.Riscv
