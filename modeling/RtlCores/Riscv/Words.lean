import RtlCores.Lib.IsaWord
import RtlCores.Riscv.Refinement

/-!
# The 32-bit operations of RV64I on the core

The core runs the ALU on whole registers and cuts the result to 32 bits afterwards.
-/

namespace RtlCores.Riscv

open RtlCores.Lib RtlCores.Modules

variable {depth : Nat}

namespace State

variable {p : Inputs 64} {s : State 64 depth}

namespace Typed

variable {op : BitVec 7} {t : InstrType}

/-- A 32-bit operation writes the low half of the ALU result, sign-extended. -/
theorem rfWrData_word (h : Typed s op t) (hplain : Plain p s)
    (hsel : Control.rfWrDataSelOf op = .alu) (h32 : t.isOp32 = true) :
    s.rfWrData p = ((s.aluRes p).setWidth 32).signExtend 64 := by
  have hop32 : (Core.dec (s.coreIn p)).isOp32 = true := by
    show s.dec.toInstrType.isOp32 = true
    rw [h.type, h32]
  have hlow (v : BitVec 64) : v.extractLsb' 0 32 = v.setWidth 32 := by
    ext i hi
    simp
  rw [hplain.rfWrData, h.rfWrDataSel, hsel]
  show Core.aluResSigned s.core (s.coreIn p) = _
  rw [Core.aluResSigned, hop32, hlow]
  rfl

end Typed

theorem rfWrData_opReg32 (hstart : s.irqStart p = false) (op : Isa.ArithOp)
    (hop : Isa.opcode s.instruction = 0b0111011) (hf3 : Isa.funct3 s.instruction = op.funct3)
    (hf7 : Isa.funct7 s.instruction = op.funct7) :
    s.rfWrData p = op.applyNarrowed (s.regMem (Isa.rs1 s.instruction))
      (s.regMem (Isa.rs2 s.instruction)) := by
  have h : Typed s _ { rType := true, isOp32 := true } := .of_opcode hop fun _ _ _ ↦ rfl
  have hplain := h.plain hstart rfl rfl
  have haluOp : s.ctl.aluOp = aluOpFor op := h.aluOp_reg rfl hf3 hf7
  rw [h.rfWrData_word hplain rfl rfl, hplain.aluRes, h.aluaSel, h.alubSel, haluOp,
    alu_aluOpFor (.inr rfl)]
  rfl

theorem rfWrData_opImm32 (hstart : s.irqStart p = false) (op : Isa.ArithOp) (hsub : op ≠ .sub)
    (hop : Isa.opcode s.instruction = 0b0011011) (hf3 : Isa.funct3 s.instruction = op.funct3)
    (hshift : op.isShift → Isa.funct7 s.instruction = op.funct7) :
    s.rfWrData p = op.applyNarrowed (s.regMem (Isa.rs1 s.instruction))
      ((Isa.immI s.instruction).signExtend 64) := by
  have h : Typed s _ { iType := true, isOp32 := true } := .of_opcode hop fun _ _ _ ↦ rfl
  have hplain := h.plain hstart rfl rfl
  have haluOp : s.ctl.aluOp = aluOpFor op := by
    refine h.aluOp_imm rfl rfl hf3 hsub fun hs ↦ ?_
    rw [hshift hs]
  have himm : s.dec.immediate.signExtend 64 = (Isa.immI s.instruction).signExtend 64 := by
    have himmI : s.dec.immediate = immI s.instruction := decode_immediate h.type
    rw [himmI, immI_eq, signExtend_signExtend (by decide), Isa.immI]
  rw [h.rfWrData_word hplain rfl rfl, hplain.aluRes, h.aluaSel, h.alubSel, haluOp,
    alu_aluOpFor (.inr rfl), himm]
  rfl

/-- What a 32-bit operation writes: the operation on whole registers, cut to its low half. -/
theorem rfWrData_of_encodesWord (hstart : s.irqStart p = false) {i : Isa.WordInstr}
    (henc : Isa.EncodesWord s.instruction i) :
    s.rfWrData p = i.op.applyNarrowed (i.left s.regMem) (i.right s.regMem) := by
  cases henc with
  | opImm32 op _ hsub hop hf3 hshift => exact rfWrData_opImm32 hstart op hsub hop hf3 hshift
  | opReg32 op _ hop hf3 hf7 => exact rfWrData_opReg32 hstart op hop hf3 hf7

/-- A 32-bit operation writes its destination. -/
theorem cycle_regMem_of_encodesWord (hstart : s.irqStart p = false) {i : Isa.WordInstr}
    (henc : Isa.EncodesWord s.instruction i) (hrd : i.rd ≠ 0) :
    (s.cycle p).regMem i.rd = s.rfWrData p := by
  have hwrite {op : BitVec 7} {t : InstrType} (h : Typed s op t) (hy : t.yType = false)
      (hc : t.cType = false) (hs : t.sType = false) (hb : t.bType = false)
      (hrd : s.dec.rdAddr ≠ 0) : (s.cycle p).regMem s.dec.rdAddr = s.rfWrData p := by
    have hplain := h.plain hstart hy hc
    have hen : s.ctl.rfWrEn = true := by
      rw [h.rfWrEn, hs, hb]
      rfl
    rw [hplain.cycle_regMem hen, Isa.Hart.set, if_neg hrd]
    exact if_pos rfl
  cases henc with
  | opImm32 op _ _ hop =>
    exact hwrite (.of_opcode (t := { iType := true, isOp32 := true }) hop fun _ _ _ ↦ rfl)
      rfl rfl rfl rfl hrd
  | opReg32 op _ hop =>
    exact hwrite (.of_opcode (t := { rType := true, isOp32 := true }) hop fun _ _ _ ↦ rfl)
      rfl rfl rfl rfl hrd

/-- A 32-bit operation writes the value of RV64I exactly if no bit of the upper halves gets
into the low half of the result. -/
theorem cycle_word_iff (hstart : s.irqStart p = false) {i : Isa.WordInstr}
    (henc : Isa.EncodesWord s.instruction i) (hrd : i.rd ≠ 0) :
    (s.cycle p).regMem i.rd = i.result s.regMem ↔
      i.op.UpperHalfOk (i.left s.regMem) (i.right s.regMem) := by
  rw [cycle_regMem_of_encodesWord hstart henc hrd, rfWrData_of_encodesWord hstart henc,
    Isa.WordInstr.result]
  exact Isa.ArithOp.applyNarrowed_eq_iff _ _ henc.hasWord

/-- `SRAW x3, x1, x2` on a sign-extended word. -/
theorem cycle_word_iff_sraw :
    let regs : RegFile 64 := fun r ↦ if r = 1 then 0xFFFFFFFF80000000 else if r = 2 then 4 else 0
    let s : State 64 (instMemDepth false) := running [0x4020D1BB] 0 (Csr.reset false) regs
    (s.cycle (irqLine false)).regMem 3 = 0xFFFFFFFFF8000000 := by
  intro regs s
  have hword : s.instruction = 0x4020D1BB := by decide +kernel
  have henc : Isa.EncodesWord s.instruction (.opReg32 .sra 3 1 2) := by
    rw [hword]
    exact .opReg32 .sra rfl (by decide) (by decide) (by decide)
  have hok : Isa.ArithOp.UpperHalfOk (regs 1) (regs 2) .sra := by
    rw [Isa.ArithOp.UpperHalfOk, if_neg (by decide)]
    decide
  have hvalue := (cycle_word_iff (p := irqLine false) (by decide +kernel) henc (by decide)).mpr hok
  exact hvalue.trans (by decide +kernel)

/-- `SRLW x3, x1, x2` with bit 32 of `x1` set: the bit is shifted into the result. -/
theorem srlw_upper_bit :
    let regs : RegFile 64 := fun r ↦ if r = 1 then 0x100000000 else if r = 2 then 1 else 0
    let s : State 64 (instMemDepth false) := running [0x0020D1BB] 0 (Csr.reset false) regs
    Isa.EncodesWord s.instruction (.opReg32 .srl 3 1 2) ∧ s.irqStart (irqLine false) = false ∧
      (s.cycle (irqLine false)).regMem 3 = 0xFFFFFFFF80000000 ∧
      (Isa.WordInstr.opReg32 .srl 3 1 2).result regs = 0 := by
  intro regs s
  have hword : s.instruction = 0x0020D1BB := by decide +kernel
  refine ⟨?_, by decide +kernel, by decide +kernel, by decide +kernel⟩
  rw [hword]
  exact .opReg32 .srl rfl (by decide) (by decide) (by decide)

end State

end RtlCores.Riscv
