import RtlCores.Lib.Zicsr
import RtlCores.Riscv.Refinement

/-!
# CSR instructions on the core

The value written to a CSR comes from the shared ALU, whose operands and operation three
modules choose; the register file and the CSR are written on the same edge.
-/

namespace RtlCores.Riscv

open RtlCores.Lib RtlCores.Modules

variable {xlen depth : Nat}

namespace Csr

variable (r : Csr xlen)

/-- The register at an address, as the read multiplexer selects it. -/
def get (addr : BitVec 12) : BitVec xlen :=
  if addr = CsrAddr.mip then r.mip
  else if addr = CsrAddr.mie then r.mie
  else if addr = CsrAddr.mepc then r.mepc
  else if addr = CsrAddr.mtvec then r.mtvec
  else if addr = CsrAddr.mcause then r.mcause
  else if addr = CsrAddr.mstatus then r.mstatus
  else if addr = CsrAddr.mscratch then r.mscratch
  else if addr = CsrAddr.mtinst then r.mtinst
  else r.mstatus

/-- `mip` with the read-only bits of `old`. -/
def keepReadOnly (old new : BitVec xlen) : BitVec xlen :=
  withBit (withBit new 11 (old.getLsbD 11)) 7 (old.getLsbD 7)

/-- What a write of `v` makes of the register at `addr`. -/
def stored (addr : BitVec 12) (old v : BitVec xlen) : BitVec xlen :=
  if addr = CsrAddr.mip then keepReadOnly old v else v

theorem csrVal_of_cType {i : CsrIn} (hy : i.yType = false) (hc : i.cType = true) :
    r.csrVal i = r.get i.sysImm := by
  rw [csrVal, hy, hc]
  rfl

@[simp] theorem get_posedge (i : CsrIn) (addr : BitVec 12) : (r.posedge i).get addr = r.get addr :=
  rfl

theorem plainLoad_getD (i : CsrIn) (v old : BitVec xlen) (addr : BitVec 12) :
    (plainLoad i v addr).getD old = if addr = i.sysImm ∧ i.wrEn then v else old := by
  rw [plainLoad]
  by_cases h : addr = i.sysImm ∧ i.wrEn = true
  · have hcond : (i.wrEn && i.sysImm == addr) = true := by
      rw [h.1, h.2, beq_self_eq_true]
      rfl
    rw [if_pos h, if_pos hcond, Option.getD_some]
  · have hcond : ¬(i.wrEn && i.sysImm == addr) = true := by
      intro hc
      rw [Bool.and_eq_true, beq_iff_eq] at hc
      exact h ⟨hc.2.symm, hc.1⟩
    rw [if_neg h, if_neg hcond, Option.getD_none]

/-- A CSR write reaches the addressed register only. -/
theorem get_quietNegedge {i : CsrIn} (hstop : i.irqStop = false) (csrDin : BitVec xlen)
    {addr : BitVec 12} (h : CsrIn.knownCsr addr = true) :
    (r.quietNegedge i csrDin).get addr =
      if addr = i.sysImm ∧ i.wrEn then stored addr (r.get addr) csrDin else r.get addr := by
  have hmstatus : (r.quietNegedge i csrDin).mstatus =
      (plainLoad i csrDin CsrAddr.mstatus).getD r.mstatus := by
    rw [quietNegedge, hstop]
    rfl
  simp only [CsrIn.knownCsr, Bool.or_eq_true, beq_iff_eq] at h
  rcases h with ((((((rfl | rfl) | rfl) | rfl) | rfl) | rfl) | rfl) | rfl
  · exact plainLoad_getD i (keepReadOnly r.mip csrDin) r.mip _
  · exact plainLoad_getD i csrDin r.mie _
  · exact plainLoad_getD i csrDin r.mepc _
  · exact plainLoad_getD i csrDin r.mtvec _
  · exact plainLoad_getD i csrDin r.mcause _
  · exact hmstatus.trans (plainLoad_getD i csrDin r.mstatus _)
  · exact plainLoad_getD i csrDin r.mscratch _
  · exact plainLoad_getD i csrDin r.mtinst _

end Csr

namespace State

variable {p : Inputs xlen} {s : State xlen depth} {i : Isa.CsrInstr}

/-! ## Decoding -/

theorem typed_of_encodesCsr (henc : Isa.EncodesCsr s.instruction i) :
    Typed s 0b1110011 { iType := true, cType := true } where
  opcode := henc.opcode
  type := by
    have hop : (decode s.instruction).opcode = 0b1110011 := henc.opcode
    have hf3 : (decode s.instruction).funct3 = i.op.funct3 i.imm :=
      (decode_funct3 hop rfl).trans henc.funct3
    show (decode s.instruction).toInstrType = _
    rw [decode_toInstrType, hop, hf3]
    cases i.op <;> cases i.imm <;> rfl

/-- The `sys_imm` port carries the CSR address. -/
theorem sysImm_of_encodesCsr (henc : Isa.EncodesCsr s.instruction i) :
    (s.csrIn p).sysImm = i.csr := by
  have himm : s.dec.immediate = immI s.instruction :=
    decode_immediate (typed_of_encodesCsr henc).type
  show s.dec.immediate.extractLsb' 0 12 = i.csr
  rw [himm, ← henc.csr, Isa.immI, immI]
  exact BitVec.extractLsb'_append_eq_right

theorem wrEn_of_encodesCsr (henc : Isa.EncodesCsr s.instruction i) :
    (s.csrIn p).wrEn = (i.source != 0) := by
  have hc : s.dec.cType = true := congrArg InstrType.cType (typed_of_encodesCsr henc).type
  show (s.dec.cType && Isa.rs1 s.instruction != 0) = _
  rw [hc, henc.source, Bool.true_and]

/-! ## The value written -/

/-- The ALU computes the new value from the operands that the core selects for a CSR
instruction. -/
theorem alu_csrOp (op : Isa.CsrOp) (imm : Bool) (old source : BitVec xlen) :
    alu (Control.csrOp (op.funct3 imm)) (match op with | .csrrc => ~~~source | _ => source)
      (if (op.funct3 imm).getLsbD 1 then old else 0) = op.value old source := by
  rw [alu_eq_aluDataflow]
  cases op with
  | csrrw => cases imm <;> exact BitVec.add_zero source
  | csrrs => cases imm <;> exact BitVec.or_comm source old
  | csrrc => cases imm <;> exact BitVec.and_comm (~~~source) old

/-- The operand, complemented to clear bits. -/
theorem csrSource_of_encodesCsr (henc : Isa.EncodesCsr s.instruction i) :
    Core.csrSource (s.coreIn p) =
      match i.op with
      | .csrrc => ~~~i.operand s.regMem
      | _ => i.operand s.regMem := by
  have hf3 : (Core.dec (s.coreIn p)).funct3 = i.op.funct3 i.imm :=
    ((typed_of_encodesCsr henc).funct3 rfl).trans henc.funct3
  have hrs1 : (Core.dec (s.coreIn p)).rs1Addr = i.source := henc.source
  have hdata : (s.coreIn p).rs1Data = s.regMem i.source := congrArg s.regMem hrs1
  rw [Core.csrSource, hf3, hrs1, hdata]
  obtain ⟨op, imm, csr, rd, source⟩ := i
  cases op <;> cases imm <;> rfl

/-- What the instruction reads. -/
theorem csrDataOut_of_encodesCsr (hstart : s.irqStart p = false)
    (henc : Isa.EncodesCsr s.instruction i) :
    Core.csrDataOut s.core (s.coreIn p) = s.core.csr.get i.csr := by
  have h := typed_of_encodesCsr henc
  rw [csrDataOut_of_idle hstart, Csr.csrVal_of_cType _ (congrArg InstrType.yType h.type)
    (congrArg InstrType.cType h.type), sysImm_of_encodesCsr henc]

theorem irqStop_of_encodesCsr (henc : Isa.EncodesCsr s.instruction i) : s.irqStop p = false :=
  irqStop_of_not_yType p s (congrArg InstrType.yType (typed_of_encodesCsr henc).type)

theorem aluRes_of_encodesCsr (hstart : s.irqStart p = false)
    (henc : Isa.EncodesCsr s.instruction i) :
    s.aluRes p = i.op.value (s.core.csr.get i.csr) (i.operand s.regMem) := by
  have h := typed_of_encodesCsr henc
  have hc : (Core.dec (s.coreIn p)).cType = true := congrArg InstrType.cType h.type
  have hf3 : (Core.dec (s.coreIn p)).funct3 = i.op.funct3 i.imm :=
    (h.funct3 rfl).trans henc.funct3
  have hstart' : Core.irqStart s.core (s.coreIn p) = false := hstart
  have hstop : Core.irqStop s.core (s.coreIn p) = false := irqStop_of_encodesCsr henc
  have hop : (Core.ctl (s.coreIn p)).aluOp = Control.csrOp (i.op.funct3 i.imm) := by
    show Control.aluOpOf (Core.dec (s.coreIn p)) = _
    rw [Control.aluOpOf, hc, hf3]
    rfl
  have hA : Core.aluA s.core (s.coreIn p) = Core.csrSource (s.coreIn p) := by
    rw [Core.aluA, hstop, hstart', hc]
    rfl
  have hB : Core.aluB s.core (s.coreIn p) =
      if (i.op.funct3 i.imm).getLsbD 1 then s.core.csr.get i.csr else 0 := by
    rw [Core.aluB, hstop, hstart', hc, hf3, csrDataOut_of_encodesCsr hstart henc,
      BitVec.getLsbD_eq_getElem (by decide)]
    cases (i.op.funct3 i.imm)[1] <;> rfl
  rw [aluRes, Core.aluRes, hop, hA, hB, csrSource_of_encodesCsr henc, alu_csrOp]

/-! ## The period -/

theorem cycle_csr_get (hstart : s.irqStart p = false) (henc : Isa.EncodesCsr s.instruction i)
    {a : BitVec 12} (ha : CsrIn.knownCsr a = true) :
    (s.cycle p).core.csr.get a =
      if a = i.csr ∧ i.source ≠ 0 then
        Csr.stored a (s.core.csr.get a) (i.op.value (s.core.csr.get i.csr) (i.operand s.regMem))
      else s.core.csr.get a := by
  have hquiet : s.core.csr.negedge (s.csrIn p) (s.aluRes p) =
      s.core.csr.quietNegedge (s.csrIn p) (s.aluRes p) :=
    Csr.negedge_of_not_irqStart _ _ _ hstart
  have hstop : (s.csrIn p).irqStop = false := irqStop_of_encodesCsr henc
  rw [cycle_csr, Csr.get_posedge, hquiet, s.core.csr.get_quietNegedge hstop _ ha,
    sysImm_of_encodesCsr henc, wrEn_of_encodesCsr henc, aluRes_of_encodesCsr hstart henc]
  exact if_congr (and_congr_right' bne_iff_ne) rfl rfl

theorem cycle_regMem_of_encodesCsr (hstart : s.irqStart p = false)
    (henc : Isa.EncodesCsr s.instruction i) (r : BitVec 5) :
    (s.cycle p).regMem r = if r = i.rd ∧ r ≠ 0 then s.core.csr.get i.csr else s.regMem r := by
  have h := typed_of_encodesCsr henc
  have hrd : s.dec.rdAddr = i.rd := henc.rd
  have hstart' : Core.irqStart s.core (s.coreIn p) = false := hstart
  have hen : s.rfWrEn p = (i.rd != 0) := by
    have hctl : (Core.ctl (s.coreIn p)).rfWrEn = true := h.rfWrEn
    have hok : (Core.dec (s.coreIn p)).rdOk = (i.rd != 0) := congrArg (· != 0) hrd
    rw [rfWrEn, Core.rfWrEn, hctl, hok, hstart', Bool.not_false, Bool.and_true, Bool.true_and]
  have hdata : s.rfWrData p = s.core.csr.get i.csr := by
    have hc : (Core.dec (s.coreIn p)).cType = true := congrArg InstrType.cType h.type
    rw [rfWrData, Core.rfWrData, hc, csrDataOut_of_encodesCsr hstart henc]
    rfl
  rw [cycle_regMem, hen, hrd, hdata]
  by_cases hzero : i.rd = 0
  · have hne : ¬(r = i.rd ∧ r ≠ 0) := fun hr ↦ hr.2 (hr.1.trans hzero)
    rw [if_neg hne, hzero]
    rfl
  · have hwrite : (i.rd != 0) = true := bne_iff_ne.mpr hzero
    rw [hwrite, RegFile.write_true_apply]
    refine if_congr ⟨fun hr ↦ ⟨hr, hr ▸ hzero⟩, And.left⟩ rfl rfl

theorem cycle_pc_of_encodesCsr (hreq : s.core.imemReq = true)
    (hstart : (s.negedge p).irqStart p = false) (henc : Isa.EncodesCsr s.instruction i) :
    (s.cycle p).core.pc = s.core.pc + 4 := by
  have h : Typed (s.negedge p) 0b1110011 { iType := true, cType := true } := by
    refine typed_of_encodesCsr (i := i) ?_
    rwa [negedge_instruction]
  have hstart' : Core.irqStart (s.negedge p).core ((s.negedge p).coreIn p) = false := hstart
  have hstop : Core.irqStop (s.negedge p).core ((s.negedge p).coreIn p) = false :=
    (negedge_irqStop p s).trans (irqStop_of_encodesCsr henc)
  have hb : (Core.dec ((s.negedge p).coreIn p)).bType = false := congrArg InstrType.bType h.type
  have hsel : (Core.ctl ((s.negedge p).coreIn p)).pcSel = false := h.pcSel
  have hjump : Core.pcJump (s.negedge p).core ((s.negedge p).coreIn p) = false := by
    rw [Core.pcJump, Core.branchTaken, hb, hsel, hstart', hstop]
    rfl
  have hreq' : (s.negedge p).core.imemReq = true := hreq
  rw [cycle_pc, if_pos hreq, nextPc, Core.nextPc, hjump, nextPcDefault_eq hreq' (h.is32bit rfl)]
  rfl

/-- A CSR instruction in a running state in which no trap starts: `rd` receives the old value,
the addressed register the new one unless the source field is 0, bits 7 and 11 of `mip` stay,
and nothing else changes. -/
theorem cycle_executes_csr {s : State 32 depth} {p : Inputs 32} (hreq : s.core.imemReq = true)
    (hstart : s.irqStart p = false) (hstart' : (s.negedge p).irqStart p = false)
    (henc : Isa.EncodesCsr s.instruction i) (hknown : CsrIn.knownCsr i.csr = true) :
    (∀ r, (s.cycle p).regMem r = if r = i.rd ∧ r ≠ 0 then s.core.csr.get i.csr else s.regMem r) ∧
      (s.cycle p).core.csr.get i.csr =
        (if i.source ≠ 0 then
          Csr.stored i.csr (s.core.csr.get i.csr)
            (i.op.value (s.core.csr.get i.csr) (i.operand s.regMem))
        else s.core.csr.get i.csr) ∧
      (∀ a, CsrIn.knownCsr a = true → a ≠ i.csr →
        (s.cycle p).core.csr.get a = s.core.csr.get a) ∧
      (s.cycle p).dataMem.memx = s.dataMem.memx ∧
      (s.cycle p).instructionMem.memx = s.instructionMem.memx ∧
      (s.cycle p).core.pc = s.core.pc + 4 := by
  have h := typed_of_encodesCsr henc
  refine ⟨cycle_regMem_of_encodesCsr hstart henc, ?_, ?_, ?_, rfl,
    cycle_pc_of_encodesCsr hreq hstart' henc⟩
  · rw [cycle_csr_get hstart henc hknown]
    exact if_congr ⟨And.right, fun hs ↦ ⟨rfl, hs⟩⟩ rfl rfl
  · intro a ha hne
    rw [cycle_csr_get hstart henc ha, if_neg fun hc ↦ hne hc.1]
  · exact cycle_dataMem_of_ne_store p s (h.ne_store rfl)

/-- `CSRRS x1, mscratch, x1`: the destination is the source. -/
theorem cycle_executes_csr_csrrs :
    let csr : Csr 32 := { Csr.reset false with mscratch := 0b0011 }
    let s : State 32 (instMemDepth false) :=
      running [0x3400A0F3] 0 csr fun r ↦ if r = 1 then 0b0101 else 0
    (s.cycle (irqLine false)).regMem 1 = 0b0011 ∧
      (s.cycle (irqLine false)).core.csr.get CsrAddr.mscratch = 0b0111 := by
  intro csr s
  have hword : s.instruction = 0x3400A0F3 := by decide +kernel
  have henc : Isa.EncodesCsr s.instruction ⟨.csrrs, false, CsrAddr.mscratch, 1, 1⟩ := by
    rw [hword]
    constructor <;> decide
  obtain ⟨hreg, hcsr, -⟩ := cycle_executes_csr (p := irqLine false) rfl (by decide +kernel)
    (by decide +kernel) henc (by decide)
  exact ⟨hreg 1, hcsr.trans (by decide)⟩

/-- `CSRRW x1, mscratch, x0` and `CSRRWI x1, mscratch, 0` leave `mscratch` as it is, although
a replacement writes. -/
theorem csrrw_x0_not_written :
    let csr : Csr 32 := { Csr.reset false with mscratch := 5 }
    let s : BitVec 32 → State 32 (instMemDepth false) := fun w ↦ running [w] 0 csr fun _ ↦ 0
    let p : Inputs 32 := irqLine false
    let i : Bool → Isa.CsrInstr := fun imm ↦ ⟨.csrrw, imm, CsrAddr.mscratch, 1, 0⟩
    (Isa.EncodesCsr (s 0x340010F3).instruction (i false) ∧
        (s 0x340010F3).irqStart p = false ∧ ((s 0x340010F3).negedge p).irqStart p = false ∧
        ((s 0x340010F3).cycle p).core.csr.get CsrAddr.mscratch = 5) ∧
      (Isa.EncodesCsr (s 0x340050F3).instruction (i true) ∧
        (s 0x340050F3).irqStart p = false ∧ ((s 0x340050F3).negedge p).irqStart p = false ∧
        ((s 0x340050F3).cycle p).core.csr.get CsrAddr.mscratch = 5) ∧
      (∀ imm, (i imm).op.writes (i imm).source = true ∧
        (i imm).op.value (csr.get CsrAddr.mscratch) ((i imm).operand fun _ ↦ 0) = 0) := by
  intro csr s p i
  have hrw : (s 0x340010F3).instruction = 0x340010F3 := by decide +kernel
  have hrwi : (s 0x340050F3).instruction = 0x340050F3 := by decide +kernel
  refine ⟨⟨?_, by decide +kernel, by decide +kernel, by decide +kernel⟩,
    ⟨?_, by decide +kernel, by decide +kernel, by decide +kernel⟩, by decide +kernel⟩
  · rw [hrw]
    constructor <;> decide
  · rw [hrwi]
    constructor <;> decide

end State

end RtlCores.Riscv
