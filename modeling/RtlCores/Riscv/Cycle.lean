import RtlCores.Riscv.Top

/-!
# What a clock period does

The negedge writes registers, memory and CSRs, but not what selects the instruction: the
word on the instruction bus, and with it decoding and control, are the same in both halves
of a period.  Only the operands read from registers and CSRs can change in between.
-/

namespace RtlCores.Riscv

open RtlCores.Lib RtlCores.Modules

variable {xlen depth : Nat}

namespace State

variable (p : Inputs xlen) (s : State xlen depth)

/-! ## The second half of the period -/

@[simp] theorem negedge_pc : (s.negedge p).core.pc = s.core.pc := rfl

@[simp] theorem negedge_irqStarted :
    (s.negedge p).core.csr.irqStarted = s.core.csr.irqStarted := rfl

theorem negedge_csr :
    (s.negedge p).core.csr = s.core.csr.negedge (s.csrIn p) (s.aluRes p) := rfl

theorem negedge_regMem :
    (s.negedge p).regMem = s.regMem.write (s.rfWrEn p) s.dec.rdAddr (s.rfWrData p) := rfl

/-- The instruction memory's latch shows the same word across the negedge. -/
@[simp] theorem negedge_instruction : (s.negedge p).instruction = s.instruction :=
  Memory.rdData_hold true (s.imemReqPorts true) s.instructionMem (by simp [SupportedWidth])

@[simp] theorem negedge_dec : (s.negedge p).dec = s.dec := by
  rw [dec, negedge_instruction, dec]

@[simp] theorem negedge_ctl : (s.negedge p).ctl = s.ctl := by
  rw [ctl, negedge_dec, ctl]

/-- The ports of the CSR block other than `csr_din` do not depend on registers. -/
@[simp] theorem negedge_csrIn : (s.negedge p).csrIn p = s.csrIn p := by
  have h := negedge_instruction p s
  simp only [csrIn, Core.csrIn, Core.dec, Core.nonZeroCmd, coreIn, h]
  rfl

@[simp] theorem negedge_irqStop : (s.negedge p).irqStop p = s.irqStop p :=
  congrArg CsrIn.irqStop (negedge_csrIn p s)

/-- In the second half `irq_start` is computed from the CSRs just written. -/
theorem negedge_irqStart :
    (s.negedge p).irqStart p =
      (s.core.csr.negedge (s.csrIn p) (s.aluRes p)).irqStart (s.csrIn p) := by
  show (s.negedge p).core.csr.irqStart ((s.negedge p).csrIn p) = _
  rw [negedge_csrIn, negedge_csr]

/-! ## The whole period -/

theorem cycle_pc :
    (s.cycle p).core.pc =
      if s.core.imemReq then (s.negedge p).nextPc p else s.core.pc := rfl

theorem cycle_imemReq :
    (s.cycle p).core.imemReq = (s.core.pc == instBaseAddress || s.instruction != 0) := by
  show ((s.negedge p).core.pc == instBaseAddress || (s.negedge p).instruction != 0) = _
  rw [negedge_pc, negedge_instruction]

theorem cycle_regMem :
    (s.cycle p).regMem = s.regMem.write (s.rfWrEn p) s.dec.rdAddr (s.rfWrData p) := rfl

theorem cycle_dataMem :
    (s.cycle p).dataMem.memx = (s.dataMem.clock false (s.dmemReqPorts p true)).memx := rfl

theorem cycle_instructionMem : (s.cycle p).instructionMem.memx = s.instructionMem.memx := rfl

theorem cycle_csr :
    (s.cycle p).core.csr =
      (s.core.csr.negedge (s.csrIn p) (s.aluRes p)).posedge (s.csrIn p) := by
  show (s.negedge p).core.csr.posedge ((s.negedge p).csrIn p) = _
  rw [negedge_csrIn, negedge_csr]

/-! ## What the decoder's flags rule out -/

/-- Only a system command returns from a trap. -/
theorem irqStop_of_not_yType (h : s.dec.yType = false) : s.irqStop p = false := by
  show (s.dec.yType && _) = false
  rw [h, Bool.false_and]

theorem yType_of_irqStop (h : s.irqStop p = true) : s.dec.yType = true := by
  have hand : (s.dec.yType && _) = true := h
  rw [Bool.and_eq_true] at hand
  exact hand.1

/-- Only a CSR instruction writes a CSR by itself. -/
theorem wrEn_of_not_cType (h : s.dec.cType = false) : (s.csrIn p).wrEn = false := by
  show (s.dec.cType && _) = false
  rw [h, Bool.false_and]

theorem plainLoad_of_not_cType (h : s.dec.cType = false) (csrDin : BitVec xlen)
    (addr : BitVec 12) : Csr.plainLoad (s.csrIn p) csrDin addr = none := by
  rw [Csr.plainLoad, wrEn_of_not_cType p s h]
  rfl

/-- A word whose destination is `x0` writes no register. -/
theorem cycle_regMem_of_not_rdOk (h : s.dec.rdOk = false) : (s.cycle p).regMem = s.regMem := by
  have hen : s.rfWrEn p = false := by
    have hrd : (Core.dec (s.coreIn p)).rdOk = false := h
    rw [rfWrEn, Core.rfWrEn, hrd, Bool.and_false, Bool.false_and]
  rw [cycle_regMem, hen, RegFile.write_false]

/-- The misalignment exception needs both low bits of `pc`. -/
theorem irqAlign_of_even (h : s.core.pc.getLsbD 0 = false) : (s.csrIn p).irqAlign = false := by
  have h0 : s.core.pc[0] = false := h
  show (s.core.imemReq && s.core.pc[0] && s.core.pc[1]) = false
  rw [h0, Bool.and_false, Bool.false_and]

/-- The instruction in flight raises an exception of its own: ECALL, EBREAK, or a word that
the decoder or the CSR address check flags as illegal. -/
def Raises : Bool :=
  (s.csrIn p).irqEcall || (s.csrIn p).irqBreak || (s.csrIn p).irqIllegal || (s.csrIn p).illegal

variable {p s} in
theorem exception_of_raises (hreq : s.core.imemReq = true) (h : s.Raises p = true) :
    (s.csrIn p).exception = true := by
  have hreq' : (s.csrIn p).imemReq = true := hreq
  simp only [Raises, Bool.or_eq_true] at h
  simp only [CsrIn.exception, CsrIn.irqIllegalAck, hreq', Bool.true_and, Bool.or_eq_true]
  tauto

variable {p s} in
theorem exception_of_not_raises (halign : (s.csrIn p).irqAlign = false)
    (h : s.Raises p = false) : (s.csrIn p).exception = false := by
  simp only [Raises, Bool.or_eq_false_iff] at h
  obtain ⟨⟨⟨hecall, hbreak⟩, hdec⟩, hcsr⟩ := h
  rw [CsrIn.exception, CsrIn.irqIllegalAck, CsrIn.irqFault, halign, hdec, hcsr, hecall, hbreak]
  simp [isunknown]

theorem ctl_dmemWr : s.ctl.dmemWr = (s.dec.opcode == Opcode.sType) :=
  control_dmemWr xlen s.instruction

/-! ## The next `pc` -/

/-- A jump, whatever raised it, goes where the ALU says, with bit 0 cleared. -/
theorem nextPc_of_jump (h : Core.pcJump s.core (s.coreIn p) = true) :
    s.nextPc p = Core.evenPc (s.aluRes p) := by
  rw [nextPc, Core.nextPc, if_pos h]
  rfl

theorem nextPc_of_irqStart (h : s.irqStart p = true) :
    s.nextPc p = Core.evenPc (s.aluRes p) :=
  nextPc_of_jump p s (by rw [irqStart] at h; simp [Core.pcJump, h])

/-- `csr` puts out the trap vector in a half cycle with `irq_start`. -/
theorem csrDataOut_of_irqStart (h : s.irqStart p = true) :
    Core.csrDataOut s.core (s.coreIn p) = s.core.csr.mtvec := by
  rw [irqStart, Core.irqStart] at h
  rw [Core.csrDataOut, Csr.csrOut, if_pos h]

/-- The operands of the ALU in a half cycle with `irq_start`. -/
theorem aluRes_of_irqStart (h : s.irqStart p = true) (hstop : s.irqStop p = false) :
    s.aluRes p =
      alu s.ctl.aluOp (splice s.core.csr.mtvec 0 0#2) (s.core.csr.offset (s.csrIn p)) := by
  have hout := csrDataOut_of_irqStart p s h
  rw [irqStart] at h
  rw [irqStop] at hstop
  have hA : Core.aluA s.core (s.coreIn p) = splice s.core.csr.mtvec 0 0#2 := by
    rw [Core.aluA, hstop, h, hout]
    simp
  have hB : Core.aluB s.core (s.coreIn p) = s.core.csr.offset (s.csrIn p) := by
    rw [Core.aluB, hstop, h]
    simp only [Bool.false_eq_true, if_false, if_true]
    rfl
  rw [aluRes, Core.aluRes, hA, hB]
  rfl

/-- An xRET adds 4 to what `csr` puts out. -/
theorem aluRes_of_irqStop (h : s.irqStop p = true) :
    s.aluRes p = Core.csrDataOut s.core (s.coreIn p) + 4 := by
  have hop : (Core.ctl (s.coreIn p)).aluOp = .add :=
    control_aluOp_of_yType (yType_of_irqStop p s h)
  rw [irqStop] at h
  rw [aluRes, Core.aluRes, Core.aluA, Core.aluB, h, if_pos rfl, if_pos rfl, hop,
    alu_eq_aluDataflow, aluDataflow]

/-- No register is written in a cycle that starts a trap. -/
theorem cycle_regMem_of_irqStart (h : s.irqStart p = true) : (s.cycle p).regMem = s.regMem := by
  have hen : s.rfWrEn p = false := by
    rw [irqStart] at h
    rw [rfWrEn, Core.rfWrEn, h]
    simp
  rw [cycle_regMem, hen, RegFile.write_false]

/-! ## Interrupt lines

While `irq_start` is low the interrupt lines do not reach any wire of the core but the
request itself. -/

variable {p} {s} in
theorem csrDataOut_of_idle (h : s.irqStart p = false) :
    Core.csrDataOut s.core (s.coreIn p) = s.core.csr.csrVal (s.csrIn p) := by
  have h' : s.core.csr.irqStart (s.csrIn p) = false := h
  show s.core.csr.csrOut (s.csrIn p) = _
  rw [Csr.csrOut, h']
  rfl

variable {p} {s} {q : Inputs xlen}

/-- An xRET goes to `mepc + 4`. -/
theorem aluRes_of_return (hstop : s.irqStop p = true) (hstart : s.irqStart p = false) :
    s.aluRes p = s.core.csr.mepc + 4 := by
  have hy : (s.csrIn p).yType = true := yType_of_irqStop p s hstop
  have hirq : (s.csrIn p).irqStop = true := hstop
  rw [aluRes_of_irqStop p s hstop, csrDataOut_of_idle hstart, Csr.csrVal, hy, hirq]
  rfl

theorem csrDataOut_congr (hp : s.irqStart p = false) (hq : s.irqStart q = false) :
    Core.csrDataOut s.core (s.coreIn p) = Core.csrDataOut s.core (s.coreIn q) := by
  rw [csrDataOut_of_idle hp, csrDataOut_of_idle hq]
  rfl

theorem aluRes_congr (hp : s.irqStart p = false) (hq : s.irqStart q = false) :
    s.aluRes p = s.aluRes q := by
  have hp' : Core.irqStart s.core (s.coreIn p) = false := hp
  have hq' : Core.irqStart s.core (s.coreIn q) = false := hq
  have hout := csrDataOut_congr hp hq
  have hA : Core.aluA s.core (s.coreIn p) = Core.aluA s.core (s.coreIn q) := by
    rw [Core.aluA, Core.aluA, hp', hq', hout]
    rfl
  have hB : Core.aluB s.core (s.coreIn p) = Core.aluB s.core (s.coreIn q) := by
    rw [Core.aluB, Core.aluB, hp', hq', hout]
    rfl
  rw [aluRes, aluRes, Core.aluRes, Core.aluRes, hA, hB]
  rfl

theorem nextPc_congr (hp : s.irqStart p = false) (hq : s.irqStart q = false) :
    s.nextPc p = s.nextPc q := by
  have hp' : Core.irqStart s.core (s.coreIn p) = false := hp
  have hq' : Core.irqStart s.core (s.coreIn q) = false := hq
  have hres : Core.aluRes s.core (s.coreIn p) = Core.aluRes s.core (s.coreIn q) :=
    aluRes_congr hp hq
  rw [nextPc, nextPc, Core.nextPc, Core.nextPc, Core.pcJump, Core.pcJump, hp', hq', hres]
  rfl

theorem rfWrEn_congr (hp : s.irqStart p = false) (hq : s.irqStart q = false) :
    s.rfWrEn p = s.rfWrEn q := by
  have hp' : Core.irqStart s.core (s.coreIn p) = false := hp
  have hq' : Core.irqStart s.core (s.coreIn q) = false := hq
  rw [rfWrEn, rfWrEn, Core.rfWrEn, Core.rfWrEn, hp', hq']
  rfl

theorem dmemReqPorts_congr (hp : s.irqStart p = false) (hq : s.irqStart q = false) :
    s.dmemReqPorts p = s.dmemReqPorts q := by
  funext resN
  have hres := aluRes_congr hp hq
  have haddr : s.dmemAddr p = s.dmemAddr q := congrArg (BitVec.setWidth 32) hres
  rw [dmemReqPorts, dmemReqPorts, haddr]
  rfl

theorem rfWrData_congr (hp : s.irqStart p = false) (hq : s.irqStart q = false)
    (hbus : p.dbusRdData = q.dbusRdData) : s.rfWrData p = s.rfWrData q := by
  have hres : Core.aluRes s.core (s.coreIn p) = Core.aluRes s.core (s.coreIn q) :=
    aluRes_congr hp hq
  have hout := csrDataOut_congr hp hq
  have hmem : s.memRdData p = s.memRdData q := by
    rw [memRdData, memRdData, dmemReqPorts_congr hp hq, hbus, dmemAddr, dmemAddr, Core.dmemAddr,
      Core.dmemAddr, hres]
  rw [rfWrData, rfWrData, Core.rfWrData, Core.rfWrData, Core.aluResSigned, Core.aluResSigned,
    hres, hout, hmem]
  rfl

/-- With `irq_start` low the negedge does the same for all values of the lines. -/
theorem negedge_congr (hp : s.irqStart p = false) (hq : s.irqStart q = false)
    (hbus : p.dbusRdData = q.dbusRdData) : s.negedge p = s.negedge q := by
  have hp' : s.core.csr.irqStart (s.csrIn p) = false := hp
  have hq' : s.core.csr.irqStart (s.csrIn q) = false := hq
  have hcsr : s.core.csr.negedge (s.csrIn p) (s.aluRes p) =
      s.core.csr.negedge (s.csrIn q) (s.aluRes q) := by
    rw [aluRes_congr hp hq, Csr.negedge_of_not_irqStart _ _ _ hp',
      Csr.negedge_of_not_irqStart _ _ _ hq']
    rfl
  rw [negedge, negedge, hcsr, rfWrEn_congr hp hq, rfWrData_congr hp hq hbus,
    dmemReqPorts_congr hp hq]

/-! ## Plain instructions

Neither a SYSTEM instruction nor a trap: the CSRs stay as they are, and the ALU sees the
operands that `control` selects. -/

/-- No trap starts, and the instruction in flight is not a SYSTEM instruction. -/
structure Plain (p : Inputs xlen) (s : State xlen depth) : Prop where
  irqStart : s.irqStart p = false
  yType : s.dec.yType = false
  cType : s.dec.cType = false

namespace Plain

theorem irqStop (h : Plain p s) : s.irqStop p = false := irqStop_of_not_yType p s h.yType

theorem negedge_csr (h : Plain p s) : (s.negedge p).core.csr = s.core.csr :=
  Csr.negedge_of_idle _ _ _ h.irqStart h.irqStop (wrEn_of_not_cType p s h.cType)

/-- Both halves of the period are plain. -/
theorem negedge (h : Plain p s) : Plain p (s.negedge p) where
  irqStart := by
    show (s.negedge p).core.csr.irqStart ((s.negedge p).csrIn p) = false
    rw [h.negedge_csr, negedge_csrIn]
    exact h.irqStart
  yType := by rw [negedge_dec, h.yType]
  cType := by rw [negedge_dec, h.cType]

theorem cycle_csr (h : Plain p s) : (s.cycle p).core.csr = s.core.csr.posedge (s.csrIn p) := by
  rw [State.cycle_csr]
  congr 1
  exact h.negedge_csr

theorem aluRes (h : Plain p s) :
    s.aluRes p =
      alu s.ctl.aluOp
        (if s.ctl.aluaSel then s.core.pc.setWidth xlen else s.regMem s.dec.rs1Addr)
        (if s.ctl.alubSel then s.dec.immediate.signExtend xlen else s.regMem s.dec.rs2Addr) := by
  have hstart : Core.irqStart s.core (s.coreIn p) = false := h.irqStart
  have hstop : Core.irqStop s.core (s.coreIn p) = false := h.irqStop
  have hc : (Core.dec (s.coreIn p)).cType = false := h.cType
  rw [State.aluRes, Core.aluRes, Core.aluA, Core.aluB, hstart, hstop, hc]
  rfl

theorem rfWrEn (h : Plain p s) : s.rfWrEn p = (s.ctl.rfWrEn && s.dec.rdOk) := by
  have hstart : Core.irqStart s.core (s.coreIn p) = false := h.irqStart
  rw [State.rfWrEn, Core.rfWrEn, hstart, Bool.not_false, Bool.and_true]
  rfl

theorem nextPc (h : Plain p s) :
    s.nextPc p =
      if Core.branchTaken (s.coreIn p) || s.ctl.pcSel then Core.evenPc (s.aluRes p)
      else Core.nextPcDefault s.core (s.coreIn p) := by
  have hstart : Core.irqStart s.core (s.coreIn p) = false := h.irqStart
  have hstop : Core.irqStop s.core (s.coreIn p) = false := h.irqStop
  rw [State.nextPc, Core.nextPc, Core.pcJump, hstart, hstop, Bool.or_false, Bool.or_false]
  rfl

theorem rfWrData (h : Plain p s) :
    s.rfWrData p =
      match s.ctl.rfWrDataSel with
      | .alu => Core.aluResSigned s.core (s.coreIn p)
      | .mem => signExtender s.ctl.dmemSize s.ctl.dmemZeroEx (s.memRdData p)
      | .imm => s.dec.immediate.signExtend xlen
      | .pc => (Core.nextPcDefault s.core (s.coreIn p)).setWidth xlen := by
  have hc : (Core.dec (s.coreIn p)).cType = false := h.cType
  rw [State.rfWrData, Core.rfWrData, hc]
  rfl

end Plain

/-- The address of the next instruction of a running state that holds a 32-bit word. -/
theorem nextPcDefault_eq (hreq : s.core.imemReq = true) (h32 : s.dec.is32bit = true) :
    Core.nextPcDefault s.core (s.coreIn p) = s.core.pc + 4 := by
  have h32' : (Core.dec (s.coreIn p)).is32bit = true := h32
  rw [Core.nextPcDefault, adder_sum_add, Core.pcAluB, hreq, h32']
  rfl

/-! ## Fetching -/

/-- The word at `pc` in the instruction memory, big endian. -/
def fetch (m : Memx depth) (pc : BitVec 32) : BitVec 32 :=
  if depth < pc.toNat then 0 else m.read4 true pc

/-- A running state has the word at `pc` on the instruction bus. -/
theorem instruction_eq_fetch (hreq : s.core.imemReq = true) :
    s.instruction = fetch s.instructionMem.memx s.core.pc := by
  have hen : Memory.rdEn (s.imemReqPorts true) = true := hreq
  show (if depth < s.core.pc.toNat then 0 else
    s.instructionMem.regRdNow true (s.imemReqPorts true)) = _
  rw [Memory.regRdNow_eq_readBlock true _ _ (by simp [SupportedWidth]) hen]
  show (if depth < s.core.pc.toNat then 0 else
    (s.instructionMem.memx.read4 true s.core.pc).setWidth 32) = _
  rw [BitVec.setWidth_eq, fetch]

end State

end RtlCores.Riscv
