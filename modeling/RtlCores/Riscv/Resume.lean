import RtlCores.Riscv.TrapRuns

/-!
# Returning from a trap

An xRET jumps to `mepc + 4`.  The instruction that an interrupt aborted is therefore passed
over: it is executed neither before the handler nor after it.
-/

namespace RtlCores.Riscv

open RtlCores.Lib RtlCores.Modules
open RtlCores.Riscv.Core (evenPc)

variable {xlen depth : Nat}

/-- The MRET word. -/
def mretWord : BitVec 32 := 0x30200073

namespace State

variable {p : Inputs xlen} {s : State xlen depth}

/-! ## The period of the MRET -/

/-- MRET is in flight, in the period after a trap was requested. -/
structure Returning (s : State xlen depth) : Prop where
  imemReq : s.core.imemReq = true
  instruction : s.instruction = mretWord
  irqStarted : s.core.csr.irqStarted = true

namespace Returning

theorem irqStart (h : Returning s) : s.irqStart p = false := by
  rw [irqStart_eq, h.irqStarted, Bool.not_true, Bool.and_false]

theorem negedge_irqStart (h : Returning s) : (s.negedge p).irqStart p = false := by
  rw [negedge_irqStart_eq, h.irqStarted, Bool.not_true, Bool.and_false]

theorem dec (h : Returning s) : s.dec = decode mretWord := by
  rw [State.dec, h.instruction]

theorem irqStop (h : Returning s) : s.irqStop p = true := by
  have hin : (s.csrIn p).irqStop = (s.dec.yType &&
      (s.dec.immediate.extractLsb' 0 12 == SysImm.sret ||
        s.dec.immediate.extractLsb' 0 12 == SysImm.mret ||
        s.dec.immediate.extractLsb' 0 12 == SysImm.mnret)) := rfl
  show (s.csrIn p).irqStop = true
  rw [hin, h.dec]
  decide +kernel

/-- MRET writes no register and no memory. -/
theorem cycle_regMem (h : Returning s) : (s.cycle p).regMem = s.regMem := by
  refine cycle_regMem_of_not_rdOk p s ?_
  rw [h.dec]
  decide +kernel

theorem cycle_dataMem (h : Returning s) : (s.cycle p).dataMem.memx = s.dataMem.memx := by
  refine cycle_dataMem_of_ne_store p s ?_
  rw [h.dec]
  decide +kernel

theorem cycle_imemReq (h : Returning s) : (s.cycle p).core.imemReq = true := by
  rw [State.cycle_imemReq, h.instruction, Bool.or_eq_true]
  exact .inr rfl

theorem cType (h : Returning s) : s.dec.cType = false := by
  rw [h.dec]
  decide +kernel

theorem negedge_csr (h : Returning s) :
    (s.negedge p).core.csr = s.core.csr.quietNegedge (s.csrIn p) (s.aluRes p) :=
  Csr.negedge_of_not_irqStart _ _ _ h.irqStart

theorem negedge_mepc (h : Returning s) : (s.negedge p).core.csr.mepc = s.core.csr.mepc := by
  rw [h.negedge_csr]
  show (Csr.plainLoad (s.csrIn p) (s.aluRes p) CsrAddr.mepc).getD s.core.csr.mepc = _
  rw [plainLoad_of_not_cType p s h.cType, Option.getD_none]

/-- `MPIE` is moved back to `MIE`. -/
theorem cycle_mieBit (h : Returning s) (hx : 32 ≤ xlen) :
    (s.cycle p).core.csr.mstatus.getLsbD mieBit = s.core.csr.mstatus.getLsbD mpieBit := by
  have hstop : (s.csrIn p).irqStop = true := h.irqStop
  show (s.negedge p).core.csr.mstatus.getLsbD mieBit = _
  rw [h.negedge_csr, Csr.quietNegedge]
  show (if (s.csrIn p).irqStop then _ else _ : BitVec xlen).getLsbD mieBit = _
  rw [if_pos hstop]
  exact (Csr.getLsbD_return hx _ _ _).1

/-- The jump goes to the instruction after the one whose address is in `mepc`. -/
theorem cycle_pc (h : Returning s) : (s.cycle p).core.pc = evenPc (s.core.csr.mepc + 4) := by
  have hstop₂ : Core.irqStop (s.negedge p).core ((s.negedge p).coreIn p) = true := by
    show (s.negedge p).irqStop p = true
    rw [negedge_irqStop]
    exact h.irqStop
  have hres : (s.negedge p).aluRes p = s.core.csr.mepc + 4 := by
    rw [aluRes_of_return hstop₂ h.negedge_irqStart, h.negedge_mepc]
  rw [State.cycle_pc, if_pos h.imemReq, nextPc_of_jump, hres]
  rw [Core.pcJump, hstop₂, Bool.or_true]

end Returning

/-! ## The vector before and after the negedge

A trap that starts at the negedge is also taken at the posedge, and with the same vector in
sight, if the instruction in flight leaves `mie` and `mtvec` alone and an interrupt in
vectored mode is let through by `MIE`, which trap entry moves to `MPIE`. -/

/-- The instruction in flight leaves `mie` and `mtvec` alone. -/
structure KeepsVector (p : Inputs xlen) (s : State xlen depth) : Prop where
  mie : (s.negedge p).core.csr.mie = s.core.csr.mie
  mtvec : (s.negedge p).core.csr.mtvec = s.core.csr.mtvec

theorem KeepsVector.of_plainLoad (h : ∀ addr, CsrIn.knownCsr addr = true →
    Csr.plainLoad (s.csrIn p) (s.aluRes p) addr = none) : KeepsVector p s where
  mie := by
    show (Csr.plainLoad _ _ _).getD _ = _
    rw [h CsrAddr.mie (by decide), Option.getD_none]
  mtvec := by
    show (Csr.plainLoad _ _ _).getD _ = _
    rw [h CsrAddr.mtvec (by decide), Option.getD_none]

/-- The second half sees a vectored interrupt exactly if the first does, and the same one. -/
theorem KeepsVector.vectored (hkeep : KeepsVector p s) (hx : 32 ≤ xlen)
    (hstart : s.irqStart p = true)
    (hint : s.core.csr.interrupt (s.csrIn p) = true →
      s.core.csr.mstatus.getLsbD mieBit = true ∨ s.core.csr.mtvec.getLsbD 0 = false) :
    ((s.negedge p).core.csr.interrupt (s.csrIn p) && s.core.csr.mtvec.getLsbD 0) =
        (s.core.csr.interrupt (s.csrIn p) && s.core.csr.mtvec.getLsbD 0) ∧
      ((s.core.csr.interrupt (s.csrIn p) && s.core.csr.mtvec.getLsbD 0) = true →
        (s.negedge p).core.csr.causeCode (s.csrIn p) = s.core.csr.causeCode (s.csrIn p)) := by
  have hmie : s.mieNext p = s.core.csr.mie := hkeep.mie
  have hstart' : s.core.csr.irqStart (s.csrIn p) = true := hstart
  have hnext := negedge_interrupt_of_irqStart p s hx hstart
  rw [hmie] at hnext
  have hen : (s.negedge p).core.csr.irqMmodeEn (s.csrIn p) =
      (!s.irqStop p && s.core.csr.mstatus.getLsbD mieBit) :=
    Csr.irqMmodeEn_negedge_of_irqStart _ _ _ hx hstart'
  have hen₁ : s.core.csr.irqMmodeEn (s.csrIn p) = (!s.irqStop p &&
      (s.core.csr.mstatus.getLsbD mieBit || s.core.csr.mstatus.getLsbD mpieBit)) := rfl
  have hint₁ := s.core.csr.interrupt_eq (s.csrIn p)
  constructor
  · rw [hnext, hint₁, hen₁]
    rw [hint₁, hen₁] at hint
    cases hv : s.core.csr.mtvec.getLsbD 0 <;> cases hm : s.core.csr.mstatus.getLsbD mieBit <;>
      simp_all
  · intro hvec
    rw [Bool.and_eq_true] at hvec
    have hm : s.core.csr.mstatus.getLsbD mieBit = true := by
      rcases hint hvec.1 with hm | hv
      · exact hm
      · rw [hv] at hvec
        exact absurd hvec.2 (by decide)
    have hcode : (s.negedge p).core.csr.mcauseCode (s.csrIn p) =
        s.core.csr.mcauseCode (s.csrIn p) := by
      refine Csr.mcauseCode_congr hkeep.mie ?_
      rw [hen, hen₁, hm, Bool.true_or]
    rw [Csr.causeCode, hcode, Csr.causeCode]

theorem KeepsVector.offset (hkeep : KeepsVector p s) (hx : 32 ≤ xlen)
    (hstart : s.irqStart p = true)
    (hint : s.core.csr.interrupt (s.csrIn p) = true →
      s.core.csr.mstatus.getLsbD mieBit = true ∨ s.core.csr.mtvec.getLsbD 0 = false) :
    (s.negedge p).core.csr.offset (s.csrIn p) = s.core.csr.offset (s.csrIn p) := by
  obtain ⟨hvec, hcode⟩ := hkeep.vectored hx hstart hint
  cases hv : s.core.csr.interrupt (s.csrIn p) && s.core.csr.mtvec.getLsbD 0 with
  | true =>
    rw [Csr.offset_of_vectored _ _ hx (by rw [hkeep.mtvec, hvec, hv]),
      Csr.offset_of_vectored _ _ hx hv, hcode hv]
  | false =>
    rw [Csr.offset_of_not_vectored _ _ hx (by rw [hkeep.mtvec, hvec, hv]),
      Csr.offset_of_not_vectored _ _ hx hv]

/-- The trap goes where it was to go before the negedge, and the operation forms that vector if it
formed it then. -/
theorem KeepsVector.trap_taken (hkeep : KeepsVector p s) (hx : 32 ≤ xlen)
    (halign : (s.csrIn p).irqAlign = false) (hreq : s.core.imemReq = true)
    (hstart : s.irqStart p = true) (hstart₂ : (s.negedge p).irqStart p = true)
    (hform : s.FormsVector p)
    (hint : s.core.csr.interrupt (s.csrIn p) = true →
      s.core.csr.mstatus.getLsbD mieBit = true ∨ s.core.csr.mtvec.getLsbD 0 = false) :
    (s.cycle p).core.pc = s.trapVector p ∧
      (s.cycle p).core.csr.mepc = s.core.pc.setWidth xlen ∧ (s.cycle p).regMem = s.regMem := by
  have hoffset := hkeep.offset hx hstart hint
  have hvector : (s.negedge p).trapVector p = s.trapVector p := by
    rw [trapVector, trapVector, negedge_csrIn, ← Csr.setWidth_base_add_offset _ _ hx,
      ← Csr.setWidth_base_add_offset _ _ hx, hkeep.mtvec, hoffset]
  have hform₂ : (s.negedge p).FormsVector p := by
    rw [FormsVector, negedge_ctl, negedge_csrIn, hkeep.mtvec, hoffset]
    exact hform
  rw [← hvector]
  exact State.trap_taken hx halign hreq hstart hstart₂ hform₂

/-! ## An interrupted instruction -/

/-- What starts an interrupt in a running state: the external line is high and enabled, and no
trap was requested in the period before. -/
structure Interrupted (p : Inputs xlen) (s : State xlen depth) : Prop where
  imemReq : s.core.imemReq = true
  mie : s.core.csr.mstatus.getLsbD mieBit = true
  meie : s.core.csr.mie.getLsbD 11 = true
  line : p.irqExPending = true
  irqStarted : s.core.csr.irqStarted = false
  opcode : s.dec.opcode ≠ Opcode.system

namespace Interrupted

theorem yType (h : Interrupted p s) : s.dec.yType = false := by
  by_contra hy
  rw [Bool.not_eq_false] at hy
  exact h.opcode (decode_yType hy).1

theorem cType (h : Interrupted p s) : s.dec.cType = false := by
  by_contra hc
  rw [Bool.not_eq_false] at hc
  exact h.opcode (decode_cType hc)

theorem irqStop (h : Interrupted p s) : s.irqStop p = false := irqStop_of_not_yType p s h.yType

theorem lineHigh (h : Interrupted p s) : Csr.lineHigh s.core.csr.mie (s.csrIn p) = true := by
  have hline : (s.csrIn p).irqExPending = true := h.line
  rw [Csr.lineHigh, h.meie, hline]
  rfl

theorem interrupt (h : Interrupted p s) : s.core.csr.interrupt (s.csrIn p) = true := by
  have hstop : (s.csrIn p).irqStop = false := h.irqStop
  rw [Csr.interrupt_eq, h.lineHigh, Csr.irqMmodeEn, hstop, h.mie]
  rfl

theorem irqStart (h : Interrupted p s) : s.irqStart p = true := by
  rw [irqStart_eq, h.interrupt, h.irqStarted]
  rfl

theorem keepsVector (h : Interrupted p s) : KeepsVector p s :=
  .of_plainLoad fun _ _ ↦ plainLoad_of_not_cType p s h.cType _ _

theorem negedge_irqStart (h : Interrupted p s) (hx : 32 ≤ xlen) :
    (s.negedge p).irqStart p = true := by
  have hmie : s.mieNext p = s.core.csr.mie := h.keepsVector.mie
  rw [negedge_irqStart_eq, negedge_interrupt_of_irqStart p s hx h.irqStart, hmie, h.lineHigh,
    h.irqStop, h.mie, h.irqStarted]
  rfl

/-- The period of the interrupt ends in the handler. -/
theorem trap (h : Interrupted p s) (hx : 32 ≤ xlen) (hs : s.FromReset) (hform : s.FormsVector p) :
    (s.cycle p).core.pc = s.trapVector p ∧
      (s.cycle p).core.csr.mepc = s.core.pc.setWidth xlen ∧ (s.cycle p).regMem = s.regMem :=
  h.keepsVector.trap_taken hx (hs.irqAlign p) h.imemReq h.irqStart (h.negedge_irqStart hx) hform
    fun _ ↦ .inl h.mie

theorem cycle_irqStarted (h : Interrupted p s) (hx : 32 ≤ xlen) :
    (s.cycle p).core.csr.irqStarted = true := by
  have hreq : (s.csrIn p).imemReq = true := h.imemReq
  have hstart := h.negedge_irqStart hx
  have hen : (s.negedge p).core.csr.irqEn (s.csrIn p) = true := by
    rw [negedge_irqStart_eq, Bool.and_eq_true] at hstart
    exact hstart.1
  rw [cycle_csr, Csr.posedge, hreq]
  exact hen

/-- `MIE` is kept in `MPIE`. -/
theorem cycle_mpieBit (h : Interrupted p s) (hx : 32 ≤ xlen) :
    (s.cycle p).core.csr.mstatus.getLsbD mpieBit = true := by
  have hstart : s.core.csr.irqStart (s.csrIn p) = true := h.irqStart
  show (s.negedge p).core.csr.mstatus.getLsbD mpieBit = true
  rw [negedge_csr, Csr.negedge_mstatus_of_irqStart _ _ _ hstart]
  exact (Csr.getLsbD_entry hx _ _ _).1.trans h.mie

/-- A handler that is a single MRET returns in the next period. -/
theorem returning (h : Interrupted p s) (hx : 32 ≤ xlen) (hs : s.FromReset)
    (hform : s.FormsVector p) (hgo : s.instruction ≠ 0 ∨ s.core.pc = instBaseAddress)
    (hmret : fetch s.instructionMem.memx (s.trapVector p) = mretWord) :
    Returning (s.cycle p) := by
  have hreq : (s.cycle p).core.imemReq = true := by
    rw [cycle_imemReq, Bool.or_eq_true]
    rcases hgo with hword | hpc
    · right
      rw [bne_iff_ne]
      exact hword
    · left
      rw [hpc]
      rfl
  refine ⟨hreq, ?_, h.cycle_irqStarted hx⟩
  rw [instruction_eq_fetch hreq, cycle_instructionMem, (h.trap hx hs hform).1, hmret]

end Interrupted

/-- An even address comes back from `mepc`. -/
theorem evenPc_mepc (hx : 32 ≤ xlen) {pc : BitVec 32} (h : pc.getLsbD 0 = false) :
    evenPc (pc.setWidth xlen + 4) = pc + 4 := by
  have h0 : (pc.setWidth xlen).getLsbD 0 = false := by
    rw [BitVec.getLsbD_setWidth, h, Bool.and_false]
  have h4 : (4 : BitVec xlen).getLsbD 0 = false := by
    rw [BitVec.ofNat_eq_ofNat, BitVec.getLsbD_ofNat, Bool.and_eq_false_iff]
    exact .inr rfl
  rw [evenPc_of_even (getLsbD_zero_add h0 h4), setWidth_add_four hx]

/-- In every running state of every run, if an enabled external interrupt aborts an
instruction that is neither a SYSTEM instruction nor a store, whose operation forms the trap
vector, and the handler is a single MRET, then two periods later the core is at the
instruction after the aborted one, with registers and data memory as they were before it and
interrupts enabled again. -/
theorem interrupt_passes_over (hx : 32 ≤ xlen) (hs : s.FromReset) (h : Interrupted p s)
    (hstore : s.dec.opcode ≠ Opcode.sType) (hform : s.FormsVector p)
    (hgo : s.instruction ≠ 0 ∨ s.core.pc = instBaseAddress)
    (hmret : fetch s.instructionMem.memx (s.trapVector p) = mretWord) (q : Inputs xlen) :
    let r := (s.cycle p).cycle q
    r.core.pc = s.core.pc + 4 ∧ r.core.imemReq = true ∧ r.regMem = s.regMem ∧
      r.dataMem.memx = s.dataMem.memx ∧ r.core.csr.mstatus.getLsbD mieBit = true := by
  intro r
  have hret := h.returning hx hs hform hgo hmret
  obtain ⟨-, hmepc, hregs⟩ := h.trap hx hs hform
  refine ⟨?_, hret.cycle_imemReq, ?_, ?_, ?_⟩
  · rw [hret.cycle_pc, hmepc, evenPc_mepc hx hs.pc_even]
  · rw [hret.cycle_regMem, hregs]
  · rw [hret.cycle_dataMem, cycle_dataMem_of_ne_store p s hstore]
  · rw [hret.cycle_mieBit hx, h.cycle_mpieBit hx]

/-! ## A halted core -/

/-- The core has stopped fetching on an all-zero word. -/
structure Halted (s : State xlen depth) : Prop where
  imemReq : s.core.imemReq = false
  pc : s.core.pc ≠ instBaseAddress
  instruction : s.instruction = 0

namespace Halted

/-- The closed latch keeps the word. -/
theorem cycle_instruction (h : Halted s) : (s.cycle p).instruction = s.instruction := by
  have hen : Memory.rdEn (s.imemReqPorts true) = false := h.imemReq
  have hhold : (s.instructionMem.hold true (s.imemReqPorts true)).regRdNow true
      (s.imemReqPorts true) = s.instructionMem.regRdNow true (s.imemReqPorts true) :=
    Memory.regRdNow_hold _ _ _ (by simp [SupportedWidth])
  have hreg : (s.cycle p).instructionMem.regRd =
      s.instructionMem.regRdNow true (s.imemReqPorts true) := hhold
  have hreq : (s.cycle p).core.imemReq = false := by
    rw [cycle_imemReq, beq_eq_false_iff_ne.mpr h.pc, h.instruction]
    rfl
  have hen' : Memory.rdEn ((s.cycle p).imemReqPorts true) = false := hreq
  have hpc : (s.cycle p).core.pc = s.core.pc := by
    rw [State.cycle_pc, h.imemReq]
    rfl
  have hpc' : (s.cycle p).core.pc.toNat = s.core.pc.toNat := congrArg BitVec.toNat hpc
  show (if depth < (s.cycle p).core.pc.toNat then 0 else
      (s.cycle p).instructionMem.regRdNow true ((s.cycle p).imemReqPorts true)) =
    if depth < s.core.pc.toNat then 0 else s.instructionMem.regRdNow true (s.imemReqPorts true)
  rw [hpc', Memory.regRdNow_of_rdEn_false _ _ _ hen', hreg]

/-- A halted core stays halted, at the same `pc` and with the same registers. -/
theorem cycle (h : Halted s) :
    Halted (s.cycle p) ∧ (s.cycle p).core.pc = s.core.pc ∧ (s.cycle p).regMem = s.regMem := by
  have hpc : (s.cycle p).core.pc = s.core.pc := by
    rw [State.cycle_pc, h.imemReq]
    rfl
  refine ⟨⟨?_, ?_, ?_⟩, hpc, cycle_regMem_of_not_rdOk p s ?_⟩
  · rw [cycle_imemReq, beq_eq_false_iff_ne.mpr h.pc, h.instruction]
    rfl
  · rw [hpc]
    exact h.pc
  · rw [h.cycle_instruction, h.instruction]
  · rw [State.dec, h.instruction]
    decide +kernel

/-- Also over any number of periods, whatever the interrupt lines do. -/
theorem run (h : Halted s) (is : Nat → Inputs xlen) (n : Nat) :
    Halted (Lib.run (fun p s ↦ State.cycle p s) is s n) ∧
      (Lib.run (fun p s ↦ State.cycle p s) is s n).core.pc = s.core.pc ∧
      (Lib.run (fun p s ↦ State.cycle p s) is s n).regMem = s.regMem := by
  have hstep : ∀ (p : Inputs xlen) (t : State xlen depth),
      (Halted t ∧ t.core.pc = s.core.pc ∧ t.regMem = s.regMem) →
        Halted (State.cycle p t) ∧ (State.cycle p t).core.pc = s.core.pc ∧
          (State.cycle p t).regMem = s.regMem := by
    rintro p t ⟨hhalt, hpc, hregs⟩
    obtain ⟨hhalt', hpc', hregs'⟩ := hhalt.cycle (p := p)
    exact ⟨hhalt', hpc'.trans hpc, hregs'.trans hregs⟩
  exact run_invariant _ _ hstep is ⟨h, rfl, rfl⟩ n

/-- Once a run has halted after `m` periods, nothing changes any more. -/
theorem of_le {is : Nat → Inputs xlen} {m n : Nat} (hle : m ≤ n)
    (h : Halted (Lib.run (fun p s ↦ State.cycle p s) is s m)) :
    Halted (Lib.run (fun p s ↦ State.cycle p s) is s n) ∧
      (Lib.run (fun p s ↦ State.cycle p s) is s n).core.pc =
        (Lib.run (fun p s ↦ State.cycle p s) is s m).core.pc ∧
      (Lib.run (fun p s ↦ State.cycle p s) is s n).regMem =
        (Lib.run (fun p s ↦ State.cycle p s) is s m).regMem := by
  obtain ⟨k, rfl⟩ := Nat.exists_eq_add_of_le hle
  rw [run_add]
  exact h.run _ k

end Halted

/-- `ADDI x2, x0, 5` at address 16, with MRET as the handler. -/
def addiThenHalt : List (BitVec 32) := withHandler (enableIrq [0x00500113]) [mretWord]

/-- The `ADDI` interrupted. -/
theorem interrupt_passes_over_addi :
    let s : State 32 1024 := runProgram addiThenHalt (fun _ ↦ irqLine false) 4
    let r := (s.cycle (irqLine true)).cycle (irqLine false)
    r.core.pc = s.core.pc + 4 ∧ r.core.imemReq = true ∧ r.regMem = s.regMem ∧
      r.dataMem.memx = s.dataMem.memx ∧ r.core.csr.mstatus.getLsbD mieBit = true :=
  interrupt_passes_over (by decide) (fromReset_runProgram _ _ _)
    ⟨by decide +kernel, by decide +kernel, by decide +kernel, rfl, by decide +kernel,
      by decide +kernel⟩
    (by decide +kernel) (by decide +kernel) (.inl (by decide +kernel)) (by decide +kernel) _

/-- No state that the interrupted program reaches after its MRET has the `pc` and registers of
a state of the program run without the interrupt: the `ADDI` is lost. -/
theorem interrupt_not_transparent_addi :
    let s : State 32 1024 := runProgram addiThenHalt (fun _ ↦ irqLine false) 4
    s.FromReset ∧ Interrupted (irqLine true) s ∧
      ∀ k n, ¬((run (fun p s ↦ State.cycle p s) (fun m ↦ irqLine (m == 0)) s (k + 2)).core.pc =
          (run (fun p s ↦ State.cycle p s) (fun _ ↦ irqLine false) s n).core.pc ∧
        (run (fun p s ↦ State.cycle p s) (fun m ↦ irqLine (m == 0)) s (k + 2)).regMem =
          (run (fun p s ↦ State.cycle p s) (fun _ ↦ irqLine false) s n).regMem) := by
  intro s
  refine ⟨fromReset_runProgram _ _ _, ⟨by decide +kernel, by decide +kernel, by decide +kernel,
    rfl, by decide +kernel, by decide +kernel⟩, ?_⟩
  -- with the interrupt `x2` stays 0 and `pc` is past the `ADDI`
  have hirq : ∀ k, (run (fun p s ↦ State.cycle p s) (fun m ↦ irqLine (m == 0)) s (k + 2)).core.pc
      ≠ 16 ∧
      (run (fun p s ↦ State.cycle p s) (fun m ↦ irqLine (m == 0)) s (k + 2)).regMem 2 = 0 := by
    rintro (_ | k)
    · decide +kernel
    · have hhalt : Halted (run (fun p s ↦ State.cycle p s) (fun m ↦ irqLine (m == 0)) s 3) :=
        ⟨by decide +kernel, by decide +kernel, by decide +kernel⟩
      obtain ⟨-, hpc, hregs⟩ := Halted.of_le (show 3 ≤ k + 1 + 2 by omega) hhalt
      rw [hpc, hregs]
      decide +kernel
  -- without it `x2` is 5 as soon as `pc` has left the `ADDI`
  have hrun : ∀ n, (run (fun p s ↦ State.cycle p s) (fun _ ↦ irqLine false) s n).core.pc = 16 ∨
      (run (fun p s ↦ State.cycle p s) (fun _ ↦ irqLine false) s n).regMem 2 = 5 := by
    rintro (_ | _ | n)
    · decide +kernel
    · decide +kernel
    · have hhalt : Halted (run (fun p s ↦ State.cycle p s) (fun _ ↦ irqLine false) s 2) :=
        ⟨by decide +kernel, by decide +kernel, by decide +kernel⟩
      obtain ⟨-, hpc, hregs⟩ := Halted.of_le (show 2 ≤ n + 1 + 1 by omega) hhalt
      rw [hpc, hregs]
      decide +kernel
  rintro k n ⟨hpc, hregs⟩
  obtain ⟨hne, hzero⟩ := hirq k
  rcases hrun n with h16 | hfive
  · exact hne (hpc.trans h16)
  · rw [hregs, hfive] at hzero
    contradiction

end State

end RtlCores.Riscv
