import RtlCores.Modules.Memory
import RtlCores.Riscv.Core

/-!
# The single-cycle processor (`RISCV_SingleCycle/riscv.sv`)

`riscv` joins the core, the instruction memory, the register file and the data memory.
A clock period is two half steps.  At the negedge the register file, the data memory and
the CSRs are written from the settled values of the wires; the wires settle again; at the
posedge `pc`, `imem_req` and `irq_started` are loaded.  The interrupt lines are the input
ports of the core: in the build without a CLINT only the external one can be high.
-/

namespace RtlCores.Riscv

open RtlCores.Lib RtlCores.Modules

variable {xlen depth : Nat}

/-- Registers, memories and latches of `riscv`; `depth` is `INST_MEM_DEPTH`. -/
structure State (xlen depth : Nat) where
  core : CoreRegs xlen
  regMem : RegFile xlen
  instructionMem : Memory depth 32
  dataMem : Memory dmemDepth xlen

/-- What the environment drives during a half cycle. -/
structure Inputs (xlen : Nat) where
  dbusRdData : BitVec xlen
  irqExPending : Bool
  irqSwPending : Bool
  irqTimerPending : Bool

namespace State

variable (p : Inputs xlen) (s : State xlen depth)

/-! ## Wires -/

/-- The request of `instruction_mem`; `wen` is left unconnected. -/
def imemReqPorts (resN : Bool) : MemReq 32 where
  res := !resN
  req := true
  wen := false
  ren := s.core.imemReq
  blsize := DmemSize.word
  addr := s.core.pc
  wrData := 0

/-- The word on the instruction bus; hex images are big endian. -/
def instruction : BitVec 32 := s.instructionMem.rdData true (s.imemReqPorts true)

def coreIn : CoreIn xlen where
  instruction := s.instruction
  rs1Data := s.regMem (decode s.instruction).rs1Addr
  rs2Data := s.regMem (decode s.instruction).rs2Addr
  irqSwPending := p.irqSwPending
  irqExPending := p.irqExPending
  irqTimerPending := p.irqTimerPending

/-- The outputs of `decode` for the instruction in flight. -/
def dec : Decoded := decode s.instruction

/-- The outputs of `control` for the instruction in flight. -/
def ctl : Control := control xlen s.dec

def csrIn : CsrIn := Core.csrIn s.core (s.coreIn p)

def irqStart : Bool := Core.irqStart s.core (s.coreIn p)

def irqStop : Bool := Core.irqStop s.core (s.coreIn p)

def aluRes : BitVec xlen := Core.aluRes s.core (s.coreIn p)

def rfWrEn : Bool := Core.rfWrEn s.core (s.coreIn p)

def nextPc : BitVec 32 := Core.nextPc s.core (s.coreIn p)

def dmemAddr : BitVec 32 := Core.dmemAddr s.core (s.coreIn p)

/-- The request of `data_mem`. -/
def dmemReqPorts (resN : Bool) : MemReq xlen where
  res := !resN
  req := s.ctl.dmemReq
  wen := s.ctl.dmemWr
  ren := !s.ctl.dmemWr
  blsize := s.ctl.dmemSize
  addr := s.dmemAddr p
  wrData := Core.dmemWrData (s.coreIn p)

/-- `mem_rd_data`: the data memory inside its range, the bus outside. -/
def memRdData : BitVec xlen :=
  if dmemBaseAddress ≤ s.dmemAddr p ∧
      s.dmemAddr p < dmemBaseAddress + BitVec.ofNat 32 dmemDepth then
    s.dataMem.rdData false (s.dmemReqPorts p true)
  else p.dbusRdData

def rfWrData : BitVec xlen := Core.rfWrData s.core (s.coreIn p) (s.memRdData p)

/-! ## Edges -/

/-- The registers that `res_n` clears asynchronously, at their reset values. -/
def asyncReset : State xlen depth where
  core := { pc := instBaseAddress, imemReq := false, csr := Csr.reset s.core.csr.irqStarted }
  regMem := fun _ ↦ 0
  instructionMem := s.instructionMem
  dataMem := s.dataMem

/-- A negedge of `clk` with `res_n` high. -/
def negedge : State xlen depth where
  core := { s.core with csr := s.core.csr.negedge (s.csrIn p) (s.aluRes p) }
  regMem := s.regMem.write (s.rfWrEn p) s.dec.rdAddr (s.rfWrData p)
  instructionMem := s.instructionMem.hold true (s.imemReqPorts true)
  dataMem := s.dataMem.clock false (s.dmemReqPorts p true)

/-- A posedge of `clk` with `res_n` high. -/
def posedge : State xlen depth where
  core :=
    { pc := if s.core.imemReq then s.nextPc p else s.core.pc
      imemReq := Core.instReq s.core (s.coreIn p)
      csr := s.core.csr.posedge (s.csrIn p) }
  regMem := s.regMem
  instructionMem := s.instructionMem.clock true (s.imemReqPorts true)
  dataMem := s.dataMem.hold false (s.dmemReqPorts p true)

/-- A negedge of `clk` with `res_n` low: the reset registers stay at their reset values and
`res` blocks the memory write. -/
def negedgeInReset : State xlen depth :=
  { s.asyncReset with
    instructionMem := s.asyncReset.instructionMem.hold true (s.asyncReset.imemReqPorts false)
    dataMem := s.asyncReset.dataMem.clock false (s.asyncReset.dmemReqPorts p false) }

/-- A posedge of `clk` with `res_n` low; `irq_started` has no reset and is clocked. -/
def posedgeInReset : State xlen depth :=
  { s.asyncReset with
    core := { s.asyncReset.core with
      csr := s.asyncReset.core.csr.posedge (s.asyncReset.csrIn p) }
    instructionMem := s.asyncReset.instructionMem.clock true (s.asyncReset.imemReqPorts false)
    dataMem := s.asyncReset.dataMem.hold false (s.asyncReset.dmemReqPorts p false) }

/-- A clock period, from just after a posedge to just after the next one, the inputs
changing only right after a posedge. -/
def cycle : State xlen depth := (s.negedge p).posedge p

/-- The memory that holds `words` from address 0 on, as a hex image loads it: the first byte
of a word at its lowest address. -/
def image (words : List (BitVec 32)) : Memx depth :=
  fun i ↦ (words.getD (i.val / 4) 0).extractLsb' (24 - 8 * (i.val % 4)) 8

/-- The state in reset with a program loaded and both read latches clear. -/
def loaded (words : List (BitVec 32)) : State xlen depth where
  core := { pc := instBaseAddress, imemReq := false, csr := Csr.reset false }
  regMem := fun _ ↦ 0
  instructionMem := { memx := image words, regRd := 0 }
  dataMem := { memx := fun _ ↦ 0, regRd := 0 }

/-- A state with a program loaded that runs at `pc` with the given CSRs and registers. -/
def running (words : List (BitVec 32)) (pc : BitVec 32) (csr : Csr xlen) (regMem : RegFile xlen) :
    State xlen depth :=
  { (loaded words : State xlen depth) with
    core := { pc := pc, imemReq := true, csr := csr }
    regMem := regMem }

/-- CSRs in which interrupts are enabled: `mstatus.MIE` and all of `mie`. -/
def irqsEnabled (mtvec : BitVec xlen) : Csr xlen :=
  { Csr.reset false with mie := 0x888, mstatus := 0x8, mtvec := mtvec }

/-- The inputs with only the external interrupt line high, or none. -/
def irqLine (external : Bool) : Inputs xlen := ⟨0, external, false, false⟩

end State

end RtlCores.Riscv
