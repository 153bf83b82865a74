import RtlCores.Riscv.Alu
import RtlCores.Riscv.Control
import RtlCores.Riscv.Csr
import RtlCores.Riscv.Datapath

/-!
# The core (`RISCV_SingleCycle/riscv_core.sv`)

The wires of `riscv_core` as functions of its registers and input ports.
-/

namespace RtlCores.Riscv

open RtlCores.Lib RtlCores.Modules

variable {xlen : Nat}

/-- The registers of `riscv_core`. -/
structure CoreRegs (xlen : Nat) where
  pc : BitVec 32
  imemReq : Bool
  csr : Csr xlen

/-- The input ports of `riscv_core` other than clock, reset and `dmem_rd_data`. -/
structure CoreIn (xlen : Nat) where
  instruction : BitVec 32
  rs1Data : BitVec xlen
  rs2Data : BitVec xlen
  irqSwPending : Bool
  irqExPending : Bool
  irqTimerPending : Bool

namespace Core

variable (r : CoreRegs xlen) (i : CoreIn xlen)

def dec : Decoded := decode i.instruction

def ctl : Control := control xlen (dec i)

def nonZeroCmd : Bool := i.instruction != 0

/-- The ports of `csr_block`. -/
def csrIn : CsrIn where
  yType := (dec i).yType
  cType := (dec i).cType
  rdOk := (dec i).rdOk
  rsOk := (dec i).rs1Ok
  imemReq := r.imemReq
  irqIllegal := (dec i).illegal && nonZeroCmd i
  irqSwPending := i.irqSwPending
  irqExPending := i.irqExPending
  irqTimerPending := i.irqTimerPending
  sysImm := (dec i).immediate.extractLsb' 0 12
  pc := r.pc
  instruction := i.instruction

def irqStart : Bool := r.csr.irqStart (csrIn r i)

def irqStop : Bool := (csrIn r i).irqStop

def csrDataOut : BitVec xlen := r.csr.csrOut (csrIn r i)

def mtvecOffset : BitVec xlen := r.csr.offset (csrIn r i)

/-- The operand `rs1` of a CSR instruction, complemented to clear bits. -/
def csrSource : BitVec xlen :=
  let d := dec i
  if d.funct3 = CsrFunct3.csrrw then i.rs1Data
  else if d.funct3 = CsrFunct3.csrrs then i.rs1Data
  else if d.funct3 = CsrFunct3.csrrc then ~~~i.rs1Data
  else if d.funct3 = CsrFunct3.csrrwi then d.rs1Addr.setWidth xlen
  else if d.funct3 = CsrFunct3.csrrsi then d.rs1Addr.setWidth xlen
  else ~~~(d.rs1Addr.setWidth xlen)

/-- ALU_A select mux: 0- rs1_data, 1- pc -/
def aluA : BitVec xlen :=
  if irqStop r i then csrDataOut r i
  else if irqStart r i then splice (csrDataOut r i) 0 0#2
  else if (dec i).cType then csrSource i
  else if (ctl i).aluaSel then r.pc.setWidth xlen
  else i.rs1Data

/-- ALU_B select mux: 0- rs2_data, 1- imm -/
def aluB : BitVec xlen :=
  if irqStop r i then 4
  else if irqStart r i then mtvecOffset r i
  else if (dec i).cType && (dec i).funct3[1] then csrDataOut r i
  else if (dec i).cType && !(dec i).funct3[1] then 0
  else if (ctl i).alubSel then (dec i).immediate.signExtend xlen
  else i.rs2Data

def aluRes : BitVec xlen := alu (ctl i).aluOp (aluA r i) (aluB r i)

/-- OP-32: result is truncated to 32 bits and sign extended -/
def aluResSigned : BitVec xlen :=
  if 32 < xlen then
    if (dec i).isOp32 then ((aluRes r i).extractLsb' 0 32).signExtend xlen else aluRes r i
  else aluRes r i

def dmemAddr : BitVec 32 := (aluRes r i).setWidth 32

def dmemWrData : BitVec xlen := dataHandler (ctl i).dmemSize i.rs2Data

def rfWrEn : Bool := (ctl i).rfWrEn && (dec i).rdOk && !irqStart r i

/-- The second operand of `pc_adder`: 100 or 010 or 000 -/
def pcAluB : BitVec 32 :=
  0#29 ++ BitVec.ofBool (r.imemReq && (dec i).is32bit) ++
    BitVec.ofBool (r.imemReq && !(dec i).is32bit) ++ 0#1

def nextPcDefault : BitVec 32 := (adder false r.pc (pcAluB r i)).sum

/-- `rf_wr_data`, from the data `dmem_rd_data` read in this half cycle. -/
def rfWrData (dmemRdData : BitVec xlen) : BitVec xlen :=
  if !(dec i).cType then
    match (ctl i).rfWrDataSel with
    | .alu => aluResSigned r i
    | .mem => signExtender (ctl i).dmemSize (ctl i).dmemZeroEx dmemRdData
    | .imm => (dec i).immediate.signExtend xlen
    | .pc => (nextPcDefault r i).setWidth xlen
  else csrDataOut r i

def branchTaken : Bool := branchControl (dec i).bType (dec i).funct3 i.rs1Data i.rs2Data

def pcJump : Bool := branchTaken i || (ctl i).pcSel || irqStart r i || irqStop r i

/-- `{v[31:1], 1'b0}` -/
def evenPc (v : BitVec xlen) : BitVec 32 := v.extractLsb' 1 31 ++ 0#1

def nextPc : BitVec 32 := if pcJump r i then evenPc (aluRes r i) else nextPcDefault r i

/-- halt on cmd zero, but allow cmd zero to be the first one -/
def instReq : Bool := r.pc == instBaseAddress || nonZeroCmd i

/-- Only a word whose result is selected from memory looks at the data read. -/
theorem rfWrData_of_ne_mem (h : (ctl i).rfWrDataSel ≠ .mem) (x y : BitVec xlen) :
    rfWrData r i x = rfWrData r i y := by
  rw [rfWrData, rfWrData]
  cases hsel : (ctl i).rfWrDataSel with
  | mem => exact absurd hsel h
  | alu => rfl
  | imm => rfl
  | pc => rfl

end Core

end RtlCores.Riscv
