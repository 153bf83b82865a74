import RtlCores.Lib.Bits
import RtlCores.Riscv.Pkg

/-!
# Control and status registers (`RISCV_SingleCycle/csr.sv`)

The registers, the trap request `irq_start`, the return `irq_stop`, and the negedge
writes.  A register's `always_ff` block is a function to `Option`: the value it loads at
this negedge, or `none` when it keeps its value.

The model is two-state, so `$isunknown` is never true.
-/

namespace RtlCores.Riscv

open RtlCores.Lib

variable {xlen : Nat}

/-- The registers of `csr`. -/
structure Csr (xlen : Nat) where
  mie : BitVec xlen
  mip : BitVec xlen
  mepc : BitVec xlen
  mtvec : BitVec xlen
  mscratch : BitVec xlen
  mstatus : BitVec xlen
  mtinst : BitVec xlen
  mcause : BitVec xlen
  irqStarted : Bool

/-- The input ports of `csr` other than clock, reset and `csr_din`. -/
structure CsrIn where
  yType : Bool
  cType : Bool
  rdOk : Bool
  rsOk : Bool
  imemReq : Bool
  irqIllegal : Bool
  irqSwPending : Bool
  irqExPending : Bool
  irqTimerPending : Bool
  sysImm : BitVec 12
  pc : BitVec 32
  instruction : BitVec 32

/-- Bit positions `MIE` and `MPIE` of `mstatus`. -/
def mieBit : Nat := 3

@[inherit_doc mieBit]
def mpieBit : Nat := 7

/-- `$isunknown` over two-state values. -/
def isunknown (_ : BitVec 32) : Bool := false

namespace CsrIn

variable (i : CsrIn)

/-- `irq_stop`: an xRET instruction. -/
def irqStop : Bool :=
  i.yType && (i.sysImm == SysImm.sret || i.sysImm == SysImm.mret || i.sysImm == SysImm.mnret)

def irqEcall : Bool := i.yType && i.sysImm == SysImm.ecall

def irqBreak : Bool := i.yType && i.sysImm == SysImm.ebreak

/-- The CSR addresses of the read multiplexer. -/
def knownCsr (addr : BitVec 12) : Bool :=
  addr == CsrAddr.mip || addr == CsrAddr.mie || addr == CsrAddr.mepc || addr == CsrAddr.mtvec ||
    addr == CsrAddr.mcause || addr == CsrAddr.mstatus || addr == CsrAddr.mscratch ||
    addr == CsrAddr.mtinst

/-- `illegal`: an unknown system command or CSR address. -/
def illegal : Bool :=
  if i.yType then
    !(i.sysImm == SysImm.ecall || i.sysImm == SysImm.ebreak || i.irqStop ||
      i.sysImm == SysImm.wfi)
  else i.cType && !knownCsr i.sysImm

def irqIllegalAck : Bool := i.imemReq && (i.irqIllegal || i.illegal)

/-- `irq_align`, for `ILEN = 32`. -/
def irqAlign : Bool := i.imemReq && i.pc[0] && i.pc[1]

def irqFault : Bool := i.imemReq && isunknown i.instruction

/-- The synchronous exceptions among the causes of `irq_en`. -/
def exception : Bool :=
  i.irqAlign || i.irqIllegalAck || i.irqFault || i.irqBreak || i.irqEcall

/-- `wr_en`: if `rs1` is 0 then dont write -/
def wrEn : Bool := i.cType && i.rsOk

end CsrIn

namespace Csr

variable (r : Csr xlen) (i : CsrIn)

/-- Values of the registers during reset; `irq_started` is not reset. -/
def reset (irqStarted : Bool) : Csr xlen where
  mie := 0
  mip := 0
  mepc := 0
  mtvec := trapBaseAddress.setWidth xlen
  mscratch := 0
  mstatus := 0
  mtinst := 0
  mcause := 0
  irqStarted := irqStarted

/-- `csr_val`: the read multiplexer. -/
def csrVal : BitVec xlen :=
  if i.yType then if i.irqStop then r.mepc else r.mstatus
  else if i.cType then
    if i.sysImm = CsrAddr.mip then r.mip
    else if i.sysImm = CsrAddr.mie then r.mie
    else if i.sysImm = CsrAddr.mepc then r.mepc
    else if i.sysImm = CsrAddr.mtvec then r.mtvec
    else if i.sysImm = CsrAddr.mcause then r.mcause
    else if i.sysImm = CsrAddr.mstatus then r.mstatus
    else if i.sysImm = CsrAddr.mscratch then r.mscratch
    else if i.sysImm = CsrAddr.mtinst then r.mtinst
    else r.mstatus
  else r.mstatus

def irqMmodeEn : Bool :=
  !i.irqStop && (r.mstatus.getLsbD mieBit || r.mstatus.getLsbD mpieBit)

def irqExternal : Bool := r.irqMmodeEn i && r.mie.getLsbD 11 && i.irqExPending

def irqSoftware : Bool := r.irqMmodeEn i && r.mie.getLsbD 3 && i.irqSwPending

def irqTimer : Bool := r.irqMmodeEn i && r.mie.getLsbD 7 && i.irqTimerPending

/-- The enabled interrupts among the causes of `irq_en`. -/
def interrupt : Bool := r.irqExternal i || r.irqSoftware i || r.irqTimer i

def irqEn : Bool := r.interrupt i || i.exception

/-- `irq_start`: set just for one tick -/
def irqStart : Bool := r.irqEn i && !r.irqStarted

/-- `csr_out` -/
def csrOut : BitVec xlen := if r.irqStart i then r.mtvec else r.csrVal i

/-- `mcause_data`, before it is widened to `XLEN`. -/
def mcauseCode : BitVec 32 :=
  if r.irqExternal i then 1#1 ++ 0#27 ++ 0b1011#4
  else if r.irqSoftware i then 1#1 ++ 0#27 ++ 0b0011#4
  else if r.irqTimer i then 1#1 ++ 0#27 ++ 0b0111#4
  else if i.irqFault then 0#28 ++ 0b0001#4
  else if i.irqIllegalAck then 0#28 ++ 0b0010#4
  else if i.irqAlign then 0#28 ++ 0b0000#4
  else if i.irqEcall then 0#28 ++ 0b1011#4
  else if i.irqBreak then 0#28 ++ 0b0011#4
  else 0

def mcauseData : BitVec xlen := (r.mcauseCode i).setWidth xlen

/-- `offset`: four times the cause of an interrupt in vectored mode. -/
def offset : BitVec xlen :=
  if (r.mcauseData i).getLsbD 31 && r.mtvec.getLsbD 0 then
    ((r.mcauseData i).extractLsb' 0 30 ++ 0#2).setWidth xlen
  else 0

/-! ## Negedge loads -/

variable (csrDin : BitVec xlen)

/-- `csr_din` with one bit replaced. -/
def withBit (v : BitVec xlen) (k : Nat) (b : Bool) : BitVec xlen := splice v k (BitVec.ofBool b)

def mipLoad : Option (BitVec xlen) :=
  if r.irqStart i && r.irqExternal i then some (withBit csrDin 11 true)
  else if r.irqStart i && r.irqSoftware i then some (withBit csrDin 3 true)
  else if i.irqStop && r.irqExternal i then some (withBit csrDin 11 false)
  else if i.irqStop && r.irqSoftware i then some (withBit csrDin 3 false)
  else if i.wrEn && i.sysImm == CsrAddr.mip then
    some (withBit (withBit csrDin 11 (r.mip.getLsbD 11)) 7 (r.mip.getLsbD 7))
  else none

def mstatusLoad : Option (BitVec xlen) :=
  if r.irqStart i then
    some (withBit (withBit r.mstatus mpieBit (r.mstatus.getLsbD mieBit)) mieBit false)
  else if i.irqStop then
    some (withBit (withBit r.mstatus mieBit (r.mstatus.getLsbD mpieBit)) mpieBit false)
  else if i.wrEn && i.sysImm == CsrAddr.mstatus then some csrDin
  else none

def mepcLoad : Option (BitVec xlen) :=
  if r.irqStart i then some (i.pc.setWidth xlen)
  else if i.wrEn && i.sysImm == CsrAddr.mepc then some csrDin
  else none

def mtinstLoad : Option (BitVec xlen) :=
  if r.irqStart i then some (i.instruction.setWidth xlen)
  else if i.wrEn && i.sysImm == CsrAddr.mtinst then some csrDin
  else none

def mcauseLoad : Option (BitVec xlen) :=
  if r.irqStart i then some (r.mcauseData i)
  else if i.wrEn && i.sysImm == CsrAddr.mcause then some csrDin
  else none

/-- `mie`, `mtvec` and `mscratch` are written by CSR instructions only, whether or not a
trap starts. -/
def plainLoad (i : CsrIn) (csrDin : BitVec xlen) (addr : BitVec 12) : Option (BitVec xlen) :=
  if i.wrEn && i.sysImm == addr then some csrDin else none

def mieLoad : Option (BitVec xlen) := plainLoad i csrDin CsrAddr.mie

def mtvecLoad : Option (BitVec xlen) := plainLoad i csrDin CsrAddr.mtvec

def mscratchLoad : Option (BitVec xlen) := plainLoad i csrDin CsrAddr.mscratch

/-- The registers after a negedge outside reset. -/
def negedge : Csr xlen where
  mie := (mieLoad i csrDin).getD r.mie
  mip := (r.mipLoad i csrDin).getD r.mip
  mepc := (r.mepcLoad i csrDin).getD r.mepc
  mtvec := (mtvecLoad i csrDin).getD r.mtvec
  mscratch := (mscratchLoad i csrDin).getD r.mscratch
  mstatus := (r.mstatusLoad i csrDin).getD r.mstatus
  mtinst := (r.mtinstLoad i csrDin).getD r.mtinst
  mcause := (r.mcauseLoad i csrDin).getD r.mcause
  irqStarted := r.irqStarted

/-- The registers after a posedge: only `irq_started` is clocked there. -/
def posedge : Csr xlen := { r with irqStarted := i.imemReq && r.irqEn i }

theorem irqExternal_of_irqStop (h : i.irqStop = true) : r.irqExternal i = false := by
  simp [irqExternal, irqMmodeEn, h]

theorem irqSoftware_of_irqStop (h : i.irqStop = true) : r.irqSoftware i = false := by
  simp [irqSoftware, irqMmodeEn, h]

/-- The negedge without a trap: a return or a CSR write. -/
def quietNegedge (i : CsrIn) (csrDin : BitVec xlen) : Csr xlen :=
  { r with
    mie := (plainLoad i csrDin CsrAddr.mie).getD r.mie
    mip := (plainLoad i (withBit (withBit csrDin 11 (r.mip.getLsbD 11)) 7 (r.mip.getLsbD 7))
      CsrAddr.mip).getD r.mip
    mepc := (plainLoad i csrDin CsrAddr.mepc).getD r.mepc
    mtvec := (plainLoad i csrDin CsrAddr.mtvec).getD r.mtvec
    mscratch := (plainLoad i csrDin CsrAddr.mscratch).getD r.mscratch
    mstatus :=
      if i.irqStop then
        withBit (withBit r.mstatus mieBit (r.mstatus.getLsbD mpieBit)) mpieBit false
      else (plainLoad i csrDin CsrAddr.mstatus).getD r.mstatus
    mtinst := (plainLoad i csrDin CsrAddr.mtinst).getD r.mtinst
    mcause := (plainLoad i csrDin CsrAddr.mcause).getD r.mcause }

/-- Without a trap the interrupt lines have no part in the negedge: the clearing of `mip` bits
by an xRET is never reached, since `irq_stop` masks the requests. -/
theorem negedge_of_not_irqStart (hstart : r.irqStart i = false) :
    r.negedge i csrDin = r.quietNegedge i csrDin := by
  have hmip : r.mipLoad i csrDin =
      plainLoad i (withBit (withBit csrDin 11 (r.mip.getLsbD 11)) 7 (r.mip.getLsbD 7))
        CsrAddr.mip := by
    cases hstop : i.irqStop with
    | true =>
      simp [mipLoad, plainLoad, hstart, r.irqExternal_of_irqStop i hstop,
        r.irqSoftware_of_irqStop i hstop]
    | false => simp [mipLoad, plainLoad, hstart, hstop]
  have hmstatus : (r.mstatusLoad i csrDin).getD r.mstatus = (r.quietNegedge i csrDin).mstatus := by
    cases hstop : i.irqStop with
    | true => simp [mstatusLoad, quietNegedge, hstart, hstop]
    | false => simp [mstatusLoad, plainLoad, quietNegedge, hstart, hstop]
  rw [negedge, hmip, hmstatus, mepcLoad, mtinstLoad, mcauseLoad, hstart]
  rfl

/-- Without a trap, a return or a CSR write the negedge changes nothing. -/
theorem negedge_of_idle (hstart : r.irqStart i = false) (hstop : i.irqStop = false)
    (hwr : i.wrEn = false) : r.negedge i csrDin = r := by
  simp [negedge, mieLoad, mipLoad, mepcLoad, mtvecLoad, mscratchLoad, mstatusLoad, mtinstLoad,
    mcauseLoad, plainLoad, hstart, hstop, hwr]

/-! ## Requests -/

theorem getLsbD_withBit (v : BitVec xlen) {k : Nat} (hk : k < xlen) (b : Bool) (j : Nat) :
    (withBit v k b).getLsbD j = if j = k then b else v.getLsbD j := by
  rw [withBit, getLsbD_splice]
  by_cases hj : j = k
  · subst hj
    simp [hk]
  · have hne : ¬(k ≤ j ∧ j < k + 1) := by omega
    rw [if_neg hj, if_neg hne]
    by_cases hjx : j < xlen
    · simp [hjx]
    · simp [hjx, BitVec.getLsbD_of_ge v j (by omega)]

/-- Two writes to different bits, read at the one written last and at the other. -/
theorem getLsbD_withBit_withBit (v : BitVec xlen) {j k : Nat} (hj : j < xlen) (hk : k < xlen)
    (hjk : j ≠ k) (b c : Bool) :
    (withBit (withBit v j b) k c).getLsbD j = b ∧ (withBit (withBit v j b) k c).getLsbD k = c := by
  constructor
  · rw [getLsbD_withBit _ hk, if_neg hjk, getLsbD_withBit _ hj, if_pos rfl]
  · rw [getLsbD_withBit _ hk, if_pos rfl]

/-- `mstatus` after trap entry. -/
theorem getLsbD_entry (hx : 32 ≤ xlen) (v : BitVec xlen) (b c : Bool) :
    (withBit (withBit v mpieBit b) mieBit c).getLsbD mpieBit = b ∧
      (withBit (withBit v mpieBit b) mieBit c).getLsbD mieBit = c :=
  getLsbD_withBit_withBit v (show 7 < xlen by omega) (show 3 < xlen by omega) (by decide) b c

/-- `mstatus` after an xRET. -/
theorem getLsbD_return (hx : 32 ≤ xlen) (v : BitVec xlen) (b c : Bool) :
    (withBit (withBit v mieBit b) mpieBit c).getLsbD mieBit = b ∧
      (withBit (withBit v mieBit b) mpieBit c).getLsbD mpieBit = c :=
  getLsbD_withBit_withBit v (show 3 < xlen by omega) (show 7 < xlen by omega) (by decide) b c

/-- An interrupt line that `mie` enables is high. -/
def lineHigh (mie : BitVec xlen) (i : CsrIn) : Bool :=
  mie.getLsbD 11 && i.irqExPending || mie.getLsbD 3 && i.irqSwPending ||
    mie.getLsbD 7 && i.irqTimerPending

theorem interrupt_eq : r.interrupt i = (r.irqMmodeEn i && lineHigh r.mie i) := by
  rw [interrupt, irqExternal, irqSoftware, irqTimer, lineHigh]
  cases r.irqMmodeEn i <;> simp

/-- What the CSR instruction in flight leaves in the register at `addr` that held `old`. -/
def written (i : CsrIn) (csrDin : BitVec xlen) (addr : BitVec 12) (old : BitVec xlen) :
    BitVec xlen :=
  (plainLoad i csrDin addr).getD old

/-- Entering a trap moves `MIE` to `MPIE` and clears it. -/
theorem negedge_mstatus_of_irqStart (h : r.irqStart i = true) :
    (r.negedge i csrDin).mstatus =
      withBit (withBit r.mstatus mpieBit (r.mstatus.getLsbD mieBit)) mieBit false := by
  show (r.mstatusLoad i csrDin).getD r.mstatus = _
  rw [mstatusLoad, if_pos h, Option.getD_some]

theorem negedge_mstatus_of_idle (h : r.irqStart i = false) (hstop : i.irqStop = false) :
    (r.negedge i csrDin).mstatus = written i csrDin CsrAddr.mstatus r.mstatus := by
  show (r.mstatusLoad i csrDin).getD r.mstatus = _
  rw [mstatusLoad, h, hstop]
  rfl

/-- Just after trap entry interrupts are let through exactly if `MIE` was set before it: the
bit is now in `MPIE`. -/
theorem irqMmodeEn_negedge_of_irqStart (hx : 32 ≤ xlen) (h : r.irqStart i = true) :
    (r.negedge i csrDin).irqMmodeEn i = (!i.irqStop && r.mstatus.getLsbD mieBit) := by
  obtain ⟨hmpie, hmie⟩ := getLsbD_entry hx r.mstatus (r.mstatus.getLsbD mieBit) false
  rw [irqMmodeEn, negedge_mstatus_of_irqStart _ _ _ h, hmie, hmpie, Bool.false_or]

theorem irqMmodeEn_of_irqStop (h : i.irqStop = true) : r.irqMmodeEn i = false := by
  rw [irqMmodeEn, h]
  rfl

theorem interrupt_of_irqStop (h : i.irqStop = true) : r.interrupt i = false := by
  rw [interrupt_eq, irqMmodeEn_of_irqStop r i h, Bool.false_and]

theorem irqStart_eq (r : Csr xlen) (i : CsrIn) :
    r.irqStart i = ((r.interrupt i || i.exception) && !r.irqStarted) := rfl

/-- The line that causes an interrupt, and so the cause code, is the same for two CSR states
that enable the same lines and let interrupts through alike. -/
theorem mcauseCode_congr {r r' : Csr xlen} {i : CsrIn} (hmie : r.mie = r'.mie)
    (hen : r.irqMmodeEn i = r'.irqMmodeEn i) : r.mcauseCode i = r'.mcauseCode i := by
  have hex : r.irqExternal i = r'.irqExternal i := by rw [irqExternal, irqExternal, hmie, hen]
  have hsw : r.irqSoftware i = r'.irqSoftware i := by rw [irqSoftware, irqSoftware, hmie, hen]
  have htm : r.irqTimer i = r'.irqTimer i := by rw [irqTimer, irqTimer, hmie, hen]
  rw [mcauseCode, mcauseCode, hex, hsw, htm]

end Csr

end RtlCores.Riscv
