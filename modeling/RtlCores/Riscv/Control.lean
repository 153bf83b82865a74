import RtlCores.Riscv.Decode

/-!
# Control unit (`RISCV_SingleCycle/control.sv`)
-/

namespace RtlCores.Riscv

/-- Outputs of `control`. -/
structure Control where
  pcSel : Bool
  aluaSel : Bool
  alubSel : Bool
  rfWrEn : Bool
  dmemReq : Bool
  dmemWr : Bool
  dmemZeroEx : Bool
  dmemSize : BitVec 3
  rfWrDataSel : WrDataSel
  aluOp : AluOp
deriving DecidableEq, Repr

namespace Control

/-- `word_len`, cast to `op_enum_dmem_size`. -/
def wordLen (xlen : Nat) : BitVec 3 := BitVec.ofNat 3 (Nat.clog 2 xlen - 3)

variable (d : Decoded)

/-- `l_type`: a load, neither arithmetic nor JALR. -/
def lType : Bool := d.iType && !d.opcode[4] && !d.opcode[5]

def rfWrDataSelOf (opcode : BitVec 7) : WrDataSel :=
  if opcode = Opcode.uTypeLui then .imm
  else if opcode = Opcode.uTypeJal then .pc
  else if opcode = Opcode.iTypeJalr then .pc
  else if opcode = Opcode.iTypeLoad then .mem
  else if opcode = Opcode.iTypeFl then .mem
  else .alu

def aluaSelOf (opcode : BitVec 7) : Bool :=
  opcode == Opcode.bType || opcode == Opcode.uTypeJal || opcode == Opcode.uTypeAuipc

def pcSelOf (opcode : BitVec 7) : Bool :=
  opcode == Opcode.uTypeJal || opcode == Opcode.iTypeJalr

def dmemSizeOf (xlen : Nat) : BitVec 3 :=
  if d.sType || lType d then
    if d.funct3 = DmemSize.byte ∨ d.funct3 = DmemSize.lbu then DmemSize.byte
    else if d.funct3 = DmemSize.half ∨ d.funct3 = DmemSize.lhu then DmemSize.half
    else if d.funct3 = DmemSize.word ∨ d.funct3 = DmemSize.lwu then DmemSize.word
    else if d.funct3 = DmemSize.dubl then DmemSize.dubl
    else if d.funct3 = DmemSize.trpl then DmemSize.trpl
    else wordLen xlen
  else wordLen xlen

/-- The operation that `funct3` selects, `zero` standing for `funct3 = 0` and `sri` for a
right shift. -/
def arithOp (funct3 : BitVec 3) (zero sri : AluOp) : AluOp :=
  if funct3 = Funct3.slt then .slt
  else if funct3 = Funct3.sltu then .sltu
  else if funct3 = Funct3.xor then .xor
  else if funct3 = Funct3.or then .or
  else if funct3 = Funct3.and then .and
  else if funct3 = Funct3.sll then .sll
  else if funct3 = Funct3.srl then sri
  else zero

/-- The ALU operation a CSR instruction borrows. -/
def csrOp (funct3 : BitVec 3) : AluOp :=
  if funct3 = CsrFunct3.csrrs ∨ funct3 = CsrFunct3.csrrsi then .or
  else if funct3 = CsrFunct3.csrrc ∨ funct3 = CsrFunct3.csrrci then .and
  else .add

def aluOpOf : AluOp :=
  let bit30 := d.funct7[5]
  let opSri := if bit30 then AluOp.sra else .srl
  let opAdd := if bit30 then AluOp.sub else .add
  if d.cType then csrOp d.funct3
  else if d.iType && d.opcode[4] then arithOp d.funct3 .add opSri
  else if d.rType then arithOp d.funct3 opAdd opSri
  else .add

end Control

open Control

/-- `control`, driven by the outputs of `decode`. -/
def control (xlen : Nat) (d : Decoded) : Control where
  pcSel := pcSelOf d.opcode
  aluaSel := aluaSelOf d.opcode
  alubSel := !d.rType
  rfWrEn := !d.sType && !d.bType
  dmemReq := d.sType || lType d
  dmemWr := d.sType
  dmemZeroEx := lType d && d.funct3[2]
  dmemSize := dmemSizeOf d xlen
  rfWrDataSel := rfWrDataSelOf d.opcode
  aluOp := aluOpOf d

/-- A system command leaves the ALU adding. -/
theorem control_aluOp_of_yType {xlen : Nat} {w : BitVec 32} (h : (decode w).yType = true) :
    (control xlen (decode w)).aluOp = .add := by
  obtain ⟨hop, hf3, hi, hc⟩ := decode_yType h
  have h4 : (decode w).opcode[4] = true := by rw [hop]; rfl
  show aluOpOf (decode w) = .add
  rw [aluOpOf, hc, hi, h4, hf3]
  rfl

/-- A store is the only instruction that drives the write line of the data bus. -/
theorem control_dmemWr (xlen : Nat) (w : BitVec 32) :
    (control xlen (decode w)).dmemWr = ((decode w).opcode == Opcode.sType) :=
  decode_sType w

theorem rfWrDataSelOf_eq_mem {opcode : BitVec 7} (h : rfWrDataSelOf opcode = .mem) :
    opcode = Opcode.iTypeLoad ∨ opcode = Opcode.iTypeFl := by
  revert opcode
  decide

/-- A load requests the data memory. -/
theorem control_dmemReq_of_load {xlen : Nat} {w : BitVec 32}
    (h : (decode w).opcode = Opcode.iTypeLoad) : (control xlen (decode w)).dmemReq = true := by
  have ht : (decode w).toInstrType = { iType := true } := by
    rw [decode_toInstrType, h]
    rfl
  show ((decode w).sType || lType (decode w)) = true
  rw [lType, show (decode w).iType = true from congrArg InstrType.iType ht, h, Bool.or_eq_true]
  exact .inr rfl

end RtlCores.Riscv
