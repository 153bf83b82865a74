import RtlCores.Lib.Isa

/-!
# CSR instructions

The Zicsr extension: an instruction reads a control and status register and replaces it,
sets bits in it or clears bits in it.
-/

namespace RtlCores.Lib.Isa

/-- What a CSR instruction does to the register. -/
inductive CsrOp where
  | csrrw | csrrs | csrrc
deriving DecidableEq, Repr

/-- A CSR instruction; with `imm` the field `source` is an immediate, otherwise it names a
register. -/
structure CsrInstr where
  op : CsrOp
  imm : Bool
  csr : BitVec 12
  rd : BitVec 5
  source : BitVec 5
deriving DecidableEq, Repr

namespace CsrOp

def funct3 (imm : Bool) : CsrOp → BitVec 3
  | csrrw => if imm then 0b101 else 0b001
  | csrrs => if imm then 0b110 else 0b010
  | csrrc => if imm then 0b111 else 0b011

variable {xlen : Nat}

/-- The new value of the register. -/
def value (old source : BitVec xlen) : CsrOp → BitVec xlen
  | csrrw => source
  | csrrs => old ||| source
  | csrrc => old &&& ~~~source

/-- Whether the register is written: a replacement always is, bits are set or cleared only if
the source field is not 0. -/
def writes (source : BitVec 5) : CsrOp → Bool
  | csrrw => true
  | csrrs | csrrc => source != 0

end CsrOp

/-- The source operand. -/
def CsrInstr.operand {xlen : Nat} (i : CsrInstr) (regs : BitVec 5 → BitVec xlen) : BitVec xlen :=
  if i.imm then i.source.setWidth xlen else regs i.source

/-- `w` encodes the CSR instruction `i`. -/
structure EncodesCsr (w : BitVec 32) (i : CsrInstr) : Prop where
  opcode : opcode w = 0b1110011
  funct3 : funct3 w = i.op.funct3 i.imm
  csr : immI w = i.csr
  rd : rd w = i.rd
  source : rs1 w = i.source

end RtlCores.Lib.Isa
