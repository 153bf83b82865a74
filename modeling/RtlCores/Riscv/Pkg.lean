import RtlCores.Lib.Bits

/-!
# Constants of the core (`RISCV_SingleCycle/risc_pkg.sv`)

Enumerations that the hardware compares with instruction fields keep their encodings and
are bit vectors; the two that only select an internal multiplexer are inductive types.
-/

namespace RtlCores.Riscv

/-- `INST_BASE_ADDRESS` -/
def instBaseAddress : BitVec 32 := 0

/-- `DMEM_BASE_ADDRESS` -/
def dmemBaseAddress : BitVec 32 := 0

/-- `DMEM_DEPTH`, in bytes. -/
def dmemDepth : Nat := 512

/-- `TRAP_BASE_ADDRESS` -/
def trapBaseAddress : BitVec 32 := 0x3DC

/-- `INST_MEM_DEPTH`, in bytes: the Verilator build has the larger memory. -/
def instMemDepth (verilator : Bool) : Nat := if verilator then 2 ^ 12 else 2 ^ 10

/-- `op_enum_wr_data_sel`: the source of the register-file write data. -/
inductive WrDataSel where
  | alu | mem | imm | pc
deriving DecidableEq, Repr

/-- `op_enum_alu`: the internal ALU operations. -/
inductive AluOp where
  | add | sub | sll | srl | sra | xor | and | or | slt | sltu
deriving DecidableEq, Repr

/-! ## `op_enum_base_opcodes` -/

namespace Opcode

def sType : BitVec 7 := 0b0100011
def bType : BitVec 7 := 0b1100011
def uTypeLui : BitVec 7 := 0b0110111
def uTypeAuipc : BitVec 7 := 0b0010111
def uTypeJal : BitVec 7 := 0b1101111
def rType : BitVec 7 := 0b0110011
def rtype32 : BitVec 7 := 0b0111011
def iTypeAlu : BitVec 7 := 0b0010011
def itypeImm32 : BitVec 7 := 0b0011011
def iTypeLoad : BitVec 7 := 0b0000011
def iTypeJalr : BitVec 7 := 0b1100111
def iTypeFl : BitVec 7 := 0b0000111
def system : BitVec 7 := 0b1110011

end Opcode

/-! ## `op_enum_dmem_size`: block sizes, as `funct3` -/

namespace DmemSize

def byte : BitVec 3 := 0b000
def half : BitVec 3 := 0b001
def word : BitVec 3 := 0b010
def dubl : BitVec 3 := 0b011
def lbu : BitVec 3 := 0b100
def lhu : BitVec 3 := 0b101
def lwu : BitVec 3 := 0b110
def trpl : BitVec 3 := 0b111

end DmemSize

/-! ## `op_enum_b_type_funct3` -/

namespace BTypeFunct3

def beq : BitVec 3 := 0
def bne : BitVec 3 := 1
def blt : BitVec 3 := 4
def bge : BitVec 3 := 5
def bltu : BitVec 3 := 6
def bgeu : BitVec 3 := 7

end BTypeFunct3

/-! ## `op_enum_funct3`: arithmetic -/

namespace Funct3

def add : BitVec 3 := 0
def sll : BitVec 3 := 1
def slt : BitVec 3 := 2
def sltu : BitVec 3 := 3
def xor : BitVec 3 := 4
def srl : BitVec 3 := 5
def or : BitVec 3 := 6
def and : BitVec 3 := 7

end Funct3

/-! ## `op_csr_funct3` -/

namespace CsrFunct3

def csrrw : BitVec 3 := 0b001
def csrrs : BitVec 3 := 0b010
def csrrc : BitVec 3 := 0b011
def csrrwi : BitVec 3 := 0b101
def csrrsi : BitVec 3 := 0b110
def csrrci : BitVec 3 := 0b111

end CsrFunct3

/-! ## `op_enum_system_imm` -/

namespace SysImm

def ecall : BitVec 12 := 0x000
def ebreak : BitVec 12 := 0x001
def wfi : BitVec 12 := 0x105
def sret : BitVec 12 := 0x102
def mret : BitVec 12 := 0x302
def mnret : BitVec 12 := 0x702

end SysImm

/-! ## `op_enum_csr_addr` -/

namespace CsrAddr

def mie : BitVec 12 := 0x304
def mip : BitVec 12 := 0x344
def mtvec : BitVec 12 := 0x305
def mscratch : BitVec 12 := 0x340
def mepc : BitVec 12 := 0x341
def mcause : BitVec 12 := 0x342
def mtinst : BitVec 12 := 0x34A
def mstatus : BitVec 12 := 0x300

end CsrAddr

end RtlCores.Riscv
