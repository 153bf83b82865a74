import RtlCores.Lib.Bytes

/-!
# The RISC-V base integer instructions

RV32I and RV64I without JALR, SYSTEM, FENCE and the 32-bit operations of RV64I, as the
unprivileged specification describes them: the table of encodings, and the effect of each
instruction on a hart.  Instructions are 32 bits long and four-byte aligned, so a jump or
taken branch to any other address raises an exception instead of being executed.
-/

namespace RtlCores.Lib.Isa

/-! ## Harts -/

/-- The state of a hart that the base instructions see. -/
structure Hart (xlen : Nat) where
  pc : BitVec xlen
  regs : BitVec 5 → BitVec xlen
  mem : BitVec xlen → BitVec 8

namespace Hart

variable {xlen : Nat} (h : Hart xlen)

/-- Register `x0` reads as 0. -/
def get (r : BitVec 5) : BitVec xlen := if r = 0 then 0 else h.regs r

/-- A write to `x0` does nothing. -/
def set (rd : BitVec 5) (v : BitVec xlen) : Hart xlen :=
  if rd = 0 then h else { h with regs := fun r ↦ if r = rd then v else h.regs r }

/-- The `n` bytes from address `a` on. -/
def load (n : Nat) (a : BitVec xlen) : BitVec (8 * n) :=
  leWord (fun k ↦ h.mem (a + BitVec.ofNat xlen k)) n

/-- The `n` low bytes of `v` written from address `a` on. -/
def store (n : Nat) (a v : BitVec xlen) : Hart xlen :=
  { h with mem := fun b ↦ if (b - a).toNat < n then byteAt v (b - a).toNat else h.mem b }

/-- What is read behind a write. -/
theorem get_set (rd r : BitVec 5) (v : BitVec xlen) :
    (h.set rd v).get r = if r = 0 then 0 else if r = rd then v else h.get r := by
  rw [get]
  split
  · rfl
  case isFalse hr =>
    rw [set]
    split
    case isTrue hrd => rw [if_neg (fun h ↦ hr (h.trans hrd)), get, if_neg hr]
    case isFalse hrd =>
      show (if r = rd then v else h.regs r) = _
      rw [get, if_neg hr]

@[simp] theorem set_mem (rd : BitVec 5) (v : BitVec xlen) : (h.set rd v).mem = h.mem := by
  rw [set]
  split <;> rfl

end Hart

/-! ## Operations -/

/-- Arithmetic on registers, or on a register and an immediate. -/
inductive ArithOp where
  | add | sub | sll | slt | sltu | xor | srl | sra | or | and
deriving DecidableEq, Repr

namespace ArithOp

def funct3 : ArithOp → BitVec 3
  | add | sub => 0b000
  | sll => 0b001
  | slt => 0b010
  | sltu => 0b011
  | xor => 0b100
  | srl | sra => 0b101
  | or => 0b110
  | and => 0b111

def funct7 : ArithOp → BitVec 7
  | sub | sra => 0b0100000
  | _ => 0b0000000

def isShift : ArithOp → Bool
  | sll | srl | sra => true
  | _ => false

/-- Shift amounts are the low `log₂ xlen` bits of the second operand. -/
def apply {xlen : Nat} (a b : BitVec xlen) : ArithOp → BitVec xlen
  | add => a + b
  | sub => a - b
  | sll => a <<< (b.toNat % xlen)
  | slt => if a.toInt < b.toInt then 1 else 0
  | sltu => if a.toNat < b.toNat then 1 else 0
  | xor => a ^^^ b
  | srl => a >>> (b.toNat % xlen)
  | sra => a.sshiftRight (b.toNat % xlen)
  | or => a ||| b
  | and => a &&& b

end ArithOp

/-- Conditions of branches. -/
inductive BranchOp where
  | beq | bne | blt | bge | bltu | bgeu
deriving DecidableEq, Repr

namespace BranchOp

def funct3 : BranchOp → BitVec 3
  | beq => 0b000
  | bne => 0b001
  | blt => 0b100
  | bge => 0b101
  | bltu => 0b110
  | bgeu => 0b111

def holds {xlen : Nat} (a b : BitVec xlen) : BranchOp → Bool
  | beq => a = b
  | bne => a ≠ b
  | blt => a.toInt < b.toInt
  | bge => b.toInt ≤ a.toInt
  | bltu => a.toNat < b.toNat
  | bgeu => b.toNat ≤ a.toNat

end BranchOp

/-- Loads; the name says how many bytes, and `u` that they are zero-extended. -/
inductive LoadOp where
  | lb | lh | lw | ld | lbu | lhu | lwu
deriving DecidableEq, Repr

namespace LoadOp

def funct3 : LoadOp → BitVec 3
  | lb => 0b000
  | lh => 0b001
  | lw => 0b010
  | ld => 0b011
  | lbu => 0b100
  | lhu => 0b101
  | lwu => 0b110

def bytes : LoadOp → Nat
  | lb | lbu => 1
  | lh | lhu => 2
  | lw | lwu => 4
  | ld => 8

/-- `ld` and `lwu` exist in RV64I only. -/
def needs64 : LoadOp → Bool
  | ld | lwu => true
  | _ => false

/-- How the loaded value fills a register. -/
def extend {n : Nat} (xlen : Nat) (v : BitVec n) : LoadOp → BitVec xlen
  | lbu | lhu | lwu => v.setWidth xlen
  | _ => v.signExtend xlen

end LoadOp

/-- Stores. -/
inductive StoreOp where
  | sb | sh | sw | sd
deriving DecidableEq, Repr

namespace StoreOp

def funct3 : StoreOp → BitVec 3
  | sb => 0b000
  | sh => 0b001
  | sw => 0b010
  | sd => 0b011

def bytes : StoreOp → Nat
  | sb => 1
  | sh => 2
  | sw => 4
  | sd => 8

/-- `sd` exists in RV64I only. -/
def needs64 : StoreOp → Bool
  | sd => true
  | _ => false

end StoreOp

/-! ## Instructions -/

/-- An instruction with its operands as the assembler has them. -/
inductive Instr where
  | lui (rd : BitVec 5) (imm : BitVec 20)
  | auipc (rd : BitVec 5) (imm : BitVec 20)
  | jal (rd : BitVec 5) (offset : BitVec 21)
  | branch (op : BranchOp) (rs1 rs2 : BitVec 5) (offset : BitVec 13)
  | load (op : LoadOp) (rd rs1 : BitVec 5) (offset : BitVec 12)
  | store (op : StoreOp) (rs1 rs2 : BitVec 5) (offset : BitVec 12)
  | opImm (op : ArithOp) (rd rs1 : BitVec 5) (imm : BitVec 12)
  | opReg (op : ArithOp) (rd rs1 rs2 : BitVec 5)
deriving DecidableEq, Repr

section Fields

variable (w : BitVec 32)

def opcode : BitVec 7 := w.extractLsb' 0 7
def rd : BitVec 5 := w.extractLsb' 7 5
def funct3 : BitVec 3 := w.extractLsb' 12 3
def rs1 : BitVec 5 := w.extractLsb' 15 5
def rs2 : BitVec 5 := w.extractLsb' 20 5
def funct7 : BitVec 7 := w.extractLsb' 25 7

def immI : BitVec 12 := w.extractLsb' 20 12
def immS : BitVec 12 := w.extractLsb' 25 7 ++ w.extractLsb' 7 5
def immU : BitVec 20 := w.extractLsb' 12 20

/-- `offset[12|10:5]` in bits 31 to 25, `offset[4:1|11]` in bits 11 to 7. -/
def immB : BitVec 13 :=
  w.extractLsb' 31 1 ++ w.extractLsb' 7 1 ++ w.extractLsb' 25 6 ++ w.extractLsb' 8 4 ++ 0#1

/-- `offset[20|10:1|11|19:12]` in bits 31 to 12. -/
def immJ : BitVec 21 :=
  w.extractLsb' 31 1 ++ w.extractLsb' 12 8 ++ w.extractLsb' 20 1 ++ w.extractLsb' 21 10 ++ 0#1

/-- What stands above the shift amount: `funct7`, whose lowest bit belongs to the amount in
RV64I. -/
def shiftHigh (xlen : Nat) : BitVec 7 :=
  if xlen = 32 then funct7 w else w.extractLsb' 26 6 ++ 0#1

end Fields

/-- The word `w` is a valid encoding of an instruction, for registers of width `xlen`. -/
inductive Encodes (xlen : Nat) (w : BitVec 32) : Instr → Prop
  | lui (hop : opcode w = 0b0110111) : Encodes xlen w (.lui (rd w) (immU w))
  | auipc (hop : opcode w = 0b0010111) : Encodes xlen w (.auipc (rd w) (immU w))
  | jal (hop : opcode w = 0b1101111) : Encodes xlen w (.jal (rd w) (immJ w))
  | branch (op : BranchOp) (hop : opcode w = 0b1100011) (hf3 : funct3 w = op.funct3) :
      Encodes xlen w (.branch op (rs1 w) (rs2 w) (immB w))
  | load (op : LoadOp) (hop : opcode w = 0b0000011) (hf3 : funct3 w = op.funct3)
      (hx : op.needs64 → xlen = 64) : Encodes xlen w (.load op (rd w) (rs1 w) (immI w))
  | store (op : StoreOp) (hop : opcode w = 0b0100011) (hf3 : funct3 w = op.funct3)
      (hx : op.needs64 → xlen = 64) : Encodes xlen w (.store op (rs1 w) (rs2 w) (immS w))
  | opImm (op : ArithOp) (hop : opcode w = 0b0010011) (hf3 : funct3 w = op.funct3)
      (hsub : op ≠ .sub) (hshift : op.isShift → shiftHigh w xlen = op.funct7) :
      Encodes xlen w (.opImm op (rd w) (rs1 w) (immI w))
  | opReg (op : ArithOp) (hop : opcode w = 0b0110011) (hf3 : funct3 w = op.funct3)
      (hf7 : funct7 w = op.funct7) : Encodes xlen w (.opReg op (rd w) (rs1 w) (rs2 w))

/-- The all-zero word is no instruction. -/
theorem Encodes.ne_zero {xlen : Nat} {w : BitVec 32} {i : Instr} (h : Encodes xlen w i) :
    w ≠ 0 := by
  rintro rfl
  cases h with
  | lui hop => exact absurd hop (by decide)
  | auipc hop => exact absurd hop (by decide)
  | jal hop => exact absurd hop (by decide)
  | branch _ hop => exact absurd hop (by decide)
  | load _ hop => exact absurd hop (by decide)
  | store _ hop => exact absurd hop (by decide)
  | opImm _ hop => exact absurd hop (by decide)
  | opReg _ hop => exact absurd hop (by decide)

namespace Instr

variable {xlen : Nat} (h : Hart xlen)

/-- Where a jump or a taken branch goes. -/
def target : Instr → Option (BitVec xlen)
  | .jal _ offset => some (h.pc + offset.signExtend xlen)
  | .branch op rs1 rs2 offset =>
    if op.holds (h.get rs1) (h.get rs2) then some (h.pc + offset.signExtend xlen) else none
  | _ => none

/-- The first address and the number of bytes of a data access. -/
def access : Instr → Option (BitVec xlen × Nat)
  | .load op _ rs1 offset => some (h.get rs1 + offset.signExtend xlen, op.bytes)
  | .store op rs1 _ offset => some (h.get rs1 + offset.signExtend xlen, op.bytes)
  | _ => none

/-- The effect on registers and memory. -/
def effect : Instr → Hart xlen
  | .lui rd imm => h.set rd ((imm ++ 0#12).signExtend xlen)
  | .auipc rd imm => h.set rd (h.pc + (imm ++ 0#12).signExtend xlen)
  | .jal rd _ => h.set rd (h.pc + 4)
  | .branch _ _ _ _ => h
  | .load op rd rs1 offset =>
    h.set rd (op.extend xlen (h.load op.bytes (h.get rs1 + offset.signExtend xlen)))
  | .store op rs1 rs2 offset =>
    h.store op.bytes (h.get rs1 + offset.signExtend xlen) (h.get rs2)
  | .opImm op rd rs1 imm => h.set rd (op.apply (h.get rs1) (imm.signExtend xlen))
  | .opReg op rd rs1 rs2 => h.set rd (op.apply (h.get rs1) (h.get rs2))

/-- The hart after the instruction, its target not checked. -/
def next (i : Instr) : Hart xlen :=
  { i.effect h with pc := (i.target h).getD (h.pc + 4) }

/-- What comes of an instruction: the hart after it, or an instruction-address-misaligned
exception for a target that is not a multiple of 4, which leaves registers and memory as they
were. -/
inductive Outcome (xlen : Nat) where
  | retired (h : Hart xlen)
  | misaligned (target : BitVec xlen)

/-- The execution of an instruction. -/
def exec (i : Instr) : Outcome xlen :=
  match i.target h with
  | some t => if t.toNat % 4 = 0 then .retired (i.next h) else .misaligned t
  | none => .retired (i.next h)

/-- Instructions executed in turn, wherever they stand. -/
def run (instrs : List Instr) : Hart xlen := instrs.foldl (fun h i ↦ i.next h) h

variable {h} {i : Instr}

/-- An instruction that is retired does what it does without the check. -/
theorem eq_next_of_retired {h' : Hart xlen} (he : i.exec h = .retired h') : h' = i.next h := by
  rw [exec] at he
  split at he
  · split at he
    · exact (Outcome.retired.inj he).symm
    · contradiction
  · exact (Outcome.retired.inj he).symm

theorem target_of_misaligned {t : BitVec xlen} (he : i.exec h = .misaligned t) :
    i.target h = some t ∧ t.toNat % 4 ≠ 0 := by
  rw [exec] at he
  split at he
  case h_1 u hu =>
    split at he
    · contradiction
    case isFalse hne =>
      obtain rfl := Outcome.misaligned.inj he
      exact ⟨hu, hne⟩
  case h_2 => contradiction

end Instr

end RtlCores.Lib.Isa
