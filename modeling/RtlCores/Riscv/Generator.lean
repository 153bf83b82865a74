import RtlCores.Lib.Widened
import RtlCores.Riscv.Sequences

/-!
# The reference model of the R-type test (`RISCV_SingleCycle/testbench/generator.cpp`)

Each pass of the loops of `generate_rtype` loads two registers by LUI and ADDI, has the core operate
on them, stores the result, and pushes the transaction that is to be seen on the data bus.  The
expected data is computed on `long` sums of the immediates.  Here `XLEN` is 32, where the tests with
`op32` are not run; the texts of the commands and the test ids are left out.
-/

namespace RtlCores.Riscv

open RtlCores.Lib

namespace Generator

/-! ## The commands -/

/-- `seq_addi` -/
def seqAddi (cmd : IsaItype) : IsaItype :=
  seqItype { cmd with
    opcode := Opcode.toInt Opcode.iTypeAlu
    funct3 := Funct3.add.setWidth 32 }

/-- A command on two registers: `opcode`, `funct3` and `funct7` set. -/
def seqArith (funct3 : BitVec 3) (funct7 : BitVec 7) (cmd : IsaRtype) : IsaRtype :=
  seqRtype { cmd with
    opcode := Opcode.toInt Opcode.rType
    funct3 := funct3.setWidth 32
    funct7 := funct7.setWidth 32 }

/-- `seq_add` -/
def seqAdd : IsaRtype → IsaRtype := seqArith Funct3.add 0

/-- `seq_sub` -/
def seqSub : IsaRtype → IsaRtype := seqArith Funct3.add 0x20

/-- `seq_sll` -/
def seqSll : IsaRtype → IsaRtype := seqArith Funct3.sll 0

/-- `seq_slt` -/
def seqSlt : IsaRtype → IsaRtype := seqArith Funct3.slt 0

/-- `seq_sltu` -/
def seqSltu : IsaRtype → IsaRtype := seqArith Funct3.sltu 0

/-- `seq_xor` -/
def seqXor : IsaRtype → IsaRtype := seqArith Funct3.xor 0

/-- `seq_or` -/
def seqOr : IsaRtype → IsaRtype := seqArith Funct3.or 0

/-- `seq_and` -/
def seqAnd : IsaRtype → IsaRtype := seqArith Funct3.and 0

/-- `seq_srl` -/
def seqSrl : IsaRtype → IsaRtype := seqArith Funct3.srl 0

/-- `seq_sra` -/
def seqSra : IsaRtype → IsaRtype := seqArith Funct3.srl 0x20

/-- `set_rtype` -/
def setRtype (rtype : IsaRtype) : AluOp → IsaRtype
  | .add => seqAdd rtype
  | .sub => seqSub rtype
  | .sll => seqSll rtype
  | .srl => seqSrl rtype
  | .sra => seqSra rtype
  | .xor => seqXor rtype
  | .and => seqAnd rtype
  | .or => seqOr rtype
  | .slt => seqSlt rtype
  | .sltu => seqSltu rtype

/-- `seq_sw` -/
def seqSw (cmd : IsaStype) : IsaStype :=
  seqStype { cmd with
    opcode := Opcode.toInt Opcode.sType
    funct3 := DmemSize.word.setWidth 32 }

/-- The `datamask` that `seq_sw` sets. -/
def swDatamask : BitVec 64 := 0xFFFFFFFF

/-! ## The reference -/

/-- `sign_extend`, of a field of `bitsNum` bits in a `long`. -/
def signExtend (data : BitVec 64) (bitsNum : Nat := 12) : BitVec 64 :=
  (data <<< (64 - bitsNum)).sshiftRight (64 - bitsNum)

/-- `get_lui_base_imm_value` -/
def getLuiBaseImmValue (luiBaseVal immVal : BitVec 64) : BitVec 64 :=
  signExtend (luiBaseVal <<< 12) 32 + signExtend immVal

/-- `struct Transaction` -/
structure Transaction where
  wr : BitVec 32
  addr : BitVec 64
  wrData : BitVec 64
  rdData : BitVec 64
deriving DecidableEq, Repr

/-- What `push_ref` puts in `ref_fifo`; `addrWidth` is `DATA_MEMORY_ADDR_WIDTH`. -/
def pushRef (addrWidth : Nat) (req : Transaction) : Transaction :=
  { req with
    wrData := req.wrData &&& (1#64 <<< 32 - 1)
    rdData := req.rdData &&& (1#64 <<< 32 - 1)
    addr := if addrWidth < 64 then req.addr &&& (1#64 <<< addrWidth - 1) else req.addr }

/-- The expected data of an operation on the `long` values `rs1` and `rs2`. -/
def rtypeWrData (rs1 rs2 : BitVec 64) : AluOp → BitVec 64 :=
  let shiftAmount := (rs2 &&& 0x1F).toNat
  fun
  | .add => rs1 + rs2
  | .sub => rs1 - rs2
  | .sll => rs1 <<< shiftAmount
  | .srl => (rs1 &&& swDatamask) >>> shiftAmount
  | .sra => rs1.sshiftRight shiftAmount
  | .xor => rs1 ^^^ rs2
  | .and => rs1 &&& rs2
  | .or => rs1 ||| rs2
  | .slt => if rs1.slt rs2 then 1 else 0
  | .sltu => if rs1.ult rs2 then 1 else 0

/-- What a pass of the loops depends on: the opcode, the registers, the number of the sequence, its
patterns and what `rand()` returns. -/
structure RtypePass where
  opcode : AluOp
  regRs1 : BitVec 5
  regRs2 : BitVec 5
  i : Nat
  pattern12Rs1 : BitVec 64
  pattern20Rs1 : BitVec 64
  pattern12Rs2 : BitVec 64
  pattern20Rs2 : BitVec 64
  rand : Nat

/-- A pass of the loops of `generate_rtype`: the commands pushed to the sequencer and the
transaction pushed to `ref_fifo`. -/
def generateRtype (addrWidth : Nat) (g : RtypePass) : List (BitVec 32) × Transaction :=
  let regRs1 := g.regRs1.setWidth 32
  let regRs2 := g.regRs2.setWidth 32
  let luiRs1 := seqLui ⟨0, 0, regRs1, g.pattern20Rs1.setWidth 32⟩
  let addiRs1 := seqAddi ⟨0, 0, 0, regRs1, regRs1, g.pattern12Rs1.setWidth 32⟩
  let luiRs2 := seqLui ⟨0, 0, regRs2, g.pattern20Rs2.setWidth 32⟩
  let addiRs2 := seqAddi ⟨0, 0, 0, regRs2, regRs2, g.pattern12Rs2.setWidth 32⟩
  let rtype := setRtype ⟨0, 0, 0, BitVec.ofNat 32 (g.i % 32), regRs1, regRs2, 0⟩ g.opcode
  let stype := seqSw ⟨0, 0, 0, 0, rtype.rd, BitVec.ofNat 32 (g.rand % 0x700 / 4 * 4)⟩
  let rs1 := if g.regRs1 ≠ 0 then
    getLuiBaseImmValue (luiRs1.imm.signExtend 64) (addiRs1.imm.signExtend 64) else 0
  let rs2 := if g.regRs2 ≠ 0 then
    getLuiBaseImmValue (luiRs2.imm.signExtend 64) (addiRs2.imm.signExtend 64) else 0
  let rs1 := if g.regRs1 ≠ 0 ∧ g.regRs1 = g.regRs2 then rs2 else rs1
  let wrData := if rtype.rd = 0 then 0 else rtypeWrData rs1 rs2 g.opcode
  ([luiRs1.value, addiRs1.value, luiRs2.value, addiRs2.value, rtype.value, stype.value],
    pushRef addrWidth ⟨1, signExtend (stype.imm.signExtend 64), wrData, 0⟩)

/-! ## The encoded sequence -/

/-- The instruction of an operation. -/
def arithOpFor : AluOp → Isa.ArithOp
  | .add => .add
  | .sub => .sub
  | .sll => .sll
  | .srl => .srl
  | .sra => .sra
  | .xor => .xor
  | .and => .and
  | .or => .or
  | .slt => .slt
  | .sltu => .sltu

namespace RtypePass

variable (g : RtypePass)

/-- The destination register. -/
def rd : BitVec 5 := BitVec.ofNat 5 g.i

/-- The offset of the store. -/
def offset : BitVec 12 := BitVec.ofNat 12 (g.rand % 0x700 / 4 * 4)

/-- The instructions of a pass. -/
def instrs : List Isa.Instr :=
  [.lui g.regRs1 (g.pattern20Rs1.setWidth 20),
    .opImm .add g.regRs1 g.regRs1 (g.pattern12Rs1.setWidth 12),
    .lui g.regRs2 (g.pattern20Rs2.setWidth 20),
    .opImm .add g.regRs2 g.regRs2 (g.pattern12Rs2.setWidth 12),
    .opReg (arithOpFor g.opcode) g.rd g.regRs1 g.regRs2,
    .store .sw 0 g.rd g.offset]

end RtypePass

theorem encodes_seqLui (cmd : IsaUtype) :
    Isa.Encodes 32 (seqLui cmd).value (.lui (cmd.rd.setWidth 5) (cmd.imm.setWidth 20)) := by
  obtain ⟨hop, hrd, himm⟩ := seqUtype_fields
    { cmd with opcode := Opcode.toInt Opcode.uTypeLui } rfl
  rw [← hrd, ← himm]
  exact .lui hop

theorem encodes_seqAddi (cmd : IsaItype) :
    Isa.Encodes 32 (seqAddi cmd).value
      (.opImm .add (cmd.rd.setWidth 5) (cmd.rs1.setWidth 5) (cmd.imm.setWidth 12)) := by
  obtain ⟨hop, hf3, hrd, hrs1, himm⟩ := seqItype_fields
    { cmd with
      opcode := Opcode.toInt Opcode.iTypeAlu
      funct3 := Funct3.add.setWidth 32 } 0 rfl rfl
  have hzero : cmd.imm.setWidth 12 + (0 : BitVec 32).setWidth 12 <<< 10 = cmd.imm.setWidth 12 :=
    BitVec.add_zero _
  rw [hzero] at himm
  rw [← hrd, ← hrs1, ← himm]
  exact .opImm .add hop hf3 (by decide) (fun h ↦ absurd h (by decide))

theorem encodes_setRtype (cmd : IsaRtype) (op : AluOp) :
    Isa.Encodes 32 (setRtype cmd op).value
      (.opReg (arithOpFor op) (cmd.rd.setWidth 5) (cmd.rs1.setWidth 5) (cmd.rs2.setWidth 5)) := by
  have hseq : setRtype cmd op = seqArith (arithOpFor op).funct3 (arithOpFor op).funct7 cmd := by
    cases op <;> rfl
  rw [hseq]
  generalize arithOpFor op = o
  obtain ⟨hop, hf3, hf7, hrd, hrs1, hrs2⟩ := seqRtype_fields
    { cmd with
      opcode := Opcode.toInt Opcode.rType
      funct3 := o.funct3.setWidth 32
      funct7 := o.funct7.setWidth 32 } rfl rfl rfl
  rw [← hrd, ← hrs1, ← hrs2]
  exact .opReg o hop hf3 hf7

theorem encodes_seqSw (cmd : IsaStype) :
    Isa.Encodes 32 (seqSw cmd).value
      (.store .sw (cmd.rs1.setWidth 5) (cmd.rs2.setWidth 5) (cmd.imm.setWidth 12)) := by
  obtain ⟨hop, hf3, hrs1, hrs2, himm⟩ := seqStype_fields
    { cmd with
      opcode := Opcode.toInt Opcode.sType
      funct3 := DmemSize.word.setWidth 32 } rfl rfl
  rw [← hrs1, ← hrs2, ← himm]
  exact .store .sw hop hf3 (fun h ↦ absurd h (by decide))

theorem setWidth_reg (r : BitVec 5) : (r.setWidth 32).setWidth 5 = r := by
  rw [BitVec.setWidth_setWidth_of_le r (show 5 ≤ 32 by decide), BitVec.setWidth_eq]

theorem setRtype_rd (cmd : IsaRtype) (op : AluOp) : (setRtype cmd op).rd = cmd.rd &&& 0x1F := by
  cases op <;> rfl

theorem RtypePass.setWidth_rd (g : RtypePass) :
    (BitVec.ofNat 32 (g.i % 32)).setWidth 5 = g.rd := by
  rw [BitVec.setWidth_ofNat_of_le (by decide), rd]
  exact BitVec.eq_of_toNat_eq (Nat.mod_mod g.i 32)

/-- The commands of a pass encode its instructions. -/
theorem encodes_generateRtype (addrWidth : Nat) (g : RtypePass) :
    List.Forall₂ (Isa.Encodes 32) (generateRtype addrWidth g).1 g.instrs := by
  have hlui (r : BitVec 5) (p : BitVec 64) :
      Isa.Encodes 32 (seqLui ⟨0, 0, r.setWidth 32, p.setWidth 32⟩).value
        (.lui r (p.setWidth 20)) := by
    have henc := encodes_seqLui ⟨0, 0, r.setWidth 32, p.setWidth 32⟩
    rwa [setWidth_reg, BitVec.setWidth_setWidth_of_le p (by decide)] at henc
  have haddi (r : BitVec 5) (p : BitVec 64) :
      Isa.Encodes 32 (seqAddi ⟨0, 0, 0, r.setWidth 32, r.setWidth 32, p.setWidth 32⟩).value
        (.opImm .add r r (p.setWidth 12)) := by
    have henc := encodes_seqAddi ⟨0, 0, 0, r.setWidth 32, r.setWidth 32, p.setWidth 32⟩
    rwa [setWidth_reg, BitVec.setWidth_setWidth_of_le p (by decide)] at henc
  have hrtype := encodes_setRtype
    ⟨0, 0, 0, BitVec.ofNat 32 (g.i % 32), g.regRs1.setWidth 32, g.regRs2.setWidth 32, 0⟩ g.opcode
  rw [setWidth_reg, setWidth_reg, g.setWidth_rd] at hrtype
  have hsw := encodes_seqSw
    ⟨0, 0, 0, 0, BitVec.ofNat 32 (g.i % 32) &&& 0x1F, BitVec.ofNat 32 (g.rand % 0x700 / 4 * 4)⟩
  have hmask : (BitVec.ofNat 32 (g.i % 32) &&& 0x1F).setWidth 5 = g.rd :=
    (setWidth_and_mask _ (show 5 ≤ 5 by decide)).trans g.setWidth_rd
  rw [hmask, BitVec.setWidth_ofNat_of_le (by decide)] at hsw
  rw [generateRtype, setRtype_rd]
  exact .cons (hlui _ _) (.cons (haddi _ _) (.cons (hlui _ _) (.cons (haddi _ _)
    (.cons hrtype (.cons hsw .nil)))))

/-! ## The loaded registers -/

theorem signExtend_eq (data : BitVec 64) {n : Nat} (hpos : 0 < n) (hn : n ≤ 64) :
    signExtend data n = (data.setWidth n).signExtend 64 := by
  ext i hi
  rw [signExtend, BitVec.getElem_sshiftRight, BitVec.getElem_signExtend,
    BitVec.msb_eq_getLsbD_last, BitVec.msb_eq_getLsbD_last]
  by_cases hin : i < n
  · have hlt : 64 - n + i < 64 := by omega
    have hge : ¬64 - n + i < 64 - n := by omega
    simp [hin, hlt, BitVec.getLsbD_eq_getElem hi]
  · have hlt : ¬64 - n + i < 64 := by omega
    have hlast : 63 - (64 - n) = n - 1 := by omega
    have hge : ¬63 < 64 - n := by omega
    have hpred : n - 1 < n := by omega
    have hw : n - 1 < 64 := by omega
    simp [hin, hlt, hlast, hge, hpred, BitVec.getLsbD_eq_getElem hw]

/-- The register that LUI and ADDI leave. -/
def luiAddi (hi : BitVec 20) (lo : BitVec 12) : BitVec 32 := (hi ++ 0#12) + lo.signExtend 32

/-- The sum of the immediates is below the signed words. -/
def wrapped (hi : BitVec 20) (lo : BitVec 12) : Bool := hi == 0x80000 && lo.msb

theorem widened_luiAddi (hi : BitVec 20) (lo : BitVec 12) :
    Widened ((hi ++ 0#12).signExtend 64 + lo.signExtend 64) (luiAddi hi lo) (wrapped hi lo) := by
  have hupper : (hi ++ 0#12).toInt = 2 ^ 12 * hi.toInt := BitVec.toInt_append_zero
  have hlower : (lo.signExtend 32).toInt = lo.toInt := BitVec.toInt_signExtend_of_le (by decide)
  have hhi := hi.le_toInt
  have hhi' := hi.toInt_lt
  have hlo := lo.le_toInt
  have hlo' := lo.toInt_lt
  have hsum := Widened.sum (hi ++ 0#12) (lo.signExtend 32) (by rw [hupper, hlower]; omega)
  have hwraps :
      decide ((hi ++ 0#12).toInt + (lo.signExtend 32).toInt < -2 ^ 31) = wrapped hi lo := by
    have hleast : hi = 0x80000 ↔ hi.toInt = -2 ^ 19 := by
      rw [← BitVec.toInt_inj]
      rfl
    rw [wrapped, hupper, hlower, BitVec.msb_eq_toInt, beq_eq_decide, ← Bool.decide_and,
      decide_eq_decide, hleast]
    omega
  have hsign : (lo.signExtend 32).signExtend 64 = lo.signExtend 64 := by
    apply BitVec.eq_of_toInt_eq
    rw [BitVec.toInt_signExtend_of_le (by decide), BitVec.toInt_signExtend_of_le (by decide),
      BitVec.toInt_signExtend_of_le (by decide)]
  rwa [hwraps, hsign] at hsum

theorem place_eq_append (x : BitVec 20) : place 32 12 x = x ++ 0#12 := by
  ext i hi
  rw [getElem_place, BitVec.getElem_append]
  by_cases h : i < 12
  · have hle : ¬12 ≤ i := by omega
    simp [h, hle]
  · have hle : 12 ≤ i := by omega
    have hlt : i - 12 < 20 := by omega
    simp [h, hle, hlt]

theorem widened_getLuiBaseImmValue (hi lo : BitVec 64) :
    Widened
      (getLuiBaseImmValue ((hi.setWidth 32 &&& 0xFFFFF).signExtend 64)
        ((lo.setWidth 32 &&& 0xFFF).signExtend 64))
      (luiAddi (hi.setWidth 20) (lo.setWidth 12)) (wrapped (hi.setWidth 20) (lo.setWidth 12)) := by
  have hlow (x : BitVec 32) {n : Nat} (hn : n ≤ 32) :
      (x.signExtend 64).setWidth n = x.setWidth n := by
    ext i hi
    rw [BitVec.getElem_setWidth, BitVec.getElem_setWidth, BitVec.getLsbD_signExtend,
      if_pos (show i < 32 by omega), decide_eq_true (show i < 64 by omega), Bool.true_and]
  have hupper : ((hi.setWidth 32 &&& 0xFFFFF).signExtend 64 <<< 12).setWidth 32 =
      hi.setWidth 20 ++ 0#12 := by
    have hplace : (hi.setWidth 32 &&& 0xFFFFF) <<< 12 =
        place 32 12 ((hi.setWidth 32).setWidth 20) :=
      and_mask_shiftLeft (hi.setWidth 32) 20 12
    rw [Isa.setWidth_shiftLeft, hlow _ le_rfl, BitVec.setWidth_eq, hplace,
      BitVec.setWidth_setWidth_of_le hi (show 20 ≤ 32 by decide), place_eq_append]
  have hlower : ((lo.setWidth 32 &&& 0xFFF).signExtend 64).setWidth 12 = lo.setWidth 12 := by
    have hmask : (lo.setWidth 32 &&& 0xFFF).setWidth 12 = (lo.setWidth 32).setWidth 12 :=
      setWidth_and_mask _ (show 12 ≤ 12 by decide)
    rw [hlow _ (by decide), hmask, BitVec.setWidth_setWidth_of_le lo (show 12 ≤ 32 by decide)]
  rw [getLuiBaseImmValue, signExtend_eq _ (by decide) (by decide),
    signExtend_eq _ (by decide) (by decide), hupper, hlower]
  exact widened_luiAddi _ _

namespace RtypePass

variable (g : RtypePass)

/-- The immediates that a register of the pass is loaded with, those of the second pair last. -/
def lui (r : BitVec 5) : BitVec 20 :=
  (if r = g.regRs2 then g.pattern20Rs2 else g.pattern20Rs1).setWidth 20

def addi (r : BitVec 5) : BitVec 12 :=
  (if r = g.regRs2 then g.pattern12Rs2 else g.pattern12Rs1).setWidth 12

/-- The register that a source of the operation holds. -/
def source (r : BitVec 5) : BitVec 32 := if r = 0 then 0 else luiAddi (g.lui r) (g.addi r)

/-- The sum of its immediates is below the signed words. -/
def Wraps (r : BitVec 5) : Bool := r != 0 && wrapped (g.lui r) (g.addi r)

end RtypePass

/-- LUI and ADDI on one register. -/
theorem get_run_luiAddi (h : Isa.Hart 32) (r r' : BitVec 5) (hi : BitVec 20) (lo : BitVec 12) :
    (Isa.Instr.run h [.lui r hi, .opImm .add r r lo]).get r' =
      if r' = 0 then 0 else if r' = r then luiAddi hi lo else h.get r' := by
  have hlui (r' : BitVec 5) : ((Isa.Instr.lui r hi).next h).get r' =
      if r' = 0 then 0 else if r' = r then hi ++ 0#12 else h.get r' := by
    show (h.set r ((hi ++ 0#12).signExtend 32)).get r' = _
    rw [Isa.Hart.get_set, BitVec.signExtend_eq]
  show (Isa.Hart.set _ r (((Isa.Instr.lui r hi).next h).get r + lo.signExtend 32)).get r' = _
  rw [Isa.Hart.get_set]
  split
  · rfl
  case isFalse hr' =>
    split
    case isTrue heq => rw [hlui, ← heq, if_neg hr', if_pos rfl, luiAddi]
    case isFalse hne =>
      show ((Isa.Instr.lui r hi).next h).get r' = _
      rw [hlui, if_neg hr', if_neg hne]

namespace RtypePass

variable (g : RtypePass)

/-- What the instructions of a pass leave in the destination register. -/
theorem get_run_instrs (h : Isa.Hart 32) :
    (Isa.Instr.run h g.instrs).get g.rd =
      if g.rd = 0 then 0
      else (arithOpFor g.opcode).apply (g.source g.regRs1) (g.source g.regRs2) := by
  let first := Isa.Instr.run h [.lui g.regRs1 (g.pattern20Rs1.setWidth 20),
    .opImm .add g.regRs1 g.regRs1 (g.pattern12Rs1.setWidth 12)]
  let loaded := Isa.Instr.run first [.lui g.regRs2 (g.pattern20Rs2.setWidth 20),
    .opImm .add g.regRs2 g.regRs2 (g.pattern12Rs2.setWidth 12)]
  have hsource1 : loaded.get g.regRs1 = g.source g.regRs1 := by
    rw [get_run_luiAddi, get_run_luiAddi, source, lui, addi]
    split
    · rfl
    · split
      · rfl
      · exact if_pos rfl
  have hsource2 : loaded.get g.regRs2 = g.source g.regRs2 := by
    rw [get_run_luiAddi, source, lui, addi, if_pos rfl, if_pos rfl, if_pos rfl]
  show (loaded.set g.rd ((arithOpFor g.opcode).apply (loaded.get g.regRs1)
    (loaded.get g.regRs2))).get g.rd = _
  rw [Isa.Hart.get_set, if_pos rfl, hsource1, hsource2]

end RtypePass

/-! ## The reference and the instruction set -/

/-- When the operation on the sums of the immediates is as good as on the registers `x` and `y`:
nothing depends on whether a register has wrapped but an arithmetic shift of it and a comparison
with one that has not. -/
def OperationOk (x y : BitVec 32) (wx wy : Bool) : AluOp → Prop
  | .sra => wx = false ∨ y.toNat % 32 = 0
  | .slt => wx = wy ∨ x.slt y = wx
  | .sltu => wx = wy ∨ x.msb = true ∨ y.msb = true ∨ x.ult y = wy
  | _ => True

section Operations

variable {a b : BitVec 64} {x y : BitVec 32} {wx wy : Bool}

theorem toNat_shiftAmount (hb : Widened b y wy) : (b &&& 0x1F).toNat = y.toNat % 32 := by
  rw [← hb.low, BitVec.toNat_setWidth, BitVec.toNat_and]
  exact (Nat.and_two_pow_sub_one_eq_mod b.toNat 5).trans (by omega)

/-- The number a comparison gives. -/
theorem low_comparison (c d : Bool) :
    (if c then 1 else 0 : BitVec 64).setWidth 32 = (if d then 1 else 0 : BitVec 32) ↔ c = d := by
  revert c d
  decide

theorem low_rtypeWrData_iff (ha : Widened a x wx) (hb : Widened b y wy) (op : AluOp) :
    (rtypeWrData a b op).setWidth 32 = (arithOpFor op).apply x y ↔ OperationOk x y wx wy op := by
  have hshift := toNat_shiftAmount hb
  have hlt : y.toNat % 32 < 32 := Nat.mod_lt _ (by decide)
  cases op with
  | add => exact ⟨fun _ ↦ trivial, fun _ ↦ ha.low_add hb⟩
  | sub => exact ⟨fun _ ↦ trivial, fun _ ↦ ha.low_sub hb⟩
  | sll =>
    refine ⟨fun _ ↦ trivial, fun _ ↦ ?_⟩
    rw [rtypeWrData, hshift]
    exact ha.low_shiftLeft _
  | srl =>
    refine ⟨fun _ ↦ trivial, fun _ ↦ ?_⟩
    rw [rtypeWrData, hshift]
    exact ha.low_ushiftRight hlt
  | sra =>
    rw [rtypeWrData, hshift]
    exact ha.low_sshiftRight_iff hlt
  | xor => exact ⟨fun _ ↦ trivial, fun _ ↦ ha.low_xor hb⟩
  | and => exact ⟨fun _ ↦ trivial, fun _ ↦ ha.low_and hb⟩
  | or => exact ⟨fun _ ↦ trivial, fun _ ↦ ha.low_or hb⟩
  | slt =>
    have happly : (arithOpFor .slt).apply x y = if x.slt y then 1 else 0 := by
      rw [arithOpFor, Isa.ArithOp.apply, BitVec.slt]
      simp only [decide_eq_true_iff]
    rw [happly, rtypeWrData, low_comparison, ha.slt_iff hb, OperationOk]
    split
    case isTrue hsame => simp [hsame]
    case isFalse hdiff => rw [or_iff_right hdiff, eq_comm]
  | sltu =>
    have happly : (arithOpFor .sltu).apply x y = if x.ult y then 1 else 0 := by
      rw [arithOpFor, Isa.ArithOp.apply, BitVec.ult]
      simp only [decide_eq_true_iff]
    rw [happly, rtypeWrData, low_comparison, ha.ult_iff hb, OperationOk]
    split
    case isTrue hsame => simp only [true_iff]; tauto
    case isFalse hdiff => rw [eq_comm]; tauto

end Operations

namespace RtypePass

variable (g : RtypePass)

/-- The sum of the immediates that a register of the pass is loaded with. -/
def long (r : BitVec 5) : BitVec 64 :=
  if r ≠ 0 then
    getLuiBaseImmValue
      (((if r = g.regRs2 then g.pattern20Rs2 else g.pattern20Rs1).setWidth 32 &&&
        0xFFFFF).signExtend 64)
      (((if r = g.regRs2 then g.pattern12Rs2 else g.pattern12Rs1).setWidth 32 &&&
        0xFFF).signExtend 64)
  else 0

theorem widened_long (r : BitVec 5) : Widened (g.long r) (g.source r) (g.Wraps r) := by
  by_cases hr : r = 0
  · subst hr
    exact Widened.signExtend 0
  · have hne : (r != 0) = true := bne_iff_ne.mpr hr
    rw [long, source, Wraps, if_pos hr, if_neg hr, hne, Bool.true_and]
    exact widened_getLuiBaseImmValue _ _

/-- The expected data, in terms of the sums. -/
theorem wrData_generateRtype (addrWidth : Nat) :
    (generateRtype addrWidth g).2.wrData =
      (if g.rd = 0 then 0 else rtypeWrData (g.long g.regRs1) (g.long g.regRs2) g.opcode) &&&
        (1#64 <<< 32 - 1) := by
  have hrd : BitVec.ofNat 32 (g.i % 32) &&& 0x1F = 0 ↔ g.rd = 0 := by
    have hmask : BitVec.ofNat 32 (g.i % 32) &&& 0x1F = place 32 0 g.rd := by
      rw [← g.setWidth_rd, ← reg_shiftLeft, BitVec.shiftLeft_zero]
    rw [hmask, ← setWidth_eq_place]
    constructor
    · intro h
      rw [← setWidth_reg g.rd, h]
      rfl
    · intro h
      rw [h]
      rfl
  have hsame : (if g.regRs1 ≠ 0 ∧ g.regRs1 = g.regRs2 then g.long g.regRs2 else
      if g.regRs1 ≠ 0 then
        getLuiBaseImmValue ((g.pattern20Rs1.setWidth 32 &&& 0xFFFFF).signExtend 64)
          ((g.pattern12Rs1.setWidth 32 &&& 0xFFF).signExtend 64)
      else 0) = g.long g.regRs1 := by
    by_cases heq : g.regRs1 = g.regRs2
    · rw [heq]
      by_cases hzero : g.regRs2 = 0
      · rw [if_neg fun hand ↦ hand.1 hzero, if_neg (not_not.mpr hzero), long,
          if_neg (not_not.mpr hzero)]
      · exact if_pos ⟨hzero, rfl⟩
    · rw [if_neg fun hand ↦ heq hand.2, long, if_neg heq, if_neg heq]
  have hlast : g.long g.regRs2 = if g.regRs2 ≠ 0 then
      getLuiBaseImmValue ((g.pattern20Rs2.setWidth 32 &&& 0xFFFFF).signExtend 64)
        ((g.pattern12Rs2.setWidth 32 &&& 0xFFF).signExtend 64)
      else 0 := by
    rw [long, if_pos rfl, if_pos rfl]
  rw [← if_congr hrd rfl rfl, ← hsame, hlast, generateRtype, setRtype_rd]
  rfl

/-- The commands of a pass encode its instructions, and the expected data is what these leave in the
destination register of any hart. -/
def Agrees (addrWidth : Nat) : Prop :=
  List.Forall₂ (Isa.Encodes 32) (generateRtype addrWidth g).1 g.instrs ∧
    ∀ h : Isa.Hart 32, (generateRtype addrWidth g).2.wrData =
      ((Isa.Instr.run h g.instrs).get g.rd).setWidth 64

/-- The reference model agrees with the instruction set exactly if the result is dropped or the
operation does not look at what a register has lost by wrapping. -/
theorem agrees_iff (addrWidth : Nat) :
    g.Agrees addrWidth ↔ g.rd = 0 ∨
      OperationOk (g.source g.regRs1) (g.source g.regRs2) (g.Wraps g.regRs1) (g.Wraps g.regRs2)
        g.opcode := by
  have hdata : (∀ h : Isa.Hart 32, (generateRtype addrWidth g).2.wrData =
      ((Isa.Instr.run h g.instrs).get g.rd).setWidth 64) ↔ g.rd = 0 ∨
      (rtypeWrData (g.long g.regRs1) (g.long g.regRs2) g.opcode).setWidth 32 =
        (arithOpFor g.opcode).apply (g.source g.regRs1) (g.source g.regRs2) := by
    simp only [get_run_instrs, wrData_generateRtype, masked_eq_iff]
    by_cases hrd : g.rd = 0
    · simp [hrd]
    · rw [or_iff_right hrd, if_neg hrd, if_neg hrd]
      exact ⟨fun hall ↦ hall ⟨0, fun _ ↦ 0, fun _ ↦ 0⟩, fun heq _ ↦ heq⟩
  rw [Agrees, and_iff_right (encodes_generateRtype addrWidth g), hdata,
    low_rtypeWrData_iff (g.widened_long _) (g.widened_long _)]

end RtypePass

/-- `slt x8, x1, x2` of `0x7FFFFFFF`, loaded as `0x80000` and `-1`, and 0. -/
theorem not_agrees_slt : ¬∀ (g : RtypePass) (addrWidth : Nat), g.Agrees addrWidth := by
  intro h
  have hdata := (h ⟨.slt, 1, 2, 8, 0xFFF, 0x80000, 0, 0, 0⟩ 32).2 ⟨0, fun _ ↦ 0, fun _ ↦ 0⟩
  rw [RtypePass.get_run_instrs] at hdata
  revert hdata
  decide +kernel

end Generator

end RtlCores.Riscv
