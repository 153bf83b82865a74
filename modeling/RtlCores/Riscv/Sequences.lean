import RtlCores.Lib.Fields
import RtlCores.Riscv.BaseIsa

/-!
# Instruction encoders of the testbench (`RISCV_SingleCycle/testbench/sequences.cpp`)

The encoders mask the operands of a command structure and pack them into its `value`.  An
`int` and an `unsigned int` are words of 32 bits; `>>` on an `int` is arithmetic.  The text
of a command and the queue it is pushed to are left out.
-/

namespace RtlCores.Riscv

open RtlCores.Lib

/-- `struct isa_utype` -/
structure IsaUtype where
  value : BitVec 32
  opcode : BitVec 32
  rd : BitVec 32
  imm : BitVec 32

/-- `struct isa_stype` -/
structure IsaStype where
  value : BitVec 32
  opcode : BitVec 32
  funct3 : BitVec 32
  rs1 : BitVec 32
  rs2 : BitVec 32
  imm : BitVec 32

/-- `struct isa_itype` -/
structure IsaItype where
  value : BitVec 32
  opcode : BitVec 32
  funct3 : BitVec 32
  rd : BitVec 32
  rs1 : BitVec 32
  imm : BitVec 32

/-- `struct isa_btype` -/
structure IsaBtype where
  value : BitVec 32
  opcode : BitVec 32
  funct3 : BitVec 32
  rs1 : BitVec 32
  rs2 : BitVec 32
  imm : BitVec 32

/-- `struct isa_rtype` -/
structure IsaRtype where
  value : BitVec 32
  opcode : BitVec 32
  funct3 : BitVec 32
  rd : BitVec 32
  rs1 : BitVec 32
  rs2 : BitVec 32
  funct7 : BitVec 32

/-- An enumerated opcode as an `int`. -/
def Opcode.toInt (op : BitVec 7) : BitVec 32 := op.setWidth 32

/-- `seq_utype` -/
def seqUtype (cmd : IsaUtype) : IsaUtype :=
  let rd := cmd.rd &&& 0x1F
  let imm := cmd.imm &&& 0xFFFFF
  { cmd with
    rd := rd
    imm := imm
    value := cmd.opcode ||| rd <<< 7 ||| imm <<< 12 }

/-- `seq_lui` -/
def seqLui (cmd : IsaUtype) : IsaUtype :=
  seqUtype { cmd with opcode := Opcode.toInt Opcode.uTypeLui }

/-- `seq_auipc` -/
def seqAuipc (cmd : IsaUtype) : IsaUtype :=
  seqUtype { cmd with opcode := Opcode.toInt Opcode.uTypeAuipc }

/-- `seq_jal` -/
def seqJal (cmd : IsaUtype) : IsaUtype :=
  let opcode := Opcode.toInt Opcode.uTypeJal
  let rd := cmd.rd &&& 0x1F
  let imm := (cmd.imm &&& 0xFFFFF) <<< 1
  let newImm := (imm &&& 0xFF000).sshiftRight 12 <<< 12
  let newImm := newImm + (imm &&& 0x800).sshiftRight 11 <<< 20
  let newImm := newImm + (imm &&& 0x7FE).sshiftRight 1 <<< 21
  let newImm := newImm + (imm &&& 0x100000).sshiftRight 20 <<< 31
  { cmd with
    opcode := opcode
    rd := rd
    value := opcode ||| rd <<< 7 ||| newImm
    imm := imm.sshiftRight 1 }

/-- `seq_stype` -/
def seqStype (cmd : IsaStype) : IsaStype :=
  let rs1 := cmd.rs1 &&& 0x1F
  let rs2 := cmd.rs2 &&& 0x1F
  let imm := cmd.imm &&& 0xFFF
  let value := cmd.opcode ||| (imm &&& 0x1F) <<< 7 ||| cmd.funct3 <<< 12
  { cmd with
    rs1 := rs1
    rs2 := rs2
    imm := imm
    value := value + (rs1 <<< 15 ||| rs2 <<< 20 ||| imm.sshiftRight 5 <<< 25) }

/-- `seq_itype` -/
def seqItype (cmd : IsaItype) (bit30 : BitVec 32 := 0) : IsaItype :=
  let rs1 := cmd.rs1 &&& 0x1F
  let rd := cmd.rd &&& 0x1F
  let imm := cmd.imm &&& 0xFFF
  let value := cmd.opcode ||| rd <<< 7 ||| cmd.funct3 <<< 12
  let value := value + (rs1 <<< 15 ||| imm <<< 20)
  { cmd with
    rs1 := rs1
    rd := rd
    imm := imm
    value := value + bit30 <<< 30 }

/-- `seq_btype` -/
def seqBtype (cmd : IsaBtype) : IsaBtype :=
  let rs1 := cmd.rs1 &&& 0x1F
  let rs2 := cmd.rs2 &&& 0x1F
  let imm := (cmd.imm &&& 0xFFF) <<< 1
  let newImm := (imm &&& 0x800).sshiftRight 11 <<< 7
  let newImm := newImm + (imm &&& 0x1E).sshiftRight 1 <<< 8
  let newImm := newImm + (imm &&& 0x7E0).sshiftRight 5 <<< 25
  let newImm := newImm + (imm &&& 0x1000).sshiftRight 12 <<< 31
  { cmd with
    rs1 := rs1
    rs2 := rs2
    value := cmd.opcode ||| cmd.funct3 <<< 12 ||| rs1 <<< 15 ||| rs2 <<< 20 ||| newImm
    imm := imm.sshiftRight 1 }

/-- `seq_rtype` -/
def seqRtype (cmd : IsaRtype) : IsaRtype :=
  let rd := cmd.rd &&& 0x1F
  let rs1 := cmd.rs1 &&& 0x1F
  let rs2 := cmd.rs2 &&& 0x1F
  let value := cmd.opcode ||| rd <<< 7 ||| cmd.funct3 <<< 12
  { cmd with
    rd := rd
    rs1 := rs1
    rs2 := rs2
    value := value + (rs1 <<< 15 ||| rs2 <<< 20 ||| cmd.funct7 <<< 25) }

/-! ## Shifts by an immediate

They keep the shift amount only; the arithmetic ones set bit 30. -/

/-- A shift command: `opcode` and `funct3` set, the immediate masked to the shift amount. -/
def seqShift (opcode : BitVec 7) (funct3 : BitVec 3) (mask bit30 : BitVec 32) (cmd : IsaItype) :
    IsaItype :=
  seqItype { cmd with
    opcode := Opcode.toInt opcode
    funct3 := funct3.setWidth 32
    imm := cmd.imm &&& mask } bit30

/-- The mask of a shift amount: `XLEN >= 64 ? 0x3F : 0x1F`. -/
def shamtMask (xlen : Nat) : BitVec 32 := if 64 ≤ xlen then 0x3F else 0x1F

/-- `seq_slli` -/
def seqSlli (xlen : Nat) (cmd : IsaItype) : IsaItype :=
  seqShift Opcode.iTypeAlu Funct3.sll (shamtMask xlen) 0 cmd

/-- `seq_srli` -/
def seqSrli (xlen : Nat) (cmd : IsaItype) : IsaItype :=
  seqShift Opcode.iTypeAlu Funct3.srl (shamtMask xlen) 0 cmd

/-- `seq_srai` -/
def seqSrai (xlen : Nat) (cmd : IsaItype) : IsaItype :=
  seqShift Opcode.iTypeAlu Funct3.srl (shamtMask xlen) 1 cmd

/-- `seq_slliw` -/
def seqSlliw (cmd : IsaItype) : IsaItype := seqShift Opcode.itypeImm32 Funct3.sll 0x1F 0 cmd

/-- `seq_srliw` -/
def seqSrliw (cmd : IsaItype) : IsaItype := seqShift Opcode.itypeImm32 Funct3.srl 0x1F 0 cmd

/-- `seq_sraiw` -/
def seqSraiw (cmd : IsaItype) : IsaItype := seqShift Opcode.itypeImm32 Funct3.srl 0x1F 1 cmd

/-! ## Encoded words as placed fields -/

theorem reg_shiftLeft (x : BitVec 32) (lo : Nat) :
    (x &&& 0x1F) <<< lo = place 32 lo (x.setWidth 5) :=
  and_mask_shiftLeft x 5 lo

theorem setWidth_eq_place {n : Nat} (x : BitVec n) : x.setWidth 32 = place 32 0 x := by
  rw [place, BitVec.shiftLeft_zero]

/-- The low bits of a masked immediate. -/
theorem setWidth_and_mask (x : BitVec 32) {n m : Nat} (h : m ≤ n) :
    (x &&& (BitVec.allOnes n).setWidth 32).setWidth m = x.setWidth m := by
  ext i hi
  have hin : i < n := by omega
  by_cases hw : i < 32
  · simp [hin, hw]
  · simp [BitVec.getLsbD_of_ge x i (by omega)]

/-- A piece of a masked and doubled immediate, cut out by a mask and moved to its place. -/
theorem double_piece (x : BitVec 32) {n k m : Nat} (lo : Nat) {imm mask : BitVec 32}
    (himm : imm = (BitVec.allOnes n).setWidth 32)
    (hmask : mask = (BitVec.allOnes m).setWidth 32 <<< k) (hk : 0 < k) (hkm : k + m ≤ n + 1)
    (hn : n < 31) :
    (((x &&& imm) <<< 1) &&& mask).sshiftRight k <<< lo =
      place 32 lo ((x.setWidth n).extractLsb' (k - 1) m) := by
  rw [hmask, and_mask_sshiftRight_shiftLeft _ (by omega), himm]
  congr 1
  ext i hi
  have hki : k + i < 32 := by omega
  have hlt : ¬ k + i < 1 := by omega
  have hsub : k + i - 1 = k - 1 + i := by omega
  have hin : k - 1 + i < n := by omega
  have hw : k - 1 + i < 32 := by omega
  simp [hki, hlt, hsub, hin, hw]

/-- The word of `seq_utype`. -/
theorem seqUtype_value (cmd : IsaUtype) (op : BitVec 7) (hop : cmd.opcode = Opcode.toInt op) :
    (seqUtype cmd).value =
      place 32 0 op ||| place 32 7 (cmd.rd.setWidth 5) ||| place 32 12 (cmd.imm.setWidth 20) := by
  have himm : (cmd.imm &&& 0xFFFFF) <<< 12 = place 32 12 (cmd.imm.setWidth 20) :=
    and_mask_shiftLeft cmd.imm 20 12
  rw [seqUtype, hop, Opcode.toInt, setWidth_eq_place, himm, reg_shiftLeft]

/-- The word of `seq_jal`. -/
theorem seqJal_value (cmd : IsaUtype) :
    (seqJal cmd).value =
      place 32 0 Opcode.uTypeJal ||| place 32 7 (cmd.rd.setWidth 5) |||
        (place 32 12 ((cmd.imm.setWidth 20).extractLsb' 11 8) |||
          place 32 20 ((cmd.imm.setWidth 20).extractLsb' 10 1) |||
          place 32 21 ((cmd.imm.setWidth 20).extractLsb' 0 10) |||
          place 32 31 ((cmd.imm.setWidth 20).extractLsb' 19 1)) := by
  have h12 : (((cmd.imm &&& 0xFFFFF) <<< 1) &&& 0xFF000).sshiftRight 12 <<< 12 =
      place 32 12 ((cmd.imm.setWidth 20).extractLsb' 11 8) :=
    double_piece cmd.imm 12 rfl rfl (by decide) (by decide) (by decide)
  have h20 : (((cmd.imm &&& 0xFFFFF) <<< 1) &&& 0x800).sshiftRight 11 <<< 20 =
      place 32 20 ((cmd.imm.setWidth 20).extractLsb' 10 1) :=
    double_piece cmd.imm 20 rfl rfl (by decide) (by decide) (by decide)
  have h21 : (((cmd.imm &&& 0xFFFFF) <<< 1) &&& 0x7FE).sshiftRight 1 <<< 21 =
      place 32 21 ((cmd.imm.setWidth 20).extractLsb' 0 10) :=
    double_piece cmd.imm 21 rfl rfl (by decide) (by decide) (by decide)
  have h31 : (((cmd.imm &&& 0xFFFFF) <<< 1) &&& 0x100000).sshiftRight 20 <<< 31 =
      place 32 31 ((cmd.imm.setWidth 20).extractLsb' 19 1) :=
    double_piece cmd.imm 31 rfl rfl (by decide) (by decide) (by decide)
  simp only [seqJal, h12, h20, h21, h31, reg_shiftLeft, Opcode.toInt, setWidth_eq_place]
  -- the pieces go to separate bits, from the lowest up
  rw [add_place_eq_or 20, add_place_eq_or 21, add_place_eq_or 31]
  all_goals simp [BitVec.extractLsb'_or]

/-- The word of `seq_btype`. -/
theorem seqBtype_value (cmd : IsaBtype) (op : BitVec 7) (funct3 : BitVec 3)
    (hop : cmd.opcode = Opcode.toInt op) (hf3 : cmd.funct3 = funct3.setWidth 32) :
    (seqBtype cmd).value =
      place 32 0 op ||| place 32 12 funct3 ||| place 32 15 (cmd.rs1.setWidth 5) |||
        place 32 20 (cmd.rs2.setWidth 5) |||
        (place 32 7 ((cmd.imm.setWidth 12).extractLsb' 10 1) |||
          place 32 8 ((cmd.imm.setWidth 12).extractLsb' 0 4) |||
          place 32 25 ((cmd.imm.setWidth 12).extractLsb' 4 6) |||
          place 32 31 ((cmd.imm.setWidth 12).extractLsb' 11 1)) := by
  have h7 : (((cmd.imm &&& 0xFFF) <<< 1) &&& 0x800).sshiftRight 11 <<< 7 =
      place 32 7 ((cmd.imm.setWidth 12).extractLsb' 10 1) :=
    double_piece cmd.imm 7 rfl rfl (by decide) (by decide) (by decide)
  have h8 : (((cmd.imm &&& 0xFFF) <<< 1) &&& 0x1E).sshiftRight 1 <<< 8 =
      place 32 8 ((cmd.imm.setWidth 12).extractLsb' 0 4) :=
    double_piece cmd.imm 8 rfl rfl (by decide) (by decide) (by decide)
  have h25 : (((cmd.imm &&& 0xFFF) <<< 1) &&& 0x7E0).sshiftRight 5 <<< 25 =
      place 32 25 ((cmd.imm.setWidth 12).extractLsb' 4 6) :=
    double_piece cmd.imm 25 rfl rfl (by decide) (by decide) (by decide)
  have h31 : (((cmd.imm &&& 0xFFF) <<< 1) &&& 0x1000).sshiftRight 12 <<< 31 =
      place 32 31 ((cmd.imm.setWidth 12).extractLsb' 11 1) :=
    double_piece cmd.imm 31 rfl rfl (by decide) (by decide) (by decide)
  have hfunct3 : funct3.setWidth 32 <<< 12 = place 32 12 funct3 := rfl
  simp only [seqBtype, hop, hf3, hfunct3, h7, h8, h25, h31, reg_shiftLeft]
  rw [Opcode.toInt, setWidth_eq_place, add_place_eq_or 8, add_place_eq_or 25,
    add_place_eq_or 31]
  all_goals simp [BitVec.extractLsb'_or]

/-- The word of `seq_stype`. -/
theorem seqStype_value (cmd : IsaStype) (op : BitVec 7) (funct3 : BitVec 3)
    (hop : cmd.opcode = Opcode.toInt op) (hf3 : cmd.funct3 = funct3.setWidth 32) :
    (seqStype cmd).value =
      place 32 0 op ||| place 32 7 (cmd.imm.setWidth 5) ||| place 32 12 funct3 |||
        (place 32 15 (cmd.rs1.setWidth 5) ||| place 32 20 (cmd.rs2.setWidth 5) |||
          place 32 25 ((cmd.imm.setWidth 12).extractLsb' 5 7)) := by
  have hlow : (cmd.imm &&& 0xFFF).setWidth 5 = cmd.imm.setWidth 5 :=
    setWidth_and_mask cmd.imm (show 5 ≤ 12 by decide)
  have hhigh : (cmd.imm &&& 0xFFF).sshiftRight 5 <<< 25 =
      place 32 25 ((cmd.imm.setWidth 12).extractLsb' 5 7) :=
    and_low_sshiftRight_shiftLeft cmd.imm (show 12 < 32 by decide) 25
  have hfunct3 : funct3.setWidth 32 <<< 12 = place 32 12 funct3 := rfl
  simp only [seqStype, hop, hf3, hfunct3, reg_shiftLeft, hlow, hhigh]
  rw [Opcode.toInt, setWidth_eq_place, add_eq_or_of_split 15]
  all_goals simp [BitVec.extractLsb'_or]

/-- The word of `seq_rtype`. -/
theorem seqRtype_value (cmd : IsaRtype) (op : BitVec 7) (funct3 : BitVec 3) (funct7 : BitVec 7)
    (hop : cmd.opcode = Opcode.toInt op) (hf3 : cmd.funct3 = funct3.setWidth 32)
    (hf7 : cmd.funct7 = funct7.setWidth 32) :
    (seqRtype cmd).value =
      place 32 0 op ||| place 32 7 (cmd.rd.setWidth 5) ||| place 32 12 funct3 |||
        (place 32 15 (cmd.rs1.setWidth 5) ||| place 32 20 (cmd.rs2.setWidth 5) |||
          place 32 25 funct7) := by
  have hfunct3 : funct3.setWidth 32 <<< 12 = place 32 12 funct3 := rfl
  have hfunct7 : funct7.setWidth 32 <<< 25 = place 32 25 funct7 := rfl
  simp only [seqRtype, hop, hf3, hf7, hfunct3, hfunct7, reg_shiftLeft]
  rw [Opcode.toInt, setWidth_eq_place, add_eq_or_of_split 15]
  all_goals simp [BitVec.extractLsb'_or]

/-- Bit 30 of the word is bit 10 of the immediate. -/
theorem bit30_shiftLeft (x : BitVec 32) : x <<< 30 = place 32 20 (x.setWidth 12 <<< 10) := by
  ext i hi
  rw [getElem_place, BitVec.getElem_shiftLeft]
  by_cases hlo : i < 30
  · by_cases h20 : 20 ≤ i
    · have h10 : i - 20 < 10 := by omega
      simp [hlo, h10]
    · simp [hlo, h20]
  · have h20 : 20 ≤ i := by omega
    have h12 : i - 20 < 12 := by omega
    have h10 : ¬ i - 20 < 10 := by omega
    have hsub : i - 20 - 10 = i - 30 := by omega
    have h32 : i - 30 < 32 := by omega
    simp [hlo, h20, h12, h10, hsub, h32]

/-- The word of `seq_itype`: `bit30` is added to the immediate. -/
theorem seqItype_value (cmd : IsaItype) (bit30 : BitVec 32) (op : BitVec 7) (funct3 : BitVec 3)
    (hop : cmd.opcode = Opcode.toInt op) (hf3 : cmd.funct3 = funct3.setWidth 32) :
    (seqItype cmd bit30).value =
      place 32 0 op ||| place 32 7 (cmd.rd.setWidth 5) ||| place 32 12 funct3 |||
        (place 32 15 (cmd.rs1.setWidth 5) |||
          place 32 20 (cmd.imm.setWidth 12 + bit30.setWidth 12 <<< 10)) := by
  have hfunct3 : funct3.setWidth 32 <<< 12 = place 32 12 funct3 := rfl
  have himm : (cmd.imm &&& 0xFFF) <<< 20 = place 32 20 (cmd.imm.setWidth 12) :=
    and_mask_shiftLeft cmd.imm 12 20
  have hrs1 (x : BitVec 12) : place 32 15 (cmd.rs1.setWidth 5) + place 32 20 x =
      place 32 15 (cmd.rs1.setWidth 5) ||| place 32 20 x :=
    add_place_eq_or 20 (extractLsb'_place_above (by decide) _) x
  simp only [seqItype, hop, hf3, hfunct3, reg_shiftLeft, himm, bit30_shiftLeft]
  rw [← hrs1, add_assoc, add_assoc (place 32 15 _), place_add_place 20 _ _ (by decide), hrs1,
    Opcode.toInt, setWidth_eq_place, add_eq_or_of_split 15]
  all_goals simp [BitVec.extractLsb'_or]

/-! ## Encoded words as the decoder sees them -/

/-- A field of a word whose pieces are known. -/
theorem field_of_value {word pieces : BitVec 32} (h : word = pieces) (lo n : Nat) {x : BitVec n}
    (hx : pieces.extractLsb' lo n = x) : word.extractLsb' lo n = x := h ▸ hx

/-- An I-type instruction, whatever else the decoder makes of it, has the I immediate. -/
theorem decode_immediate_iType {w : BitVec 32} (h : (decode w).iType = true)
    (hs : (decode w).sType = false) : (decode w).immediate = immI w := by
  rw [decode_immediate rfl, hs, h]
  rfl

theorem decode_immediate_bType {w : BitVec 32} (hop : (decode w).opcode = Opcode.bType) :
    (decode w).bType = true ∧ (decode w).immediate = immB w := by
  have htype : (decode w).toInstrType =
      { bType := true
        illegalFunct3 := (decode w).funct3 == 0b010 || (decode w).funct3 == 0b011 } := by
    rw [decode_toInstrType, hop]
    rfl
  refine ⟨by rw [htype], ?_⟩
  rw [decode_immediate htype]
  rfl

/-- The fields of a U-type word. -/
theorem seqUtype_fields (cmd : IsaUtype) {op : BitVec 7} (hcmd : cmd.opcode = Opcode.toInt op) :
    let w := (seqUtype cmd).value
    Isa.opcode w = op ∧ Isa.rd w = cmd.rd.setWidth 5 ∧ Isa.immU w = cmd.imm.setWidth 20 := by
  have hvalue := seqUtype_value cmd op hcmd
  exact ⟨field_of_value hvalue 0 7 (by simp [BitVec.extractLsb'_or]),
    field_of_value hvalue 7 5 (by simp [BitVec.extractLsb'_or]),
    field_of_value hvalue 12 20 (by simp [BitVec.extractLsb'_or])⟩

theorem seqUtype_decode (cmd : IsaUtype) {op : BitVec 7}
    (hop : op = Opcode.uTypeLui ∨ op = Opcode.uTypeAuipc) (hcmd : cmd.opcode = Opcode.toInt op) :
    let d := decode (seqUtype cmd).value
    d.opcode = op ∧ d.rdAddr = cmd.rd.setWidth 5 ∧
      d.immediate = (cmd.imm.setWidth 20).signExtend 32 <<< 12 ∧ d.uType = true := by
  intro d
  obtain ⟨hopcode, hrd, himm⟩ := seqUtype_fields cmd hcmd
  have htype : d.toInstrType = { uType := true } := by
    rw [decode_toInstrType, show d.opcode = op from hopcode]
    rcases hop with rfl | rfl <;> rfl
  refine ⟨hopcode, hrd, ?_, by rw [htype]⟩
  rw [decode_immediate htype]
  show Isa.immU (seqUtype cmd).value ++ 0#12 = _
  rw [himm]
  exact append_zero_eq_shiftLeft _ 12

theorem seqJal_decode (cmd : IsaUtype) :
    let d := decode (seqJal cmd).value
    d.opcode = Opcode.uTypeJal ∧ d.rdAddr = cmd.rd.setWidth 5 ∧
      d.immediate = (cmd.imm.setWidth 20).signExtend 32 <<< 1 ∧ d.jType = true := by
  intro d
  have hvalue := seqJal_value cmd
  have hopcode : d.opcode = Opcode.uTypeJal :=
    field_of_value hvalue 0 7 (by simp [BitVec.extractLsb'_or])
  have hrd : d.rdAddr = cmd.rd.setWidth 5 :=
    field_of_value hvalue 7 5 (by simp [BitVec.extractLsb'_or])
  have htype : d.toInstrType = { jType := true } := by
    rw [decode_toInstrType, hopcode]
    rfl
  have himm : Isa.immJ (seqJal cmd).value = cmd.imm.setWidth 20 ++ 0#1 := by
    rw [Isa.immJ, hvalue]
    simp only [BitVec.extractLsb'_or]
    simp
    exact congrArg (· ++ 0#1) (append_four_pieces 1 8 1 10 (cmd.imm.setWidth 20))
  refine ⟨hopcode, hrd, ?_, by rw [htype]⟩
  rw [decode_immediate htype]
  show immJ (seqJal cmd).value = _
  rw [immJ_eq, himm, signExtend_append_zero]

/-- The fields of an S-type word; the immediate is put back together. -/
theorem seqStype_fields (cmd : IsaStype) {op : BitVec 7} {funct3 : BitVec 3}
    (hcmd : cmd.opcode = Opcode.toInt op) (hf3 : cmd.funct3 = funct3.setWidth 32) :
    let w := (seqStype cmd).value
    Isa.opcode w = op ∧ Isa.funct3 w = funct3 ∧ Isa.rs1 w = cmd.rs1.setWidth 5 ∧
      Isa.rs2 w = cmd.rs2.setWidth 5 ∧ Isa.immS w = cmd.imm.setWidth 12 := by
  have hvalue := seqStype_value cmd op funct3 hcmd hf3
  have hpieces (x : BitVec 12) : x.extractLsb' 5 7 ++ x.extractLsb' 0 5 = x := by
    rw [BitVec.extractLsb'_append_extractLsb'_eq_extractLsb' (by decide)]
    exact BitVec.extractLsb'_eq_self
  have hlow : cmd.imm.setWidth 5 = (cmd.imm.setWidth 12).extractLsb' 0 5 := by
    ext i hi
    have h12 : i < 12 := by omega
    simp [h12]
  refine ⟨field_of_value hvalue 0 7 (by simp [BitVec.extractLsb'_or]),
    field_of_value hvalue 12 3 (by simp [BitVec.extractLsb'_or]),
    field_of_value hvalue 15 5 (by simp [BitVec.extractLsb'_or]),
    field_of_value hvalue 20 5 (by simp [BitVec.extractLsb'_or]), ?_⟩
  rw [Isa.immS, hvalue, hlow]
  simp only [BitVec.extractLsb'_or]
  simp
  exact hpieces _

theorem seqStype_decode (cmd : IsaStype) {funct3 : BitVec 3}
    (hcmd : cmd.opcode = Opcode.toInt Opcode.sType) (hf3 : cmd.funct3 = funct3.setWidth 32) :
    let d := decode (seqStype cmd).value
    d.opcode = Opcode.sType ∧ d.funct3 = funct3 ∧ d.rs1Addr = cmd.rs1.setWidth 5 ∧
      d.rs2Addr = cmd.rs2.setWidth 5 ∧ d.immediate = (cmd.imm.setWidth 12).signExtend 32 ∧
      d.sType = true := by
  intro d
  obtain ⟨hopcode, hfunct3, hrs1, hrs2, himm⟩ := seqStype_fields cmd hcmd hf3
  have htype : d.toInstrType = { sType := true } := by
    rw [decode_toInstrType, show d.opcode = Opcode.sType from hopcode]
    rfl
  refine ⟨hopcode, ?_, hrs1, hrs2, ?_, by rw [htype]⟩
  · exact (decode_funct3 hopcode (by decide)).trans hfunct3
  · rw [decode_immediate htype]
    show immS (seqStype cmd).value = _
    rw [immS_eq, himm]

theorem seqBtype_decode (cmd : IsaBtype) {funct3 : BitVec 3}
    (hcmd : cmd.opcode = Opcode.toInt Opcode.bType) (hf3 : cmd.funct3 = funct3.setWidth 32) :
    let d := decode (seqBtype cmd).value
    d.opcode = Opcode.bType ∧ d.funct3 = funct3 ∧ d.rs1Addr = cmd.rs1.setWidth 5 ∧
      d.rs2Addr = cmd.rs2.setWidth 5 ∧ d.immediate = (cmd.imm.setWidth 12).signExtend 32 <<< 1 ∧
      d.bType = true := by
  intro d
  have hvalue := seqBtype_value cmd Opcode.bType funct3 hcmd hf3
  have hopcode : d.opcode = Opcode.bType :=
    field_of_value hvalue 0 7 (by simp [BitVec.extractLsb'_or])
  have hfunct3 : d.funct3 = funct3 := by
    rw [decode_funct3 hopcode (by decide), hvalue]
    simp [BitVec.extractLsb'_or]
  have hrs1 : d.rs1Addr = cmd.rs1.setWidth 5 :=
    field_of_value hvalue 15 5 (by simp [BitVec.extractLsb'_or])
  have hrs2 : d.rs2Addr = cmd.rs2.setWidth 5 :=
    field_of_value hvalue 20 5 (by simp [BitVec.extractLsb'_or])
  have himm : Isa.immB (seqBtype cmd).value = cmd.imm.setWidth 12 ++ 0#1 := by
    rw [Isa.immB, hvalue]
    simp only [BitVec.extractLsb'_or]
    simp
    exact congrArg (· ++ 0#1) (append_four_pieces 1 1 6 4 (cmd.imm.setWidth 12))
  obtain ⟨htype, himmB⟩ := decode_immediate_bType hopcode
  exact ⟨hopcode, hfunct3, hrs1, hrs2,
    by rw [himmB, immB_eq, himm, signExtend_append_zero], htype⟩

/-- The fields of an R-type word. -/
theorem seqRtype_fields (cmd : IsaRtype) {op : BitVec 7} {funct3 : BitVec 3} {funct7 : BitVec 7}
    (hcmd : cmd.opcode = Opcode.toInt op) (hf3 : cmd.funct3 = funct3.setWidth 32)
    (hf7 : cmd.funct7 = funct7.setWidth 32) :
    let w := (seqRtype cmd).value
    Isa.opcode w = op ∧ Isa.funct3 w = funct3 ∧ Isa.funct7 w = funct7 ∧
      Isa.rd w = cmd.rd.setWidth 5 ∧ Isa.rs1 w = cmd.rs1.setWidth 5 ∧
      Isa.rs2 w = cmd.rs2.setWidth 5 := by
  have hvalue := seqRtype_value cmd op funct3 funct7 hcmd hf3 hf7
  exact ⟨field_of_value hvalue 0 7 (by simp [BitVec.extractLsb'_or]),
    field_of_value hvalue 12 3 (by simp [BitVec.extractLsb'_or]),
    field_of_value hvalue 25 7 (by simp [BitVec.extractLsb'_or]),
    field_of_value hvalue 7 5 (by simp [BitVec.extractLsb'_or]),
    field_of_value hvalue 15 5 (by simp [BitVec.extractLsb'_or]),
    field_of_value hvalue 20 5 (by simp [BitVec.extractLsb'_or])⟩

theorem seqRtype_decode (cmd : IsaRtype) {op : BitVec 7} {funct3 : BitVec 3} {funct7 : BitVec 7}
    (hop : op = Opcode.rType ∨ op = Opcode.rtype32) (hcmd : cmd.opcode = Opcode.toInt op)
    (hf3 : cmd.funct3 = funct3.setWidth 32) (hf7 : cmd.funct7 = funct7.setWidth 32) :
    let d := decode (seqRtype cmd).value
    d.opcode = op ∧ d.funct3 = funct3 ∧ d.funct7 = funct7 ∧ d.rdAddr = cmd.rd.setWidth 5 ∧
      d.rs1Addr = cmd.rs1.setWidth 5 ∧ d.rs2Addr = cmd.rs2.setWidth 5 ∧ d.rType = true := by
  intro d
  obtain ⟨hopcode, hfunct3, hfunct7, hrd, hrs1, hrs2⟩ := seqRtype_fields cmd hcmd hf3 hf7
  have h32 : op.extractLsb' 0 2 = 0b11 := by rcases hop with rfl | rfl <;> decide
  have htype : d.rType = true := by
    rw [show d.rType = d.toInstrType.rType from rfl, decode_toInstrType,
      show d.opcode = op from hopcode]
    rcases hop with rfl | rfl <;> rfl
  exact ⟨hopcode, (decode_funct3 hopcode h32).trans hfunct3, hfunct7, hrd, hrs1, hrs2, htype⟩

/-- The I-type opcodes of the encoders; a system command never has `funct3 = 4`. -/
def ItypeOpcode (op : BitVec 7) (funct3 : BitVec 3) : Prop :=
  op = Opcode.iTypeAlu ∨ op = Opcode.itypeImm32 ∨ op = Opcode.iTypeLoad ∨
    op = Opcode.iTypeJalr ∨ op = Opcode.system ∧ funct3 ≠ 4

instance (op : BitVec 7) (funct3 : BitVec 3) : Decidable (ItypeOpcode op funct3) :=
  inferInstanceAs (Decidable (_ ∨ _))

theorem ItypeOpcode.instrType {op : BitVec 7} {funct3 : BitVec 3} (h : ItypeOpcode op funct3)
    (rdOk rs1Ok : Bool) :
    op.extractLsb' 0 2 = 0b11 ∧ (instrType op funct3 rdOk rs1Ok).iType = true ∧
      (instrType op funct3 rdOk rs1Ok).sType = false := by
  revert h
  revert op funct3 rdOk rs1Ok
  decide +kernel

/-- The fields of an I-type word, with the immediate that `bit30` has been added to. -/
theorem seqItype_fields (cmd : IsaItype) (bit30 : BitVec 32) {op : BitVec 7} {funct3 : BitVec 3}
    (hcmd : cmd.opcode = Opcode.toInt op) (hf3 : cmd.funct3 = funct3.setWidth 32) :
    let w := (seqItype cmd bit30).value
    Isa.opcode w = op ∧ Isa.funct3 w = funct3 ∧ Isa.rd w = cmd.rd.setWidth 5 ∧
      Isa.rs1 w = cmd.rs1.setWidth 5 ∧
      Isa.immI w = cmd.imm.setWidth 12 + bit30.setWidth 12 <<< 10 := by
  have hvalue := seqItype_value cmd bit30 op funct3 hcmd hf3
  refine ⟨field_of_value hvalue 0 7 (by simp [BitVec.extractLsb'_or]),
    field_of_value hvalue 12 3 (by simp [BitVec.extractLsb'_or]),
    field_of_value hvalue 7 5 (by simp [BitVec.extractLsb'_or]),
    field_of_value hvalue 15 5 (by simp [BitVec.extractLsb'_or]), ?_⟩
  rw [Isa.immI, hvalue]
  simp only [BitVec.extractLsb'_or]
  simp

theorem seqItype_decode (cmd : IsaItype) (bit30 : BitVec 32) {op : BitVec 7} {funct3 : BitVec 3}
    (hop : ItypeOpcode op funct3) (hcmd : cmd.opcode = Opcode.toInt op)
    (hf3 : cmd.funct3 = funct3.setWidth 32) :
    let d := decode (seqItype cmd bit30).value
    d.opcode = op ∧ d.funct3 = funct3 ∧ d.rdAddr = cmd.rd.setWidth 5 ∧
      d.rs1Addr = cmd.rs1.setWidth 5 ∧
      d.immediate = (cmd.imm.setWidth 12 + bit30.setWidth 12 <<< 10).signExtend 32 ∧
      d.iType = true := by
  intro d
  obtain ⟨h32, hitype, hstype⟩ := hop.instrType d.rdOk d.rs1Ok
  obtain ⟨hop', hf3', hrd, hrs1, himm⟩ := seqItype_fields cmd bit30 hcmd hf3
  have hopcode : d.opcode = op := hop'
  have hfunct3 : d.funct3 = funct3 := (decode_funct3 hopcode h32).trans hf3'
  have htype : d.iType = true := by
    rw [show d.iType = d.toInstrType.iType from rfl, decode_toInstrType, hopcode, hfunct3, hitype]
  have hnot : d.sType = false := by
    rw [show d.sType = d.toInstrType.sType from rfl, decode_toInstrType, hopcode, hfunct3, hstype]
  refine ⟨hopcode, hfunct3, hrd, hrs1, ?_, htype⟩
  rw [decode_immediate_iType htype hnot, immI_eq]
  exact congrArg _ himm

/-- What the decoder sees of a shift command that keeps the bits of `mask`. -/
def DecodesShift (seq : IsaItype → IsaItype) (op : BitVec 7) (funct3 : BitVec 3)
    (mask bit30 : BitVec 32) : Prop :=
  ∀ cmd, let d := decode (seq cmd).value
    d.opcode = op ∧ d.funct3 = funct3 ∧ d.rdAddr = cmd.rd.setWidth 5 ∧
      d.rs1Addr = cmd.rs1.setWidth 5 ∧ d.immediate = (cmd.imm &&& mask) + bit30 <<< 10 ∧
      d.iType = true

/-- A shift amount and bit 10 make a positive immediate. -/
theorem shamt_signExtend (x : BitVec 32) {mask bit30 : BitVec 32}
    (hmask : mask = 0x1F ∨ mask = 0x3F) (hbit : bit30 = 0 ∨ bit30 = 1) :
    ((x &&& mask).setWidth 12 + bit30.setWidth 12 <<< 10).signExtend 32 =
      (x &&& mask) + bit30 <<< 10 := by
  have hle : (x &&& mask).toNat < 64 := by
    refine lt_of_le_of_lt (BitVec.toNat_and x mask ▸ Nat.and_le_right) ?_
    rcases hmask with rfl | rfl <;> decide
  generalize x &&& mask = y at hle ⊢
  have hmsb : (y.setWidth 12 + bit30.setWidth 12 <<< 10).msb = false := by
    rw [BitVec.msb_eq_false_iff_two_mul_lt]
    rcases hbit with rfl | rfl
    · simp
      omega
    · simp
      omega
  rw [BitVec.signExtend_eq_setWidth_of_msb_false hmsb]
  apply BitVec.eq_of_toNat_eq
  rcases hbit with rfl | rfl
  · simp
    omega
  · simp
    omega

theorem seqShift_decode {op : BitVec 7} {funct3 : BitVec 3} {mask bit30 : BitVec 32}
    (hop : ItypeOpcode op funct3) (hmask : mask = 0x1F ∨ mask = 0x3F)
    (hbit : bit30 = 0 ∨ bit30 = 1) :
    DecodesShift (seqShift op funct3 mask bit30) op funct3 mask bit30 := by
  intro cmd d
  obtain ⟨hopcode, hfunct3, hrd, hrs1, himm, htype⟩ := seqItype_decode
    { cmd with
      opcode := Opcode.toInt op
      funct3 := funct3.setWidth 32
      imm := cmd.imm &&& mask } bit30 hop rfl rfl
  exact ⟨hopcode, hfunct3, hrd, hrs1, himm.trans (shamt_signExtend cmd.imm hmask hbit), htype⟩

theorem shamtMask_cases (xlen : Nat) : shamtMask xlen = 0x1F ∨ shamtMask xlen = 0x3F := by
  rw [shamtMask]
  split
  · exact .inr rfl
  · exact .inl rfl

/-- The decoder reads back what the encoders wrote, for every command of every format. -/
theorem decode_encoders (xlen : Nat) :
    (∀ (cmd : IsaUtype) (op : BitVec 7), op = Opcode.uTypeLui ∨ op = Opcode.uTypeAuipc →
      cmd.opcode = Opcode.toInt op →
      let d := decode (seqUtype cmd).value
      d.opcode = op ∧ d.rdAddr = cmd.rd.setWidth 5 ∧
        d.immediate = (cmd.imm.setWidth 20).signExtend 32 <<< 12 ∧ d.uType = true) ∧
    (∀ cmd : IsaUtype,
      let d := decode (seqJal cmd).value
      d.opcode = Opcode.uTypeJal ∧ d.rdAddr = cmd.rd.setWidth 5 ∧
        d.immediate = (cmd.imm.setWidth 20).signExtend 32 <<< 1 ∧ d.jType = true) ∧
    (∀ (cmd : IsaStype) (funct3 : BitVec 3), cmd.opcode = Opcode.toInt Opcode.sType →
      cmd.funct3 = funct3.setWidth 32 →
      let d := decode (seqStype cmd).value
      d.opcode = Opcode.sType ∧ d.funct3 = funct3 ∧ d.rs1Addr = cmd.rs1.setWidth 5 ∧
        d.rs2Addr = cmd.rs2.setWidth 5 ∧ d.immediate = (cmd.imm.setWidth 12).signExtend 32 ∧
        d.sType = true) ∧
    (∀ (cmd : IsaItype) (op : BitVec 7) (funct3 : BitVec 3), ItypeOpcode op funct3 →
      cmd.opcode = Opcode.toInt op → cmd.funct3 = funct3.setWidth 32 →
      let d := decode (seqItype cmd).value
      d.opcode = op ∧ d.funct3 = funct3 ∧ d.rdAddr = cmd.rd.setWidth 5 ∧
        d.rs1Addr = cmd.rs1.setWidth 5 ∧ d.immediate = (cmd.imm.setWidth 12).signExtend 32 ∧
        d.iType = true) ∧
    (DecodesShift (seqSlli xlen) Opcode.iTypeAlu Funct3.sll (shamtMask xlen) 0 ∧
      DecodesShift (seqSrli xlen) Opcode.iTypeAlu Funct3.srl (shamtMask xlen) 0 ∧
      DecodesShift (seqSrai xlen) Opcode.iTypeAlu Funct3.srl (shamtMask xlen) 1 ∧
      DecodesShift seqSlliw Opcode.itypeImm32 Funct3.sll 0x1F 0 ∧
      DecodesShift seqSrliw Opcode.itypeImm32 Funct3.srl 0x1F 0 ∧
      DecodesShift seqSraiw Opcode.itypeImm32 Funct3.srl 0x1F 1) ∧
    (∀ (cmd : IsaBtype) (funct3 : BitVec 3), cmd.opcode = Opcode.toInt Opcode.bType →
      cmd.funct3 = funct3.setWidth 32 →
      let d := decode (seqBtype cmd).value
      d.opcode = Opcode.bType ∧ d.funct3 = funct3 ∧ d.rs1Addr = cmd.rs1.setWidth 5 ∧
        d.rs2Addr = cmd.rs2.setWidth 5 ∧
        d.immediate = (cmd.imm.setWidth 12).signExtend 32 <<< 1 ∧ d.bType = true) ∧
    (∀ (cmd : IsaRtype) (op : BitVec 7) (funct3 : BitVec 3) (funct7 : BitVec 7),
      op = Opcode.rType ∨ op = Opcode.rtype32 → cmd.opcode = Opcode.toInt op →
      cmd.funct3 = funct3.setWidth 32 → cmd.funct7 = funct7.setWidth 32 →
      let d := decode (seqRtype cmd).value
      d.opcode = op ∧ d.funct3 = funct3 ∧ d.funct7 = funct7 ∧ d.rdAddr = cmd.rd.setWidth 5 ∧
        d.rs1Addr = cmd.rs1.setWidth 5 ∧ d.rs2Addr = cmd.rs2.setWidth 5 ∧
        d.rType = true) := by
  refine ⟨fun cmd op ↦ seqUtype_decode cmd, seqJal_decode, fun cmd funct3 ↦ seqStype_decode cmd,
    ?_, ⟨?_, ?_, ?_, ?_, ?_, ?_⟩, fun cmd funct3 ↦ seqBtype_decode cmd,
    fun cmd op funct3 funct7 ↦ seqRtype_decode cmd⟩
  · intro cmd op funct3 hop hcmd hf3 d
    obtain ⟨hopcode, hfunct3, hrd, hrs1, himm, htype⟩ := seqItype_decode cmd 0 hop hcmd hf3
    refine ⟨hopcode, hfunct3, hrd, hrs1, himm.trans ?_, htype⟩
    congr 1
    exact BitVec.add_zero _
  · exact seqShift_decode (by decide) (shamtMask_cases xlen) (.inl rfl)
  · exact seqShift_decode (by decide) (shamtMask_cases xlen) (.inl rfl)
  · exact seqShift_decode (by decide) (shamtMask_cases xlen) (.inr rfl)
  · exact seqShift_decode (by decide) (.inl rfl) (.inl rfl)
  · exact seqShift_decode (by decide) (.inl rfl) (.inl rfl)
  · exact seqShift_decode (by decide) (.inl rfl) (.inr rfl)

/-- `addi x1, x2, -1`: the immediate comes back sign-extended. -/
theorem decode_encoders_addi :
    (decode (seqItype ⟨0, Opcode.toInt Opcode.iTypeAlu, 0, 1, 2, -1⟩).value).immediate = -1 := by
  have hdecoded := (decode_encoders 32).2.2.2.1
    ⟨0, Opcode.toInt Opcode.iTypeAlu, 0, 1, 2, -1⟩ Opcode.iTypeAlu 0 (by decide) rfl rfl
  exact hdecoded.2.2.2.2.1.trans (by decide)

end RtlCores.Riscv
