import RtlCores.Riscv.Pkg

/-!
# Instruction decoder (`RISCV_SingleCycle/decode.sv`)

With `ZICSR` defined and `IALIGN = 32`, as `risc_pkg.sv` has them.
-/

namespace RtlCores.Riscv

open RtlCores.Lib

/-- The outputs of `decode` that its `case (opcode)` sets; a flag not named is 0. -/
structure InstrType where
  rType : Bool := false
  iType : Bool := false
  sType : Bool := false
  bType : Bool := false
  uType : Bool := false
  jType : Bool := false
  isOp32 : Bool := false
  yType : Bool := false
  cType : Bool := false
  illegalOp : Bool := false
  illegalFunct3 : Bool := false
deriving DecidableEq, Repr

/-- The `case (opcode)` of `decode`. -/
def instrType (opcode : BitVec 7) (funct3 : BitVec 3) (rdOk rs1Ok : Bool) : InstrType :=
  if opcode = Opcode.rtype32 then { rType := true, isOp32 := true }
  else if opcode = Opcode.rType then { rType := true }
  else if opcode = Opcode.sType then { sType := true }
  else if opcode = Opcode.bType then
    { bType := true, illegalFunct3 := funct3 == 0b010 || funct3 == 0b011 }
  else if opcode = Opcode.uTypeJal then { jType := true }
  else if opcode = Opcode.uTypeLui ∨ opcode = Opcode.uTypeAuipc then { uType := true }
  else if opcode = Opcode.iTypeFl then { illegalOp := true }
  else if opcode = Opcode.iTypeAlu ∨ opcode = Opcode.iTypeLoad ∨ opcode = Opcode.iTypeJalr then
    { iType := true }
  else if opcode = Opcode.itypeImm32 then { iType := true, isOp32 := true }
  else if opcode = Opcode.system then
    if funct3 = 0b100 then { illegalFunct3 := true }
    else if funct3 ≠ 0 then { iType := true, cType := true }
    else if !rs1Ok && !rdOk then { iType := true, yType := true }
    else { iType := true, illegalFunct3 := true }
  else { illegalOp := true }

/-- Outputs of `decode`. -/
structure Decoded extends InstrType where
  opcode : BitVec 7
  rdAddr : BitVec 5
  rs1Addr : BitVec 5
  rs2Addr : BitVec 5
  funct3 : BitVec 3
  funct7 : BitVec 7
  immediate : BitVec 32
  is32bit : Bool
  illegal : Bool
  rdOk : Bool
  rs1Ok : Bool
deriving DecidableEq, Repr

section Immediates

variable (i : BitVec 32)

def immJ : BitVec 32 :=
  fill 12 i[31] ++ i.extractLsb' 12 8 ++ i.extractLsb' 20 1 ++ i.extractLsb' 21 10 ++ 0#1

def immB : BitVec 32 :=
  fill 20 i[31] ++ i.extractLsb' 7 1 ++ i.extractLsb' 25 6 ++ i.extractLsb' 8 4 ++ 0#1

def immS : BitVec 32 := fill 21 i[31] ++ i.extractLsb' 25 6 ++ i.extractLsb' 7 5

def immI : BitVec 32 := fill 20 i[31] ++ i.extractLsb' 20 12

def immU : BitVec 32 := i.extractLsb' 12 20 ++ 0#12

end Immediates

/-- `decode` -/
def decode (instruction : BitVec 32) : Decoded :=
  let opcode := instruction.extractLsb' 0 7
  let opcode16 := instruction.extractLsb' 0 2
  let is32bit := opcode == 0 || opcode16 == 0b11
  let rdAddr := instruction.extractLsb' 7 5
  let rs1Addr := instruction.extractLsb' 15 5
  let funct3 := if is32bit then instruction.extractLsb' 12 3 else instruction.extractLsb' 13 3
  let rdOk := rdAddr != 0
  let rs1Ok := rs1Addr != 0
  let t := instrType opcode funct3 rdOk rs1Ok
  { toInstrType := t
    opcode := opcode
    rdAddr := rdAddr
    rs1Addr := rs1Addr
    rs2Addr := instruction.extractLsb' 20 5
    funct3 := funct3
    funct7 := instruction.extractLsb' 25 7
    immediate :=
      if t.sType then immS instruction
      else if t.iType then immI instruction
      else if t.bType then immB instruction
      else if t.uType then immU instruction
      else if t.jType then immJ instruction
      else 0
    is32bit := is32bit
    illegal := t.illegalOp || t.illegalFunct3
    rdOk := rdOk
    rs1Ok := rs1Ok }

/-! ## What the flags say -/

variable {opcode : BitVec 7} {funct3 : BitVec 3} {rdOk rs1Ok : Bool}

theorem instrType_sType :
    (instrType opcode funct3 rdOk rs1Ok).sType = (opcode == Opcode.sType) := by
  by_cases hs : opcode = Opcode.sType
  · subst hs
    rfl
  · rw [beq_false_of_ne hs]
    simp only [instrType, apply_ite InstrType.sType, if_neg hs, ite_self]

/-- A store is told by its opcode alone. -/
theorem decode_sType (w : BitVec 32) : (decode w).sType = ((decode w).opcode == Opcode.sType) :=
  instrType_sType

theorem instrType_bType :
    (instrType opcode funct3 rdOk rs1Ok).bType = (opcode == Opcode.bType) := by
  by_cases hb : opcode = Opcode.bType
  · subst hb
    rfl
  · rw [beq_false_of_ne hb]
    simp only [instrType, apply_ite InstrType.bType, if_neg hb, ite_self]

/-- And so is a branch. -/
theorem decode_bType (w : BitVec 32) : (decode w).bType = ((decode w).opcode == Opcode.bType) :=
  instrType_bType

theorem instrType_of_ne_system (h : opcode ≠ Opcode.system) :
    (instrType opcode funct3 rdOk rs1Ok).yType = false ∧
      (instrType opcode funct3 rdOk rs1Ok).cType = false := by
  constructor
  · simp only [instrType, apply_ite InstrType.yType, if_neg h, ite_self]
  · simp only [instrType, apply_ite InstrType.cType, if_neg h, ite_self]

theorem instrType_system : instrType Opcode.system funct3 rdOk rs1Ok =
    if funct3 = 0b100 then { illegalFunct3 := true }
    else if funct3 ≠ 0 then { iType := true, cType := true }
    else if !rs1Ok && !rdOk then { iType := true, yType := true }
    else { iType := true, illegalFunct3 := true } := rfl

theorem instrType_yType (h : (instrType opcode funct3 rdOk rs1Ok).yType = true) :
    opcode = Opcode.system ∧ funct3 = 0 ∧
      instrType opcode funct3 rdOk rs1Ok = { iType := true, yType := true } := by
  by_cases hop : opcode = Opcode.system
  · subst hop
    rw [instrType_system] at h ⊢
    -- `funct3 = 0` and no registers; the other branches leave the flag low
    split_ifs at h ⊢ with h4 h0 hregs
    exact ⟨rfl, not_not.mp h0, rfl⟩
  · rw [(instrType_of_ne_system hop).1] at h
    exact absurd h Bool.false_ne_true

/-- A system command is an I-type instruction with `funct3 = 0`, not a CSR instruction. -/
theorem decode_yType {w : BitVec 32} (h : (decode w).yType = true) :
    (decode w).opcode = Opcode.system ∧ (decode w).funct3 = 0 ∧ (decode w).iType = true ∧
      (decode w).cType = false := by
  obtain ⟨hop, hf3, htype⟩ := instrType_yType h
  exact ⟨hop, hf3, congrArg InstrType.iType htype, congrArg InstrType.cType htype⟩

theorem instrType_cType (h : (instrType opcode funct3 rdOk rs1Ok).cType = true) :
    opcode = Opcode.system ∧
      instrType opcode funct3 rdOk rs1Ok = { iType := true, cType := true } := by
  by_cases hop : opcode = Opcode.system
  · subst hop
    rw [instrType_system] at h ⊢
    split_ifs at h ⊢ with h4 h0 hregs
    exact ⟨rfl, rfl⟩
  · rw [(instrType_of_ne_system hop).2] at h
    exact absurd h Bool.false_ne_true

theorem decode_cType {w : BitVec 32} (h : (decode w).cType = true) :
    (decode w).opcode = Opcode.system :=
  (instrType_cType h).1

/-- System commands and CSR instructions pass the decoder's check. -/
theorem decode_legal {w : BitVec 32} (h : (decode w).yType || (decode w).cType) :
    (decode w).illegal = false := by
  have hillegal {t : InstrType} (ht : (decode w).toInstrType = t) :
      (decode w).illegal = (t.illegalOp || t.illegalFunct3) :=
    congrArg (fun t : InstrType ↦ t.illegalOp || t.illegalFunct3) ht
  rcases Bool.or_eq_true_iff.mp h with hy | hc
  · exact hillegal (instrType_yType hy).2.2
  · exact hillegal (instrType_cType hc).2

theorem decode_toInstrType (w : BitVec 32) :
    (decode w).toInstrType =
      instrType (decode w).opcode (decode w).funct3 (decode w).rdOk (decode w).rs1Ok := rfl

/-- An opcode that ends in `11` is that of a 32-bit instruction. -/
theorem decode_is32bit {w : BitVec 32} (h : (decode w).opcode.extractLsb' 0 2 = 0b11) :
    (decode w).is32bit = true := by
  have hlow : w.extractLsb' 0 2 = 0b11 := by
    rw [← h]
    ext k hk
    simp [decode]
  show (_ == 0 || w.extractLsb' 0 2 == 0b11) = true
  rw [hlow, Bool.or_eq_true]
  exact .inr rfl

/-- A 32-bit instruction has its `funct3` in the word itself. -/
theorem decode_funct3 {w : BitVec 32} {op : BitVec 7} (hop : (decode w).opcode = op)
    (h32 : op.extractLsb' 0 2 = 0b11) : (decode w).funct3 = w.extractLsb' 12 3 := by
  show (if (decode w).is32bit then _ else _) = _
  rw [if_pos (decode_is32bit (hop ▸ h32))]

/-! ## Immediates as sign extensions -/

theorem immI_eq (i : BitVec 32) : immI i = (i.extractLsb' 20 12).signExtend 32 := by
  rw [immI, ← fill_msb_append]
  congr 2
  simp [BitVec.msb_eq_getLsbD_last]

end RtlCores.Riscv
