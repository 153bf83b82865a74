import RtlCores.Lib.Zicsr
import RtlCores.Riscv.Core

/-!
# Legal words

An illegal-instruction request comes from `decode`, which looks at opcodes and at `funct3`
of branches and SYSTEM words, or from `csr`, which looks at the immediate of a SYSTEM word.
What they let through is compared with the words that a core for RV32I, the CSR instructions
on its registers, the machine-mode commands and the three-byte accesses is to execute.
-/

namespace RtlCores.Riscv

open RtlCores.Lib

/-! ## The words to execute -/

/-- The addresses of the registers of `csr`. -/
def implementedCsrs : List (BitVec 12) :=
  [CsrAddr.mip, CsrAddr.mie, CsrAddr.mepc, CsrAddr.mtvec, CsrAddr.mcause, CsrAddr.mstatus,
    CsrAddr.mscratch, CsrAddr.mtinst]

/-- The immediates of the system commands. -/
def systemCommands : List (BitVec 12) :=
  [SysImm.ecall, SysImm.ebreak, SysImm.sret, SysImm.mret, SysImm.mnret, SysImm.wfi]

/-- The words that the core is to execute for `XLEN = 32`. -/
inductive Legal (w : BitVec 32) : Prop
  | base (i : Isa.Instr) (h : Isa.Encodes 32 w i)
  | jalr (hop : Isa.opcode w = 0b1100111) (hf3 : Isa.funct3 w = 0)
  | fence (hop : Isa.opcode w = 0b0001111) (hf3 : Isa.funct3 w = 0)
  | csr (i : Isa.CsrInstr) (h : Isa.EncodesCsr w i) (haddr : i.csr ∈ implementedCsrs)
  | command (hop : Isa.opcode w = 0b1110011) (hf3 : Isa.funct3 w = 0) (hrd : Isa.rd w = 0)
      (hrs1 : Isa.rs1 w = 0) (himm : Isa.immI w ∈ systemCommands)
  | triple (hop : Isa.opcode w = 0b0000011 ∨ Isa.opcode w = 0b0100011)
      (hf3 : Isa.funct3 w = 7)

theorem branchOp_iff (f3 : BitVec 3) :
    (∃ op : Isa.BranchOp, f3 = op.funct3) ↔ f3 ≠ 2 ∧ f3 ≠ 3 := by
  constructor
  · rintro ⟨op, rfl⟩
    cases op <;> decide
  · intro h
    obtain rfl | rfl | rfl | rfl | rfl | rfl :
        f3 = 0 ∨ f3 = 1 ∨ f3 = 4 ∨ f3 = 5 ∨ f3 = 6 ∨ f3 = 7 := by
      revert f3; decide
    exacts [⟨.beq, rfl⟩, ⟨.bne, rfl⟩, ⟨.blt, rfl⟩, ⟨.bge, rfl⟩, ⟨.bltu, rfl⟩, ⟨.bgeu, rfl⟩]

/-- The loads of RV32I. -/
theorem loadOp_iff (f3 : BitVec 3) :
    (∃ op : Isa.LoadOp, f3 = op.funct3 ∧ op.needs64 = false) ↔ f3 ≠ 3 ∧ f3 ≠ 6 ∧ f3 ≠ 7 := by
  constructor
  · rintro ⟨op, rfl, hop⟩
    revert hop
    cases op <;> decide
  · intro h
    obtain rfl | rfl | rfl | rfl | rfl : f3 = 0 ∨ f3 = 1 ∨ f3 = 2 ∨ f3 = 4 ∨ f3 = 5 := by
      revert f3; decide
    exacts [⟨.lb, rfl, rfl⟩, ⟨.lh, rfl, rfl⟩, ⟨.lw, rfl, rfl⟩, ⟨.lbu, rfl, rfl⟩, ⟨.lhu, rfl, rfl⟩]

/-- The stores of RV32I. -/
theorem storeOp_iff (f3 : BitVec 3) :
    (∃ op : Isa.StoreOp, f3 = op.funct3 ∧ op.needs64 = false) ↔ f3 = 0 ∨ f3 = 1 ∨ f3 = 2 := by
  constructor
  · rintro ⟨op, rfl, hop⟩
    revert hop
    cases op <;> decide
  · rintro (rfl | rfl | rfl)
    exacts [⟨.sb, rfl, rfl⟩, ⟨.sh, rfl, rfl⟩, ⟨.sw, rfl, rfl⟩]

theorem funct3_cases (f3 : BitVec 3) : f3 = 0 ∨ f3 = 1 ∨ f3 = 2 ∨ f3 = 3 ∨ f3 = 4 ∨ f3 = 5 ∨
    f3 = 6 ∨ f3 = 7 := by
  revert f3
  decide

/-- The register-register operations. -/
theorem arithOp_iff (f3 : BitVec 3) (f7 : BitVec 7) :
    (∃ op : Isa.ArithOp, f3 = op.funct3 ∧ f7 = op.funct7) ↔
      f7 = 0 ∨ f7 = 0x20 ∧ (f3 = 0 ∨ f3 = 5) := by
  constructor
  · rintro ⟨op, rfl, rfl⟩
    cases op <;> decide
  · rintro (rfl | ⟨rfl, rfl | rfl⟩)
    · obtain rfl | rfl | rfl | rfl | rfl | rfl | rfl | rfl := funct3_cases f3
      exacts [⟨.add, rfl, rfl⟩, ⟨.sll, rfl, rfl⟩, ⟨.slt, rfl, rfl⟩, ⟨.sltu, rfl, rfl⟩,
        ⟨.xor, rfl, rfl⟩, ⟨.srl, rfl, rfl⟩, ⟨.or, rfl, rfl⟩, ⟨.and, rfl, rfl⟩]
    · exact ⟨.sub, rfl, rfl⟩
    · exact ⟨.sra, rfl, rfl⟩

/-- The register-immediate operations of RV32I. -/
theorem arithImmOp_iff (f3 : BitVec 3) (f7 : BitVec 7) :
    (∃ op : Isa.ArithOp, f3 = op.funct3 ∧ op ≠ .sub ∧ (op.isShift = true → f7 = op.funct7)) ↔
      (f3 = 1 → f7 = 0) ∧ (f3 = 5 → f7 = 0 ∨ f7 = 0x20) := by
  constructor
  · rintro ⟨op, rfl, hsub, hshift⟩
    cases op with
    | sub => exact absurd rfl hsub
    | sll => exact ⟨fun _ ↦ hshift rfl, fun h ↦ absurd h (by decide)⟩
    | srl => exact ⟨fun h ↦ absurd h (by decide), fun _ ↦ .inl (hshift rfl)⟩
    | sra => exact ⟨fun h ↦ absurd h (by decide), fun _ ↦ .inr (hshift rfl)⟩
    | add | slt | sltu | xor | or | and =>
      exact ⟨fun h ↦ absurd h (by decide), fun h ↦ absurd h (by decide)⟩
  · rintro ⟨hsll, hsr⟩
    obtain rfl | rfl | rfl | rfl | rfl | rfl | rfl | rfl := funct3_cases f3
    · exact ⟨.add, rfl, by decide, fun h ↦ by contradiction⟩
    · exact ⟨.sll, rfl, by decide, fun _ ↦ hsll rfl⟩
    · exact ⟨.slt, rfl, by decide, fun h ↦ by contradiction⟩
    · exact ⟨.sltu, rfl, by decide, fun h ↦ by contradiction⟩
    · exact ⟨.xor, rfl, by decide, fun h ↦ by contradiction⟩
    · rcases hsr rfl with h | h
      · exact ⟨.srl, rfl, by decide, fun _ ↦ h⟩
      · exact ⟨.sra, rfl, by decide, fun _ ↦ h⟩
    · exact ⟨.or, rfl, by decide, fun h ↦ by contradiction⟩
    · exact ⟨.and, rfl, by decide, fun h ↦ by contradiction⟩

/-- The CSR operations. -/
theorem csrOp_iff (f3 : BitVec 3) :
    (∃ (op : Isa.CsrOp) (imm : Bool), f3 = op.funct3 imm) ↔ f3 ≠ 0 ∧ f3 ≠ 4 := by
  constructor
  · rintro ⟨op, imm, rfl⟩
    cases op <;> cases imm <;> decide
  · intro h
    obtain rfl | rfl | rfl | rfl | rfl | rfl :
        f3 = 1 ∨ f3 = 2 ∨ f3 = 3 ∨ f3 = 5 ∨ f3 = 6 ∨ f3 = 7 := by
      revert f3; decide
    exacts [⟨.csrrw, false, rfl⟩, ⟨.csrrs, false, rfl⟩, ⟨.csrrc, false, rfl⟩,
      ⟨.csrrw, true, rfl⟩, ⟨.csrrs, true, rfl⟩, ⟨.csrrc, true, rfl⟩]

/-- Legality read off the fields of a word, by its opcode. -/
def legalFields (op : BitVec 7) (f3 : BitVec 3) (f7 : BitVec 7) (rd rs1 : BitVec 5)
    (imm : BitVec 12) : Prop :=
  if op = Opcode.iTypeJalr then f3 = 0
  else if op = Opcode.bType then f3 ≠ 2 ∧ f3 ≠ 3
  else if op = Opcode.iTypeLoad then f3 ≠ 3 ∧ f3 ≠ 6
  else if op = Opcode.sType then f3 = 0 ∨ f3 = 1 ∨ f3 = 2 ∨ f3 = 7
  else if op = Opcode.iTypeAlu then (f3 = 1 → f7 = 0) ∧ (f3 = 5 → f7 = 0 ∨ f7 = 0x20)
  else if op = Opcode.rType then f7 = 0 ∨ f7 = 0x20 ∧ (f3 = 0 ∨ f3 = 5)
  else if op = 0b0001111 then f3 = 0
  else if op = Opcode.system then
    (f3 ≠ 0 ∧ f3 ≠ 4) ∧ imm ∈ implementedCsrs ∨
      f3 = 0 ∧ rd = 0 ∧ rs1 = 0 ∧ imm ∈ systemCommands
  else op = Opcode.uTypeLui ∨ op = Opcode.uTypeAuipc ∨ op = Opcode.uTypeJal

/-- `legalFields` of a word. -/
def LegalWord (w : BitVec 32) : Prop :=
  legalFields (Isa.opcode w) (Isa.funct3 w) (Isa.funct7 w) (Isa.rd w) (Isa.rs1 w) (Isa.immI w)

theorem Legal.fields {w : BitVec 32} (h : Legal w) : LegalWord w := by
  rcases h with ⟨i, h⟩ | ⟨hop, hf3⟩ | ⟨hop, hf3⟩ | ⟨i, h, haddr⟩ | ⟨hop, hf3, hrd, hrs1, himm⟩ |
    ⟨hop | hop, hf3⟩
  · cases h with
    | lui hop => rw [LegalWord, hop]; exact .inl rfl
    | auipc hop => rw [LegalWord, hop]; exact .inr (.inl rfl)
    | jal hop => rw [LegalWord, hop]; exact .inr (.inr rfl)
    | branch op hop hf3 => rw [LegalWord, hop]; exact (branchOp_iff _).mp ⟨op, hf3⟩
    | load op hop hf3 hx =>
      have hf := (loadOp_iff _).mp ⟨op, hf3, by simpa using hx⟩
      rw [LegalWord, hop]
      exact ⟨hf.1, hf.2.1⟩
    | store op hop hf3 hx =>
      rw [LegalWord, hop]
      rcases (storeOp_iff _).mp ⟨op, hf3, by simpa using hx⟩ with h0 | h1 | h2
      · exact .inl h0
      · exact .inr (.inl h1)
      · exact .inr (.inr (.inl h2))
    | opImm op hop hf3 hsub hshift =>
      rw [LegalWord, hop]
      exact (arithImmOp_iff _ _).mp ⟨op, hf3, hsub, hshift⟩
    | opReg op hop hf3 hf7 => rw [LegalWord, hop]; exact (arithOp_iff _ _).mp ⟨op, hf3, hf7⟩
  · rw [LegalWord, hop]; exact hf3
  · rw [LegalWord, hop]; exact hf3
  · rw [LegalWord, h.opcode]
    exact .inl ⟨(csrOp_iff _).mp ⟨i.op, i.imm, h.funct3⟩, h.csr ▸ haddr⟩
  · rw [LegalWord, hop]; exact .inr ⟨hf3, hrd, hrs1, himm⟩
  · rw [LegalWord, hop, hf3]
    exact ⟨by decide, by decide⟩
  · rw [LegalWord, hop]
    exact .inr (.inr (.inr hf3))

theorem LegalWord.legal {w : BitVec 32} (h : LegalWord w) : Legal w := by
  rw [LegalWord, legalFields] at h
  split_ifs at h with hjalr hb hl hs hi hr hf hy
  · exact .jalr hjalr h
  · obtain ⟨op, hf3⟩ := (branchOp_iff _).mpr h
    exact .base _ (.branch op hb hf3)
  · by_cases h7 : Isa.funct3 w = 7
    · exact .triple (.inl hl) h7
    · obtain ⟨op, hf3, hx⟩ := (loadOp_iff _).mpr ⟨h.1, h.2, h7⟩
      exact .base _ (.load op hl hf3 (by simp [hx]))
  · rcases h with h0 | h1 | h2 | h7
    · exact .base _ (.store .sb hs h0 (by decide))
    · exact .base _ (.store .sh hs h1 (by decide))
    · exact .base _ (.store .sw hs h2 (by decide))
    · exact .triple (.inr hs) h7
  · obtain ⟨op, hf3, hsub, hshift⟩ := (arithImmOp_iff _ _).mpr h
    exact .base _ (.opImm op hi hf3 hsub hshift)
  · obtain ⟨op, hf3, hf7⟩ := (arithOp_iff _ _).mpr h
    exact .base _ (.opReg op hr hf3 hf7)
  · exact .fence hf h
  · rcases h with ⟨hf3, himm⟩ | ⟨hf3, hrd, hrs1, himm⟩
    · obtain ⟨op, imm, hop3⟩ := (csrOp_iff _).mpr hf3
      exact .csr ⟨op, imm, Isa.immI w, Isa.rd w, Isa.rs1 w⟩ ⟨hy, hop3, rfl, rfl, rfl⟩ himm
    · exact .command hy hf3 hrd hrs1 himm
  · rcases h with hlui | hauipc | hjal
    · exact .base _ (.lui hlui)
    · exact .base _ (.auipc hauipc)
    · exact .base _ (.jal hjal)

theorem legal_iff (w : BitVec 32) : Legal w ↔ LegalWord w := ⟨Legal.fields, LegalWord.legal⟩

/-! ## The words let through -/

/-- The check of `csr`, with the addresses and commands as lists. -/
theorem CsrIn.illegal_eq (i : CsrIn) :
    i.illegal =
      if i.yType then decide (i.sysImm ∉ systemCommands)
      else i.cType && decide (i.sysImm ∉ implementedCsrs) := by
  rw [CsrIn.illegal, CsrIn.irqStop]
  cases i.yType with
  | true =>
    rw [Bool.eq_iff_iff]
    simp [systemCommands]
    tauto
  | false =>
    cases i.cType with
    | true =>
      rw [Bool.eq_iff_iff]
      simp [CsrIn.knownCsr, implementedCsrs, and_assoc]
    | false => rfl

namespace Core

variable (r : CoreRegs 32) (i : CoreIn 32)

/-- An illegal-instruction request, of `decode` or of `csr`. -/
def illegalRequest : Bool := (csrIn r i).irqIllegal || (csrIn r i).illegal

variable {r i}

/-- The request by the flags that the decoder sets. -/
theorem illegalRequest_of_type {t : InstrType} (hw : i.instruction ≠ 0)
    (ht : (decode i.instruction).toInstrType = t) :
    illegalRequest r i =
      (t.illegalOp || t.illegalFunct3 ||
        if t.yType then decide ((csrIn r i).sysImm ∉ systemCommands)
        else t.cType && decide ((csrIn r i).sysImm ∉ implementedCsrs)) := by
  have hnz : nonZeroCmd i = true := by simpa [nonZeroCmd] using hw
  subst ht
  rw [illegalRequest, CsrIn.illegal_eq]
  show ((_ || _) && nonZeroCmd i || _) = _
  rw [hnz, Bool.and_true]
  rfl

/-- The request of a word of which the decoder looks at the opcode only. -/
theorem illegalRequest_of_plain {t : InstrType} (hw : i.instruction ≠ 0)
    (ht : ∀ f3 rdOk rs1Ok, instrType (Isa.opcode i.instruction) f3 rdOk rs1Ok = t)
    (hy : t.yType = false) (hc : t.cType = false) :
    illegalRequest r i = (t.illegalOp || t.illegalFunct3) := by
  rw [illegalRequest_of_type hw (ht _ _ _), hy, hc]
  simp

/-- The flags by the fields of the instruction set. -/
theorem decode_type {w : BitVec 32} (hlow : (Isa.opcode w).extractLsb' 0 2 = 0b11) :
    (decode w).toInstrType =
      instrType (Isa.opcode w) (Isa.funct3 w) (Isa.rd w != 0) (Isa.rs1 w != 0) := by
  rw [decode_toInstrType, decode_funct3 rfl hlow]
  rfl

/-- A branch is refused if its `funct3` is undefined. -/
theorem illegalRequest_of_branch (hw : i.instruction ≠ 0)
    (hop : Isa.opcode i.instruction = Opcode.bType) :
    illegalRequest r i = true ↔ Isa.funct3 i.instruction = 2 ∨ Isa.funct3 i.instruction = 3 := by
  have ht := decode_type (w := i.instruction) (by rw [hop]; rfl)
  rw [hop] at ht
  rw [illegalRequest_of_type hw ht]
  simp [instrType, Opcode.bType, Opcode.rtype32, Opcode.rType, Opcode.sType]

/-- The immediate that `csr` sees of an I-type word. -/
theorem sysImm_of_iType (h : (decode i.instruction).iType = true)
    (hs : (decode i.instruction).sType = false) :
    (csrIn r i).sysImm = Isa.immI i.instruction := by
  show (if (decode i.instruction).sType then _ else if (decode i.instruction).iType then _
    else _ : BitVec 32).extractLsb' 0 12 = _
  rw [hs, h]
  show (immI i.instruction).extractLsb' 0 12 = _
  exact BitVec.extractLsb'_append_eq_right

/-- The flags of a SYSTEM word. -/
theorem decode_system (hop : Isa.opcode i.instruction = Opcode.system) :
    i.instruction ≠ 0 ∧ (decode i.instruction).toInstrType =
      instrType Opcode.system (Isa.funct3 i.instruction) (Isa.rd i.instruction != 0)
        (Isa.rs1 i.instruction != 0) := by
  refine ⟨?_, ?_⟩
  · intro h
    rw [h] at hop
    exact absurd hop (by decide)
  · rw [decode_type (by rw [hop]; rfl), hop]

/-- A CSR instruction is refused if there is no such register. -/
theorem illegalRequest_of_csr (hop : Isa.opcode i.instruction = Opcode.system)
    (h0 : Isa.funct3 i.instruction ≠ 0) (h4 : Isa.funct3 i.instruction ≠ 4) :
    illegalRequest r i = decide (Isa.immI i.instruction ∉ implementedCsrs) := by
  obtain ⟨hw, ht⟩ := decode_system hop
  rw [instrType_system, if_neg h4, if_pos h0] at ht
  rw [illegalRequest_of_type hw ht,
    sysImm_of_iType (congrArg InstrType.iType ht) (congrArg InstrType.sType ht)]
  rfl

/-- A command is refused if it names a register, or if there is no such command. -/
theorem illegalRequest_of_command (hop : Isa.opcode i.instruction = Opcode.system)
    (h0 : Isa.funct3 i.instruction = 0) :
    illegalRequest r i = if Isa.rs1 i.instruction = 0 ∧ Isa.rd i.instruction = 0
      then decide (Isa.immI i.instruction ∉ systemCommands) else true := by
  obtain ⟨hw, ht⟩ := decode_system hop
  rw [h0, instrType_system, if_neg (by decide), if_neg (by decide)] at ht
  by_cases hfields : Isa.rs1 i.instruction = 0 ∧ Isa.rd i.instruction = 0
  · rw [hfields.1, hfields.2] at ht
    rw [if_pos hfields, illegalRequest_of_type hw ht,
      sysImm_of_iType (congrArg InstrType.iType ht) (congrArg InstrType.sType ht)]
    rfl
  · have hor : ((!(Isa.rs1 i.instruction != 0)) && !(Isa.rd i.instruction != 0)) = false := by
      rw [Bool.and_eq_false_iff, Bool.not_eq_false', Bool.not_eq_false', bne_iff_ne, bne_iff_ne]
      exact not_and_or.mp hfields
    rw [hor] at ht
    rw [if_neg hfields, illegalRequest_of_type hw ht]
    rfl

theorem illegalRequest_of_undefined (hop : Isa.opcode i.instruction = Opcode.system)
    (h4 : Isa.funct3 i.instruction = 4) : illegalRequest r i = true := by
  obtain ⟨hw, ht⟩ := decode_system hop
  rw [h4, instrType_system, if_pos rfl] at ht
  rw [illegalRequest_of_type hw ht]
  rfl

/-- The request of a SYSTEM word. -/
theorem illegalRequest_of_system (hop : Isa.opcode i.instruction = Opcode.system) :
    illegalRequest r i = false ↔
      (Isa.funct3 i.instruction ≠ 0 ∧ Isa.funct3 i.instruction ≠ 4) ∧
          Isa.immI i.instruction ∈ implementedCsrs ∨
        Isa.funct3 i.instruction = 0 ∧ Isa.rd i.instruction = 0 ∧ Isa.rs1 i.instruction = 0 ∧
          Isa.immI i.instruction ∈ systemCommands := by
  by_cases h4 : Isa.funct3 i.instruction = 4
  · rw [illegalRequest_of_undefined hop h4, h4]
    simp
  by_cases h0 : Isa.funct3 i.instruction = 0
  · rw [illegalRequest_of_command hop h0, h0]
    by_cases hfields : Isa.rs1 i.instruction = 0 ∧ Isa.rd i.instruction = 0
    · rw [if_pos hfields, hfields.1, hfields.2, decide_eq_false_iff_not, not_not]
      simp
    · rw [if_neg hfields]
      simpa using fun hrd hrs1 ↦ absurd ⟨hrs1, hrd⟩ hfields
  · rw [illegalRequest_of_csr hop h0 h4, decide_eq_false_iff_not, not_not]
    constructor
    · intro himm
      exact .inl ⟨⟨h0, h4⟩, himm⟩
    · rintro (⟨-, himm⟩ | ⟨hf3, -⟩)
      · exact himm
      · exact absurd hf3 h0

end Core

/-! ## Where they differ -/

/-- The words that the decoder misjudges: FENCE is refused, although it is a base instruction;
the 32-bit operations of RV64I, the undefined `funct3` of JALR, loads and stores and the
undefined `funct7` of arithmetic are let through. -/
def Misjudged (w : BitVec 32) : Prop :=
  if Isa.opcode w = Opcode.iTypeJalr then Isa.funct3 w ≠ 0
  else if Isa.opcode w = Opcode.iTypeLoad then Isa.funct3 w = 3 ∨ Isa.funct3 w = 6
  else if Isa.opcode w = Opcode.sType then 3 ≤ Isa.funct3 w ∧ Isa.funct3 w ≤ 6
  else if Isa.opcode w = Opcode.iTypeAlu then
    Isa.funct3 w = 1 ∧ Isa.funct7 w ≠ 0 ∨
      Isa.funct3 w = 5 ∧ Isa.funct7 w ≠ 0 ∧ Isa.funct7 w ≠ 0x20
  else if Isa.opcode w = Opcode.rType then
    Isa.funct7 w ≠ 0 ∧ ¬(Isa.funct7 w = 0x20 ∧ (Isa.funct3 w = 0 ∨ Isa.funct3 w = 5))
  else if Isa.opcode w = 0b0001111 then Isa.funct3 w = 0
  else Isa.opcode w = Opcode.rtype32 ∨ Isa.opcode w = Opcode.itypeImm32

instance (w : BitVec 32) : Decidable (Misjudged w) := by
  unfold Misjudged
  infer_instance

section

variable {r : CoreRegs 32} {i : CoreIn 32}

/-- The request is raised for the word in flight exactly if it is not legal. -/
def RequestRight (r : CoreRegs 32) (i : CoreIn 32) : Prop :=
  Core.illegalRequest r i = true ↔ ¬ Legal i.instruction

theorem requestRight_of_accepted (h : Core.illegalRequest r i = false) :
    RequestRight r i ↔ LegalWord i.instruction := by
  rw [RequestRight, h, legal_iff]
  simp

theorem requestRight_of_refused (h : Core.illegalRequest r i = true) :
    RequestRight r i ↔ ¬ LegalWord i.instruction := by
  rw [RequestRight, h, legal_iff]
  simp

/-- The decoder looks at the opcode only, and accepts it. -/
theorem requestRight_of_opcode (hw : i.instruction ≠ 0) {op : BitVec 7} {t : InstrType}
    (hop : Isa.opcode i.instruction = op)
    (ht : ∀ f3 rdOk rs1Ok, instrType op f3 rdOk rs1Ok = t) (hy : t.yType = false)
    (hc : t.cType = false) (hill : (t.illegalOp || t.illegalFunct3) = false) :
    RequestRight r i ↔ LegalWord i.instruction :=
  requestRight_of_accepted
    ((Core.illegalRequest_of_plain hw (fun _ _ _ ↦ hop ▸ ht _ _ _) hy hc).trans hill)

/-- Of the opcodes with no further fields to check, those of the 32-bit operations are misjudged. -/
theorem requestRight_iff_of_plain (hw : i.instruction ≠ 0)
    (hjalr : Isa.opcode i.instruction ≠ Opcode.iTypeJalr)
    (hb : Isa.opcode i.instruction ≠ Opcode.bType)
    (hl : Isa.opcode i.instruction ≠ Opcode.iTypeLoad)
    (hs : Isa.opcode i.instruction ≠ Opcode.sType)
    (hi : Isa.opcode i.instruction ≠ Opcode.iTypeAlu)
    (hr : Isa.opcode i.instruction ≠ Opcode.rType)
    (hf : Isa.opcode i.instruction ≠ 0b0001111)
    (hy : Isa.opcode i.instruction ≠ Opcode.system) :
    RequestRight r i ↔ ¬(Isa.opcode i.instruction = Opcode.rtype32 ∨
      Isa.opcode i.instruction = Opcode.itypeImm32) := by
  have hlegal : LegalWord i.instruction ↔ Isa.opcode i.instruction = Opcode.uTypeLui ∨
      Isa.opcode i.instruction = Opcode.uTypeAuipc ∨
      Isa.opcode i.instruction = Opcode.uTypeJal := by
    rw [LegalWord, legalFields, if_neg hjalr, if_neg hb, if_neg hl, if_neg hs, if_neg hi,
      if_neg hr, if_neg hf, if_neg hy]
  by_cases hop32 : Isa.opcode i.instruction = Opcode.rtype32
  · rw [requestRight_of_opcode hw hop32 (fun _ _ _ ↦ rfl) rfl rfl rfl, hlegal, hop32]
    decide
  by_cases himm32 : Isa.opcode i.instruction = Opcode.itypeImm32
  · rw [requestRight_of_opcode hw himm32 (fun _ _ _ ↦ rfl) rfl rfl rfl, hlegal, himm32]
    decide
  by_cases hlui : Isa.opcode i.instruction = Opcode.uTypeLui
  · rw [requestRight_of_opcode hw hlui (fun _ _ _ ↦ rfl) rfl rfl rfl, hlegal, hlui]
    decide
  by_cases hauipc : Isa.opcode i.instruction = Opcode.uTypeAuipc
  · rw [requestRight_of_opcode hw hauipc (fun _ _ _ ↦ rfl) rfl rfl rfl, hlegal, hauipc]
    decide
  by_cases hjal : Isa.opcode i.instruction = Opcode.uTypeJal
  · rw [requestRight_of_opcode hw hjal (fun _ _ _ ↦ rfl) rfl rfl rfl, hlegal, hjal]
    decide
  -- no opcode of the decoder
  have hreq : Core.illegalRequest r i = true :=
    Core.illegalRequest_of_plain (t := { illegalOp := true }) hw
      (fun _ _ _ ↦ by simp [instrType, *]) rfl rfl
  rw [requestRight_of_refused hreq, hlegal]
  tauto

/-- The request is right about every word but those. -/
theorem requestRight_iff (hw : i.instruction ≠ 0) :
    RequestRight r i ↔ ¬ Misjudged i.instruction := by
  by_cases hjalr : Isa.opcode i.instruction = Opcode.iTypeJalr
  · rw [requestRight_of_opcode hw hjalr (fun _ _ _ ↦ rfl) rfl rfl rfl, LegalWord, Misjudged, hjalr]
    exact not_not.symm
  by_cases hl : Isa.opcode i.instruction = Opcode.iTypeLoad
  · rw [requestRight_of_opcode hw hl (fun _ _ _ ↦ rfl) rfl rfl rfl, LegalWord, Misjudged, hl]
    exact not_or.symm
  by_cases hs : Isa.opcode i.instruction = Opcode.sType
  · rw [requestRight_of_opcode hw hs (fun _ _ _ ↦ rfl) rfl rfl rfl, LegalWord, Misjudged, hs]
    show (_ ∨ _) ↔ ¬(_ ∧ _)
    generalize Isa.funct3 i.instruction = f3
    revert f3
    decide
  by_cases hi : Isa.opcode i.instruction = Opcode.iTypeAlu
  · rw [requestRight_of_opcode hw hi (fun _ _ _ ↦ rfl) rfl rfl rfl, LegalWord, Misjudged, hi]
    have hshift (p q a b : Prop) :
        (p → a) ∧ (q → a ∨ b) ↔ ¬(p ∧ ¬a ∨ q ∧ ¬a ∧ ¬b) := by tauto
    exact hshift _ _ _ _
  by_cases hr : Isa.opcode i.instruction = Opcode.rType
  · rw [requestRight_of_opcode hw hr (fun _ _ _ ↦ rfl) rfl rfl rfl, LegalWord, Misjudged, hr]
    show _ ∨ _ ↔ ¬(¬_ ∧ ¬_)
    rw [not_and_or, not_not, not_not]
  rw [Misjudged, if_neg hjalr, if_neg hl, if_neg hs, if_neg hi, if_neg hr]
  by_cases hf : Isa.opcode i.instruction = 0b0001111
  · have hreq : Core.illegalRequest r i = true :=
      Core.illegalRequest_of_plain (t := { illegalOp := true }) hw
        (fun _ _ _ ↦ by rw [hf]; rfl) rfl rfl
    rw [requestRight_of_refused hreq, LegalWord, hf]
    rfl
  rw [if_neg hf]
  by_cases hb : Isa.opcode i.instruction = Opcode.bType
  · rw [RequestRight, Core.illegalRequest_of_branch hw hb, legal_iff, LegalWord, hb]
    have hsame (a b : Prop) : a ∨ b ↔ ¬(¬a ∧ ¬b) := by tauto
    exact iff_of_true (hsame _ _) (by decide)
  by_cases hy : Isa.opcode i.instruction = Opcode.system
  · have hreq := Core.illegalRequest_of_system (r := r) hy
    rw [RequestRight, legal_iff, LegalWord, hy, ← Bool.not_eq_false, hreq]
    exact iff_of_true Iff.rfl (by decide)
  exact requestRight_iff_of_plain hw hjalr hb hl hs hi hr hf hy

/-- `ADDI x1, x0, 5` is let through, and a word with the opcode of branches and `funct3 = 2`, which
RV32I leaves undefined, is refused. -/
theorem requestRight_iff_addi :
    RequestRight ⟨0, true, Csr.reset false⟩ ⟨0x00500093, 0, 0, false, false, false⟩ ∧
      RequestRight ⟨0, true, Csr.reset false⟩ ⟨0x00002063, 0, 0, false, false, false⟩ ∧
      Core.illegalRequest ⟨0, true, Csr.reset false⟩ ⟨0x00002063, 0, 0, false, false, false⟩ =
        true :=
  ⟨(requestRight_iff (by decide)).mpr (by decide), (requestRight_iff (by decide)).mpr (by decide),
    by decide⟩

/-- `FENCE iorw, iorw` is refused, and a word with the opcode of loads and `funct3 = 3`, which
RV32I leaves undefined, is let through. -/
theorem not_requestRight_fence :
    ¬ RequestRight ⟨0, true, Csr.reset false⟩ ⟨0x0FF0000F, 0, 0, false, false, false⟩ ∧
      ¬ RequestRight ⟨0, true, Csr.reset false⟩ ⟨0x00003003, 0, 0, false, false, false⟩ := by
  constructor
  · rintro h
    exact h.mp (by decide) (.fence rfl rfl)
  · rintro h
    have hlegal : ¬ Legal 0x00003003 := by
      rw [legal_iff]
      intro hword
      exact hword.1 rfl
    exact absurd (h.mpr hlegal) (by decide)

end

end RtlCores.Riscv
