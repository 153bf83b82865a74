import RtlCores.Riscv.BaseIsa
import RtlCores.Riscv.Cycle

/-!
# Formats

What the decoder and the control unit say about a word of a given opcode, and what the ALU
computes for it.
-/

namespace RtlCores.Riscv

open RtlCores.Lib RtlCores.Modules

variable {xlen depth : Nat}

namespace State

variable {p : Inputs xlen} {s : State xlen depth}

/-- The word in flight has the opcode `op`, for which the decoder sets the flags `t`. -/
structure Typed (s : State xlen depth) (op : BitVec 7) (t : InstrType) : Prop where
  opcode : s.dec.opcode = op
  type : s.dec.toInstrType = t

namespace Typed

variable {op : BitVec 7} {t : InstrType}

/-- Where the flags depend on the opcode alone. -/
theorem of_opcode (hop : Isa.opcode s.instruction = op)
    (ht : ∀ funct3 rdOk rs1Ok, instrType op funct3 rdOk rs1Ok = t) : Typed s op t where
  opcode := hop
  type := by
    rw [← ht s.dec.funct3 s.dec.rdOk s.dec.rs1Ok, ← hop]
    rfl

/-- A branch with one of the conditions. -/
theorem of_branch {op : Isa.BranchOp} (hop : Isa.opcode s.instruction = 0b1100011)
    (hf3 : Isa.funct3 s.instruction = op.funct3) : Typed s 0b1100011 { bType := true } where
  opcode := hop
  type := by
    have hop' : (decode s.instruction).opcode = 0b1100011 := hop
    have hf3' : (decode s.instruction).funct3 = op.funct3 := (decode_funct3 hop' rfl).trans hf3
    show (decode s.instruction).toInstrType = _
    rw [decode_toInstrType, hop', hf3']
    cases op <;> rfl

/-- What is neither a system command nor a CSR instruction is plain while no trap starts. -/
theorem plain (h : Typed s op t) (hstart : s.irqStart p = false) (hy : t.yType = false)
    (hc : t.cType = false) : Plain p s where
  irqStart := hstart
  yType := (congrArg InstrType.yType h.type).trans hy
  cType := (congrArg InstrType.cType h.type).trans hc

theorem is32bit (h : Typed s op t) (hlow : op.extractLsb' 0 2 = 0b11) : s.dec.is32bit = true :=
  decode_is32bit (by rw [show (decode s.instruction).opcode = op from h.opcode, hlow])

theorem funct3 (h : Typed s op t) (hlow : op.extractLsb' 0 2 = 0b11) :
    s.dec.funct3 = Isa.funct3 s.instruction :=
  decode_funct3 h.opcode hlow

theorem pcSel (h : Typed s op t) : s.ctl.pcSel = Control.pcSelOf op :=
  congrArg Control.pcSelOf h.opcode

theorem aluaSel (h : Typed s op t) : s.ctl.aluaSel = Control.aluaSelOf op :=
  congrArg Control.aluaSelOf h.opcode

theorem alubSel (h : Typed s op t) : s.ctl.alubSel = !t.rType :=
  congrArg (fun t : InstrType ↦ !t.rType) h.type

theorem rfWrEn (h : Typed s op t) : s.ctl.rfWrEn = (!t.sType && !t.bType) :=
  congrArg (fun t : InstrType ↦ !t.sType && !t.bType) h.type

theorem rfWrDataSel (h : Typed s op t) : s.ctl.rfWrDataSel = Control.rfWrDataSelOf op :=
  congrArg Control.rfWrDataSelOf h.opcode

theorem dmemWr (h : Typed s op t) : s.ctl.dmemWr = t.sType := congrArg InstrType.sType h.type

theorem dmemReq (h : Typed s op t) :
    s.ctl.dmemReq = (t.sType || t.iType && !op.getLsbD 4 && !op.getLsbD 5) := by
  show (s.dec.sType || s.dec.iType && !s.dec.opcode[4] && !s.dec.opcode[5]) = _
  rw [show s.dec.sType = t.sType from congrArg InstrType.sType h.type,
    show s.dec.iType = t.iType from congrArg InstrType.iType h.type, h.opcode]
  rfl

/-- Outside arithmetic the ALU adds. -/
theorem aluOp (h : Typed s op t) (hc : t.cType = false) (hi : (t.iType && op.getLsbD 4) = false)
    (hr : t.rType = false) : s.ctl.aluOp = .add := by
  have hi' : (t.iType && op[4]) = false := hi
  show Control.aluOpOf s.dec = .add
  rw [Control.aluOpOf, show s.dec.cType = t.cType from congrArg InstrType.cType h.type,
    show s.dec.iType = t.iType from congrArg InstrType.iType h.type,
    show s.dec.rType = t.rType from congrArg InstrType.rType h.type, h.opcode, hc, hi', hr]
  rfl

/-- The operation of a register-register word. -/
theorem aluOp_reg {word : Bool} (h : Typed s op { rType := true, isOp32 := word })
    (hlow : op.extractLsb' 0 2 = 0b11) {a : Isa.ArithOp}
    (hf3 : Isa.funct3 s.instruction = a.funct3) (hf7 : Isa.funct7 s.instruction = a.funct7) :
    s.ctl.aluOp = aluOpFor a := by
  have hf7' : s.dec.funct7 = a.funct7 := hf7
  have htype : s.dec.toInstrType = { rType := true, isOp32 := word } := h.type
  show Control.aluOpOf s.dec = _
  rw [Control.aluOpOf, htype, h.funct3 hlow, hf3, hf7', ← arithOp_reg]
  rfl

/-- The operation of a register-immediate word. -/
theorem aluOp_imm {word : Bool} (h : Typed s op { iType := true, isOp32 := word })
    (hlow : op.extractLsb' 0 2 = 0b11) (harith : op.getLsbD 4 = true) {a : Isa.ArithOp}
    (hf3 : Isa.funct3 s.instruction = a.funct3) (hsub : a ≠ .sub)
    (hbit : a.isShift → (Isa.funct7 s.instruction).getLsbD 5 = a.funct7.getLsbD 5) :
    s.ctl.aluOp = aluOpFor a := by
  have harith' : op[4] = true := harith
  have hf7 : s.dec.funct7 = Isa.funct7 s.instruction := rfl
  show Control.aluOpOf s.dec = _
  rw [Control.aluOpOf, h.type, h.opcode, harith', h.funct3 hlow, hf3, hf7,
    ← arithOp_imm a hsub hbit]
  rfl

/-- The sum of an address and the immediate. -/
theorem aluRes_add (h : Typed s op t) (hplain : Plain p s) (hc : t.cType = false)
    (hi : (t.iType && op.getLsbD 4) = false) (hr : t.rType = false) :
    s.aluRes p =
      (if Control.aluaSelOf op then s.core.pc.setWidth xlen else s.regMem s.dec.rs1Addr) +
        s.dec.immediate.signExtend xlen := by
  rw [hplain.aluRes, h.aluOp hc hi hr, h.aluaSel, h.alubSel, hr, alu_eq_aluDataflow]
  rfl

/-- Only the 32-bit operations cut the result. -/
theorem aluResSigned (h : Typed s op t) (h32 : t.isOp32 = false) :
    Core.aluResSigned s.core (s.coreIn p) = s.aluRes p := by
  have hop32 : (Core.dec (s.coreIn p)).isOp32 = false := by
    show s.dec.toInstrType.isOp32 = false
    rw [h.type, h32]
  rw [Core.aluResSigned, hop32]
  show (if 32 < xlen then s.aluRes p else s.aluRes p) = _
  rw [ite_self]

theorem ne_store (h : Typed s op t) (hs : t.sType = false) : s.dec.opcode ≠ Opcode.sType := by
  intro hop
  have hst : s.dec.sType = (s.dec.opcode == Opcode.sType) := decode_sType s.instruction
  rw [show s.dec.sType = t.sType from congrArg InstrType.sType h.type, hs, hop] at hst
  contradiction

end Typed

end State

end RtlCores.Riscv
