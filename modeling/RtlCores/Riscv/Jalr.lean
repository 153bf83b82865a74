import RtlCores.Riscv.Formats

/-!
# Jump and link through a register

The link register is written at the negedge and the target is formed until the posedge.
When the link register is also the base of the jump, the second half of the period forms
the target from the link address.
-/

namespace RtlCores.Riscv

open RtlCores.Lib RtlCores.Modules

variable {xlen depth : Nat}

namespace State

variable (p : Inputs xlen) (s : State xlen depth)

/-- The instruction in flight is JALR. -/
structure IsJalr : Prop where
  opcode : s.dec.opcode = Opcode.iTypeJalr
  funct3 : s.dec.funct3 = 0

instance : Decidable s.IsJalr :=
  decidable_of_iff (s.dec.opcode = Opcode.iTypeJalr ∧ s.dec.funct3 = 0)
    ⟨fun h ↦ ⟨h.1, h.2⟩, fun h ↦ ⟨h.1, h.2⟩⟩

/-- The sign-extended 12-bit immediate of the instruction in flight. -/
def offset12 : BitVec xlen := (s.instruction.extractLsb' 20 12).signExtend xlen

/-- What JALR is to do: jump to `rs1` plus the immediate with bit 0 cleared, and link. -/
def JalrDone : Prop :=
  (s.cycle p).core.pc = Core.evenPc (s.regMem s.dec.rs1Addr + s.offset12) ∧
    (s.dec.rdAddr ≠ 0 → (s.cycle p).regMem s.dec.rdAddr = (s.core.pc + 4).setWidth xlen)

variable {p s}

namespace IsJalr

theorem typed (h : s.IsJalr) : Typed s Opcode.iTypeJalr { iType := true } :=
  .of_opcode h.opcode fun _ _ _ ↦ rfl

theorem plain (h : s.IsJalr) (hstart : s.irqStart p = false) : Plain p s :=
  h.typed.plain hstart rfl rfl

theorem negedge (h : s.IsJalr) : (s.negedge p).IsJalr where
  opcode := by rw [negedge_dec, h.opcode]
  funct3 := by rw [negedge_dec, h.funct3]

/-- In either half the target is formed from what `rs1` holds in that half. -/
theorem nextPc (h : s.IsJalr) (hstart : s.irqStart p = false) :
    s.nextPc p = Core.evenPc (s.regMem s.dec.rs1Addr + s.offset12) := by
  have himm : s.dec.immediate.signExtend xlen = s.offset12 := decode_immI h.typed.type
  have hsel : s.ctl.pcSel = true := h.typed.pcSel
  rw [(h.plain hstart).nextPc, hsel, Bool.or_true, if_pos rfl,
    h.typed.aluRes_add (h.plain hstart) rfl rfl rfl, himm]
  rfl

/-- The register file in the second half of the period. -/
theorem negedge_regMem (h : s.IsJalr) (hreq : s.core.imemReq = true)
    (hstart : s.irqStart p = false) :
    (s.negedge p).regMem =
      s.regMem.write s.dec.rdOk s.dec.rdAddr ((s.core.pc + 4).setWidth xlen) := by
  have hplain := h.plain hstart
  rw [State.negedge_regMem, hplain.rfWrEn, hplain.rfWrData, h.typed.rfWrEn, h.typed.rfWrDataSel]
  show s.regMem.write (true && s.dec.rdOk) s.dec.rdAddr
    ((Core.nextPcDefault s.core (s.coreIn p)).setWidth xlen) = _
  rw [nextPcDefault_eq hreq (h.typed.is32bit rfl), Bool.true_and]

end IsJalr

/-- The value from which the second half of the period forms the target of a JALR. -/
def jalrBase : BitVec xlen :=
  if s.dec.rdAddr = s.dec.rs1Addr ∧ s.dec.rdAddr ≠ 0 then (s.core.pc + 4).setWidth xlen
  else s.regMem s.dec.rs1Addr

theorem rdOk_eq : s.dec.rdOk = (s.dec.rdAddr != 0) := rfl

theorem IsJalr.cycle_pc (h : s.IsJalr) (hreq : s.core.imemReq = true)
    (hstart : s.irqStart p = false) :
    (s.cycle p).core.pc = Core.evenPc (s.jalrBase + s.offset12) := by
  have hbase : (s.negedge p).regMem (s.negedge p).dec.rs1Addr = s.jalrBase := by
    rw [negedge_dec, h.negedge_regMem hreq hstart, rdOk_eq, jalrBase]
    by_cases hrd : s.dec.rdAddr = 0
    · simp [hrd]
    · have hne : (s.dec.rdAddr != 0) = true := by simpa using hrd
      rw [hne, RegFile.write_true_apply]
      by_cases hrs : s.dec.rs1Addr = s.dec.rdAddr
      · rw [if_pos hrs, if_pos ⟨hrs.symm, hrd⟩]
      · rw [if_neg hrs, if_neg fun hc ↦ hrs hc.1.symm]
  have hoff : (s.negedge p).offset12 = s.offset12 := by
    rw [offset12, negedge_instruction, offset12]
  rw [State.cycle_pc, hreq, if_pos rfl,
    h.negedge.nextPc (h.plain hstart).negedge.irqStart, hbase, hoff]

/-- The link register is always right. -/
theorem IsJalr.cycle_link (h : s.IsJalr) (hreq : s.core.imemReq = true)
    (hstart : s.irqStart p = false) (hrd : s.dec.rdAddr ≠ 0) :
    (s.cycle p).regMem s.dec.rdAddr = (s.core.pc + 4).setWidth xlen := by
  have hne : s.dec.rdOk = true := by
    rw [rdOk_eq, bne_iff_ne]
    exact hrd
  show (s.negedge p).regMem s.dec.rdAddr = _
  rw [h.negedge_regMem hreq hstart, hne, RegFile.write_true_apply, if_pos rfl]

/-- JALR does what it is to do exactly when the link register is not its base register, or
is `x0`, or happens to be overwritten with a value that leads to the same target. -/
theorem jalrDone_iff (hreq : s.core.imemReq = true) (hstart : s.irqStart p = false)
    (h : s.IsJalr) :
    s.JalrDone p ↔
      s.dec.rdAddr ≠ s.dec.rs1Addr ∨ s.dec.rdAddr = 0 ∨
        Core.evenPc ((s.core.pc + 4).setWidth xlen + s.offset12) =
          Core.evenPc (s.regMem s.dec.rs1Addr + s.offset12) := by
  rw [JalrDone, h.cycle_pc hreq hstart, jalrBase]
  constructor
  · rintro ⟨hpc, -⟩
    by_cases hsame : s.dec.rdAddr = s.dec.rs1Addr ∧ s.dec.rdAddr ≠ 0
    · rw [if_pos hsame] at hpc
      exact .inr (.inr hpc)
    · rw [not_and_or, not_not] at hsame
      rcases hsame with hne | hzero
      · exact .inl hne
      · exact .inr (.inl hzero)
  · intro hok
    refine ⟨?_, h.cycle_link hreq hstart⟩
    by_cases hsame : s.dec.rdAddr = s.dec.rs1Addr ∧ s.dec.rdAddr ≠ 0
    · rw [if_pos hsame]
      rcases hok with hne | hzero | heq
      · exact absurd hsame.1 hne
      · exact absurd hzero hsame.2
      · exact heq
    · rw [if_neg hsame]

/-- `JALR x1, 8(x2)` -/
theorem jalrDone_iff_x1_x2 :
    let s : State 32 1024 :=
      running [0x008100E7] 0 (Csr.reset false) fun a ↦ if a = 2 then 0x100 else 0
    s.JalrDone (irqLine false) :=
  (jalrDone_iff (by decide +kernel) (by decide +kernel) (by decide +kernel)).mpr
    (.inl (by decide +kernel))

/-- `JALR x1, 8(x1)` with `x1 = 0x100` at address 0 jumps to 12. -/
theorem not_jalrDone_x1_x1 :
    let s : State 32 1024 :=
      running [0x008080E7] 0 (Csr.reset false) fun a ↦ if a = 1 then 0x100 else 0
    s.core.imemReq = true ∧ s.irqStart (irqLine false) = false ∧ s.IsJalr ∧
      ¬ s.JalrDone (irqLine false) := by
  intro s
  refine ⟨by decide +kernel, by decide +kernel, by decide +kernel, ?_⟩
  rintro ⟨hpc, -⟩
  revert hpc
  decide +kernel

end State

end RtlCores.Riscv
