import RtlCores.Riscv.Formats
import RtlCores.Riscv.Trap

/-!
# A clock period executes an instruction

The state of the core seen as a hart, and for each format of the base instruction set a
lemma: the period in which the word is in flight does to the core what the instruction does
to the hart.  Targets of jumps are not checked by the core in that period; the refinement is
of the instruction without the check.
-/

namespace RtlCores.Riscv

open RtlCores.Lib RtlCores.Modules
open RtlCores.Riscv.Core (evenPc)

variable {xlen depth : Nat}

namespace State

/-- The state as a hart; its memory is the data memory. -/
def hart (s : State xlen depth) : Isa.Hart xlen where
  pc := s.core.pc.setWidth xlen
  regs := s.regMem
  mem := fun a ↦ if h : a.toNat < dmemDepth then s.dataMem.memx ⟨a.toNat, h⟩ else 0

/-- `pc` (modulo `2 ^ 32`), registers and data memory are those of the hart `h`. -/
structure Shows (s : State xlen depth) (h : Isa.Hart xlen) : Prop where
  pc : s.core.pc = h.pc.setWidth 32
  regMem : s.regMem = h.regs
  dataMem : ∀ i : Fin dmemDepth, s.dataMem.memx i = h.mem (BitVec.ofNat xlen i)

/-- A running state with `x0 = 0` and an aligned `pc`, while no interrupt line is high. -/
structure Steady (p : Inputs xlen) (s : State xlen depth) : Prop where
  imemReq : s.core.imemReq = true
  x0 : s.regMem 0 = 0
  aligned : s.core.pc.toNat % 4 = 0
  linesLow : p.irqExPending = false ∧ p.irqSwPending = false ∧ p.irqTimerPending = false

variable {p : Inputs xlen} {s : State xlen depth}

/-- Reading a register, `x0` included. -/
theorem Steady.get (h : Steady p s) (r : BitVec 5) : s.hart.get r = s.regMem r := by
  rw [Isa.Hart.get]
  split
  case isTrue hr => rw [hr, h.x0]
  case isFalse => rfl

/-! ## Legal words outside SYSTEM -/

theorem Steady.pc_bit (h : Steady p s) : s.core.pc.getLsbD 0 = false := by
  rw [BitVec.getLsbD, Nat.testBit_zero, decide_eq_false_iff_not]
  have := h.aligned
  omega

theorem Steady.interrupt (h : Steady p s) : s.core.csr.interrupt (s.csrIn p) = false := by
  obtain ⟨hex, hsw, htimer⟩ := h.linesLow
  have hline : Csr.lineHigh s.core.csr.mie (s.csrIn p) = false := by
    show (_ && p.irqExPending || _ && p.irqSwPending || _ && p.irqTimerPending) = false
    rw [hex, hsw, htimer, Bool.and_false, Bool.and_false, Bool.and_false]
    rfl
  rw [Csr.interrupt_eq, hline, Bool.and_false]

/-- A type that the decoder accepts and that is not a SYSTEM type. -/
def OfBase (t : InstrType) : Prop :=
  t.yType = false ∧ t.cType = false ∧ t.illegalOp = false ∧ t.illegalFunct3 = false

instance (t : InstrType) : Decidable (OfBase t) :=
  inferInstanceAs (Decidable (_ ∧ _ ∧ _ ∧ _))

theorem Steady.exception (h : Steady p s) (hbase : OfBase s.dec.toInstrType) :
    (s.csrIn p).exception = false := by
  obtain ⟨hy, hc, hop, hf3⟩ := hbase
  have hy' : (s.csrIn p).yType = false := hy
  have hc' : (s.csrIn p).cType = false := hc
  have hdec : (s.csrIn p).irqIllegal = false := by
    show ((s.dec.illegalOp || s.dec.illegalFunct3) && _) = false
    rw [hop, hf3]
    rfl
  have hcsr : (s.csrIn p).illegal = false := by
    rw [CsrIn.illegal, hy', hc']
    rfl
  refine exception_of_not_raises (irqAlign_of_even p s h.pc_bit) ?_
  rw [Raises, CsrIn.irqEcall, CsrIn.irqBreak, hy', hdec, hcsr]
  rfl

theorem Steady.plain (h : Steady p s) (hbase : OfBase s.dec.toInstrType) : Plain p s where
  irqStart := by
    show s.core.csr.irqStart (s.csrIn p) = false
    rw [Csr.irqStart_eq, h.interrupt, h.exception hbase]
    rfl
  yType := hbase.1
  cType := hbase.2.1

/-- Nothing happens to the CSRs. -/
theorem Steady.cycle_csr (h : Steady p s) (hbase : OfBase s.dec.toInstrType) :
    (s.cycle p).core.csr = { s.core.csr with irqStarted := false } := by
  have hen : s.core.csr.irqEn (s.csrIn p) = false := by
    rw [Csr.irqEn, h.interrupt, h.exception hbase]
    rfl
  rw [(h.plain hbase).cycle_csr, Csr.posedge, hen, Bool.and_false]

/-! ## The next address -/

/-- A word that is neither a jump nor a branch is followed by the next one. -/
theorem Plain.cycle_pc_next (h : Plain p s) (hreq : s.core.imemReq = true)
    (h32 : s.dec.is32bit = true) (hb : s.dec.bType = false) (hsel : s.ctl.pcSel = false) :
    (s.cycle p).core.pc = s.core.pc + 4 := by
  have hb' : (Core.dec ((s.negedge p).coreIn p)).bType = false := by
    show (s.negedge p).dec.bType = false
    rw [negedge_dec, hb]
  have htaken : Core.branchTaken ((s.negedge p).coreIn p) = false := by
    rw [Core.branchTaken, hb']
    rfl
  have h32' : (s.negedge p).dec.is32bit = true := by rw [negedge_dec, h32]
  have hreq' : (s.negedge p).core.imemReq = true := hreq
  rw [State.cycle_pc, if_pos hreq, h.negedge.nextPc, htaken, negedge_ctl, hsel,
    nextPcDefault_eq hreq' h32']
  rfl

/-! ## Registers -/

/-- The negedge write as a write to the hart. -/
theorem Plain.cycle_regMem (h : Plain p s) (hen : s.ctl.rfWrEn = true) :
    (s.cycle p).regMem = (s.hart.set s.dec.rdAddr (s.rfWrData p)).regs := by
  have hrd : s.dec.rdOk = (s.dec.rdAddr != 0) := rfl
  rw [State.cycle_regMem, h.rfWrEn, hen, Bool.true_and, hrd, Isa.Hart.set]
  by_cases hzero : s.dec.rdAddr = 0
  · rw [if_pos hzero, hzero]
    rfl
  · have hne : (s.dec.rdAddr != 0) = true := by rwa [bne_iff_ne]
    rw [if_neg hzero, hne]
    rfl

theorem Plain.cycle_regMem_of_not_wrEn (h : Plain p s) (hen : s.ctl.rfWrEn = false) :
    (s.cycle p).regMem = s.regMem := by
  rw [State.cycle_regMem, h.rfWrEn, hen, Bool.false_and, RegFile.write_false]

/-! ## Data memory -/

/-- An address of a data byte is not truncated. -/
theorem toNat_ofNat_dmem (hx : 32 ≤ xlen) (i : Fin dmemDepth) :
    (BitVec.ofNat xlen i).toNat = i.val := by
  have hlt : i.val < 2 ^ xlen :=
    lt_of_lt_of_le i.isLt (le_trans (by decide) (Nat.pow_le_pow_right (by decide) hx))
  rw [BitVec.toNat_ofNat, Nat.mod_eq_of_lt hlt]

theorem hart_mem_of_lt {a : BitVec xlen} (h : a.toNat < dmemDepth) :
    s.hart.mem a = s.dataMem.memx ⟨a.toNat, h⟩ := dif_pos h

theorem hart_mem (hx : 32 ≤ xlen) (i : Fin dmemDepth) :
    s.hart.mem (BitVec.ofNat xlen i) = s.dataMem.memx i := by
  have hnat := toNat_ofNat_dmem hx i
  rw [hart_mem_of_lt (by rw [hnat]; exact i.isLt)]
  congr 1
  exact Fin.ext hnat

/-- A byte of the data memory as the core addresses it. -/
theorem read_eq_hart_mem {a : BitVec xlen} {addr : BitVec 32} (haddr : addr.toNat = a.toNat)
    (h : a.toNat < dmemDepth) : s.dataMem.memx.read addr = s.hart.mem a := by
  rw [hart_mem_of_lt h, Memx.read, dif_pos (by rw [haddr]; exact h)]
  congr 1
  exact Fin.ext haddr

/-- The address on the data bus for the address `a` of the instruction. -/
theorem toNat_dmemAddr {a : BitVec xlen} (ha : s.aluRes p = a) (h : a.toNat < dmemDepth) :
    (s.dmemAddr p).toNat = a.toNat := by
  have hlt : a.toNat < 2 ^ 32 := lt_trans h (by decide)
  show ((s.aluRes p).setWidth 32).toNat = a.toNat
  rw [ha, BitVec.toNat_setWidth, Nat.mod_eq_of_lt hlt]

theorem toNat_add_ofNat {w k : Nat} {a : BitVec w} (h : a.toNat + k < 2 ^ w) :
    (a + BitVec.ofNat w k).toNat = a.toNat + k := by
  have hk : k < 2 ^ w := by omega
  rw [BitVec.toNat_add, BitVec.toNat_ofNat, Nat.mod_eq_of_lt hk, Nat.mod_eq_of_lt h]

/-- A load inside the data memory reads the bytes of the hart. -/
theorem memRdData_eq (hx : xlen = 32 ∨ xlen = 64) {n : Nat} (hn : AccessBytes xlen n)
    {a : BitVec xlen} (ha : s.aluRes p = a) (hin : a.toNat + n ≤ dmemDepth)
    (hreq : s.ctl.dmemReq = true) (hwr : s.ctl.dmemWr = false)
    (hsize : s.ctl.dmemSize = sizeFor n) :
    s.memRdData p = (s.hart.load n a).setWidth xlen := by
  have hpos : 0 < n := by
    rw [AccessBytes] at hn
    omega
  have hdepth : dmemDepth = 512 := rfl
  have hwide : 2 ^ 32 ≤ 2 ^ xlen := Nat.pow_le_pow_right (by decide) (by omega)
  have hlt : a.toNat < dmemDepth := by omega
  have haddr := toNat_dmemAddr ha hlt
  have hrange : dmemBaseAddress ≤ s.dmemAddr p ∧
      s.dmemAddr p < dmemBaseAddress + BitVec.ofNat 32 dmemDepth := by
    rw [BitVec.le_def, BitVec.lt_def, haddr]
    exact ⟨Nat.zero_le _, hlt⟩
  have hen : Memory.rdEn (s.dmemReqPorts p true) = true := by
    show (s.ctl.dmemReq && !s.ctl.dmemWr) = true
    rw [hreq, hwr]
    rfl
  have hdata : s.dataMem.rdData false (s.dmemReqPorts p true) =
      s.dataMem.memx.readBlock false (blockSize xlen (sizeFor n)) (s.dmemAddr p) := by
    show (if dmemDepth < (s.dmemAddr p).toNat then 0 else
      s.dataMem.regRdNow false (s.dmemReqPorts p true)) = _
    rw [if_neg (by omega), Memory.regRdNow_eq_readBlock _ _ _ (supportedWidth hx) hen, ← hsize]
    rfl
  rw [memRdData, if_pos hrange, hdata,
    Memx.readBlock_eq_leWord _ (blockSize_le_four hx _) (s.dmemAddr p), blockBytes_blockSize hx hn,
    Isa.Hart.load]
  congr 1
  apply leWord_congr
  intro k hk
  have hcore : (s.dmemAddr p + BitVec.ofNat 32 k).toNat = a.toNat + k := by
    rw [toNat_add_ofNat (by omega), haddr]
  have hspec : (a + BitVec.ofNat xlen k).toNat = a.toNat + k := toNat_add_ofNat (by omega)
  exact read_eq_hart_mem (hcore.trans hspec.symm) (by omega)

theorem toNat_sub_dmem (hx : xlen = 32 ∨ xlen = 64) (a : BitVec xlen) (i : Fin dmemDepth) :
    (BitVec.ofNat xlen i - a).toNat = (2 ^ xlen - a.toNat + i.val) % 2 ^ xlen := by
  rw [BitVec.toNat_sub, toNat_ofNat_dmem (by omega) i]

/-- The offset of a data byte from the address of an access. -/
theorem toNat_sub_lt_iff (hx : xlen = 32 ∨ xlen = 64) {a : BitVec xlen} {n : Nat}
    (hin : a.toNat + n ≤ dmemDepth) (i : Fin dmemDepth) :
    (BitVec.ofNat xlen i - a).toNat < n ↔ a.toNat ≤ i.val ∧ i.val < a.toNat + n := by
  have hi : i.val < 512 := i.isLt
  have hdepth : dmemDepth = 512 := rfl
  rw [toNat_sub_dmem hx]
  rcases hx with rfl | rfl <;> omega

/-- A store inside the data memory writes the bytes of the hart. -/
theorem cycle_dataMem_of_store (hx : xlen = 32 ∨ xlen = 64) {n : Nat} (hn : AccessBytes xlen n)
    {a : BitVec xlen} (ha : s.aluRes p = a) (hin : a.toNat + n ≤ dmemDepth)
    (hreq : s.ctl.dmemReq = true) (hwr : s.ctl.dmemWr = true)
    (hsize : s.ctl.dmemSize = sizeFor n) (i : Fin dmemDepth) :
    (s.cycle p).dataMem.memx i =
      (s.hart.store n a (s.regMem s.dec.rs2Addr)).mem (BitVec.ofNat xlen i) := by
  have hpos : 0 < n := by
    rw [AccessBytes] at hn
    omega
  have hdepth : dmemDepth = 512 := rfl
  have hi : i.val < 512 := i.isLt
  have hbytes := blockBytes_blockSize hx hn
  have haddr := toNat_dmemAddr ha (show a.toNat < dmemDepth by omega)
  have hen : Memory.wrEn (s.dmemReqPorts p true) = true := by
    show (s.ctl.dmemReq && s.ctl.dmemWr) = true
    rw [hreq, hwr]
    rfl
  have hwrite : (s.cycle p).dataMem.memx =
      Memx.write false s.dataMem.memx (blockSize xlen (sizeFor n)) (s.dmemAddr p)
        (dataHandler (sizeFor n) (s.regMem s.dec.rs2Addr)) := by
    show (if Memory.wrEn (s.dmemReqPorts p true) then
      Memx.write false s.dataMem.memx (blockSize xlen s.ctl.dmemSize) (s.dmemAddr p)
        (dataHandler s.ctl.dmemSize (s.regMem s.dec.rs2Addr))
      else s.dataMem.memx) = _
    rw [if_pos hen, hsize]
  rw [hwrite, Memx.write_apply _ (blockSize_le_four hx _) (by rw [hbytes]; exact hn.le hx)
    (by omega), hbytes, haddr]
  show _ = if (BitVec.ofNat xlen i - a).toNat < n then
    byteAt (s.regMem s.dec.rs2Addr) (BitVec.ofNat xlen i - a).toNat
    else s.hart.mem (BitVec.ofNat xlen i)
  by_cases hwin : a.toNat ≤ i.val ∧ i.val < a.toNat + n
  · have hoff : (BitVec.ofNat xlen i - a).toNat = i.val - a.toNat := by
      rw [toNat_sub_dmem hx]
      rcases hx with rfl | rfl <;> omega
    rw [if_pos hwin, if_pos ((toNat_sub_lt_iff hx hin i).mpr hwin), hoff,
      byteAt_dataHandler hx hn _ (by omega)]
  · rw [if_neg hwin, if_neg fun h ↦ hwin ((toNat_sub_lt_iff hx hin i).mp h),
      hart_mem (by omega)]

/-- No period writes `x0`. -/
theorem cycle_x0 (h : s.regMem 0 = 0) : (s.cycle p).regMem 0 = 0 := by
  rw [State.cycle_regMem]
  cases hen : s.rfWrEn p with
  | false => exact h
  | true =>
    have hrd : s.dec.rdAddr ≠ 0 := by
      have hand : (s.ctl.rfWrEn && s.dec.rdAddr != 0 && !s.irqStart p) = true := hen
      rw [Bool.and_eq_true, Bool.and_eq_true] at hand
      exact bne_iff_ne.mp hand.1.2
    rw [RegFile.write_true_apply, if_neg hrd.symm, h]

/-! ## One lemma for each format -/

/-- A word that neither stores nor branches leaves the data memory as the hart has it. -/
theorem Typed.cycle_dataMem {op : BitVec 7} {t : InstrType} (h : Typed s op t) (hx : 32 ≤ xlen)
    (hs : t.sType = false) (i : Fin dmemDepth) :
    (s.cycle p).dataMem.memx i = s.hart.mem (BitVec.ofNat xlen i) := by
  rw [cycle_dataMem_of_ne_store p s (h.ne_store hs), hart_mem hx]

/-- A word that puts a value into its destination register, and is followed by the next. -/
theorem Typed.shows_set {op : BitVec 7} {t : InstrType} (h : Typed s op t) (hst : Steady p s)
    (hx : 32 ≤ xlen) (hbase : OfBase t) (hs : t.sType = false) (hb : t.bType = false)
    (hlow : op.extractLsb' 0 2 = 0b11) (hsel : Control.pcSelOf op = false) {v : BitVec xlen}
    (hv : s.rfWrData p = v) :
    (s.cycle p).Shows { s.hart.set s.dec.rdAddr v with pc := s.hart.pc + 4 } := by
  have hplain : Plain p s := hst.plain (by rw [h.type]; exact hbase)
  have hb' : s.dec.bType = false := (congrArg InstrType.bType h.type).trans hb
  constructor
  · show _ = (s.core.pc.setWidth xlen + 4).setWidth 32
    rw [setWidth_add_four hx,
      hplain.cycle_pc_next hst.imemReq (h.is32bit hlow) hb' (h.pcSel.trans hsel)]
  · rw [hplain.cycle_regMem (by rw [h.rfWrEn, hs, hb]; rfl), hv]
  · intro i
    rw [h.cycle_dataMem hx hs, ← Isa.Hart.set_mem s.hart s.dec.rdAddr v]

section Formats

variable (hst : Steady p s) (hx : xlen = 32 ∨ xlen = 64)

include hst hx

theorem shows_lui (hop : Isa.opcode s.instruction = 0b0110111) :
    (s.cycle p).Shows
      ((Isa.Instr.lui (Isa.rd s.instruction) (Isa.immU s.instruction)).next s.hart) := by
  have h : Typed s _ { uType := true } := .of_opcode hop fun _ _ _ ↦ rfl
  refine h.shows_set hst (by omega) (by decide) rfl rfl rfl rfl ?_
  rw [(hst.plain (by rw [h.type]; decide)).rfWrData, h.rfWrDataSel]
  exact decode_immU h.type

theorem shows_auipc (hop : Isa.opcode s.instruction = 0b0010111) :
    (s.cycle p).Shows
      ((Isa.Instr.auipc (Isa.rd s.instruction) (Isa.immU s.instruction)).next s.hart) := by
  have h : Typed s _ { uType := true } := .of_opcode hop fun _ _ _ ↦ rfl
  have hplain : Plain p s := hst.plain (by rw [h.type]; decide)
  refine h.shows_set hst (by omega) (by decide) rfl rfl rfl rfl ?_
  rw [hplain.rfWrData, h.rfWrDataSel]
  show Core.aluResSigned s.core (s.coreIn p) = _
  have himm : s.dec.immediate.signExtend xlen =
      (Isa.immU s.instruction ++ 0#12).signExtend xlen := decode_immU h.type
  rw [h.aluResSigned rfl, h.aluRes_add hplain rfl rfl rfl, himm]
  rfl

theorem shows_opReg (op : Isa.ArithOp) (hop : Isa.opcode s.instruction = 0b0110011)
    (hf3 : Isa.funct3 s.instruction = op.funct3) (hf7 : Isa.funct7 s.instruction = op.funct7) :
    (s.cycle p).Shows ((Isa.Instr.opReg op (Isa.rd s.instruction) (Isa.rs1 s.instruction)
      (Isa.rs2 s.instruction)).next s.hart) := by
  have h : Typed s _ { rType := true } := .of_opcode hop fun _ _ _ ↦ rfl
  have hplain : Plain p s := hst.plain (by rw [h.type]; decide)
  refine h.shows_set hst (by omega) (by decide) rfl rfl rfl rfl ?_
  have haluOp : s.ctl.aluOp = aluOpFor op := h.aluOp_reg rfl hf3 hf7
  rw [hplain.rfWrData, h.rfWrDataSel]
  show Core.aluResSigned s.core (s.coreIn p) = _
  rw [h.aluResSigned rfl, hplain.aluRes, h.aluaSel, h.alubSel, haluOp, alu_aluOpFor hx,
    hst.get, hst.get]
  rfl

theorem shows_opImm (op : Isa.ArithOp) (hop : Isa.opcode s.instruction = 0b0010011)
    (hf3 : Isa.funct3 s.instruction = op.funct3) (hsub : op ≠ .sub)
    (hshift : op.isShift → Isa.shiftHigh s.instruction xlen = op.funct7) :
    (s.cycle p).Shows ((Isa.Instr.opImm op (Isa.rd s.instruction) (Isa.rs1 s.instruction)
      (Isa.immI s.instruction)).next s.hart) := by
  have h : Typed s _ { iType := true } := .of_opcode hop fun _ _ _ ↦ rfl
  have hplain : Plain p s := hst.plain (by rw [h.type]; decide)
  refine h.shows_set hst (by omega) (by decide) rfl rfl rfl rfl ?_
  have haluOp : s.ctl.aluOp = aluOpFor op := by
    refine h.aluOp_imm rfl rfl hf3 hsub fun hs ↦ ?_
    rw [← getLsbD_shiftHigh _ xlen, hshift hs]
  have himm : s.dec.immediate.signExtend xlen = (Isa.immI s.instruction).signExtend xlen :=
    decode_immI h.type
  rw [hplain.rfWrData, h.rfWrDataSel]
  show Core.aluResSigned s.core (s.coreIn p) = _
  rw [h.aluResSigned rfl, hplain.aluRes, h.aluaSel, h.alubSel, haluOp, alu_aluOpFor hx, hst.get,
    himm]
  rfl

theorem shows_load (op : Isa.LoadOp) (hop : Isa.opcode s.instruction = 0b0000011)
    (hf3 : Isa.funct3 s.instruction = op.funct3) (h64 : op.needs64 → xlen = 64)
    (hin : (s.hart.get (Isa.rs1 s.instruction) +
      (Isa.immI s.instruction).signExtend xlen).toNat + op.bytes ≤ dmemDepth) :
    (s.cycle p).Shows ((Isa.Instr.load op (Isa.rd s.instruction) (Isa.rs1 s.instruction)
      (Isa.immI s.instruction)).next s.hart) := by
  have h : Typed s _ { iType := true } := .of_opcode hop fun _ _ _ ↦ rfl
  have hplain : Plain p s := hst.plain (by rw [h.type]; decide)
  refine h.shows_set hst (by omega) (by decide) rfl rfl rfl rfl ?_
  have hload : Control.lType s.dec = true := by
    rw [Control.lType, h.type, h.opcode]
    rfl
  have haddr : s.aluRes p = s.hart.get (Isa.rs1 s.instruction) +
      (Isa.immI s.instruction).signExtend xlen := by
    have himm : s.dec.immediate.signExtend xlen = (Isa.immI s.instruction).signExtend xlen :=
      decode_immI h.type
    rw [h.aluRes_add hplain rfl rfl rfl, himm, hst.get]
    rfl
  have hsize : s.ctl.dmemSize = sizeFor op.bytes := by
    show Control.dmemSizeOf s.dec xlen = _
    rw [Control.dmemSizeOf, hload, h.funct3 rfl, hf3, Bool.or_true, if_pos rfl]
    cases op <;> rfl
  have hzero : s.ctl.dmemZeroEx = op.funct3.getLsbD 2 := by
    show (Control.lType s.dec && s.dec.funct3.getLsbD 2) = _
    rw [hload, Bool.true_and, h.funct3 rfl, hf3]
  rw [hplain.rfWrData, h.rfWrDataSel]
  show signExtender s.ctl.dmemSize s.ctl.dmemZeroEx (s.memRdData p) = _
  rw [memRdData_eq hx (accessBytes_load h64) haddr hin h.dmemReq h.dmemWr hsize, hsize, hzero,
    signExtender_load hx h64]

theorem shows_store (op : Isa.StoreOp) (hop : Isa.opcode s.instruction = 0b0100011)
    (hf3 : Isa.funct3 s.instruction = op.funct3) (h64 : op.needs64 → xlen = 64)
    (hin : (s.hart.get (Isa.rs1 s.instruction) +
      (Isa.immS s.instruction).signExtend xlen).toNat + op.bytes ≤ dmemDepth) :
    (s.cycle p).Shows ((Isa.Instr.store op (Isa.rs1 s.instruction) (Isa.rs2 s.instruction)
      (Isa.immS s.instruction)).next s.hart) := by
  have h : Typed s _ { sType := true } := .of_opcode hop fun _ _ _ ↦ rfl
  have hplain : Plain p s := hst.plain (by rw [h.type]; decide)
  have himm : s.dec.immediate.signExtend xlen = (Isa.immS s.instruction).signExtend xlen :=
    decode_immS h.type
  have haddr : s.aluRes p = s.hart.get (Isa.rs1 s.instruction) +
      (Isa.immS s.instruction).signExtend xlen := by
    rw [h.aluRes_add hplain rfl rfl rfl, himm, hst.get]
    rfl
  have hsize : s.ctl.dmemSize = sizeFor op.bytes := by
    show Control.dmemSizeOf s.dec xlen = _
    rw [Control.dmemSizeOf, show s.dec.sType = true from congrArg InstrType.sType h.type,
      h.funct3 rfl, hf3, Bool.true_or, if_pos rfl]
    cases op <;> rfl
  have hb : s.dec.bType = false := congrArg InstrType.bType h.type
  constructor
  · show _ = (s.core.pc.setWidth xlen + 4).setWidth 32
    rw [setWidth_add_four (by omega),
      hplain.cycle_pc_next hst.imemReq (h.is32bit rfl) hb h.pcSel]
  · exact hplain.cycle_regMem_of_not_wrEn h.rfWrEn
  · intro i
    rw [cycle_dataMem_of_store hx (accessBytes_store h64) haddr hin h.dmemReq h.dmemWr hsize,
      ← hst.get]
    rfl

end Formats

/-! ## Jumps and branches -/

/-- The target of a jump or branch is the sum of `pc` and the immediate; both are even. -/
theorem evenPc_target (hst : Steady p s) {n : Nat} {offset : BitVec n}
    (hoff : offset.getLsbD 0 = false) :
    evenPc (s.core.pc.setWidth xlen + offset.signExtend xlen) =
      (s.core.pc.setWidth xlen + offset.signExtend xlen).setWidth 32 := by
  have hpc : (s.core.pc.setWidth xlen).getLsbD 0 = false := by
    rw [BitVec.getLsbD_setWidth, hst.pc_bit, Bool.and_false]
  have himm : (offset.signExtend xlen).getLsbD 0 = false := by
    rcases Nat.eq_zero_or_pos n with rfl | hn
    · simp [BitVec.getLsbD_signExtend, BitVec.msb]
    · rw [BitVec.getLsbD_signExtend, if_pos hn, hoff, Bool.and_false]
  exact evenPc_of_even (getLsbD_zero_add hpc himm)

theorem getLsbD_zero_immJ (w : BitVec 32) : (Isa.immJ w).getLsbD 0 = false := by
  rw [Isa.immJ, BitVec.getLsbD_append]
  rfl

theorem getLsbD_zero_immB (w : BitVec 32) : (Isa.immB w).getLsbD 0 = false := by
  rw [Isa.immB, BitVec.getLsbD_append]
  rfl

/-- Without a wrap the link address is the same in both widths. -/
theorem setWidth_link (hx : 32 ≤ xlen) {pc : BitVec 32} (h : pc.toNat + 4 < 2 ^ 32) :
    (pc + 4).setWidth xlen = pc.setWidth xlen + 4 := by
  have hwide : 2 ^ 32 ≤ 2 ^ xlen := Nat.pow_le_pow_right (by decide) hx
  have hfour : (4 : BitVec xlen).toNat = 4 := Nat.mod_eq_of_lt (show 4 < 2 ^ xlen by omega)
  have hpc : (pc.setWidth xlen).toNat = pc.toNat := BitVec.toNat_setWidth_of_le hx
  apply BitVec.eq_of_toNat_eq
  rw [BitVec.toNat_setWidth_of_le hx, BitVec.toNat_add, BitVec.toNat_add, hpc, hfour,
    Nat.mod_eq_of_lt (show pc.toNat + 4 < 2 ^ xlen by omega)]
  exact Nat.mod_eq_of_lt h

/-- The word in flight is the same in the second half. -/
theorem Typed.negedge {op : BitVec 7} {t : InstrType} (h : Typed s op t) :
    Typed (s.negedge p) op t where
  opcode := by rw [negedge_dec, h.opcode]
  type := by rw [negedge_dec, h.type]

/-- A target relative to `pc`, in the half in which `pc` is written. -/
theorem Typed.aluRes_target {op : BitVec 7} {t : InstrType} (h : Typed s op t) (hplain : Plain p s)
    (hc : t.cType = false) (hi : (t.iType && op.getLsbD 4) = false) (hr : t.rType = false)
    (hsel : Control.aluaSelOf op = true) {n : Nat} {offset : BitVec n}
    (himm : s.dec.immediate.signExtend xlen = offset.signExtend xlen) :
    (s.negedge p).aluRes p = s.core.pc.setWidth xlen + offset.signExtend xlen := by
  rw [h.negedge.aluRes_add hplain.negedge hc hi hr, if_pos hsel, negedge_dec, himm]
  rfl

/-- The condition is evaluated on the registers of the first half. -/
theorem Typed.branchTaken (hst : Steady p s) (op : Isa.BranchOp)
    (h : Typed s 0b1100011 { bType := true }) (hf3 : Isa.funct3 s.instruction = op.funct3) :
    Core.branchTaken ((s.negedge p).coreIn p) =
      op.holds (s.hart.get (Isa.rs1 s.instruction)) (s.hart.get (Isa.rs2 s.instruction)) := by
  have hplain : Plain p s := hst.plain (by rw [h.type]; decide)
  have hregs : (s.negedge p).regMem = s.regMem := hplain.cycle_regMem_of_not_wrEn h.rfWrEn
  have hb : (s.negedge p).dec.bType = true := congrArg InstrType.bType h.negedge.type
  have hf3' : (s.negedge p).dec.funct3 = op.funct3 := by
    rw [negedge_dec, h.funct3 rfl, hf3]
  show branchControl (s.negedge p).dec.bType (s.negedge p).dec.funct3
    ((s.negedge p).regMem (s.negedge p).dec.rs1Addr)
    ((s.negedge p).regMem (s.negedge p).dec.rs2Addr) = _
  rw [hb, hf3', hregs, negedge_dec, branchControl_funct3, hst.get, hst.get]
  rfl

theorem shows_jal (hst : Steady p s) (hx : 32 ≤ xlen) (hpc : s.core.pc.toNat + 4 < 2 ^ 32)
    (hop : Isa.opcode s.instruction = 0b1101111) :
    (s.cycle p).Shows
      ((Isa.Instr.jal (Isa.rd s.instruction) (Isa.immJ s.instruction)).next s.hart) := by
  have h : Typed s _ { jType := true } := .of_opcode hop fun _ _ _ ↦ rfl
  have hplain : Plain p s := hst.plain (by rw [h.type]; decide)
  have hres : (s.negedge p).aluRes p =
      s.core.pc.setWidth xlen + (Isa.immJ s.instruction).signExtend xlen :=
    h.aluRes_target hplain rfl rfl rfl rfl (decode_immJ h.type)
  constructor
  · show _ = (s.core.pc.setWidth xlen + (Isa.immJ s.instruction).signExtend xlen).setWidth 32
    rw [← evenPc_target hst (getLsbD_zero_immJ _), State.cycle_pc, if_pos hst.imemReq,
      nextPc_of_jump, hres]
    rw [Core.pcJump, show (Core.ctl ((s.negedge p).coreIn p)).pcSel = true from h.negedge.pcSel]
    simp
  · rw [hplain.cycle_regMem h.rfWrEn, hplain.rfWrData, h.rfWrDataSel]
    show (s.hart.set _ ((Core.nextPcDefault s.core (s.coreIn p)).setWidth xlen)).regs =
      (s.hart.set _ (s.core.pc.setWidth xlen + 4)).regs
    rw [nextPcDefault_eq hst.imemReq (h.is32bit rfl), setWidth_link hx hpc]
    rfl
  · intro i
    rw [h.cycle_dataMem hx rfl, ← Isa.Hart.set_mem s.hart (Isa.rd s.instruction)]
    rfl

theorem shows_branch (hst : Steady p s) (hx : 32 ≤ xlen) (op : Isa.BranchOp)
    (hop : Isa.opcode s.instruction = 0b1100011) (hf3 : Isa.funct3 s.instruction = op.funct3) :
    (s.cycle p).Shows ((Isa.Instr.branch op (Isa.rs1 s.instruction) (Isa.rs2 s.instruction)
      (Isa.immB s.instruction)).next s.hart) := by
  have h := Typed.of_branch hop hf3
  have hplain : Plain p s := hst.plain (by rw [h.type]; decide)
  have hres : (s.negedge p).aluRes p =
      s.core.pc.setWidth xlen + (Isa.immB s.instruction).signExtend xlen :=
    h.aluRes_target hplain rfl rfl rfl rfl (decode_immB h.type)
  have hpc : (s.cycle p).core.pc =
      if op.holds (s.hart.get (Isa.rs1 s.instruction)) (s.hart.get (Isa.rs2 s.instruction)) then
        (s.core.pc.setWidth xlen + (Isa.immB s.instruction).signExtend xlen).setWidth 32
      else (s.core.pc.setWidth xlen + 4).setWidth 32 := by
    have hreq' : (s.negedge p).core.imemReq = true := hst.imemReq
    rw [State.cycle_pc, if_pos hst.imemReq, hplain.negedge.nextPc, h.branchTaken hst op hf3,
      h.negedge.pcSel, hres, nextPcDefault_eq hreq' (h.negedge.is32bit rfl),
      evenPc_target hst (getLsbD_zero_immB _), setWidth_add_four hx]
    show (if (_ || false) = true then _ else _) = _
    rw [Bool.or_false]
    rfl
  constructor
  · rw [hpc, Isa.Instr.next, Isa.Instr.target]
    split <;> rfl
  · exact hplain.cycle_regMem_of_not_wrEn h.rfWrEn
  · intro i
    exact h.cycle_dataMem hx rfl i

/-! ## The refinement -/

/-- The period in which an instruction is in flight does what the instruction does, its target
not checked. -/
theorem cycle_shows (hx : xlen = 32 ∨ xlen = 64) (hst : Steady p s)
    (hpc : s.core.pc.toNat + 4 < 2 ^ 32) {i : Isa.Instr} (henc : Isa.Encodes xlen s.instruction i)
    (hin : ∀ a n, i.access s.hart = some (a, n) → a.toNat + n ≤ dmemDepth) :
    (s.cycle p).Shows (i.next s.hart) := by
  cases henc with
  | lui hop => exact shows_lui hst hx hop
  | auipc hop => exact shows_auipc hst hx hop
  | jal hop => exact shows_jal hst (by omega) hpc hop
  | branch op hop hf3 => exact shows_branch hst (by omega) op hop hf3
  | load op hop hf3 h64 => exact shows_load hst hx op hop hf3 h64 (hin _ _ rfl)
  | store op hop hf3 h64 => exact shows_store hst hx op hop hf3 h64 (hin _ _ rfl)
  | opImm op hop hf3 hsub hshift => exact shows_opImm hst hx op hop hf3 hsub hshift
  | opReg op hop hf3 hf7 => exact shows_opReg hst hx op hop hf3 hf7

/-- The decoder takes the word for a base instruction, too. -/
theorem ofBase_of_encodes {i : Isa.Instr} (henc : Isa.Encodes xlen s.instruction i) :
    OfBase s.dec.toInstrType := by
  have hbase {op : BitVec 7} {t : InstrType} (h : Typed s op t) (ht : OfBase t) :
      OfBase s.dec.toInstrType := by
    rw [h.type]
    exact ht
  cases henc with
  | lui hop => exact hbase (.of_opcode hop fun _ _ _ ↦ rfl) (by decide)
  | auipc hop => exact hbase (.of_opcode hop fun _ _ _ ↦ rfl) (by decide)
  | jal hop => exact hbase (.of_opcode hop fun _ _ _ ↦ rfl) (by decide)
  | branch _ hop hf3 => exact hbase (.of_branch hop hf3) (by decide)
  | load _ hop => exact hbase (.of_opcode hop fun _ _ _ ↦ rfl) (by decide)
  | store _ hop => exact hbase (.of_opcode hop fun _ _ _ ↦ rfl) (by decide)
  | opImm _ hop => exact hbase (.of_opcode hop fun _ _ _ ↦ rfl) (by decide)
  | opReg _ hop => exact hbase (.of_opcode hop fun _ _ _ ↦ rfl) (by decide)

/-- An instruction is fetched from inside the instruction memory. -/
theorem pc_le_of_encodes {m : Memx depth} {pc : BitVec 32} {i : Isa.Instr}
    (henc : Isa.Encodes xlen (fetch m pc) i) : pc.toNat ≤ depth := by
  by_contra hlt
  apply henc.ne_zero
  rw [fetch, if_pos (by omega)]

/-- In both widths and from every steady state, the period in which a base instruction is in
flight leaves the `pc`, registers and data memory that the instruction set gives, `x0` stays 0
and no CSR changes; only a jump or taken branch to an address that is not a multiple of 4,
which the instruction set refuses, is executed all the same. -/
theorem cycle_refines_isa (hx : xlen = 32 ∨ xlen = 64) {verilator : Bool}
    {s : State xlen (instMemDepth verilator)} (hst : Steady p s) {i : Isa.Instr}
    (henc : Isa.Encodes xlen (fetch s.instructionMem.memx s.core.pc) i)
    (hin : ∀ a n, i.access s.hart = some (a, n) → a.toNat + n ≤ dmemDepth) :
    (∀ h', i.exec s.hart = .retired h' → (s.cycle p).Shows h') ∧
      (∀ t, i.exec s.hart = .misaligned t →
        (s.cycle p).Shows (i.next s.hart) ∧ (s.cycle p).core.pc = t.setWidth 32) ∧
      (s.cycle p).regMem 0 = 0 ∧
      { (s.cycle p).core.csr with irqStarted := s.core.csr.irqStarted } = s.core.csr := by
  have hpc := pc_le_of_encodes henc
  have hdepth : instMemDepth verilator ≤ 2 ^ 12 := by
    cases verilator with
    | false => decide
    | true => decide
  rw [← instruction_eq_fetch hst.imemReq] at henc
  have hshows := cycle_shows hx hst (by omega) henc hin
  refine ⟨?_, ?_, cycle_x0 hst.x0, ?_⟩
  · intro h' he
    rw [Isa.Instr.eq_next_of_retired he]
    exact hshows
  · intro t he
    obtain ⟨ht, -⟩ := Isa.Instr.target_of_misaligned he
    refine ⟨hshows, ?_⟩
    rw [hshows.pc, Isa.Instr.next, ht, Option.getD_some]
  · rw [hst.cycle_csr (ofBase_of_encodes henc)]

/-- `LW x2, 4(x0)` -/
theorem cycle_refines_isa_lw :
    let s : State 32 (instMemDepth false) := running [0x00402103] 0 (Csr.reset false) fun _ ↦ 0
    let i : Isa.Instr := .load .lw 2 0 4
    let p : Inputs 32 := irqLine false
    (∀ h', i.exec s.hart = .retired h' → (s.cycle p).Shows h') ∧
      (∀ t, i.exec s.hart = .misaligned t →
        (s.cycle p).Shows (i.next s.hart) ∧ (s.cycle p).core.pc = t.setWidth 32) ∧
      (s.cycle p).regMem 0 = 0 ∧
      { (s.cycle p).core.csr with irqStarted := s.core.csr.irqStarted } = s.core.csr := by
  intro s i p
  have hword : fetch s.instructionMem.memx s.core.pc = 0x00402103 := by decide +kernel
  refine cycle_refines_isa (.inl rfl) ⟨rfl, rfl, rfl, rfl, rfl, rfl⟩ ?_ ?_
  · rw [hword]
    exact .load .lw (by decide) (by decide) (by decide)
  · rintro a n ⟨⟩
    decide

/-- `JAL x1, 6` at address 0 jumps to 6 and links, where the instruction set raises an
exception. -/
theorem jal_misaligned_executed :
    let s : State 32 (instMemDepth false) := running [0x006000EF] 0 (Csr.reset false) fun _ ↦ 0
    let i : Isa.Instr := .jal 1 6
    let p : Inputs 32 := irqLine false
    Steady p s ∧ Isa.Encodes 32 (fetch s.instructionMem.memx s.core.pc) i ∧
      i.access s.hart = none ∧ i.exec s.hart = .misaligned 6 ∧
      (s.cycle p).core.pc = 6 ∧ (s.cycle p).regMem 1 ≠ s.regMem 1 := by
  intro s i p
  have hword : fetch s.instructionMem.memx s.core.pc = 0x006000EF := by decide +kernel
  have htarget : i.target s.hart = some 6 := by decide +kernel
  refine ⟨⟨rfl, rfl, rfl, rfl, rfl, rfl⟩, ?_, rfl, ?_, by decide +kernel, by decide +kernel⟩
  · rw [hword]
    exact .jal (by decide)
  · rw [Isa.Instr.exec, htarget]
    exact if_neg (by decide)

end State

end RtlCores.Riscv
