import RtlCores.Riscv.Cycle

/-!
# Trap entry

A trap is meant to load `pc` with the trap vector and to abort the instruction in flight.
The vector is formed by the ALU from the operands `mtvec` and `offset`, with the operation
still selected by the aborted instruction; `AluOp.ReachesSum` says for which operands each
operation forms their sum.
-/

namespace RtlCores.Riscv

open RtlCores.Lib RtlCores.Modules

variable {xlen depth : Nat}

namespace Csr

variable (r : Csr xlen) (i : CsrIn)

/-- The code of the pending cause, without the bit that marks an interrupt. -/
def causeCode : BitVec 32 := r.mcauseCode i &&& 0x7FFFFFFF

/-- `mtvec` with its two mode bits cleared. -/
def vectorBase : BitVec 32 := r.mtvec.extractLsb' 2 30 ++ 0#2

/-- Where the pending trap is to go: the base, or in vectored mode for an interrupt the base
plus four times the cause code. -/
def trapVector : BitVec 32 :=
  if r.interrupt i && r.mtvec.getLsbD 0 then r.vectorBase + 4 * r.causeCode i else r.vectorBase

/-- The interrupts are tested before the exceptions, and only their codes have bit 31. -/
theorem getLsbD_mcauseCode : (r.mcauseCode i).getLsbD 31 = r.interrupt i := by
  rw [mcauseCode, interrupt]
  split
  case isTrue he =>
    rw [he]
    simp
  case isFalse he =>
  split
  case isTrue hs =>
    rw [hs]
    simp
  case isFalse hs =>
  split
  case isTrue ht =>
    rw [ht]
    simp
  case isFalse ht =>
  rw [Bool.not_eq_true] at he hs ht
  rw [he, hs, ht]
  -- the codes of the exceptions
  repeat' split
  all_goals decide

/-- The three interrupts that the core knows. -/
theorem mcauseCode_of_interrupt (h : r.interrupt i = true) :
    r.mcauseCode i = 0x8000000B ∨ r.mcauseCode i = 0x80000003 ∨ r.mcauseCode i = 0x80000007 := by
  rw [interrupt, Bool.or_eq_true, Bool.or_eq_true] at h
  rw [mcauseCode]
  cases he : r.irqExternal i with
  | true => exact .inl rfl
  | false =>
    cases hs : r.irqSoftware i with
    | true => exact .inr (.inl rfl)
    | false =>
      rw [he, hs] at h
      rcases h with (h | h) | ht
      · contradiction
      · contradiction
      · rw [ht]
        exact .inr (.inr rfl)

theorem getLsbD_mcauseData (hx : 32 ≤ xlen) :
    (r.mcauseData i).getLsbD 31 = r.interrupt i := by
  rw [mcauseData, BitVec.getLsbD_setWidth, getLsbD_mcauseCode, decide_eq_true (by omega),
    Bool.true_and]

theorem offset_of_not_vectored (hx : 32 ≤ xlen)
    (h : (r.interrupt i && r.mtvec.getLsbD 0) = false) : r.offset i = 0 := by
  rw [offset, r.getLsbD_mcauseData i hx, h]
  rfl

theorem offset_of_vectored (hx : 32 ≤ xlen)
    (h : (r.interrupt i && r.mtvec.getLsbD 0) = true) :
    r.offset i = (4 * r.causeCode i).setWidth xlen := by
  have hcode : (r.mcauseData i).extractLsb' 0 30 = (r.mcauseCode i).extractLsb' 0 30 :=
    BitVec.extractLsb'_setWidth_of_le (by omega)
  rw [offset, r.getLsbD_mcauseData i hx, h, if_pos rfl, hcode, causeCode]
  rw [Bool.and_eq_true] at h
  rcases r.mcauseCode_of_interrupt i h.1 with hc | hc | hc <;> rw [hc] <;> rfl

/-- The offset is a small multiple of four. -/
theorem offset_cases (hx : 32 ≤ xlen) :
    ∃ k : BitVec 32, (k = 0 ∨ k = 44 ∨ k = 12 ∨ k = 28) ∧ r.offset i = k.setWidth xlen := by
  cases h : r.interrupt i && r.mtvec.getLsbD 0 with
  | false => exact ⟨0, .inl rfl, by simpa using r.offset_of_not_vectored i hx h⟩
  | true =>
    refine ⟨4 * r.causeCode i, ?_, r.offset_of_vectored i hx h⟩
    rw [Bool.and_eq_true] at h
    rw [causeCode]
    rcases r.mcauseCode_of_interrupt i h.1 with hc | hc | hc <;> rw [hc]
    · exact .inr (.inl rfl)
    · exact .inr (.inr (.inl rfl))
    · exact .inr (.inr (.inr rfl))

/-- The base and the offset add up to the vector. -/
theorem setWidth_base_add_offset (hx : 32 ≤ xlen) :
    (splice r.mtvec 0 0#2 + r.offset i).setWidth 32 = r.trapVector i := by
  have hbase : (splice r.mtvec 0 0#2).setWidth 32 = r.vectorBase := by
    ext k hk
    have hkx : k < xlen := by omega
    rw [BitVec.getElem_setWidth, BitVec.getLsbD_eq_getElem hkx, getElem_splice, vectorBase,
      BitVec.getElem_append]
    by_cases h2 : k < 2
    · simp [h2]
    · have hk2 : 2 + (k - 2) = k := by omega
      simp [h2, hk2, hkx]
  rw [BitVec.setWidth_add _ _ hx, hbase, trapVector]
  cases h : r.interrupt i && r.mtvec.getLsbD 0 with
  | false => simp [r.offset_of_not_vectored i hx h]
  | true =>
    rw [r.offset_of_vectored i hx h, BitVec.setWidth_setWidth_of_le _ hx]
    simp

end Csr

/-! ## Which operations form the sum -/

open RtlCores.Riscv.Core (evenPc)

/-- The bits of `base` and `off` for which `op` forms their sum modulo `2 ^ 32`, bit 0
aside. -/
def AluOp.ReachesSum (op : AluOp) (base off : BitVec xlen) : Prop :=
  let shamt := (off.extractLsb' 0 (Nat.clog 2 xlen)).toNat
  match op with
  | .add => True
  | .sub => off.setWidth 32 = 0
  | .xor | .or => (base &&& off).setWidth 32 = 0
  | .and => base.setWidth 32 = 0 ∧ off.setWidth 32 = 0
  | .slt | .sltu => (base + off).setWidth 32 = 0
  | .sll => off = 0 ∨ evenPc (base <<< shamt) = (base + off).setWidth 32
  | .srl => off = 0 ∨ evenPc (base >>> shamt) = (base + off).setWidth 32
  | .sra => off = 0 ∨ evenPc (base.sshiftRight shamt) = (base + off).setWidth 32

instance (op : AluOp) (base off : BitVec xlen) : Decidable (op.ReachesSum base off) := by
  unfold AluOp.ReachesSum
  cases op <;> infer_instance

theorem evenPc_of_even {v : BitVec xlen} (h : v.getLsbD 0 = false) :
    evenPc v = v.setWidth 32 := by
  ext k hk
  rw [evenPc, BitVec.getElem_append, BitVec.getElem_setWidth]
  by_cases h0 : k < 1
  · obtain rfl : k = 0 := by omega
    simp [h]
  · have hk1 : 1 + (k - 1) = k := by omega
    simp [h0, hk1]

/-- A comparison result sends `pc` to 0. -/
theorem evenPc_ite (P : Prop) [Decidable P] :
    evenPc (if P then (1 : BitVec xlen) else 0) = 0 := by
  have hone : evenPc (1 : BitVec xlen) = 0 := by
    ext k hk
    rw [evenPc, BitVec.getElem_append]
    by_cases h0 : k < 1
    · simp [h0]
    · simp [h0, BitVec.getLsbD_one]
  have hzero : evenPc (0 : BitVec xlen) = 0 := by simp [evenPc]
  split
  · exact hone
  · exact hzero

theorem getLsbD_zero_add {x y : BitVec xlen} (hx0 : x.getLsbD 0 = false)
    (hy0 : y.getLsbD 0 = false) : (x + y).getLsbD 0 = false := by
  by_cases hpos : 0 < xlen
  · rw [BitVec.getLsbD_add hpos, BitVec.carry_zero, hx0, hy0]
    rfl
  · exact BitVec.getLsbD_of_ge _ _ (by omega)

theorem getLsbD_zero_neg {x : BitVec xlen} (hx0 : x.getLsbD 0 = false) :
    (-x).getLsbD 0 = false := by
  rw [BitVec.getLsbD_neg, hx0]
  simp

/-- The address four further on, in the width of the registers. -/
theorem setWidth_add_four (hx : 32 ≤ xlen) (pc : BitVec 32) :
    (pc.setWidth xlen + 4).setWidth 32 = pc + 4 := by
  have hfour : (4 : BitVec xlen).setWidth 32 = 4 := by
    apply BitVec.eq_of_toNat_eq
    have hlt : 4 < 2 ^ xlen := lt_of_lt_of_le (by decide) (Nat.pow_le_pow_right (by decide) hx)
    simp [Nat.mod_eq_of_lt hlt]
  rw [BitVec.setWidth_add _ _ hx, BitVec.setWidth_setWidth_of_le _ hx, BitVec.setWidth_eq, hfour]

theorem add_self_eq_zero_iff {v : BitVec 32} (h : v.toNat < 2 ^ 31) : v + v = 0 ↔ v = 0 := by
  constructor
  · intro hv
    bv_omega
  · rintro rfl
    rfl

section Offset

variable {base : BitVec xlen} {k : BitVec 32}

theorem setWidth_setWidth_offset (hx : 32 ≤ xlen) : (k.setWidth xlen).setWidth 32 = k := by
  rw [BitVec.setWidth_setWidth_of_le _ hx, BitVec.setWidth_eq]

theorem evenPc_sub_iff (hx : 32 ≤ xlen) (hbase : base.getLsbD 0 = false)
    (hoff : (k.setWidth xlen).getLsbD 0 = false) (hk : k.toNat < 2 ^ 31) :
    evenPc (base - k.setWidth xlen) = base.setWidth 32 + k ↔ k = 0 := by
  have hneg : (-k.setWidth xlen).setWidth 32 = -k := by
    rw [BitVec.setWidth_neg_of_le hx, setWidth_setWidth_offset hx]
  rw [BitVec.sub_eq_add_neg, evenPc_of_even (getLsbD_zero_add hbase (getLsbD_zero_neg hoff)),
    BitVec.setWidth_add _ _ hx, hneg, add_right_inj, neg_eq_iff_add_eq_zero]
  exact add_self_eq_zero_iff hk

theorem evenPc_xor_iff (hx : 32 ≤ xlen) (hbase : base.getLsbD 0 = false)
    (hoff : (k.setWidth xlen).getLsbD 0 = false) (hk : k.toNat < 2 ^ 31) :
    evenPc (base ^^^ k.setWidth xlen) = base.setWidth 32 + k ↔ base.setWidth 32 &&& k = 0 := by
  have hle : (base.setWidth 32 &&& k).toNat ≤ k.toNat := by
    rw [BitVec.toNat_and]
    exact Nat.and_le_right
  rw [evenPc_of_even (by rw [BitVec.getLsbD_xor, hbase, hoff]; rfl), BitVec.setWidth_xor,
    setWidth_setWidth_offset hx, xor_eq_add_iff]
  exact add_self_eq_zero_iff (lt_of_le_of_lt hle hk)

theorem evenPc_or_iff (hx : 32 ≤ xlen) (hbase : base.getLsbD 0 = false)
    (hoff : (k.setWidth xlen).getLsbD 0 = false) :
    evenPc (base ||| k.setWidth xlen) = base.setWidth 32 + k ↔ base.setWidth 32 &&& k = 0 := by
  rw [evenPc_of_even (by rw [BitVec.getLsbD_or, hbase, hoff]; rfl), BitVec.setWidth_or,
    setWidth_setWidth_offset hx, or_eq_add_iff]

theorem evenPc_and_iff (hx : 32 ≤ xlen) (hbase : base.getLsbD 0 = false) :
    evenPc (base &&& k.setWidth xlen) = base.setWidth 32 + k ↔ base.setWidth 32 = 0 ∧ k = 0 := by
  rw [evenPc_of_even (by rw [BitVec.getLsbD_and, hbase]; rfl), BitVec.setWidth_and,
    setWidth_setWidth_offset hx, and_eq_add_iff]

end Offset

/-- Each operation forms the sum of an even base and one of the trap offsets exactly under
its condition. -/
theorem evenPc_aluDataflow_iff (hx : 32 ≤ xlen) (op : AluOp) {base off : BitVec xlen}
    (hbase : base.getLsbD 0 = false)
    (hoff : ∃ k : BitVec 32, (k = 0 ∨ k = 44 ∨ k = 12 ∨ k = 28) ∧ off = k.setWidth xlen) :
    evenPc (aluDataflow op base off) = (base + off).setWidth 32 ↔ op.ReachesSum base off := by
  obtain ⟨k, hk, rfl⟩ := hoff
  have hlo : (k.setWidth xlen).setWidth 32 = k := setWidth_setWidth_offset hx
  have hk0 : (k.setWidth xlen).getLsbD 0 = false := by
    rw [BitVec.getLsbD_setWidth]
    rcases hk with rfl | rfl | rfl | rfl <;> simp
  have hklt : k.toNat < 2 ^ 31 := by obtain rfl | rfl | rfl | rfl := hk <;> decide
  have hsum : (base + k.setWidth xlen).setWidth 32 = base.setWidth 32 + k := by
    rw [BitVec.setWidth_add _ _ hx, hlo]
  -- a shift by the offset 0 leaves the base, which is then the sum
  have hzero : k.setWidth xlen = 0 → evenPc base = (base + k.setWidth xlen).setWidth 32 := by
    intro h
    rw [h, evenPc_of_even hbase, BitVec.ofNat_eq_ofNat, BitVec.add_zero]
  cases op with
  | add =>
    rw [aluDataflow, evenPc_of_even (getLsbD_zero_add hbase hk0)]
    exact iff_of_true rfl trivial
  | sub => rw [aluDataflow, hsum, evenPc_sub_iff hx hbase hk0 hklt, AluOp.ReachesSum, hlo]
  | xor =>
    rw [aluDataflow, hsum, evenPc_xor_iff hx hbase hk0 hklt, AluOp.ReachesSum,
      BitVec.setWidth_and, hlo]
  | or =>
    rw [aluDataflow, hsum, evenPc_or_iff hx hbase hk0, AluOp.ReachesSum, BitVec.setWidth_and, hlo]
  | and => rw [aluDataflow, hsum, evenPc_and_iff hx hbase, AluOp.ReachesSum, hlo]
  | slt | sltu =>
    rw [aluDataflow, evenPc_ite, eq_comm]
    rfl
  | sll | srl | sra =>
    rw [aluDataflow, AluOp.ReachesSum]
    refine (or_iff_right_of_imp fun h ↦ ?_).symm
    rw [← hzero h, h]
    simp

namespace State

variable (p : Inputs xlen) (s : State xlen depth)

/-! ## The trap target -/

/-- Where a trap in this half cycle is to go. -/
def trapVector : BitVec 32 := s.core.csr.trapVector (s.csrIn p)

/-- The operation selected by the instruction in flight forms the trap vector. -/
def FormsVector : Prop :=
  s.ctl.aluOp.ReachesSum (splice s.core.csr.mtvec 0 0#2) (s.core.csr.offset (s.csrIn p))

instance : Decidable (s.FormsVector p) := by
  unfold FormsVector
  infer_instance

/-- The trap target is formed, and not the return address of an xRET. -/
def TrapTargetOk : Prop := s.irqStop p = false ∧ s.FormsVector p

instance : Decidable (s.TrapTargetOk p) := by
  unfold TrapTargetOk
  infer_instance

/-- An xRET that raises an exception itself jumps to `mtvec + 4`. -/
theorem aluRes_of_irqStart_of_irqStop (h : s.irqStart p = true) (hstop : s.irqStop p = true) :
    s.aluRes p = s.core.csr.mtvec + 4 := by
  rw [aluRes_of_irqStop p s hstop, csrDataOut_of_irqStart p s h]

theorem toNat_evenPc (v : BitVec xlen) : (evenPc v).toNat = 2 * (v.toNat / 2 % 2 ^ 31) := by
  rw [evenPc, BitVec.toNat_append, BitVec.extractLsb'_toNat, Nat.shiftRight_eq_div_pow,
    Nat.shiftLeft_eq]
  simp [Nat.mul_comm]

theorem toNat_vectorBase (r : Csr xlen) :
    r.vectorBase.toNat = 4 * (r.mtvec.toNat / 4 % 2 ^ 30) := by
  rw [Csr.vectorBase, BitVec.toNat_append, BitVec.extractLsb'_toNat, Nat.shiftRight_eq_div_pow,
    Nat.shiftLeft_eq]
  simp [Nat.mul_comm]

/-- `mtvec + 4` is never the base in `mtvec`. -/
theorem evenPc_add_four_ne (hx : 32 ≤ xlen) (r : Csr xlen) :
    evenPc (r.mtvec + 4) ≠ r.vectorBase := by
  intro h
  have hnat := congrArg BitVec.toNat h
  have hdvd : 2 ^ 32 ∣ 2 ^ xlen := Nat.pow_dvd_pow 2 hx
  have hfour : (4 : BitVec xlen).toNat = 4 := by
    have hle := Nat.le_of_dvd (Nat.two_pow_pos xlen) hdvd
    rw [BitVec.ofNat_eq_ofNat, BitVec.toNat_ofNat]
    exact Nat.mod_eq_of_lt (show 4 < 2 ^ xlen by omega)
  have hmod : (r.mtvec + 4).toNat % 2 ^ 32 = (r.mtvec.toNat + 4) % 2 ^ 32 := by
    rw [BitVec.toNat_add, hfour, Nat.mod_mod_of_dvd _ hdvd]
  rw [toNat_evenPc, toNat_vectorBase] at hnat
  omega

theorem nextPc_eq_trapVector_iff (hx : 32 ≤ xlen) (h : s.irqStart p = true) :
    s.nextPc p = s.trapVector p ↔ s.TrapTargetOk p := by
  rw [nextPc_of_irqStart p s h]
  cases hstop : s.irqStop p with
  | true =>
    refine iff_of_false ?_ fun hok ↦ ?_
    · have hnone := s.core.csr.interrupt_of_irqStop (s.csrIn p) hstop
      rw [aluRes_of_irqStart_of_irqStop p s h hstop, trapVector, Csr.trapVector, hnone]
      exact evenPc_add_four_ne hx s.core.csr
    · rw [hok.1] at hstop
      contradiction
  | false =>
    have hbase : (splice s.core.csr.mtvec 0 0#2).getLsbD 0 = false := by
      rw [getLsbD_splice]
      simp
    rw [aluRes_of_irqStart p s h hstop, alu_eq_aluDataflow, trapVector,
      ← Csr.setWidth_base_add_offset _ _ hx,
      evenPc_aluDataflow_iff hx _ hbase (Csr.offset_cases _ _ hx), TrapTargetOk, hstop,
      FormsVector]
    simp

/-- In a running state about to start a trap, `pc` is loaded with the trap vector exactly when
the operation of the instruction in flight forms it. -/
theorem posedge_pc_eq_trapVector_iff (hx : 32 ≤ xlen) (hreq : s.core.imemReq = true)
    (hstart : s.irqStart p = true) :
    (s.posedge p).core.pc = s.trapVector p ↔ s.TrapTargetOk p := by
  have hpc : (s.posedge p).core.pc = s.nextPc p := by
    rw [posedge]
    exact if_pos hreq
  rw [hpc]
  exact nextPc_eq_trapVector_iff p s hx hstart

/-- `ADDI x1, x0, 5` interrupted in vectored mode: the trap goes 44 bytes above the base. -/
theorem posedge_pc_eq_trapVector_iff_addi :
    let s : State 32 1024 := running [0x00500093] 0 (irqsEnabled 0x3DD) fun _ ↦ 0
    (s.posedge (irqLine true)).core.pc = s.trapVector (irqLine true) ∧
      s.trapVector (irqLine true) = 0x3DC + 44 :=
  ⟨(posedge_pc_eq_trapVector_iff _ _ (by decide) (by decide +kernel) (by decide +kernel)).mpr
    (by decide +kernel), by decide +kernel⟩

/-- `ANDI x1, x0, 0` interrupted in direct mode: the trap goes to address 0. -/
theorem posedge_pc_ne_trapVector_andi :
    let s : State 32 1024 := running [0x00007093] 0 (irqsEnabled 0x3DC) fun _ ↦ 0
    s.core.imemReq = true ∧ s.irqStart (irqLine true) = true ∧
      s.trapVector (irqLine true) = 0x3DC ∧ (s.posedge (irqLine true)).core.pc = 0 := by
  decide +kernel

/-! ## Side effects of the aborted instruction -/

/-- A write request on the data bus. -/
def busWrite : Bool := s.ctl.dmemReq && s.ctl.dmemWr

theorem busWrite_eq : s.busWrite = (s.dec.opcode == Opcode.sType) := by
  have hreq : s.ctl.dmemReq = (s.ctl.dmemWr || Control.lType s.dec) := rfl
  rw [busWrite, hreq, ctl_dmemWr]
  cases s.dec.opcode == Opcode.sType <;> simp

/-- Only a store writes the data memory. -/
theorem cycle_dataMem_of_ne_store (h : s.dec.opcode ≠ Opcode.sType) :
    (s.cycle p).dataMem.memx = s.dataMem.memx := by
  have hwr : s.ctl.dmemWr = false := by
    rw [ctl_dmemWr, beq_eq_false_iff_ne]
    exact h
  have hen : Memory.wrEn (s.dmemReqPorts p true) = false := by
    simp [Memory.wrEn, dmemReqPorts, hwr]
  rw [cycle_dataMem, Memory.clock_of_wrEn_false _ _ _ hen, Memory.hold_memx]

/-- A cycle that starts a trap leaves registers, data memory and bus alone exactly when the
instruction in flight is not a store. -/
theorem trap_no_side_effect_iff (h : s.irqStart p = true) :
    ((s.cycle p).regMem = s.regMem ∧ (s.cycle p).dataMem.memx = s.dataMem.memx ∧
      s.busWrite = false ∧ (s.negedge p).busWrite = false) ↔ s.dec.opcode ≠ Opcode.sType := by
  have hbus : (s.negedge p).busWrite = s.busWrite := by
    rw [busWrite, negedge_ctl, busWrite]
  rw [hbus, busWrite_eq, beq_eq_false_iff_ne]
  constructor
  · rintro ⟨-, -, hne, -⟩
    exact hne
  · intro hne
    exact ⟨cycle_regMem_of_irqStart p s h, cycle_dataMem_of_ne_store p s hne, hne, hne⟩

/-- A load is aborted without a trace. -/
theorem trap_no_side_effect_iff_lw :
    let s : State 32 1024 := running [0x00002083] 0 (irqsEnabled 0x3DC) fun _ ↦ 0
    (s.cycle (irqLine true)).regMem = s.regMem ∧
      (s.cycle (irqLine true)).dataMem.memx = s.dataMem.memx ∧ s.busWrite = false ∧
      (s.negedge (irqLine true)).busWrite = false :=
  (trap_no_side_effect_iff _ _ (by decide +kernel)).mpr (by decide +kernel)

/-- `SW x1, 0(x0)` interrupted with the vector inside data memory: it is stored at the vector. -/
theorem trap_side_effect_sw :
    let s : State 32 1024 :=
      running [0x00102023] 0 (irqsEnabled 0x100) fun a ↦ if a = 1 then 0xAB else 0
    s.core.imemReq = true ∧ s.irqStart (irqLine true) = true ∧ s.busWrite = true ∧
      s.dataMem.memx ⟨0x100, by decide⟩ = 0 ∧
      (s.cycle (irqLine true)).dataMem.memx ⟨0x100, by decide⟩ = 0xAB := by
  decide +kernel

end State

end RtlCores.Riscv
