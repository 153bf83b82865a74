import RtlCores.Riscv.Formats
import RtlCores.Riscv.Resume

/-!
# Misaligned fetches

`irq_align` is to be raised when `pc` is not a multiple of 4.  It tests `pc[0] & pc[1]`, and
bit 0 of `pc` is never set, so it is never raised; whether a run executes a word at a
misaligned address depends on the targets that the program jumps to.
-/

namespace RtlCores.Riscv

open RtlCores.Lib RtlCores.Modules
open RtlCores.Riscv.Core (evenPc)

variable {xlen depth : Nat}

/-! ## Bit 1 of sums -/

/-- Bit 1 of a sum with an even operand. -/
theorem getLsbD_one_add (hx : 1 < xlen) {x : BitVec xlen} (h0 : x.getLsbD 0 = false)
    (y : BitVec xlen) : (x + y).getLsbD 1 = (x.getLsbD 1 ^^ y.getLsbD 1) := by
  rw [BitVec.getLsbD_add hx, BitVec.carry_succ, h0, BitVec.carry_zero]
  simp [Bool.atLeastTwo]

theorem getLsbD_one_neg {x : BitVec xlen} (h0 : x.getLsbD 0 = false) (h1 : x.getLsbD 1 = false) :
    (-x).getLsbD 1 = false := by
  rw [BitVec.getLsbD_neg, h1]
  simp [h0]

/-- The ALU keeps multiples of four, right shifts apart. -/
theorem getLsbD_one_alu (hx : 1 < xlen) {op : AluOp} (hsrl : op ≠ .srl) (hsra : op ≠ .sra)
    {a b : BitVec xlen} (ha0 : a.getLsbD 0 = false) (ha1 : a.getLsbD 1 = false)
    (hb0 : b.getLsbD 0 = false) (hb1 : b.getLsbD 1 = false) :
    (alu op a b).getLsbD 1 = false := by
  have hbool (P : Prop) [Decidable P] : (if P then (1 : BitVec xlen) else 0).getLsbD 1 = false := by
    split <;> simp
  rw [alu_eq_aluDataflow]
  cases op with
  | add => rw [aluDataflow, getLsbD_one_add hx ha0, ha1, hb1]; rfl
  | sub =>
    rw [aluDataflow, BitVec.sub_eq_add_neg, getLsbD_one_add hx ha0, ha1, getLsbD_one_neg hb0 hb1]
    rfl
  | sll =>
    rw [aluDataflow, BitVec.getLsbD_shiftLeft]
    generalize (b.extractLsb' 0 (Nat.clog 2 xlen)).toNat = k
    rcases k with _ | _ | k
    · simp [ha1]
    · simp [ha0]
    · simp
  | srl => exact absurd rfl hsrl
  | sra => exact absurd rfl hsra
  | xor => rw [aluDataflow, BitVec.getLsbD_xor, ha1, hb1]; rfl
  | and => rw [aluDataflow, BitVec.getLsbD_and, ha1, hb1]; rfl
  | or => rw [aluDataflow, BitVec.getLsbD_or, ha1, hb1]; rfl
  | slt => exact hbool _
  | sltu => exact hbool _

/-- Bit 1 of a word shifted to the right. -/
theorem getLsbD_one_alu_shift (hx : xlen = 32 ∨ xlen = 64) {op : AluOp}
    (hop : op = .srl ∨ op = .sra) (a b : BitVec xlen) (hb : b.toNat % xlen + 1 < xlen) :
    (alu op a b).getLsbD 1 = a.getLsbD (b.toNat % xlen + 1) := by
  have hshamt := toNat_shamt hx b
  rw [alu_eq_aluDataflow]
  rcases hop with rfl | rfl
  · rw [aluDataflow, hshamt, BitVec.getLsbD_ushiftRight]
  · rw [aluDataflow, hshamt, BitVec.getLsbD_sshiftRight]
    simp [hb]
    omega

namespace State

variable (p : Inputs xlen) (s : State xlen depth)

/-! ## The next address at a posedge -/

/-- The base of the trap vector, as the ALU gets it. -/
def trapBase : BitVec xlen := splice s.core.csr.mtvec 0 0#2

/-- The posedge leaves `pc` a multiple of 4 if it was one.  Registers and CSRs are as the
negedge has left them: a trap may not find a right shift in flight that moves a set bit into
position 1, and neither `mepc` at an xRET nor the target of a jump may have bit 1; a word that
is passed over has 32 bits. -/
def KeepsAligned : Prop :=
  if s.irqStart p then
    s.ctl.aluOp = .srl ∨ s.ctl.aluOp = .sra →
      s.trapBase.getLsbD ((s.core.csr.offset (s.csrIn p)).toNat % xlen + 1) = false
  else if s.irqStop p then s.core.csr.mepc.getLsbD 1 = false
  else if s.dec.opcode = Opcode.iTypeJalr then
    (s.regMem s.dec.rs1Addr + s.dec.immediate.signExtend xlen).getLsbD 1 = false
  else if s.dec.opcode = Opcode.uTypeJal ∨ Core.branchTaken (s.coreIn p) = true then
    s.dec.immediate.getLsbD 1 = false
  else s.dec.is32bit = true

instance : Decidable (s.KeepsAligned p) := by
  unfold KeepsAligned
  infer_instance

theorem getLsbD_one_evenPc (v : BitVec xlen) :
    (evenPc v).getLsbD 1 = v.getLsbD 1 := by
  rw [evenPc, BitVec.getLsbD_append]
  simp

theorem getLsbD_trapBase :
    s.trapBase.getLsbD 0 = false ∧ s.trapBase.getLsbD 1 = false := by
  rw [trapBase, getLsbD_splice, getLsbD_splice]
  simp

theorem getLsbD_offset (hx : 32 ≤ xlen) :
    (s.core.csr.offset (s.csrIn p)).getLsbD 0 = false ∧
      (s.core.csr.offset (s.csrIn p)).getLsbD 1 = false ∧
      (s.core.csr.offset (s.csrIn p)).toNat % 32 ≤ 28 ∧
      (s.core.csr.offset (s.csrIn p)).toNat ≤ 44 := by
  obtain ⟨k, hk, hoff⟩ := s.core.csr.offset_cases (s.csrIn p) hx
  have hnat : (k.setWidth xlen).toNat = k.toNat := BitVec.toNat_setWidth_of_le hx
  rw [hoff, hnat, BitVec.getLsbD_setWidth, BitVec.getLsbD_setWidth]
  rcases hk with rfl | rfl | rfl | rfl <;> simp

variable {p s}

/-- A jump loads a multiple of 4 exactly if the ALU's result has bit 1 clear. -/
theorem nextPc_of_jump_bit (hjump : Core.pcJump s.core (s.coreIn p) = true) :
    (s.nextPc p).getLsbD 1 = (s.aluRes p).getLsbD 1 := by
  rw [nextPc_of_jump p s hjump, getLsbD_one_evenPc]

/-- The vector that the ALU forms. -/
theorem nextPc_bit_of_irqStart (hx : xlen = 32 ∨ xlen = 64) (hstart : s.irqStart p = true)
    (hstop : s.irqStop p = false) :
    (s.nextPc p).getLsbD 1 = false ↔
      (s.ctl.aluOp = .srl ∨ s.ctl.aluOp = .sra →
        s.trapBase.getLsbD ((s.core.csr.offset (s.csrIn p)).toNat % xlen + 1) = false) := by
  have h32 : 32 ≤ xlen := by omega
  obtain ⟨hb0, hb1⟩ := s.getLsbD_trapBase
  obtain ⟨ho0, ho1, hle, hle'⟩ := s.getLsbD_offset p h32
  rw [nextPc_of_irqStart p s hstart, getLsbD_one_evenPc, aluRes_of_irqStart p s hstart hstop]
  by_cases hop : s.ctl.aluOp = .srl ∨ s.ctl.aluOp = .sra
  · have hshamt : (s.core.csr.offset (s.csrIn p)).toNat % xlen + 1 < xlen := by
      rcases hx with rfl | rfl <;> omega
    rw [getLsbD_one_alu_shift hx hop _ _ hshamt]
    exact ⟨fun h _ ↦ h, fun h ↦ h hop⟩
  · rw [not_or] at hop
    refine iff_of_true ?_ fun h ↦ absurd h (not_or.mpr hop)
    exact getLsbD_one_alu (by omega) hop.1 hop.2 hb0 hb1 ho0 ho1

theorem nextPc_bit_of_irqStop (hx : 32 ≤ xlen) (hstop : s.irqStop p = true)
    (hstart : s.irqStart p = false) :
    (s.nextPc p).getLsbD 1 = s.core.csr.mepc.getLsbD 1 := by
  have hjump : Core.pcJump s.core (s.coreIn p) = true := by
    have hstop' : Core.irqStop s.core (s.coreIn p) = true := hstop
    rw [Core.pcJump, hstop', Bool.or_true]
  have hfour (k : Nat) (hk : Nat.testBit 4 k = false) : (4 : BitVec xlen).getLsbD k = false := by
    simp [BitVec.getLsbD_ofNat, hk]
  rw [nextPc_of_jump_bit hjump, aluRes_of_return hstop hstart, BitVec.add_comm,
    getLsbD_one_add (by omega) (hfour 0 rfl), hfour 1 rfl, Bool.false_xor]

theorem opcode_of_branchTaken (h : Core.branchTaken (s.coreIn p) = true) :
    s.dec.opcode = Opcode.bType := by
  have hand : (s.dec.bType && _) = true := h
  rw [Bool.and_eq_true] at hand
  have hb : s.dec.bType = (s.dec.opcode == Opcode.bType) := decode_bType s.instruction
  rw [hb, beq_iff_eq] at hand
  exact hand.1

/-- The target of a jump or branch relative to `pc`, or of a JALR. -/
theorem nextPc_bit_of_typed {op : BitVec 7} {t : InstrType} (h : Typed s op t)
    (hplain : Plain p s) (hx : 32 ≤ xlen) (hpc0 : s.core.pc.getLsbD 0 = false)
    (hpc1 : s.core.pc.getLsbD 1 = false) (hsel : Control.aluaSelOf op = true)
    (hi : (t.iType && op.getLsbD 4) = false) (hr : t.rType = false) (hc : t.cType = false)
    (hjump : Core.pcJump s.core (s.coreIn p) = true) :
    (s.nextPc p).getLsbD 1 = s.dec.immediate.getLsbD 1 := by
  have h0 : (s.core.pc.setWidth xlen).getLsbD 0 = false := by
    rw [BitVec.getLsbD_setWidth, hpc0, Bool.and_false]
  have h1 : (s.core.pc.setWidth xlen).getLsbD 1 = false := by
    rw [BitVec.getLsbD_setWidth, hpc1, Bool.and_false]
  have himm : (s.dec.immediate.signExtend xlen).getLsbD 1 = s.dec.immediate.getLsbD 1 := by
    rw [BitVec.getLsbD_signExtend]
    simp
    omega
  rw [nextPc_of_jump_bit hjump, h.aluRes_add hplain hc hi hr, hsel, if_pos rfl,
    getLsbD_one_add (by omega) h0, h1, himm, Bool.false_xor]

/-- A word passed over. -/
theorem nextPc_bit_of_default (hreq : s.core.imemReq = true) (hpc0 : s.core.pc.getLsbD 0 = false)
    (hpc1 : s.core.pc.getLsbD 1 = false) (hjump : Core.pcJump s.core (s.coreIn p) = false) :
    (s.nextPc p).getLsbD 1 = false ↔ s.dec.is32bit = true := by
  have hdef : s.nextPc p = s.core.pc + Core.pcAluB s.core (s.coreIn p) := by
    rw [nextPc, Core.nextPc, hjump, if_neg Bool.false_ne_true, Core.nextPcDefault, adder_sum_add]
  have h32 : (Core.dec (s.coreIn p)).is32bit = s.dec.is32bit := rfl
  rw [hdef, getLsbD_one_add (by decide) hpc0, hpc1, Core.pcAluB, hreq, h32]
  cases s.dec.is32bit <;> decide

/-- The target of a JALR. -/
theorem nextPc_bit_of_jalr (hop : s.dec.opcode = Opcode.iTypeJalr) (hstart : s.irqStart p = false)
    (hjump : Core.pcJump s.core (s.coreIn p) = true) :
    (s.nextPc p).getLsbD 1 =
      (s.regMem s.dec.rs1Addr + s.dec.immediate.signExtend xlen).getLsbD 1 := by
  have ht : Typed s Opcode.iTypeJalr { iType := true } := .of_opcode hop fun _ _ _ ↦ rfl
  rw [nextPc_of_jump_bit hjump, ht.aluRes_add (ht.plain hstart rfl rfl) rfl rfl rfl]
  rfl

/-- The target of a JAL or a taken branch. -/
theorem nextPc_bit_of_relative
    (hop : s.dec.opcode = Opcode.uTypeJal ∨ Core.branchTaken (s.coreIn p) = true)
    (hstart : s.irqStart p = false) (hx : 32 ≤ xlen) (hpc0 : s.core.pc.getLsbD 0 = false)
    (hpc1 : s.core.pc.getLsbD 1 = false) (hjump : Core.pcJump s.core (s.coreIn p) = true) :
    (s.nextPc p).getLsbD 1 = s.dec.immediate.getLsbD 1 := by
  rcases hop with hjal | htaken
  · have ht : Typed s Opcode.uTypeJal { jType := true } := .of_opcode hjal fun _ _ _ ↦ rfl
    exact nextPc_bit_of_typed ht (ht.plain hstart rfl rfl) hx hpc0 hpc1 rfl rfl rfl rfl hjump
  · have hop := opcode_of_branchTaken htaken
    have ht : Typed s Opcode.bType { bType := true, illegalFunct3 :=
        s.dec.funct3 == 0b010 || s.dec.funct3 == 0b011 } :=
      ⟨hop, by
        rw [show s.dec.toInstrType = instrType s.dec.opcode _ _ _ from decode_toInstrType _, hop]
        rfl⟩
    exact nextPc_bit_of_typed ht (ht.plain hstart rfl rfl) hx hpc0 hpc1 rfl rfl rfl rfl hjump

/-- With neither a trap nor an xRET, the opcode and the branch comparator decide on a jump. -/
theorem pcJump_of_not_irq (hstart : s.irqStart p = false) (hstop : s.irqStop p = false) :
    Core.pcJump s.core (s.coreIn p) =
      (Core.branchTaken (s.coreIn p) || Control.pcSelOf s.dec.opcode) := by
  have hstart' : Core.irqStart s.core (s.coreIn p) = false := hstart
  have hstop' : Core.irqStop s.core (s.coreIn p) = false := hstop
  rw [Core.pcJump, hstart', hstop', Bool.or_false, Bool.or_false]
  rfl

/-- Exactly under the condition the posedge keeps `pc` a multiple of 4. -/
theorem posedge_pc_bit_iff (hx : xlen = 32 ∨ xlen = 64) (hreq : s.core.imemReq = true)
    (hpc0 : s.core.pc.getLsbD 0 = false) (hpc1 : s.core.pc.getLsbD 1 = false) :
    (s.posedge p).core.pc.getLsbD 1 = false ↔ s.KeepsAligned p := by
  have h32 : 32 ≤ xlen := by omega
  have hpc : (s.posedge p).core.pc = s.nextPc p := by
    rw [posedge]
    exact if_pos hreq
  have halign := irqAlign_of_even p s hpc0
  rw [hpc, KeepsAligned]
  by_cases hstart : s.irqStart p = true
  · rw [if_pos hstart]
    exact nextPc_bit_of_irqStart hx hstart (irqStop_of_irqStart p s halign hstart)
  rw [if_neg hstart]
  rw [Bool.not_eq_true] at hstart
  by_cases hstop : s.irqStop p = true
  · rw [if_pos hstop, nextPc_bit_of_irqStop h32 hstop hstart]
  rw [if_neg hstop]
  rw [Bool.not_eq_true] at hstop
  have hjump := pcJump_of_not_irq hstart hstop
  by_cases hjalr : s.dec.opcode = Opcode.iTypeJalr
  · rw [if_pos hjalr, nextPc_bit_of_jalr hjalr hstart]
    rw [hjump, hjalr, Bool.or_eq_true]
    exact .inr rfl
  rw [if_neg hjalr]
  by_cases hrel : s.dec.opcode = Opcode.uTypeJal ∨ Core.branchTaken (s.coreIn p) = true
  · rw [if_pos hrel, nextPc_bit_of_relative hrel hstart h32 hpc0 hpc1]
    rw [hjump, Bool.or_eq_true]
    rcases hrel with hjal | htaken
    · rw [hjal]
      exact .inr rfl
    · exact .inl htaken
  · rw [if_neg hrel]
    obtain ⟨hjal, htaken⟩ := not_or.mp hrel
    refine nextPc_bit_of_default hreq hpc0 hpc1 ?_
    rw [Bool.not_eq_true] at htaken
    rw [hjump, htaken, Bool.false_or, Control.pcSelOf, Bool.or_eq_false_iff, beq_eq_false_iff_ne,
      beq_eq_false_iff_ne]
    exact ⟨hjal, hjalr⟩

/-! ## Runs -/

/-- A multiple of 4 has its two low bits clear. -/
theorem toNat_mod_four (pc : BitVec 32) (h0 : pc.getLsbD 0 = false) :
    pc.toNat % 4 = 0 ↔ pc.getLsbD 1 = false := by
  have hlow := mod_two_pow_succ_bit pc 1
  have hlow' := mod_two_pow_succ_bit pc 0
  rw [h0, Nat.pow_zero, Nat.mod_one] at hlow'
  rw [hlow'] at hlow
  cases h1 : pc.getLsbD 1 with
  | false => rw [h1] at hlow; simpa using hlow
  | true => rw [h1] at hlow; simpa using fun h ↦ absurd (hlow.symm.trans h) (by decide)

/-- The instruction in flight completes: it writes a register or memory, or `pc` goes on to
anything but the trap vector. -/
def Completes (p : Inputs xlen) (s : State xlen depth) : Prop :=
  s.rfWrEn p = true ∨ Memory.wrEn (s.dmemReqPorts p true) = true ∨
    (s.cycle p).core.pc ≠ s.core.pc ∧ (s.cycle p).core.pc ≠ (s.negedge p).trapVector p

/-- An instruction at an address that is not a multiple of 4 raises the misalignment exception
and does not complete. -/
def MisalignedTraps (p : Inputs xlen) (s : State xlen depth) : Prop :=
  s.core.imemReq = true → s.core.pc.toNat % 4 ≠ 0 →
    (s.csrIn p).irqAlign = true ∧ ¬ s.Completes p

/-- The posedge of a running period keeps `pc` aligned. -/
def PeriodAligned (p : Inputs xlen) (s : State xlen depth) : Prop :=
  s.core.imemReq = true → (s.negedge p).KeepsAligned p

instance (p : Inputs xlen) (s : State xlen depth) : Decidable (PeriodAligned p s) := by
  unfold PeriodAligned
  infer_instance

/-- One period, exactly. -/
theorem FromReset.cycle_pc_bit_iff (h : s.FromReset) (hx : xlen = 32 ∨ xlen = 64)
    (hreq : s.core.imemReq = true) (hpc : s.core.pc.getLsbD 1 = false) :
    (s.cycle p).core.pc.getLsbD 1 = false ↔ (s.negedge p).KeepsAligned p :=
  posedge_pc_bit_iff hx hreq h.pc_even hpc

/-- The word 0 keeps `pc` aligned, whether it is passed over or interrupted. -/
theorem periodAligned_of_zero (h : s.instruction = 0) : s.PeriodAligned p := by
  intro _
  have hdec : (s.negedge p).dec = decode 0 := by rw [dec, negedge_instruction, h]
  have hop : (s.negedge p).ctl.aluOp = .add := by
    rw [ctl, hdec]
    rfl
  have hstop : (s.negedge p).irqStop p = false := irqStop_of_not_yType p _ (by rw [hdec]; rfl)
  have htaken : ¬ Core.branchTaken ((s.negedge p).coreIn p) = true := by
    intro ht
    have hb := opcode_of_branchTaken ht
    rw [hdec] at hb
    exact absurd hb (by decide)
  rw [KeepsAligned, hop, hstop, hdec]
  split_ifs with hstart hfalse hjalr hjump
  · intro hor
    rcases hor with hsrl | hsra <;> contradiction
  · exact hfalse.elim
  · exact absurd hjalr (by decide)
  · rcases hjump with hjal | ht
    · exact absurd hjal (by decide)
    · exact absurd ht htaken
  · rfl

theorem Started.pc_bit (h : Started s) : s.core.pc.getLsbD 1 = false := by
  rcases h with h | ⟨h, p⟩
  · rw [h.pc]
    rfl
  · show (if _ then _ else _ : BitVec 32).getLsbD 1 = false
    rw [h.imemReq, if_neg Bool.false_ne_true, h.pc]
    rfl

/-- In every run from reset every misaligned fetch traps exactly if there is none: if every
period keeps `pc` aligned. -/
theorem misalignedTraps_iff (hx : xlen = 32 ∨ xlen = 64) {s₀ : State xlen depth}
    (h₀ : Started s₀) (is : Nat → Inputs xlen) :
    (∀ n, MisalignedTraps (is n) (run (fun p s ↦ s.cycle p) is s₀ n)) ↔
      ∀ n, PeriodAligned (is n) (run (fun p s ↦ s.cycle p) is s₀ n) := by
  have hreset (n : Nat) : (run (fun p s ↦ s.cycle p) is s₀ n).FromReset := ⟨s₀, is, n, h₀, rfl⟩
  -- the exception is never raised, so the fetches that trap are those that are aligned
  have htraps (n : Nat) (hreq : (run (fun p s ↦ s.cycle p) is s₀ n).core.imemReq = true)
      (h : MisalignedTraps (is n) (run (fun p s ↦ s.cycle p) is s₀ n)) :
      (run (fun p s ↦ s.cycle p) is s₀ n).core.pc.getLsbD 1 = false := by
    rw [← toNat_mod_four _ (hreset n).pc_even]
    by_contra hne
    have hraised := (h hreq hne).1
    rw [(hreset n).irqAlign (is n)] at hraised
    contradiction
  constructor
  · intro h n hreq
    by_cases hzero : (run (fun p s ↦ s.cycle p) is s₀ n).instruction = 0
    · exact periodAligned_of_zero hzero hreq
    · have hreq' : (run (fun p s ↦ s.cycle p) is s₀ (n + 1)).core.imemReq = true := by
        rw [run_succ, cycle_imemReq, Bool.or_eq_true, bne_iff_ne]
        exact .inr hzero
      exact ((hreset n).cycle_pc_bit_iff hx hreq (htraps n hreq (h n))).mp
        (htraps (n + 1) hreq' (h (n + 1)))
  · intro h
    have haligned (n : Nat) : (run (fun p s ↦ s.cycle p) is s₀ n).core.pc.getLsbD 1 = false := by
      induction n with
      | zero => exact h₀.pc_bit
      | succ n ih =>
        cases hreq : (run (fun p s ↦ s.cycle p) is s₀ n).core.imemReq with
        | true => exact ((hreset n).cycle_pc_bit_iff hx hreq ih).mpr (h n hreq)
        | false => rw [run_succ, cycle_pc, hreq, if_neg Bool.false_ne_true]; exact ih
    intro n _ hne
    exact absurd ((toNat_mod_four _ (hreset n).pc_even).mpr (haligned n)) hne

/-- `JAL x0, 8` over a word of zeros to `ADDI x1, x0, 5`. -/
def jumpToEight : State 32 1024 := (loaded [0x0080006F, 0, 0x00500093]).posedge (irqLine false)

/-- The run of that program, which halts at address 12, never leaves the multiples of 4. -/
theorem misalignedTraps_iff_addi :
    (∀ n, MisalignedTraps (irqLine false)
        (run (fun p s ↦ s.cycle p) (fun _ ↦ irqLine false) jumpToEight n)) ∧
      (run (fun p s ↦ s.cycle p) (fun _ ↦ irqLine false) jumpToEight 1).core.pc = 8 := by
  refine ⟨(misalignedTraps_iff (.inl rfl) (.low (inReset_loaded _) _) _).mpr fun n ↦ ?_,
    by decide +kernel⟩
  rcases Nat.lt_or_ge n 3 with hlt | hge
  · revert n
    decide +kernel
  · have hend : Halted (run (fun p s ↦ s.cycle p) (fun _ ↦ irqLine false) jumpToEight 3) :=
      ⟨by decide +kernel, by decide +kernel, by decide +kernel⟩
    have hhalt := (Halted.of_le hge hend).1
    exact fun hreq ↦ absurd (hhalt.imemReq.symm.trans hreq) (by decide)

/-- `JAL x0, 6`, and `ADDI x1, x0, 5` across the words at 4 and 8: the second is executed at
address 6. -/
theorem not_misalignedTraps_jal :
    let s : State 32 1024 :=
      runProgram [0x0060006F, 0x00000050, 0x00930000] (fun _ ↦ irqLine false) 1
    s.FromReset ∧ s.core.pc = 6 ∧ ¬ MisalignedTraps (irqLine false) s ∧
      (s.cycle (irqLine false)).regMem 1 = 5 := by
  intro s
  refine ⟨fromReset_runProgram _ _ _, by decide +kernel, fun h ↦ ?_, by decide +kernel⟩
  have hraised := (h (by decide +kernel) (by decide +kernel)).1
  revert hraised
  decide +kernel

end State

end RtlCores.Riscv
