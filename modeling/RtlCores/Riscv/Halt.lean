import RtlCores.Riscv.Reset
import RtlCores.Riscv.Resume

/-!
# Halting

An all-zero word stops the core: `imem_req` falls, the read latch of the instruction memory closes
on the word and `pc` is no longer loaded, whatever the interrupt logic does to the CSRs meanwhile.
But the memory puts out 0 for an address above `INST_MEM_DEPTH` whatever is in the latch, and the
latch of an address just below `2 ^ 32` has bytes from the bottom of the memory, which show once
`pc` has wrapped.
-/

namespace RtlCores.Riscv

open RtlCores.Lib RtlCores.Modules

variable {xlen depth : Nat}

namespace State

variable {p q : Inputs xlen} {s : State xlen depth}

/-- What a halted core keeps. -/
structure Frozen (s t : State xlen depth) : Prop where
  imemReq : t.core.imemReq = false
  pc : t.core.pc = s.core.pc
  regMem : t.regMem = s.regMem
  dataMem : t.dataMem.memx = s.dataMem.memx

/-- An all-zero word is on the instruction bus that has been fetched, not from the first address. -/
structure FetchesZero (s : State xlen depth) : Prop where
  imemReq : s.core.imemReq = true
  pc : s.core.pc ≠ instBaseAddress
  instruction : s.instruction = 0

/-! ## Edges with an all-zero word -/

/-- An all-zero word writes neither a register nor the data memory. -/
theorem negedge_of_zero (h : s.instruction = 0) :
    (s.negedge p).regMem = s.regMem ∧ (s.negedge p).dataMem.memx = s.dataMem.memx := by
  have hrd : s.dec.rdOk = false := by
    rw [dec, h]
    decide +kernel
  have hop : s.dec.opcode ≠ Opcode.sType := by
    rw [dec, h]
    decide +kernel
  exact ⟨cycle_regMem_of_not_rdOk p s hrd, cycle_dataMem_of_ne_store p s hop⟩

theorem posedge_imemReq :
    (s.posedge p).core.imemReq = (s.core.pc == instBaseAddress || s.instruction != 0) := rfl

theorem posedge_imemReq_of_zero (hpc : s.core.pc ≠ instBaseAddress) (h : s.instruction = 0) :
    (s.posedge p).core.imemReq = false := by
  rw [posedge_imemReq, beq_eq_false_iff_ne.mpr hpc, h]
  rfl

/-- With the latch closed the bus shows what was latched, unless `pc` is outside the memory. -/
theorem posedge_instruction (h : (s.posedge p).core.imemReq = false) :
    (s.posedge p).instruction =
      if depth < (s.posedge p).core.pc.toNat then 0
      else s.instructionMem.regRdNow true (s.imemReqPorts true) := by
  have hen : Memory.rdEn ((s.posedge p).imemReqPorts true) = false := h
  show (if depth < (s.posedge p).core.pc.toNat then 0 else
    (s.posedge p).instructionMem.regRdNow true ((s.posedge p).imemReqPorts true)) = _
  rw [Memory.regRdNow_of_rdEn_false _ _ _ hen]
  rfl

/-! ## A halted core -/

namespace Halted

theorem negedge (h : Halted s) : Halted (s.negedge p) ∧ Frozen s (s.negedge p) := by
  obtain ⟨hregs, hmem⟩ := negedge_of_zero (p := p) h.instruction
  refine ⟨⟨h.imemReq, h.pc, ?_⟩, ⟨h.imemReq, rfl, hregs, hmem⟩⟩
  rw [negedge_instruction, h.instruction]

theorem posedge (h : Halted s) : Halted (s.posedge p) ∧ Frozen s (s.posedge p) := by
  have hreq : (s.posedge p).core.imemReq = false := posedge_imemReq_of_zero h.pc h.instruction
  have hpc : (s.posedge p).core.pc = s.core.pc := by
    show (if s.core.imemReq then s.nextPc p else s.core.pc) = s.core.pc
    rw [h.imemReq]
    rfl
  refine ⟨⟨hreq, ?_, ?_⟩, ⟨hreq, hpc, rfl, rfl⟩⟩
  · rw [hpc]
    exact h.pc
  · rw [posedge_instruction hreq, hpc]
    exact h.instruction

/-- Any edge of the clock leaves a halted core halted. -/
theorem tick {x : Bool × State xlen depth} (h : Halted x.2) (p : Inputs xlen) :
    Halted (State.tick p x).2 ∧ Frozen x.2 (State.tick p x).2 := by
  obtain ⟨level, s⟩ := x
  cases level with
  | true => exact h.negedge
  | false => exact h.posedge

theorem frozen (h : Halted s) (level : Bool) (is : Nat → Inputs xlen) (n : Nat) :
    Frozen s (Lib.run State.tick is (level, s) n).2 := by
  have hstep : ∀ (p : Inputs xlen) (x : Bool × State xlen depth), Halted x.2 ∧ Frozen s x.2 →
      Halted (State.tick p x).2 ∧ Frozen s (State.tick p x).2 := by
    rintro p x ⟨hhalt, hkeep⟩
    obtain ⟨hhalt', hkeep'⟩ := hhalt.tick p
    exact ⟨hhalt', hkeep'.imemReq, hkeep'.pc.trans hkeep.pc, hkeep'.regMem.trans hkeep.regMem,
      hkeep'.dataMem.trans hkeep.dataMem⟩
  exact (run_invariant _ _ hstep is ⟨h, h.imemReq, rfl, rfl, rfl⟩ n).2

end Halted

/-! ## Fetching an all-zero word -/

/-- The latch has the four bytes from `pc` on, also where the bus shows 0. -/
theorem FetchesZero.regRdNow (h : FetchesZero s) :
    (s.negedge p).instructionMem.regRdNow true ((s.negedge p).imemReqPorts true) =
      s.instructionMem.memx.read4 true s.core.pc := by
  have hw : SupportedWidth 32 := by simp [SupportedWidth]
  have hen : Memory.rdEn (s.imemReqPorts true) = true := h.imemReq
  have hhold : (s.negedge p).instructionMem.regRdNow true ((s.negedge p).imemReqPorts true) =
      s.instructionMem.regRdNow true (s.imemReqPorts true) := Memory.regRdNow_hold _ _ _ hw
  rw [hhold, Memory.regRdNow_eq_readBlock true _ _ hw hen]
  exact BitVec.setWidth_eq _

theorem FetchesZero.posedge_instruction (h : FetchesZero s) :
    ((s.negedge p).posedge q).instruction =
      if depth < ((s.negedge p).posedge q).core.pc.toNat then 0
      else s.instructionMem.memx.read4 true s.core.pc := by
  have hzero : (s.negedge p).instruction = 0 := by rw [negedge_instruction, h.instruction]
  have hreq : ((s.negedge p).posedge q).core.imemReq = false := posedge_imemReq_of_zero h.pc hzero
  rw [State.posedge_instruction hreq, h.regRdNow]

theorem run_tick_two (is : Nat → Inputs xlen) (s : State xlen depth) :
    (run tick is (true, s) 2).2 = (s.negedge (is 0)).posedge (is 1) := rfl

/-- After an all-zero word the core halts for good, under all inputs and whatever is in the CSRs,
exactly if the bytes that were latched are zero or `pc` is then outside the memory. -/
theorem halted_forever_iff (h : FetchesZero s) (p q : Inputs xlen)
    (hpc : ((s.negedge p).posedge q).core.pc ≠ instBaseAddress) (is : Nat → Inputs xlen) :
    (∀ n, Frozen ((s.negedge p).posedge q)
        (run tick is (true, (s.negedge p).posedge q) n).2) ↔
      s.instructionMem.memx.read4 true s.core.pc = 0 ∨
        depth < ((s.negedge p).posedge q).core.pc.toNat := by
  have hzero : (s.negedge p).instruction = 0 := by rw [negedge_instruction, h.instruction]
  have hreq : ((s.negedge p).posedge q).core.imemReq = false := posedge_imemReq_of_zero h.pc hzero
  have hinstr : ((s.negedge p).posedge q).instruction = 0 ↔
      s.instructionMem.memx.read4 true s.core.pc = 0 ∨
        depth < ((s.negedge p).posedge q).core.pc.toNat := by
    rw [h.posedge_instruction, ite_eq_left_iff, imp_iff_not_or, not_not, or_comm]
  rw [← hinstr]
  constructor
  · intro hfrozen
    -- any other word would raise `imem_req` at the next posedge
    have hlow := (hfrozen 2).imemReq
    rw [run_tick_two, posedge_imemReq, negedge_instruction, Bool.or_eq_false_iff] at hlow
    exact bne_eq_false_iff_eq.mp hlow.2
  · intro hnext
    exact Halted.frozen ⟨hreq, hpc, hnext⟩ true is

/-- `ADDI x1, x0, -2` and `JALR x0, 0(x1)`. -/
def jumpBelowZero : List (BitVec 32) := [0xFFE00093, 0x00008067]

/-- A word of zeros inside the memory, at address 4. -/
theorem halted_forever_addi :
    let s : State 32 1024 := runProgram [0x00500093] (fun _ ↦ irqLine false) 1
    ∀ n, Frozen (s.cycle (irqLine true)) (run tick (fun _ ↦ irqLine true)
      (true, s.cycle (irqLine true)) n).2 := by
  intro s
  exact (halted_forever_iff ⟨by decide +kernel, by decide +kernel, by decide +kernel⟩ _ _
    (by decide +kernel) _).mpr (.inl (by decide +kernel))

/-- The zeros at address `2 ^ 32 - 2`, above the memory: the two bytes of the first instruction that
were latched next to them show at address 2, and the core goes on. -/
theorem not_halted_forever :
    ¬∀ (s : State 32 1024), s.FromReset → FetchesZero s → ∀ (p q : Inputs 32)
      (is : Nat → Inputs 32), ((s.negedge p).posedge q).core.pc ≠ instBaseAddress →
      ∀ n, Frozen ((s.negedge p).posedge q)
        (run tick is (true, (s.negedge p).posedge q) n).2 := by
  intro h
  have hlow := (h (runProgram jumpBelowZero (fun _ ↦ irqLine false) 2)
    (fromReset_runProgram _ _ _) ⟨by decide +kernel, by decide +kernel, by decide +kernel⟩
    (irqLine false) (irqLine false) (fun _ ↦ irqLine false) (by decide +kernel) 2).imemReq
  revert hlow
  decide +kernel

end State

end RtlCores.Riscv
