import RtlCores.Lib.Clocked
import RtlCores.Riscv.Trap

/-!
# Runs from reset

A run is followed from one posedge to the next.  Its first state is the reset state itself
when `res_n` is released while `clk` is high, and the state after one posedge when it is
released while `clk` is low.
-/

namespace RtlCores.Riscv

open RtlCores.Lib RtlCores.Modules
open RtlCores.Riscv.Core (evenPc)

variable {xlen depth : Nat}

namespace State

/-- The registers that reset clears have their reset values; memories and latches hold
anything. -/
structure InReset (s : State xlen depth) : Prop where
  pc : s.core.pc = instBaseAddress
  imemReq : s.core.imemReq = false
  csr : ∃ irqStarted, s.core.csr = Csr.reset irqStarted
  regMem : s.regMem = fun _ ↦ 0

/-- The states just after a posedge in which a run can start. -/
inductive Started : State xlen depth → Prop
  | high {s : State xlen depth} (h : s.InReset) : Started s
  | low {s : State xlen depth} (h : s.InReset) (p : Inputs xlen) : Started (s.posedge p)

/-- The states just after a posedge of all runs from reset, under all inputs. -/
def FromReset (s : State xlen depth) : Prop := Reachable Started (fun p s ↦ s.cycle p) s

theorem inReset_loaded (words : List (BitVec 32)) : (loaded words : State xlen depth).InReset where
  pc := rfl
  imemReq := rfl
  csr := ⟨false, rfl⟩
  regMem := rfl

/-- The state after `n` periods of a program released while `clk` is low. -/
def runProgram (words : List (BitVec 32)) (is : Nat → Inputs xlen) (n : Nat) : State xlen depth :=
  run (fun p s ↦ s.cycle p) is ((loaded words).posedge (irqLine false)) n

theorem fromReset_runProgram (words : List (BitVec 32)) (is : Nat → Inputs xlen) (n : Nat) :
    (runProgram words is n : State xlen depth).FromReset :=
  ⟨_, is, n, .low (inReset_loaded words) (irqLine false), rfl⟩

variable (p : Inputs xlen) (s : State xlen depth)

/-! ## The program counter is even -/

theorem getLsbD_zero_evenPc (v : BitVec xlen) : (evenPc v).getLsbD 0 = false := by
  rw [evenPc, BitVec.getLsbD_append]
  rfl

theorem nextPc_even (h : s.core.pc.getLsbD 0 = false) : (s.nextPc p).getLsbD 0 = false := by
  rw [nextPc, Core.nextPc]
  split
  · exact getLsbD_zero_evenPc _
  · rw [Core.nextPcDefault, adder_sum_add]
    refine getLsbD_zero_add h ?_
    rw [Core.pcAluB, BitVec.getLsbD_append]
    rfl

theorem posedge_pc_even (h : s.core.pc.getLsbD 0 = false) :
    (s.posedge p).core.pc.getLsbD 0 = false := by
  show (if s.core.imemReq then s.nextPc p else s.core.pc).getLsbD 0 = false
  split
  · exact nextPc_even p s h
  · exact h

theorem cycle_pc_even (h : s.core.pc.getLsbD 0 = false) :
    (s.cycle p).core.pc.getLsbD 0 = false :=
  posedge_pc_even p (s.negedge p) h

theorem InReset.pc_even {s : State xlen depth} (h : s.InReset) :
    s.core.pc.getLsbD 0 = false := by
  rw [h.pc]
  rfl

theorem FromReset.pc_even {s : State xlen depth} (h : s.FromReset) :
    s.core.pc.getLsbD 0 = false := by
  refine Reachable.invariant (P := fun s : State xlen depth ↦ s.core.pc.getLsbD 0 = false) ?_ ?_ h
  · rintro s (hs | hs)
    · exact hs.pc_even
    · exact posedge_pc_even _ _ hs.pc_even
  · intro p s hs
    exact cycle_pc_even p s hs

/-- The misalignment exception is never raised. -/
theorem FromReset.irqAlign {s : State xlen depth} (h : s.FromReset) :
    (s.csrIn p).irqAlign = false := irqAlign_of_even p s h.pc_even

/-- Without a misaligned `pc` an xRET starts no trap. -/
theorem irqStop_of_irqStart (halign : (s.csrIn p).irqAlign = false) (h : s.irqStart p = true) :
    s.irqStop p = false := by
  by_contra hstop
  rw [Bool.not_eq_false] at hstop
  have hstop' : (s.csrIn p).irqStop = true := hstop
  have hy := yType_of_irqStop p s hstop
  have hdec : (s.csrIn p).irqIllegal = false := by
    have hleg : s.dec.illegal = false := decode_legal (by rw [Bool.or_eq_true]; exact .inl hy)
    show (s.dec.illegal && _) = false
    rw [hleg, Bool.false_and]
  have hcsr : (s.csrIn p).illegal = false := by
    rw [CsrIn.illegal, hstop', show (s.csrIn p).yType = true from hy]
    simp
  -- the immediate of an xRET is neither that of EBREAK nor that of ECALL
  have himm : (s.csrIn p).sysImm ≠ SysImm.ebreak ∧ (s.csrIn p).sysImm ≠ SysImm.ecall := by
    rw [CsrIn.irqStop, Bool.and_eq_true] at hstop'
    have hor := hstop'.2
    simp only [Bool.or_eq_true, beq_iff_eq] at hor
    rcases hor with (himm | himm) | himm <;> rw [himm] <;> decide
  have hexc : (s.csrIn p).exception = false := by
    rw [CsrIn.exception, CsrIn.irqIllegalAck, CsrIn.irqFault, CsrIn.irqBreak, CsrIn.irqEcall,
      halign, hdec, hcsr, beq_eq_false_iff_ne.mpr himm.1, beq_eq_false_iff_ne.mpr himm.2]
    simp [isunknown]
  have hint := s.core.csr.interrupt_of_irqStop (s.csrIn p) hstop'
  rw [irqStart, Core.irqStart, Csr.irqStart_eq] at h
  have hstart : ((s.core.csr.interrupt (s.csrIn p) || (s.csrIn p).exception) && _) = true := h
  rw [hint, hexc] at hstart
  contradiction

end State

end RtlCores.Riscv
