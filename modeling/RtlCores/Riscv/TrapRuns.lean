import RtlCores.Riscv.Run

/-!
# Traps along runs

`irq_start` is read twice in a period: at the negedge, where it saves the trap state and
holds back the register write, and at the posedge, where it redirects `pc`.  It depends on
CSR bits that the negedge changes, so the two readings can differ; and it is held back in
the period after any request by `irq_started`.
-/

namespace RtlCores.Riscv

open RtlCores.Lib RtlCores.Modules

variable {xlen depth : Nat}

namespace State

variable (p : Inputs xlen) (s : State xlen depth)

/-! ## Saving and redirecting -/

/-- At the negedge of the period the trap state is loaded: `mepc` with the address of the
instruction in flight, `mcause` with the cause, `mtinst` with the word, and in `mstatus` the
bit `MPIE` with `MIE` and `MIE` with 0. -/
def Saved : Prop :=
  s.core.csr.mepcLoad (s.csrIn p) (s.aluRes p) = some (s.core.pc.setWidth xlen) ∧
    s.core.csr.mcauseLoad (s.csrIn p) (s.aluRes p) = some (s.core.csr.mcauseData (s.csrIn p)) ∧
    s.core.csr.mtinstLoad (s.csrIn p) (s.aluRes p) = some (s.instruction.setWidth xlen) ∧
    ∃ v, s.core.csr.mstatusLoad (s.csrIn p) (s.aluRes p) = some v ∧
      v.getLsbD mpieBit = s.core.csr.mstatus.getLsbD mieBit ∧ v.getLsbD mieBit = false

/-- At the posedge of the period `irq_start` loads `pc` with the trap vector. -/
def Redirected : Prop :=
  (s.negedge p).irqStart p = true ∧ (s.cycle p).core.pc = (s.negedge p).trapVector p

/-- The state is saved exactly if `irq_start` is high at the negedge: a CSR instruction loads
at most one of the four registers. -/
theorem saved_iff (hx : 32 ≤ xlen) : s.Saved p ↔ s.irqStart p = true := by
  constructor
  · rintro ⟨hmepc, hmcause, -, -⟩
    by_contra hstart
    rw [Bool.not_eq_true] at hstart
    have hstart' : s.core.csr.irqStart (s.csrIn p) = false := hstart
    rw [Csr.mepcLoad, hstart'] at hmepc
    rw [Csr.mcauseLoad, hstart'] at hmcause
    simp only [Bool.false_eq_true, if_false, Bool.and_eq_true, beq_iff_eq,
      Option.ite_none_right_eq_some] at hmepc hmcause
    have haddr : CsrAddr.mepc = CsrAddr.mcause := hmepc.1.2.symm.trans hmcause.1.2
    exact absurd haddr (by decide)
  · intro hstart
    have hstart' : s.core.csr.irqStart (s.csrIn p) = true := hstart
    refine ⟨?_, ?_, ?_, Csr.withBit (Csr.withBit s.core.csr.mstatus mpieBit
      (s.core.csr.mstatus.getLsbD mieBit)) mieBit false, ?_, Csr.getLsbD_entry hx _ _ _⟩
    · rw [Csr.mepcLoad, if_pos hstart']
      rfl
    · rw [Csr.mcauseLoad, if_pos hstart']
    · rw [Csr.mtinstLoad, if_pos hstart']
      rfl
    · rw [Csr.mstatusLoad, if_pos hstart']

theorem redirected_iff (hx : 32 ≤ xlen) (hreq : s.core.imemReq = true)
    (halign : (s.csrIn p).irqAlign = false) :
    s.Redirected p ↔ (s.negedge p).irqStart p = true ∧ (s.negedge p).FormsVector p := by
  rw [Redirected, cycle_pc, if_pos hreq]
  constructor
  · rintro ⟨hstart, hpc⟩
    exact ⟨hstart, ((nextPc_eq_trapVector_iff p _ hx hstart).mp hpc).2⟩
  · rintro ⟨hstart, hok⟩
    have hstop : (s.negedge p).irqStop p = false :=
      irqStop_of_irqStart p _ (by rw [negedge_csrIn]; exact halign) hstart
    exact ⟨hstart, (nextPc_eq_trapVector_iff p _ hx hstart).mpr ⟨hstop, hok⟩⟩

/-- `mie` as the instruction in flight leaves it. -/
def mieNext : BitVec xlen :=
  Csr.written (s.csrIn p) (s.aluRes p) CsrAddr.mie s.core.csr.mie

/-- `mstatus` as the instruction in flight leaves it, a trap or a return aside. -/
def mstatusNext : BitVec xlen :=
  Csr.written (s.csrIn p) (s.aluRes p) CsrAddr.mstatus s.core.csr.mstatus

/-- The request of an interrupt at the posedge, when a trap has started at the negedge. -/
theorem negedge_interrupt_of_irqStart (hx : 32 ≤ xlen) (h : s.irqStart p = true) :
    (s.negedge p).core.csr.interrupt (s.csrIn p) =
      (!s.irqStop p && s.core.csr.mstatus.getLsbD mieBit &&
        Csr.lineHigh (s.mieNext p) (s.csrIn p)) := by
  have h' : s.core.csr.irqStart (s.csrIn p) = true := h
  rw [Csr.interrupt_eq, negedge_csr, Csr.irqMmodeEn_negedge_of_irqStart _ _ _ hx h']
  rfl

/-- The request of an interrupt at the posedge, when none has started at the negedge. -/
theorem negedge_interrupt_of_idle (h : s.irqStart p = false) (hstop : s.irqStop p = false) :
    (s.negedge p).core.csr.interrupt (s.csrIn p) =
      (((s.mstatusNext p).getLsbD mieBit || (s.mstatusNext p).getLsbD mpieBit) &&
        Csr.lineHigh (s.mieNext p) (s.csrIn p)) := by
  have h' : s.core.csr.irqStart (s.csrIn p) = false := h
  have hstop' : (s.csrIn p).irqStop = false := hstop
  rw [Csr.interrupt_eq, negedge_csr, Csr.irqMmodeEn, Csr.negedge_mstatus_of_idle _ _ _ h' hstop',
    hstop', Bool.not_false, Bool.true_and]
  rfl

/-- An xRET in flight takes no interrupt, whatever the registers hold. -/
theorem interrupt_of_return (hstop : s.irqStop p = true) (r : Csr xlen) :
    r.interrupt (s.csrIn p) = false :=
  r.interrupt_of_irqStop _ hstop

/-- When the trap state is saved exactly if `pc` is redirected to the vector.  The request may
not change at the negedge: an interrupt must have been let through by `MIE`, which becomes
`MPIE`, and not by `MPIE` alone, and a CSR instruction may neither disable a line whose
interrupt it took nor enable one that is high.  And the vector must be reached. -/
def TrapStable : Prop :=
  if s.core.csr.irqStarted then True
  else if (s.csrIn p).exception then (s.negedge p).FormsVector p
  else if s.irqStop p then True
  else if s.core.csr.interrupt (s.csrIn p) then
    s.core.csr.mstatus.getLsbD mieBit = true ∧
      Csr.lineHigh (s.mieNext p) (s.csrIn p) = true ∧ (s.negedge p).FormsVector p
  else
    ¬(((s.mstatusNext p).getLsbD mieBit || (s.mstatusNext p).getLsbD mpieBit) = true ∧
      Csr.lineHigh (s.mieNext p) (s.csrIn p) = true ∧ (s.negedge p).FormsVector p)

instance : Decidable (s.TrapStable p) := by
  unfold TrapStable
  infer_instance

/-- `irq_start` in either half, from the requests. -/
theorem irqStart_eq :
    s.irqStart p =
      ((s.core.csr.interrupt (s.csrIn p) || (s.csrIn p).exception) &&
        !s.core.csr.irqStarted) := rfl

theorem negedge_irqStart_eq :
    (s.negedge p).irqStart p =
      (((s.negedge p).core.csr.interrupt (s.csrIn p) || (s.csrIn p).exception) &&
        !s.core.csr.irqStarted) := by
  rw [irqStart_eq, negedge_csrIn, negedge_irqStarted]

/-- In every period of every run the trap state is saved exactly when `pc` is redirected to
the vector, exactly under `TrapStable`. -/
theorem redirected_iff_saved_iff (hx : 32 ≤ xlen) (hs : s.FromReset)
    (hreq : s.core.imemReq = true) : (s.Redirected p ↔ s.Saved p) ↔ s.TrapStable p := by
  rw [redirected_iff p s hx hreq (hs.irqAlign p), saved_iff p s hx, TrapStable,
    negedge_irqStart_eq]
  have hstart := irqStart_eq p s
  cases hstarted : s.core.csr.irqStarted with
  | true =>
    rw [hstarted, Bool.not_true, Bool.and_false] at hstart
    simp [hstart]
  | false =>
    rw [hstarted, Bool.not_false, Bool.and_true] at hstart
    rw [Bool.not_false, Bool.and_true]
    cases hexc : (s.csrIn p).exception with
    | true =>
      rw [hexc, Bool.or_true] at hstart
      simp [hstart]
    | false =>
      rw [hexc, Bool.or_false] at hstart
      cases hstop : s.irqStop p with
      | true =>
        rw [interrupt_of_return p s hstop] at hstart
        simp [hstart, interrupt_of_return p s hstop]
      | false =>
        cases hint : s.core.csr.interrupt (s.csrIn p) with
        | true =>
          rw [hint] at hstart
          rw [negedge_interrupt_of_irqStart p s hx hstart, hstop]
          simp [hstart, and_assoc]
        | false =>
          rw [hint] at hstart
          rw [negedge_interrupt_of_idle p s hstart hstop]
          simp [hstart, and_assoc]

/-- `LUI x1, 1; ADDI x1, x1, -2048; CSRRW x0, mie, x1; CSRRSI x0, mstatus, 8`: enable the
external interrupt, then a program. -/
def enableIrq (words : List (BitVec 32)) : List (BitVec 32) :=
  [0x000010B7, 0x80008093, 0x30409073, 0x30046073] ++ words

/-- The instruction after the enabling ones, interrupted: the state is saved and `pc` redirected. -/
theorem redirected_iff_saved_iff_addi :
    let s : State 32 1024 :=
      runProgram (enableIrq [0x00500093]) (fun n ↦ irqLine (n == 4)) 4
    s.Redirected (irqLine true) ∧ s.Saved (irqLine true) := by
  intro s
  have hsaved : s.Saved (irqLine true) := (saved_iff _ _ (by decide)).mpr (by decide +kernel)
  have hiff : s.Redirected (irqLine true) ↔ s.Saved (irqLine true) :=
    (redirected_iff_saved_iff _ _ (by decide) (fromReset_runProgram _ _ _) (by decide +kernel)).mpr
      (by decide +kernel)
  exact ⟨hiff.mpr hsaved, hsaved⟩

/-- A line that is high while `CSRRSI x0, mstatus, 8` enables it: `pc` goes to the trap vector
at the end of that period, and nothing is saved. -/
theorem redirected_not_saved_csrrsi :
    let s : State 32 1024 := runProgram (enableIrq []) (fun _ ↦ irqLine true) 3
    s.FromReset ∧ s.core.imemReq = true ∧ s.Redirected (irqLine true) ∧
      ¬s.Saved (irqLine true) := by
  refine ⟨fromReset_runProgram _ _ _, by decide +kernel, ⟨by decide +kernel, by decide +kernel⟩, ?_⟩
  rw [saved_iff _ _ (by decide)]
  decide +kernel

/-! ## Masked interrupts -/

/-- The instruction in flight writes `mstatus`. -/
def writesMstatus : Bool := (s.csrIn p).wrEn && (s.csrIn p).sysImm == CsrAddr.mstatus

/-- Two inputs have the same effect in this period on the state that a program sees. -/
def SameEffect (q : Inputs xlen) : Prop :=
  (s.cycle p).core.pc = (s.cycle q).core.pc ∧ (s.cycle p).regMem = (s.cycle q).regMem ∧
    (s.cycle p).dataMem.memx = (s.cycle q).dataMem.memx ∧
    (s.cycle p).core.csr.mepc = (s.cycle q).core.csr.mepc ∧
    (s.cycle p).core.csr.mcause = (s.cycle q).core.csr.mcause ∧
    (s.cycle p).core.csr.mtinst = (s.cycle q).core.csr.mtinst ∧
    (s.cycle p).core.csr.mstatus = (s.cycle q).core.csr.mstatus

/-- No interrupt source is enabled. -/
def noneEnabled (mie : BitVec xlen) : Prop :=
  mie.getLsbD 11 = false ∧ mie.getLsbD 3 = false ∧ mie.getLsbD 7 = false

theorem lineHigh_of_noneEnabled {mie : BitVec xlen} (h : noneEnabled mie) (i : CsrIn) :
    Csr.lineHigh mie i = false := by
  rw [Csr.lineHigh, h.1, h.2.1, h.2.2]
  rfl

theorem interrupt_of_noneEnabled {r : Csr xlen} (h : noneEnabled r.mie) (i : CsrIn) :
    r.interrupt i = false := by
  rw [Csr.interrupt_eq, lineHigh_of_noneEnabled h, Bool.and_false]

/-- The inputs with the same bus data and no interrupt line high. -/
def linesLow : Inputs xlen := { p with irqExPending := false, irqSwPending := false,
                                       irqTimerPending := false }

/-- With `MIE` clear no line has an effect: the history bit is set, or an xRET is in flight, or
`MPIE` is clear too, or `mie` enables nothing before or after the instruction. -/
def Masked : Prop :=
  s.core.csr.irqStarted = true ∨ s.irqStop p = true ∨
    s.core.csr.mstatus.getLsbD mpieBit = false ∨
    (noneEnabled s.core.csr.mie ∧ noneEnabled (s.mieNext (linesLow p)))

variable {p s}

/-- The second half writes `mie` as it does without an interrupt line. -/
theorem mieNext_linesLow (hstart : s.irqStart p = false) (hexc : (s.csrIn p).exception = false)
    (hnone : noneEnabled s.core.csr.mie) : s.mieNext p = s.mieNext (linesLow p) := by
  have hexc' : (s.csrIn (linesLow p)).exception = false := hexc
  have hlow : s.irqStart (linesLow p) = false := by
    rw [irqStart_eq, interrupt_of_noneEnabled hnone, hexc']
    rfl
  rw [mieNext, mieNext, aluRes_congr hstart hlow]
  rfl

/-- Without a request of its own, a masked instruction starts no trap in the first half. -/
theorem Masked.irqStart (hmask : s.Masked p)
    (hmie : s.core.csr.mstatus.getLsbD mieBit = false) (hexc : (s.csrIn p).exception = false) :
    s.irqStart p = false := by
  rw [irqStart_eq, hexc, Bool.or_false]
  rcases hmask with hstarted | hstop | hmpie | hnone
  · rw [hstarted, Bool.not_true, Bool.and_false]
  · rw [interrupt_of_return p s hstop, Bool.false_and]
  · rw [Csr.interrupt_eq, Csr.irqMmodeEn, hmie, hmpie]
    simp
  · rw [interrupt_of_noneEnabled hnone.1, Bool.false_and]

/-- Nor in the second. -/
theorem Masked.negedge_irqStart (hmask : s.Masked p)
    (hmie : s.core.csr.mstatus.getLsbD mieBit = false) (hexc : (s.csrIn p).exception = false)
    (hwr : s.writesMstatus p = false) : (s.negedge p).irqStart p = false := by
  have hstart := hmask.irqStart hmie hexc
  rw [negedge_irqStart_eq, hexc, Bool.or_false]
  rcases hmask with hstarted | hstop | hmpie | hnone
  · rw [hstarted, Bool.not_true, Bool.and_false]
  · rw [interrupt_of_return p s hstop, Bool.false_and]
  · cases hstop : s.irqStop p with
    | true => rw [interrupt_of_return p s hstop, Bool.false_and]
    | false =>
      have hwr' : ((s.csrIn p).wrEn && (s.csrIn p).sysImm == CsrAddr.mstatus) = false := hwr
      have hmstatus : s.mstatusNext p = s.core.csr.mstatus := by
        rw [mstatusNext, Csr.written, Csr.plainLoad, hwr']
        rfl
      rw [negedge_interrupt_of_idle p s hstart hstop, hmstatus, hmie, hmpie]
      simp
  · have hnext : noneEnabled (s.negedge p).core.csr.mie := by
      show noneEnabled (s.mieNext p)
      rw [mieNext_linesLow hstart hexc hnone.1]
      exact hnone.2
    rw [interrupt_of_noneEnabled hnext, Bool.false_and]

theorem sameEffect_of_irqStart {q : Inputs xlen} (hp : s.irqStart p = false)
    (hq : s.irqStart q = false) (hp₂ : (s.negedge p).irqStart p = false)
    (hq₂ : (s.negedge q).irqStart q = false) (hbus : p.dbusRdData = q.dbusRdData) :
    s.SameEffect p q := by
  have hneg := negedge_congr hp hq hbus
  rw [← hneg] at hq₂
  have hpc : (s.cycle p).core.pc = (s.cycle q).core.pc := by
    rw [cycle_pc, cycle_pc, ← hneg, nextPc_congr hp₂ hq₂]
  -- the other components are those of the common state after the negedge
  have hcommon {β : Type} (f : State xlen depth → β) : f (s.negedge p) = f (s.negedge q) :=
    congrArg f hneg
  exact ⟨hpc, hcommon fun t ↦ t.regMem, hcommon fun t ↦ t.dataMem.memx,
    hcommon fun t ↦ t.core.csr.mepc, hcommon fun t ↦ t.core.csr.mcause,
    hcommon fun t ↦ t.core.csr.mtinst, hcommon fun t ↦ t.core.csr.mstatus⟩

/-- In every state of every run with `MIE` clear the interrupt lines have no effect in the
next period, when the instruction raises no exception, does not write `mstatus` and the
interrupts are `Masked`. -/
theorem sameEffect_of_masked {q : Inputs xlen} (hs : s.FromReset)
    (hmie : s.core.csr.mstatus.getLsbD mieBit = false) (hraise : s.Raises p = false)
    (hwr : s.writesMstatus p = false) (hmask : s.Masked p) (hbus : p.dbusRdData = q.dbusRdData) :
    s.SameEffect p q := by
  have hmaskq : s.Masked q := by
    have hlow : s.mieNext (linesLow q) = s.mieNext (linesLow p) := by
      rw [linesLow, linesLow, hbus]
    rw [Masked, hlow]
    exact hmask
  have hexc := exception_of_not_raises (hs.irqAlign p) hraise
  have hexcq : (s.csrIn q).exception = false := hexc
  exact sameEffect_of_irqStart (hmask.irqStart hmie hexc) (hmaskq.irqStart hmie hexcq)
    (hmask.negedge_irqStart hmie hexc hwr) (hmaskq.negedge_irqStart hmie hexcq hwr) hbus

/-- Words placed at `TRAP_BASE_ADDRESS`, where `mtvec` points after reset, behind a program
at address 0. -/
def withHandler (words handler : List (BitVec 32)) : List (BitVec 32) :=
  words ++ List.replicate (trapBaseAddress.toNat / 4 - words.length) 0 ++ handler

/-- An interrupted `ADDI` with a handler of two `NOP`s. -/
def twoNops : List (BitVec 32) := withHandler (enableIrq [0x00500093]) [0x00000013, 0x00000013]

/-- The first instruction of the handler, shielded by the history bit. -/
theorem sameEffect_of_masked_nop :
    (runProgram twoNops (fun n ↦ irqLine (n == 4)) 5 : State 32 1024).SameEffect (irqLine true)
      (irqLine false) :=
  sameEffect_of_masked (fromReset_runProgram _ _ _) (by decide +kernel) (by decide +kernel)
    (by decide +kernel) (.inl (by decide +kernel)) rfl

/-- The second instruction of the handler, with `MIE` clear: a line that rises again starts a
nested trap and overwrites `mepc`. -/
theorem not_sameEffect_nop :
    let s : State 32 1024 := runProgram twoNops (fun n ↦ irqLine (n == 4)) 6
    s.FromReset ∧ s.core.csr.mstatus.getLsbD mieBit = false ∧ s.Raises (irqLine true) = false ∧
      s.writesMstatus (irqLine true) = false ∧ ¬s.SameEffect (irqLine true) (irqLine false) := by
  refine ⟨fromReset_runProgram _ _ _, by decide +kernel, by decide +kernel, by decide +kernel, ?_⟩
  rintro ⟨-, -, -, hmepc, -⟩
  revert hmepc
  decide +kernel

/-! ## Taking a trap -/

/-- A trap requested in both halves whose vector is formed at the posedge loads `pc` with it and
`mepc` with the address of the instruction in flight, and writes no register. -/
theorem trap_taken (hx : 32 ≤ xlen) (halign : (s.csrIn p).irqAlign = false)
    (hreq : s.core.imemReq = true) (hstart : s.irqStart p = true)
    (hstart₂ : (s.negedge p).irqStart p = true) (hform : (s.negedge p).FormsVector p) :
    (s.cycle p).core.pc = (s.negedge p).trapVector p ∧
      (s.cycle p).core.csr.mepc = s.core.pc.setWidth xlen ∧ (s.cycle p).regMem = s.regMem := by
  have hok : (s.negedge p).TrapTargetOk p := by
    refine ⟨?_, hform⟩
    rw [negedge_irqStop]
    exact irqStop_of_irqStart p s halign hstart
  refine ⟨?_, ?_, cycle_regMem_of_irqStart p s hstart⟩
  · rw [cycle_pc, if_pos hreq]
    exact (nextPc_eq_trapVector_iff p _ hx hstart₂).mpr hok
  · have hload : s.core.csr.mepcLoad (s.csrIn p) (s.aluRes p) = some (s.core.pc.setWidth xlen) := by
      have hstart' : s.core.csr.irqStart (s.csrIn p) = true := hstart
      rw [Csr.mepcLoad, if_pos hstart']
      rfl
    show (s.core.csr.mepcLoad (s.csrIn p) (s.aluRes p)).getD s.core.csr.mepc = _
    rw [hload]
    rfl

/-! ## Synchronous exceptions -/

/-- In every state of every run an instruction that raises an exception is trapped: `pc` goes
to the vector, `mepc` holds its address and no register is written, provided that no trap
was requested in the period before and that the operation selected by the instruction forms the
vector. -/
theorem exception_taken (hx : 32 ≤ xlen) (hs : s.FromReset) (hreq : s.core.imemReq = true)
    (hraise : s.Raises p = true) (hstarted : s.core.csr.irqStarted = false)
    (hform : (s.negedge p).FormsVector p) :
    (s.cycle p).core.pc = (s.negedge p).trapVector p ∧
      (s.cycle p).core.csr.mepc = s.core.pc.setWidth xlen ∧ (s.cycle p).regMem = s.regMem := by
  have hexc := exception_of_raises hreq hraise
  have hstart : s.irqStart p = true := by
    rw [irqStart_eq, hexc, hstarted, Bool.or_true]
    rfl
  have hstart₂ : (s.negedge p).irqStart p = true := by
    rw [negedge_irqStart_eq, hexc, hstarted, Bool.or_true]
    rfl
  exact trap_taken hx (hs.irqAlign p) hreq hstart hstart₂ hform

/-- ECALL as the first instruction of a program and as the first one of the handler. -/
def ecallTwice : List (BitVec 32) := withHandler [0x00000073] [0x00000073]

theorem exception_taken_ecall :
    let s : State 32 1024 := runProgram ecallTwice (fun _ ↦ irqLine false) 0
    (s.cycle (irqLine false)).core.pc = (s.negedge (irqLine false)).trapVector (irqLine false) ∧
      (s.cycle (irqLine false)).core.csr.mepc = s.core.pc.setWidth 32 ∧
      (s.cycle (irqLine false)).regMem = s.regMem :=
  exception_taken (by decide) (fromReset_runProgram _ _ _) (by decide +kernel) (by decide +kernel)
    (by decide +kernel) (by decide +kernel)

/-- The second one, right after the trap of the first, is passed over. -/
theorem exception_swallowed_ecall :
    let s : State 32 1024 := runProgram ecallTwice (fun _ ↦ irqLine false) 1
    s.FromReset ∧ s.core.imemReq = true ∧ s.Raises (irqLine false) = true ∧
      s.core.pc = 0x3DC ∧ (s.negedge (irqLine false)).trapVector (irqLine false) = 0x3DC ∧
      (s.cycle (irqLine false)).core.pc = 0x3E0 ∧
      (s.cycle (irqLine false)).core.csr.mepc = 0 := by
  refine ⟨fromReset_runProgram _ _ _, ?_⟩
  decide +kernel

end State

end RtlCores.Riscv
