import RtlCores.Uart.Top

/-!
# What one period does

The settling of the baud clock moves the serial machines only, so the registers and the FIFOs of a
period change at its posedge.  One lemma for each of them, and the invariant of the FIFOs.
-/

namespace RtlCores.Uart

open RtlCores.Lib RtlCores.Modules

/-! ## Settling -/

namespace UartUut

variable (clk : Bool) (i : UartIn) (s : UartUut)

@[simp] theorem follow_rxFifo : (s.follow clk i).rxFifo = s.rxFifo := by
  unfold follow
  split <;> rfl

@[simp] theorem follow_txFifo : (s.follow clk i).txFifo = s.txFifo := by
  unfold follow
  split <;> rfl

@[simp] theorem follow_rxDoneSet : (s.follow clk i).rxDoneSet = s.rxDoneSet := by
  unfold follow
  split <;> rfl

@[simp] theorem follow_baudGen : (s.follow clk i).baudGen = s.baudGen := by
  unfold follow
  split <;> rfl

@[simp] theorem settle_rxFifo : (s.settle i).rxFifo = s.rxFifo := by simp [settle, async]

@[simp] theorem settle_txFifo : (s.settle i).txFifo = s.txFifo := by simp [settle, async]

@[simp] theorem settle_rxDoneSet : (s.settle i).rxDoneSet = s.rxDoneSet := by
  simp [settle, async]

end UartUut

namespace Top

variable (i : TopIn) (s : Top)

theorem settle_rxFifo : (s.settle i).uart.rxFifo = s.uart.rxFifo := UartUut.settle_rxFifo _ _

@[simp] theorem mid_rxFifo : (s.mid i).uart.rxFifo = s.uart.rxFifo :=
  UartUut.settle_rxFifo _ _

@[simp] theorem mid_txFifo : (s.mid i).uart.txFifo = s.uart.txFifo :=
  UartUut.settle_txFifo _ _

/-- What the receiver offers and the processor asks of the receive FIFO in a period. -/
def rxReq : FifoIn 10 := (s.mid i).uart.rxFifoIn ((s.mid i).uartIn i)

/-- What the processor offers and the transmitter asks of the transmit FIFO in a period. -/
def txReq : FifoIn 8 := (s.mid i).uart.txFifoIn ((s.mid i).uartIn i)

theorem period_rxFifo : (s.period i).uart.rxFifo = s.uart.rxFifo.clock (s.rxReq i) := by
  have hsettle := UartUut.settle_rxFifo ((((s.mid i).posedge i).latchDivisor i).uartIn i)
    ((s.mid i).posedge i).uart
  refine hsettle.trans ?_
  show (s.mid i).uart.rxFifo.clock (s.rxReq i) = _
  rw [mid_rxFifo]

theorem period_txFifo : (s.period i).uart.txFifo = s.uart.txFifo.clock (s.txReq i) := by
  have hsettle := UartUut.settle_txFifo ((((s.mid i).posedge i).latchDivisor i).uartIn i)
    ((s.mid i).posedge i).uart
  refine hsettle.trans ?_
  show (s.mid i).uart.txFifo.clock (s.txReq i) = _
  rw [mid_txFifo]

@[simp] theorem period_lcr : (s.period i).lcr = written i regLcr i.dataIn s.lcr := rfl

@[simp] theorem period_ier : (s.period i).ier = written i regIer (i.dataIn &&& 0x0F#8) s.ier := rfl

@[simp] theorem period_mcr : (s.period i).mcr = written i regMcr (i.dataIn &&& 0x3F#8) s.mcr := rfl

@[simp] theorem period_fcr : (s.period i).fcr = s.fcrNext i := rfl

@[simp] theorem period_rxDone : (s.period i).rxDone = (s.mid i).rxReady := rfl

@[simp] theorem period_lsr : (s.period i).lsr = (s.mid i).lsr := rfl

@[simp] theorem period_postLsrRd : (s.period i).postLsrRd = lsrRd i := rfl

theorem written_of_ne {a : BitVec 3} (hres : i.res = false) (ha : i.addr ≠ a) (x old : BitVec 8) :
    written i a x old = old := by
  rw [written, hres, if_neg Bool.false_ne_true, beq_false_of_ne ha, Bool.and_false,
    if_neg Bool.false_ne_true]

/-- A divisor latch that is open in both halves: LCR is not written at its address. -/
theorem latched_twice {a : BitVec 3} (hres : i.res = false) (ha : a ≠ regLcr) (old : BitVec 8) :
    (if baudLoad i ((s.mid i).posedge i) && i.addr == a then i.dataIn
      else if s.baudLoad i && i.addr == a then i.dataIn else old) =
      if s.baudLoad i && i.addr == a then i.dataIn else old := by
  by_cases haddr : i.addr = a
  · have hlcr : ((s.mid i).posedge i).lcr = s.lcr := written_of_ne i hres (by rwa [haddr]) _ _
    have hload : baudLoad i ((s.mid i).posedge i) = s.baudLoad i := by
      rw [baudLoad, baudLoad, dlab, dlab, hlcr]
    rw [hload]
    split <;> rfl
  · rw [beq_false_of_ne haddr, Bool.and_false, Bool.and_false, if_neg Bool.false_ne_true]

/-- The divisor latches follow the data bus during a write to their address with DLAB set. -/
theorem period_dll (hres : i.res = false) :
    (s.period i).dll = if s.baudLoad i && i.addr == regDll then i.dataIn else s.dll :=
  latched_twice i s hres (by decide) s.dll

theorem period_dlm (hres : i.res = false) :
    (s.period i).dlm = if s.baudLoad i && i.addr == regDlm then i.dataIn else s.dlm :=
  latched_twice i s hres (by decide) s.dlm

/-! ## Runs -/

/-- What holds of the inputs in a list and of the default holds of every input of the stream. -/
theorem forall_getD {P : TopIn → Prop} {l : List TopIn} {d : TopIn} (hl : ∀ x ∈ l, P x) (hd : P d)
    (n : Nat) : P (l.getD n d) := by
  rcases Nat.lt_or_ge n l.length with hlt | hge
  · rw [List.getD_eq_getElem _ _ hlt]
    exact hl _ (List.getElem_mem hlt)
  · rw [List.getD_eq_default _ _ hge]
    exact hd

/-- The state after `n` periods. -/
abbrev after (is : Nat → TopIn) (s : Top) (n : Nat) : Top := run (fun i s ↦ s.period i) is s n

/-- The states after a reset that lasts two clocks. -/
def AfterReset (s : Top) : Prop :=
  ∃ s₀ i j, i.res = true ∧ j.res = true ∧ s = (period j (period i s₀))

/-- The states of the runs that start with a reset. -/
abbrev Reached (s : Top) : Prop := Reachable AfterReset (fun i s ↦ s.period i) s

def resetPorts : TopIn := ⟨true, false, false, false, true, 0, 0⟩

/-- Registers that hold zeros before the first reset. -/
def zeros : Top where
  uart :=
    { baudGen := ⟨0, true⟩
      baudout := true
      tx := ⟨0, 0, .idle, .idle, 0⟩
      rx := ⟨0, 0, .idle, .idle, false, false, false, 0, false⟩
      rxFifo := ⟨fun _ ↦ 0, 0, 0, 0, 0, 0⟩
      txFifo := ⟨fun _ ↦ 0, 0, 0, 0, 0, 0⟩
      rxSyncReg := 0
      rxDoneSet := false
      txPulled := false }
  dll := 0
  dlm := 0
  lcr := 0
  ier := 0
  fcr := 0
  mcr := 0
  iir := 0
  lsr := ⟨false, false, false, false, false, false, false, false⟩
  postLsrRd := false
  rxDone := false
  rdUart := false
  dataOut := 0

/-- The state after a reset of registers that hold zeros. -/
def poweredUp : Top := (zeros.period resetPorts).period resetPorts

theorem afterReset_poweredUp : AfterReset poweredUp :=
  ⟨zeros, resetPorts, resetPorts, rfl, rfl, rfl⟩

/-- The registers of both FIFOs agree with each other. -/
structure FifosWellFormed (s : Top) : Prop where
  rx : s.uart.rxFifo.WellFormed
  tx : s.uart.txFifo.WellFormed

variable {i s}

theorem fifosWellFormed_of_res (h : i.res = true) : FifosWellFormed (s.period i) where
  rx := by
    rw [period_rxFifo]
    exact Fifo.wellFormed_clock_of_res _ (Bool.or_eq_true_iff.mpr (.inl h))
  tx := by
    rw [period_txFifo]
    exact Fifo.wellFormed_clock_of_res _ (Bool.or_eq_true_iff.mpr (.inl h))

theorem wellFormed_clock {a w : Nat} {f : Fifo a w} (hf : f.WellFormed) (q : FifoIn w) :
    (f.clock q).WellFormed := by
  cases h : q.res with
  | true => exact Fifo.wellFormed_clock_of_res q h
  | false => exact hf.clock q h

theorem FifosWellFormed.period (h : FifosWellFormed s) (i : TopIn) :
    FifosWellFormed (s.period i) where
  rx := by
    rw [period_rxFifo]
    exact wellFormed_clock h.rx _
  tx := by
    rw [period_txFifo]
    exact wellFormed_clock h.tx _

theorem Reached.fifosWellFormed (h : Reached s) : FifosWellFormed s := by
  refine Reachable.invariant ?_ (fun i s hs ↦ hs.period i) h
  rintro s ⟨s₀, i, j, -, hj, rfl⟩
  exact fifosWellFormed_of_res hj

/-! ## The clear bits of FCR -/

/-- A bit of FCR that is low stays low in a period that does not write it. -/
theorem fcr_low_period {k : Nat} (hlow : s.fcr.getLsbD k = false)
    (hwr : wen i = true → i.addr = regFcr → i.dataIn.getLsbD k = false) :
    (s.period i).fcr.getLsbD k = false := by
  rw [period_fcr, fcrNext]
  split
  · exact BitVec.getLsbD_zero
  · split
    case isTrue hwen =>
      split
      case isTrue haddr => exact hwr hwen haddr
      case isFalse => exact hlow
    case isFalse => rw [BitVec.getLsbD_and, hlow, Bool.false_and]

theorem fcr_low_after {is : Nat → TopIn} {k m : Nat}
    (hlow : (after is s m).fcr.getLsbD k = false) (d : Nat)
    (hwr : ∀ n, m ≤ n → n < m + d →
      wen (is n) = true → (is n).addr = regFcr → (is n).dataIn.getLsbD k = false) :
    (after is s (m + d)).fcr.getLsbD k = false := by
  induction d with
  | zero => exact hlow
  | succ d ih =>
    have hbefore := ih fun n hn hlt ↦ hwr n hn (Nat.lt_succ_of_lt hlt)
    exact fcr_low_period hbefore (hwr (m + d) (Nat.le_add_right m d) (Nat.lt_succ_self _))

/-! ## The receive FIFO -/

/-- The receiver's word is accepted whenever the FIFO does not count as full. -/
theorem wen_rxReq (hf : s.uart.rxFifo.WellFormed) (i : TopIn) :
    s.uart.rxFifo.wen (s.rxReq i) = ((s.mid i).rxReady && !(s.mid i).rxFull i) := by
  have hpush : (s.rxReq i).push = ((s.mid i).rxReady && !(s.mid i).rxFull i) := rfl
  rw [Fifo.wen, hpush]
  cases hr : (s.mid i).rxReady && !(s.mid i).rxFull i with
  | false => rfl
  | true =>
    -- not full in the sense of either mode means that there is room
    rw [Bool.and_eq_true, Bool.not_eq_true', rxFull, UartUut.rxFull, mid_rxFifo] at hr
    have hfull : s.uart.rxFifo.full = false := by
      cases hen : UartUut.fifoEn ((s.mid i).uartIn i) with
      | true => simpa [hen] using hr.2
      | false =>
        have hempty : s.uart.rxFifo.empty = true := by simpa [hen] using hr.2
        exact hf.full_eq_false_of_empty hempty
    rw [hfull]
    rfl

/-- The characters in the receive FIFO, oldest first. -/
def rxContents (s : Top) : List (BitVec 10) := s.uart.rxFifo.contents

theorem rxContents_period_clear (h : i.res = true ∨ s.fcr.getLsbD 1 = true) :
    (s.period i).rxContents = [] := by
  rw [rxContents, period_rxFifo]
  refine Fifo.contents_clock_of_res _ ?_
  show (i.res || s.fcr.getLsbD 1) = true
  rcases h with h | h <;> simp [h]

/-- Outside a clear, a read takes the oldest character and an accepted word goes in at the end. -/
theorem rxContents_period (hf : s.uart.rxFifo.WellFormed) (hres : i.res = false)
    (hclr : s.fcr.getLsbD 1 = false) :
    (s.period i).rxContents = (if s.rbrRd i then s.rxContents.tail else s.rxContents) ++
      if (s.mid i).rxReady && !(s.mid i).rxFull i then [(s.rxReq i).din] else [] := by
  have hlow : (s.rxReq i).res = false := by
    show (i.res || s.fcr.getLsbD 1) = false
    rw [hres, hclr]
    rfl
  rw [rxContents, period_rxFifo, hf.contents_clock _ hlow,
    Queue.step_of_not_flush (show (s.rxReq i).req.flush = false from hlow), ← hf.wen_eq,
    wen_rxReq hf]
  congr 1
  show (if s.rbrRd i && !s.rxContents.isEmpty then _ else _) = _
  cases s.rbrRd i with
  | false => rfl
  | true => cases hc : s.rxContents <;> simp [rxContents] at hc ⊢ <;> simp [hc]

/-- In non-FIFO mode one character fills the FIFO. -/
theorem rxFull_of_not_fifoEn (h : s.fifoEn = false) (i : TopIn) :
    (s.mid i).rxFull i = !s.rxContents.isEmpty := by
  rw [rxFull, UartUut.rxFull, mid_rxFifo, Fifo.empty_eq,
    show UartUut.fifoEn ((s.mid i).uartIn i) = false from h]
  rfl

end Top

end RtlCores.Uart
