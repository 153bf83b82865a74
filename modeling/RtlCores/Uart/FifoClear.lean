import RtlCores.Uart.DivisorLatch

/-!
# Clearing a FIFO

A write to FCR with TXCLR or RXCLR leaves that bit in the register, where it resets the FIFO until
it is cleared.  It is cleared in a clock without a write; a write to another register keeps it.
-/

namespace RtlCores.Uart

open RtlCores.Lib RtlCores.Modules

/-- The two FIFOs. -/
inductive FifoSide
  | rx | tx

/-- The clear bit of a FIFO in FCR. -/
def FifoSide.clrBit : FifoSide → Nat
  | rx => 1
  | tx => 2

namespace Top

/-- The reset line of a FIFO. -/
def resFifo : FifoSide → TopIn → Top → Bool
  | .rx, i, s => UartUut.resRxf (s.uartIn i)
  | .tx, i, s => UartUut.resTxf (s.uartIn i)

def FifoEmpty : FifoSide → Top → Prop
  | .rx, s => s.rxContents = []
  | .tx, s => s.txContents = []

/-- A write to FCR. -/
def fcrWr (i : TopIn) : Bool := wen i && i.addr == regFcr

/-- A write to FCR that clears a FIFO. -/
def clears (side : FifoSide) (i : TopIn) : Bool := fcrWr i && i.dataIn.getLsbD side.clrBit

/-- A write to THR while the transmit FIFO is not full. -/
def Offers (i : TopIn) (s : Top) : Prop :=
  s.thrWr i = true ∧ (s.mid i).uart.txFull ((s.mid i).uartIn i) = false

/-- The byte on the bus goes into the transmit FIFO: what was held and the byte are what the
transmitter takes and what is held afterwards. -/
def Keeps (i : TopIn) (s : Top) : Prop :=
  s.txContents ++ [i.dataIn] = (s.taken i).toList ++ (s.period i).txContents

/-- What a clear that is written in clock 0 should do. -/
structure OneShot (side : FifoSide) (is : Nat → TopIn) (s : Top) : Prop where
  /-- The FIFO is empty after the next clock. -/
  empties : FifoEmpty side (after is s 2)
  /-- Unless FCR is written again, the FIFO is reset in that clock only. -/
  once : ∀ n, 1 ≤ n → (∀ k, 1 ≤ k → k < n → fcrWr (is k) = false) →
    (resFifo side (is n) (after is s n) = true ↔ n = 1)
  /-- Until the next clear, every byte written to THR is kept. -/
  kept : side = .tx → ∀ n, 1 ≤ n → (∀ k, 1 ≤ k → k < n → clears .tx (is k) = false) →
    (after is s n).Offers (is n) → (after is s n).Keeps (is n)

variable {side : FifoSide} {i : TopIn} {s : Top} {is : Nat → TopIn}

/-! ## One period -/

theorem resFifo_eq (hres : i.res = false) : resFifo side i s = s.fcr.getLsbD side.clrBit := by
  cases side
  all_goals
    show (i.res || _) = _
    rw [hres, Bool.false_or]
    rfl

theorem fifoEmpty_period (h : resFifo side i s = true) : FifoEmpty side (s.period i) := by
  cases side with
  | rx =>
    refine rxContents_period_clear ?_
    rwa [← Bool.or_eq_true]
  | tx =>
    show (s.period i).uart.txFifo.contents = []
    rw [period_txFifo]
    exact Fifo.contents_clock_of_res _ h

/-- A clear bit after a period. -/
theorem getLsbD_clrBit_period (hres : i.res = false) :
    (s.period i).fcr.getLsbD side.clrBit =
      if fcrWr i then clears side i else wen i && s.fcr.getLsbD side.clrBit := by
  rw [period_fcr, fcrNext, hres, if_neg Bool.false_ne_true, clears, fcrWr]
  cases hwen : wen i with
  | false =>
    rw [if_neg Bool.false_ne_true, BitVec.getLsbD_and]
    cases side <;> exact Bool.and_false _
  | true =>
    by_cases haddr : i.addr = regFcr
    · simp [haddr]
    · simp [haddr]

/-- A FIFO that does not count as full has room. -/
theorem full_eq_false_of_txFull (hf : s.uart.txFifo.WellFormed)
    (h : (s.mid i).uart.txFull ((s.mid i).uartIn i) = false) : s.uart.txFifo.full = false := by
  rw [UartUut.txFull, mid_txFifo] at h
  cases hen : UartUut.fifoEn ((s.mid i).uartIn i) with
  | true => simpa [hen] using h
  | false =>
    have hempty : s.uart.txFifo.empty = true := by simpa [hen] using h
    exact hf.full_eq_false_of_empty hempty

/-- A byte that is written while the FIFO is neither full nor being cleared is kept. -/
theorem Offers.keeps (h : s.Offers i) (hf : s.uart.txFifo.WellFormed)
    (hlow : resFifo .tx i s = false) : s.Keeps i := by
  obtain ⟨hwr, hfull⟩ := h
  have hpush : (s.txReq i).push = true := by
    show (s.thrWr i && !(s.mid i).uart.txFull ((s.mid i).uartIn i)) = true
    rw [hwr, hfull]
    rfl
  have hpushed : Fifo.pushed (s.txReq i) s.uart.txFifo = some i.dataIn := by
    rw [Fifo.pushed, Fifo.wen, hpush, full_eq_false_of_txFull hf hfull]
    rfl
  have hconserve := hf.conserve (s.txReq i) hlow
  rw [hpushed] at hconserve
  rw [Keeps, txContents, txContents, period_txFifo]
  exact hconserve

/-! ## Runs -/

/-- A clear bit that is low stays low until a clear is written. -/
theorem clrBit_low_after {m : Nat} (hlow : (after is s m).fcr.getLsbD side.clrBit = false)
    (d : Nat) (hno : ∀ k, m ≤ k → k < m + d → clears side (is k) = false) :
    (after is s (m + d)).fcr.getLsbD side.clrBit = false := by
  refine fcr_low_after hlow d fun k hk hlt hwen haddr ↦ ?_
  have hclr := hno k hk hlt
  rwa [clears, fcrWr, hwen, haddr, beq_self_eq_true, Bool.and_self, Bool.true_and] at hclr

/-- The bit is up in the clock after the write. -/
theorem clrBit_after_one (hres : (is 0).res = false) (hclr : clears side (is 0) = true) :
    (after is s 1).fcr.getLsbD side.clrBit = true := by
  have hwr : fcrWr (is 0) = true := by
    rw [clears, Bool.and_eq_true] at hclr
    exact hclr.1
  rw [after, run_succ, run_zero, getLsbD_clrBit_period hres, if_pos hwr, hclr]

/-- It is low after the next clock, unless another register is written in that clock or FCR again
with the bit. -/
theorem clrBit_after_two (hres : (is 1).res = false)
    (hfree : wen (is 1) = true → (is 1).addr = regFcr) (hno : clears side (is 1) = false) :
    (after is s 2).fcr.getLsbD side.clrBit = false := by
  rw [after, run_succ, getLsbD_clrBit_period hres, hno]
  cases hwr : fcrWr (is 1) with
  | true => rfl
  | false =>
    have hwen : wen (is 1) = false := by
      rw [Bool.eq_false_iff]
      intro hwen
      rw [fcrWr, hwen, hfree hwen] at hwr
      exact absurd hwr (by decide)
    rw [hwen, Bool.false_and, ite_self]

/-- From the second clock after the write on, the bit is low until the next clear. -/
theorem resFifo_after_free (hres : ∀ n, (is n).res = false)
    (hfree : wen (is 1) = true → (is 1).addr = regFcr) {n : Nat} (hn : 2 ≤ n)
    (hno : ∀ k, 1 ≤ k → k < n → clears side (is k) = false) :
    resFifo side (is n) (after is s n) = false := by
  obtain ⟨d, rfl⟩ : ∃ d, n = 2 + d := ⟨n - 2, by omega⟩
  have htwo := clrBit_after_two (s := s) (hres 1) hfree (hno 1 le_rfl (by omega))
  rw [resFifo_eq (hres _)]
  exact clrBit_low_after htwo d fun k hk hlt ↦ hno k (by omega) hlt

/-- A clear followed by a clock without a write to another register does what it should. -/
theorem oneShot_of_free (hs : Reached s) (hres : ∀ n, (is n).res = false)
    (hclr : clears side (is 0) = true) (hfree : wen (is 1) = true → (is 1).addr = regFcr) :
    OneShot side is s := by
  have hup : resFifo side (is 1) (after is s 1) = true := by
    rw [resFifo_eq (hres 1)]
    exact clrBit_after_one (hres 0) hclr
  constructor
  case empties => exact fifoEmpty_period hup
  case once =>
    intro n hn hno
    rcases Nat.eq_or_lt_of_le hn with rfl | hlt
    · exact iff_of_true hup rfl
    · have hlow : ∀ k, 1 ≤ k → k < n → clears side (is k) = false := by
        intro k hk hkn
        rw [clears, hno k hk hkn, Bool.false_and]
      rw [resFifo_after_free hres hfree hlt hlow]
      exact iff_of_false Bool.false_ne_true (Nat.ne_of_gt hlt)
  case kept =>
    rintro rfl n hn hno hoffers
    have hfifo : (after is s n).uart.txFifo.WellFormed := by
      have hreached : Reached (after is s n) := Reachable.run hs is n
      exact hreached.fifosWellFormed.tx
    rcases Nat.eq_or_lt_of_le hn with rfl | hlt
    · -- a write to THR is not a write to FCR
      have hwr := hoffers.1
      rw [thrWr, Bool.and_eq_true, Bool.and_eq_true, beq_iff_eq] at hwr
      obtain ⟨⟨hwen, -⟩, haddr⟩ := hwr
      exact absurd (haddr.symm.trans (hfree hwen)) (by decide)
    · exact hoffers.keeps hfifo (resFifo_after_free hres hfree hlt hno)

/-- A write to another register keeps the bit, and the FIFO is reset once more. -/
theorem not_oneShot_of_write (hres : ∀ n, (is n).res = false)
    (hclr : clears side (is 0) = true) (hwen : wen (is 1) = true) (haddr : (is 1).addr ≠ regFcr) :
    ¬OneShot side is s := by
  intro h
  have hno : fcrWr (is 1) = false := by
    rw [fcrWr, beq_false_of_ne haddr, Bool.and_false]
  have hfirst := h.once 2 (by decide) fun k hk hlt ↦ by
    obtain rfl : k = 1 := by omega
    exact hno
  have hup : resFifo side (is 2) (after is s 2) = true := by
    rw [resFifo_eq (hres 2), after, run_succ, getLsbD_clrBit_period (hres 1), hno, hwen,
      if_neg Bool.false_ne_true, Bool.true_and]
    exact clrBit_after_one (hres 0) hclr
  exact absurd (hfirst.mp hup) (by decide)

/-- From every state reached and for every sequence of accesses, a clear is a one-shot exactly if
the next clock has no write to another register. -/
theorem oneShot_iff (side : FifoSide) (is : Nat → TopIn) (s : Top) (hs : Reached s)
    (hres : ∀ n, (is n).res = false) (hclr : clears side (is 0) = true) :
    OneShot side is s ↔ (wen (is 1) = true → (is 1).addr = regFcr) := by
  constructor
  · intro h hwen
    by_contra haddr
    exact not_oneShot_of_write hres hclr hwen haddr h
  · exact oneShot_of_free hs hres hclr

/-- FIFO mode is turned on and both FIFOs are cleared; the next write comes after an idle clock. -/
def clearThenSend (n : Nat) : TopIn :=
  [writePorts true regFcr 0x07, idlePorts true, writePorts true regThr 0x41].getD n
    (idlePorts true)

theorem oneShot_iff_clearThenSend :
    OneShot .tx clearThenSend poweredUp ∧ OneShot .rx clearThenSend poweredUp := by
  have hs : Reached poweredUp := ⟨poweredUp, clearThenSend, 0, afterReset_poweredUp, rfl⟩
  have hres : ∀ n, (clearThenSend n).res = false :=
    forall_getD (P := fun i ↦ i.res = false) (by decide) rfl
  exact ⟨(oneShot_iff .tx clearThenSend poweredUp hs hres rfl).mpr fun h ↦ absurd h (by decide),
    (oneShot_iff .rx clearThenSend poweredUp hs hres rfl).mpr fun h ↦ absurd h (by decide)⟩

/-- The transmit FIFO is cleared and THR is written in the next clock. -/
def clearAndSend (n : Nat) : TopIn :=
  [writePorts true regFcr 0x05, writePorts true regThr 0x41].getD n (idlePorts true)

/-- The byte is discarded by the clear. -/
theorem not_oneShot_clearAndSend :
    ¬∀ (side : FifoSide) (is : Nat → TopIn) (s : Top), Reached s → (∀ n, (is n).res = false) →
      clears side (is 0) = true → OneShot side is s := by
  intro h
  have hshot := h .tx clearAndSend poweredUp
    ⟨poweredUp, clearAndSend, 0, afterReset_poweredUp, rfl⟩
    (forall_getD (P := fun i ↦ i.res = false) (by decide) rfl) rfl
  have hkept := hshot.kept rfl 1 le_rfl (fun k hk hlt ↦ absurd hk (by omega))
    ⟨by decide +kernel, by decide +kernel⟩
  have hgone : (after clearAndSend poweredUp 2).txContents = [] := by decide +kernel
  have hlen := congrArg List.length hkept
  rw [List.length_append, List.length_append,
    show ((after clearAndSend poweredUp 1).period (clearAndSend 1)).txContents = [] from hgone]
    at hlen
  have htaken : (after clearAndSend poweredUp 1).taken (clearAndSend 1) = none := by
    decide +kernel
  rw [htaken] at hlen
  exact absurd hlen (by simp)

end Top

end RtlCores.Uart
