import RtlCores.Uart.LoopbackCore
import RtlCores.Uart.Overrun

/-!
# The core before anything is sent

From a reset on, as long as THR is not written and the line is high, both machines wait, whatever
the registers are set to in the meantime.
-/

namespace RtlCores.Uart

open RtlCores.Lib RtlCores.Modules

/-! ## Machines that wait -/

/-- A tick in which nothing is enqueued. -/
def TxEnv.idle : TxEnv := ⟨[], 0, false⟩

namespace Loop

/-- Both machines wait. -/
structure Idle (l : Loop) : Prop where
  queue : l.line.queue = []
  tx : l.line.tx.txFsm = .idle
  rx : l.rx.rxFsm = .idle

variable {lc : BitVec 8} {l : Loop}

theorem idle_init (s : Tx) (r : Rx) : Idle (init 16 s r) := ⟨rfl, rfl, rfl⟩

theorem tx_fsm_idle {s : Tx} (h : s.txFsm = .idle) {i : TxIn} (hi : i.txStart = false) :
    (s.clock 16 lc i).txFsm = .idle := by
  show (if s.firstRise 16 then s.fsmCase lc i.txStart s.nextTxFsm else s.txFsm) = .idle
  rw [Tx.fsmCase, h, hi]
  split <;> rfl

theorem Idle.dout (h : Idle l) (e : TxEnv) : l.line.dout lc e = true := by
  rw [TxLine.dout, Tx.txDout, h.tx]

theorem Idle.queueNext (h : Idle l) : l.line.queueNext .idle = [] := by
  have hready : l.line.tx.txReady = false := by rw [Tx.txReady, h.tx]
  rw [TxLine.queueNext, hready, if_neg Bool.false_ne_true, h.queue]
  rfl

theorem Idle.step (h : Idle l) : Idle (l.step 16 lc .idle) := by
  constructor
  case queue => exact h.queueNext
  case tx =>
    refine tx_fsm_idle h.tx ?_
    rw [h.queueNext]
    rfl
  case rx =>
    show (l.rx.clock 16 lc (l.line.dout lc .idle)).rxFsm = .idle
    rw [h.dout]
    exact Rx.idle_of_clock h.rx

/-- The loop some ticks after a reset. -/
def rested (lc : BitVec 8) (s : Tx) (r : Rx) (k : Nat) : Loop :=
  run (step 16 lc) (fun _ ↦ .idle) (init 16 s r) k

theorem idle_rested (lc : BitVec 8) (s : Tx) (r : Rx) (k : Nat) : Idle (rested lc s r k) := by
  induction k with
  | zero => exact idle_init s r
  | succ k ih => exact ih.step

variable (lc) in
/-- A tick of a transmitter that waits does not depend on the line format. -/
theorem tx_clock_idle {s : Tx} (h : s.txFsm = .idle) {i : TxIn} (hi : i.txStart = false)
    (lc' : BitVec 8) (e : TxEnv) : s.clock 16 lc' i = s.clock 16 lc (e.offer []) := by
  have hload : ∀ j : TxIn, ShiftReg.clock (s.tsrIn j) s.tsr = s.tsr := by
    intro j
    refine ShiftReg.clock_keep _ ?_ ?_
    · show s.loadEn = false
      rw [Tx.loadEn, h]
      rfl
    · show s.sregEn = false
      rw [Tx.sregEn, h]
      rfl
  rw [Tx.clock, Tx.clock, hload, hload, Tx.latch, Tx.latch, Tx.fsmCase, Tx.fsmCase, h, hi,
    Tx.cbIncr, h]
  rfl

variable (lc) in
/-- Nor does one of a receiver that waits. -/
theorem rx_clock_idle {r : Rx} (h : r.rxFsm = .idle) (lc' : BitVec 8) :
    r.clock 16 lc' true = r.clock 16 lc true := by
  rw [Rx.clock, Rx.clock, Rx.latch, Rx.latch, Rx.fsmCase, Rx.fsmCase, h]

end Loop

/-! ## The core while it is set up -/

namespace UartUut

theorem settle_txPulled (i : UartIn) (u : UartUut) : (u.settle i).txPulled = u.txPulled := by
  have hfollow : ∀ u : UartUut, (u.follow true i).txPulled = u.txPulled := by
    intro u
    unfold UartUut.follow
    split <;> rfl
  rw [UartUut.settle, hfollow]
  exact hfollow u

/-- A reset puts both machines and the synchroniser where they start. -/
theorem settle_of_res {i : UartIn} (hres : i.res = true) (u : UartUut) :
    ∃ (x : Tx) (y : Rx), (u.settle i).tx = x.reset ∧ (u.settle i).rx = y.reset 16 ∧
      (u.settle i).rxSyncReg = 7 := by
  have hstill : ∀ u : UartUut, (u.follow true i).tx = u.tx ∧ (u.follow true i).rx = u.rx := by
    intro u
    rw [UartUut.follow, hres, Bool.not_true, Bool.and_false, if_neg Bool.false_ne_true]
    exact ⟨rfl, rfl⟩
  refine ⟨(u.follow true i).tx, (u.follow true i).rx, ?_, ?_, ?_⟩
  · rw [UartUut.settle, (hstill _).1, UartUut.async, hres]
    rfl
  · rw [UartUut.settle, (hstill _).2, UartUut.async, hres]
    rfl
  · rw [UartUut.settle, follow_rxSyncReg, UartUut.async, hres]
    rfl

/-- Nothing has been sent or received: the machines are as some ticks after a reset, and the
synchroniser has heard an idle line. -/
structure Resting (lc : BitVec 8) (u : UartUut) : Prop where
  rested : ∃ x y k, ⟨⟨u.tx, []⟩, u.rx⟩ = Loop.rested lc x y k
  sync : u.rxSyncReg = 7

variable {lc : BitVec 8} {i : UartIn} {u : UartUut}

namespace Resting

theorem idle (h : Resting lc u) : Loop.Idle ⟨⟨u.tx, []⟩, u.rx⟩ := by
  obtain ⟨x, y, k, hk⟩ := h.rested
  rw [hk]
  exact Loop.idle_rested lc x y k

theorem tx_idle (h : Resting lc u) : u.tx.txFsm = .idle := h.idle.tx

theorem rxDone (h : Resting lc u) : u.rxDone = false := by
  rw [UartUut.rxDone, Rx.rxDone, show u.rx.rxFsm = .idle from h.idle.rx]
  rfl

/-- The line is high. -/
theorem rxSin (h : Resting lc u) (hext : i.rxExt = true) : u.rxSin i = true := by
  rw [UartUut.rxSin, UartUut.txExt, Tx.txDout, h.tx_idle, hext, ite_self]

theorem rxDin (h : Resting lc u) (hext : i.rxExt = true) : u.rxDin i = true := by
  rw [UartUut.rxDin, h.rxSin hext, UartUut.rxSync, h.sync]
  exact ite_self _

theorem tick (h : Resting lc u) (hext : i.rxExt = true) (hempty : u.txFifo.empty = true) :
    Resting lc (u.tick i) := by
  obtain ⟨x, y, k, hk⟩ := h.rested
  refine ⟨⟨x, y, k + 1, ?_⟩, h.sync⟩
  have hstart : u.txIn.txStart = false := by rw [UartUut.txIn, hempty, Bool.not_true]
  rw [Loop.rested, run_succ, ← Loop.rested, ← hk, Loop.step, h.idle.dout, TxLine.step,
    h.idle.queueNext, UartUut.tick, h.rxDin hext,
    Loop.tx_clock_idle lc h.tx_idle hstart i.lcreg .idle,
    Loop.rx_clock_idle lc h.idle.rx]

theorem follow (h : Resting lc u) (clk : Bool) (hext : i.rxExt = true)
    (hempty : u.txFifo.empty = true) : Resting lc (u.follow clk i) := by
  rw [UartUut.follow]
  split
  · exact ⟨(h.tick hext hempty).rested, h.sync⟩
  · exact ⟨h.rested, h.sync⟩

theorem settle (h : Resting lc u) (hres : i.res = false) (hext : i.rxExt = true)
    (hempty : u.txFifo.empty = true) : Resting lc (u.settle i) := by
  have hfirst := h.follow true hext hempty
  have hasync : Resting lc ((u.follow true i).async i) := by
    rw [UartUut.async, hres]
    exact ⟨hfirst.rested, hfirst.sync⟩
  refine hasync.follow true hext ?_
  show (u.follow true i).txFifo.empty = true
  rw [follow_txFifo]
  exact hempty

theorem posedge (h : Resting lc u) (hres : i.res = false) (hext : i.rxExt = true) :
    Resting lc (u.posedge i) := by
  refine ⟨h.rested, ?_⟩
  show (if i.res then 7 else u.rxSyncReg.extractLsb' 0 2 ++ BitVec.ofBool (u.rxSin i)) = 7
  rw [hres, if_neg Bool.false_ne_true, h.sync, h.rxSin hext]
  rfl

end Resting

end UartUut

namespace Top

/-- A period before anything is sent: the line is idle and THR is not written. -/
structure SetsUp (i : TopIn) (s : Top) : Prop where
  res : i.res = false
  sin : i.sin = true
  thrWr : s.thrWr i = false

/-- Nothing has been sent or received. -/
structure Resting (lc : BitVec 8) (s : Top) : Prop where
  fifos : FifosWellFormed s
  uart : s.uart.Resting lc
  empty : s.txContents = []
  pulled : s.uart.txPulled = false
  doneSet : s.uart.rxDoneSet = false

variable {lc : BitVec 8} {i : TopIn} {s : Top}

theorem Resting.mid (h : s.Resting lc) (hi : s.SetsUp i) : (s.mid i).uart.Resting lc := by
  have hempty : s.uart.txFifo.empty = true := by
    rw [Fifo.empty_eq, List.isEmpty_iff]
    exact h.empty
  have hsettle := h.uart.settle (i := (s.latchDivisor i).uartIn i) hi.res hi.sin hempty
  exact ⟨hsettle.rested, hsettle.sync⟩

theorem Resting.period (h : s.Resting lc) (hi : s.SetsUp i) : (s.period i).Resting lc := by
  have hmid := h.mid hi
  have hempty : (s.period i).txContents = [] := by
    have hsuffix := txContents_suffix (i := i) h.fifos.tx hi.thrWr
    rw [h.empty] at hsuffix
    exact List.suffix_nil.mp hsuffix
  have hposedge : ((s.mid i).posedge i).uart.Resting lc := hmid.posedge hi.res hi.sin
  constructor
  case fifos => exact h.fifos.period i
  case uart =>
    refine hposedge.settle hi.res hi.sin ?_
    rw [Fifo.empty_eq, List.isEmpty_iff]
    rw [← hempty, txContents]
    exact congrArg Fifo.contents (UartUut.settle_txFifo _ _).symm
  case empty => exact hempty
  case pulled =>
    refine (UartUut.settle_txPulled _ _).trans ?_
    show (s.mid i).uart.tx.txReady = false
    rw [Tx.txReady, hmid.tx_idle]
  case doneSet => exact (UartUut.settle_rxDoneSet _ _).trans hmid.rxDone

/-- Nothing has been sent or received after a reset. -/
theorem AfterReset.resting (h : AfterReset s) (lc : BitVec 8) : s.Resting lc := by
  have hfifos := Reached.fifosWellFormed (s := s) ⟨s, fun _ ↦ resetPorts, 0, h, rfl⟩
  obtain ⟨s₀, i, j, -, hj, rfl⟩ := h
  obtain ⟨x, y, htx, hrx, hsync⟩ := UartUut.settle_of_res (i := (s₀.period i |>.mid j |>.posedge j
    |>.latchDivisor j).uartIn j) hj ((s₀.period i).mid j |>.posedge j).uart
  obtain ⟨x', y', htx', hrx', -⟩ := UartUut.settle_of_res
    (i := ((s₀.period i).latchDivisor j).uartIn j) hj (s₀.period i).uart
  have hclr : resFifo .tx j (s₀.period i) = true := by
    show (j.res || _) = true
    rw [hj, Bool.true_or]
  constructor
  case fifos => exact hfifos
  case uart => exact ⟨⟨x, y, 0, congrArg₂ (fun t r ↦ (⟨⟨t, []⟩, r⟩ : Loop)) htx hrx⟩, hsync⟩
  case empty => exact fifoEmpty_period hclr
  case pulled =>
    refine (UartUut.settle_txPulled _ _).trans ?_
    show (((s₀.period i).uart.settle _).tx).txReady = false
    rw [htx']
    rfl
  case doneSet =>
    refine (UartUut.settle_rxDoneSet _ _).trans ?_
    show (((s₀.period i).uart.settle _).rx).rxDone 16 = false
    rw [hrx']
    rfl

theorem Resting.completed (h : s.Resting lc) (hi : s.SetsUp i) : s.completed i = none := by
  have hdone := (h.mid hi).rxDone
  rw [Top.completed, rxReady, UartUut.rxReady, hdone, Bool.false_and, if_neg Bool.false_ne_true]

theorem Resting.accepted (hi : s.SetsUp i) : s.accepted i = [] := accepted_of_not_thrWr hi.thrWr

end Top

end RtlCores.Uart
