import RtlCores.Uart.Loopback
import RtlCores.Uart.RxSync
import RtlCores.Uart.SessionSends
import RtlCores.Uart.Ticks

/-!
# The core in loopback

With loopback on, the line of `uart_top` is its own transmitter.  Between two rises of the baud
clock the system clock has any number of posedges, at which bytes enter the transmit FIFO, the byte
that has been sent leaves it, and the synchroniser samples the line.  Seen from rise to rise this is
`Loop`, the transmitter with a queue and the receiver on one clock: a rise is a step of `Loop`, and
the other periods only add to what is going to be enqueued.
-/

namespace RtlCores.Uart

open RtlCores.Lib RtlCores.Modules

/-! ## One period of the UART with steady lines -/

namespace UartUut

/-- The lines of a UART in loopback that nobody resets or sets up. -/
structure Steady (lc : BitVec 8) (d : BitVec 16) (i : UartIn) : Prop where
  res : i.res = false
  baudRes : i.baudRes = false
  loopback : i.loopback = true
  divisor : i.divisor = d
  lcreg : i.lcreg = lc

/-- `baudout` has the level of its generator. -/
def Still (d : BitVec 16) (s : UartUut) : Prop := s.baudout = s.baudGen.clkOut true true d

/-- The baud clock rises at the end of the period. -/
def rises (d : BitVec 16) (s : UartUut) : Bool :=
  !s.baudGen.clkOut true false d && (s.baudGen.clock d).clkOut true true d

variable {lc : BitVec 8} {d : BitVec 16} {i j : UartIn} {s : UartUut}

theorem Steady.baudLevel (hi : Steady lc d i) (clk : Bool) (s : UartUut) :
    s.baudLevel clk i = s.baudGen.clkOut true clk d := by
  rw [UartUut.baudLevel, hi.divisor]

theorem Steady.async (hi : Steady lc d i) (s : UartUut) : s.async i = s := by
  unfold UartUut.async
  rw [hi.res, hi.baudRes]
  rfl

/-- What has settled stays as it is. -/
theorem Still.follow (h : s.Still d) (hi : Steady lc d i) : s.follow true i = s := by
  have hlevel : s.baudLevel true i = s.baudout := (hi.baudLevel true s).trans h.symm
  have hno : (!s.baudout && s.baudout && !i.res) = false := by
    rw [Bool.not_and_self, Bool.false_and]
  rw [UartUut.follow, hlevel, hno, if_neg Bool.false_ne_true]

theorem Still.settle (h : s.Still d) (hi : Steady lc d i) : s.settle i = s := by
  rw [UartUut.settle, h.follow hi, hi.async, h.follow hi]

/-- The registers after the posedge of `clk`, before `baudout` follows. -/
def edge (i : UartIn) (s : UartUut) : UartUut := (s.negedge i).posedge i

theorem edge_baudout (hi : Steady lc d i) : (s.edge i).baudout = s.baudGen.clkOut true false d :=
  hi.baudLevel false s

theorem edge_baudGen (hi : Steady lc d i) : (s.edge i).baudGen = s.baudGen.clock d := by
  show (if i.res || i.baudRes then _ else s.baudGen.clock i.divisor) = _
  rw [hi.res, hi.baudRes, hi.divisor]
  rfl

/-- The machines tick if the baud clock rises, and nothing else happens. -/
theorem settle_edge (hi : Steady lc d i) (hj : Steady lc d j) :
    (s.edge i).settle j =
      if s.rises d then { (s.edge i).tick j with baudout := true }
      else { s.edge i with baudout := (s.baudGen.clock d).clkOut true true d } := by
  have hlevel : (s.edge i).baudLevel true j = (s.baudGen.clock d).clkOut true true d := by
    rw [hj.baudLevel, edge_baudGen hi]
  have hfollow : (s.edge i).follow true j =
      if s.rises d then { (s.edge i).tick j with baudout := true }
      else { s.edge i with baudout := (s.baudGen.clock d).clkOut true true d } := by
    rw [UartUut.follow, hlevel, edge_baudout hi, hj.res, Bool.not_false, Bool.and_true]
    rfl
  -- the rest of the settling finds `baudout` as it should be
  have hstill : ((s.edge i).follow true j).Still d := by
    rw [Still, follow_baudout, hj.baudLevel, follow_baudGen]
  rw [UartUut.settle, hj.async, hstill.follow hj, hfollow]

end UartUut

/-! ## One period of the core in loopback -/

namespace Top

/-- The core is set up for loopback with the line control word `lc` and the divisor `d`, and no
clear of a FIFO is under way. -/
structure InLoop (lc : BitVec 8) (d : BitVec 16) (s : Top) : Prop where
  lcr : s.lcr = lc
  dlab : lc.getLsbD 7 = false
  loop : s.mcr.getLsbD 4 = true
  divisor : s.divisor = d
  clear : ∀ k, k = 1 ∨ k = 2 → s.fcr.getLsbD k = false

/-- The ports neither reset the core, nor set it up anew, nor clear a FIFO. -/
structure KeepsSetUp (i : TopIn) : Prop where
  res : i.res = false
  setUp : wen i = true → i.addr ≠ regLcr ∧ i.addr ≠ regMcr
  fcr : wen i = true → i.addr = regFcr → ∀ k, k = 1 ∨ k = 2 → i.dataIn.getLsbD k = false

/-- A period of a core in loopback. -/
structure Looped (lc : BitVec 8) (d : BitVec 16) (i : TopIn) (s : Top) : Prop
    extends InLoop lc d s, KeepsSetUp i

variable {lc : BitVec 8} {d : BitVec 16} {i j : TopIn} {s : Top}

namespace Looped

theorem baudLoad (h : s.Looped lc d i) : s.baudLoad i = false := by
  rw [Top.baudLoad, Top.dlab, h.lcr, h.dlab, Bool.and_false]

theorem steady (h : s.Looped lc d i) : UartUut.Steady lc d (s.uartIn i) :=
  ⟨h.res, h.baudLoad, h.loop, h.divisor, h.lcr⟩

theorem latchDivisor (h : s.Looped lc d i) : s.latchDivisor i = s := by
  rw [Top.latchDivisor, h.baudLoad]
  rfl

theorem settle (h : s.Looped lc d i) (hs : s.uart.Still d) : s.settle i = s := by
  rw [Top.settle, h.latchDivisor, hs.settle h.steady]

theorem written (h : s.Looped lc d i) {a : BitVec 3} (ha : a = regLcr ∨ a = regMcr)
    (x old : BitVec 8) : written i a x old = old := by
  rw [Top.written, h.res, if_neg Bool.false_ne_true]
  cases hwen : wen i with
  | false => rfl
  | true =>
    have hne : i.addr ≠ a := by
      rcases ha with rfl | rfl
      · exact (h.setUp hwen).1
      · exact (h.setUp hwen).2
    rw [beq_false_of_ne hne]
    rfl

/-- What has been set up stays. -/
theorem lcr_period (h : s.Looped lc d i) : (s.period i).lcr = lc := by
  rw [period_lcr, h.written (.inl rfl), h.lcr]

theorem loop_period (h : s.Looped lc d i) : (s.period i).mcr.getLsbD 4 = true := by
  rw [period_mcr, h.written (.inr rfl), h.loop]

theorem divisor_period (h : s.Looped lc d i) : (s.period i).divisor = d := by
  rw [Top.divisor, period_dll i s h.res, period_dlm i s h.res, h.baudLoad]
  exact h.divisor

theorem clear_period (h : s.Looped lc d i) {k : Nat} (hk : k = 1 ∨ k = 2) :
    (s.period i).fcr.getLsbD k = false :=
  fcr_low_period (h.clear k hk) fun hwen haddr ↦ h.fcr hwen haddr k hk

theorem inLoop_period (h : s.Looped lc d i) : (s.period i).InLoop lc d :=
  ⟨h.lcr_period, h.dlab, h.loop_period, h.divisor_period, fun _ hk ↦ h.clear_period hk⟩

/-- The lines once the registers have moved. -/
theorem steady_period (h : s.Looped lc d i) : UartUut.Steady lc d ((s.period i).uartIn i) where
  res := h.res
  baudRes := by
    show (s.period i).baudLoad i = false
    rw [Top.baudLoad, Top.dlab, h.lcr_period, h.dlab, Bool.and_false]
  loopback := h.loop_period
  divisor := h.divisor_period
  lcreg := h.lcr_period

theorem mid_eq (h : s.Looped lc d i) (hs : s.uart.Still d) : s.mid i = s.negedge i := by
  rw [mid, h.settle hs]

/-- The machines after a period. -/
theorem uart_period (h : s.Looped lc d i) (hs : s.uart.Still d) :
    (s.period i).uart =
      if s.uart.rises d then
        { (s.uart.edge (s.uartIn i)).tick ((s.period i).uartIn i) with baudout := true }
      else { s.uart.edge (s.uartIn i) with
        baudout := (s.uart.baudGen.clock d).clkOut true true d } := by
  rw [← UartUut.settle_edge h.steady h.steady_period]
  show (((s.mid i).posedge i).uart).settle ((s.period i).uartIn i) = _
  rw [h.mid_eq hs]
  rfl

theorem still_period (h : s.Looped lc d i) : (s.period i).uart.Still d := by
  have hlevel := UartUut.settle_baudout (s := ((s.mid i).posedge i).uart)
    (i := (s.period i).uartIn i)
  rw [h.steady_period.baudLevel] at hlevel
  exact hlevel

/-! ### The registers -/

theorem baudGen_period (h : s.Looped lc d i) (hs : s.uart.Still d) :
    (s.period i).uart.baudGen = s.uart.baudGen.clock d := by
  rw [h.uart_period hs, ← UartUut.edge_baudGen h.steady]
  split <;> rfl

theorem txPulled_period (h : s.Looped lc d i) (hs : s.uart.Still d) :
    (s.period i).uart.txPulled = s.uart.tx.txReady := by
  rw [h.uart_period hs]
  split <;> rfl

theorem rxDoneSet_period (h : s.Looped lc d i) (hs : s.uart.Still d) :
    (s.period i).uart.rxDoneSet = s.uart.rx.rxDone 16 := by
  rw [h.uart_period hs]
  split <;> rfl

/-- The synchroniser samples the transmitter's line. -/
theorem rxSyncReg_period (h : s.Looped lc d i) (hs : s.uart.Still d) :
    (s.period i).uart.rxSyncReg =
      s.uart.rxSyncReg.extractLsb' 0 2 ++ BitVec.ofBool (s.uart.tx.txDout lc s.uart.txIn) := by
  have hedge : (s.uart.edge (s.uartIn i)).rxSyncReg =
      s.uart.rxSyncReg.extractLsb' 0 2 ++ BitVec.ofBool (s.uart.tx.txDout lc s.uart.txIn) := by
    show (if i.res then 7 else s.uart.rxSyncReg.extractLsb' 0 2 ++
      BitVec.ofBool ((s.uart.negedge (s.uartIn i)).rxSin (s.uartIn i))) = _
    rw [h.res, if_neg Bool.false_ne_true, UartUut.rxSin, h.steady.loopback, if_pos rfl,
      UartUut.txExt, h.steady.lcreg]
    rfl
  rw [h.uart_period hs, ← hedge]
  split <;> rfl

theorem txFifo_edge (h : s.Looped lc d i) (hs : s.uart.Still d) :
    (s.uart.edge (s.uartIn i)).txFifo = (s.period i).uart.txFifo := by
  rw [h.uart_period hs]
  split <;> rfl

/-- The transmitter ticks with what is in its FIFO once the posedge has come. -/
theorem tx_period (h : s.Looped lc d i) (hs : s.uart.Still d) :
    (s.period i).uart.tx =
      if s.uart.rises d then s.uart.tx.clock 16 lc (s.period i).uart.txIn else s.uart.tx := by
  have hin : (s.uart.edge (s.uartIn i)).txIn = (s.period i).uart.txIn := by
    rw [UartUut.txIn, UartUut.txIn, h.txFifo_edge hs]
  rw [← hin, h.uart_period hs]
  split
  · show s.uart.tx.clock 16 ((s.period i).uartIn i).lcreg _ = _
    rw [h.steady_period.lcreg]
  · rfl

/-- The receiver ticks with the line, as it is or as the synchroniser has it. -/
theorem rx_period (h : s.Looped lc d i) (hs : s.uart.Still d) :
    (s.period i).uart.rx =
      if s.uart.rises d then s.uart.rx.clock 16 lc
        (if d.extractLsb' 2 7 == 0 then s.uart.tx.txDout lc (s.period i).uart.txIn
          else (s.period i).uart.rxSync)
      else s.uart.rx := by
  have hin : (s.uart.edge (s.uartIn i)).txIn = (s.period i).uart.txIn := by
    rw [UartUut.txIn, UartUut.txIn, h.txFifo_edge hs]
  have hsync : (s.uart.edge (s.uartIn i)).rxSync = (s.period i).uart.rxSync := by
    rw [h.uart_period hs]
    split <;> rfl
  rw [← hin, ← hsync, h.uart_period hs]
  split
  · show s.uart.rx.clock 16 ((s.period i).uartIn i).lcreg
      ((s.uart.edge (s.uartIn i)).rxDin ((s.period i).uartIn i)) = _
    rw [UartUut.rxDin, UartUut.rxSin, UartUut.txExt, h.steady_period.lcreg,
      h.steady_period.loopback, h.steady_period.divisor, if_pos rfl]
    rfl
  · rfl

end Looped

/-! ### The transmit FIFO -/

/-- The head leaves the FIFO for the first clock of a `tx_ready` pulse, and what is accepted goes in
at the end. -/
theorem txContents_period (hf : s.uart.txFifo.WellFormed) (hlow : resFifo .tx i s = false) :
    (s.period i).txContents =
      (if (s.mid i).uart.txReady then s.txContents.tail else s.txContents) ++ s.accepted i := by
  have hclock := hf.contents_clock (s.txReq i) hlow
  rw [Queue.step_of_not_flush (show (s.txReq i).req.flush = false from hlow), ← hf.wen_eq] at hclock
  rw [txContents, period_txFifo, hclock, accepted, hlow, if_neg Bool.false_ne_true, Fifo.pushed]
  congr 1
  · show (if (s.mid i).uart.txReady && !s.txContents.isEmpty then _ else _) = _
    cases (s.mid i).uart.txReady with
    | false => rfl
    | true =>
      cases hq : s.txContents with
      | nil => rw [show s.uart.txFifo.contents = [] from hq]; rfl
      | cons x q => rw [show s.uart.txFifo.contents = x :: q from hq]; rfl
  · split <;> rfl

theorem txContents_period_looped (h : s.Looped lc d i) (hs : s.uart.Still d)
    (hf : s.uart.txFifo.WellFormed) :
    (s.period i).txContents =
      (if s.uart.txReady then s.txContents.tail else s.txContents) ++ s.accepted i := by
  rw [txContents_period hf ((resFifo_eq h.res).trans (h.clear 2 (.inr rfl))), h.mid_eq hs]
  rfl

end Top

/-! ## The transmitter and its queue -/

namespace Tx

variable {lc : BitVec 8} {i : TxIn} {s : Tx}

/-- `tx_ready` lasts one tick. -/
theorem txReady_of_clock (h : (s.clock 16 lc i).txReady = true) : s.txReady = false := by
  rw [Bool.eq_false_iff]
  intro hready
  have hstop : s.txFsm = .stop ∧ s.countTicks = 1 := by
    unfold txReady at hready
    split at hready
    case h_1 hfsm =>
      rw [Bool.and_eq_true, beq_iff_eq, beq_iff_eq] at hready
      exact ⟨hfsm, hready.2⟩
    case h_2 => contradiction
  have hcount : (s.clock 16 lc i).countTicks = 2 := by
    show s.countNext 16 = 2
    have hbw : tickBw 16 + 1 = 4 := tickBw_two_pow (show 2 ≤ 4 by decide)
    rw [countNext, hstop.1, hstop.2, hbw]
    rfl
  unfold txReady at h
  split at h
  case h_1 =>
    rw [hcount] at h
    exact absurd h (by simp)
  case h_2 => contradiction

theorem txReady_of_busy (h : s.tsrEmpty = false) : s.txReady = false := by
  unfold tsrEmpty at h
  unfold txReady
  split at h <;> simp_all

/-- A byte is begun only when there is one. -/
theorem tsrEmpty_clock (hs : s.Settled lc) (ticksNum : Nat)
    (h : (s.clock ticksNum lc i).tsrEmpty = false) : s.tsrEmpty = false ∨ i.txStart = true := by
  by_cases hrise : s.firstRise ticksNum = true
  · have hfsm : (s.clock ticksNum lc i).txFsm = s.fsmCase lc i.txStart s.txFsm :=
      (if_pos hrise).trans (hs i.txStart)
    rw [tsrEmpty, hfsm] at h
    rw [tsrEmpty]
    cases hold : s.txFsm with
    | start | data | parity => exact .inl rfl
    | idle | stopHalf =>
      rw [fsmCase, hold] at h
      cases hstart : i.txStart with
      | true => exact .inr rfl
      | false =>
        rw [hstart] at h
        contradiction
    | stop =>
      rw [fsmCase, hold] at h
      cases hstart : i.txStart with
      | true => exact .inr rfl
      | false =>
        rw [hstart] at h
        revert h
        cases halfParity lc <;> cases s.countBits == stopBits lc <;> simp
  · left
    have hfsm : (s.clock ticksNum lc i).txFsm = s.txFsm := if_neg hrise
    rwa [tsrEmpty, hfsm, ← tsrEmpty] at h

end Tx

namespace TxLine

/-- The byte that is being sent is at the head of the queue. -/
structure Holds (lc : BitVec 8) (l : TxLine) : Prop where
  settled : l.tx.Settled lc
  busy : l.tx.tsrEmpty = false → l.queue ≠ []

variable {lc : BitVec 8} {l : TxLine}

theorem Holds.queueNext_ne_nil (h : Holds lc l) (hbusy : l.tx.tsrEmpty = false) (e : TxEnv) :
    l.queueNext e ≠ [] := by
  rw [queueNext, Tx.txReady_of_busy hbusy, if_neg Bool.false_ne_true]
  exact List.append_ne_nil_of_left_ne_nil (h.busy hbusy) _

theorem Holds.step (h : Holds lc l) (ticksNum : Nat) (e : TxEnv) :
    Holds lc (l.step ticksNum lc e) where
  settled := h.settled.clock _ _
  busy hbusy := by
    show l.queueNext e ≠ []
    rcases Tx.tsrEmpty_clock h.settled ticksNum hbusy with hold | hstart
    · exact h.queueNext_ne_nil hold e
    · intro hnil
      rw [TxEnv.offer, hnil] at hstart
      contradiction

/-- The level of the line while nothing is enqueued. -/
def level (lc : BitVec 8) (l : TxLine) : Bool := l.tx.txDout lc ⟨false, l.queue.headD 0, false⟩

/-- The line shows the byte on `tx_din` in the parity bit only, when it is the head of the queue. -/
theorem txDout_eq_level {i : TxIn} (h : l.tx.tsrEmpty = false → i.txDin = l.queue.headD 0) :
    l.tx.txDout lc i = l.level lc := by
  rw [level, Tx.txDout, Tx.txDout]
  cases hfsm : l.tx.txFsm with
  | parity =>
    have hdin := h (by rw [Tx.tsrEmpty, hfsm])
    simp only [hdin]
  | idle | start | data | stop | stopHalf => rfl

theorem Holds.dout (h : Holds lc l) (e : TxEnv) : l.dout lc e = l.level lc := by
  refine txDout_eq_level fun hbusy ↦ ?_
  obtain ⟨x, q, hq⟩ := List.exists_cons_of_ne_nil (h.busy hbusy)
  rw [TxEnv.offer, hq]
  rfl

end TxLine

/-! ## The simulation -/

/-- Since the last rise of the baud clock, when the machines were as in `l`, the bytes `acc` have
entered the transmit FIFO. -/
structure Carries (lc : BitVec 8) (d : BitVec 16) (l : Loop) (acc : List (BitVec 8)) (s : Top) :
    Prop where
  holds : TxLine.Holds lc l.line
  fifos : Top.FifosWellFormed s
  still : s.uart.Still d
  tx : s.uart.tx = l.line.tx
  rx : s.uart.rx = l.rx
  /-- A byte that has been sent leaves the FIFO at the first posedge of the system clock. -/
  queue : s.txContents = (if l.line.tx.txReady && s.uart.txPulled then l.line.queue.tail
    else l.line.queue) ++ acc
  fresh : l.line.tx.txReady = true → s.uart.txPulled = false → acc = []
  /-- Once `baudout` is low the synchroniser has sampled the line. -/
  sync : d.extractLsb' 2 7 ≠ 0 → s.uart.baudGen.clkOut true false d = false →
    s.uart.rxSyncReg.getLsbD 0 = l.line.level lc

namespace Carries

variable {lc : BitVec 8} {d : BitVec 16} {l : Loop} {acc : List (BitVec 8)} {s : Top} {i : TopIn}

theorem dout_of_contents {s : Top} {x : BitVec 8} {q : List (BitVec 8)}
    (h : s.txContents = x :: q) : s.uart.txFifo.dout = x := by
  have hpos : 0 < s.uart.txFifo.count.toNat := by
    rw [← Fifo.length_contents]
    exact List.length_pos_of_ne_nil fun hnil ↦ List.cons_ne_nil x q (h.symm.trans hnil)
  have hhead := Fifo.head?_contents hpos
  rw [show s.uart.txFifo.contents = x :: q from h] at hhead
  exact (Option.some_inj.mp hhead).symm

/-- The line of the core, when its transmit FIFO holds the queue and more. -/
theorem txDout_eq (hl : TxLine.Holds lc l.line) {s : Top} (more : List (BitVec 8))
    (hq : l.line.tx.txReady = false → s.txContents = l.line.queue ++ more) :
    l.line.tx.txDout lc s.uart.txIn = l.line.level lc := by
  refine TxLine.txDout_eq_level fun hbusy ↦ ?_
  obtain ⟨x, q, hcons⟩ := List.exists_cons_of_ne_nil (hl.busy hbusy)
  have hcontents := hq (Tx.txReady_of_busy hbusy)
  rw [hcons, List.cons_append] at hcontents
  rw [hcons]
  exact dout_of_contents hcontents

theorem line (h : Carries lc d l acc s) : s.uart.tx.txDout lc s.uart.txIn = l.line.level lc := by
  rw [h.tx]
  refine txDout_eq h.holds acc fun hready ↦ ?_
  rw [h.queue, hready, Bool.false_and, if_neg Bool.false_ne_true]

/-- The transmit FIFO after a period. -/
theorem queue_period (h : Carries lc d l acc s) (hi : s.Looped lc d i) :
    (s.period i).txContents =
      (if l.line.tx.txReady then l.line.queue.tail else l.line.queue) ++ (acc ++ s.accepted i) := by
  have hpull : s.uart.txReady = (l.line.tx.txReady && !s.uart.txPulled) := by
    rw [UartUut.txReady, h.tx]
  rw [Top.txContents_period_looped hi h.still h.fifos.tx, hpull, h.queue, ← List.append_assoc]
  cases hready : l.line.tx.txReady with
  | false => rfl
  | true =>
    cases hpulled : s.uart.txPulled with
    | true => rfl
    | false =>
      rw [h.fresh hready hpulled, List.append_nil, List.append_nil]
      rfl

/-- The newest sample of the line. -/
theorem newest_period (h : Carries lc d l acc s) (hi : s.Looped lc d i) :
    (s.period i).uart.rxSyncReg.getLsbD 0 = l.line.level lc ∧
      (s.period i).uart.rxSyncReg.getLsbD 1 = s.uart.rxSyncReg.getLsbD 0 := by
  obtain ⟨hnewest, hmiddle, -⟩ := UartUut.getLsbD_shiftIn s.uart.rxSyncReg
    (s.uart.tx.txDout lc s.uart.txIn)
  rw [hi.rxSyncReg_period h.still]
  exact ⟨hnewest.trans h.line, hmiddle⟩

/-- A period in which the baud clock does not rise. -/
theorem period_of_not_rises (h : Carries lc d l acc s) (hi : s.Looped lc d i)
    (hrise : s.uart.rises d = false) : Carries lc d l (acc ++ s.accepted i) (s.period i) := by
  have hpulled : (s.period i).uart.txPulled = l.line.tx.txReady := by
    rw [hi.txPulled_period h.still, h.tx]
  constructor
  case holds => exact h.holds
  case fifos => exact h.fifos.period i
  case still => exact hi.still_period
  case tx => rw [hi.tx_period h.still, hrise, if_neg Bool.false_ne_true, h.tx]
  case rx => rw [hi.rx_period h.still, hrise, if_neg Bool.false_ne_true, h.rx]
  case queue => rw [h.queue_period hi, hpulled, Bool.and_self]
  case fresh =>
    rintro hready hlow
    rw [hpulled, hready] at hlow
    contradiction
  case sync => exact fun _ _ ↦ (h.newest_period hi).1

/-- What happens in the step of `Loop` that such a period is. -/
def env (acc : List (BitVec 8)) (i : TopIn) (s : Top) : TxEnv :=
  ⟨acc ++ s.accepted i, (s.period i).uart.txFifo.dout, false⟩

theorem offer_eq (h : Carries lc d l acc s) (hi : s.Looped lc d i) :
    (env acc i s).offer (l.line.queueNext (env acc i s)) = (s.period i).uart.txIn := by
  have hqueue : l.line.queueNext (env acc i s) = (s.period i).txContents :=
    (h.queue_period hi).symm
  rw [hqueue, TxEnv.offer, UartUut.txIn, Fifo.empty_eq]
  congr 1
  cases hq : (s.period i).txContents with
  | nil => rfl
  | cons x q => exact (dout_of_contents hq).symm

/-- A period in which the baud clock rises is a step of `Loop`. -/
theorem period_of_rises (h : Carries lc d l acc s) (hi : s.Looped lc d i)
    (hrise : s.uart.rises d = true) :
    Carries lc d (l.step 16 lc (env acc i s)) [] (s.period i) := by
  have hqueue : l.line.queueNext (env acc i s) = (s.period i).txContents :=
    (h.queue_period hi).symm
  have hlow : s.uart.baudGen.clkOut true false d = false := by
    rw [UartUut.rises, Bool.and_eq_true, Bool.not_eq_true'] at hrise
    exact hrise.1
  obtain ⟨hnewest, hmiddle⟩ := h.newest_period hi
  constructor
  case holds => exact h.holds.step 16 _
  case fifos => exact h.fifos.period i
  case still => exact hi.still_period
  case tx =>
    rw [hi.tx_period h.still, if_pos hrise, h.tx, ← h.offer_eq hi]
    rfl
  case rx =>
    rw [hi.rx_period h.still, if_pos hrise, h.rx]
    show _ = l.rx.clock 16 lc (l.line.dout lc (env acc i s))
    rw [h.holds.dout]
    congr 1
    by_cases hdirect : d.extractLsb' 2 7 = 0
    · rw [if_pos (beq_iff_eq.mpr hdirect), h.tx]
      refine txDout_eq h.holds (acc ++ s.accepted i) fun hready ↦ ?_
      rw [h.queue_period hi, hready, if_neg Bool.false_ne_true]
    · rw [if_neg (by rwa [beq_iff_eq]), UartUut.rxSync, hnewest, hmiddle, h.sync hdirect hlow]
      cases l.line.level lc <;> cases (s.period i).uart.rxSyncReg.getLsbD 2 <;> rfl
  case queue =>
    rw [List.append_nil, ← hqueue, hi.txPulled_period h.still, h.tx]
    show _ = if (l.line.tx.clock 16 lc _).txReady && l.line.tx.txReady then _ else _
    cases hready : (l.line.tx.clock 16 lc
        ((env acc i s).offer (l.line.queueNext (env acc i s)))).txReady with
    | false => rfl
    | true =>
      rw [Tx.txReady_of_clock hready]
      rfl
  case fresh => exact fun _ _ ↦ rfl
  case sync =>
    rintro hnot hlow'
    have htwo : 2 ≤ d.toNat := by
      by_contra hlt
      refine hnot (BitVec.eq_of_toNat_eq ?_)
      rw [BitVec.extractLsb'_toNat, Nat.shiftRight_eq_div_pow, Nat.div_eq_of_lt (by omega)]
      rfl
    rw [UartUut.rises, Bool.and_eq_true] at hrise
    rw [hi.baudGen_period h.still, ClockDivider.clkOut_of_two_le htwo] at hlow'
    rw [ClockDivider.clkOut_of_two_le htwo, ClockDivider.clkOut_of_two_le htwo, hlow'] at hrise
    exact absurd hrise.2 Bool.false_ne_true

end Carries

end RtlCores.Uart
