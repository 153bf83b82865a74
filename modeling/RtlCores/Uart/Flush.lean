import RtlCores.Uart.DataReady
import RtlCores.Uart.DriverCalls
import RtlCores.Uart.FifoClear

/-!
# Flushing the FIFOs

`flush_fifo` writes FCR, which holds the mode as well as the clear bits, and it writes a zero for
the mode.  Data ready in non-FIFO mode is a flag of its own, and a clear of the receive FIFO leaves
it as it is.
-/

namespace RtlCores.Uart

open RtlCores.Lib RtlCores.Modules

variable (t : Timing)

/-- The driver on the bus. -/
def Bus.io : DriverIo (StateM Bus) := ⟨ioRead t, ioWrite t⟩

/-! ## Programs -/

/-- What a program does: it calls the driver, or there is any other access. -/
inductive Call
  | setFifoMode (enable : Bool)
  | flushFifo
  | access (ports : Bool → TopIn)

def Call.exec : Call → StateM Bus Unit
  | .setFifoMode enable => RtlCores.Uart.setFifoMode (Bus.io t) enable
  | .flushFifo => RtlCores.Uart.flushFifo (Bus.io t)
  | .access ports => modify fun b ↦ b.access t ports

def exec : List Call → StateM Bus Unit
  | [] => return
  | c :: calls => do
    c.exec t
    exec calls

/-- The mode that was selected last with `set_fifo_mode`, which at first is `mode`. -/
def selected (mode : Bool) : List Call → Bool
  | [] => mode
  | .setFifoMode enable :: calls => selected enable calls
  | _ :: calls => selected mode calls

/-- The bus after a program that starts in non-FIFO mode, as a reset leaves it. -/
def Bus.after (s : Top) (calls : List Call) : Bus := ((exec t calls).run (Bus.start s)).2

/-- The bus after a flush. -/
def Bus.flushed (b : Bus) : Bus := ((flushFifo (Bus.io t)).run b).2

/-- What a flush should leave, seen when the next access begins. -/
structure OnlyFlushed (mode : Bool) (b : Bus) : Prop where
  rx : Top.FifoEmpty .rx (b.ready t).top
  tx : Top.FifoEmpty .tx (b.ready t).top
  rxFifoEmpty : ((rxFifoEmpty (Bus.io t)).run b).1 ≠ 0
  txFifoEmpty : ((txFifoEmpty (Bus.io t)).run b).1 ≠ 0
  mode : (b.ready t).top.fifoEn = mode

/-- A character is there for the processor: it is in the receive FIFO in FIFO mode; in non-FIFO mode
data ready is set or about to be set. -/
def Top.Pending (s : Top) : Prop :=
  if s.fifoEn then s.rxContents ≠ [] else s.rxDone = true ∨ s.lsr.dr = true

instance (s : Top) : Decidable s.Pending :=
  inferInstanceAs (Decidable (if s.fifoEn then s.rxContents ≠ [] else _ ∨ _))

/-- The ports of the FCR write. -/
def flushPorts (sin : Bool) : TopIn := Top.writePorts sin regFcr 0x06

/-- A flush comes while no character is pending, and none arrives in its clock or the next. -/
structure Quiet (b : Bus) : Prop where
  pending : ¬(b.ready t).top.Pending
  write : ((b.ready t).top.mid ((b.ready t).next t flushPorts)).rxReady = false
  idle : ((b.flushed t).top.mid ((b.flushed t).next t Top.idlePorts)).rxReady = false

/-! ## The clocks of a flush -/

namespace Top

variable {i : TopIn} {s : Top}

theorem settle_txFifo (i : TopIn) (s : Top) : (s.settle i).uart.txFifo = s.uart.txFifo :=
  UartUut.settle_txFifo _ _

/-- In non-FIFO mode data ready keeps what it was and what the last clock has brought, unless RBR
is read. -/
theorem mid_dr_of_not_fifoEn (hres : i.res = false) (hread : s.rbrRd i = false)
    (hen : s.fifoEn = false) : (s.mid i).lsr.dr = (s.rxDone || s.lsr.dr) := by
  rw [mid_dr hres, hen, hread, if_neg Bool.false_ne_true, if_neg Bool.false_ne_true]
  cases s.rxDone <;> rfl

theorem fifoEnNext_of_not_wen (hres : i.res = false) (hwen : wen i = false) :
    s.fifoEnNext i = s.fifoEn := by
  rw [fifoEnNext, fcrNext, hres, hwen, if_neg Bool.false_ne_true, if_neg Bool.false_ne_true,
    BitVec.getLsbD_and]
  exact Bool.and_true _

/-- A negedge at which RBR is not read sets data ready exactly if a character is pending. -/
theorem mid_dr_iff_pending (hres : i.res = false) (hread : s.rbrRd i = false) :
    (s.mid i).lsr.dr = true ↔ s.Pending := by
  rw [Pending]
  cases hen : s.fifoEn with
  | true =>
    rw [mid_dr hres, hen]
    cases s.rxContents <;> simp
  | false =>
    rw [mid_dr_of_not_fifoEn hres hread hen, Bool.or_eq_true]
    exact Iff.rfl

/-- After a period that ends in non-FIFO mode a character is pending if one was and it is not
read, or if one arrives. -/
theorem pending_period_iff (hres : i.res = false) (hread : s.rbrRd i = false)
    (hen : s.fifoEnNext i = false) :
    (s.period i).Pending ↔ (s.mid i).rxReady = true ∨ s.Pending := by
  rw [Pending, show (s.period i).fifoEn = false from hen, if_neg Bool.false_ne_true,
    period_rxDone, period_lsr, mid_dr_iff_pending hres hread]

end Top

namespace Bus

variable {t} {b : Bus}

/-- The core when the first access after a flush begins, one idle clock after the flush. -/
theorem ready_flushed (hgap : t.gap (b.accesses + 1) = 1) :
    ((b.flushed t).ready t).top =
      (b.flushed t).top.period ((b.flushed t).next t Top.idlePorts) := by
  show ((b.flushed t).wait t (t.gap (b.accesses + 1))).top = _
  rw [hgap]
  rfl

theorem fcr_flushed (b : Bus) : (b.flushed t).top.fcr = 0x06 := rfl

theorem fcr_ready_flushed (hgap : t.gap (b.accesses + 1) = 1) :
    ((b.flushed t).ready t).top.fcr = 0 := by
  rw [ready_flushed hgap, Top.period_fcr]
  show (b.flushed t).top.fcr &&& 0xF9 = 0
  rw [fcr_flushed]
  decide

/-- Both FIFOs are empty. -/
theorem fifoEmpty_ready_flushed (hgap : t.gap (b.accesses + 1) = 1) (side : FifoSide) :
    Top.FifoEmpty side ((b.flushed t).ready t).top := by
  rw [ready_flushed hgap]
  refine Top.fifoEmpty_period ?_
  rw [Top.resFifo_eq rfl, fcr_flushed]
  cases side <;> rfl

/-- A character is pending after the idle clock if one was pending before the flush or has arrived
since. -/
theorem pending_ready_flushed_iff (hgap : t.gap (b.accesses + 1) = 1) :
    ((b.flushed t).ready t).top.Pending ↔ ¬Quiet t b := by
  have hwrite : (b.flushed t).top.Pending ↔
      ((b.ready t).top.mid ((b.ready t).next t flushPorts)).rxReady = true ∨
        (b.ready t).top.Pending := by
    refine Top.pending_period_iff rfl rfl ?_
    show (0x06#8).getLsbD 0 = false
    decide
  have hidle : ((b.flushed t).top.period ((b.flushed t).next t Top.idlePorts)).Pending ↔
      ((b.flushed t).top.mid ((b.flushed t).next t Top.idlePorts)).rxReady = true ∨
        (b.flushed t).top.Pending := by
    refine Top.pending_period_iff rfl rfl ?_
    rw [Top.fifoEnNext_of_not_wen rfl rfl, Top.fifoEn, fcr_flushed]
    decide
  rw [ready_flushed hgap, hidle, hwrite]
  constructor
  · rintro (h | h | h) hquiet
    · exact absurd (hquiet.idle.symm.trans h) Bool.false_ne_true
    · exact absurd (hquiet.write.symm.trans h) Bool.false_ne_true
    · exact hquiet.pending h
  · intro h
    by_contra hnone
    rw [not_or, not_or, Bool.not_eq_true, Bool.not_eq_true] at hnone
    exact h ⟨hnone.2.2, hnone.2.1, hnone.1⟩

end Bus

/-! ## What the driver sees -/

/-- `rx_fifo_empty` tells whether no character is pending. -/
theorem rxFifoEmpty_ne_zero_iff (b : Bus) :
    ((rxFifoEmpty (Bus.io t)).run b).1 ≠ 0 ↔ ¬(b.ready t).top.Pending := by
  let i := (b.ready t).next t fun sin ↦ Top.readPorts sin regLsr
  have hdr : ((b.ready t).top.mid i).lsr.dr = true ↔ (b.ready t).top.Pending := by
    refine Top.mid_dr_iff_pending rfl ?_
    exact Bool.and_false _
  have hbits : ((b.ready t).top.mid i).lsr.bits &&& 0x01#8 =
      if ((b.ready t).top.mid i).lsr.dr then 0x01#8 else 0#8 := by
    refine (BitVec.and_twoPow _ 0).trans ?_
    rw [Lsr.getLsbD_bits]
    rfl
  show (if ((b.ready t).top.mid i).lsr.bits &&& 0x01#8 == 0 then 1#8 else 0#8) ≠ 0 ↔ _
  rw [← hdr, hbits]
  cases ((b.ready t).top.mid i).lsr.dr
  all_goals decide

/-- `tx_fifo_empty` tells whether the transmit FIFO is empty. -/
theorem txFifoEmpty_ne_zero_iff (b : Bus) :
    ((txFifoEmpty (Bus.io t)).run b).1 ≠ 0 ↔ Top.FifoEmpty .tx (b.ready t).top := by
  let i := (b.ready t).next t fun sin ↦ Top.readPorts sin regLsr
  have htf : ((b.ready t).top.mid i).lsr.tf = (b.ready t).top.txContents.isEmpty := by
    rw [Top.txContents, ← Fifo.empty_eq, ← Top.settle_txFifo i]
    rfl
  have hbits : ((b.ready t).top.mid i).lsr.bits &&& 0x20#8 =
      if ((b.ready t).top.mid i).lsr.tf then 0x20#8 else 0#8 := by
    refine (BitVec.and_twoPow _ 5).trans ?_
    rw [Lsr.getLsbD_bits]
    rfl
  show ((b.ready t).top.mid i).lsr.bits &&& 0x20#8 ≠ 0 ↔ (b.ready t).top.txContents = []
  rw [hbits, htf, ← List.isEmpty_iff]
  cases (b.ready t).top.txContents.isEmpty
  all_goals decide

/-! ## Flushes -/

/-- One idle clock after a flush the core is in non-FIFO mode, and the rest is as it should be
exactly if no character came in the way. -/
theorem onlyFlushed_flushed_iff (mode : Bool) (b : Bus) (hgap : t.gap (b.accesses + 1) = 1) :
    OnlyFlushed t mode (b.flushed t) ↔ mode = false ∧ Quiet t b := by
  have hmode : ((b.flushed t).ready t).top.fifoEn = false := by
    rw [Top.fifoEn, Bus.fcr_ready_flushed hgap]
    rfl
  have hempty := Bus.fifoEmpty_ready_flushed hgap
  constructor
  · intro h
    refine ⟨h.mode.symm.trans hmode, ?_⟩
    have hpending := (rxFifoEmpty_ne_zero_iff t _).mp h.rxFifoEmpty
    rwa [Bus.pending_ready_flushed_iff hgap, not_not] at hpending
  · rintro ⟨rfl, hquiet⟩
    constructor
    case rx => exact hempty .rx
    case tx => exact hempty .tx
    case rxFifoEmpty =>
      rw [rxFifoEmpty_ne_zero_iff, Bus.pending_ready_flushed_iff hgap, not_not]
      exact hquiet
    case txFifoEmpty =>
      rw [txFifoEmpty_ne_zero_iff]
      exact hempty .tx
    case mode => exact hmode

theorem accesses_exec (calls : List Call) (b : Bus) :
    ((exec t calls).run b).2.accesses = b.accesses + calls.length := by
  induction calls generalizing b with
  | nil => rfl
  | cons c calls ih =>
    have hone : ((c.exec t).run b).2.accesses = b.accesses + 1 := by
      cases c <;> rfl
    have hrest := ih ((c.exec t).run b).2
    rw [hone, Nat.add_right_comm] at hrest
    exact hrest

/-- After every program, a flush only flushes exactly if the mode that was selected last is non-FIFO
mode and no character is pending or arrives. -/
theorem onlyFlushed_iff (s : Top) (calls : List Call) (hgap : t.gap (calls.length + 1) = 1) :
    OnlyFlushed t (selected false calls) ((Bus.after t s calls).flushed t) ↔
      selected false calls = false ∧ Quiet t (Bus.after t s calls) := by
  refine onlyFlushed_flushed_iff t _ _ ?_
  have haccesses : (Bus.after t s calls).accesses = 0 + calls.length := accesses_exec t calls _
  rw [haccesses, Nat.zero_add]
  exact hgap

/-- The line is idle and there is an idle clock before every access. -/
def restful : Timing := ⟨fun _ ↦ true, fun _ ↦ 1⟩

/-- Non-FIFO mode, and a byte in THR. -/
def thrWritten : List Call :=
  [.setFifoMode false, .access fun sin ↦ Top.writePorts sin regThr 0x41]

/-- The byte waits in the transmit FIFO and is flushed. -/
theorem onlyFlushed_iff_restful :
    (Bus.after restful Top.poweredUp thrWritten).top.txContents = [0x41] ∧
      OnlyFlushed restful false
        ((Bus.after restful Top.poweredUp thrWritten).flushed restful) :=
  ⟨by decide +kernel, (onlyFlushed_iff restful Top.poweredUp thrWritten rfl).mpr
    ⟨rfl, ⟨by decide +kernel, by decide +kernel, by decide +kernel⟩⟩⟩

/-- A flush in FIFO mode turns it off. -/
theorem not_onlyFlushed_fifoMode :
    ¬∀ (t : Timing) (s : Top) (calls : List Call), Top.AfterReset s →
      t.gap (calls.length + 1) = 1 →
      OnlyFlushed t (selected false calls) ((Bus.after t s calls).flushed t) := by
  intro h
  have hmode := (h restful Top.poweredUp [.setFifoMode true] Top.afterReset_poweredUp rfl).mode
  exact absurd hmode (by decide +kernel)

end RtlCores.Uart
