import RtlCores.Modules.ClockDivider
import RtlCores.Modules.Fifo
import RtlCores.Uart.Rx
import RtlCores.Uart.Tx

/-!
# The UART without its registers (`UART/uart.sv`)

The baud generator, the transmitter and the receiver with their FIFOs, and the detectors that turn
pulses of the baud clock into pulses of the system clock.  The receive clock is `baudout`, as in
loopback, and as the testbenches connect `rclk`.

Delays are left out, but not the order of events: `UartUut.follow` is the reaction to a new level of
`baudout`, and `UartUut.settle` what happens between a posedge of `clk` and the next negedge.
-/

namespace RtlCores.Uart

open RtlCores.Lib RtlCores.Modules

/-- The lines of `uart` that its environment drives. -/
structure UartIn where
  res : Bool
  rdUart : Bool
  wrUart : Bool
  rxExt : Bool
  baudRes : Bool
  loopback : Bool
  wrData : BitVec 8
  divisor : BitVec 16
  lcreg : BitVec 8
  fcreg : BitVec 8

/-- The registers of `uart`; `baudout` is the level of the baud clock. -/
structure UartUut where
  baudGen : ClockDivider 16
  baudout : Bool
  tx : Tx
  rx : Rx
  rxFifo : Fifo 4 10
  txFifo : Fifo 4 8
  rxSyncReg : BitVec 3
  rxDoneSet : Bool
  txPulled : Bool

/-- The ten bits of `rx_out`. -/
def RxOut.bits (o : RxOut) : BitVec 10 := BitVec.ofBool o.errF ++ BitVec.ofBool o.errP ++ o.sout

namespace UartUut

variable (clk : Bool) (i : UartIn) (s : UartUut)

/-! ## Wires -/

def fifoEn : Bool := i.fcreg.getLsbD 0

def resRxf : Bool := i.res || i.fcreg.getLsbD 1

def resTxf : Bool := i.res || i.fcreg.getLsbD 2

def rxFull : Bool := fifoEn i && s.rxFifo.full || !fifoEn i && !s.rxFifo.empty

def txFull : Bool := fifoEn i && s.txFifo.full || !fifoEn i && !s.txFifo.empty

def rxDone : Bool := s.rx.rxDone 16

/-- The first clock of a pulse of `rx_done`. -/
def rxReady : Bool := s.rxDone && !s.rxDoneSet

/-- The first clock of a pulse of the transmitter's `tx_ready`. -/
def txReady : Bool := s.tx.txReady && !s.txPulled

def txPush : Bool := i.wrUart && !s.txFull i

/-- A character that does not fit is not transferred to the FIFO. -/
def rxPush : Bool := s.rxReady && !s.rxFull i

def txIn : TxIn where
  txStart := !s.txFifo.empty
  txDin := s.txFifo.dout
  tsrDin := false

def txExt : Bool := s.tx.txDout i.lcreg s.txIn

def rxSin : Bool := if i.loopback then s.txExt i else i.rxExt

def rxSync : Bool :=
  s.rxSyncReg.getLsbD 0 && s.rxSyncReg.getLsbD 1 || s.rxSyncReg.getLsbD 1 && s.rxSyncReg.getLsbD 2
    || s.rxSyncReg.getLsbD 0 && s.rxSyncReg.getLsbD 2

/-- Small divisors take the line without the synchroniser. -/
def rxDin : Bool := if i.divisor.extractLsb' 2 7 == 0 then s.rxSin i else s.rxSync

/-- The level of `baudout` when the system clock has the level `clk`. -/
def baudLevel : Bool := s.baudGen.clkOut true clk i.divisor

def rxFifoIn : FifoIn 10 where
  res := resRxf i
  push := s.rxPush i
  pull := i.rdUart
  din := (s.rx.rxOut i.lcreg).bits

def txFifoIn : FifoIn 8 where
  res := resTxf i
  push := s.txPush i
  pull := s.txReady
  din := i.wrData

/-! ## Events -/

/-- A posedge of `baudout`. -/
def tick : UartUut :=
  { s with
    tx := s.tx.clock 16 i.lcreg s.txIn
    rx := s.rx.clock 16 i.lcreg (s.rxDin i) }

/-- `baudout` takes its level; a rise is a tick unless the machines are held in reset. -/
def follow : UartUut :=
  if !s.baudout && s.baudLevel clk i && !i.res then { s.tick i with baudout := true }
  else { s with baudout := s.baudLevel clk i }

/-- The asynchronous resets. -/
def async : UartUut :=
  { s with
    baudGen := if i.res || i.baudRes then ClockDivider.load false true else s.baudGen
    tx := if i.res then s.tx.reset else s.tx
    rx := if i.res then s.rx.reset 16 else s.rx
    rxSyncReg := if i.res then 7 else s.rxSyncReg }

/-- What new lines or registers bring about while `clk` is high. -/
def settle : UartUut := ((s.follow true i).async i).follow true i

/-- The words that the receiver presents while `follow` is carried out. -/
def followWords : List RxOut :=
  if !s.baudout && s.baudLevel clk i && !i.res then ((s.tick i).rx.present 16 i.lcreg).toList
  else []

/-- The words that the receiver presents while `settle` is carried out. -/
def settleWords : List RxOut :=
  s.followWords true i ++ ((s.follow true i).async i).followWords true i

/-- The negedge of `clk` only moves `baudout`. -/
def negedge : UartUut := { s with baudout := s.baudLevel false i }

/-- The registers after a posedge of `clk`, before `baudout` has taken its new level. -/
def posedge : UartUut :=
  { s with
    baudGen :=
      if i.res || i.baudRes then ClockDivider.load false true else s.baudGen.clock i.divisor
    rxFifo := s.rxFifo.clock (s.rxFifoIn i)
    txFifo := s.txFifo.clock (s.txFifoIn i)
    rxSyncReg := if i.res then 7 else s.rxSyncReg.extractLsb' 0 2 ++ BitVec.ofBool (s.rxSin i)
    rxDoneSet := s.rxDone
    txPulled := s.tx.txReady }

end UartUut

end RtlCores.Uart
