import RtlCores.Modules.ShiftReg
import RtlCores.Uart.Regmap

/-!
# The transmitter (`UART/uart_tx.sv`)

One step of the model is one posedge of `baudout`.  The bit counter, the state and the shift
register are clocked by `first_tick`, so they move when the tick counter comes back to 0.  The
next state is a latch: `nextTxFsm` is the value it held when the last tick came, and
`Tx.latch` the value it settles to before the next one.
-/

namespace RtlCores.Uart

open RtlCores.Lib RtlCores.Modules

inductive TxFsm
  | idle | start | data | parity | stop | stopHalf
  deriving DecidableEq

/-- The registers of `uart_tx`. -/
structure Tx where
  countTicks : Nat
  countBits : BitVec 3
  txFsm : TxFsm
  nextTxFsm : TxFsm
  tsr : BitVec 8

/-- The input ports of `uart_tx`; `tsrDin` is the serial input of the shift register, which is
left unconnected. -/
structure TxIn where
  txStart : Bool
  txDin : BitVec 8
  tsrDin : Bool

/-- `TICK_BW`, the top bit of the tick counter. -/
def tickBw (ticksNum : Nat) : Nat := Nat.clog 2 ticksNum - 1

namespace Tx

variable (ticksNum : Nat) (lcreg : BitVec 8) (i : TxIn) (s : Tx)

/-! ## Wires -/

def firstTick : Bool := s.countTicks == 0

def lastBit : Bool := s.countBits.getLsbD 2 && s.countBits.extractLsb' 0 2 == wls lcreg

def stopBits : BitVec 3 := (BitVec.ofBool (stb lcreg)).setWidth 3

def halfParity : Bool := wls lcreg == 0 && stb lcreg

/-- The parity of the bits of `tx_din` that are sent. -/
def parity (txDin : BitVec 8) : Bool :=
  match wls lcreg with
  | 0 => redXor (txDin.extractLsb' 0 5)
  | 1 => redXor (txDin.extractLsb' 0 6)
  | 2 => redXor (txDin.extractLsb' 0 7)
  | _ => redXor txDin

def parityBit (txDin : BitVec 8) : Bool :=
  if sp lcreg then !eps lcreg
  else if eps lcreg then parity lcreg txDin
  else !parity lcreg txDin

def tsrEmpty : Bool :=
  match s.txFsm with
  | .start | .data | .parity => false
  | _ => true

def txDout : Bool :=
  match s.txFsm with
  | .start => false
  | .data => ShiftReg.doutN s.tsr
  | .parity => parityBit lcreg i.txDin
  | _ => true

def cbIncr : Bool :=
  match s.txFsm with
  | .data | .stop => true
  | _ => false

def sregEn : Bool := s.txFsm = .data

def loadEn : Bool := s.txFsm = .start

def txReady : Bool :=
  match s.txFsm with
  | .stop => s.countBits == 0 && s.countTicks == 1
  | _ => false

def cbNext : BitVec 3 := s.countBits + (BitVec.ofBool s.cbIncr).setWidth 3

/-- The `case` of the next state; `held` is what the latch keeps where no branch assigns. -/
def fsmCase (txStart : Bool) (held : TxFsm) : TxFsm :=
  match s.txFsm with
  | .start => .data
  | .data => if s.lastBit lcreg then (if pen lcreg then .parity else .stop) else held
  | .parity => .stop
  | .stop =>
    if halfParity lcreg then .stopHalf
    else if s.countBits == stopBits lcreg then (if txStart then .start else .idle)
    else held
  | .stopHalf | .idle => if txStart then .start else .idle

def latch : TxFsm := s.fsmCase lcreg i.txStart s.nextTxFsm

/-! ## Registers -/

/-- The tick counter after a posedge; in the half stop bit its top bit is set. -/
def countNext : Nat :=
  (if s.txFsm = .stopHalf then (s.countTicks ||| 1 <<< tickBw ticksNum) + 1
    else s.countTicks + 1) % 2 ^ (tickBw ticksNum + 1)

/-- `first_tick` rises. -/
def firstRise : Bool := !s.firstTick && s.countNext ticksNum == 0

def tsrIn : ShiftRegIn 8 where
  en := s.sregEn
  din := i.tsrDin
  loadEn := s.loadEn
  load := i.txDin

/-- The registers after a posedge of `baudout`, with `res_n` high. -/
def clock : Tx where
  countTicks := s.countNext ticksNum
  countBits :=
    if s.firstRise ticksNum then (if !s.cbIncr || s.lastBit lcreg then 0 else s.cbNext)
    else s.countBits
  txFsm := if s.firstRise ticksNum then s.latch lcreg i else s.txFsm
  nextTxFsm := s.latch lcreg i
  tsr := if s.firstRise ticksNum then ShiftReg.clock (s.tsrIn i) s.tsr else s.tsr

/-- The registers after a reset, which leaves the bit counter and the latch as they were. -/
def reset : Tx where
  countTicks := 0
  countBits := s.countBits
  txFsm := .idle
  nextTxFsm := s.nextTxFsm
  tsr := 0

end Tx

/-! ## The transmitter and its queue -/

/-- What happens outside the transmitter in one tick: bytes are enqueued, and its unconnected
inputs have some level. -/
structure TxEnv where
  enq : List (BitVec 8)
  idleDin : BitVec 8
  tsrDin : Bool

/-- The transmitter fed from a queue. -/
structure TxLine where
  tx : Tx
  queue : List (BitVec 8)

/-- The head of the queue is on `tx_din`, and `tx_start` tells that there is one. -/
def TxEnv.offer (e : TxEnv) (queue : List (BitVec 8)) : TxIn where
  txStart := !queue.isEmpty
  txDin := queue.headD e.idleDin
  tsrDin := e.tsrDin

namespace TxLine

variable (ticksNum : Nat) (lcreg : BitVec 8) (e : TxEnv) (l : TxLine)

/-- The queue at the end of the tick: a byte leaves for a `tx_ready` pulse, and bytes enter. -/
def queueNext : List (BitVec 8) := (if l.tx.txReady then l.queue.tail else l.queue) ++ e.enq

/-- The line after one more tick. -/
def step : TxLine where
  tx := l.tx.clock ticksNum lcreg (e.offer (l.queueNext e))
  queue := l.queueNext e

/-- The level on `tx_dout` during the tick. -/
def dout : Bool := l.tx.txDout lcreg (e.offer l.queue)

end TxLine

end RtlCores.Uart
