import RtlCores.Modules.ShiftReg
import RtlCores.Uart.Regmap

/-!
# The receiver (`UART/uart_rx.sv`)

One step of the model is one posedge of `rx_baud`, with the level of `rx_din` before it.  The bit
counter and the state move when the tick counter comes to 0, the shift register when it comes to
its last value.  The next state and the parity bit are latches: the registers `nextRxFsm` and
`parityHeld` are what they held when the last tick came.
-/

namespace RtlCores.Uart

open RtlCores.Lib RtlCores.Modules

inductive RxFsm
  | idle | start | data | parity | stop
  deriving DecidableEq

/-- The registers of `uart_rx`. -/
structure Rx where
  countTicks : Nat
  countBits : BitVec 3
  rxFsm : RxFsm
  nextRxFsm : RxFsm
  s0 : Bool
  s1 : Bool
  s2 : Bool
  rsr : BitVec 8
  parityHeld : Bool

/-- The fields of `rx_out`. -/
structure RxOut where
  errF : Bool
  errP : Bool
  sout : BitVec 8
  deriving DecidableEq

/-- `TICK_BW` of the receiver, the width of the tick counter. -/
def rxTickBw (ticksNum : Nat) : Nat := Nat.clog 2 ticksNum

def tickDelta (ticksNum : Nat) : Nat := if 8 < ticksNum then 2 else 1

def tickSampleA (ticksNum : Nat) : Nat := ticksNum / 2 - tickDelta ticksNum

def tickSampleB (ticksNum : Nat) : Nat := ticksNum / 2

def tickSampleC (ticksNum : Nat) : Nat := ticksNum / 2 + tickDelta ticksNum

def tickSampleD (ticksNum : Nat) : Nat := tickSampleC ticksNum + 1

namespace Rx

variable (ticksNum : Nat) (lcreg : BitVec 8) (rxDin : Bool) (s : Rx)

/-! ## Wires -/

/-- Majority of the three samples of a bit. -/
def votedDin : Bool := s.s0 && s.s1 || s.s0 && s.s2 || s.s1 && s.s2

def initCt : Bool :=
  match s.rxFsm with
  | .idle => !rxDin
  | _ => true

def cbIncr : Bool := s.rxFsm = .data

def sregEn : Bool := s.rxFsm = .data

def rxDone : Bool := s.rxFsm = .stop && s.countTicks = tickSampleD ticksNum

def lastBit : Bool := s.countBits.getLsbD 2 && s.countBits.extractLsb' 0 2 == wls lcreg

/-- The word in the shift register, which it enters from the top. -/
def sout : BitVec 8 :=
  match wls lcreg with
  | 0 => (s.rsr.extractLsb' 3 5).setWidth 8
  | 1 => (s.rsr.extractLsb' 2 6).setWidth 8
  | 2 => (s.rsr.extractLsb' 1 7).setWidth 8
  | _ => s.rsr

def parityVal : Bool :=
  match sp lcreg, eps lcreg with
  | false, false => !redXor (s.sout lcreg)
  | false, true => redXor (s.sout lcreg)
  | true, false => true
  | true, true => false

/-- The latch of the parity bit, open during the parity bit. -/
def parityBit : Bool := if s.rxFsm = .parity then s.votedDin else s.parityHeld

def errF : Bool := s.rxFsm = .stop && !s.votedDin

def errP : Bool := pen lcreg && xor (s.parityVal lcreg) s.parityBit

def rxOut : RxOut where
  errF := s.errF
  errP := s.errP lcreg
  sout := s.sout lcreg

/-- The `case` of the next state; `held` is what the latch keeps where no branch assigns. -/
def fsmCase (held : RxFsm) : RxFsm :=
  match s.rxFsm with
  | .start => if s.votedDin then .idle else .data
  | .data => if s.lastBit lcreg then (if pen lcreg then .parity else .stop) else held
  | .parity => .stop
  | .stop | .idle => if rxDin then .idle else .start

def latch : RxFsm := s.fsmCase lcreg rxDin s.nextRxFsm

/-! ## Registers -/

def ctNextval : Nat := (s.countTicks + (s.initCt rxDin).toNat) % 2 ^ rxTickBw ticksNum

/-- The tick counter after a posedge: all ones while idle. -/
def countNext : Nat :=
  if s.initCt rxDin then s.ctNextval ticksNum rxDin else 2 ^ rxTickBw ticksNum - 1

/-- `first_tick` rises. -/
def firstRise : Bool := s.countTicks != 0 && s.countNext ticksNum rxDin == 0

/-- `last_tick` rises. -/
def lastRise : Bool :=
  s.countTicks != 2 ^ rxTickBw ticksNum - 1 &&
    s.countNext ticksNum rxDin == 2 ^ rxTickBw ticksNum - 1

def cbNext : BitVec 3 := s.countBits + (BitVec.ofBool s.cbIncr).setWidth 3

def rsrIn : ShiftRegIn 8 where
  en := s.sregEn
  din := s.votedDin
  loadEn := false
  load := 0

/-- The registers after a posedge of `rx_baud`, with `res_n` high. -/
def clock : Rx where
  countTicks := s.countNext ticksNum rxDin
  countBits :=
    if s.firstRise ticksNum rxDin then (if s.cbIncr then s.cbNext else 0) else s.countBits
  rxFsm := if s.firstRise ticksNum rxDin then s.latch lcreg rxDin else s.rxFsm
  nextRxFsm := s.latch lcreg rxDin
  s0 := if s.countTicks = tickSampleA ticksNum then rxDin else s.s0
  s1 := if s.countTicks = tickSampleB ticksNum then rxDin else s.s1
  s2 := if s.countTicks = tickSampleC ticksNum then rxDin else s.s2
  rsr := if s.lastRise ticksNum rxDin then ShiftReg.clock s.rsrIn s.rsr else s.rsr
  parityHeld := s.parityBit

/-- What is presented with `rx_done`. -/
def present : Option RxOut := if s.rxDone ticksNum then some (s.rxOut lcreg) else none

/-- The idle state, which waits for a start bit: the tick counter is all ones.  The other
registers may hold anything. -/
def idled : Rx where
  countTicks := 2 ^ rxTickBw ticksNum - 1
  countBits := s.countBits
  rxFsm := .idle
  nextRxFsm := s.nextRxFsm
  s0 := s.s0
  s1 := s.s1
  s2 := s.s2
  rsr := s.rsr
  parityHeld := s.parityHeld

/-- The registers after a reset. -/
def reset : Rx := ({ s with rsr := 0 }).idled ticksNum

end Rx

end RtlCores.Uart
