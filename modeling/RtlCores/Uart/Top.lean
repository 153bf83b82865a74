import RtlCores.Uart.UartUut

/-!
# The UART with its registers (`UART/uart_top.sv`)

One step of the model is one period of `clk`, from one posedge to the next with the negedge in the
middle.  The ports keep their values for the period: they change right after a posedge, and an
access takes one clock, as the APB interface drives it (`uart_apb.sv`).  `rclk` is `baudout`.
-/

namespace RtlCores.Uart

open RtlCores.Lib RtlCores.Modules

/-! ## Register map -/

def regRbr : BitVec 3 := 0

def regThr : BitVec 3 := 0

def regIer : BitVec 3 := 1

def regIir : BitVec 3 := 2

def regFcr : BitVec 3 := 2

def regLcr : BitVec 3 := 3

def regMcr : BitVec 3 := 4

def regLsr : BitVec 3 := 5

def regDll : BitVec 3 := 0

def regDlm : BitVec 3 := 1

/-- The line status register. -/
structure Lsr where
  dr : Bool
  oe : Bool
  pe : Bool
  fe : Bool
  bi : Bool
  tf : Bool
  te : Bool
  ei : Bool

def Lsr.bits (l : Lsr) : BitVec 8 :=
  BitVec.ofBool l.ei ++ BitVec.ofBool l.te ++ BitVec.ofBool l.tf ++ BitVec.ofBool l.bi ++
    BitVec.ofBool l.fe ++ BitVec.ofBool l.pe ++ BitVec.ofBool l.oe ++ BitVec.ofBool l.dr

/-- The ports of `uart_top` that its environment drives; `dataIn` is the data bus during a
write. -/
structure TopIn where
  res : Bool
  cs : Bool
  wr : Bool
  rd : Bool
  sin : Bool
  addr : BitVec 3
  dataIn : BitVec 8

/-- The registers of `uart_top`; `dll`, `dlm` and `dataOut` are latches. -/
structure Top where
  uart : UartUut
  dll : BitVec 8
  dlm : BitVec 8
  lcr : BitVec 8
  ier : BitVec 8
  fcr : BitVec 8
  mcr : BitVec 8
  iir : BitVec 8
  lsr : Lsr
  postLsrRd : Bool
  rxDone : Bool
  rdUart : Bool
  dataOut : BitVec 8

namespace Top

variable (i : TopIn) (s : Top)

/-! ## Wires -/

def divisor : BitVec 16 := s.dlm ++ s.dll

def fifoEn : Bool := s.fcr.getLsbD 0

def dlab : Bool := s.lcr.getLsbD 7

def wen : Bool := i.cs && i.wr

def ren : Bool := i.cs && i.rd

def baudLoad : Bool := wen i && s.dlab

def thrWr : Bool := wen i && !s.dlab && i.addr == 0

def rbrRd : Bool := ren i && !s.dlab && i.addr == 0

def lsrRd : Bool := ren i && i.addr == regLsr

/-- The lines of `uart_uut`. -/
def uartIn : UartIn where
  res := i.res
  rdUart := s.rbrRd i
  wrUart := s.thrWr i
  rxExt := i.sin
  baudRes := s.baudLoad i
  loopback := s.mcr.getLsbD 4
  wrData := i.dataIn
  divisor := s.divisor
  lcreg := s.lcr
  fcreg := s.fcr

def rdData : BitVec 10 := s.uart.rxFifo.dout

def rxReady : Bool := s.uart.rxReady

def rxFull : Bool := s.uart.rxFull (s.uartIn i)

def rxAvailable : Bool := s.rxDone || s.fifoEn && s.rdUart && !s.uart.rxFifo.empty

def lsrTemt : Bool := s.uart.txFifo.empty && s.uart.tx.tsrEmpty

def lsrElsi : Bool := s.lsr.oe || s.lsr.pe || s.lsr.fe || s.lsr.bi

/-- The word on `rd_data`, cut to the word length. -/
def rbr : BitVec 8 :=
  match wls s.lcr with
  | 0 => (s.rdData.extractLsb' 0 5).setWidth 8
  | 1 => (s.rdData.extractLsb' 0 6).setWidth 8
  | 2 => (s.rdData.extractLsb' 0 7).setWidth 8
  | _ => s.rdData.extractLsb' 0 8

/-- The value on `data_out`. -/
def readData : BitVec 8 :=
  if ren i then
    if i.addr = regMcr then s.mcr
    else if i.addr = regLcr then s.lcr
    else if i.addr = regLsr then s.lsr.bits
    else if i.addr = regIir then s.iir
    else if i.addr = regIer then (if s.dlab then s.dlm else s.ier)
    else if i.addr = regRbr then (if s.dlab then s.dll else s.rbr)
    else 0
  else s.dataOut

/-! ## Events -/

/-- The divisor latches, open during a write with DLAB set. -/
def latchDivisor : Top :=
  { s with
    dll := if s.baudLoad i && i.addr == regDll then i.dataIn else s.dll
    dlm := if s.baudLoad i && i.addr == regDlm then i.dataIn else s.dlm }

/-- What new ports or registers bring about while `clk` is high. -/
def settle : Top :=
  { s.latchDivisor i with uart := s.uart.settle ((s.latchDivisor i).uartIn i) }

/-- The line status register after a negedge of `clk`. -/
def lsrNext : Lsr where
  dr :=
    if s.fifoEn then !s.uart.rxFifo.empty
    else if i.res || s.rbrRd i then false
    else if s.rxDone then true
    else s.lsr.dr
  oe := if s.rxFull i && s.rxReady then true else if i.res || s.postLsrRd then false else s.lsr.oe
  pe :=
    if s.rxAvailable then s.rdData.getLsbD 8
    else if i.res || s.postLsrRd then false else s.lsr.pe
  fe :=
    if s.rxAvailable then s.rdData.getLsbD 9
    else if i.res || s.postLsrRd then false else s.lsr.fe
  bi := false
  tf := if i.res then true else s.uart.txFifo.empty
  te := if i.res then true else s.lsrTemt
  ei := if !s.fifoEn then false else if i.res || s.postLsrRd then false else s.lsr.ei

/-- A negedge of `clk`. -/
def negedge : Top :=
  { s with
    uart := s.uart.negedge (s.uartIn i)
    lsr := s.lsrNext i
    postLsrRd := lsrRd i }

/-- The interrupt identification register after a posedge of `clk`. -/
def iirNext : BitVec 8 :=
  let (intid, ipend) : BitVec 3 × Bool :=
    if s.ier.getLsbD 2 && s.lsrElsi && !s.postLsrRd then (0b011#3, false)
    else if s.ier.getLsbD 0 && s.lsr.dr then (0b010#3, false)
    else if s.ier.getLsbD 1 && s.uart.txFifo.empty then (0b001#3, false)
    else (0#3, true)
  BitVec.ofBool s.fifoEn ++ BitVec.ofBool s.fifoEn ++ 0#2 ++ intid ++ BitVec.ofBool ipend

/-- The value of a register with address `a` after a posedge, when it is written with `x`. -/
def written (a : BitVec 3) (x old : BitVec 8) : BitVec 8 :=
  if i.res then 0 else if wen i && i.addr == a then x else old

/-- The FIFO control register after a posedge: the clear bits go low unless there is a write. -/
def fcrNext : BitVec 8 :=
  if i.res then 0
  else if wen i then (if i.addr = regFcr then i.dataIn else s.fcr)
  else s.fcr &&& 0xF9#8

/-- A posedge of `clk`. -/
def posedge : Top where
  uart := s.uart.posedge (s.uartIn i)
  dll := s.dll
  dlm := s.dlm
  lcr := written i regLcr i.dataIn s.lcr
  ier := written i regIer (i.dataIn &&& 0x0F#8) s.ier
  fcr := s.fcrNext i
  mcr := written i regMcr (i.dataIn &&& 0x3F#8) s.mcr
  iir := s.iirNext
  lsr := s.lsr
  postLsrRd := s.postLsrRd
  rxDone := s.rxReady
  rdUart := s.rbrRd i
  dataOut := s.readData i

/-! ## Periods -/

/-- The state after the negedge of a period, which the posedge at its end samples. -/
def mid : Top := (s.settle i).negedge i

/-- The state after a period: the posedge, and what its registers bring about before the ports
change. -/
def period : Top := ((s.mid i).posedge i).settle i

/-! ## Accesses -/

/-- No access, with the line at `sin`. -/
def idlePorts (sin : Bool) : TopIn := ⟨false, false, false, false, sin, 0, 0⟩

/-- A write access. -/
def writePorts (sin : Bool) (addr : BitVec 3) (x : BitVec 8) : TopIn :=
  ⟨false, true, true, false, sin, addr, x⟩

/-- A read access. -/
def readPorts (sin : Bool) (addr : BitVec 3) : TopIn := ⟨false, true, false, true, sin, addr, 0⟩

end Top

end RtlCores.Uart
