import RtlCores.Modules.ClockDivider
import RtlCores.Modules.ShiftReg
import RtlCores.Lib.ShiftChain

/-!
# The SPI port (`SPI/spi_top.sv`)

`spi_top` with `LEFT_JUSTIFY = 1`.  One step of the model is half a period of `lspclk`: the
bus and the pins take the values they keep for that half, the latches settle, and `sdat_clk`
follows with its forced delay, which is longer than what the registers of `lspclk` and the bus
take to change after a posedge.  The delay is inertial: a pulse shorter than it is lost.  The
half in which `lspclk` is low ends with its posedge, at which the bus is sampled.
-/

namespace RtlCores.Spi

open RtlCores.Lib RtlCores.Modules

/-! ## Register map -/

namespace Addr

def spiccr : BitVec 16 := 0x7040

def spictl : BitVec 16 := 0x7401

def spist : BitVec 16 := 0x7042

def spibrr : BitVec 16 := 0x7044

def spirxbuf : BitVec 16 := 0x7047

def spitxbuf : BitVec 16 := 0x7048

def spidat : BitVec 16 := 0x7049

end Addr

/-- The bus, with the resets and the select. -/
structure Bus where
  resN : Bool
  ssN : Bool
  pwrite : Bool
  paddr : BitVec 16
  pwdata : BitVec 16

/-- The pins that the other side drives; `spiclk` counts for a slave only. -/
structure Pins where
  spiclk : Bool
  miso : Bool

/-- Half a period of `lspclk`. -/
structure Half where
  lspclk : Bool
  bus : Bus
  pins : Pins

/-- The registers and latches of `spi_top`, with the levels of `sdat_clk` and `baud_res`. -/
@[ext] structure Top where
  spiccr : BitVec 8
  spictl : BitVec 8
  spibrr : BitVec 8
  spitxbuf : BitVec 16
  baud : ClockDivider 7
  baudRes : Bool
  postLoaden : Bool
  spidat : BitVec 16
  mosBuf : Bool
  counter : BitVec 4
  sdatClk : Bool
  sregEn : Bool
  txFull : Bool
  spiInt : Bool
  rxOverrun : Bool

/-! ## The bus -/

namespace Bus

variable (i : Bus)

def wen : Bool := !i.ssN && i.pwrite

def ren : Bool := !i.ssN && !i.pwrite

def wrCcr : Bool := i.wen && i.paddr == Addr.spiccr

def wrCtl : Bool := i.wen && i.paddr == Addr.spictl

def wrBrr : Bool := i.wen && i.paddr == Addr.spibrr

def wrTxbuf : Bool := i.wen && i.paddr == Addr.spitxbuf

def wrIst : Bool := i.wen && i.paddr == Addr.spist

def loadEn : Bool := i.wen && i.paddr == Addr.spidat

def rdRxbuf : Bool := i.ren && i.paddr == Addr.spirxbuf

/-- The port is selected and out of reset. -/
structure Selected (i : Bus) : Prop where
  resN : i.resN = true
  ssN : i.ssN = false

end Bus

namespace Top

variable (i : Bus) (p : Pins) (lspclk : Bool) (s : Top)

/-! ## Wires -/

def dlen : BitVec 4 := s.spiccr.extractLsb' 0 4

def swResN : Bool := if !s.spiccr.getLsbD 7 then false else i.resN

def spiRes : Bool := !s.swResN i

def polarity : Bool := if s.spiRes i then false else s.spiccr.getLsbD 6

def loopback : Bool := s.spiccr.getLsbD 4

def phase : Bool := s.spictl.getLsbD 3

def master : Bool := s.spictl.getLsbD 2

def spiEn : Bool := !i.ssN && s.spictl.getLsbD 1

def div : BitVec 7 := s.spibrr.extractLsb' 0 7

def nextCount : BitVec 4 := s.counter + 1

/-- `next_count == dlen + 2`, where the sum is a 32-bit one. -/
def countLimit : Bool := s.nextCount.setWidth 32 == s.dlen.setWidth 32 + 2

def dataEnd : Bool := s.spiEn i && s.countLimit

def sregOffOk : Bool := s.dataEnd i && !s.sdatClk

def sessionEnd : Bool := s.dataEnd i && s.sregEn

def rxOverr : Bool := s.spiInt && s.sregEn && !s.dataEnd i

def baudResNow : Bool := s.spiRes i || i.ssN || i.wrBrr || !s.sregEn

def baudout : Bool := s.baud.clkOut (s.polarity i) lspclk s.div

def spiclk : Bool := if s.master then s.baudout i lspclk else p.spiclk

def localClk : Bool :=
  if s.master then
    if s.polarity i then !s.spiclk i p lspclk else s.spiclk i p lspclk
  else
    if s.polarity i then s.spiclk i p lspclk else !s.spiclk i p lspclk

/-- What `sdat_clk` follows. -/
def sdatNow : Bool := if i.loadEn then i.loadEn else s.localClk i p lspclk

def spidatNout : Bool := ShiftRegMsb.doutN s.spidat

/-- `mosi`, or `none` where it is `'bZ`. -/
def mosi : Option Bool :=
  if s.spiEn i then some (if s.master && !s.loopback then s.mosBuf else s.spidatNout) else none

/-- The serial input; an open line reads as 0, the two-state value of `z`. -/
def somi : Bool := if s.loopback then (s.mosi i).getD false else p.miso

/-- The parallel input of `SPIDAT`: `pwdata` left justified. -/
def loadValue : BitVec 16 := i.pwdata <<< (~~~s.dlen).toNat

def spist : BitVec 8 :=
  BitVec.ofBool s.rxOverrun ++ BitVec.ofBool s.spiInt ++ BitVec.ofBool s.txFull ++ 0#5

/-- `prdata` while `ren` is high. -/
def prdata : BitVec 16 :=
  if i.paddr = Addr.spist then s.spist.setWidth 16
  else if i.paddr = Addr.spiccr then s.spiccr.setWidth 16
  else if i.paddr = Addr.spictl then s.spictl.setWidth 16
  else if i.paddr = Addr.spibrr then s.spibrr.setWidth 16
  else if i.paddr = Addr.spitxbuf then s.spitxbuf
  else s.spidat &&& (0xFFFF#16 >>> (15 - s.dlen.toNat))

/-! ## Latches and asynchronous resets -/

/-- The registers under `res_n` and `spi_res`. -/
def reset : Top :=
  let s := if i.resN then s else { s with spiccr := 0, spictl := 0, spibrr := 0, spitxbuf := 0 }
  if s.spiRes i then { s with spidat := 0, counter := 0, postLoaden := false } else s

def sregEnNow : Bool :=
  if s.spiRes i then false
  else if !s.master then s.spiEn i
  else if s.postLoaden then true
  else if s.sregOffOk i then false
  else s.sregEn

def txFullNow : Bool :=
  if !i.resN || s.sregOffOk i then false
  else if i.loadEn then true
  else s.txFull

def spiIntNow : Bool :=
  if s.spiRes i || i.rdRxbuf then false
  else if s.sessionEnd i && !s.spiInt then true
  else s.spiInt

def rxOverrunNow : Bool :=
  if s.spiRes i then false
  else if i.wrIst && i.pwdata.getLsbD 7 then false
  else if s.rxOverr i then true
  else s.rxOverrun

/-- The latches, each after those it depends on. -/
def latch : Top :=
  let s := { s with sregEn := s.sregEnNow i }
  let s := { s with txFull := s.txFullNow i, spiInt := s.spiIntNow i }
  { s with rxOverrun := s.rxOverrunNow i }

/-- The divider is loaded when its reset rises. -/
def gateBaud : Top :=
  { s with
    baud := if s.baudResNow i && !s.baudRes then
        ClockDivider.load s.phase (s.polarity i)
      else s.baud
    baudRes := s.baudResNow i }

/-- What settles when the bus, a register or `sdat_clk` has changed. -/
def settle : Top := ((s.reset i).latch i).gateBaud i

/-! ## Clock edges -/

/-- The registers of `sdat_clk` at its posedge. -/
def sdatEdge : Top :=
  { s with
    spidat := ShiftRegMsb.clock ⟨s.sregEn, s.somi i p, i.loadEn, s.loadValue i⟩ s.spidat
    mosBuf := s.spidatNout
    counter :=
      if s.spiRes i || s.dataEnd i || i.loadEn then 0
      else if s.sregEn then s.nextCount
      else s.counter }

/-- `sdat_clk` takes the level it follows. -/
def follow : Top :=
  let v := s.sdatNow i p lspclk
  { (if v && !s.sdatClk then s.sdatEdge i p else s) with sdatClk := v }

/-- The registers of `lspclk` at its posedge. -/
def posedge : Top :=
  { s with
    spiccr := if !i.resN then 0 else if i.wrCcr then i.pwdata.setWidth 8 else s.spiccr
    spictl := if !i.resN then 0 else if i.wrCtl then i.pwdata.setWidth 8 else s.spictl
    spibrr :=
      if !i.resN then 0 else if i.wrBrr then (i.pwdata.extractLsb' 0 7).setWidth 8 else s.spibrr
    spitxbuf := if !i.resN then 0 else if i.wrTxbuf then i.pwdata else s.spitxbuf
    postLoaden :=
      if s.spiRes i || !i.loadEn then false else if i.loadEn then true else s.postLoaden
    baud := if s.baudRes then ClockDivider.load s.phase (s.polarity i) else s.baud.clock s.div }

/-! ## Halves and periods of `lspclk` -/

/-- Half a period of `lspclk`, without its posedge. -/
def half (h : Half) (s : Top) : Top :=
  ((s.settle h.bus).follow h.bus h.pins h.lspclk).settle h.bus

def tick (h : Half) (s : Top) : Top :=
  if h.lspclk then s.half h else (s.half h).posedge h.bus

/-- The bit that leaves `SPIDAT` in half a period, if it is shifted. -/
def bitClock (h : Half) (s : Top) : Option Bool :=
  let s := s.settle h.bus
  if s.sdatNow h.bus h.pins h.lspclk && !s.sdatClk && s.sregEn && !h.bus.loadEn then
    some s.spidatNout
  else none

end Top

/-- A period of `lspclk`; the bus changes right after its posedge. -/
structure Period where
  bus : Bus
  high : Pins
  low : Pins

namespace Period

variable (i : Period)

def first : Half := ⟨true, i.bus, i.high⟩

def second : Half := ⟨false, i.bus, i.low⟩

end Period

namespace Top

def period (i : Period) (s : Top) : Top := tick i.second (tick i.first s)

/-- The bit that leaves `SPIDAT` in a period; `sdat_clk` cannot rise in both halves of it. -/
def periodBit (i : Period) (s : Top) : Option Bool :=
  (bitClock i.first s).or (bitClock i.second (tick i.first s))

/-! ## Out of reset -/

/-- `s'` has the registers of `s` and the level of `sdat_clk`; its latches and the divider may
differ. -/
structure SameRegs (s s' : Top) : Prop where
  spiccr : s'.spiccr = s.spiccr
  spictl : s'.spictl = s.spictl
  spibrr : s'.spibrr = s.spibrr
  postLoaden : s'.postLoaden = s.postLoaden
  spidat : s'.spidat = s.spidat
  mosBuf : s'.mosBuf = s.mosBuf
  counter : s'.counter = s.counter
  sdatClk : s'.sdatClk = s.sdatClk

section OutOfReset

variable {i : Bus} {p : Pins} {lspclk : Bool} {s s' : Top}

theorem SameRegs.dlen (h : SameRegs s s') : s'.dlen = s.dlen := by
  rw [Top.dlen, Top.dlen, h.spiccr]

theorem countLimit_congr (hccr : s'.spiccr = s.spiccr) (hcounter : s'.counter = s.counter) :
    s'.countLimit = s.countLimit := by
  rw [countLimit, countLimit, nextCount, nextCount, dlen, dlen, hccr, hcounter]

theorem SameRegs.countLimit (h : SameRegs s s') : s'.countLimit = s.countLimit :=
  countLimit_congr h.spiccr h.counter

/-- With the port enabled the end of the data is told by the counter. -/
theorem dataEnd_of_enabled (hss : i.ssN = false) (hen : s.spictl.getLsbD 1 = true) :
    s.dataEnd i = s.countLimit := by
  rw [dataEnd, spiEn, hss, hen]
  rfl

theorem spiRes_eq_false (hres : i.resN = true) (hsw : s.spiccr.getLsbD 7 = true) :
    s.spiRes i = false := by
  rw [spiRes, swResN, hsw, hres]
  rfl

theorem settle_eq (hres : i.resN = true) (hsw : s.spiRes i = false) :
    s.settle i = (s.latch i).gateBaud i := by
  rw [settle, reset, if_pos hres, if_neg (by simp [hsw])]

theorem settle_sameRegs (hres : i.resN = true) (hsw : s.spiRes i = false) :
    SameRegs s (s.settle i) := by
  rw [settle_eq hres hsw]
  exact ⟨rfl, rfl, rfl, rfl, rfl, rfl, rfl, rfl⟩

theorem settle_sregEn (hres : i.resN = true) (hsw : s.spiRes i = false) :
    (s.settle i).sregEn = s.sregEnNow i := by
  rw [settle_eq hres hsw]
  rfl

theorem settle_txFull (hres : i.resN = true) (hsw : s.spiRes i = false) :
    (s.settle i).txFull = s.txFullNow i := by
  rw [settle_eq hres hsw]
  rfl

theorem settle_spiInt (hres : i.resN = true) (hsw : s.spiRes i = false) :
    (s.settle i).spiInt =
      if i.rdRxbuf then false
      else if s.dataEnd i && s.sregEnNow i && !s.spiInt then true
      else s.spiInt := by
  rw [settle_eq hres hsw]
  show (if s.spiRes i || i.rdRxbuf then _ else _) = _
  rw [hsw, Bool.false_or]
  rfl

theorem settle_baudRes (hres : i.resN = true) (hsw : s.spiRes i = false) :
    (s.settle i).baudRes = (i.ssN || i.wrBrr || !s.sregEnNow i) := by
  rw [settle_eq hres hsw]
  show (s.spiRes i || i.ssN || i.wrBrr || !s.sregEnNow i) = _
  rw [hsw, Bool.false_or]

theorem settle_baud (hres : i.resN = true) (hsw : s.spiRes i = false) :
    (s.settle i).baud =
      if (i.ssN || i.wrBrr || !s.sregEnNow i) && !s.baudRes then
        ClockDivider.load s.phase (s.polarity i)
      else s.baud := by
  rw [settle_eq hres hsw]
  show (if (s.spiRes i || i.ssN || i.wrBrr || !s.sregEnNow i) && !s.baudRes then _ else _) = _
  rw [hsw, Bool.false_or]
  rfl

theorem sdatEdge_counter (hsw : s.spiRes i = false) :
    (s.sdatEdge i p).counter =
      if s.dataEnd i || i.loadEn then 0 else if s.sregEn then s.counter + 1 else s.counter := by
  rw [sdatEdge, hsw, Bool.false_or]
  rfl

theorem follow_of_not_rise {v : Bool} (hv : s.sdatNow i p lspclk = v)
    (h : (v && !s.sdatClk) = false) : s.follow i p lspclk = { s with sdatClk := v } := by
  rw [follow, hv, h]
  rfl

theorem follow_of_rise (hv : s.sdatNow i p lspclk = true) (h : s.sdatClk = false) :
    s.follow i p lspclk = { s.sdatEdge i p with sdatClk := true } := by
  rw [follow, hv, h]
  rfl

end OutOfReset

section Posedge

variable {b : Bus} {s : Top} (hb : b.Selected)

include hb

theorem posedge_spiccr :
    (s.posedge b).spiccr = if b.wrCcr then b.pwdata.setWidth 8 else s.spiccr := by
  show (if !b.resN then _ else _) = _
  rw [hb.resN]
  rfl

theorem posedge_spictl :
    (s.posedge b).spictl = if b.wrCtl then b.pwdata.setWidth 8 else s.spictl := by
  show (if !b.resN then _ else _) = _
  rw [hb.resN]
  rfl

theorem posedge_spibrr : (s.posedge b).spibrr =
    if b.wrBrr then (b.pwdata.extractLsb' 0 7).setWidth 8 else s.spibrr := by
  show (if !b.resN then _ else _) = _
  rw [hb.resN]
  rfl

end Posedge

/-! ## The bit counter -/

/-- The bit counter and the limit, which does not fit it for the two longest characters. -/
theorem countLimit_iff (s : Top) :
    s.countLimit = true ↔ (s.counter.toNat + 1) % 16 = s.dlen.toNat + 2 := by
  have hdlen := s.dlen.isLt
  rw [countLimit, beq_iff_eq, ← BitVec.toNat_inj, BitVec.toNat_add, BitVec.toNat_setWidth,
    BitVec.toNat_setWidth, nextCount, BitVec.toNat_add]
  show (s.counter.toNat + 1) % 16 % 2 ^ 32 = (s.dlen.toNat % 2 ^ 32 + 2) % 2 ^ 32 ↔ _
  omega

end Top

end RtlCores.Spi
