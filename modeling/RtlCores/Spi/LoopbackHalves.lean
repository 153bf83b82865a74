import RtlCores.Spi.Top

/-!
# A master in loopback, half a period at a time

What half a period of `lspclk` does to a master in loopback: during a transfer, at its end and
between transfers.  Every bit clock rotates `SPIDAT` by one position.
-/

namespace RtlCores.Spi

open RtlCores.Lib RtlCores.Modules

/-! ## The environment -/

namespace Bus

/-- The bus waits for the end of a transfer: it writes neither `SPIDAT` nor a register that
controls it, and leaves `SPIRXBUF` alone. -/
structure Waits (i : Bus) : Prop extends Selected i where
  loadEn : i.loadEn = false
  wrCcr : i.wrCcr = false
  wrCtl : i.wrCtl = false
  wrBrr : i.wrBrr = false
  rdRxbuf : i.rdRxbuf = false

/-- The bus writes `SPIDAT`. -/
structure Starts (i : Bus) : Prop extends Selected i where
  loadEn : i.loadEn = true

end Bus

namespace Top

/-- A master in loopback with the port enabled, the software reset off and a divisor. -/
structure LoopMaster (s : Top) : Prop where
  swRes : s.spiccr.getLsbD 7 = true
  loopback : s.spiccr.getLsbD 4 = true
  spiEn : s.spictl.getLsbD 1 = true
  master : s.spictl.getLsbD 2 = true
  div : s.div ≠ 0

/-- The bus between transfers: it may do anything but start one, as long as the port stays
what it is; the character length and the phase may change. -/
structure Rests (i : Bus) (s : Top) : Prop extends Bus.Selected i where
  loadEn : i.loadEn = false
  wrCcr : i.wrCcr = true → i.pwdata.getLsbD 7 = true ∧ i.pwdata.getLsbD 4 = true ∧
    i.pwdata.getLsbD 6 = s.spiccr.getLsbD 6
  wrCtl : i.wrCtl = true → i.pwdata.getLsbD 1 = true ∧ i.pwdata.getLsbD 2 = true
  wrBrr : i.wrBrr = true → i.pwdata.extractLsb' 0 7 = s.div

/-- The level of the bit clock behind the polarity. -/
def clkLevel (s : Top) (lspclk : Bool) : Bool :=
  s.baud.clkOut (s.spiccr.getLsbD 6) lspclk s.div ^^ s.spiccr.getLsbD 6

/-- The shift register is off. -/
structure Off (s : Top) : Prop extends LoopMaster s where
  sregEn : s.sregEn = false
  postLoaden : s.postLoaden = false

/-- No transfer is under way. -/
structure Still (s : Top) : Prop extends Off s where
  txFull : s.txFull = false

/-- Between transfers: the bit counter is cleared or no edge that could clear it is due. -/
structure AtRest (s : Top) : Prop extends Still s where
  counter : s.counter = 0 ∨ s.sdatClk = false ∧ s.clkLevel false = false

/-- During a transfer with `k` bit clocks to go. -/
structure Running (k : Nat) (s : Top) : Prop extends LoopMaster s where
  enabled : s.sregEn = true ∨ s.postLoaden = true
  txFull : s.txFull = true
  counter : s.counter.toNat + k = s.dlen.toNat + 1
  dlen : s.dlen.toNat ≤ 13
  full : k = 0 → s.sdatClk = true

section

variable {i : Bus} {p : Pins} {lspclk : Bool} {s s' : Top} {k : Nat}

/-! ## The wires of a master in loopback -/

theorem LoopMaster.congr (h : LoopMaster s) (hccr : s'.spiccr = s.spiccr)
    (hctl : s'.spictl = s.spictl) (hbrr : s'.spibrr = s.spibrr) : LoopMaster s' := by
  obtain ⟨h1, h2, h3, h4, h5⟩ := h
  refine ⟨hccr ▸ h1, hccr ▸ h2, hctl ▸ h3, hctl ▸ h4, ?_⟩
  rw [Top.div, hbrr]
  exact h5

theorem SameRegs.loopMaster (h : SameRegs s s') (hs : LoopMaster s) : LoopMaster s' :=
  hs.congr h.spiccr h.spictl h.spibrr

/-- The level depends on the divider and the registers only. -/
theorem SameRegs.clkLevel (h : SameRegs s s') (hbaud : s'.baud = s.baud) (lspclk : Bool) :
    s'.clkLevel lspclk = s.clkLevel lspclk := by
  rw [Top.clkLevel, Top.clkLevel, hbaud, div, div, h.spiccr, h.spibrr]

namespace LoopMaster

variable (hs : LoopMaster s)

include hs

theorem spiRes (hi : i.Selected) : s.spiRes i = false := spiRes_eq_false hi.resN hs.swRes

theorem dataEnd (hi : i.Selected) : s.dataEnd i = s.countLimit :=
  dataEnd_of_enabled hi.ssN hs.spiEn

theorem sregEnNow (hi : i.Selected) :
    s.sregEnNow i =
      if s.postLoaden then true else if s.countLimit && !s.sdatClk then false else s.sregEn := by
  rw [Top.sregEnNow, hs.spiRes hi, sregOffOk, hs.dataEnd hi, Top.master, hs.master]
  rfl

theorem txFullNow (hi : i.Selected) :
    s.txFullNow i =
      if s.countLimit && !s.sdatClk then false else if i.loadEn then true else s.txFull := by
  rw [Top.txFullNow, sregOffOk, hs.dataEnd hi, hi.resN]
  rfl

theorem sdatNow (hi : i.Selected) (hl : i.loadEn = false) :
    s.sdatNow i p lspclk = s.clkLevel lspclk := by
  rw [Top.sdatNow, hl, if_neg Bool.false_ne_true, localClk, spiclk, baudout, polarity,
    hs.spiRes hi, Top.master, hs.master, Top.clkLevel]
  cases s.spiccr.getLsbD 6 with
  | false => simp
  | true => simp

/-- The register is fed its own output. -/
theorem somi (hi : i.Selected) : s.somi i p = s.spidat.getLsbD 15 := by
  rw [Top.somi, Top.loopback, hs.loopback, if_pos rfl, mosi, Top.spiEn, hi.ssN, hs.spiEn,
    Top.master, Top.loopback, hs.loopback]
  simp [spidatNout, ShiftRegMsb.doutN]

end LoopMaster

/-! ## Settling during a transfer -/

theorem Running.countLimit_eq (h : Running k s) : s.countLimit = decide (k = 0) := by
  have hcounter := h.counter
  have hdlen := h.dlen
  rw [Bool.eq_iff_iff, countLimit_iff, decide_eq_true_iff]
  omega

/-- While bits are left, or the clock is high, nothing ends the transfer. -/
theorem Running.limit_and_low (h : Running k s) : (s.countLimit && !s.sdatClk) = false := by
  rw [h.countLimit_eq]
  by_cases hk : k = 0
  · rw [h.full hk, Bool.not_true, Bool.and_false]
  · rw [decide_eq_false hk, Bool.false_and]

theorem Running.sregEnNow (h : Running k s) (hi : i.Selected) : s.sregEnNow i = true := by
  rw [h.toLoopMaster.sregEnNow hi, h.limit_and_low]
  cases hpost : s.postLoaden with
  | true => rfl
  | false => simpa [hpost] using h.enabled

/-- The latches have settled: the shift register is enabled and the divider runs. -/
structure Settled (k : Nat) (s : Top) : Prop extends Running k s where
  sregEn : s.sregEn = true
  baudRes : s.baudRes = false
  spiInt : k = 0 → s.spiInt = true

theorem Running.settle (h : Running k s) (hi : i.Waits) :
    Settled k (s.settle i) ∧ SameRegs s (s.settle i) ∧ (s.settle i).baud = s.baud := by
  have hsw := h.toLoopMaster.spiRes hi.toSelected
  have hregs := settle_sameRegs hi.resN hsw
  have hen := h.sregEnNow hi.toSelected
  have hnores : (i.ssN || i.wrBrr || !s.sregEnNow i) = false := by
    rw [hi.ssN, hi.wrBrr, hen]
    rfl
  refine ⟨⟨⟨hregs.loopMaster h.toLoopMaster, ?_, ?_, ?_, ?_, ?_⟩, ?_, ?_, ?_⟩, hregs, ?_⟩
  · exact .inl ((settle_sregEn hi.resN hsw).trans hen)
  · rw [settle_txFull hi.resN hsw, h.toLoopMaster.txFullNow hi.toSelected, h.limit_and_low,
      hi.loadEn]
    exact h.txFull
  · rw [hregs.counter, hregs.dlen]
    exact h.counter
  · rw [hregs.dlen]
    exact h.dlen
  · rw [hregs.sdatClk]
    exact h.full
  · exact (settle_sregEn hi.resN hsw).trans hen
  · rw [settle_baudRes hi.resN hsw, hnores]
  · rintro rfl
    rw [settle_spiInt hi.resN hsw, hi.rdRxbuf, h.toLoopMaster.dataEnd hi.toSelected,
      h.countLimit_eq, hen]
    cases s.spiInt with
    | true => rfl
    | false => rfl
  · rw [settle_baud hi.resN hsw, hnores]
    rfl

/-! ## Edges of `sdat_clk` -/

/-- A bit clock of an enabled master in loopback. -/
theorem LoopMaster.sdatEdge_spidat (hs : LoopMaster s) (hi : i.Selected) (hl : i.loadEn = false)
    (hen : s.sregEn = true) :
    (s.sdatEdge i p).spidat = s.spidat.shiftConcat (s.spidat.getLsbD 15) := by
  rw [sdatEdge, hs.somi hi]
  exact ShiftRegMsb.clock_shift _ hl hen

theorem LoopMaster.sdatEdge_counter (hs : LoopMaster s) (hi : i.Selected)
    (hl : i.loadEn = false) :
    (s.sdatEdge i p).counter =
      if s.countLimit then 0 else if s.sregEn then s.counter + 1 else s.counter := by
  rw [Top.sdatEdge_counter (hs.spiRes hi), hs.dataEnd hi, hl, Bool.or_false]

/-- The clock stays, or falls with bits left. -/
theorem Running.follow_keep {v : Bool} (h : Running k s) (hv : s.sdatNow i p lspclk = v)
    (hkeep : v = s.sdatClk ∨ v = false ∧ 0 < k) :
    Running k (s.follow i p lspclk) ∧ s.follow i p lspclk = { s with sdatClk := v } := by
  have hnot : (v && !s.sdatClk) = false := by
    rcases hkeep with rfl | ⟨rfl, -⟩
    · exact Bool.and_not_self _
    · rfl
  have hfollow := follow_of_not_rise hv hnot
  refine ⟨?_, hfollow⟩
  rw [hfollow]
  refine ⟨h.toLoopMaster.congr rfl rfl rfl, h.enabled, h.txFull, h.counter, h.dlen, ?_⟩
  intro hk
  rcases hkeep with rfl | ⟨-, hpos⟩
  · exact h.full hk
  · exact absurd hk hpos.ne'

/-- The clock rises: a bit is shifted. -/
theorem Settled.follow_rise (h : Settled (k + 1) s) (hi : i.Waits)
    (hv : s.sdatNow i p lspclk = true) (hlow : s.sdatClk = false) :
    Running k (s.follow i p lspclk) ∧
      s.follow i p lspclk = { s.sdatEdge i p with sdatClk := true } ∧
      (s.follow i p lspclk).spidat = s.spidat.shiftConcat (s.spidat.getLsbD 15) := by
  have hfollow := follow_of_rise (p := p) hv hlow
  have hcounter : (s.sdatEdge i p).counter = s.counter + 1 := by
    rw [h.toLoopMaster.sdatEdge_counter hi.toSelected hi.loadEn, h.countLimit_eq, h.sregEn]
    rfl
  rw [hfollow]
  refine ⟨⟨h.toLoopMaster.congr rfl rfl rfl, h.enabled, h.txFull, ?_, h.dlen, fun _ ↦ rfl⟩, rfl,
    h.toLoopMaster.sdatEdge_spidat hi.toSelected hi.loadEn h.sregEn⟩
  have hsum := h.counter
  have hdlen := h.dlen
  show (s.sdatEdge i p).counter.toNat + k = s.dlen.toNat + 1
  rw [hcounter, BitVec.toNat_add]
  show (s.counter.toNat + 1) % 16 + k = s.dlen.toNat + 1
  omega

/-! ## Halves of a period -/

/-- From `s` to `s'` the register rotates by `j` positions and the settings stay. -/
structure Moved (j : Nat) (s s' : Top) : Prop where
  spidat : msbBits s'.spidat = (msbBits s.spidat).rotate j
  spiccr : s'.spiccr = s.spiccr
  spictl : s'.spictl = s.spictl
  spibrr : s'.spibrr = s.spibrr

theorem SameRegs.moved (h : SameRegs s s') : Moved 0 s s' :=
  ⟨by rw [h.spidat, List.rotate_zero], h.spiccr, h.spictl, h.spibrr⟩

theorem Moved.trans {j l : Nat} {s'' : Top} (h : Moved j s s') (h' : Moved l s' s'') :
    Moved (j + l) s s'' := by
  refine ⟨?_, h'.spiccr.trans h.spiccr, h'.spictl.trans h.spictl, h'.spibrr.trans h.spibrr⟩
  rw [h'.spidat, h.spidat, List.rotate_rotate]

theorem Moved.clkLevel {j : Nat} (h : Moved j s s') (hbaud : s'.baud = s.baud) (lspclk : Bool) :
    s'.clkLevel lspclk = s.clkLevel lspclk := by
  rw [Top.clkLevel, Top.clkLevel, hbaud, Top.div, Top.div, h.spiccr, h.spibrr]

variable {x : Half}

/-- The rest of a transfer after half a period in which `j` bits are shifted. -/
structure Goes (k j : Nat) (x : Half) (s : Top) : Prop where
  settled : Settled k (s.half x)
  moved : Moved j s (s.half x)
  sdatClk : (s.half x).sdatClk = s.clkLevel x.lspclk
  baud : (s.half x).baud = s.baud
  postLoaden : (s.half x).postLoaden = s.postLoaden
  bitClock : (s.bitClock x).toList.length = j

/-- The wires settle, the clock of the bits goes on, and the wires settle again. -/
theorem Running.goes {j l : Nat} {u : Top} (h : Running l s) (hi : x.bus.Waits)
    (hu : (s.settle x.bus).follow x.bus x.pins x.lspclk = u) (hrun : Running k u)
    (hmoved : Moved j (s.settle x.bus) u) (hclk : u.sdatClk = s.clkLevel x.lspclk)
    (hbaud : u.baud = (s.settle x.bus).baud) (hpost : u.postLoaden = (s.settle x.bus).postLoaden)
    (hbit : (s.bitClock x).toList.length = j) : Goes k j x s := by
  obtain ⟨-, hregs, hbaud₀⟩ := h.settle hi
  obtain ⟨hset', hregs', hbaud'⟩ := hrun.settle hi
  have hhalf : s.half x = u.settle x.bus := by rw [half, hu]
  constructor
  case settled => rw [hhalf]; exact hset'
  case moved =>
    rw [hhalf, ← Nat.zero_add j]
    exact hregs.moved.trans (hmoved.trans hregs'.moved)
  case sdatClk => rw [hhalf, hregs'.sdatClk, hclk]
  case baud => rw [hhalf, hbaud', hbaud, hbaud₀]
  case postLoaden => rw [hhalf, hregs'.postLoaden, hpost, hregs.postLoaden]
  case bitClock => exact hbit

theorem Running.half_keep (h : Running k s) (hi : x.bus.Waits)
    (hkeep : s.clkLevel x.lspclk = s.sdatClk ∨ s.clkLevel x.lspclk = false ∧ 0 < k) :
    Goes k 0 x s := by
  obtain ⟨hset, hregs, hbaud⟩ := h.settle hi
  have hv : (s.settle x.bus).sdatNow x.bus x.pins x.lspclk = s.clkLevel x.lspclk :=
    (hset.toLoopMaster.sdatNow hi.toSelected hi.loadEn).trans (hregs.clkLevel hbaud _)
  rw [← hregs.sdatClk] at hkeep
  obtain ⟨hrun, hfollow⟩ := hset.toRunning.follow_keep hv hkeep
  rw [hfollow] at hrun
  refine h.goes hi hfollow hrun ⟨(List.rotate_zero _).symm, rfl, rfl, rfl⟩ rfl rfl rfl ?_
  rw [Top.bitClock, hv]
  rcases hkeep with heq | ⟨heq, -⟩
  · simp [heq]
  · simp [heq]

theorem Running.half_rise (h : Running (k + 1) s) (hi : x.bus.Waits)
    (hv : s.clkLevel x.lspclk = true) (hlow : s.sdatClk = false) : Goes k 1 x s := by
  obtain ⟨hset, hregs, hbaud⟩ := h.settle hi
  have hv' : (s.settle x.bus).sdatNow x.bus x.pins x.lspclk = true :=
    ((hset.toLoopMaster.sdatNow hi.toSelected hi.loadEn).trans (hregs.clkLevel hbaud _)).trans hv
  have hlow' : (s.settle x.bus).sdatClk = false := hregs.sdatClk.trans hlow
  obtain ⟨hrun, hfollow, hshift⟩ := hset.follow_rise hi hv' hlow'
  rw [hfollow] at hrun hshift
  refine h.goes hi hfollow hrun ⟨?_, rfl, rfl, rfl⟩ hv.symm rfl rfl ?_
  · rw [hshift, msbBits_shiftConcat_self]
  · rw [Top.bitClock, hv', hlow', hset.sregEn, hi.loadEn]
    rfl

/-- With the last bit shifted, the clock falls: the transfer ends. -/
structure Ends (x : Half) (s : Top) : Prop where
  level : s.clkLevel x.lspclk = false
  still : Still (s.half x)
  moved : Moved 0 s (s.half x)
  sdatClk : (s.half x).sdatClk = false
  countLimit : (s.half x).countLimit = true
  baud : (s.half x).baud = ClockDivider.load s.phase (s.spiccr.getLsbD 6)
  baudRes : (s.half x).baudRes = true
  spiInt : (s.half x).spiInt = true
  bitClock : s.bitClock x = none

theorem LoopMaster.polarity (hs : LoopMaster s) (hi : i.Selected) :
    s.polarity i = s.spiccr.getLsbD 6 := by
  rw [Top.polarity, hs.spiRes hi]
  rfl

/-- The clock falls with `count_limit` up: `sreg_off_ok` is up and the transfer is turned off. -/
theorem Running.half_eq (h : Running 0 s) (hi : x.bus.Waits) (hpost : s.postLoaden = false)
    (hv : s.clkLevel x.lspclk = false) :
    let u := { s.settle x.bus with sdatClk := false }
    s.half x = u.settle x.bus ∧ (s.settle x.bus).sdatNow x.bus x.pins x.lspclk = false ∧
      LoopMaster u ∧ u.countLimit = true ∧ u.sregEnNow x.bus = false := by
  obtain ⟨hset, hregs, hbaud⟩ := h.settle hi
  have hsel := hi.toSelected
  have hv' : (s.settle x.bus).sdatNow x.bus x.pins x.lspclk = false :=
    ((hset.toLoopMaster.sdatNow hsel hi.loadEn).trans (hregs.clkLevel hbaud _)).trans hv
  have hmaster : LoopMaster { s.settle x.bus with sdatClk := false } :=
    hset.toLoopMaster.congr rfl rfl rfl
  have hlimit : Top.countLimit { s.settle x.bus with sdatClk := false } = true :=
    hset.countLimit_eq
  have hpost' : (s.settle x.bus).postLoaden = false := hregs.postLoaden.trans hpost
  refine ⟨?_, hv', hmaster, hlimit, ?_⟩
  · rw [half, follow_of_not_rise hv' rfl]
  · rw [hmaster.sregEnNow hsel, hlimit, if_neg (by simp [hpost'])]
    rfl

theorem Running.half_stop (h : Running 0 s) (hi : x.bus.Waits) (hpost : s.postLoaden = false)
    (hv : s.clkLevel x.lspclk = false) : Ends x s := by
  obtain ⟨hset, hregs, -⟩ := h.settle hi
  obtain ⟨hhalf, hv', hmaster, hlimit, hen⟩ := h.half_eq hi hpost hv
  have hsel := hi.toSelected
  have hsw := hmaster.spiRes hsel
  have hregs' := settle_sameRegs hi.resN hsw
  have hsame : Moved 0 (s.settle x.bus) { s.settle x.bus with sdatClk := false } :=
    ⟨(List.rotate_zero _).symm, rfl, rfl, rfl⟩
  have hoff : Off (s.half x) := by
    rw [hhalf]
    refine ⟨hregs'.loopMaster hmaster, ?_, ?_⟩
    · rw [settle_sregEn hi.resN hsw, hen]
    · rw [hregs'.postLoaden]
      exact hregs.postLoaden.trans hpost
  constructor
  case level => exact hv
  case still =>
    refine ⟨hoff, ?_⟩
    rw [hhalf, settle_txFull hi.resN hsw, hmaster.txFullNow hsel, hlimit]
    rfl
  case moved =>
    rw [hhalf]
    exact hregs.moved.trans (hsame.trans hregs'.moved)
  case sdatClk => rw [hhalf, hregs'.sdatClk]
  case countLimit => rw [hhalf, hregs'.countLimit, hlimit]
  case baud =>
    have hres : Top.baudRes { s.settle x.bus with sdatClk := false } = false := hset.baudRes
    rw [hhalf, settle_baud hi.resN hsw, hen, hmaster.polarity hsel, hres, Bool.not_false,
      Bool.or_true, Bool.true_and, if_pos rfl]
    show ClockDivider.load (s.settle x.bus).phase ((s.settle x.bus).spiccr.getLsbD 6) = _
    rw [Top.phase, hregs.spictl, hregs.spiccr]
    rfl
  case baudRes =>
    rw [hhalf, settle_baudRes hi.resN hsw, hen]
    simp
  case spiInt =>
    have hint : Top.spiInt { s.settle x.bus with sdatClk := false } = true := hset.spiInt rfl
    rw [hhalf, settle_spiInt hi.resN hsw, hi.rdRxbuf, hen, hint]
    simp
  case bitClock =>
    rw [Top.bitClock, hv']
    rfl

/-! ## Halves without a transfer -/

theorem Off.settle (h : Off s) (hi : i.Selected) :
    Off (s.settle i) ∧ SameRegs s (s.settle i) ∧ (s.settle i).baudRes = true ∧
      (s.settle i).baud =
        (if s.baudRes then s.baud else ClockDivider.load s.phase (s.spiccr.getLsbD 6)) ∧
      (i.rdRxbuf = false → (s.settle i).spiInt = s.spiInt) := by
  have hsw := h.toLoopMaster.spiRes hi
  have hregs := settle_sameRegs hi.resN hsw
  have hen : s.sregEnNow i = false := by
    rw [h.toLoopMaster.sregEnNow hi, h.postLoaden, h.sregEn]
    simp
  refine ⟨⟨hregs.loopMaster h.toLoopMaster, ?_, ?_⟩, hregs, ?_, ?_, ?_⟩
  · exact (settle_sregEn hi.resN hsw).trans hen
  · exact hregs.postLoaden.trans h.postLoaden
  · rw [settle_baudRes hi.resN hsw, hen]
    simp
  · rw [settle_baud hi.resN hsw, hen, h.toLoopMaster.polarity hi]
    cases s.baudRes with
    | true => simp
    | false => simp
  · intro hrd
    rw [settle_spiInt hi.resN hsw, hrd, hen]
    simp

theorem Still.settle_txFull (h : Still s) (hi : i.Selected) (hl : i.loadEn = false) :
    (s.settle i).txFull = false := by
  have hsw := h.toLoopMaster.spiRes hi
  rw [Top.settle_txFull hi.resN hsw, h.toLoopMaster.txFullNow hi, hl, h.txFull]
  simp

/-- An edge of `sdat_clk` finds the shift register off; at the limit it clears the counter. -/
theorem Off.follow (h : Off s) (hi : i.Selected) (hl : i.loadEn = false) :
    s.follow i p lspclk =
      { s with
        sdatClk := s.clkLevel lspclk
        counter := if s.clkLevel lspclk && !s.sdatClk && s.countLimit then 0 else s.counter
        mosBuf := if s.clkLevel lspclk && !s.sdatClk then s.spidatNout else s.mosBuf } := by
  have hv : s.sdatNow i p lspclk = s.clkLevel lspclk := h.toLoopMaster.sdatNow hi hl
  cases hrise : s.clkLevel lspclk && !s.sdatClk with
  | false =>
    rw [follow_of_not_rise hv hrise]
    rfl
  | true =>
    obtain ⟨hlevel, hlow⟩ := Bool.and_eq_true_iff.mp hrise
    have hcounter := h.toLoopMaster.sdatEdge_counter (p := p) hi hl
    have hkeep : (s.sdatEdge i p).spidat = s.spidat := ShiftRegMsb.clock_keep _ hl h.sregEn
    rw [h.sregEn] at hcounter
    rw [follow_of_rise (hv.trans hlevel) (by simpa using hlow), hlevel]
    refine Top.ext rfl rfl rfl rfl rfl rfl rfl hkeep rfl ?_ rfl rfl rfl rfl rfl
    exact hcounter

/-- Half a period in which nothing but the bit counter changes. -/
structure Idles (x : Half) (s : Top) : Prop where
  still : Still (s.half x)
  moved : Moved 0 s (s.half x)
  spiInt : x.bus.rdRxbuf = false → (s.half x).spiInt = s.spiInt
  baudRes : (s.half x).baudRes = true
  baud : (s.half x).baud =
    if s.baudRes then s.baud else ClockDivider.load s.phase (s.spiccr.getLsbD 6)
  sdatClk : (s.half x).sdatClk = (s.half x).clkLevel x.lspclk
  counter : (s.half x).counter =
    if (s.half x).sdatClk && !s.sdatClk && s.countLimit then 0 else s.counter
  bitClock : s.bitClock x = none

theorem Still.half (h : Still s) (hi : x.bus.Selected) (hl : x.bus.loadEn = false) :
    Idles x s := by
  obtain ⟨hoff, hregs, hbres, hbaud, hint⟩ := h.toOff.settle hi
  have htx := h.settle_txFull hi hl
  have hfollow : (s.settle x.bus).follow x.bus x.pins x.lspclk = _ := hoff.follow hi hl
  have hhalf : s.half x = ((s.settle x.bus).follow x.bus x.pins x.lspclk).settle x.bus := rfl
  set u := s.settle x.bus with hu
  set v := u.follow x.bus x.pins x.lspclk with hvdef
  have hv : Still v := by
    rw [hfollow]
    exact ⟨⟨hoff.toLoopMaster.congr rfl rfl rfl, hoff.sregEn, hoff.postLoaden⟩, htx⟩
  obtain ⟨hoff', hregs', hbres', hbaud', hint'⟩ := hv.toOff.settle hi
  have hvbres : v.baudRes = true := by rw [hfollow]; exact hbres
  have hvbaud : v.baud = u.baud := by rw [hfollow]
  have hsame : Moved 0 u v := by
    rw [hfollow]
    exact ⟨(List.rotate_zero _).symm, rfl, rfl, rfl⟩
  have hsdat : v.sdatClk = v.clkLevel x.lspclk := by
    rw [hsame.clkLevel hvbaud, hfollow]
  rw [hvbres, if_pos rfl] at hbaud'
  rw [← hhalf] at hoff' hregs' hbres' hbaud' hint'
  refine ⟨⟨hoff', ?_⟩, ?_, ?_, hbres', ?_, ?_, ?_, ?_⟩
  · rw [hhalf]
    exact hv.settle_txFull hi hl
  · exact hregs.moved.trans (hsame.trans hregs'.moved)
  · intro hrd
    rw [hint' hrd, hfollow]
    exact hint hrd
  · rw [hbaud', hvbaud, hbaud]
  · rw [hregs'.sdatClk, hsdat, hregs'.clkLevel hbaud']
  · rw [hregs'.counter, hregs'.sdatClk, hfollow, hregs.countLimit, hregs.counter, hregs.sdatClk]
  · rw [Top.bitClock, ← hu, hoff.sregEn, Bool.and_false, Bool.false_and]
    rfl

end

end Top

end RtlCores.Spi
