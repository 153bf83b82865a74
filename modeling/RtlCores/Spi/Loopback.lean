import RtlCores.Lib.Clocked
import RtlCores.Spi.LoopbackPeriods

/-!
# Loopback transfers

A transfer starts with a write of `SPIDAT`, shifts until the bit counter reaches its limit and
stops when the clock falls after that.  The counter is too short for the limits of the two
longest characters, and a write while `sdat_clk` is high brings no edge that would load it.
-/

namespace RtlCores.Spi

open RtlCores.Lib RtlCores.Modules

theorem Bus.Starts.paddr {i : Bus} (h : i.Starts) : i.paddr = Addr.spidat := by
  have hload := h.loadEn
  rw [Bus.loadEn, Bool.and_eq_true, beq_iff_eq] at hload
  exact hload.2

theorem Bus.Starts.wrCcr {i : Bus} (h : i.Starts) : i.wrCcr = false := by
  rw [Bus.wrCcr, h.paddr]
  exact Bool.and_false _

theorem Bus.Starts.wrCtl {i : Bus} (h : i.Starts) : i.wrCtl = false := by
  rw [Bus.wrCtl, h.paddr]
  exact Bool.and_false _

theorem Bus.Starts.wrBrr {i : Bus} (h : i.Starts) : i.wrBrr = false := by
  rw [Bus.wrBrr, h.paddr]
  exact Bool.and_false _

namespace Top

variable {i : Period} {x : Half} {s s' : Top} {k : Nat}

/-! ## Between transfers -/

theorem Rests.congr {j : Nat} {b : Bus} (h : Rests b s) (hm : Moved j s s') : Rests b s' := by
  refine ⟨h.toSelected, h.loadEn, ?_, h.wrCtl, ?_⟩
  · rw [hm.spiccr]
    exact h.wrCcr
  · rw [hm.div]
    exact h.wrBrr

/-- The port stays a master in loopback with the same divisor and polarity. -/
theorem Rests.posedge {b : Bus} (h : Rests b s) (hs : LoopMaster s) :
    LoopMaster (s.posedge b) ∧ (s.posedge b).spiccr.getLsbD 6 = s.spiccr.getLsbD 6 ∧
      (s.posedge b).div = s.div := by
  have hccr := posedge_spiccr (s := s) h.toSelected
  have hctl := posedge_spictl (s := s) h.toSelected
  have hbrr := posedge_spibrr (s := s) h.toSelected
  have hdiv : (s.posedge b).div = s.div := by
    rw [div, hbrr]
    by_cases hw : b.wrBrr = true
    · rw [if_pos hw, h.wrBrr hw]
      ext j hj
      have hlt : j < 8 := by omega
      simpa [hlt] using BitVec.getLsbD_eq_getElem hj
    · rw [if_neg hw]
      rfl
  refine ⟨⟨?_, ?_, ?_, ?_, hdiv ▸ hs.div⟩, ?_, hdiv⟩
  · rw [hccr]
    by_cases hw : b.wrCcr = true
    · simpa [hw] using (h.wrCcr hw).1
    · rw [if_neg hw, hs.swRes]
  · rw [hccr]
    by_cases hw : b.wrCcr = true
    · simpa [hw] using (h.wrCcr hw).2.1
    · rw [if_neg hw, hs.loopback]
  · rw [hctl]
    by_cases hw : b.wrCtl = true
    · simpa [hw] using (h.wrCtl hw).1
    · rw [if_neg hw, hs.spiEn]
  · rw [hctl]
    by_cases hw : b.wrCtl = true
    · simpa [hw] using (h.wrCtl hw).2
    · rw [if_neg hw, hs.master]
  · rw [hccr]
    by_cases hw : b.wrCcr = true
    · simpa [hw] using (h.wrCcr hw).2.2
    · rw [if_neg hw]

/-- A period in which nothing but the settings may change. -/
structure Rested (i : Period) (s : Top) : Prop where
  atRest : AtRest (s.period i)
  spidat : (s.period i).spidat = s.spidat
  spiInt : i.bus.rdRxbuf = false → (s.period i).spiInt = s.spiInt
  spiccr : i.bus.wrCcr = false → (s.period i).spiccr = s.spiccr
  periodBit : s.periodBit i = none

theorem Moved.spidat_eq (h : Moved 0 s s') : s'.spidat = s.spidat :=
  msbBits_inj (h.spidat.trans (List.rotate_zero _))

theorem AtRest.rested (h : AtRest s) (hi : Rests i.bus s) : Rested i s := by
  have h1 := h.toStill.half (x := i.first) hi.toSelected hi.loadEn
  have h2 := h1.still.half (x := i.second) hi.toSelected hi.loadEn
  have hmoved := h1.moved.trans h2.moved
  set u := (s.half i.first).half i.second with hu
  have hmaster := h2.still.toLoopMaster
  obtain ⟨hmaster', hpol, hdiv⟩ := (hi.congr hmoved).posedge hmaster
  have hpost := (posedge_postLoaden hmaster hi.toSelected).trans hi.loadEn
  have hperiod : s.period i = u.posedge i.bus := rfl
  refine ⟨⟨⟨⟨hmaster', h2.still.sregEn, hpost⟩, h2.still.txFull⟩, ?_⟩, ?_, ?_, ?_, ?_⟩
  · rcases h.counter with hzero | ⟨hsdat, hlow⟩
    · left
      show u.counter = 0
      rw [h2.counter, h1.counter, hzero]
      simp
    · right
      have hlow1 : (s.half i.first).clkLevel false = false := by
        refine h.toLoopMaster.clkLevel_of_load s.phase hlow
          (congrArg (BitVec.getLsbD · 6) h1.moved.spiccr) h1.moved.div ?_
        rw [h1.baud]
        cases s.baudRes with
        | true => exact .inl rfl
        | false => exact .inr rfl
      have hlow2 : u.clkLevel false = false := by
        have hbaud : u.baud = (s.half i.first).baud := by rw [h2.baud, h1.baudRes, if_pos rfl]
        exact (h2.moved.clkLevel hbaud false).trans hlow1
      exact ⟨h2.sdatClk.trans hlow2,
        hmaster.posedge_low hi.toSelected h2.baudRes hlow2 hpol hdiv⟩
  · exact hmoved.spidat_eq
  · intro hrd
    exact (h2.spiInt hrd).trans (h1.spiInt hrd)
  · intro hw
    rw [hperiod, posedge_spiccr hi.toSelected, hw, if_neg Bool.false_ne_true]
    exact hmoved.spiccr
  · rw [Top.periodBit, h1.bitClock]
    exact h2.bitClock

/-! ## The start of a transfer -/

/-- Half a period in which `SPIDAT` is written: `sdat_clk` goes high, and if it was low the
word is loaded. -/
structure Loads (x : Half) (s : Top) : Prop where
  off : Off (s.half x)
  spiccr : (s.half x).spiccr = s.spiccr
  spictl : (s.half x).spictl = s.spictl
  spibrr : (s.half x).spibrr = s.spibrr
  txFull : (s.half x).txFull = true
  sdatClk : (s.half x).sdatClk = true
  spidat : (s.half x).spidat = if s.sdatClk then s.spidat else s.loadValue x.bus
  counter : (s.half x).counter = if s.sdatClk then s.counter else 0
  baudRes : (s.half x).baudRes = true
  bitClock : s.bitClock x = none

/-- What `sdat_clk` being high leaves, with or without an edge. -/
theorem Off.follow_load (h : Off s) (hi : x.bus.Starts)
    (hv : s.sdatNow x.bus x.pins x.lspclk = true) :
    let v := s.follow x.bus x.pins x.lspclk
    Off v ∧ v.spiccr = s.spiccr ∧ v.spictl = s.spictl ∧ v.spibrr = s.spibrr ∧ v.sdatClk = true ∧
      v.spidat = (if s.sdatClk then s.spidat else s.loadValue x.bus) ∧
      v.counter = if s.sdatClk then s.counter else 0 := by
  cases hsdat : s.sdatClk with
  | true =>
    rw [follow_of_not_rise hv (by rw [hsdat]; rfl)]
    exact ⟨⟨h.toLoopMaster.congr rfl rfl rfl, h.sregEn, h.postLoaden⟩, rfl, rfl, rfl, rfl, rfl,
      rfl⟩
  | false =>
    rw [follow_of_rise hv hsdat]
    refine ⟨⟨h.toLoopMaster.congr rfl rfl rfl, h.sregEn, h.postLoaden⟩, rfl, rfl, rfl, rfl, ?_,
      ?_⟩
    · exact ShiftRegMsb.clock_load _ hi.loadEn
    · show (if s.spiRes x.bus || s.dataEnd x.bus || x.bus.loadEn then _ else _) = _
      rw [hi.loadEn, Bool.or_true, if_pos rfl]
      rfl

theorem Off.half_load (h : Off s) (hi : x.bus.Starts) : Loads x s := by
  obtain ⟨hoff, hregs, -, -, -⟩ := h.settle hi.toSelected
  have hv : (s.settle x.bus).sdatNow x.bus x.pins x.lspclk = true := by
    rw [sdatNow, hi.loadEn]
    rfl
  have hhalf : s.half x = ((s.settle x.bus).follow x.bus x.pins x.lspclk).settle x.bus := rfl
  have hload : (s.settle x.bus).loadValue x.bus = s.loadValue x.bus := by
    rw [loadValue, loadValue, hregs.dlen]
  obtain ⟨hvoff, hccr, hctl, hbrr, hsdat, hspidat, hcounter⟩ := hoff.follow_load hi hv
  rw [hregs.sdatClk, hregs.spidat, hload] at hspidat
  rw [hregs.sdatClk, hregs.counter] at hcounter
  obtain ⟨hoff', hregs', hbres', -, -⟩ := hvoff.settle hi.toSelected
  rw [← hhalf] at hoff' hregs' hbres'
  constructor
  case off => exact hoff'
  case spiccr => exact hregs'.spiccr.trans (hccr.trans hregs.spiccr)
  case spictl => exact hregs'.spictl.trans (hctl.trans hregs.spictl)
  case spibrr => exact hregs'.spibrr.trans (hbrr.trans hregs.spibrr)
  case txFull =>
    rw [hhalf, settle_txFull hi.resN (hvoff.toLoopMaster.spiRes hi.toSelected),
      hvoff.toLoopMaster.txFullNow hi.toSelected, hsdat, hi.loadEn]
    simp
  case sdatClk => exact hregs'.sdatClk.trans hsdat
  case spidat => exact hregs'.spidat.trans hspidat
  case counter => exact hregs'.counter.trans hcounter
  case baudRes => exact hbres'
  case bitClock =>
    rw [Top.bitClock, hoff.sregEn, Bool.and_false, Bool.false_and]
    rfl

/-- The state in which a transfer starts: the register is loaded, or was not. -/
structure Begun (i : Period) (s : Top) : Prop where
  loopMaster : LoopMaster (s.period i)
  postLoaden : (s.period i).postLoaden = true
  txFull : (s.period i).txFull = true
  sdatClk : (s.period i).sdatClk = true
  counter : (s.period i).counter = 0
  spidat : (s.period i).spidat = if s.sdatClk then s.spidat else s.loadValue i.bus
  spiccr : (s.period i).spiccr = s.spiccr
  baud : (s.period i).baud =
    ClockDivider.load (s.period i).phase ((s.period i).spiccr.getLsbD 6)
  periodBit : s.periodBit i = none

theorem AtRest.begun (h : AtRest s) (hi : i.bus.Starts) : Begun i s := by
  have h1 := h.toOff.half_load (x := i.first) hi
  have h2 := h1.off.half_load (x := i.second) hi
  have hedge := posedge_moved (s := (s.half i.first).half i.second) hi.toSelected hi.wrCcr hi.wrCtl
    hi.wrBrr
  have hmaster := h2.off.toLoopMaster
  refine ⟨hedge.loopMaster hmaster, ?_, h2.txFull, h2.sdatClk, ?_, ?_, ?_, ?_, ?_⟩
  · exact (posedge_postLoaden hmaster hi.toSelected).trans hi.loadEn
  · show ((s.half i.first).half i.second).counter = 0
    rw [h2.counter, h1.sdatClk, if_pos rfl, h1.counter]
    cases hsdat : s.sdatClk with
    | false => rfl
    | true =>
      rcases h.counter with hzero | ⟨hlow, -⟩
      · exact hzero
      · exact absurd (hlow.symm.trans hsdat) Bool.false_ne_true
  · show ((s.half i.first).half i.second).spidat = _
    rw [h2.spidat, h1.sdatClk, if_pos rfl, h1.spidat]
    rfl
  · exact hedge.spiccr.trans (h2.spiccr.trans h1.spiccr)
  · have hphase : (s.period i).phase = ((s.half i.first).half i.second).phase :=
      congrArg (BitVec.getLsbD · 3) hedge.spictl
    have hpol : (s.period i).spiccr.getLsbD 6 = ((s.half i.first).half i.second).polarity i.bus :=
      (congrArg (BitVec.getLsbD · 6) hedge.spiccr).trans (hmaster.polarity hi.toSelected).symm
    show (if ((s.half i.first).half i.second).baudRes then _ else _) = _
    rw [h2.baudRes, if_pos rfl, hphase, hpol]
    rfl
  · rw [Top.periodBit, h1.bitClock]
    exact h2.bitClock

/-- The two longest characters put the limit out of the counter's reach. -/
structure Stuck (s : Top) : Prop extends LoopMaster s where
  txFull : s.txFull = true
  dlen : 14 ≤ s.dlen.toNat

theorem toNat_load_counter_le (fixedPhase fixedPol : Bool) :
    (ClockDivider.load fixedPhase fixedPol : ClockDivider 7).counter.toNat ≤ 1 := by
  cases fixedPhase with
  | false => exact le_refl 1
  | true => exact Nat.zero_le 1

theorem Begun.paced (h : Begun i s) (hdlen : s.dlen.toNat ≤ 13) :
    Paced (s.dlen.toNat + 1) (s.period i) := by
  have hdlen' : (s.period i).dlen = s.dlen := by rw [dlen, dlen, h.spiccr]
  refine ⟨⟨h.loopMaster, .inr h.postLoaden, h.txFull, ?_, hdlen' ▸ hdlen, ?_⟩, ?_, ?_, ?_⟩
  · rw [h.counter, hdlen']
    exact Nat.zero_add _
  · intro hk
    exact absurd hk (Nat.succ_ne_zero _)
  · exact fun _ ↦ ⟨h.sdatClk, Nat.succ_pos _⟩
  · intro hdiv _
    have hle := toNat_load_counter_le (s.period i).phase ((s.period i).spiccr.getLsbD 6)
    rw [h.baud]
    omega
  · intro hdiv hhigh
    rw [clkLevel_of_two_le hdiv, h.baud] at hhigh
    exact absurd ((Bool.xor_self _).symm.trans hhigh) Bool.false_ne_true

theorem Begun.stuck (h : Begun i s) (hdlen : 14 ≤ s.dlen.toNat) : Stuck (s.period i) := by
  refine ⟨h.loopMaster, h.txFull, ?_⟩
  rw [dlen, h.spiccr]
  exact hdlen

theorem Stuck.countLimit (h : Stuck s) : s.countLimit = false := by
  have hdlen := h.dlen
  by_contra hlimit
  have := s.countLimit_iff.mp (by simpa using hlimit)
  omega

theorem Stuck.settle {b : Bus} (h : Stuck s) (hi : b.Waits) : Stuck (s.settle b) := by
  have hsw := h.toLoopMaster.spiRes hi.toSelected
  have hregs := settle_sameRegs hi.resN hsw
  refine ⟨hregs.loopMaster h.toLoopMaster, ?_, hregs.dlen ▸ h.dlen⟩
  rw [settle_txFull hi.resN hsw, h.toLoopMaster.txFullNow hi.toSelected, h.countLimit, hi.loadEn]
  exact h.txFull

theorem Stuck.follow {b : Bus} (h : Stuck s) (p : Pins) (lspclk : Bool) :
    Stuck (s.follow b p lspclk) := by
  rw [Top.follow]
  cases s.sdatNow b p lspclk && !s.sdatClk with
  | true => exact ⟨h.toLoopMaster.congr rfl rfl rfl, h.txFull, h.dlen⟩
  | false => exact ⟨h.toLoopMaster.congr rfl rfl rfl, h.txFull, h.dlen⟩

theorem Stuck.period (h : Stuck s) (hi : i.bus.Waits) : Stuck (s.period i) := by
  have h1 : Stuck (s.half i.first) := ((h.settle hi).follow i.high true).settle hi
  have h2 : Stuck ((s.half i.first).half i.second) :=
    ((h1.settle hi).follow i.low false).settle hi
  have hedge := posedge_moved (s := (s.half i.first).half i.second) hi.toSelected hi.wrCcr hi.wrCtl
    hi.wrBrr
  exact ⟨hedge.loopMaster h2.toLoopMaster, h2.txFull, hedge.dlen ▸ h2.dlen⟩

/-! ## Runs -/

/-- The bus waits while a character is being sent, and starts the next one when none is. -/
def Obeys (b : Bus) (s : Top) : Prop :=
  if s.txFull then b.Waits else Rests b s ∨ b.Starts

/-- The states of a port that is used as it should be. -/
inductive Sound (s : Top) : Prop
  | atRest (h : AtRest s)
  | paced (k : Nat) (h : Paced k s)
  | stuck (h : Stuck s)

theorem Sound.atRest_of_txFull (h : Sound s) (hidle : s.txFull = false) : AtRest s := by
  cases h with
  | atRest h => exact h
  | paced k h => exact absurd (hidle.symm.trans h.txFull) Bool.false_ne_true
  | stuck h => exact absurd (hidle.symm.trans h.txFull) Bool.false_ne_true

theorem Obeys.waits {b : Bus} (h : Obeys b s) (hfull : s.txFull = true) : b.Waits := by
  rwa [Obeys, if_pos hfull] at h

theorem Sound.period (h : Sound s) (hi : Obeys i.bus s) : Sound (s.period i) := by
  cases h with
  | atRest h =>
    rw [Obeys, h.txFull, if_neg Bool.false_ne_true] at hi
    rcases hi with hi | hi
    · exact .atRest (h.rested hi).atRest
    · rcases Nat.lt_or_ge s.dlen.toNat 14 with hlt | hge
      · exact .paced _ ((h.begun hi).paced (Nat.le_of_lt_succ hlt))
      · exact .stuck ((h.begun hi).stuck hge)
  | paced k h =>
    obtain ⟨j, hadv⟩ := h.advances (hi.waits h.txFull)
    rcases hadv.rest with ⟨hpaced, -⟩ | ⟨-, hfin⟩
    · exact .paced _ hpaced
    · exact .atRest hfin.toAtRest
  | stuck h => exact .stuck (h.period (hi.waits h.txFull))

variable {is : Nat → Period}

theorem Sound.run (h : Sound s) (hi : ∀ t, Obeys (is t).bus (run Top.period is s t)) (t : Nat) :
    Sound (run Top.period is s t) := by
  induction t with
  | zero => exact h
  | succ t ih => exact ih.period (hi t)

theorem Stuck.run (h : Stuck s) (hi : ∀ t, Obeys (is t).bus (run Top.period is s t)) (t : Nat) :
    Stuck (run Top.period is s t) := by
  induction t with
  | zero => exact h
  | succ t ih => exact ih.period ((hi t).waits ih.txFull)

/-- A transfer comes to its end, and all the bits that were left have been shifted by then. -/
theorem Paced.run_finished (h : Paced k s) (hi : ∀ t, Obeys (is t).bus (run period is s t)) :
    ∃ t, 0 < t ∧ (∀ j < t, (run period is s j).txFull = true) ∧ Finished (run period is s t) ∧
      Moved k s (run period is s t) ∧ (emitted periodBit period is s t).length = k := by
  induction hm : ticksLeft k s using Nat.strong_induction_on generalizing k s is with
  | h m ih =>
    obtain ⟨j, hle, hmoved, hbit, hrest⟩ := h.advances ((hi 0).waits h.txFull)
    rcases hrest with ⟨hpaced, hlt⟩ | ⟨rfl, hfin⟩
    · have hrun (t : Nat) : run period is s (1 + t) =
          run period (fun n ↦ is (1 + n)) (s.period (is 0)) t := run_add _ _ _ 1 t
      obtain ⟨t, hpos, hfull, hfin, hmoved', hbits⟩ := ih _ (hm ▸ hlt) hpaced
        (fun t ↦ hrun t ▸ hi (1 + t)) rfl
      have hk : j + (k - j) = k := by omega
      refine ⟨1 + t, by omega, ?_, ?_, ?_, ?_⟩
      · intro l hl
        rcases Nat.eq_zero_or_pos l with rfl | hl0
        · exact h.txFull
        · obtain ⟨l, rfl⟩ : ∃ n, l = 1 + n := ⟨l - 1, by omega⟩
          rw [hrun]
          exact hfull l (by omega)
      · rw [hrun]
        exact hfin
      · rw [hrun, ← hk]
        exact hmoved.trans hmoved'
      · rw [emitted_add, List.length_append]
        show ([] ++ (s.periodBit (is 0)).toList).length + _ = _
        rw [List.nil_append, hbit]
        exact (congrArg (j + ·) hbits).trans hk
    · refine ⟨1, Nat.one_pos, ?_, hfin, hmoved, hbit⟩
      intro l hl
      obtain rfl : l = 0 := by omega
      exact h.txFull

/-- A port that is left alone stays as it is. -/
theorem AtRest.run_rested (h : AtRest s) (hi : ∀ t, Obeys (is t).bus (run period is s t)) {t : Nat}
    (hquiet : ∀ j < t, (is j).bus.loadEn = false ∧ (is j).bus.wrCcr = false) :
    AtRest (run period is s t) ∧ (run period is s t).spidat = s.spidat ∧
      (run period is s t).spiccr = s.spiccr ∧ emitted periodBit period is s t = [] ∧
      ((∀ j < t, (is j).bus.rdRxbuf = false) → (run period is s t).spiInt = s.spiInt) := by
  induction t with
  | zero => exact ⟨h, rfl, rfl, rfl, fun _ ↦ rfl⟩
  | succ t ih =>
    obtain ⟨hrest, hspidat, hccr, hbits, hint⟩ := ih fun j hj ↦ hquiet j (Nat.lt_succ_of_lt hj)
    obtain ⟨hload, hwr⟩ := hquiet t (Nat.lt_succ_self t)
    have hobey := hi t
    rw [Obeys, hrest.txFull, if_neg Bool.false_ne_true] at hobey
    have hrests : Rests (is t).bus (run period is s t) := by
      rcases hobey with hrests | hstarts
      · exact hrests
      · exact absurd (hload.symm.trans hstarts.loadEn) Bool.false_ne_true
    obtain ⟨hrest', hspidat', hint', hccr', hbit⟩ := hrest.rested hrests
    refine ⟨hrest', hspidat'.trans hspidat, (hccr' hwr).trans hccr, ?_, ?_⟩
    · rw [emitted, hbits, hbit]
      rfl
    · intro hrd
      exact (hint' (hrd t (Nat.lt_succ_self t))).trans
        (hint fun j hj ↦ hrd j (Nat.lt_succ_of_lt hj))

/-! ## Transfers -/

/-- After `t` periods, `T` of which the transfer took: it has stopped after `n` bit clocks and
`SPIRXBUF` reads as `v`. -/
structure Stopped (n v : Nat) (is : Nat → Period) (s : Top) (T t : Nat) : Prop where
  sregEn : (run period is s t).sregEn = false
  txFull : (run period is s t).txFull = false
  spiInt : (∀ j, T ≤ j → j < t → (is j).bus.rdRxbuf = false) → (run period is s t).spiInt = true
  bitClocks : (emitted periodBit period is s t).length = n
  rxbuf : ∀ b : Bus, b.rdRxbuf = true → ((run period is s t).prdata b).toNat = v

/-- The transfer that the first period starts takes the time until `TX_FULL` is clear, and stays
stopped until `SPIDAT` or the character length is written. -/
def StopsWith (n v : Nat) (is : Nat → Period) (s : Top) : Prop :=
  ∃ T, 0 < T ∧ (∀ t, 0 < t → t < T → (run period is s t).txFull = true) ∧
    ∀ t, T ≤ t →
      (∀ j, T ≤ j → j < t → (is j).bus.loadEn = false ∧ (is j).bus.wrCcr = false) →
      Stopped n v is s T t

/-- The word written comes back. -/
def Transferred (is : Nat → Period) (s : Top) : Prop :=
  StopsWith (s.dlen.toNat + 1) ((is 0).bus.pwdata.toNat % 2 ^ (s.dlen.toNat + 1)) is s

theorem prdata_rxbuf {b : Bus} (h : b.rdRxbuf = true) (s : Top) :
    (s.prdata b).toNat = s.spidat.toNat % 2 ^ (s.dlen.toNat + 1) := by
  have haddr : b.paddr = Addr.spirxbuf := by
    rw [Bus.rdRxbuf, Bool.and_eq_true, beq_iff_eq] at h
    exact h.2
  have hmask : ∀ d < 16, 65535 / 2 ^ (15 - d) = 2 ^ (d + 1) - 1 := by decide
  have hread : s.prdata b = s.spidat &&& (0xFFFF#16 >>> (15 - s.dlen.toNat)) := by
    rw [prdata, haddr]
    rfl
  rw [hread, BitVec.toNat_and, BitVec.toNat_ushiftRight, Nat.shiftRight_eq_div_pow]
  show s.spidat.toNat &&& 65535 / 2 ^ (15 - s.dlen.toNat) = _
  rw [hmask _ s.dlen.isLt, Nat.and_two_pow_sub_one_eq_mod]

/-- What a transfer sends: the register as the first period leaves it. -/
def sends (b : Bus) (s : Top) : BitVec 16 := if s.sdatClk then s.spidat else s.loadValue b

theorem AtRest.stopsWith (h : AtRest s) (hi : ∀ t, Obeys (is t).bus (run period is s t))
    (hstart : (is 0).bus.Starts) (hdlen : s.dlen.toNat ≤ 13) :
    StopsWith (s.dlen.toNat + 1)
      ((sends (is 0).bus s).toNat / 2 ^ (16 - (s.dlen.toNat + 1))) is s := by
  have hbegun := h.begun hstart
  have hrun (t : Nat) : run period is s (1 + t) =
      run period (fun n ↦ is (1 + n)) (s.period (is 0)) t := run_add _ _ _ 1 t
  have hemit (t : Nat) : emitted periodBit period is s (1 + t) =
      emitted periodBit period (fun n ↦ is (1 + n)) (s.period (is 0)) t := by
    rw [emitted_add]
    show ([] ++ (s.periodBit (is 0)).toList) ++ _ = _
    rw [hbegun.periodBit]
    rfl
  obtain ⟨T, -, hfull, hfin, hmoved, hbits⟩ :=
    (hbegun.paced hdlen).run_finished fun t ↦ hrun t ▸ hi (1 + t)
  rw [← hrun] at hfin hmoved
  rw [← hemit] at hbits
  refine ⟨1 + T, by omega, ?_, ?_⟩
  · intro t hpos ht
    obtain ⟨t, rfl⟩ : ∃ n, t = 1 + n := ⟨t - 1, by omega⟩
    rw [hrun]
    exact hfull t (by omega)
  · intro t ht hquiet
    obtain ⟨r, rfl⟩ : ∃ r, t = 1 + T + r := ⟨t - (1 + T), by omega⟩
    have hsplit := run_add period is s (1 + T) r
    have hi' (j : Nat) : Obeys (is (1 + T + j)).bus
        (run period (fun l ↦ is (1 + T + l)) (run period is s (1 + T)) j) := by
      rw [← run_add]
      exact hi _
    obtain ⟨hrest, hspidat, hccr, hnone, hint⟩ := hfin.toAtRest.run_rested hi' (t := r)
      fun j hj ↦ hquiet _ (Nat.le_add_right _ _) (by omega)
    rw [← hsplit] at hrest hspidat hccr hint
    have hd : (run period is s (1 + T + r)).dlen = s.dlen := by
      rw [dlen, dlen, hccr, hmoved.spiccr, hbegun.spiccr]
    refine ⟨hrest.sregEn, hrest.txFull, ?_, ?_, ?_⟩
    · intro hrd
      rw [hint fun j hj ↦ hrd _ (Nat.le_add_right _ _) (by omega)]
      exact hfin.spiInt
    · rw [emitted_add, hnone, List.append_nil, hbits]
    · intro b hb
      rw [prdata_rxbuf hb, hspidat, hd, toNat_mod_of_rotate hmoved.spidat (by omega),
        hbegun.spidat]
      rfl

theorem StopsWith.unique {n v v' : Nat} (h : StopsWith n v is s) (h' : StopsWith n v' is s) :
    v = v' := by
  obtain ⟨T, hpos, hfull, hstop⟩ := h
  obtain ⟨T', hpos', hfull', hstop'⟩ := h'
  have hend := hstop T (le_refl T) fun j h1 h2 ↦ absurd h1 (by omega)
  have hend' := hstop' T' (le_refl T') fun j h1 h2 ↦ absurd h1 (by omega)
  -- both take until `TX_FULL` is clear
  obtain rfl : T = T' := by
    rcases lt_trichotomy T T' with hlt | heq | hlt
    · exact absurd (hend.txFull.symm.trans (hfull' T hpos hlt)) Bool.false_ne_true
    · exact heq
    · exact absurd (hend'.txFull.symm.trans (hfull T' hpos' hlt)) Bool.false_ne_true
  let b : Bus := ⟨true, false, false, Addr.spirxbuf, 0⟩
  exact (hend.rxbuf b rfl).symm.trans (hend'.rxbuf b rfl)

theorem not_stopsWith_of_stuck {n v : Nat} (h : Stuck (s.period (is 0)))
    (hi : ∀ t, Obeys (is t).bus (run period is s t)) : ¬StopsWith n v is s := by
  rintro ⟨T, hpos, -, hstop⟩
  have hend := hstop T (le_refl T) fun j h1 h2 ↦ absurd h1 (by omega)
  obtain ⟨t, rfl⟩ : ∃ t, T = 1 + t := ⟨T - 1, by omega⟩
  have hrun (t : Nat) : run period is s (1 + t) =
      run period (fun n ↦ is (1 + n)) (s.period (is 0)) t := run_add _ _ _ 1 t
  have hfull := (h.run (fun t ↦ hrun t ▸ hi (1 + t)) t).txFull
  rw [← hrun] at hfull
  exact absurd (hend.txFull.symm.trans hfull) Bool.false_ne_true

theorem toNat_loadValue_div (b : Bus) (s : Top) :
    (s.loadValue b).toNat / 2 ^ (16 - (s.dlen.toNat + 1)) =
      b.pwdata.toNat % 2 ^ (s.dlen.toNat + 1) := by
  have hdlen := s.dlen.isLt
  have hnot : (~~~s.dlen).toNat = 16 - (s.dlen.toNat + 1) := by
    rw [BitVec.toNat_not]
    omega
  have hpow : 2 ^ 16 = 2 ^ (s.dlen.toNat + 1) * 2 ^ (16 - (s.dlen.toNat + 1)) := by
    rw [← Nat.pow_add]
    congr 1
    omega
  rw [loadValue, BitVec.toNat_shiftLeft, hnot, Nat.shiftLeft_eq, hpow, Nat.mul_mod_mul_right,
    Nat.mul_div_cancel _ (Nat.two_pow_pos _)]

theorem AtRest.transferred_first_iff (h : AtRest s) (hi : ∀ t, Obeys (is t).bus (run period is s t))
    (hstart : (is 0).bus.Starts) :
    Transferred is s ↔
      s.dlen.toNat ≤ 13 ∧
        (s.sdatClk = true → s.spidat.toNat / 2 ^ (16 - (s.dlen.toNat + 1)) =
          (is 0).bus.pwdata.toNat % 2 ^ (s.dlen.toNat + 1)) := by
  constructor
  · intro htrans
    have hdlen : s.dlen.toNat ≤ 13 := by
      by_contra hlong
      exact not_stopsWith_of_stuck ((h.begun hstart).stuck (by omega)) hi htrans
    refine ⟨hdlen, fun hsdat ↦ ?_⟩
    have hvalue := (h.stopsWith hi hstart hdlen).unique htrans
    rwa [sends, if_pos hsdat] at hvalue
  · rintro ⟨hdlen, hword⟩
    have hvalue : (sends (is 0).bus s).toNat / 2 ^ (16 - (s.dlen.toNat + 1)) =
        (is 0).bus.pwdata.toNat % 2 ^ (s.dlen.toNat + 1) := by
      rw [sends]
      cases hsdat : s.sdatClk with
      | true => exact hword hsdat
      | false => exact toNat_loadValue_div _ _
    rw [Transferred, ← hvalue]
    exact h.stopsWith hi hstart hdlen

/-- In any run of a port that is used as it should be, a transfer returns the word written
exactly when the length is at most 14 and the write finds `sdat_clk` low, or the highest bits
of `SPIDAT` to be the word already. -/
theorem transferred_iff {s : Top} (h : AtRest s) (is : Nat → Period)
    (hi : ∀ t, Obeys (is t).bus (run period is s t)) (t : Nat)
    (hidle : (run period is s t).txFull = false) (hstart : (is t).bus.Starts) :
    Transferred (fun j ↦ is (t + j)) (run period is s t) ↔
      (run period is s t).dlen.toNat ≤ 13 ∧
        ((run period is s t).sdatClk = true →
          (run period is s t).spidat.toNat / 2 ^ (16 - ((run period is s t).dlen.toNat + 1)) =
            (is t).bus.pwdata.toNat % 2 ^ ((run period is s t).dlen.toNat + 1)) := by
  have hrest := ((Sound.atRest h).run hi t).atRest_of_txFull hidle
  refine AtRest.transferred_first_iff hrest (fun j ↦ ?_) hstart
  rw [← run_add]
  exact hi (t + j)

/-- A port that is set up for characters of `dlen + 1` bits at a quarter of `lspclk`. -/
def configured (dlen : BitVec 4) : Top where
  spiccr := 0x9#4 ++ dlen
  spictl := 6
  spibrr := 4
  spitxbuf := 0
  baud := ClockDivider.load false false
  baudRes := true
  postLoaden := false
  spidat := 0
  mosBuf := false
  counter := 0
  sdatClk := false
  sregEn := false
  txFull := false
  spiInt := false
  rxOverrun := false

/-- A write of `SPIDAT`, after which the bus polls `SPIST`. -/
def writeThenPoll (w : BitVec 16) (t : Nat) : Period :=
  if t = 0 then ⟨⟨true, false, true, Addr.spidat, w⟩, ⟨false, false⟩, ⟨false, false⟩⟩
  else ⟨⟨true, false, false, Addr.spist, 0⟩, ⟨false, false⟩, ⟨false, false⟩⟩

theorem atRest_configured (dlen : BitVec 4) : AtRest (configured dlen) := by
  have hccr : (0x9#4 ++ dlen).getLsbD 7 = true ∧ (0x9#4 ++ dlen).getLsbD 4 = true := by
    revert dlen
    decide
  have hctl : (6#8).getLsbD 1 = true ∧ (6#8).getLsbD 2 = true := by decide
  have hdiv : (4#8).extractLsb' 0 7 ≠ 0 := by decide
  exact ⟨⟨⟨⟨hccr.1, hccr.2, hctl.1, hctl.2, hdiv⟩, rfl, rfl⟩, rfl⟩, .inl rfl⟩

theorem obeys_writeThenPoll (dlen : BitVec 4) (w : BitVec 16) (t : Nat) :
    Obeys (writeThenPoll w t).bus (run period (writeThenPoll w) (configured dlen) t) := by
  cases t with
  | zero => exact .inr ⟨⟨rfl, rfl⟩, rfl⟩
  | succ t =>
    rw [Obeys]
    split
    · exact ⟨⟨rfl, rfl⟩, rfl, rfl, rfl, rfl, rfl⟩
    · exact .inl ⟨⟨rfl, rfl⟩, rfl, fun h ↦ absurd h Bool.false_ne_true,
        fun h ↦ absurd h Bool.false_ne_true, fun h ↦ absurd h Bool.false_ne_true⟩

/-- The byte `0x59`. -/
theorem transferred_iff_byte : Transferred (fun j ↦ writeThenPoll 0x59 (0 + j)) (configured 7) :=
  (transferred_iff (atRest_configured 7) (writeThenPoll 0x59) (obeys_writeThenPoll 7 0x59) 0 rfl
    ⟨⟨rfl, rfl⟩, rfl⟩).mpr ⟨by decide, fun h ↦ absurd h Bool.false_ne_true⟩

/-- A character of fifteen bits is never through. -/
theorem not_transferred_fifteen : ¬Transferred (writeThenPoll 0x1234) (configured 14) := by
  have hbegun := (atRest_configured 14).begun (i := writeThenPoll 0x1234 0) ⟨⟨rfl, rfl⟩, rfl⟩
  exact not_stopsWith_of_stuck (hbegun.stuck (by decide)) (obeys_writeThenPoll 14 0x1234)

end Top

end RtlCores.Spi
