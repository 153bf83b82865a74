import RtlCores.Lib.Clocked
import RtlCores.Lib.WordCounter
import RtlCores.Spi.Top

/-!
# Slave framing

A slave counts the bit clocks of its master.  At the end of a word the counter stands at the
limit, and the first bit clock of the next word clears it instead of counting, unless a write of
`SPIDAT` has done so before: without one the count is one behind from the second word on.
`SPI_INT` follows the end of the word as a level, which lasts until the next bit clock or write.
-/

namespace RtlCores.Spi

open RtlCores.Lib RtlCores.Modules

/-- The bus leaves the set-up of the port alone; it may write `SPIDAT` at any time. -/
structure Bus.Listens (i : Bus) : Prop extends Selected i where
  wrCcr : i.wrCcr = false
  wrCtl : i.wrCtl = false

namespace Top

/-- An enabled slave with characters of at most 14 bits. -/
structure Slave (s : Top) : Prop where
  swRes : s.spiccr.getLsbD 7 = true
  spiEn : s.spictl.getLsbD 1 = true
  master : s.spictl.getLsbD 2 = false
  dlen : s.dlen.toNat ≤ 13

variable {i : Bus} {p : Pins} {lspclk : Bool} {x : Half} {s s' : Top}

theorem Slave.congr (h : Slave s) (hccr : s'.spiccr = s.spiccr) (hctl : s'.spictl = s.spictl) :
    Slave s' := by
  obtain ⟨h1, h2, h3, h4⟩ := h
  refine ⟨hccr ▸ h1, hctl ▸ h2, hctl ▸ h3, ?_⟩
  rw [Top.dlen, hccr]
  exact h4

theorem Slave.countLimit_eq (h : Slave s) :
    s.countLimit = decide (s.counter.toNat = s.dlen.toNat + 1) := by
  have hdlen := h.dlen
  have hcounter := s.counter.isLt
  rw [Bool.eq_iff_iff, countLimit_iff, decide_eq_true_iff]
  omega

section

variable (h : Slave s) (hi : i.Listens)

include h hi

theorem Slave.spiRes : s.spiRes i = false := spiRes_eq_false hi.resN h.swRes

theorem Slave.dataEnd : s.dataEnd i = s.countLimit := dataEnd_of_enabled hi.ssN h.spiEn

theorem Slave.sregEnNow : s.sregEnNow i = true := by
  rw [Top.sregEnNow, h.spiRes hi, Top.master, h.master, Top.spiEn, hi.ssN, h.spiEn]
  rfl

/-- An enabled slave keeps its shift register on, and `SPI_INT` rises with the end of a word
unless `SPIRXBUF` is read. -/
theorem Slave.settle : SameRegs s (s.settle i) ∧ (s.settle i).sregEn = true ∧
    (s.settle i).spiInt = (!i.rdRxbuf && (s.spiInt || s.countLimit)) := by
  have hsw := h.spiRes hi
  refine ⟨settle_sameRegs hi.resN hsw, (settle_sregEn hi.resN hsw).trans (h.sregEnNow hi), ?_⟩
  rw [settle_spiInt hi.resN hsw, h.dataEnd hi, h.sregEnNow hi]
  cases i.rdRxbuf with
  | true => rfl
  | false =>
    cases s.spiInt with
    | true => simp
    | false => simp

theorem Slave.sdatEdge_counter (hen : s.sregEn = true) :
    (s.sdatEdge i p).counter = if s.countLimit || i.loadEn then 0 else s.counter + 1 := by
  rw [Top.sdatEdge_counter (h.spiRes hi), h.dataEnd hi, if_pos hen]

/-- An edge of `sdat_clk` changes nothing else that the framing depends on. -/
theorem Slave.follow (p : Pins) (lspclk : Bool) (hen : s.sregEn = true) :
    (s.follow i p lspclk).spiccr = s.spiccr ∧ (s.follow i p lspclk).spictl = s.spictl ∧
      (s.follow i p lspclk).spiInt = s.spiInt ∧
      (s.follow i p lspclk).counter =
        if s.sdatNow i p lspclk && !s.sdatClk then
          if s.countLimit || i.loadEn then 0 else s.counter + 1
        else s.counter := by
  rw [Top.follow]
  cases s.sdatNow i p lspclk && !s.sdatClk with
  | false => exact ⟨rfl, rfl, rfl, rfl⟩
  | true => exact ⟨rfl, rfl, rfl, h.sdatEdge_counter (p := p) hi hen⟩

/-- A slave shifts on the edge of `spiclk` on which its master does not. -/
theorem Slave.sdatNow :
    s.sdatNow i p lspclk = (i.loadEn || p.spiclk == s.spiccr.getLsbD 6) := by
  have hlocal : s.localClk i p lspclk = (p.spiclk == s.spiccr.getLsbD 6) := by
    rw [localClk, spiclk, polarity, h.spiRes hi, Top.master, h.master]
    cases s.spiccr.getLsbD 6 with
    | false => simp
    | true => simp
  rw [Top.sdatNow, hlocal]
  cases i.loadEn with
  | false => rfl
  | true => rfl

end

/-- The posedge that ends the second half of a period changes nothing that the framing depends
on. -/
theorem tick_of_listens (hi : x.bus.Listens) :
    (s.tick x).spiccr = (s.half x).spiccr ∧ (s.tick x).spictl = (s.half x).spictl ∧
      (s.tick x).counter = (s.half x).counter ∧ (s.tick x).spiInt = (s.half x).spiInt ∧
      (s.tick x).sdatClk = (s.half x).sdatClk := by
  rw [tick]
  cases x.lspclk with
  | true => exact ⟨rfl, rfl, rfl, rfl, rfl⟩
  | false =>
    refine ⟨?_, ?_, rfl, rfl, rfl⟩
    · exact (posedge_spiccr hi.toSelected).trans (if_neg (by simp [hi.wrCcr]))
    · exact (posedge_spictl hi.toSelected).trans (if_neg (by simp [hi.wrCtl]))

/-! ## Half a period -/

/-- A write to `SPIDAT` raises `sdat_clk`, which loads the register and clears the counter. -/
def loadEdge (x : Half) (s : Top) : Bool := x.bus.loadEn && !s.sdatClk

/-- What half a period does to a slave: a write clears the counter, and a bit clock counts or
clears the counter at its limit. -/
structure Counts (x : Half) (s : Top) : Prop where
  slave : Slave (s.tick x)
  spiccr : (s.tick x).spiccr = s.spiccr
  sdatClk : (s.tick x).sdatClk = (x.bus.loadEn || x.pins.spiclk == s.spiccr.getLsbD 6)
  bitClock : (s.bitClock x).isSome =
    (!x.bus.loadEn && x.pins.spiclk == s.spiccr.getLsbD 6 && !s.sdatClk)
  counter : (s.tick x).counter =
    if s.loadEdge x then 0
    else if (s.bitClock x).isSome then if s.countLimit then 0 else s.counter + 1
    else s.counter
  spiInt : (s.tick x).spiInt =
    (!x.bus.rdRxbuf && (s.spiInt || s.countLimit || (s.tick x).countLimit))

theorem Slave.counts (h : Slave s) (hi : x.bus.Listens) : Counts x s := by
  obtain ⟨hregs, hen, hint⟩ := h.settle hi
  have hu : Slave (s.settle x.bus) := h.congr hregs.spiccr hregs.spictl
  obtain ⟨hccr, hctl, hvint, hcounter⟩ := hu.follow hi x.pins x.lspclk hen
  set u := s.settle x.bus with hudef
  have hnow : u.sdatNow x.bus x.pins x.lspclk =
      (x.bus.loadEn || x.pins.spiclk == s.spiccr.getLsbD 6) := by
    rw [hu.sdatNow hi, hregs.spiccr]
  have hbit : (s.bitClock x).isSome =
      (!x.bus.loadEn && x.pins.spiclk == s.spiccr.getLsbD 6 && !s.sdatClk) := by
    rw [Top.bitClock, ← hudef, hen, hnow, hregs.sdatClk, Bool.and_true]
    cases x.bus.loadEn <;> cases x.pins.spiclk == s.spiccr.getLsbD 6 <;> cases s.sdatClk <;> rfl
  have hsdat : (u.follow x.bus x.pins x.lspclk).sdatClk = u.sdatNow x.bus x.pins x.lspclk := rfl
  have hhalf : s.half x = (u.follow x.bus x.pins x.lspclk).settle x.bus := rfl
  rw [hnow, hregs.sdatClk, hregs.countLimit, hregs.counter] at hcounter
  -- what has settled after the edge is what the half leaves
  set v := u.follow x.bus x.pins x.lspclk with hvdef
  obtain ⟨hregs', -, hint'⟩ := (hu.congr hccr hctl).settle hi
  rw [← hhalf] at hregs' hint'
  obtain ⟨htccr, htctl, htcounter, htint, htsdat⟩ := tick_of_listens (s := s) hi
  have hccr' := htccr.trans (hregs'.spiccr.trans (hccr.trans hregs.spiccr))
  have hctl' := htctl.trans (hregs'.spictl.trans (hctl.trans hregs.spictl))
  refine ⟨h.congr hccr' hctl', hccr', ?_, hbit, ?_, ?_⟩
  · exact htsdat.trans (hregs'.sdatClk.trans (hsdat.trans hnow))
  · rw [htcounter, hregs'.counter, hcounter, hbit, loadEdge]
    cases x.bus.loadEn with
    | false =>
      rw [Bool.or_false]
      rfl
    | true =>
      cases s.sdatClk with
      | false => simp
      | true => simp
  · have hlimit : (s.tick x).countLimit = v.countLimit :=
      countLimit_congr (htccr.trans hregs'.spiccr) (htcounter.trans hregs'.counter)
    rw [htint, hint', hvint, hint, hlimit]
    cases x.bus.rdRxbuf with
    | true => rfl
    | false => rfl

/-! ## Runs -/

/-- The halves of a run with a bit clock. -/
def bits (hs : Nat → Half) (s : Top) (t : Nat) : Bool :=
  (bitClock (hs t) (run tick hs s t)).isSome

/-- The halves of a run in which `SPIDAT` is loaded. -/
def loads (hs : Nat → Half) (s : Top) (t : Nat) : Bool := loadEdge (hs t) (run tick hs s t)

/-- The halves of a run in which `SPIRXBUF` is read. -/
def reads (hs : Nat → Half) (t : Nat) : Bool := (hs t).bus.rdRxbuf

/-- `data_end` is up after the last bit clock of each word and never within a word, and `SPI_INT`
rises with that bit clock and at no other time. -/
structure Framed (hs : Nat → Half) (s : Top) : Prop where
  dataEnd : ∀ t, EndsWord (s.dlen.toNat + 1) (bits hs s) t →
    (run tick hs s (t + 1)).dataEnd (hs t).bus = true
  wordEnd : ∀ t, (run tick hs s (t + 1)).dataEnd (hs t).bus = true →
    WordEnd (s.dlen.toNat + 1) (pulses (bits hs s) (t + 1))
  spiInt : ∀ t, Rises (fun r ↦ (run tick hs s r).spiInt) t ↔
    EndsWord (s.dlen.toNat + 1) (bits hs s) t

/-- `SPIDAT` is loaded between any two words and not within one, and `SPIRXBUF` is read after
each word, but not at its end, and such that no read ends between that and the next bit clock or
load. -/
structure Attended (hs : Nat → Half) (s : Top) : Prop where
  loaded : ∀ t, EndsWord (s.dlen.toNat + 1) (bits hs s) t →
    ClearedFor (s.dlen.toNat + 1) (bits hs s) (loads hs s) t
  read : ReadFor (s.dlen.toNat + 1) (bits hs s) (loads hs s) (reads hs)

section

variable {hs : Nat → Half} (h : Slave s) (hi : ∀ t, (hs t).bus.Listens)

include h hi

theorem Slave.run (t : Nat) :
    Slave (run tick hs s t) ∧ (Lib.run tick hs s t).spiccr = s.spiccr := by
  induction t with
  | zero => exact ⟨h, rfl⟩
  | succ t ih =>
    have hcount := ih.1.counts (hi t)
    exact ⟨hcount.slave, hcount.spiccr.trans ih.2⟩

theorem Slave.run_dlen (t : Nat) : (Lib.run tick hs s t).dlen = s.dlen := by
  rw [Top.dlen, Top.dlen, (h.run hi t).2]

theorem Slave.countLimit_run (t : Nat) : (Lib.run tick hs s t).countLimit =
    decide ((Lib.run tick hs s t).counter.toNat = s.dlen.toNat + 1) := by
  rw [(h.run hi t).1.countLimit_eq, h.run_dlen hi]

theorem Slave.dataEnd_run (t : Nat) : (Lib.run tick hs s (t + 1)).dataEnd (hs t).bus = true ↔
    (Lib.run tick hs s (t + 1)).counter.toNat = s.dlen.toNat + 1 := by
  rw [(h.run hi (t + 1)).1.dataEnd (hi t), h.countLimit_run hi, decide_eq_true_iff]

theorem Slave.counter_run_succ (t : Nat) : (Lib.run tick hs s (t + 1)).counter.toNat =
    if loads hs s t then 0
    else if bits hs s t then
      if (Lib.run tick hs s t).counter.toNat = s.dlen.toNat + 1 then 0
      else ((Lib.run tick hs s t).counter.toNat + 1) % 16
    else (Lib.run tick hs s t).counter.toNat := by
  rw [run_succ, ((h.run hi t).1.counts (hi t)).counter, h.countLimit_run hi]
  simp only [apply_ite BitVec.toNat, decide_eq_true_iff]
  rfl

/-- From 0 the counter does not get past the limit. -/
theorem Slave.counter_run_le (hzero : s.counter = 0) (t : Nat) :
    (Lib.run tick hs s t).counter.toNat ≤ s.dlen.toNat + 1 := by
  have hdlen := h.dlen
  induction t with
  | zero =>
    rw [run_zero, hzero]
    exact Nat.zero_le _
  | succ t ih =>
    rw [h.counter_run_succ hi]
    split_ifs <;> omega

/-- The counter of a slave counts its bit clocks. -/
theorem Slave.wordCounter (hzero : s.counter = 0) :
    WordCounter (s.dlen.toNat + 1) (bits hs s) (loads hs s)
      (fun t ↦ (Lib.run tick hs s t).counter.toNat) where
  pos := Nat.succ_pos _
  zero := by
    rw [run_zero, hzero]
    rfl
  disjoint := by
    intro t hload
    have hload' : (hs t).bus.loadEn = true := (Bool.and_eq_true_iff.mp hload).1
    rw [bits, ((h.run hi t).1.counts (hi t)).bitClock, hload']
    rfl
  step := by
    intro t
    have hdlen := h.dlen
    have hle := h.counter_run_le hi hzero t
    rw [h.counter_run_succ hi, Nat.mod_eq_of_lt (by omega)]

/-- `SPI_INT` is a flag for the end of a word. -/
theorem Slave.readFlag (hlow : s.spiInt = false) :
    ReadFlag (s.dlen.toNat + 1) (reads hs) (fun t ↦ (Lib.run tick hs s t).counter.toNat)
      (fun t ↦ (Lib.run tick hs s t).spiInt) where
  zero := hlow
  step := by
    intro t
    have hnext := h.countLimit_run hi (t + 1)
    rw [run_succ] at hnext
    show (tick (hs t) (Lib.run tick hs s t)).spiInt = _
    rw [((h.run hi t).1.counts (hi t)).spiInt, h.countLimit_run hi, hnext]
    rfl

end

/-- A freshly reset slave frames a run of words exactly when it is attended to. -/
theorem framed_iff {s : Top} (h : Slave s) (hzero : s.counter = 0) (hlow : s.spiInt = false)
    (hs : Nat → Half) (hi : ∀ t, (hs t).bus.Listens) : Framed hs s ↔ Attended hs s := by
  have hcounter := h.wordCounter hi hzero
  have hflag := h.readFlag hi hlow
  constructor
  · intro hf
    have hmarks : Marks (s.dlen.toNat + 1) (bits hs s)
        (fun t ↦ (run tick hs s t).counter.toNat) :=
      ⟨fun t hend ↦ (h.dataEnd_run hi t).mp (hf.dataEnd t hend),
        fun t hn ↦ hf.wordEnd t ((h.dataEnd_run hi t).mpr hn)⟩
    exact ⟨hcounter.marks_iff.mp hmarks, (hflag.rises_iff hcounter hmarks).mp hf.spiInt⟩
  · intro ha
    have hmarks := hcounter.marks_iff.mpr ha.loaded
    exact ⟨fun t hend ↦ (h.dataEnd_run hi t).mpr (hmarks.mark t hend),
      fun t hend ↦ hmarks.wordEnd t ((h.dataEnd_run hi t).mp hend),
      (hflag.rises_iff hcounter hmarks).mpr ha.read⟩

/-- A slave for characters of one bit, out of reset. -/
def freshSlave : Top where
  spiccr := 0x80
  spictl := 2
  spibrr := 0
  spitxbuf := 0
  baud := ClockDivider.load false false
  baudRes := true
  postLoaden := false
  spidat := 0
  mosBuf := false
  counter := 0
  sdatClk := true
  sregEn := true
  txFull := false
  spiInt := false
  rxOverrun := false

/-- Half a period of `lspclk` with this bus. -/
def halfWith (t : Nat) (spiclk pwrite : Bool) (paddr : BitVec 16) : Half :=
  ⟨decide (t % 2 = 0), ⟨true, false, pwrite, paddr, 0⟩, ⟨spiclk, false⟩⟩

theorem slave_freshSlave : Slave freshSlave := ⟨by decide, by decide, by decide, by decide⟩

/-- Two words of one bit, with `SPIDAT` written while `spiclk` is high before the second, and
`SPIRXBUF` read after that. -/
def twoWords (t : Nat) : Half :=
  halfWith t (decide (t = 0 ∨ 2 ≤ t ∧ t ≤ 5)) (decide (t = 3))
    (if t = 3 then Addr.spidat else if t = 4 then Addr.spirxbuf else Addr.spist)

theorem bus_twoWords {t : Nat} (h3 : t ≠ 3) (h4 : t ≠ 4) :
    (twoWords t).bus = ⟨true, false, false, Addr.spist, 0⟩ := by
  show Bus.mk true false (decide (t = 3)) (if t = 3 then _ else if t = 4 then _ else _) 0 = _
  rw [decide_eq_false h3, if_neg h3, if_neg h4]

theorem listens_twoWords (t : Nat) : (twoWords t).bus.Listens := by
  by_cases h3 : t = 3
  · subst h3
    exact ⟨⟨rfl, rfl⟩, rfl, rfl⟩
  · by_cases h4 : t = 4
    · subst h4
      exact ⟨⟨rfl, rfl⟩, rfl, rfl⟩
    · rw [bus_twoWords h3 h4]
      exact ⟨⟨rfl, rfl⟩, rfl, rfl⟩

theorem reads_twoWords {t : Nat} (h : reads twoWords t = true) : t = 4 := by
  by_cases h3 : t = 3
  · subst h3
    exact absurd h Bool.false_ne_true
  · by_contra h4
    rw [reads, bus_twoWords h3 h4] at h
    exact absurd h Bool.false_ne_true

/-- After the second word `sdat_clk` stays high. -/
theorem events_twoWords (t : Nat) : bits twoWords freshSlave t = decide (t = 1 ∨ t = 6) ∧
    loads twoWords freshSlave t = decide (t = 3) := by
  rcases Nat.lt_or_ge t 7 with hlt | hge
  · revert t
    decide +kernel
  · obtain ⟨r, rfl⟩ : ∃ r, t = r + 6 + 1 := ⟨t - 7, by omega⟩
    have hrun := slave_freshSlave.run listens_twoWords
    have hclk : (run tick twoWords freshSlave (r + 6 + 1)).sdatClk = true := by
      have hlow : (twoWords (r + 6)).pins.spiclk = false := by
        show decide (r + 6 = 0 ∨ 2 ≤ r + 6 ∧ r + 6 ≤ 5) = false
        exact decide_eq_false (by omega)
      rw [run_succ, ((hrun (r + 6)).1.counts (listens_twoWords _)).sdatClk, (hrun (r + 6)).2, hlow]
      exact Bool.or_true _
    have hbit := ((hrun (r + 6 + 1)).1.counts (listens_twoWords (r + 6 + 1))).bitClock
    rw [hclk, Bool.not_true, Bool.and_false] at hbit
    refine ⟨hbit.trans (decide_eq_false (by omega)).symm, ?_⟩
    rw [loads, loadEdge, hclk, Bool.not_true, Bool.and_false, decide_eq_false (by omega)]

/-- Both words are framed. -/
theorem framed_iff_loaded : Framed twoWords freshSlave := by
  refine (framed_iff slave_freshSlave rfl rfl twoWords listens_twoWords).mpr ?_
  have hbits : bits twoWords freshSlave = fun t ↦ decide (t = 1 ∨ t = 6) :=
    funext fun t ↦ (events_twoWords t).1
  have hloads : loads twoWords freshSlave = fun t ↦ decide (t = 3) :=
    funext fun t ↦ (events_twoWords t).2
  have hends {t : Nat} (hend : EndsWord (freshSlave.dlen.toNat + 1) (bits twoWords freshSlave) t) :
      t = 1 ∨ t = 6 := by
    have hpulse := hend.pulse
    rwa [hbits, decide_eq_true_iff] at hpulse
  refine ⟨?_, ?_, ?_, ?_⟩
  · intro t hend
    rw [hbits, hloads]
    rcases hends hend with rfl | rfl
    · exact ⟨fun hmore ↦ absurd hmore (by decide), by decide⟩
    · exact ⟨fun _ ↦ ⟨3, by decide⟩, by decide⟩
  · intro t hend
    rw [hbits]
    rcases hends hend with rfl | rfl
    · exact fun hmore ↦ absurd hmore (by decide)
    · exact fun _ ↦ ⟨4, by decide⟩
  · intro t hend
    by_contra hrd
    obtain rfl := reads_twoWords (Bool.eq_true_of_not_eq_false hrd)
    exact absurd (hends hend) (by decide)
  · intro t hended hrd
    obtain rfl := reads_twoWords hrd
    rw [hbits, hloads] at hended
    exact absurd rfl (hended.kept 3 (by decide) (by decide))

/-- With a clock of period one `lspclk`, the end of the second word is missed. -/
theorem not_framed_twoWords :
    ¬Framed (fun t ↦ halfWith t (decide (t % 2 = 0)) false Addr.spist) freshSlave := by
  intro hf
  have hend := hf.dataEnd 3 ⟨by decide +kernel, Nat.one_dvd _⟩
  exact absurd hend (by decide +kernel)

end Top

end RtlCores.Spi
