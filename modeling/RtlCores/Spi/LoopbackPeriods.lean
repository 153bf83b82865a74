import RtlCores.Spi.LoopbackHalves

/-!
# A master in loopback, period by period

A period of a transfer performs at most one bit clock and brings its end closer.  The clock
comes from the divider, which counts to the divisor, or is `lspclk` itself for a divisor of 1.
-/

namespace RtlCores.Spi

open RtlCores.Lib RtlCores.Modules

namespace Top

variable {i : Period} {s s' : Top} {k : Nat}

/-! ## The bit clock -/

theorem LoopMaster.div_cases (h : LoopMaster s) : s.div.toNat = 1 ∨ 2 ≤ s.div.toNat := by
  have hne : s.div.toNat ≠ 0 := fun hzero ↦ h.div (BitVec.eq_of_toNat_eq hzero)
  omega

theorem clkLevel_of_two_le (h : 2 ≤ s.div.toNat) (b : Bool) :
    s.clkLevel b = (s.baud.baudOut ^^ s.spiccr.getLsbD 6) := by
  rw [clkLevel, ClockDivider.clkOut_of_two_le h]

theorem clkLevel_of_eq_one (h : s.div.toNat = 1) (b : Bool) :
    s.clkLevel b = (b ^^ s.spiccr.getLsbD 6) := by
  rw [clkLevel, ClockDivider.clkOut_of_eq_one h]

/-- Loading the divider never raises the clock. -/
theorem LoopMaster.clkLevel_of_load (h : LoopMaster s) {b : Bool} (fixedPhase : Bool)
    (hlow : s.clkLevel b = false) (hpol : s'.spiccr.getLsbD 6 = s.spiccr.getLsbD 6)
    (hdiv : s'.div = s.div)
    (hbaud : s'.baud = s.baud ∨ s'.baud = ClockDivider.load fixedPhase (s.spiccr.getLsbD 6)) :
    s'.clkLevel b = false := by
  rcases hbaud with hbaud | hbaud
  · rw [← hlow, clkLevel, clkLevel, hbaud, hpol, hdiv]
  · rcases h.div_cases with hone | htwo
    · rw [← hlow, clkLevel_of_eq_one hone, clkLevel_of_eq_one (hdiv ▸ hone), hpol]
    · rw [clkLevel_of_two_le (hdiv ▸ htwo), hbaud, hpol]
      exact Bool.xor_self _

/-! ## The posedge that ends a period -/

theorem period_eq (i : Period) (s : Top) :
    s.period i = ((s.half i.first).half i.second).posedge i.bus := rfl

theorem posedge_moved {b : Bus} (hb : b.Selected) (hccr : b.wrCcr = false)
    (hctl : b.wrCtl = false) (hbrr : b.wrBrr = false) : Moved 0 s (s.posedge b) := by
  refine ⟨(List.rotate_zero _).symm, ?_, ?_, ?_⟩
  · rw [posedge_spiccr hb, hccr, if_neg Bool.false_ne_true]
  · rw [posedge_spictl hb, hctl, if_neg Bool.false_ne_true]
  · rw [posedge_spibrr hb, hbrr, if_neg Bool.false_ne_true]

theorem posedge_postLoaden {i : Bus} (h : LoopMaster s) (hi : i.Selected) :
    (s.posedge i).postLoaden = i.loadEn := by
  show (if s.spiRes i || !i.loadEn then false else if i.loadEn then true else s.postLoaden) = _
  rw [h.spiRes hi]
  cases i.loadEn with
  | true => rfl
  | false => rfl

/-- While its reset is high the divider is loaded, which leaves the clock low. -/
theorem LoopMaster.posedge_low {i : Bus} (h : LoopMaster s) (hi : i.Selected)
    (hres : s.baudRes = true) {b : Bool} (hlow : s.clkLevel b = false)
    (hpol : (s.posedge i).spiccr.getLsbD 6 = s.spiccr.getLsbD 6)
    (hdiv : (s.posedge i).div = s.div) : (s.posedge i).clkLevel b = false := by
  refine h.clkLevel_of_load s.phase hlow hpol hdiv (.inr ?_)
  show (if s.baudRes then ClockDivider.load s.phase (s.polarity i) else s.baud.clock s.div) = _
  rw [hres, if_pos rfl, h.polarity hi]

theorem Moved.loopMaster {j : Nat} (h : Moved j s s') (hs : LoopMaster s) : LoopMaster s' :=
  hs.congr h.spiccr h.spictl h.spibrr

theorem Moved.dlen {j : Nat} (h : Moved j s s') : s'.dlen = s.dlen := by
  rw [Top.dlen, Top.dlen, h.spiccr]

theorem Moved.div {j : Nat} (h : Moved j s s') : s'.div = s.div := by
  rw [Top.div, Top.div, h.spibrr]

/-! ## One period of a transfer -/

/-- A period after which `k` bit clocks are left and in which `j` are performed. -/
structure PeriodGoes (k j : Nat) (i : Period) (s : Top) : Prop where
  running : Running k (s.period i)
  moved : Moved j s (s.period i)
  periodBit : (s.periodBit i).toList.length = j
  sdatClk : (s.period i).sdatClk = s.clkLevel false
  baud : (s.period i).baud = s.baud.clock s.div
  postLoaden : (s.period i).postLoaden = false

theorem length_or {α : Type*} {a b : Option α} {j l : Nat} (ha : a.toList.length = j)
    (hb : b.toList.length = l) (hjl : j + l ≤ 1) : (a.or b).toList.length = j + l := by
  cases a with
  | none => rw [← ha, ← hb, Option.none_or, Option.toList_none, List.length_nil, Nat.zero_add]
  | some v =>
    have hj : j = 1 := ha.symm
    rw [Option.some_or, show l = 0 by omega, hj]
    rfl

theorem Goes.period {k' j l : Nat} (h : Goes k' j i.first s)
    (h' : Goes k l i.second (s.half i.first)) (hjl : j + l ≤ 1) (hi : i.bus.Waits) :
    PeriodGoes k (j + l) i s := by
  have hedge := posedge_moved (s := (s.half i.first).half i.second) hi.toSelected hi.wrCcr hi.wrCtl
    hi.wrBrr
  have hmoved := h.moved.trans h'.moved
  have hpost := (posedge_postLoaden h'.settled.toLoopMaster hi.toSelected).trans hi.loadEn
  refine ⟨⟨hedge.loopMaster h'.settled.toLoopMaster, .inl h'.settled.sregEn, h'.settled.txFull, ?_,
    ?_, h'.settled.full⟩, hmoved.trans hedge, length_or h.bitClock h'.bitClock hjl, ?_, ?_, hpost⟩
  · rw [period_eq, hedge.dlen]
    exact h'.settled.counter
  · rw [period_eq, hedge.dlen]
    exact h'.settled.dlen
  · exact h'.sdatClk.trans (h.moved.clkLevel h.baud _)
  · show (if ((s.half i.first).half i.second).baudRes then _
      else ((s.half i.first).half i.second).baud.clock _) = _
    rw [h'.settled.baudRes, if_neg Bool.false_ne_true, h'.baud, h.baud]
    exact congrArg (ClockDivider.clock · s.baud) hmoved.div

/-- A transfer at the end of a period: the last bit is in and the register at rest. -/
structure Finished (s : Top) : Prop extends AtRest s where
  spiInt : s.spiInt = true

/-- The half after the end of a transfer. -/
theorem Ends.finished (h : Ends i.first s) (hi : i.bus.Waits) :
    Finished (s.period i) ∧ Moved 0 s (s.period i) ∧ s.periodBit i = none := by
  have hidle := h.still.half (x := i.second) hi.toSelected hi.loadEn
  have hedge := posedge_moved (s := (s.half i.first).half i.second) hi.toSelected hi.wrCcr hi.wrCtl
    hi.wrBrr
  have hmoved := h.moved.trans (hidle.moved.trans hedge)
  have hmaster := hidle.still.toLoopMaster
  have hpost := (posedge_postLoaden hmaster hi.toSelected).trans hi.loadEn
  refine ⟨⟨⟨⟨⟨hedge.loopMaster hmaster, hidle.still.sregEn, hpost⟩, hidle.still.txFull⟩, ?_⟩, ?_⟩,
    hmoved, ?_⟩
  · cases hsdat : ((s.half i.first).half i.second).sdatClk with
    | true =>
      left
      show ((s.half i.first).half i.second).counter = 0
      rw [hidle.counter, hsdat, h.sdatClk, h.countLimit]
      rfl
    | false =>
      right
      exact ⟨hsdat, hmaster.posedge_low hi.toSelected hidle.baudRes
        (hidle.sdatClk.symm.trans hsdat) (congrArg (BitVec.getLsbD · 6) hedge.spiccr) hedge.div⟩
  · exact (hidle.spiInt hi.rdRxbuf).trans h.spiInt
  · rw [periodBit, h.bitClock]
    exact hidle.bitClock

/-- A transfer whose last clock falls in the second half of a period. -/
theorem Goes.finished {j : Nat} (h : Goes 0 j i.first s) (h' : Ends i.second (s.half i.first))
    (hi : i.bus.Waits) :
    Finished (s.period i) ∧ Moved j s (s.period i) ∧ (s.periodBit i).toList.length = j := by
  have hedge := posedge_moved (s := (s.half i.first).half i.second) hi.toSelected hi.wrCcr hi.wrCtl
    hi.wrBrr
  have hmoved := h.moved.trans (h'.moved.trans hedge)
  have hmaster := h'.still.toLoopMaster
  have hpost := (posedge_postLoaden hmaster hi.toSelected).trans hi.loadEn
  have hlow : ((s.half i.first).half i.second).clkLevel false = false := by
    have hfall : (s.half i.first).clkLevel false = false := h'.level
    exact h.settled.toLoopMaster.clkLevel_of_load _ hfall
      (congrArg (BitVec.getLsbD · 6) h'.moved.spiccr) h'.moved.div (.inr h'.baud)
  refine ⟨⟨⟨⟨⟨hedge.loopMaster hmaster, h'.still.sregEn, hpost⟩, h'.still.txFull⟩, .inr ?_⟩,
    h'.spiInt⟩, hmoved, ?_⟩
  · exact ⟨h'.sdatClk, hmaster.posedge_low hi.toSelected h'.baudRes hlow
      (congrArg (BitVec.getLsbD · 6) hedge.spiccr) hedge.div⟩
  · have hnone : Top.bitClock i.second (tick i.first s) = none := h'.bitClock
    rw [Top.periodBit, hnone, Option.or_none]
    exact h.bitClock

/-! ## Progress -/

/-- A transfer at the start of a period.  With a divisor of at least 2 the divider counts to
its half while the clock is low and on to the divisor while it is high. -/
structure Paced (k : Nat) (s : Top) : Prop extends Running k s where
  post : s.postLoaden = true → s.sdatClk = true ∧ 0 < k
  low : 2 ≤ s.div.toNat → s.clkLevel true = false → s.baud.counter.toNat ≤ s.div.toNat / 2
  high : 2 ≤ s.div.toNat → s.clkLevel true = true →
    s.div.toNat / 2 < s.baud.counter.toNat ∧ s.baud.counter.toNat ≤ s.div.toNat

/-- Grows with the number of periods that a transfer still takes. -/
def ticksLeft (k : Nat) (s : Top) : Nat :=
  if 2 ≤ s.div.toNat then
    (if s.clkLevel true && s.sdatClk then k + 1 else k) * (s.div.toNat + 1) +
      (s.div.toNat - s.baud.counter.toNat)
  else 2 * k + s.sdatClk.toNat

/-- What is left of a transfer after one of its periods. -/
structure Advances (k : Nat) (i : Period) (s : Top) (j : Nat) : Prop where
  le : j ≤ k
  moved : Moved j s (s.period i)
  periodBit : (s.periodBit i).toList.length = j
  rest : Paced (k - j) (s.period i) ∧ ticksLeft (k - j) (s.period i) < ticksLeft k s ∨
    k = j ∧ Finished (s.period i)

theorem Paced.postLoaden (h : Paced k s) (hlow : s.sdatClk = false ∨ k = 0) :
    s.postLoaden = false := by
  by_contra hpost
  obtain ⟨hhigh, hpos⟩ := h.post (by simpa using hpost)
  rcases hlow with hlow | rfl
  · exact Bool.false_ne_true (hlow.symm.trans hhigh)
  · exact absurd hpos (lt_irrefl 0)

/-- With the last bit shifted, a period that starts with the clock low ends the transfer. -/
theorem Paced.advances_of_stop (h : Paced 0 s) (hi : i.bus.Waits)
    (hlevel : s.clkLevel true = false) : ∃ j, Advances 0 i s j := by
  have hstop := h.toRunning.half_stop (x := i.first) hi (h.postLoaden (.inr rfl)) hlevel
  obtain ⟨hfin, hmoved, hbit⟩ := hstop.finished hi
  exact ⟨0, le_refl 0, hmoved, by rw [hbit]; rfl, .inr ⟨rfl, hfin⟩⟩

/-- While `sdat_clk` is low, a bit is left to be shifted. -/
theorem Paced.exists_succ (h : Paced k s) (hsdat : s.sdatClk = false) : ∃ l, k = l + 1 := by
  refine Nat.exists_eq_succ_of_ne_zero fun hk ↦ ?_
  exact Bool.false_ne_true (hsdat.symm.trans (h.full hk))

section Divided

variable {j : Nat}

theorem PeriodGoes.clkLevel (h : PeriodGoes k j i s) (hdiv : 2 ≤ s.div.toNat) (b : Bool) :
    (s.period i).clkLevel b =
      (decide (s.baud.counter.toNat = s.div.toNat ∨ s.baud.counter.toNat = s.div.toNat / 2) ^^
        s.clkLevel b) := by
  rw [clkLevel_of_two_le (h.moved.div ▸ hdiv), clkLevel_of_two_le hdiv, h.baud,
    ClockDivider.clock_baudOut, h.moved.spiccr, Bool.xor_assoc]

theorem PeriodGoes.counter (h : PeriodGoes k j i s) (hdiv : 2 ≤ s.div.toNat)
    (hle : s.baud.counter.toNat ≤ s.div.toNat) :
    (s.period i).baud.counter.toNat =
      if s.baud.counter.toNat = s.div.toNat then 1 else s.baud.counter.toNat + 1 := by
  rw [h.baud, ClockDivider.toNat_clock_counter hdiv hle]

theorem PeriodGoes.sdatClk_eq (h : PeriodGoes k j i s) (hdiv : 2 ≤ s.div.toNat) :
    (s.period i).sdatClk = s.clkLevel true := by
  rw [h.sdatClk, clkLevel_of_two_le hdiv, clkLevel_of_two_le hdiv]

theorem ticksLeft_of_two_le (h : 2 ≤ s.div.toNat) :
    ticksLeft k s = (if s.clkLevel true && s.sdatClk then k + 1 else k) * (s.div.toNat + 1) +
      (s.div.toNat - s.baud.counter.toNat) := if_pos h

/-- A period that starts with the clock low. -/
theorem PeriodGoes.paced_of_low {l : Nat} (h : PeriodGoes k j i s) (hdiv : 2 ≤ s.div.toNat)
    (hlevel : s.clkLevel true = false) (hlow : s.baud.counter.toNat ≤ s.div.toNat / 2)
    (hl : k ≤ l) : Paced k (s.period i) ∧ ticksLeft k (s.period i) < ticksLeft l s := by
  have hcounter := h.counter hdiv (by omega)
  have hlevel' := h.clkLevel hdiv true
  have hsdat : (s.period i).sdatClk = false := (h.sdatClk_eq hdiv).trans hlevel
  have hdiv' := h.moved.div
  have hpost (h' : (s.period i).postLoaden = true) : False :=
    Bool.false_ne_true (h.postLoaden.symm.trans h')
  have hticks : ticksLeft k (s.period i) < ticksLeft l s := by
    rw [ticksLeft_of_two_le (hdiv' ▸ hdiv), ticksLeft_of_two_le hdiv, hsdat, hlevel, hdiv',
      Bool.and_false, Bool.false_and, if_neg Bool.false_ne_true, if_neg Bool.false_ne_true,
      hcounter]
    have hmul := Nat.mul_le_mul_right (s.div.toNat + 1) hl
    split <;> omega
  refine ⟨⟨h.running, fun h' ↦ (hpost h').elim, ?_, ?_⟩, hticks⟩
  all_goals rw [hlevel', hlevel, hdiv', hcounter, Bool.xor_false]
  · intro _ hstay
    have := of_decide_eq_false hstay
    split <;> omega
  · intro _ htoggle
    have := of_decide_eq_true htoggle
    split <;> omega

/-- A period that starts with the clock high. -/
theorem PeriodGoes.paced_of_high {l : Nat} (h : PeriodGoes k j i s) (hdiv : 2 ≤ s.div.toNat)
    (hlevel : s.clkLevel true = true) (hlow : s.div.toNat / 2 < s.baud.counter.toNat)
    (hhigh : s.baud.counter.toNat ≤ s.div.toNat)
    (hl : if s.sdatClk then k ≤ l else k + 1 ≤ l) :
    Paced k (s.period i) ∧ ticksLeft k (s.period i) < ticksLeft l s := by
  have hcounter := h.counter hdiv hhigh
  have hlevel' := h.clkLevel hdiv true
  have hsdat : (s.period i).sdatClk = true := (h.sdatClk_eq hdiv).trans hlevel
  have hdiv' := h.moved.div
  have hpost (h' : (s.period i).postLoaden = true) : False :=
    Bool.false_ne_true (h.postLoaden.symm.trans h')
  have hticks : ticksLeft k (s.period i) < ticksLeft l s := by
    have hl' : k + 1 ≤ if s.clkLevel true && s.sdatClk then l + 1 else l := by
      rw [hlevel, Bool.true_and]
      cases hs : s.sdatClk with
      | true => simpa [hs] using hl
      | false => simpa [hs] using hl
    have hmul := Nat.mul_le_mul_right (s.div.toNat + 1) hl'
    rw [ticksLeft_of_two_le (hdiv' ▸ hdiv), ticksLeft_of_two_le hdiv, hsdat, hdiv', hlevel',
      hlevel, hcounter, Bool.and_true]
    rw [hlevel] at hmul
    by_cases hfull : s.baud.counter.toNat = s.div.toNat
    · rw [decide_eq_true (.inl hfull), if_neg (by simp), if_pos hfull]
      rw [Nat.add_mul] at hmul
      omega
    · rw [decide_eq_false (by omega), if_pos (by simp), if_neg hfull]
      omega
  refine ⟨⟨h.running, fun h' ↦ (hpost h').elim, ?_, ?_⟩, hticks⟩
  all_goals rw [hlevel', hlevel, hdiv', hcounter, Bool.xor_true]
  · intro _ hfall
    have htoggle := of_decide_eq_true (by simpa only [Bool.not_eq_false'] using hfall)
    split <;> omega
  · intro _ hstay
    have hnot := of_decide_eq_false (by simpa only [Bool.not_eq_true'] using hstay)
    split <;> omega

theorem Paced.advances_of_two_le (h : Paced k s) (hdiv : 2 ≤ s.div.toNat) (hi : i.bus.Waits) :
    ∃ j, Advances k i s j := by
  have hlev (b : Bool) : s.clkLevel b = s.clkLevel true := by
    rw [clkLevel_of_two_le hdiv, clkLevel_of_two_le hdiv]
  cases hlevel : s.clkLevel true with
  | false =>
    rcases Nat.eq_zero_or_pos k with rfl | hpos
    · exact h.advances_of_stop hi hlevel
    · have h1 := h.toRunning.half_keep (x := i.first) hi (.inr ⟨hlevel, hpos⟩)
      have h2 := h1.settled.toRunning.half_keep (x := i.second) hi
        (.inr ⟨(h1.moved.clkLevel h1.baud _).trans ((hlev false).trans hlevel), hpos⟩)
      have hgo := h1.period h2 (by decide) hi
      exact ⟨0, Nat.zero_le k, hgo.moved, hgo.periodBit,
        .inl (hgo.paced_of_low hdiv hlevel (h.low hdiv hlevel) (le_refl k))⟩
  | true =>
    obtain ⟨hhalf, hfull⟩ := h.high hdiv hlevel
    cases hsdat : s.sdatClk with
    | true =>
      have h1 := h.toRunning.half_keep (x := i.first) hi (.inl (hlevel.trans hsdat.symm))
      have h2 := h1.settled.toRunning.half_keep (x := i.second) hi
        (.inl ((h1.moved.clkLevel h1.baud _).trans ((hlev false).trans h1.sdatClk.symm)))
      have hgo := h1.period h2 (by decide) hi
      exact ⟨0, Nat.zero_le k, hgo.moved, hgo.periodBit,
        .inl (hgo.paced_of_high hdiv hlevel hhalf hfull (by rw [hsdat]; exact le_refl k))⟩
    | false =>
      obtain ⟨k, rfl⟩ := h.exists_succ hsdat
      have h1 := h.toRunning.half_rise (x := i.first) hi hlevel hsdat
      have h2 := h1.settled.toRunning.half_keep (x := i.second) hi
        (.inl ((h1.moved.clkLevel h1.baud _).trans ((hlev false).trans h1.sdatClk.symm)))
      have hgo := h1.period h2 (by decide) hi
      exact ⟨1, Nat.le_add_left 1 k, hgo.moved, hgo.periodBit,
        .inl (hgo.paced_of_high hdiv hlevel hhalf hfull (by rw [hsdat]; exact le_refl (k + 1)))⟩

end Divided

/-! ### A divisor of 1 -/

theorem ticksLeft_of_eq_one (h : s.div.toNat = 1) : ticksLeft k s = 2 * k + s.sdatClk.toNat :=
  if_neg (by omega)

theorem PeriodGoes.paced_of_eq_one {j l : Nat} (h : PeriodGoes k j i s) (hdiv : s.div.toNat = 1)
    (hl : 2 * k + (s.clkLevel false).toNat < 2 * l + s.sdatClk.toNat) :
    Paced k (s.period i) ∧ ticksLeft k (s.period i) < ticksLeft l s := by
  have hdiv' : (s.period i).div.toNat = 1 := h.moved.div ▸ hdiv
  refine ⟨⟨h.running, fun h' ↦ ?_, fun h' ↦ ?_, fun h' ↦ ?_⟩, ?_⟩
  · exact absurd (h.postLoaden.symm.trans h') Bool.false_ne_true
  · omega
  · omega
  · rw [ticksLeft_of_eq_one hdiv', ticksLeft_of_eq_one hdiv, h.sdatClk]
    exact hl

/-- After a first half with the clock high the second one ends the transfer or goes on. -/
theorem Goes.advances_of_fall {l j : Nat} (hdiv : s.div.toNat = 1)
    (hi : i.bus.Waits) (hgo : Goes l j i.first s) (hk : k = l + j) (hj : j ≤ 1)
    (hlevel : s.clkLevel false = false) (hpost : l = 0 → s.postLoaden = false)
    (hticks : 2 * l < 2 * k + s.sdatClk.toNat) : ∃ j, Advances k i s j := by
  have hlevel' : (s.half i.first).clkLevel false = false :=
    (hgo.moved.clkLevel hgo.baud _).trans hlevel
  have hsub : k - j = l := by omega
  rcases Nat.eq_zero_or_pos l with rfl | hpos
  · have hstop := hgo.settled.toRunning.half_stop (x := i.second) hi
      (hgo.postLoaden.trans (hpost rfl)) hlevel'
    obtain ⟨hfin, hmoved, hbit⟩ := hgo.finished hstop hi
    exact ⟨j, by omega, hmoved, hbit, .inr ⟨by omega, hfin⟩⟩
  · have h2 := hgo.settled.toRunning.half_keep (x := i.second) hi (.inr ⟨hlevel', hpos⟩)
    have hgo' := hgo.period h2 (by omega) hi
    refine ⟨j, by omega, hgo'.moved, hgo'.periodBit, .inl ?_⟩
    rw [hsub]
    refine hgo'.paced_of_eq_one hdiv ?_
    rw [hlevel]
    exact hticks

theorem Paced.advances_of_eq_one (h : Paced k s) (hdiv : s.div.toNat = 1) (hi : i.bus.Waits) :
    ∃ j, Advances k i s j := by
  have hlev (b : Bool) := clkLevel_of_eq_one hdiv b
  cases hpol : s.spiccr.getLsbD 6 with
  | false =>
    have hup : s.clkLevel true = true := by rw [hlev, hpol]; rfl
    have hdown : s.clkLevel false = false := by rw [hlev, hpol]; rfl
    cases hsdat : s.sdatClk with
    | true =>
      have h1 := h.toRunning.half_keep (x := i.first) hi (.inl (hup.trans hsdat.symm))
      refine Goes.advances_of_fall hdiv hi h1 rfl (by decide) hdown
        (fun hk ↦ h.postLoaden (.inr hk)) ?_
      rw [hsdat]
      exact Nat.lt_succ_self _
    | false =>
      obtain ⟨l, rfl⟩ := h.exists_succ hsdat
      have h1 := h.toRunning.half_rise (x := i.first) hi hup hsdat
      refine Goes.advances_of_fall hdiv hi h1 rfl (le_refl 1) hdown
        (fun _ ↦ h.postLoaden (.inl hsdat)) ?_
      omega
  | true =>
    have hdown : s.clkLevel true = false := by rw [hlev, hpol]; rfl
    have hup : s.clkLevel false = true := by rw [hlev, hpol]; rfl
    rcases Nat.eq_zero_or_pos k with rfl | hpos
    · exact h.advances_of_stop hi hdown
    · obtain ⟨l, rfl⟩ := Nat.exists_eq_succ_of_ne_zero hpos.ne'
      have h1 := h.toRunning.half_keep (x := i.first) hi (.inr ⟨hdown, hpos⟩)
      have h2 := h1.settled.toRunning.half_rise (x := i.second) hi
        ((h1.moved.clkLevel h1.baud _).trans hup) (h1.sdatClk.trans hdown)
      have hgo := h1.period h2 (by decide) hi
      refine ⟨1, Nat.le_add_left 1 l, hgo.moved, hgo.periodBit,
        .inl (hgo.paced_of_eq_one hdiv ?_)⟩
      rw [hup]
      show 2 * l + 1 < 2 * (l + 1) + _
      omega

/-- Every period brings the end of a transfer closer. -/
theorem Paced.advances (h : Paced k s) (hi : i.bus.Waits) : ∃ j, Advances k i s j := by
  rcases h.div_cases with hone | htwo
  · exact h.advances_of_eq_one hone hi
  · exact h.advances_of_two_le htwo hi

end Top

end RtlCores.Spi
