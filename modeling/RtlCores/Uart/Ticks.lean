import RtlCores.Uart.TopPeriod

/-!
# Ticks of the receiver in one period

Between a posedge of `clk` and the next negedge the baud clock may move more than once, but with
one divisor it rises at most once.  So the receiver ticks at most once there, and the detector of
the first clock of `rx_done` sees each word that the receiver presents, and sees it once.
-/

namespace RtlCores.Uart

open RtlCores.Lib RtlCores.Modules

namespace Rx

/-- `rx_done` lasts one tick. -/
theorem rxDone_of_clock {lcreg : BitVec 8} {d : Bool} {s : Rx}
    (h : (s.clock 16 lcreg d).rxDone 16 = true) : s.rxDone 16 = false := by
  rw [Bool.eq_false_iff]
  intro hdone
  rw [rxDone, Bool.and_eq_true, decide_eq_true_iff, decide_eq_true_iff] at h hdone
  have hinit : s.initCt d = true := by rw [initCt, hdone.1]
  have hcount : (s.clock 16 lcreg d).countTicks = 12 := by
    show s.countNext 16 d = 12
    rw [countNext, if_pos hinit, ctNextval, hinit, hdone.2]
    rfl
  rw [hcount] at h
  exact absurd h.2 (by decide)

/-- A receiver that waits does so as long as the line is high. -/
theorem idle_of_clock {ticksNum : Nat} {lcreg : BitVec 8} {s : Rx} (h : s.rxFsm = .idle) :
    (s.clock ticksNum lcreg true).rxFsm = .idle := by
  show (if s.firstRise ticksNum true then s.fsmCase lcreg true s.nextRxFsm else s.rxFsm) = .idle
  rw [fsmCase, h]
  split <;> rfl

/-- `Moved lcreg r ws r'`: no tick or one tick takes `r` to `r'`, and `ws` are the words presented
by it. -/
inductive Moved (lcreg : BitVec 8) (r : Rx) : List RxOut → Rx → Prop
  | still : Moved lcreg r [] r
  | tick (d : Bool) :
      Moved lcreg r ((r.clock 16 lcreg d).present 16 lcreg).toList (r.clock 16 lcreg d)

/-- The words presented are those that a detector of the rise of `rx_done` finds. -/
theorem Moved.words_eq {lcreg : BitVec 8} {r r' : Rx} {ws : List RxOut} (h : Moved lcreg r ws r') :
    ws = (if r'.rxDone 16 && !r.rxDone 16 then some (r'.rxOut lcreg) else none).toList := by
  cases h with
  | still => cases r.rxDone 16 <;> rfl
  | tick d =>
    rw [present]
    cases hdone : (r.clock 16 lcreg d).rxDone 16 with
    | false => rfl
    | true =>
      rw [rxDone_of_clock hdone]
      rfl

end Rx

namespace UartUut

variable (clk : Bool) {i j : UartIn} {s : UartUut}

/-- A divider that has just been loaded is high while the system clock is high. -/
theorem clkOut_load (div : BitVec 16) :
    (ClockDivider.load false true).clkOut true true div = true := by
  unfold ClockDivider.clkOut
  split
  · rfl
  · split <;> rfl

/-! ## One level of the system clock -/

theorem follow_baudout : (s.follow clk i).baudout = s.baudLevel clk i := by
  unfold follow
  split
  case isTrue h =>
    rw [Bool.and_eq_true, Bool.and_eq_true] at h
    exact h.1.2.symm
  case isFalse => rfl

theorem follow_moved : (s.rx).Moved i.lcreg (s.followWords clk i) (s.follow clk i).rx := by
  unfold follow followWords
  split
  · exact .tick _
  · exact .still

/-- Nothing ticks when `baudout` was high already, or is low now. -/
theorem follow_still (h : s.baudout = true ∨ s.baudLevel clk i = false) :
    s.followWords clk i = [] ∧ (s.follow clk i).rx = s.rx := by
  have hno : (!s.baudout && s.baudLevel clk i && !i.res) = false := by
    rcases h with h | h <;> simp [h]
  unfold follow followWords
  rw [hno]
  exact ⟨rfl, rfl⟩

/-! ## Settling -/

/-- A load of the divider can only raise `baudout`. -/
theorem baudLevel_async (h : s.baudLevel true i = true) : (s.async i).baudLevel true i = true := by
  show (if i.res || i.baudRes then ClockDivider.load false true else s.baudGen).clkOut true true
    i.divisor = true
  split
  · exact clkOut_load _
  · exact h

/-- `baudout` has the level of its generator once the lines have settled. -/
theorem settle_baudout : (s.settle i).baudout = (s.settle i).baudLevel true i := by
  rw [settle, follow_baudout, baudLevel, baudLevel, follow_baudGen]

variable (hi : i.res = false)

include hi

theorem async_rx : (s.async i).rx = s.rx := by simp [async, hi]

/-- Neither part of the settling ticks. -/
theorem settle_still_of (h : s.baudout = true ∨ s.baudLevel true i = false)
    (h' : ((s.follow true i).async i).baudout = true ∨
      ((s.follow true i).async i).baudLevel true i = false) :
    s.settleWords i = [] ∧ (s.settle i).rx = s.rx := by
  obtain ⟨hwords, hrx⟩ := follow_still true h
  obtain ⟨hwords', hrx'⟩ := follow_still true h'
  constructor
  · rw [settleWords, hwords, hwords']
    rfl
  · rw [settle, hrx', async_rx hi, hrx]

/-- If the level is low then, nothing has ticked while the lines settled. -/
theorem settle_still (h : (s.settle i).baudout = false) :
    s.settleWords i = [] ∧ (s.settle i).rx = s.rx := by
  have hlevel : ((s.follow true i).async i).baudLevel true i = false := by
    rw [← h, settle, follow_baudout]
  have hfirst : s.baudLevel true i = false := by
    rw [Bool.eq_false_iff]
    intro hhigh
    have hstay : (s.follow true i).baudLevel true i = true := by
      rw [baudLevel, follow_baudGen]
      exact hhigh
    exact absurd ((baudLevel_async hstay).symm.trans hlevel) (by decide)
  exact settle_still_of hi (.inr hfirst) (.inr hlevel)

omit hi in
/-- A level that is high in the first part has been seen when the second begins. -/
theorem baudout_async (hl : s.baudLevel true i = true) :
    ((s.follow true i).async i).baudout = true := by
  show (s.follow true i).baudout = true
  rw [follow_baudout, hl]

/-- Nothing ticks when the level was and is high before the lines settle. -/
theorem settle_still_of_high (hb : s.baudout = true) (hl : s.baudLevel true i = true) :
    s.settleWords i = [] ∧ (s.settle i).rx = s.rx :=
  settle_still_of hi (.inl hb) (.inl (baudout_async hl))

/-- At most one tick while the lines settle. -/
theorem settle_moved : (s.rx).Moved i.lcreg (s.settleWords i) (s.settle i).rx := by
  cases hl : s.baudLevel true i with
  | true =>
    -- the level is high after the first part, so the second part does not tick
    obtain ⟨hwords, hrx⟩ := follow_still true (i := i) (.inl (baudout_async hl))
    rw [settleWords, hwords, List.append_nil, settle, hrx, async_rx hi]
    exact follow_moved true
  | false =>
    obtain ⟨hwords, hrx⟩ := follow_still true (.inr hl)
    have hmoved := follow_moved true (i := i) (s := (s.follow true i).async i)
    rw [async_rx hi, hrx] at hmoved
    rw [settleWords, hwords, List.nil_append, settle]
    exact hmoved

/-- At most one tick while the lines settle after a posedge and again when the ports have
changed, under one divisor and one line format. -/
theorem settle_settle_moved (hj : j.res = false) (hdiv : j.divisor = i.divisor)
    (hlc : j.lcreg = i.lcreg) :
    (s.rx).Moved i.lcreg (s.settleWords i ++ (s.settle i).settleWords j)
      ((s.settle i).settle j).rx := by
  cases hb : (s.settle i).baudout with
  | false =>
    obtain ⟨hwords, hrx⟩ := settle_still hi hb
    have hmoved := settle_moved (s := s.settle i) hj
    rw [hrx, hlc] at hmoved
    rw [hwords, List.nil_append]
    exact hmoved
  | true =>
    have hl : (s.settle i).baudLevel true j = true := by
      have hgen := (settle_baudout (s := s) (i := i)).symm.trans hb
      rw [baudLevel] at hgen
      rw [baudLevel, hdiv, hgen]
    obtain ⟨hwords, hrx⟩ := settle_still_of_high hj hb hl
    rw [hwords, List.append_nil, hrx]
    exact settle_moved hi

end UartUut

end RtlCores.Uart
