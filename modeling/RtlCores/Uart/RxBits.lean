import RtlCores.Uart.Rx

/-!
# Bits seen by the receiver

The receiver is one tick behind the line: it enters the state of a bit with the first tick of the
bit and leaves it with the first tick of the next one.  The natural points of a run are therefore
those where the tick counter has its last value, and a bit is `TICKS_NUM` ticks of one level fed
from such a point.
-/

namespace RtlCores.Uart

open RtlCores.Lib RtlCores.Modules

theorem rxTickBw_two_pow (k : Nat) : rxTickBw (2 ^ k) = k := Nat.clog_pow 2 k (by decide)

namespace Rx

variable {k : Nat} (lcreg : BitVec 8) {s : Rx} {v : Bool}

/-- The samples of a bit are taken after its first tick and before its last two. -/
theorem tickSample_bounds (hk : 3 ≤ k) :
    tickSampleA (2 ^ k) < tickSampleC (2 ^ k) ∧ tickSampleB (2 ^ k) < tickSampleC (2 ^ k) ∧
      tickSampleD (2 ^ k) + 2 ≤ 2 ^ k := by
  obtain ⟨j, rfl⟩ : ∃ j, k = j + 3 := ⟨k - 3, by omega⟩
  have hpow : 2 ^ (j + 3) = 8 * 2 ^ j := by rw [Nat.pow_add, Nat.mul_comm]
  have hone : 0 < 2 ^ j := Nat.two_pow_pos j
  simp only [tickSampleA, tickSampleB, tickSampleC, tickSampleD, tickDelta, hpow]
  split <;> omega

/-! ## The tick counter -/

theorem countNext_of_initCt (h : s.initCt v = true) (hc : s.countTicks + 1 < 2 ^ k) :
    s.countNext (2 ^ k) v = s.countTicks + 1 := by
  rw [countNext, if_pos h, ctNextval, h, rxTickBw_two_pow]
  exact Nat.mod_eq_of_lt hc

theorem countNext_wrap (h : s.initCt v = true) (hc : s.countTicks + 1 = 2 ^ k) :
    s.countNext (2 ^ k) v = 0 := by
  rw [countNext, if_pos h, ctNextval, h, rxTickBw_two_pow, Bool.toNat_true, hc, Nat.mod_self]

theorem countNext_of_idle (h : s.initCt v = false) : s.countNext (2 ^ k) v = 2 ^ k - 1 := by
  rw [countNext, if_neg (by simp [h]), rxTickBw_two_pow]

theorem initCt_of_ne_idle (h : s.rxFsm ≠ .idle) (v : Bool) : s.initCt v = true := by
  unfold initCt
  cases hfsm : s.rxFsm
  case idle => exact absurd hfsm h
  all_goals rfl

/-! ## The latch -/

/-- Where the latch of the next state is closed, it holds the present state. -/
def Settled (s : Rx) : Prop :=
  ∀ rxDin, s.fsmCase lcreg rxDin s.nextRxFsm = s.fsmCase lcreg rxDin s.rxFsm

variable {lcreg}

theorem fsmCase_fsmCase (u v : Bool) :
    s.fsmCase lcreg u (s.fsmCase lcreg v s.rxFsm) = s.fsmCase lcreg u s.rxFsm := by
  cases h : s.rxFsm <;> simp only [fsmCase, h]
  case data => split <;> rfl

/-- The latch is open in the idle state. -/
theorem settled_of_idle (h : s.rxFsm = .idle) : s.Settled lcreg := by
  intro rxDin
  simp only [fsmCase, h]

/-- In the data state the next state does not depend on the samples. -/
theorem Settled.clock (h : s.Settled lcreg) (ticksNum : Nat) (v : Bool) :
    (s.clock ticksNum lcreg v).Settled lcreg := by
  intro u
  by_cases hrise : s.firstRise ticksNum v = true
  · have hfsm : (s.clock ticksNum lcreg v).rxFsm = (s.clock ticksNum lcreg v).nextRxFsm :=
      if_pos hrise
    rw [hfsm]
  · have hfsm : (s.clock ticksNum lcreg v).rxFsm = s.rxFsm := if_neg hrise
    have hbits : (s.clock ticksNum lcreg v).countBits = s.countBits := if_neg hrise
    have hnext : (s.clock ticksNum lcreg v).nextRxFsm = s.fsmCase lcreg v s.rxFsm := h v
    rw [hnext, hfsm]
    cases hcase : s.rxFsm <;> simp only [fsmCase, hfsm, hcase]
    case data =>
      rw [lastBit, hbits, ← lastBit]
      split <;> rfl

/-! ## Ticks of one bit -/

/-- What the samples of a bit vote for, if the line is at `d j` when the tick counter is `j`. -/
def voted (ticksNum : Nat) (d : Nat → Bool) : Bool :=
  d (tickSampleA ticksNum) && d (tickSampleB ticksNum) ||
    d (tickSampleA ticksNum) && d (tickSampleC ticksNum) ||
      d (tickSampleB ticksNum) && d (tickSampleC ticksNum)

@[simp] theorem voted_const (ticksNum : Nat) (v : Bool) : voted ticksNum (fun _ ↦ v) = v := by
  cases v <;> rfl

/-- `s'` is what the receiver has become `j` ticks after `s`, with the line at `d 0`, `d 1` and so
on; the bit began with `s`. -/
structure InBit (ticksNum : Nat) (lcreg : BitVec 8) (s : Rx) (d : Nat → Bool) (j : Nat) (s' : Rx) :
    Prop where
  countTicks : s'.countTicks = j
  countBits : s'.countBits = s.countBits
  rxFsm : s'.rxFsm = s.rxFsm
  s0 : tickSampleA ticksNum < j → s'.s0 = d (tickSampleA ticksNum)
  s1 : tickSampleB ticksNum < j → s'.s1 = d (tickSampleB ticksNum)
  s2 : tickSampleC ticksNum < j → s'.s2 = d (tickSampleC ticksNum)
  rsr : s'.rsr = if j + 1 = ticksNum ∧ s.rxFsm = .data
    then ShiftReg.clock ⟨true, voted ticksNum d, false, 0⟩ s.rsr else s.rsr
  parityBit : s.rxFsm ≠ .parity → s'.parityBit = s.parityBit
  settled : s'.Settled lcreg

variable {s' : Rx} {d : Nat → Bool} {j : Nat}

theorem inBit_zero (hk : 3 ≤ k) (hc : s.countTicks = 0) (h : s.Settled lcreg) (d : Nat → Bool) :
    InBit (2 ^ k) lcreg s d 0 s := by
  have hpow : 2 ^ 3 ≤ 2 ^ k := Nat.pow_le_pow_right (by decide) hk
  constructor
  case countTicks => exact hc
  case rsr => rw [if_neg (by omega)]
  case settled => exact h
  case parityBit => exact fun _ ↦ rfl
  case s0 => exact fun h ↦ absurd h (Nat.not_lt_zero _)
  case s1 => exact fun h ↦ absurd h (Nat.not_lt_zero _)
  case s2 => exact fun h ↦ absurd h (Nat.not_lt_zero _)
  all_goals rfl

/-- After the last sample the vote is that of the bit. -/
theorem InBit.votedDin (hk : 3 ≤ k) (h : InBit (2 ^ k) lcreg s d j s')
    (hj : tickSampleC (2 ^ k) < j) : s'.votedDin = voted (2 ^ k) d := by
  obtain ⟨ha, hb, -⟩ := tickSample_bounds hk
  rw [Rx.votedDin, h.s0 (by omega), h.s1 (by omega), h.s2 hj, voted]

/-- A sample register after a tick. -/
theorem sample_clock {x : Bool} {m : Nat} (h : m < j → x = d m) (hj : m < j + 1) :
    (if j = m then d j else x) = d m := by
  rcases Nat.lt_succ_iff_lt_or_eq.mp hj with hlt | rfl
  · rw [h hlt, if_neg (Nat.ne_of_gt hlt)]
  · exact if_pos rfl

/-- The last tick of a data bit shifts the vote in. -/
theorem InBit.rsr_clock (hk : 3 ≤ k) (h : InBit (2 ^ k) lcreg s d j s') (v : Bool)
    (hnext : s'.countNext (2 ^ k) v = j + 1) (hj : j + 1 < 2 ^ k) :
    (s'.clock (2 ^ k) lcreg v).rsr = if j + 1 + 1 = 2 ^ k ∧ s.rxFsm = .data
      then ShiftReg.clock ⟨true, voted (2 ^ k) d, false, 0⟩ s.rsr else s.rsr := by
  obtain ⟨-, -, hd⟩ := tickSample_bounds hk
  have hsame : s'.rsr = s.rsr := by rw [h.rsr, if_neg (by omega)]
  have hlast : s'.lastRise (2 ^ k) v = decide (j + 1 + 1 = 2 ^ k) := by
    rw [lastRise, hnext, h.countTicks, rxTickBw_two_pow, Bool.eq_iff_iff]
    simp only [Bool.and_eq_true, bne_iff_ne, beq_iff_eq, decide_eq_true_eq]
    omega
  by_cases hend : j + 1 + 1 = 2 ^ k
  · -- the last tick of the bit: the vote is shifted in if this is a data bit
    have hvote : s'.votedDin = voted (2 ^ k) d :=
      h.votedDin hk (by unfold tickSampleD at hd; omega)
    have hin : s'.rsrIn = ⟨decide (s.rxFsm = .data), voted (2 ^ k) d, false, 0⟩ := by
      rw [rsrIn, sregEn, h.rxFsm, hvote]
    have hclock : (s'.clock (2 ^ k) lcreg v).rsr = ShiftReg.clock s'.rsrIn s'.rsr :=
      if_pos (by rw [hlast, decide_eq_true hend])
    rw [hclock, hin, hsame]
    by_cases hdata : s.rxFsm = .data
    · rw [if_pos ⟨hend, hdata⟩, decide_eq_true hdata]
    · rw [if_neg fun h ↦ hdata h.2, ShiftReg.clock_keep _ rfl (decide_eq_false hdata)]
  · rw [if_neg (by omega)]
    simp [Rx.clock, hlast, hend, hsame]

theorem InBit.tick (hk : 3 ≤ k) (h : InBit (2 ^ k) lcreg s d j s') (hactive : s.rxFsm ≠ .idle)
    (hj : j + 1 < 2 ^ k) : InBit (2 ^ k) lcreg s d (j + 1) (s'.clock (2 ^ k) lcreg (d j)) := by
  have hinit : s'.initCt (d j) = true :=
    initCt_of_ne_idle (by rw [h.rxFsm]; exact hactive) (d j)
  have hnext : s'.countNext (2 ^ k) (d j) = j + 1 := by
    rw [countNext_of_initCt hinit (by rw [h.countTicks]; exact hj), h.countTicks]
  have hrise : s'.firstRise (2 ^ k) (d j) = false := by simp [firstRise, hnext]
  constructor
  case countTicks => exact hnext
  case countBits => simp [Rx.clock, hrise, h.countBits]
  case rxFsm => simp [Rx.clock, hrise, h.rxFsm]
  case s0 =>
    intro hlt
    simp only [Rx.clock, h.countTicks]
    exact sample_clock h.s0 hlt
  case s1 =>
    intro hlt
    simp only [Rx.clock, h.countTicks]
    exact sample_clock h.s1 hlt
  case s2 =>
    intro hlt
    simp only [Rx.clock, h.countTicks]
    exact sample_clock h.s2 hlt
  case rsr => exact h.rsr_clock hk (d j) hnext hj
  case parityBit =>
    intro hne
    have hfsm : (s'.clock (2 ^ k) lcreg (d j)).rxFsm ≠ .parity := by
      simpa [Rx.clock, hrise, h.rxFsm] using hne
    rw [Rx.parityBit, if_neg hfsm]
    exact h.parityBit hne
  case settled => exact h.settled.clock _ (d j)

variable (k lcreg) in
/-- One tick of the receiver. -/
abbrev tick (rxDin : Bool) (s : Rx) : Rx := s.clock (2 ^ k) lcreg rxDin

/-- The line while the tick counter runs from 0 to `j`. -/
def levelsTo (d : Nat → Bool) (j : Nat) : List Bool := (List.range j).map d

theorem levelsTo_succ (d : Nat → Bool) (j : Nat) : levelsTo d (j + 1) = levelsTo d j ++ [d j] := by
  rw [levelsTo, List.range_succ, List.map_append]
  rfl

theorem levelsTo_const (v : Bool) (j : Nat) : levelsTo (fun _ ↦ v) j = List.replicate j v := by
  rw [levelsTo, List.map_const', List.length_range]

/-- A bit from its first tick to its last. -/
theorem inBit_feed (hk : 3 ≤ k) (hc : s.countTicks = 0) (h : s.Settled lcreg)
    (hactive : s.rxFsm ≠ .idle) (hj : j < 2 ^ k) :
    InBit (2 ^ k) lcreg s d j (feed (tick k lcreg) s (levelsTo d j)) := by
  induction j with
  | zero => exact inBit_zero hk hc h d
  | succ j ih =>
    rw [levelsTo_succ, feed_append]
    exact (ih (by omega)).tick hk hactive hj

/-- A word is presented in one tick of the stop bit. -/
theorem InBit.present (hk : 3 ≤ k) (h : InBit (2 ^ k) lcreg s d j s') :
    s'.present (2 ^ k) lcreg =
      if s.rxFsm = .stop ∧ j = tickSampleD (2 ^ k) then
        some ⟨!voted (2 ^ k) d, pen lcreg && xor (s.parityVal lcreg) s.parityBit, s.sout lcreg⟩
      else none := by
  obtain ⟨-, -, hbound⟩ := tickSample_bounds hk
  have hdone : s'.rxDone (2 ^ k) = decide (s.rxFsm = .stop ∧ j = tickSampleD (2 ^ k)) := by
    rw [rxDone, h.rxFsm, h.countTicks, Bool.decide_and]
  rw [Rx.present, hdone]
  by_cases hd : s.rxFsm = .stop ∧ j = tickSampleD (2 ^ k)
  · obtain ⟨hstop, htick⟩ := hd
    have hvote : s'.votedDin = voted (2 ^ k) d :=
      h.votedDin hk (by unfold tickSampleD at htick; omega)
    have hrsr : s'.rsr = s.rsr := by rw [h.rsr, if_neg (by omega)]
    have hparity : s'.parityBit = s.parityBit := h.parityBit (by rw [hstop]; decide)
    rw [decide_eq_true ⟨hstop, htick⟩, if_pos rfl, if_pos ⟨hstop, htick⟩, rxOut, errF, errP,
      h.rxFsm, hstop, hvote, hparity, parityVal, sout, hrsr]
    rfl
  · rw [decide_eq_false hd, if_neg Bool.false_ne_true, if_neg hd]

/-- The words presented in the ticks of a bit after its first. -/
theorem shown_inBit (hk : 3 ≤ k) (hc : s.countTicks = 0) (h : s.Settled lcreg)
    (hactive : s.rxFsm ≠ .idle) (hj : j < 2 ^ k) :
    shown (Rx.present (2 ^ k) lcreg) (tick k lcreg) s (levelsTo d j) =
      if s.rxFsm = .stop ∧ tickSampleD (2 ^ k) ≤ j then
        [⟨!voted (2 ^ k) d, pen lcreg && xor (s.parityVal lcreg) s.parityBit, s.sout lcreg⟩]
      else [] := by
  induction j with
  | zero =>
    rw [if_neg (by unfold tickSampleD; omega)]
    rfl
  | succ j ih =>
    have hin := (inBit_feed (d := d) hk hc h hactive (by omega : j < 2 ^ k)).tick hk hactive hj
    rw [levelsTo_succ, shown_append, ih (by omega), shown, hin.present hk, shown_nil,
      List.append_nil]
    by_cases hstop : s.rxFsm = .stop
    · rcases Nat.lt_trichotomy (j + 1) (tickSampleD (2 ^ k)) with hlt | heq | hgt
      · rw [if_neg (by omega), if_neg (by omega), if_neg (by omega)]
        rfl
      · rw [if_neg (by omega), if_pos ⟨hstop, heq⟩, if_pos ⟨hstop, heq.ge⟩]
        rfl
      · rw [if_pos ⟨hstop, by omega⟩, if_neg (by omega), if_pos ⟨hstop, by omega⟩]
        rfl
    · rw [if_neg fun h ↦ hstop h.1, if_neg fun h ↦ hstop h.1, if_neg fun h ↦ hstop h.1]
      rfl

/-! ## Whole bits -/

/-- `s'` is the last tick of a bit at level `v` in the state `f`, seen after `s`. -/
structure AfterBit (k : Nat) (lcreg : BitVec 8) (s : Rx) (v : Bool) (f : RxFsm) (s' : Rx) :
    Prop where
  countTicks : s'.countTicks = 2 ^ k - 1
  countBits : s'.countBits = if s.cbIncr then s.cbNext else 0
  rxFsm : s'.rxFsm = f
  votedDin : s'.votedDin = v
  rsr : s'.rsr = if f = .data then ShiftReg.clock ⟨true, v, false, 0⟩ s.rsr else s.rsr
  parityBit : s'.parityBit = if f = .parity then v else s.parityBit
  settled : s'.Settled lcreg

/-- `s'` is the first tick of a bit in the state `f`, seen after `s`. -/
structure Entered (lcreg : BitVec 8) (s : Rx) (f : RxFsm) (s' : Rx) : Prop where
  countTicks : s'.countTicks = 0
  countBits : s'.countBits = if s.cbIncr then s.cbNext else 0
  rxFsm : s'.rxFsm = f
  rsr : s'.rsr = s.rsr
  parityBit : f ≠ .parity → s'.parityBit = s.parityBit
  settled : s'.Settled lcreg

/-- After the last tick of a bit comes the first tick of the next one. -/
theorem entered_tick (hk : 3 ≤ k) (h : s.Settled lcreg) (hc : s.countTicks = 2 ^ k - 1)
    (hinit : s.initCt v = true) {f : RxFsm} (hf : s.fsmCase lcreg v s.rxFsm = f) :
    Entered lcreg s f (tick k lcreg v s) := by
  have hpow : 2 ^ 3 ≤ 2 ^ k := Nat.pow_le_pow_right (by decide) hk
  have hnext : s.countNext (2 ^ k) v = 0 := countNext_wrap hinit (by omega)
  have hfirst : s.firstRise (2 ^ k) v = true := by
    rw [firstRise, hnext, hc, Bool.and_eq_true, bne_iff_ne]
    exact ⟨by omega, rfl⟩
  have hlast : s.lastRise (2 ^ k) v = false := by
    rw [lastRise, rxTickBw_two_pow, hc, bne_self_eq_false, Bool.false_and]
  have hfsm : (tick k lcreg v s).rxFsm = f := by
    rw [← hf, ← h v]
    exact if_pos hfirst
  constructor
  case countTicks => exact hnext
  case countBits => exact if_pos hfirst
  case rxFsm => exact hfsm
  case rsr => exact if_neg (by simp [hlast])
  case parityBit =>
    intro hp
    rw [Rx.parityBit, if_neg (by rw [hfsm]; exact hp)]
    rfl
  case settled => exact h.clock _ v

/-- The ticks of a bit after its first. -/
theorem Entered.afterBit (hk : 3 ≤ k) {f : RxFsm} (h : Entered lcreg s f s') (hne : f ≠ .idle) :
    AfterBit k lcreg s (voted (2 ^ k) d) f (feed (tick k lcreg) s' (levelsTo d (2 ^ k - 1))) := by
  have hpos : 0 < 2 ^ k := Nat.two_pow_pos k
  obtain ⟨-, -, hbound⟩ := tickSample_bounds hk
  have hactive : s'.rxFsm ≠ .idle := by rw [h.rxFsm]; exact hne
  have hin := inBit_feed (d := d) hk h.countTicks h.settled hactive (by omega : 2 ^ k - 1 < 2 ^ k)
  have hvote := hin.votedDin hk (by unfold tickSampleD at hbound; omega)
  constructor
  case countTicks => exact hin.countTicks
  case countBits => exact hin.countBits.trans h.countBits
  case rxFsm => exact hin.rxFsm.trans h.rxFsm
  case votedDin => exact hvote
  case rsr =>
    rw [← h.rsr, ← h.rxFsm]
    refine hin.rsr.trans (if_congr ?_ rfl rfl)
    exact ⟨fun h ↦ h.2, fun h ↦ ⟨by omega, h⟩⟩
  case parityBit =>
    by_cases hp : f = .parity
    · rw [if_pos hp]
      exact (if_pos ((hin.rxFsm.trans h.rxFsm).trans hp)).trans hvote
    · rw [if_neg hp, ← h.parityBit hp]
      exact hin.parityBit (by rw [h.rxFsm]; exact hp)
  case settled => exact hin.settled

/-- Nothing is presented in the first tick of a bit. -/
theorem Entered.present (hk : 3 ≤ k) {f : RxFsm} (h : Entered lcreg s f s') :
    s'.present (2 ^ k) lcreg = none := by
  rw [(inBit_zero hk h.countTicks h.settled fun _ ↦ false).present hk,
    if_neg (by unfold tickSampleD; omega)]

/-- The words presented in a bit from its first tick on. -/
theorem Entered.shown_bit (hk : 3 ≤ k) {f : RxFsm} (h : Entered lcreg s f s') (hne : f ≠ .idle) :
    (s'.present (2 ^ k) lcreg).toList ++
        shown (Rx.present (2 ^ k) lcreg) (tick k lcreg) s' (levelsTo d (2 ^ k - 1)) =
      if f = .stop then
        [⟨!voted (2 ^ k) d, pen lcreg && xor (s.parityVal lcreg) s.parityBit, s.sout lcreg⟩]
      else [] := by
  have hpos : 0 < 2 ^ k := Nat.two_pow_pos k
  obtain ⟨-, -, hbound⟩ := tickSample_bounds hk
  have hactive : s'.rxFsm ≠ .idle := by rw [h.rxFsm]; exact hne
  rw [h.present hk, shown_inBit hk h.countTicks h.settled hactive (by omega), h.rxFsm]
  by_cases hstop : f = .stop
  · rw [if_pos ⟨hstop, by omega⟩, if_pos hstop, h.parityBit (by rw [hstop]; decide), parityVal,
      sout, h.rsr]
    rfl
  · rw [if_neg fun h ↦ hstop h.1, if_neg hstop]
    rfl

/-- The ticks are a bit at level `v` for the receiver: in the first tick the line is at `v`, and two
of the samples are `v`. -/
def IsBit (ticksNum : Nat) (v : Bool) (ticks : List Bool) : Prop :=
  ∃ d, ticks = v :: levelsTo d (ticksNum - 1) ∧ voted ticksNum d = v

/-- A bit without noise. -/
theorem isBit_replicate {n : Nat} (hn : 0 < n) (v : Bool) : IsBit n v (List.replicate n v) := by
  refine ⟨fun _ ↦ v, ?_, voted_const n v⟩
  rw [levelsTo_const, ← List.replicate_succ, Nat.sub_add_cancel hn]

/-- A bit fed to a receiver whose tick counter has its last value. -/
theorem feed_bit (hk : 3 ≤ k) (h : s.Settled lcreg) (hc : s.countTicks = 2 ^ k - 1)
    (hinit : s.initCt v = true) {f : RxFsm} (hf : s.fsmCase lcreg v s.rxFsm = f)
    (hne : f ≠ .idle) {ticks : List Bool} (hbit : IsBit (2 ^ k) v ticks) :
    AfterBit k lcreg s v f (feed (tick k lcreg) s ticks) ∧
      shown (Rx.present (2 ^ k) lcreg) (tick k lcreg) s ticks =
        if f = .stop then
          [⟨!v, pen lcreg && xor (s.parityVal lcreg) s.parityBit, s.sout lcreg⟩] else [] := by
  obtain ⟨d, rfl, hd⟩ := hbit
  have hentered := entered_tick hk h hc hinit hf
  have hafter := hentered.afterBit hk hne (d := d)
  have hshown := hentered.shown_bit hk hne (d := d)
  rw [hd] at hafter hshown
  exact ⟨hafter, hshown⟩

end Rx

end RtlCores.Uart
