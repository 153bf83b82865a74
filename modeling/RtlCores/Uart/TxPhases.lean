import RtlCores.Uart.Tx

/-!
# Phases of the transmitter

Between two rising edges of `first_tick` the transmitter is in one phase: only the tick counter
and the latch move.  A phase lasts `TICKS_NUM` ticks, the half stop bit half of that.  Everything
here is for a tick counter that wraps at `TICKS_NUM`, that is `TICKS_NUM = 2 ^ k`.
-/

namespace RtlCores.Uart

open RtlCores.Lib RtlCores.Modules

theorem tickBw_two_pow {k : Nat} (hk : 2 ≤ k) : tickBw (2 ^ k) + 1 = k := by
  rw [tickBw, Nat.clog_pow 2 k (by decide)]
  omega

namespace Tx

variable {k : Nat} (lcreg : BitVec 8) (i : TxIn) (s : Tx)

/-! ## The tick counter -/

/-- The length of a phase. -/
def phaseTicks (ticksNum : Nat) (fsm : TxFsm) : Nat :=
  if fsm = .stopHalf then ticksNum / 2 else ticksNum

/-- The tick counter in tick `j` of a phase. -/
def phaseCount (ticksNum : Nat) (fsm : TxFsm) (j : Nat) : Nat :=
  if fsm = .stopHalf ∧ j ≠ 0 then ticksNum / 2 + j else j

@[simp] theorem phaseCount_zero (ticksNum : Nat) (fsm : TxFsm) :
    phaseCount ticksNum fsm 0 = 0 := by
  simp [phaseCount]

theorem phaseCount_of_ne {fsm : TxFsm} (h : fsm ≠ .stopHalf) (ticksNum j : Nat) :
    phaseCount ticksNum fsm j = j := by
  simp [phaseCount, h]

theorem phaseTicks_of_ne {fsm : TxFsm} (h : fsm ≠ .stopHalf) (ticksNum : Nat) :
    phaseTicks ticksNum fsm = ticksNum := by
  simp [phaseTicks, h]

/-- A number with its top bit set keeps it. -/
theorem half_or (b j : Nat) (hj : j < 2 ^ b) : (2 ^ b + j) ||| 1 <<< b = 2 ^ b + j := by
  have h := Nat.two_pow_add_eq_or_of_lt hj 1
  rw [Nat.mul_one] at h
  rw [Nat.one_shiftLeft, h, Nat.or_assoc, Nat.or_comm j, ← Nat.or_assoc, Nat.or_self]

variable {s}

/-- In a phase the counter goes through its counts, and after the last one it is 0. -/
theorem countNext_phase (hk : 2 ≤ k) {j : Nat} (hj : j < phaseTicks (2 ^ k) s.txFsm)
    (hc : s.countTicks = phaseCount (2 ^ k) s.txFsm j) :
    s.countNext (2 ^ k) =
      if j + 1 < phaseTicks (2 ^ k) s.txFsm then phaseCount (2 ^ k) s.txFsm (j + 1) else 0 := by
  obtain ⟨b, rfl⟩ : ∃ b, k = b + 1 := ⟨k - 1, by omega⟩
  have hbw : tickBw (2 ^ (b + 1)) = b := by
    have := tickBw_two_pow hk
    omega
  have hdouble : 2 ^ (b + 1) = 2 * 2 ^ b := by rw [Nat.pow_succ, Nat.mul_comm]
  have hpos : 1 < 2 ^ b := Nat.one_lt_two_pow (by omega)
  have hhalf : 2 * 2 ^ b / 2 = 2 ^ b := by omega
  rw [countNext, hbw, hc]
  by_cases h : s.txFsm = .stopHalf
  · have hcount : (phaseCount (2 ^ (b + 1)) s.txFsm j ||| 1 <<< b) = 2 ^ b + j := by
      rw [phaseTicks, if_pos h, hdouble, hhalf] at hj
      rcases Nat.eq_zero_or_pos j with rfl | hj0
      · rw [phaseCount_zero, Nat.zero_or, Nat.one_shiftLeft, Nat.add_zero]
      · rw [phaseCount, if_pos ⟨h, hj0.ne'⟩, hdouble, hhalf]
        exact half_or b j hj
    rw [if_pos h, hcount]
    simp only [phaseTicks, phaseCount, h, if_true, true_and, hdouble, hhalf] at hj ⊢
    by_cases hlast : j + 1 < 2 ^ b
    · rw [if_pos hlast, if_pos (Nat.succ_ne_zero j), Nat.mod_eq_of_lt (by omega), Nat.add_assoc]
    · rw [if_neg hlast, show 2 ^ b + j + 1 = 2 * 2 ^ b by omega, Nat.mod_self]
  · rw [if_neg h]
    rw [phaseTicks_of_ne h] at hj ⊢
    rw [phaseCount_of_ne h, phaseCount_of_ne h]
    by_cases hlast : j + 1 < 2 ^ (b + 1)
    · rw [if_pos hlast, Nat.mod_eq_of_lt hlast]
    · rw [if_neg hlast, show j + 1 = 2 ^ (b + 1) by omega, Nat.mod_self]

/-- `first_tick` rises at the end of a phase and nowhere else. -/
theorem firstRise_phase (hk : 2 ≤ k) {j : Nat} (hj : j < phaseTicks (2 ^ k) s.txFsm)
    (hc : s.countTicks = phaseCount (2 ^ k) s.txFsm j) :
    s.firstRise (2 ^ k) = decide (j + 1 = phaseTicks (2 ^ k) s.txFsm) := by
  have hpow : 2 ^ 2 ≤ 2 ^ k := Nat.pow_le_pow_right (by decide) hk
  have hticks : 1 < phaseTicks (2 ^ k) s.txFsm := by
    unfold phaseTicks
    split <;> omega
  rw [firstRise, countNext_phase hk hj hc, firstTick, hc]
  by_cases hlast : j + 1 < phaseTicks (2 ^ k) s.txFsm
  · have hne : phaseCount (2 ^ k) s.txFsm (j + 1) ≠ 0 := by
      unfold phaseCount
      split <;> omega
    have hj' : j + 1 ≠ phaseTicks (2 ^ k) s.txFsm := by omega
    simp [hlast, hne, hj']
  · have hne : phaseCount (2 ^ k) s.txFsm j ≠ 0 := by
      unfold phaseCount
      split <;> omega
    have hj' : j + 1 = phaseTicks (2 ^ k) s.txFsm := by omega
    simp [hne, hj']

/-! ## The latch -/

/-- Where the latch of the next state is closed, it holds the present state. -/
def Settled (s : Tx) : Prop :=
  ∀ txStart, s.fsmCase lcreg txStart s.nextTxFsm = s.fsmCase lcreg txStart s.txFsm

variable {lcreg}

theorem fsmCase_fsmCase (txStart txStart' : Bool) :
    s.fsmCase lcreg txStart (s.fsmCase lcreg txStart' s.txFsm) =
      s.fsmCase lcreg txStart s.txFsm := by
  cases h : s.txFsm <;> simp only [fsmCase, h]
  case data => split <;> rfl
  case stop =>
    split
    · rfl
    · split <;> rfl

theorem settled_reset (s : Tx) : s.reset.Settled lcreg := fun _ ↦ rfl

theorem Settled.clock (h : s.Settled lcreg) (ticksNum : Nat) (i : TxIn) :
    (s.clock ticksNum lcreg i).Settled lcreg := by
  intro txStart
  by_cases hrise : s.firstRise ticksNum = true
  · have hfsm : (s.clock ticksNum lcreg i).txFsm = (s.clock ticksNum lcreg i).nextTxFsm :=
      if_pos hrise
    rw [hfsm]
  · -- no edge of `first_tick`: the state and the bit counter are the same as before
    have hsame : ∀ held, (s.clock ticksNum lcreg i).fsmCase lcreg txStart held =
        s.fsmCase lcreg txStart held := by
      intro held
      unfold fsmCase lastBit
      simp only [Tx.clock, hrise, if_false, Bool.false_eq_true]
    have hnext : (s.clock ticksNum lcreg i).nextTxFsm = s.fsmCase lcreg i.txStart s.txFsm :=
      h i.txStart
    have hfsm : (s.clock ticksNum lcreg i).txFsm = s.txFsm := if_neg hrise
    rw [hsame, hsame, hnext, hfsm, fsmCase_fsmCase]

/-! ## One tick -/

/-- `s'` is tick `j` of the phase that `s` starts. -/
structure InPhase (ticksNum : Nat) (lcreg : BitVec 8) (s : Tx) (j : Nat) (s' : Tx) : Prop where
  countTicks : s'.countTicks = phaseCount ticksNum s.txFsm j
  countBits : s'.countBits = s.countBits
  txFsm : s'.txFsm = s.txFsm
  tsr : s'.tsr = s.tsr
  settled : s'.Settled lcreg

/-- `s'` is what comes after the phase that `s` starts, under the inputs of its last tick. -/
structure AfterPhase (lcreg : BitVec 8) (i : TxIn) (s s' : Tx) : Prop where
  countTicks : s'.countTicks = 0
  countBits : s'.countBits = if !s.cbIncr || s.lastBit lcreg then 0 else s.cbNext
  txFsm : s'.txFsm = s.fsmCase lcreg i.txStart s.txFsm
  tsr : s'.tsr = ShiftReg.clock (s.tsrIn i) s.tsr
  settled : s'.Settled lcreg

theorem inPhase_zero (hc : s.countTicks = 0) (h : s.Settled lcreg) (ticksNum : Nat) :
    InPhase ticksNum lcreg s 0 s := by
  constructor
  case countTicks => rw [hc, phaseCount_zero]
  case settled => exact h
  all_goals rfl

variable {s' : Tx} {j : Nat}

theorem InPhase.tick (hk : 2 ≤ k) (h : InPhase (2 ^ k) lcreg s j s')
    (hj : j + 1 < phaseTicks (2 ^ k) s.txFsm) (i : TxIn) :
    InPhase (2 ^ k) lcreg s (j + 1) (s'.clock (2 ^ k) lcreg i) := by
  have hc := h.countTicks
  have hfsm := h.txFsm
  rw [← hfsm] at hc hj
  have hrise := firstRise_phase hk (by omega) hc
  rw [decide_eq_false (by omega)] at hrise
  constructor
  case countTicks =>
    have hnext := countNext_phase hk (by omega) hc
    rw [if_pos hj, hfsm] at hnext
    exact hnext
  case countBits => simp [Tx.clock, hrise, h.countBits]
  case txFsm => simp [Tx.clock, hrise, h.txFsm]
  case tsr => simp [Tx.clock, hrise, h.tsr]
  case settled => exact h.settled.clock _ i

theorem InPhase.last (hk : 2 ≤ k) (h : InPhase (2 ^ k) lcreg s j s')
    (hj : j + 1 = phaseTicks (2 ^ k) s.txFsm) (i : TxIn) :
    AfterPhase lcreg i s (s'.clock (2 ^ k) lcreg i) := by
  have hc := h.countTicks
  have hfsm := h.txFsm
  have hbits := h.countBits
  rw [← hfsm] at hc hj
  have hrise := firstRise_phase hk (by omega) hc
  rw [decide_eq_true hj] at hrise
  constructor
  case countTicks =>
    have hnext := countNext_phase hk (by omega) hc
    rw [if_neg (by omega)] at hnext
    exact hnext
  case countBits => simp [Tx.clock, hrise, cbIncr, lastBit, cbNext, hfsm, hbits]
  case txFsm =>
    have hlatch : s'.latch lcreg i = s'.fsmCase lcreg i.txStart s'.txFsm := h.settled i.txStart
    simp [Tx.clock, hrise, hlatch, fsmCase, lastBit, hfsm, hbits]
  case tsr => simp [Tx.clock, hrise, tsrIn, sregEn, loadEn, hfsm, h.tsr]
  case settled => exact h.settled.clock _ i

end Tx

end RtlCores.Uart
