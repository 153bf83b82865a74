import RtlCores.Uart.RxBits

/-!
# Characters seen by the receiver

A character fed to a receiver that waits for a start bit gives one word, in the stop bit, and the
receiver waits again.  How it waits matters for what may follow: straight after a stop bit the
tick counter runs on, and it is re-armed only by a second idle tick.  A start bit that follows
after exactly one idle tick is therefore seen late.
-/

namespace RtlCores.Uart.Rx

open RtlCores.Lib RtlCores.Modules

variable {k : Nat} {lcreg : BitVec 8} {s : Rx} {b : BitVec 8}

/-! ## The word in the shift register -/

theorem sout_eq (s : Rx) :
    s.sout lcreg = (s.rsr.extractLsb' (8 - wordLen lcreg) (wordLen lcreg)).setWidth 8 := by
  unfold sout wordLen
  rcases wls_cases (wls lcreg) with h | h | h | h <;> rw [h]
  · rfl
  · rfl
  · rfl
  · ext i hi
    simp

/-- The last `m` bits shifted in are the `m` low bits of `b`. -/
def Holds (s : Rx) (b : BitVec 8) (m : Nat) : Prop :=
  ∀ i < m, s.rsr.getLsbD (8 - m + i) = b.getLsbD i

theorem Holds.sout (h : s.Holds b (wordLen lcreg)) : s.sout lcreg = masked lcreg b := by
  have hlen := wordLen_le lcreg
  apply BitVec.eq_of_getLsbD_eq
  intro i hi
  rw [sout_eq, getLsbD_masked, BitVec.getLsbD_setWidth, BitVec.getLsbD_extractLsb',
    decide_eq_true hi, Bool.true_and]
  by_cases hlt : i < wordLen lcreg
  · rw [decide_eq_true hlt, Bool.true_and, Bool.true_and, h i hlt]
  · rw [decide_eq_false hlt, Bool.false_and, Bool.false_and]

/-- The parity compared with is that of the bits received. -/
theorem Holds.parityVal (h : s.Holds b (wordLen lcreg)) :
    s.parityVal lcreg = (parityKind lcreg).bit (lowBits (wordLen lcreg) b) := by
  have hxor : redXor (s.sout lcreg) = xorAll (lowBits (wordLen lcreg) b) := by
    rw [h.sout, redXor_eq_xorAll_lowBits _ (wordLen_le lcreg), lowBits_masked]
    intro i hi
    rw [getLsbD_masked, decide_eq_false (by omega), Bool.false_and]
  rw [Rx.parityVal, hxor, parityKind]
  cases sp lcreg <;> cases eps lcreg <;> rfl

/-- Shifting a further bit in. -/
theorem Holds.shift {s' : Rx} {m : Nat} (h : s.Holds b m) (hm : m < 8)
    (hrsr : s'.rsr = ShiftReg.clock ⟨true, b.getLsbD m, false, 0⟩ s.rsr) :
    s'.Holds b (m + 1) := by
  intro i hi
  rw [hrsr]
  rcases Nat.lt_succ_iff_lt_or_eq.mp hi with hlt | rfl
  · rw [ShiftReg.getLsbD_clock_shift _ rfl rfl (by omega), ← h i hlt]
    congr 1
    omega
  · rw [show 8 - (i + 1) + i = 8 - 1 by omega]
    exact ShiftReg.getLsbD_clock_top s.rsr rfl rfl (by decide)

/-! ## One character -/

/-- The receiver is in the last tick of a stop bit, or waits for a start bit. -/
structure Armed (k : Nat) (lcreg : BitVec 8) (s : Rx) : Prop where
  countTicks : s.countTicks = 2 ^ k - 1
  rxFsm : s.rxFsm = .idle ∨ s.rxFsm = .stop
  settled : s.Settled lcreg

/-- The receiver is in the last tick of a data bit; `m` bits have been received. -/
structure InData (k : Nat) (lcreg : BitVec 8) (b : BitVec 8) (m : Nat) (s : Rx) : Prop where
  countTicks : s.countTicks = 2 ^ k - 1
  rxFsm : s.rxFsm = .data
  countBits : s.countBits = BitVec.ofNat 3 (m - 1)
  holds : s.Holds b m
  settled : s.Settled lcreg

theorem Armed.initCt_low (h : Armed k lcreg s) : s.initCt false = true := by
  rcases h.rxFsm with hfsm | hfsm <;> rw [initCt, hfsm]
  rfl

/-- A low tick is taken for the first tick of a start bit. -/
theorem Armed.fsmCase_low (h : Armed k lcreg s) : s.fsmCase lcreg false s.rxFsm = .start := by
  rcases h.rxFsm with hfsm | hfsm <;> rw [fsmCase, hfsm] <;> rfl

variable {ticks : List Bool}

/-- The start bit. -/
theorem Armed.feed_start (hk : 3 ≤ k) (h : Armed k lcreg s) (hbit : IsBit (2 ^ k) false ticks) :
    AfterBit k lcreg s false .start (feed (tick k lcreg) s ticks) ∧
      shown (Rx.present (2 ^ k) lcreg) (tick k lcreg) s ticks = [] := by
  exact feed_bit hk h.settled h.countTicks h.initCt_low h.fsmCase_low (by decide) hbit

theorem lastBit_ofNat {m : Nat} (hpos : 0 < m) (hm : m ≤ 8)
    (h : s.countBits = BitVec.ofNat 3 (m - 1)) : s.lastBit lcreg = decide (m = wordLen lcreg) := by
  rw [lastBit, h, countBits_last lcreg (by omega), Nat.sub_add_cancel hpos]

/-- The first data bit, after a start bit. -/
theorem AfterBit.feed_data {s₀ : Rx} (hk : 3 ≤ k) (h : AfterBit k lcreg s₀ false .start s)
    (hticks : IsBit (2 ^ k) (b.getLsbD 0) ticks) :
    InData k lcreg b 1 (feed (tick k lcreg) s ticks) ∧
      shown (Rx.present (2 ^ k) lcreg) (tick k lcreg) s ticks = [] := by
  have hcase : s.fsmCase lcreg (b.getLsbD 0) s.rxFsm = .data := by
    rw [fsmCase, h.rxFsm, h.votedDin]
    rfl
  obtain ⟨hbit, hshown⟩ := feed_bit hk h.settled h.countTicks
    (initCt_of_ne_idle (by rw [h.rxFsm]; decide) _) hcase (by decide) hticks
  refine ⟨?_, hshown⟩
  constructor
  case countTicks => exact hbit.countTicks
  case rxFsm => exact hbit.rxFsm
  case countBits =>
    rw [hbit.countBits, cbIncr, h.rxFsm]
    rfl
  case holds =>
    have hnone : s.Holds b 0 := fun i hi ↦ absurd hi (Nat.not_lt_zero i)
    exact hnone.shift (by decide) hbit.rsr
  case settled => exact hbit.settled

/-- A further data bit. -/
theorem InData.feed_data {m : Nat} (hk : 3 ≤ k) (h : InData k lcreg b m s) (hpos : 0 < m)
    (hm : m < wordLen lcreg) (hticks : IsBit (2 ^ k) (b.getLsbD m) ticks) :
    InData k lcreg b (m + 1) (feed (tick k lcreg) s ticks) ∧
      shown (Rx.present (2 ^ k) lcreg) (tick k lcreg) s ticks = [] := by
  have hlen := wordLen_le lcreg
  have hlast : s.lastBit lcreg = false := by
    rw [lastBit_ofNat hpos (by omega) h.countBits, decide_eq_false (by omega)]
  have hcase : s.fsmCase lcreg (b.getLsbD m) s.rxFsm = .data := by
    rw [fsmCase, h.rxFsm, hlast]
    rfl
  obtain ⟨hbit, hshown⟩ := feed_bit hk h.settled h.countTicks
    (initCt_of_ne_idle (by rw [h.rxFsm]; decide) _) hcase (by decide) hticks
  refine ⟨?_, hshown⟩
  constructor
  case countTicks => exact hbit.countTicks
  case rxFsm => exact hbit.rxFsm
  case countBits =>
    have hincr : s.cbIncr = true := decide_eq_true h.rxFsm
    obtain ⟨j, rfl⟩ : ∃ j, m = j + 1 := ⟨m - 1, by omega⟩
    rw [hbit.countBits, hincr, if_pos rfl, cbNext, hincr, h.countBits, Nat.add_sub_cancel,
      Nat.add_sub_cancel, BitVec.ofNat_add]
    rfl
  case holds => exact h.holds.shift (by omega) hbit.rsr
  case settled => exact hbit.settled

/-- The data bits of a character. -/
theorem AfterBit.feed_lowBits {s₀ : Rx} (hk : 3 ≤ k) (h : AfterBit k lcreg s₀ false .start s)
    {m : Nat} (hpos : 0 < m) (hm : m ≤ wordLen lcreg)
    (hticks : Carries (IsBit (2 ^ k)) (lowBits m b) ticks) :
    InData k lcreg b m (feed (tick k lcreg) s ticks) ∧
      shown (Rx.present (2 ^ k) lcreg) (tick k lcreg) s ticks = [] := by
  induction m generalizing ticks with
  | zero => exact absurd hpos (Nat.lt_irrefl 0)
  | succ m ih =>
    rw [lowBits_succ] at hticks
    obtain ⟨is, js, rfl, hfirst, hlast⟩ := hticks.of_append
    rw [carries_singleton_iff] at hlast
    rw [feed_append, shown_append]
    rcases Nat.eq_zero_or_pos m with rfl | hm0
    · obtain rfl := carries_nil_iff.mp hfirst
      exact h.feed_data hk hlast
    · obtain ⟨hdata, hnone⟩ := ih hm0 (by omega) hfirst
      rw [hnone, List.nil_append]
      exact hdata.feed_data hk hm0 hm hlast

/-- The receiver is in the last tick before the stop bit. -/
structure BeforeStop (k : Nat) (lcreg : BitVec 8) (b : BitVec 8) (par : Bool) (s : Rx) :
    Prop where
  countTicks : s.countTicks = 2 ^ k - 1
  active : s.rxFsm ≠ .idle
  fsmCase : ∀ rxDin, s.fsmCase lcreg rxDin s.rxFsm = .stop
  holds : s.Holds b (wordLen lcreg)
  parityBit : pen lcreg = true → s.parityBit = par
  settled : s.Settled lcreg

theorem InData.lastBit (h : InData k lcreg b (wordLen lcreg) s) : s.lastBit lcreg = true := by
  have hpos : 0 < wordLen lcreg := by unfold wordLen; omega
  rw [lastBit_ofNat hpos (wordLen_le lcreg) h.countBits, decide_eq_true rfl]

/-- Without parity the stop bit follows the data bits. -/
theorem InData.beforeStop (h : InData k lcreg b (wordLen lcreg) s) (hpen : pen lcreg = false)
    (par : Bool) : BeforeStop k lcreg b par s := by
  constructor
  case countTicks => exact h.countTicks
  case active =>
    rw [h.rxFsm]
    decide
  case fsmCase =>
    intro rxDin
    simp [Rx.fsmCase, h.rxFsm, h.lastBit, hpen]
  case holds => exact h.holds
  case parityBit =>
    intro htrue
    exact absurd htrue (by simp [hpen])
  case settled => exact h.settled

theorem InData.feed_parityBit (hk : 3 ≤ k) (h : InData k lcreg b (wordLen lcreg) s)
    (hpen : pen lcreg = true) {par : Bool} (hticks : IsBit (2 ^ k) par ticks) :
    BeforeStop k lcreg b par (feed (tick k lcreg) s ticks) ∧
      shown (Rx.present (2 ^ k) lcreg) (tick k lcreg) s ticks = [] := by
  have hcase : s.fsmCase lcreg par s.rxFsm = .parity := by
    simp [Rx.fsmCase, h.rxFsm, h.lastBit, hpen]
  obtain ⟨hbit, hshown⟩ := feed_bit hk h.settled h.countTicks
    (initCt_of_ne_idle (by rw [h.rxFsm]; decide) _) hcase (by decide) hticks
  refine ⟨?_, hshown⟩
  constructor
  case countTicks => exact hbit.countTicks
  case active =>
    rw [hbit.rxFsm]
    decide
  case fsmCase =>
    intro rxDin
    rw [Rx.fsmCase, hbit.rxFsm]
  case holds =>
    intro i hi
    rw [hbit.rsr]
    exact h.holds i hi
  case parityBit => exact fun _ ↦ hbit.parityBit
  case settled => exact hbit.settled

/-- The parity bit, if there is one. -/
theorem InData.feed_parity (hk : 3 ≤ k) (h : InData k lcreg b (wordLen lcreg) s) {par : Bool}
    (hticks : Carries (IsBit (2 ^ k)) (if pen lcreg then some par else none).toList ticks) :
    BeforeStop k lcreg b par (feed (tick k lcreg) s ticks) ∧
      shown (Rx.present (2 ^ k) lcreg) (tick k lcreg) s ticks = [] := by
  cases hpen : pen lcreg with
  | false =>
    rw [hpen] at hticks
    obtain rfl := carries_nil_iff.mp hticks
    exact ⟨h.beforeStop hpen par, rfl⟩
  | true =>
    rw [hpen, if_pos rfl, Option.toList_some, carries_singleton_iff] at hticks
    exact h.feed_parityBit hk hpen hticks

/-- The word that a character stands for: its data bits, and whether its parity bit is wrong. -/
def wordOf (lcreg : BitVec 8) (b : BitVec 8) (par : Bool) : RxOut where
  errF := false
  errP := pen lcreg && xor ((parityKind lcreg).bit (lowBits (wordLen lcreg) b)) par
  sout := masked lcreg b

/-- The stop bit presents the word, with a framing error if it is low. -/
theorem BeforeStop.feed_stop {par stop : Bool} (hk : 3 ≤ k) (h : BeforeStop k lcreg b par s)
    (hticks : IsBit (2 ^ k) stop ticks) :
    Armed k lcreg (feed (tick k lcreg) s ticks) ∧ (feed (tick k lcreg) s ticks).rxFsm = .stop ∧
      shown (Rx.present (2 ^ k) lcreg) (tick k lcreg) s ticks =
        [{ wordOf lcreg b par with errF := !stop }] := by
  obtain ⟨hbit, hshown⟩ := feed_bit hk h.settled h.countTicks
    (initCt_of_ne_idle h.active stop) (h.fsmCase stop) (by decide) hticks
  refine ⟨⟨hbit.countTicks, .inr hbit.rxFsm, hbit.settled⟩, hbit.rxFsm, ?_⟩
  rw [hshown, if_pos rfl, h.holds.parityVal, h.holds.sout, wordOf]
  cases hpen : pen lcreg with
  | false => rfl
  | true => rw [h.parityBit hpen]

/-- A character up to its first stop bit, with any bit in the parity position. -/
def charLine (ticksNum : Nat) (lcreg : BitVec 8) (b : BitVec 8) (par : Bool) : List Bool :=
  stretch ticksNum ((lineFormat lcreg).levels b (if pen lcreg then some par else none) ++ [true])

theorem charLine_eq (n : Nat) (b : BitVec 8) (par : Bool) :
    charLine n lcreg b par =
      List.replicate n false ++ (stretch n (lowBits (wordLen lcreg) b) ++
        (stretch n (if pen lcreg then some par else none).toList ++ List.replicate n true)) := by
  rw [charLine, stretch_append, LineFormat.levels, stretch_cons, stretch_append,
    stretch_singleton, List.append_assoc, List.append_assoc]
  rfl

/-- The levels of a character up to its first stop bit, with any bit in the parity position and any
stop bit. -/
def charLevels (lcreg : BitVec 8) (b : BitVec 8) (par stop : Bool) : List Bool :=
  (lineFormat lcreg).levels b (if pen lcreg then some par else none) ++ [stop]

/-- A character fed to a receiver that waits gives its word, and the receiver waits again. -/
theorem Armed.feed_char (hk : 3 ≤ k) (h : Armed k lcreg s) {par stop : Bool}
    (hticks : Carries (IsBit (2 ^ k)) (charLevels lcreg b par stop) ticks) :
    Armed k lcreg (feed (tick k lcreg) s ticks) ∧ (feed (tick k lcreg) s ticks).rxFsm = .stop ∧
      shown (Rx.present (2 ^ k) lcreg) (tick k lcreg) s ticks =
        [{ wordOf lcreg b par with errF := !stop }] := by
  have hpos : 0 < wordLen lcreg := by unfold wordLen; omega
  obtain ⟨rest, stopTicks, rfl, hrest, hstop⟩ := hticks.of_append
  obtain ⟨startTicks, rest, rfl, hstart, hrest⟩ := hrest.of_cons
  obtain ⟨dataTicks, parityTicks, rfl, hdata, hparity⟩ := hrest.of_append
  obtain ⟨hafter, hnone⟩ := h.feed_start hk hstart
  obtain ⟨hin, hnone'⟩ := hafter.feed_lowBits hk hpos le_rfl hdata
  obtain ⟨hbefore, hnone''⟩ := hin.feed_parity hk hparity
  obtain ⟨harmed, hfsm, hword⟩ := hbefore.feed_stop hk (carries_singleton_iff.mp hstop)
  simp only [feed_append, shown_append, hnone, hnone', hnone'', hword]
  exact ⟨harmed, hfsm, rfl⟩

/-- A character without noise. -/
theorem Armed.feed_charLine (hk : 3 ≤ k) (h : Armed k lcreg s) (b : BitVec 8) (par : Bool) :
    Armed k lcreg (feed (tick k lcreg) s (charLine (2 ^ k) lcreg b par)) ∧
      (feed (tick k lcreg) s (charLine (2 ^ k) lcreg b par)).rxFsm = .stop ∧
      shown (Rx.present (2 ^ k) lcreg) (tick k lcreg) s (charLine (2 ^ k) lcreg b par) =
        [wordOf lcreg b par] :=
  h.feed_char hk (carries_stretch (isBit_replicate (Nat.two_pow_pos k)) _)

/-! ## Idle ticks -/

variable (k lcreg) in
/-- An idle tick in the idle state arms the receiver. -/
theorem armed_tick (hfsm : s.rxFsm = .idle) :
    Armed k lcreg (tick k lcreg true s) ∧ (tick k lcreg true s).rxFsm = .idle := by
  have hinit : s.initCt true = false := by rw [initCt, hfsm]; rfl
  have hnext : s.countNext (2 ^ k) true = 2 ^ k - 1 := countNext_of_idle hinit
  have hidle : (tick k lcreg true s).rxFsm = .idle := by
    show (if _ then s.latch lcreg true else s.rxFsm) = .idle
    rw [latch, fsmCase, hfsm]
    exact ite_self _
  exact ⟨⟨hnext, .inl hidle, settled_of_idle hidle⟩, hidle⟩

/-- Nothing is presented in the idle state. -/
theorem present_of_idle (h : s.rxFsm = .idle) (ticksNum : Nat) :
    s.present ticksNum lcreg = none := by
  rw [Rx.present, rxDone, h]
  rfl

variable (k) in
/-- Idle ticks in the idle state present nothing. -/
theorem shown_idle (hfsm : s.rxFsm = .idle) (g : Nat) :
    shown (Rx.present (2 ^ k) lcreg) (tick k lcreg) s (List.replicate g true) = [] := by
  induction g generalizing s with
  | zero => rfl
  | succ g ih =>
    obtain ⟨-, hidle⟩ := armed_tick k lcreg hfsm
    rw [List.replicate_succ, shown, present_of_idle hidle, ih hidle]
    rfl

/-- Any number of idle ticks in the idle state. -/
theorem Armed.feed_idle (h : Armed k lcreg s) (hfsm : s.rxFsm = .idle) (g : Nat) :
    Armed k lcreg (feed (tick k lcreg) s (List.replicate g true)) ∧
      shown (Rx.present (2 ^ k) lcreg) (tick k lcreg) s (List.replicate g true) = [] := by
  refine ⟨?_, shown_idle k hfsm g⟩
  induction g generalizing s with
  | zero => exact h
  | succ g ih =>
    obtain ⟨harmed, hidle⟩ := armed_tick k lcreg hfsm
    exact ih harmed hidle

/-- The first idle tick after a stop bit: the receiver is idle, with its tick counter at 0. -/
theorem Armed.tick_stop (hk : 3 ≤ k) (h : Armed k lcreg s) (hfsm : s.rxFsm = .stop) :
    (tick k lcreg true s).rxFsm = .idle ∧ (tick k lcreg true s).countTicks = 0 := by
  have hpow : 2 ^ 3 ≤ 2 ^ k := Nat.pow_le_pow_right (by decide) hk
  have hc := h.countTicks
  have hinit : s.initCt true = true := initCt_of_ne_idle (by rw [hfsm]; decide) true
  have hnext : s.countNext (2 ^ k) true = 0 := countNext_wrap hinit (by omega)
  have hrise : s.firstRise (2 ^ k) true = true := by
    rw [firstRise, hnext, hc, Bool.and_eq_true, bne_iff_ne]
    exact ⟨by omega, rfl⟩
  refine ⟨?_, hnext⟩
  have hlatch : (tick k lcreg true s).rxFsm = s.fsmCase lcreg true s.rxFsm :=
    (if_pos hrise).trans (h.settled true)
  rw [hlatch, fsmCase, hfsm]
  rfl

/-- Idle ticks after a stop bit present nothing, and unless there is exactly one of them the
receiver waits for the next start bit. -/
theorem Armed.feed_gap (hk : 3 ≤ k) (h : Armed k lcreg s) (g : Nat) :
    shown (Rx.present (2 ^ k) lcreg) (tick k lcreg) s (List.replicate g true) = [] ∧
      (g ≠ 1 → Armed k lcreg (feed (tick k lcreg) s (List.replicate g true))) := by
  rcases h.rxFsm with hfsm | hfsm
  · obtain ⟨harmed, hnone⟩ := h.feed_idle hfsm g
    exact ⟨hnone, fun _ ↦ harmed⟩
  · obtain ⟨hidle, -⟩ := h.tick_stop hk hfsm
    match g with
    | 0 => exact ⟨rfl, fun _ ↦ h⟩
    | g + 1 =>
      refine ⟨?_, fun hne ↦ ?_⟩
      · rw [List.replicate_succ, shown, present_of_idle hidle, shown_idle k hidle]
        rfl
      · -- the second idle tick arms the receiver
        obtain ⟨m, rfl⟩ : ∃ m, g = m + 1 := ⟨g - 1, by omega⟩
        obtain ⟨harmed, hidle'⟩ := armed_tick k lcreg hidle
        exact (harmed.feed_idle hidle' m).1

end RtlCores.Uart.Rx
