import RtlCores.Lib.Bits

/-!
# Clock divider (`modules/clock_divider.sv`)

A counter from 1 to the divisor that toggles the output at the divisor and at half of it.  A
divisor of 1 passes the input clock through, and without a divisor the output is constant.
-/

namespace RtlCores.Modules

/-- The registers of `clock_divider`; `w` is `DIV_WIDTH`. -/
structure ClockDivider (w : Nat) where
  counter : BitVec w
  baudOut : Bool

namespace ClockDivider

variable {w : Nat} (fixedPhase fixedPol clkIn : Bool) (div : BitVec w) (s : ClockDivider w)

def dlmSet : Bool := div.extractLsb' 8 (w - 8) != 0

def dllSet : Bool := div.extractLsb' 1 7 != 0

def cycleFull : Bool := s.counter == div

def halfCycle : Bool := s.counter == div >>> 1

def switchClk : Bool := s.cycleFull div || s.halfCycle div

/-- The level of `clk_out`. -/
def clkOut : Bool :=
  if dlmSet div || dllSet div then s.baudOut
  else if div.getLsbD 0 then clkIn
  else fixedPol

/-- The registers while `res` is high. -/
def load : ClockDivider w where
  counter := (BitVec.ofBool (!fixedPhase)).setWidth w
  baudOut := fixedPol

/-- The registers after a posedge of `clk_in` with `res` low. -/
def clock : ClockDivider w where
  counter := if s.cycleFull div then 1 else s.counter + 1
  baudOut := if s.switchClk div then !s.baudOut else s.baudOut

/-! ## The output clock -/

variable {fixedPol clkIn div s}

/-- A divisor of at least 2. -/
theorem dlmSet_or_dllSet_iff : (dlmSet div || dllSet div) = true ↔ 2 ≤ div.toNat := by
  have hlt := div.isLt
  have hupper : div.toNat / 256 < 2 ^ (w - 8) := by
    rw [Nat.div_lt_iff_lt_mul (by decide)]
    refine lt_of_lt_of_le hlt ?_
    rw [show 256 = 2 ^ 8 from rfl, ← Nat.pow_add]
    exact Nat.pow_le_pow_right (by decide) (by omega)
  have hzero (n : Nat) : (0 : BitVec n).toNat = 0 := Nat.zero_mod _
  have hdlm : dlmSet div = true ↔ div.toNat / 256 ≠ 0 := by
    rw [dlmSet, bne_iff_ne, ne_eq, ← BitVec.toNat_inj, BitVec.extractLsb'_toNat,
      Nat.shiftRight_eq_div_pow, hzero, show 2 ^ 8 = 256 from rfl, Nat.mod_eq_of_lt hupper]
  have hdll : dllSet div = true ↔ div.toNat / 2 % 128 ≠ 0 := by
    rw [dllSet, bne_iff_ne, ne_eq, ← BitVec.toNat_inj, BitVec.extractLsb'_toNat,
      Nat.shiftRight_eq_div_pow, hzero]
  rw [Bool.or_eq_true, hdlm, hdll]
  omega

theorem clkOut_of_two_le (h : 2 ≤ div.toNat) : s.clkOut fixedPol clkIn div = s.baudOut := by
  rw [clkOut, if_pos (dlmSet_or_dllSet_iff.mpr h)]

theorem clkOut_of_eq_one (h : div.toNat = 1) : s.clkOut fixedPol clkIn div = clkIn := by
  have hnot : ¬(dlmSet div || dllSet div) = true := by
    rw [dlmSet_or_dllSet_iff]
    omega
  have hbit : div.getLsbD 0 = true := by
    rw [BitVec.getLsbD, h]
    rfl
  rw [clkOut, if_neg hnot, if_pos hbit]

theorem clkOut_of_eq_zero (h : div.toNat = 0) : s.clkOut fixedPol clkIn div = fixedPol := by
  have hnot : ¬(dlmSet div || dllSet div) = true := by
    rw [dlmSet_or_dllSet_iff]
    omega
  have hbit : ¬div.getLsbD 0 = true := by
    rw [BitVec.getLsbD, h]
    decide
  rw [clkOut, if_neg hnot, if_neg hbit]

theorem cycleFull_iff : s.cycleFull div = true ↔ s.counter.toNat = div.toNat := by
  rw [cycleFull, beq_iff_eq, BitVec.toNat_inj]

theorem halfCycle_iff : s.halfCycle div = true ↔ s.counter.toNat = div.toNat / 2 := by
  rw [halfCycle, beq_iff_eq, ← BitVec.toNat_inj, BitVec.toNat_ushiftRight,
    Nat.shiftRight_eq_div_pow, Nat.pow_one]

/-- The counter runs up to the divisor and starts again at 1. -/
theorem toNat_clock_counter (h : 2 ≤ div.toNat) (hle : s.counter.toNat ≤ div.toNat) :
    (s.clock div).counter.toNat =
      if s.counter.toNat = div.toNat then 1 else s.counter.toNat + 1 := by
  have hlt := div.isLt
  have hone : (1 : BitVec w).toNat = 1 := by
    show 1 % 2 ^ w = 1
    exact Nat.mod_eq_of_lt (by omega)
  show (if s.cycleFull div then 1 else s.counter + 1).toNat = _
  by_cases hfull : s.counter.toNat = div.toNat
  · rw [if_pos (cycleFull_iff.mpr hfull), if_pos hfull, hone]
  · rw [if_neg (mt cycleFull_iff.mp hfull), if_neg hfull, BitVec.toNat_add, hone,
      Nat.mod_eq_of_lt (by omega)]

/-- The output toggles in the middle and at the end of a cycle. -/
theorem clock_baudOut :
    (s.clock div).baudOut =
      (decide (s.counter.toNat = div.toNat ∨ s.counter.toNat = div.toNat / 2) ^^ s.baudOut) := by
  have hswitch : s.switchClk div =
      decide (s.counter.toNat = div.toNat ∨ s.counter.toNat = div.toNat / 2) := by
    rw [Bool.eq_iff_iff, switchClk, Bool.or_eq_true, cycleFull_iff, halfCycle_iff,
      decide_eq_true_iff]
  show (if s.switchClk div then !s.baudOut else s.baudOut) = _
  rw [hswitch]
  by_cases h : s.counter.toNat = div.toNat ∨ s.counter.toNat = div.toNat / 2
  · rw [decide_eq_true h, if_pos rfl, Bool.true_xor]
  · rw [decide_eq_false h, if_neg Bool.false_ne_true, Bool.false_xor]

/-! ## The two branches of `generate` -/

/-- A divisor of at most 7 bits has no upper byte, and all bits but the lowest are in the lower. -/
theorem dlmSet_of_lt (hw : w < 8) : dlmSet div = false := by
  have hzero : w - 8 = 0 := by omega
  rw [dlmSet, bne_eq_false_iff_eq, ← BitVec.toNat_inj, BitVec.extractLsb'_toNat, hzero]
  exact Nat.mod_one _

theorem dllSet_of_lt (hw : w < 8) : dllSet div = (div.extractLsb' 1 (w - 1) != 0) := by
  have hlt := div.isLt
  have hpow : 2 ^ w ≤ 2 * 2 ^ (w - 1) := by
    rw [← Nat.pow_succ']
    exact Nat.pow_le_pow_right (by decide) (by omega)
  have hseven : 2 ^ (w - 1) ≤ 2 ^ 7 := Nat.pow_le_pow_right (by decide) (by omega)
  have hzero (n : Nat) : (0 : BitVec n).toNat = 0 := Nat.zero_mod _
  rw [dllSet, Bool.eq_iff_iff, bne_iff_ne, bne_iff_ne, ne_eq, ne_eq, ← BitVec.toNat_inj,
    ← BitVec.toNat_inj, BitVec.extractLsb'_toNat, BitVec.extractLsb'_toNat, hzero, hzero,
    Nat.shiftRight_eq_div_pow, Nat.mod_eq_of_lt (by omega), Nat.mod_eq_of_lt (by omega)]

/-! ## The waveform -/

variable (fixedPol div) in
/-- The registers after `t` posedges of `clk_in` since the release of `res`. -/
def after (t : Nat) : ClockDivider w := (clock div)^[t] (load fixedPhase fixedPol)

variable (fixedPol clkIn div) in
/-- The level of `clk_out` then. -/
def level (t : Nat) : Bool := (after fixedPhase fixedPol div t).clkOut fixedPol clkIn div

variable {fixedPhase}

theorem after_succ (t : Nat) :
    after fixedPhase fixedPol div (t + 1) = (after fixedPhase fixedPol div t).clock div :=
  Function.iterate_succ_apply' _ _ _

/-- The phase of a cycle of `d` clocks moves on by one. -/
theorem succ_mod_eq {d : Nat} (hd : 0 < d) (t : Nat) :
    (t + 1) % d = if t % d + 1 = d then 0 else t % d + 1 := by
  have hlt := Nat.mod_lt t hd
  rw [← Nat.mod_add_mod]
  split
  case isTrue h => rw [h, Nat.mod_self]
  case isFalse h => exact Nat.mod_eq_of_lt (by omega)

theorem toNat_load (h : 2 ≤ div.toNat) :
    (load fixedPhase fixedPol : ClockDivider w).counter.toNat = (!fixedPhase).toNat := by
  have hlt := div.isLt
  have hbit := (!fixedPhase).toNat_lt
  show ((BitVec.ofBool (!fixedPhase)).setWidth w).toNat = _
  rw [BitVec.toNat_setWidth, BitVec.toNat_ofBool]
  exact Nat.mod_eq_of_lt (by omega)

/-- Without the delay of one clock the counter is one ahead of the phase of the cycle. -/
theorem toNat_counter_after (h : 2 ≤ div.toNat) (t : Nat) :
    (after false fixedPol div t).counter.toNat = t % div.toNat + 1 := by
  induction t with
  | zero =>
    rw [Nat.zero_mod]
    exact toNat_load h
  | succ t ih =>
    have hlt := Nat.mod_lt t (by omega : 0 < div.toNat)
    rw [after_succ, toNat_clock_counter h (by omega), ih, succ_mod_eq (by omega)]
    split <;> rfl

theorem baudOut_after (h : 2 ≤ div.toNat) (t : Nat) :
    (after false fixedPol div t).baudOut =
      if t % div.toNat < div.toNat / 2 then fixedPol else !fixedPol := by
  induction t with
  | zero =>
    rw [Nat.zero_mod, if_pos (by omega)]
    rfl
  | succ t ih =>
    have hlt := Nat.mod_lt t (by omega : 0 < div.toNat)
    rw [after_succ, clock_baudOut, toNat_counter_after h, ih, succ_mod_eq (by omega)]
    -- the phase goes on within one half of the cycle, or a half ends
    by_cases hfull : t % div.toNat + 1 = div.toNat
    · rw [decide_eq_true (.inl hfull), if_neg (by omega), if_pos hfull, if_pos (by omega),
        Bool.true_xor, Bool.not_not]
    · by_cases hhalf : t % div.toNat + 1 = div.toNat / 2
      · rw [decide_eq_true (.inr hhalf), if_pos (by omega), if_neg hfull, if_neg (by omega),
          Bool.true_xor]
      · rw [decide_eq_false (by omega), Bool.false_xor, if_neg hfull]
        exact if_congr (by omega) rfl rfl

/-- The counter starts from 0 with `phase` high: the first clock only brings it to 1. -/
theorem clock_load (h : 2 ≤ div.toNat) : (load true fixedPol).clock div = load false fixedPol := by
  have hzero : (load true fixedPol : ClockDivider w).counter.toNat = 0 := toNat_load h
  have hone : (load false fixedPol : ClockDivider w).counter.toNat = 1 := toNat_load h
  have hcounter : ((load true fixedPol).clock div).counter = (load false fixedPol).counter := by
    apply BitVec.eq_of_toNat_eq
    rw [toNat_clock_counter h (by omega), hzero, if_neg (by omega), hone]
  have hbaud : ((load true fixedPol).clock div).baudOut = fixedPol := by
    rw [clock_baudOut, hzero, decide_eq_false (by omega)]
    exact Bool.false_xor _
  exact congrArg₂ ClockDivider.mk hcounter hbaud

theorem after_phase (h : 2 ≤ div.toNat) (t : Nat) :
    after true fixedPol div (t + 1) = after false fixedPol div t := by
  rw [after, Function.iterate_succ_apply, clock_load h, after]

/-- A wave of `d` clocks that is high for the first half has no period but the multiples of `d`. -/
theorem dvd_of_wave {d p : Nat} (h : 2 ≤ d)
    (hp : ∀ t, ((t + p) % d < d / 2 ↔ t % d < d / 2)) : d ∣ p := by
  by_contra hne
  have hpos : p % d ≠ 0 := mt Nat.dvd_of_mod_eq_zero hne
  have hlt := Nat.mod_lt p (by omega : 0 < d)
  -- where the shifted wave starts, the wave itself is in its first half
  have hstart := hp (d - p % d)
  have hzero : (d - p % d + p) % d = 0 := by
    rw [Nat.add_mod, Nat.mod_eq_of_lt (by omega : d - p % d < d), Nat.sub_add_cancel hlt.le,
      Nat.mod_self]
  rw [hzero, Nat.mod_eq_of_lt (by omega : d - p % d < d)] at hstart
  have hearly : d - p % d < d / 2 := hstart.mp (by omega)
  -- so where the second half of the wave begins, the shifted wave has started again
  have hhalf := hp (d / 2)
  have hlate : (d / 2 + p) % d = d / 2 + p % d - d := by
    rw [← Nat.add_mod_mod, Nat.mod_eq_sub_mod (by omega), Nat.mod_eq_of_lt (by omega)]
  rw [hlate, Nat.mod_eq_of_lt (by omega : d / 2 < d)] at hhalf
  exact absurd (hhalf.mp (by omega)) (lt_irrefl _)

/-- What the divider makes of a divisor of at least 2.  With `phase` high the first clock shows the
value of `polarity`, and the waveform starts with the second. -/
structure Divides (fixedPol : Bool) (div : BitVec w) : Prop where
  waveform : ∀ clkIn t, level false fixedPol clkIn div t =
    if t % div.toNat < div.toNat / 2 then fixedPol else !fixedPol
  start : ∀ clkIn, level true fixedPol clkIn div 0 = fixedPol
  delayed : ∀ clkIn t, level true fixedPol clkIn div (t + 1) = level false fixedPol clkIn div t
  /-- The periods of the waveform are the multiples of the divisor. -/
  period : ∀ fixedPhase clkIn p,
    (∀ t, level fixedPhase fixedPol clkIn div (t + p + fixedPhase.toNat) =
      level fixedPhase fixedPol clkIn div (t + fixedPhase.toNat)) ↔ div.toNat ∣ p
  counter_le : ∀ fixedPhase t, (after fixedPhase fixedPol div t).counter.toNat ≤ div.toNat

/-- The waveform with either value of `phase`. -/
theorem level_add_phase (h : 2 ≤ div.toNat) (t : Nat) :
    level fixedPhase fixedPol clkIn div (t + fixedPhase.toNat) =
      if t % div.toNat < div.toNat / 2 then fixedPol else !fixedPol := by
  rw [level, clkOut_of_two_le h, ← baudOut_after h]
  cases fixedPhase with
  | false => rfl
  | true => exact congrArg baudOut (after_phase h t)

theorem counter_after_le (h : 2 ≤ div.toNat) (t : Nat) :
    (after fixedPhase fixedPol div t).counter.toNat ≤ div.toNat := by
  have hplain : ∀ t, (after false fixedPol div t).counter.toNat ≤ div.toNat := by
    intro t
    rw [toNat_counter_after h]
    exact Nat.mod_lt t (by omega)
  cases fixedPhase with
  | false => exact hplain t
  | true =>
    cases t with
    | zero =>
      have hload : (load true fixedPol : ClockDivider w).counter.toNat = 0 := toNat_load h
      exact hload.le.trans (Nat.zero_le _)
    | succ t =>
      rw [after_phase h]
      exact hplain t

theorem ite_not_inj {p q : Prop} [Decidable p] [Decidable q] (b : Bool) :
    (if p then b else !b) = (if q then b else !b) ↔ (p ↔ q) := by
  by_cases hp : p <;> by_cases hq : q <;> simp [hp, hq]

theorem level_period_iff (h : 2 ≤ div.toNat) (p : Nat) :
    (∀ t, level fixedPhase fixedPol clkIn div (t + p + fixedPhase.toNat) =
      level fixedPhase fixedPol clkIn div (t + fixedPhase.toNat)) ↔ div.toNat ∣ p := by
  simp only [level_add_phase h, ite_not_inj]
  constructor
  · exact dvd_of_wave h
  · rintro ⟨m, rfl⟩ t
    rw [Nat.add_mul_mod_self_left]

theorem divides_of_two_le (h : 2 ≤ div.toNat) : Divides fixedPol div := by
  constructor
  case waveform => exact fun _ ↦ level_add_phase h
  case start =>
    intro clkIn
    rw [level, clkOut_of_two_le h]
    rfl
  case delayed =>
    intro clkIn t
    rw [level, after_phase h, level]
  case period => exact fun _ _ ↦ level_period_iff h
  case counter_le => exact fun _ ↦ counter_after_le h

/-- `clock_divider` for every divisor: it divides by two or more, passes the clock through, or
holds its output. -/
theorem clock_divider_level (fixedPol : Bool) (div : BitVec w) :
    (2 ≤ div.toNat → Divides fixedPol div) ∧
      (div.toNat = 1 → ∀ fixedPhase clkIn t, level fixedPhase fixedPol clkIn div t = clkIn) ∧
      (div.toNat = 0 → ∀ fixedPhase clkIn t, level fixedPhase fixedPol clkIn div t = fixedPol) :=
  ⟨divides_of_two_le, fun h _ _ _ ↦ clkOut_of_eq_one h, fun h _ _ _ ↦ clkOut_of_eq_zero h⟩

/-! ## Any state of the counter -/

/-- The counter finds the divisor, wherever it starts. -/
theorem exists_cycleFull (div : BitVec w) (s : ClockDivider w) :
    ∃ k, ((clock div)^[k] s).cycleFull div = true := by
  induction hdist : (div - s.counter).toNat generalizing s with
  | zero =>
    refine ⟨0, beq_iff_eq.mpr ?_⟩
    exact (sub_eq_zero.mp (BitVec.toNat_inj.mp hdist)).symm
  | succ n ih =>
    have hnot : s.cycleFull div = false := by
      rw [cycleFull, beq_eq_false_iff_ne]
      rintro rfl
      rw [sub_self] at hdist
      exact absurd hdist (Nat.succ_ne_zero n).symm
    have hnext : (div - (s.clock div).counter).toNat = n := by
      show (div - (if s.cycleFull div then 1 else s.counter + 1)).toNat = n
      have hlt := (div - s.counter).isLt
      have hone : (1 : BitVec w).toNat = 1 := by
        show 1 % 2 ^ w = 1
        exact Nat.mod_eq_of_lt (by omega)
      rw [hnot, if_neg Bool.false_ne_true, ← sub_sub, BitVec.toNat_sub_of_le]
      · rw [hdist, hone, Nat.add_sub_cancel]
      · rw [BitVec.le_def, hone, hdist]
        exact Nat.succ_le_succ (Nat.zero_le n)
    obtain ⟨k, hk⟩ := ih (s.clock div) hnext
    exact ⟨k + 1, hk⟩

theorem clock_of_cycleFull (h : s.cycleFull div = true) (hdiv : 2 ≤ div.toNat) :
    s.clock div = load false (!s.baudOut) := by
  have hone : (load false (!s.baudOut) : ClockDivider w).counter = 1 := by
    apply BitVec.eq_of_toNat_eq
    have hlt := div.isLt
    rw [toNat_load hdiv]
    show 1 = 1 % 2 ^ w
    exact (Nat.mod_eq_of_lt (by omega)).symm
  rw [clock, switchClk, h, Bool.true_or, if_pos rfl, if_pos rfl, ← hone]
  rfl

/-- The waveform falls and rises again. -/
theorem exists_rise_after (h : 2 ≤ div.toNat) (p : Bool) :
    ∃ k, (after false p div k).baudOut = false ∧ (after false p div (k + 1)).baudOut = true := by
  cases p with
  | false =>
    refine ⟨div.toNat / 2 - 1, ?_, ?_⟩
    · rw [baudOut_after h, Nat.mod_eq_of_lt (by omega), if_pos (by omega)]
    · rw [baudOut_after h, Nat.sub_add_cancel (by omega), Nat.mod_eq_of_lt (by omega),
        if_neg (by omega)]
      rfl
  | true =>
    refine ⟨div.toNat - 1, ?_, ?_⟩
    · rw [baudOut_after h, Nat.mod_eq_of_lt (by omega), if_neg (by omega)]
      rfl
    · rw [baudOut_after h, Nat.sub_add_cancel (by omega), Nat.mod_self, if_pos (by omega)]

/-- With a divisor, the output clock rises some time, whatever the registers hold. -/
theorem exists_rise (h : div.toNat ≠ 0) (fixedPol : Bool) (s : ClockDivider w) :
    ∃ k, ((clock div)^[k] s).clkOut fixedPol false div = false ∧
      ((clock div)^[k + 1] s).clkOut fixedPol true div = true := by
  by_cases hone : div.toNat = 1
  · exact ⟨0, clkOut_of_eq_one hone, clkOut_of_eq_one hone⟩
  have htwo : 2 ≤ div.toNat := by omega
  obtain ⟨m, hm⟩ := exists_cycleFull div s
  obtain ⟨k, hlow, hhigh⟩ := exists_rise_after htwo (!((clock div)^[m] s).baudOut)
  have hafter : ∀ t, (clock div)^[t + (m + 1)] s =
      after false (!((clock div)^[m] s).baudOut) div t := by
    intro t
    rw [Function.iterate_add_apply, Function.iterate_succ_apply', clock_of_cycleFull hm htwo, after]
  refine ⟨k + (m + 1), ?_, ?_⟩
  · rw [clkOut_of_two_le htwo, hafter, hlow]
  · rw [clkOut_of_two_le htwo, Nat.add_right_comm, hafter, hhigh]

end ClockDivider

end RtlCores.Modules
