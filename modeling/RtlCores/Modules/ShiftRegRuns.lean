import RtlCores.Lib.Clocked
import RtlCores.Modules.ShiftReg

/-!
# Runs of the shift registers (`modules/shift_reg.v`)

The two builds of `shift_reg` are the same function, and over a run it is a delay line of `n` bits.
The two builds of `shift_reg_msb` agree as long as none of them shifts while its bits 0 and 1
differ.
-/

namespace RtlCores.Modules

open RtlCores.Lib

variable {n : Nat}

/-! ## Lowest bit first -/

/-- The bits of a word in the order in which they leave at the bottom. -/
def lsbBits (v : BitVec n) : List Bool := (List.range n).map v.getLsbD

@[simp] theorem length_lsbBits (v : BitVec n) : (lsbBits v).length = n := by
  rw [lsbBits, List.length_map, List.length_range]

theorem getElem?_lsbBits (v : BitVec n) {j : Nat} (hj : j < n) :
    (lsbBits v)[j]? = some (v.getLsbD j) := by
  rw [lsbBits, List.getElem?_map, List.getElem?_range hj]
  rfl

/-- The serial inputs of the enabled clocks among the first `m`. -/
def serialIn (is : Nat → ShiftRegPeriod n) : Nat → List Bool
  | 0 => []
  | m + 1 => serialIn is m ++ if (is m).en then [(is m).din] else []

theorem serialIn_of_en {is : Nat → ShiftRegPeriod n} {m : Nat} (h : (is m).en = true) :
    serialIn is (m + 1) = serialIn is m ++ [(is m).din] := by
  rw [serialIn, if_pos h]

theorem serialIn_of_not_en {is : Nat → ShiftRegPeriod n} {m : Nat} (h : (is m).en = false) :
    serialIn is (m + 1) = serialIn is m := by
  simp [serialIn, h]

/-- The register holds the `n` bits of a string from position `k` on. -/
def Holds (bits : List Bool) (k : Nat) (dout : BitVec n) : Prop :=
  ∀ j < n, bits[k + j]? = some (dout.getLsbD j)

theorem holds_lsbBits (v : BitVec n) : Holds (lsbBits v) 0 v := by
  intro j hj
  rw [Nat.zero_add]
  exact getElem?_lsbBits v hj

/-- A shift moves on by one position in the string, to which the serial input is appended. -/
theorem Holds.shift {bits : List Bool} {k : Nat} {dout : BitVec n} (h : Holds bits k dout)
    (hlen : bits.length = k + n) {i : ShiftRegIn n} (hl : i.loadEn = false) (he : i.en = true) :
    Holds (bits ++ [i.din]) (k + 1) (ShiftReg.clock i dout) := by
  intro j hj
  by_cases hjn : j + 1 < n
  · have hlt : k + 1 + j < bits.length := by omega
    rw [List.getElem?_append_left hlt, ShiftReg.getLsbD_clock_shift dout hl he hjn,
      show k + 1 + j = k + (j + 1) by omega]
    exact h (j + 1) hjn
  · obtain rfl : j = n - 1 := by omega
    have hend : k + 1 + (n - 1) = bits.length := by omega
    rw [ShiftReg.getLsbD_clock_top dout hl he (by omega), hend, List.getElem?_concat_length]

/-- The periods of a run in which nothing is reset or loaded. -/
def OnlyShifts (is : Nat → ShiftRegPeriod n) : Prop :=
  ∀ m, (is m).resN = true ∧ (is m).resFell = false ∧ (is m).loadEn = false

theorem withReset_shift (step : ShiftRegIn n → BitVec n → BitVec n)
    {is : Nat → ShiftRegPeriod n} (h : OnlyShifts is) (m : Nat) (dout : BitVec n) :
    withReset step (is m) dout = step (is m).toShiftRegIn dout := by
  obtain ⟨hres, hfell, -⟩ := h m
  simp [withReset, ShiftRegPeriod.held, hres, hfell]

theorem run_keep {is : Nat → ShiftRegPeriod n} (h : OnlyShifts is) (w : BitVec n) {m : Nat}
    (he : (is m).en = false) :
    run (withReset ShiftReg.clock) is w (m + 1) = run (withReset ShiftReg.clock) is w m := by
  rw [run_succ, withReset_shift _ h, ShiftReg.clock_keep _ (h m).2.2 he]

/-- A register that shifts, whenever it is enabled, is a delay line. -/
theorem holds_run {is : Nat → ShiftRegPeriod n} (h : OnlyShifts is) (w : BitVec n) (m : Nat) :
    Holds (lsbBits w ++ serialIn is m) (serialIn is m).length
      (run (withReset ShiftReg.clock) is w m) := by
  induction m with
  | zero =>
    rw [serialIn, List.append_nil]
    exact holds_lsbBits w
  | succ m ih =>
    cases he : (is m).en with
    | false =>
      rw [run_keep h w he, serialIn_of_not_en he]
      exact ih
    | true =>
      have hlen : (lsbBits w ++ serialIn is m).length = (serialIn is m).length + n := by
        rw [List.length_append, length_lsbBits, Nat.add_comm]
      rw [run_succ, withReset_shift _ h, serialIn_of_en he, ← List.append_assoc,
        List.length_append]
      exact ih.shift hlen (h m).2.2 he

theorem withReset_load {i : ShiftRegPeriod n} (hres : i.resN = true) (hl : i.loadEn = true)
    (dout : BitVec n) : withReset ShiftReg.clock i dout = i.load := by
  simp [withReset, hres, ShiftReg.clock_load _ hl]

/-- The builds of `shift_reg`. -/
def shiftRegBuilds : List (ShiftRegIn n → BitVec n → BitVec n) :=
  [ShiftReg.clock, ShiftReg.gateFlowOff]

theorem eq_clock_of_mem_builds {step : ShiftRegIn n → BitVec n → BitVec n}
    (h : step ∈ shiftRegBuilds) : step = ShiftReg.clock := by
  rcases List.mem_pair.mp h with rfl | rfl
  · rfl
  · funext i dout
    exact ShiftReg.gateFlowOff_eq_clock i dout

/-- Loaded, enabled or not, and clocked on without reset or load, both builds hold the bits of the
word followed by the serial inputs from position `k` on, `k` the number of enabled clocks.  The
serial output is the word, lowest bit first, and then the serial inputs `n` shifts late; a clock
that is not enabled changes nothing. -/
theorem shift_reg_delays (hn : 1 ≤ n) {step : ShiftRegIn n → BitVec n → BitVec n}
    (hstep : step ∈ shiftRegBuilds) {i : ShiftRegPeriod n} (hres : i.resN = true)
    (hload : i.loadEn = true) (q : BitVec n) {is : Nat → ShiftRegPeriod n} (his : OnlyShifts is)
    (m : Nat) :
    let ds := serialIn is m
    let dout := run (withReset step) is (withReset step i q) m
    Holds (lsbBits i.load ++ ds) ds.length dout ∧
      (ds.length < n → ShiftReg.doutN dout = i.load.getLsbD ds.length) ∧
      (n ≤ ds.length → ds[ds.length - n]? = some (ShiftReg.doutN dout)) ∧
      ((is m).en = false → run (withReset step) is (withReset step i q) (m + 1) = dout) := by
  intro ds dout
  have hclock := eq_clock_of_mem_builds hstep
  have hrun : dout = run (withReset ShiftReg.clock) is i.load m := by
    show run (withReset step) is (withReset step i q) m = _
    rw [hclock, withReset_load hres hload]
  have hholds : Holds (lsbBits i.load ++ ds) ds.length dout := by
    rw [hrun]
    exact holds_run his i.load m
  have hout : (lsbBits i.load ++ ds)[ds.length]? = some (ShiftReg.doutN dout) := hholds 0 hn
  refine ⟨hholds, ?_, ?_, ?_⟩
  · intro hlt
    rw [List.getElem?_append_left (by rw [length_lsbBits]; exact hlt), getElem?_lsbBits _ hlt]
      at hout
    exact (Option.some.inj hout).symm
  · intro hle
    rwa [List.getElem?_append_right (by rw [length_lsbBits]; exact hle), length_lsbBits] at hout
  · intro he
    rw [hrun, hclock, withReset_load hres hload]
    exact run_keep his i.load he

/-- Three clocks after 01 is loaded into two bits, while not enabled. -/
theorem shift_reg_delays_two :
    ShiftReg.doutN (run (withReset ShiftReg.gateFlowOff)
      (fun _ ↦ ⟨⟨true, true, false, 0⟩, true, false⟩)
      (withReset ShiftReg.gateFlowOff ⟨⟨false, false, true, 1#2⟩, true, false⟩ 2#2) 3) = true := by
  have hmem : ShiftReg.gateFlowOff ∈ (shiftRegBuilds : List (ShiftRegIn 2 → _)) :=
    List.mem_cons_of_mem _ List.mem_cons_self
  have hshifts : OnlyShifts fun _ ↦ (⟨⟨true, true, false, 0⟩, true, false⟩ : ShiftRegPeriod 2) :=
    fun _ ↦ ⟨rfl, rfl, rfl⟩
  have h := shift_reg_delays (by decide) hmem (i := ⟨⟨false, false, true, 1#2⟩, true, false⟩) rfl
    rfl 2 hshifts 3
  exact (Option.some.inj (h.2.2.1 (by decide))).symm

/-! ## Highest bit first -/

namespace ShiftRegMsb

/-- At this posedge the register shifts while its bits 0 and 1 differ. -/
def ShiftsUnequal (i : ShiftRegPeriod n) (dout : BitVec n) : Prop :=
  i.resN = true ∧ i.loadEn = false ∧ i.en = true ∧ 1 < n ∧
    (i.held dout).getLsbD 1 ≠ (i.held dout).getLsbD 0

instance (i : ShiftRegPeriod n) (dout : BitVec n) : Decidable (ShiftsUnequal i dout) :=
  inferInstanceAs (Decidable (_ ∧ _))

/-- Only bit 1 can go wrong in a shift. -/
theorem clock_eq_gateFlowOff_iff {i : ShiftRegIn n} (hl : i.loadEn = false) (he : i.en = true)
    (dout : BitVec n) :
    clock i dout = gateFlowOff i dout ↔ (1 < n → dout.getLsbD 1 = dout.getLsbD 0) := by
  rw [clock_shift dout hl he]
  constructor
  · intro h hn
    have hbit := getLsbD_gateFlowOff_shift dout hl he hn
    rw [← h, if_pos rfl, BitVec.getLsbD_shiftConcat, decide_eq_true hn, Bool.true_and] at hbit
    exact hbit.symm
  · intro h
    apply BitVec.eq_of_getLsbD_eq
    intro k hk
    rw [getLsbD_gateFlowOff_shift dout hl he hk]
    split
    · rename_i hk1
      subst hk1
      rw [BitVec.getLsbD_shiftConcat, decide_eq_true hk, Bool.true_and, h hk]
      rfl
    · rfl

theorem withReset_eq_iff (i : ShiftRegPeriod n) (dout : BitVec n) :
    withReset clock i dout = withReset gateFlowOff i dout ↔ ¬ShiftsUnequal i dout := by
  unfold ShiftsUnequal withReset
  cases i.resN with
  | false => simp
  | true =>
    cases hl : i.loadEn with
    | true => simp [clock_load _ hl, gateFlowOff_load _ hl]
    | false =>
      cases he : i.en with
      | false => simp [clock_keep _ hl he, gateFlowOff_keep _ hl he]
      | true => simp [clock_eq_gateFlowOff_iff hl he]

/-- At a posedge that shifts, the word moves one place towards the top and the serial input becomes
bit 0. -/
def ShiftsUp (step : ShiftRegIn n → BitVec n → BitVec n) (i : ShiftRegPeriod n)
    (dout : BitVec n) : Prop :=
  i.resN = true → i.loadEn = false → i.en = true →
    withReset step i dout = (i.held dout).shiftConcat i.din

theorem shiftsUp_clock (i : ShiftRegPeriod n) (dout : BitVec n) : ShiftsUp clock i dout := by
  intro hres hl he
  simp [withReset, hres, clock_shift _ hl he]

/-- The two builds hold the same word after every posedge and both shift it up exactly in the runs
in which the register never shifts while its bits 0 and 1 differ. -/
theorem shift_reg_msb_builds_agree_iff (n : Nat) (is : Nat → ShiftRegPeriod n) (q : BitVec n) :
    (∀ m, run (withReset clock) is q m = run (withReset gateFlowOff) is q m ∧
      ShiftsUp clock (is m) (run (withReset clock) is q m) ∧
      ShiftsUp gateFlowOff (is m) (run (withReset gateFlowOff) is q m)) ↔
      ∀ m, ¬ShiftsUnequal (is m) (run (withReset clock) is q m) := by
  have hiff := (run_eq_iff (withReset clock) (withReset gateFlowOff) is q).trans
    (forall_congr' fun m ↦ withReset_eq_iff (is m) _)
  constructor
  · intro h
    exact hiff.mp fun m ↦ (h m).1
  · intro h m
    have hrun := hiff.mpr h
    refine ⟨hrun m, shiftsUp_clock _ _, ?_⟩
    intro hres hl he
    rw [← hrun m, ← (withReset_eq_iff (is m) _).mpr (h m)]
    exact shiftsUp_clock (is m) _ hres hl he

/-- A register of four bits is loaded with 1 and then shifted. -/
def shiftOne (m : Nat) : ShiftRegPeriod 4 := ⟨⟨true, false, m == 0, 1⟩, true, false⟩

/-- One build holds 2 and the other 0. -/
theorem shift_reg_msb_builds_disagree :
    ¬∀ (n : Nat), 1 ≤ n → ∀ (is : Nat → ShiftRegPeriod n) (q : BitVec n) (m : Nat),
      run (withReset clock) is q m = run (withReset gateFlowOff) is q m ∧
      ShiftsUp clock (is m) (run (withReset clock) is q m) ∧
      ShiftsUp gateFlowOff (is m) (run (withReset gateFlowOff) is q m) := by
  intro h
  exact absurd (h 4 (by decide) shiftOne 0 2).1 (by decide)

end ShiftRegMsb

end RtlCores.Modules
