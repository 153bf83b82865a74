import RtlCores.Lib.Bits

/-!
# Shift register (`modules/shift_reg.v`)

Registers of `N` flip-flops that are loaded in parallel, shifted or keep their value; loading
wins over shifting.  `shift_reg` shifts towards bit 0 and `shift_reg_msb` away from it.  Both have a
second build, behind `GATE_FLOW_OFF`, in which a loop assigns the bits without blocking.
-/

namespace RtlCores.Modules

open RtlCores.Lib

variable {n : Nat}

/-- The input ports of a shift register. -/
structure ShiftRegIn (n : Nat) where
  en : Bool
  din : Bool
  loadEn : Bool
  load : BitVec n

/-- The input ports over one period: what they are at the posedge of `clk`, and whether `res_n` has
fallen since the posedge before. -/
structure ShiftRegPeriod (n : Nat) extends ShiftRegIn n where
  resN : Bool
  resFell : Bool

/-- The register just before the posedge of `clk`; the fall of `res_n` clears it. -/
def ShiftRegPeriod.held (i : ShiftRegPeriod n) (dout : BitVec n) : BitVec n :=
  if i.resFell then 0 else dout

/-- A period of a register that does `clock` at a posedge with `res_n` high. -/
def withReset (clock : ShiftRegIn n → BitVec n → BitVec n) (i : ShiftRegPeriod n)
    (dout : BitVec n) : BitVec n :=
  if !i.resN then 0 else clock i.toShiftRegIn (i.held dout)

namespace ShiftReg

variable (i : ShiftRegIn n) (dout : BitVec n)

/-- The inputs of the flip-flops. -/
def darr : BitVec n :=
  BitVec.ofFnLE fun k ↦
    if i.loadEn then i.load.getLsbD k
    else if i.en then (if k.val = n - 1 then i.din else dout.getLsbD (k.val + 1))
    else dout.getLsbD k

/-- The register after a posedge of `clk`, with `res_n` high. -/
def clock : BitVec n := darr i dout

/-- The same posedge in the build with `GATE_FLOW_OFF`. -/
def gateFlowOff : BitVec n :=
  if i.loadEn then i.load
  else if i.en then
    nonblocking dout
      ((n - 1, i.din) :: (List.range (n - 1)).reverse.map fun k ↦ (k, dout.getLsbD (k + 1)))
  else dout

/-- The serial output. -/
def doutN : Bool := dout.getLsbD 0

variable {i}

theorem clock_load (h : i.loadEn = true) : clock i dout = i.load := by
  ext k hk
  simp [clock, darr, h]

theorem clock_keep (hl : i.loadEn = false) (he : i.en = false) : clock i dout = dout := by
  ext k hk
  simp [clock, darr, hl, he]

/-- Shifting moves every bit down by one. -/
theorem getLsbD_clock_shift (hl : i.loadEn = false) (he : i.en = true) {k : Nat}
    (hk : k + 1 < n) : (clock i dout).getLsbD k = dout.getLsbD (k + 1) := by
  have hlt : k < n := by omega
  have hne : k ≠ n - 1 := by omega
  simp [clock, darr, hl, he, hlt, hne]

/-- Shifting takes the serial input in at the top. -/
theorem getLsbD_clock_top (hl : i.loadEn = false) (he : i.en = true) (hn : 0 < n) :
    (clock i dout).getLsbD (n - 1) = i.din := by
  simp [clock, darr, hl, he, hn]

/-- The loop assigns every bit once, from the bit above it. -/
theorem gateFlowOff_eq_clock (i : ShiftRegIn n) (dout : BitVec n) :
    gateFlowOff i dout = clock i dout := by
  unfold gateFlowOff
  split
  · exact (clock_load dout ‹_›).symm
  · have hl : i.loadEn = false := Bool.eq_false_of_not_eq_true ‹_›
    split
    · have he : i.en = true := ‹_›
      apply BitVec.eq_of_getLsbD_eq
      intro k hk
      by_cases htop : k = n - 1
      · subst htop
        rw [getLsbD_clock_top dout hl he (by omega)]
        refine getLsbD_nonblocking_head _ hk fun j hj ↦ ?_
        rw [List.mem_reverse, List.mem_range] at hj
        exact Nat.ne_of_lt hj
      · have hlt : k < n - 1 := by omega
        rw [getLsbD_clock_shift dout hl he (by omega)]
        exact getLsbD_nonblocking_map _ hk (List.mem_reverse.mpr (List.mem_range.mpr hlt))
          (Ne.symm htop) fun j h ↦ h
    · exact (clock_keep dout hl (Bool.eq_false_of_not_eq_true ‹_›)).symm

end ShiftReg

/-! ## Highest bit first -/

namespace ShiftRegMsb

variable (i : ShiftRegIn n) (dout : BitVec n)

/-- The inputs of the flip-flops of `shift_reg_msb`. -/
def darr : BitVec n :=
  BitVec.ofFnLE fun k ↦
    if i.loadEn then i.load.getLsbD k
    else if !i.en then dout.getLsbD k
    else if k.val = 0 then i.din
    else dout.getLsbD (k.val - 1)

/-- The register after a posedge of `clk`, with `res_n` high. -/
def clock : BitVec n := darr i dout

/-- The same posedge in the build with `GATE_FLOW_OFF`.  The loop assigns to bit `k + 1` for `k`
from 1 on: to the bits above 1, and past the end. -/
def gateFlowOff : BitVec n :=
  if i.loadEn then i.load
  else if i.en then
    nonblocking dout ((0, i.din) :: (List.range' 1 (n - 1)).map fun k ↦ (k + 1, dout.getLsbD k))
  else dout

/-- The serial output. -/
def doutN : Bool := dout.getLsbD (n - 1)

variable {i}

theorem clock_load (h : i.loadEn = true) : clock i dout = i.load := by
  ext k hk
  simp [clock, darr, h]

theorem clock_keep (hl : i.loadEn = false) (he : i.en = false) : clock i dout = dout := by
  ext k hk
  simp [clock, darr, hl, he]

/-- Shifting moves every bit up by one and takes the serial input in at the bottom. -/
theorem clock_shift (hl : i.loadEn = false) (he : i.en = true) :
    clock i dout = dout.shiftConcat i.din := by
  ext k hk
  rw [BitVec.getElem_shiftConcat]
  simp only [clock, darr, hl, he, BitVec.getElem_ofFnLE, Bool.false_eq_true, if_false,
    Bool.not_true]
  rfl

theorem gateFlowOff_load (h : i.loadEn = true) : gateFlowOff i dout = i.load := if_pos h

theorem gateFlowOff_keep (hl : i.loadEn = false) (he : i.en = false) :
    gateFlowOff i dout = dout := by
  simp [gateFlowOff, hl, he]

/-- The loop moves every bit up by one, but bit 1 keeps its value. -/
theorem getLsbD_gateFlowOff_shift (hl : i.loadEn = false) (he : i.en = true) {k : Nat}
    (hk : k < n) :
    (gateFlowOff i dout).getLsbD k =
      if k = 1 then dout.getLsbD 1 else (dout.shiftConcat i.din).getLsbD k := by
  have hloop : gateFlowOff i dout =
      nonblocking dout
        ((0, i.din) :: (List.range' 1 (n - 1)).map fun k ↦ (k + 1, dout.getLsbD k)) := by
    simp [gateFlowOff, hl, he]
  rw [hloop, BitVec.getLsbD_shiftConcat, decide_eq_true hk, Bool.true_and]
  match k, hk with
  | 0, hk =>
    exact getLsbD_nonblocking_head _ hk fun j _ ↦ Nat.succ_ne_zero j
  | 1, hk =>
    refine getLsbD_nonblocking_of_ne _ hk ?_
    rintro a ha hka
    rcases List.mem_cons.mp ha with rfl | ha
    · exact absurd hka Nat.zero_ne_one
    · obtain ⟨j, hj, rfl⟩ := List.mem_map.mp ha
      obtain ⟨hj, -⟩ := List.mem_range'_1.mp hj
      have hj0 : j = 0 := Nat.succ.inj hka
      omega
  | k + 2, hk =>
    have hmem : k + 1 ∈ List.range' 1 (n - 1) := List.mem_range'_1.mpr ⟨by omega, by omega⟩
    exact getLsbD_nonblocking_map _ hk hmem (Nat.succ_ne_zero _).symm fun j h ↦ Nat.succ.inj h

end ShiftRegMsb

end RtlCores.Modules
