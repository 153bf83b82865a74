import Mathlib

/-!
# The bit patterns of the testbench (`RISCV_SingleCycle/testbench/generator.cpp`)

`generate_bit_patterns` writes eight fixed patterns, random values, and numbers with one bit set,
all through one pointer and against one length, which the loops shrink.  The bit is shifted as an
`int`, while the patterns have up to 64 bits.
-/

namespace RtlCores.Riscv

namespace Generator

/-! ## The loops -/

/-- `x << n`, which has a value only if `n` is below the width of the type of `x`. -/
def checkedShl {w : Nat} (x : BitVec w) (n : Nat) : Option (BitVec w) :=
  if n < w then some (x <<< n) else none

/-- `mask_ff` -/
def maskFf (bitsWidth : Nat) : Option (BitVec 64) :=
  if bitsWidth = 64 then some (-1) else (· - 1) <$> checkedShl 1#64 bitsWidth

/-- The patterns that are written first. -/
def fixedPatterns (maskFf : BitVec 64) : List (BitVec 64) :=
  [0, maskFf, 0, maskFf,
    0xAAAAAAAAAAAAAAAA &&& maskFf, 0x5555555555555555 &&& maskFf,
    0xDBDBDBDBDBDBDBDB &&& maskFf, 0xB6B6B6B6B6B6B6B6 &&& maskFf]

/-- `(long)rand() | ((long)rand() << 32)` or `rand()`, from call `calls` of `rand` on, and the calls
made by then. -/
def randomValue (bitsWidth : Nat) (rand : Nat → BitVec 32) (calls : Nat) :
    Option (BitVec 64 × Nat) :=
  if bitsWidth > 32 then do
    let high ← checkedShl ((rand (calls + 1)).signExtend 64) 32
    return ((rand calls).signExtend 64 ||| high, calls + 2)
  else
    return ((rand calls).signExtend 64, calls + 1)

/-- `while (length > bits_width)`: the array written so far, and what is left of the length. -/
def fillRandom (maskFf : BitVec 64) (bitsWidth : Nat) (rand : Nat → BitVec 32) :
    Nat → Nat → List (BitVec 64) → Option (List (BitVec 64) × Nat)
  | _, 0, arr => some (arr, 0)
  | calls, length + 1, arr =>
    if length + 1 > bitsWidth then do
      let (value, calls) ← randomValue bitsWidth rand calls
      fillRandom maskFf bitsWidth rand calls length (arr ++ [maskFf &&& value])
    else some (arr, length + 1)

/-- The turns of `for (int i = 0; i < length; i++)` from `i` on. -/
def toggleBits (i : Nat) : Nat → List (BitVec 64) → Option (List (BitVec 64))
  | 0, arr => some arr
  | turns + 1, arr => do
    let bit ← checkedShl 1#32 i
    toggleBits (i + 1) turns (arr ++ [bit.signExtend 64])

/-- `generate_bit_patterns`: the elements that are written, in this order. -/
def generateBitPatterns (bitsWidth length : Nat) (rand : Nat → BitVec 32) :
    Option (List (BitVec 64)) := do
  let maskFf ← maskFf bitsWidth
  let (arr, length) ← fillRandom maskFf bitsWidth rand 0 (length - 8) (fixedPatterns maskFf)
  toggleBits 0 length arr

/-! ## Masked patterns -/

variable {bitsWidth length : Nat} {mask : BitVec 64}

theorem maskFf_eq (h : bitsWidth ≤ 64) :
    ∃ mask, maskFf bitsWidth = some mask ∧ mask.toNat = 2 ^ bitsWidth - 1 := by
  rcases Nat.lt_or_eq_of_le h with hlt | rfl
  · refine ⟨1#64 <<< bitsWidth - 1, ?_, ?_⟩
    · rw [maskFf, if_neg (Nat.ne_of_lt hlt), checkedShl, if_pos hlt]
      rfl
    · have hpow : 2 ^ bitsWidth < 2 ^ 64 := Nat.pow_lt_pow_right (by decide) hlt
      have hpos : 0 < 2 ^ bitsWidth := Nat.two_pow_pos bitsWidth
      have hshift : (1#64 <<< bitsWidth).toNat = 2 ^ bitsWidth := by
        rw [← BitVec.twoPow_eq, BitVec.toNat_twoPow, Nat.mod_eq_of_lt hpow]
      have hle : 1#64 ≤ 1#64 <<< bitsWidth := by
        rw [BitVec.le_def, hshift]
        exact hpos
      refine (BitVec.toNat_sub_of_le hle).trans ?_
      rw [hshift]
      rfl
  · exact ⟨-1, rfl, rfl⟩

theorem and_mask_lt (hmask : mask.toNat = 2 ^ bitsWidth - 1) (x : BitVec 64) :
    (mask &&& x).toNat < 2 ^ bitsWidth := by
  have hpos : 0 < 2 ^ bitsWidth := Nat.two_pow_pos bitsWidth
  have hle : (mask &&& x).toNat ≤ mask.toNat := by
    rw [BitVec.toNat_and]
    exact Nat.and_le_left
  omega

theorem fixedPatterns_lt (hmask : mask.toNat = 2 ^ bitsWidth - 1) :
    ∀ x ∈ fixedPatterns mask, x.toNat < 2 ^ bitsWidth := by
  have hzero : (0 : BitVec 64).toNat < 2 ^ bitsWidth := Nat.two_pow_pos bitsWidth
  have hself : mask.toNat < 2 ^ bitsWidth := by
    rw [hmask]
    exact Nat.sub_one_lt_of_lt hzero
  have hand (x : BitVec 64) : (x &&& mask).toNat < 2 ^ bitsWidth := by
    rw [BitVec.and_comm]
    exact and_mask_lt hmask x
  simp only [fixedPatterns, List.forall_mem_cons]
  exact ⟨hzero, hself, hzero, hself, hand _, hand _, hand _, hand _, fun x hx ↦ by simp at hx⟩

theorem randomValue_isSome (bitsWidth : Nat) (rand : Nat → BitVec 32) (calls : Nat) :
    ∃ value calls', randomValue bitsWidth rand calls = some (value, calls') := by
  rw [randomValue]
  split
  · exact ⟨_, _, rfl⟩
  · exact ⟨_, _, rfl⟩

/-- The random values take what the length has above the width. -/
theorem fillRandom_spec (hmask : mask.toNat = 2 ^ bitsWidth - 1) (rand : Nat → BitVec 32)
    (calls length : Nat) (arr : List (BitVec 64)) :
    ∃ filled, fillRandom mask bitsWidth rand calls length arr =
        some (arr ++ filled, min length bitsWidth) ∧
      filled.length = length - bitsWidth ∧ ∀ x ∈ filled, x.toNat < 2 ^ bitsWidth := by
  induction length generalizing calls arr with
  | zero => exact ⟨[], by simp [fillRandom], by simp, by simp⟩
  | succ length ih =>
    rw [fillRandom]
    split
    · next hlt =>
      obtain ⟨value, calls', hvalue⟩ := randomValue_isSome bitsWidth rand calls
      obtain ⟨filled, hfill, hlength, hin⟩ := ih calls' (arr ++ [mask &&& value])
      refine ⟨(mask &&& value) :: filled, ?_, ?_, ?_⟩
      · rw [hvalue]
        show fillRandom mask bitsWidth rand calls' length (arr ++ [mask &&& value]) = _
        rw [hfill, List.append_assoc, List.singleton_append,
          Nat.min_eq_right (Nat.le_of_lt_succ hlt), Nat.min_eq_right (Nat.le_of_lt hlt)]
      · rw [List.length_cons, hlength]
        omega
      · exact List.forall_mem_cons.2 ⟨and_mask_lt hmask value, hin⟩
    · next hle =>
      rw [Nat.not_lt] at hle
      exact ⟨[], by rw [List.append_nil, Nat.min_eq_left hle], by simp [hle], by simp⟩

/-! ## The numbers with one bit set -/

/-- `1 << i`, as it is stored in the array. -/
def toggled (i : Nat) : BitVec 64 := (1#32 <<< i).signExtend 64

theorem toggleBits_of_le {i turns : Nat} (h : i + turns ≤ 32) (arr : List (BitVec 64)) :
    toggleBits i turns arr = some (arr ++ (List.range' i turns).map toggled) := by
  induction turns generalizing i arr with
  | zero => simp [toggleBits]
  | succ turns ih =>
    have hlt : i < 32 := by omega
    rw [toggleBits, checkedShl, if_pos hlt]
    show toggleBits (i + 1) turns (arr ++ [toggled i]) = _
    rw [ih (by omega), List.range'_succ, List.map_cons, List.append_assoc, List.singleton_append]

/-- The loop shifts an `int` by 32. -/
theorem toggleBits_of_gt {i turns : Nat} (hi : i ≤ 32) (h : 32 < i + turns)
    (arr : List (BitVec 64)) : toggleBits i turns arr = none := by
  induction turns generalizing i arr with
  | zero => omega
  | succ turns ih =>
    rw [toggleBits, checkedShl]
    rcases Nat.lt_or_eq_of_le hi with hlt | rfl
    · rw [if_pos hlt]
      exact ih hlt (by omega) _
    · rfl

theorem toggled_of_lt {i : Nat} (h : i < 31) : toggled i = BitVec.twoPow 64 i := by
  revert i
  decide

/-- The sign of the `int` fills the upper half. -/
theorem toggled_sign : (toggled 31).toNat = 2 ^ 64 - 2 ^ 31 := rfl

/-! ## What is asked of the array -/

/-- The array of `length` patterns of `bitsWidth` bits; if there is room, it ends with the numbers
that have one of these bits set, from the lowest on. -/
structure PatternsRight (bitsWidth length : Nat) (arr : List (BitVec 64)) : Prop where
  count : arr.length = length
  inWidth : ∀ x ∈ arr, x.toNat < 2 ^ bitsWidth
  oneHot : bitsWidth + 8 ≤ length →
    arr.drop (length - bitsWidth) = (List.range bitsWidth).map (BitVec.twoPow 64)

/-- `generate_bit_patterns` makes no shift without a value, and its array is right. -/
def FillsRight (bitsWidth length : Nat) (rand : Nat → BitVec 32) : Prop :=
  ∃ arr, generateBitPatterns bitsWidth length rand = some arr ∧ PatternsRight bitsWidth length arr

/-- The turns of the last loop. -/
def toggles (bitsWidth length : Nat) : Nat := min (length - 8) bitsWidth

/-- The last loop goes on from an array of patterns in the width. -/
theorem generateBitPatterns_eq (hwidth : bitsWidth ≤ 64) (hlength : 8 ≤ length)
    (rand : Nat → BitVec 32) :
    ∃ arr, generateBitPatterns bitsWidth length rand =
        toggleBits 0 (toggles bitsWidth length) arr ∧
      arr.length + toggles bitsWidth length = length ∧ ∀ x ∈ arr, x.toNat < 2 ^ bitsWidth := by
  obtain ⟨mask, hsome, hmask⟩ := maskFf_eq hwidth
  obtain ⟨filled, hfill, hfilled, hin⟩ :=
    fillRandom_spec hmask rand 0 (length - 8) (fixedPatterns mask)
  refine ⟨fixedPatterns mask ++ filled, ?_, ?_, ?_⟩
  · rw [generateBitPatterns, hsome]
    show (fillRandom mask bitsWidth rand 0 (length - 8) (fixedPatterns mask)).bind _ = _
    rw [hfill]
    rfl
  · have hfixed : (fixedPatterns mask).length = 8 := rfl
    rw [List.length_append, hfilled, hfixed, toggles]
    omega
  · exact List.forall_mem_append.2 ⟨fixedPatterns_lt hmask, hin⟩

theorem not_fillsRight_of_gt (hwidth : bitsWidth ≤ 64) (hlength : 8 ≤ length)
    (h : 32 < toggles bitsWidth length) (rand : Nat → BitVec 32) :
    ¬ FillsRight bitsWidth length rand := by
  obtain ⟨arr, hgenerate, -, -⟩ := generateBitPatterns_eq hwidth hlength rand
  rintro ⟨arr', hsome, -⟩
  rw [hgenerate, toggleBits_of_gt (Nat.zero_le 32) (by omega)] at hsome
  contradiction

/-- Up to 32 turns, the array is right if the numbers of the last loop are. -/
theorem fillsRight_iff_of_le (hwidth : bitsWidth ≤ 64) (hlength : 8 ≤ length)
    (h : toggles bitsWidth length ≤ 32) (rand : Nat → BitVec 32) :
    FillsRight bitsWidth length rand ↔
      (∀ i < toggles bitsWidth length, (toggled i).toNat < 2 ^ bitsWidth) ∧
        (bitsWidth + 8 ≤ length → ∀ i < bitsWidth, toggled i = BitVec.twoPow 64 i) := by
  obtain ⟨arr, hgenerate, hcount, hin⟩ := generateBitPatterns_eq hwidth hlength rand
  have hsome : generateBitPatterns bitsWidth length rand =
      some (arr ++ (List.range (toggles bitsWidth length)).map toggled) := by
    rw [hgenerate, toggleBits_of_le (by omega), List.range_eq_range']
  have hright : FillsRight bitsWidth length rand ↔
      PatternsRight bitsWidth length
        (arr ++ (List.range (toggles bitsWidth length)).map toggled) := by
    rw [FillsRight, hsome]
    simp only [Option.some.injEq, exists_eq_left']
  have hend (hroom : bitsWidth + 8 ≤ length) :
      (arr ++ (List.range (toggles bitsWidth length)).map toggled).drop (length - bitsWidth) =
        (List.range bitsWidth).map toggled := by
    have hall : toggles bitsWidth length = bitsWidth := Nat.min_eq_right (by omega)
    rw [hall, List.drop_left' (by omega)]
  rw [hright]
  constructor
  · intro hpatterns
    refine ⟨fun i hi ↦ hpatterns.inWidth _ ?_, fun hroom i hi ↦ ?_⟩
    · exact List.mem_append_right arr (List.mem_map_of_mem (List.mem_range.2 hi))
    · exact List.map_inj_left.1 ((hend hroom).symm.trans (hpatterns.oneHot hroom)) i
        (List.mem_range.2 hi)
  · rintro ⟨hlt, honeHot⟩
    refine ⟨?_, List.forall_mem_append.2 ⟨hin, ?_⟩, fun hroom ↦ ?_⟩
    · rw [List.length_append, List.length_map, List.length_range, hcount]
    · exact List.forall_mem_map.2 fun i hi ↦ hlt i (List.mem_range.1 hi)
    · rw [hend hroom]
      exact List.map_inj_left.2 fun i hi ↦ honeHot hroom i (List.mem_range.1 hi)

/-- The patterns are right exactly if the last loop makes fewer than 32 turns, or, for numbers of 64
bits without room for all of these, exactly 32. -/
theorem fillsRight_iff (hwidth : bitsWidth ≤ 64) (hlength : 8 ≤ length) (rand : Nat → BitVec 32) :
    FillsRight bitsWidth length rand ↔
      bitsWidth ≤ 31 ∨ length ≤ 39 ∨ bitsWidth = 64 ∧ length = 40 := by
  have hturns : toggles bitsWidth length = min (length - 8) bitsWidth := rfl
  rcases Nat.lt_or_ge 32 (toggles bitsWidth length) with hgt | hle
  · exact iff_of_false (not_fillsRight_of_gt hwidth hlength hgt rand) (by omega)
  rw [fillsRight_iff_of_le hwidth hlength hle]
  rcases Nat.lt_or_eq_of_le hle with hlt | heq
  · refine iff_of_true ⟨fun i hi ↦ ?_, fun hroom i hi ↦ toggled_of_lt (by omega)⟩ (by omega)
    rw [toggled_of_lt (by omega), BitVec.toNat_twoPow]
    exact (Nat.mod_le _ _).trans_lt (Nat.pow_lt_pow_right (by decide) (by omega))
  · constructor
    · rintro ⟨hin, -⟩
      have hsign : (toggled 31).toNat < 2 ^ bitsWidth := hin 31 (by omega)
      rw [toggled_sign] at hsign
      have hfull : bitsWidth = 64 := by
        by_contra hne
        have hpow : 2 ^ bitsWidth ≤ 2 ^ 63 := Nat.pow_le_pow_right (by decide) (by omega)
        omega
      exact .inr (.inr ⟨hfull, by omega⟩)
    · intro hcond
      obtain ⟨rfl, rfl⟩ : bitsWidth = 64 ∧ length = 40 := by omega
      exact ⟨fun i _ ↦ (toggled i).isLt, fun hroom ↦ absurd hroom (by decide)⟩

/-- `SEQUENCES_NUM` patterns of 20 bits, as `generate_rtype` asks for. -/
theorem fillsRight_upper : FillsRight 20 50 fun _ ↦ 0 :=
  (fillsRight_iff (by decide) (by decide) _).2 (.inl (by decide))

/-- `SEQUENCES_NUM` patterns of `XLEN` = 32 bits, which the default arguments ask for: the last has
the sign of an `int` in its upper half. -/
theorem not_fillsRight_xlen :
    ((generateBitPatterns 32 50 fun _ ↦ 0).map List.getLast? = some (some 0xFFFFFFFF80000000)) ∧
      ¬ FillsRight 32 50 fun _ ↦ 0 := by
  refine ⟨by decide +kernel, ?_⟩
  rw [fillsRight_iff_of_le (by decide) (by decide) (by decide)]
  rintro ⟨hin, -⟩
  exact absurd (hin 31 (by decide)) (by decide)

end Generator

end RtlCores.Riscv
