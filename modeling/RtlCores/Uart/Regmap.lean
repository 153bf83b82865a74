import RtlCores.Lib.Serial

/-!
# Register bits (`UART/regmap.vh`)

The fields of the line control register that the transmitter and the receiver read, and the
line format they select.
-/

namespace RtlCores.Uart

open RtlCores.Lib

variable (lcreg : BitVec 8)

/-! ## Line control register (LCR) -/

/-- Word length select. -/
def wls : BitVec 2 := lcreg.extractLsb' 0 2

/-- Stop bits. -/
def stb : Bool := lcreg.getLsbD 2

/-- Parity enable. -/
def pen : Bool := lcreg.getLsbD 3

/-- Even parity select. -/
def eps : Bool := lcreg.getLsbD 4

/-- Stick parity. -/
def sp : Bool := lcreg.getLsbD 5

/-! ## The format they select -/

/-- Five to eight data bits. -/
def wordLen : Nat := 5 + (wls lcreg).toNat

/-- Odd, even or stick parity. -/
def parityKind : Parity :=
  match sp lcreg, eps lcreg with
  | false, false => .odd
  | false, true => .even
  | true, false => .mark
  | true, true => .space

/-- One stop bit, or two; words of five bits have one and a half instead of two. -/
def stopHalves : Nat := if stb lcreg then (if wls lcreg = 0 then 3 else 4) else 2

def lineFormat : LineFormat where
  wordLen := wordLen lcreg
  parity := if pen lcreg then some (parityKind lcreg) else none
  stopHalves := stopHalves lcreg

theorem stopTicks_lineFormat (n : Nat) :
    (lineFormat lcreg).stopTicks n =
      if stb lcreg then (if wls lcreg = 0 then 3 * n / 2 else 2 * n) else n := by
  show stopHalves lcreg * n / 2 = _
  unfold stopHalves
  split
  · split <;> omega
  · omega

theorem wordLen_le : wordLen lcreg ≤ 8 := by
  have := (wls lcreg).isLt
  unfold wordLen
  omega

/-- The bit counters of both machines count from 0, and the top bit with the word length select
mark the last bit of a word. -/
theorem countBits_last {j : Nat} (hj : j < 8) :
    ((BitVec.ofNat 3 j).getLsbD 2 && (BitVec.ofNat 3 j).extractLsb' 0 2 == wls lcreg) =
      decide (j + 1 = wordLen lcreg) := by
  have htable : ∀ (x : BitVec 2) (j : Fin 8),
      ((BitVec.ofNat 3 j).getLsbD 2 && (BitVec.ofNat 3 j).extractLsb' 0 2 == x) =
        decide (j.val + 1 = 5 + x.toNat) := by decide
  exact htable (wls lcreg) ⟨j, hj⟩

/-- A byte masked to the word length. -/
def masked (b : BitVec 8) : BitVec 8 := b &&& BitVec.ofNat 8 (2 ^ wordLen lcreg - 1)

theorem getLsbD_masked (b : BitVec 8) (i : Nat) :
    (masked lcreg b).getLsbD i = (decide (i < wordLen lcreg) && b.getLsbD i) := by
  rw [masked, BitVec.getLsbD_and, BitVec.getLsbD_ofNat, Nat.testBit_two_pow_sub_one]
  by_cases hi : i < 8
  · rw [decide_eq_true hi, Bool.true_and, Bool.and_comm]
  · rw [BitVec.getLsbD_of_ge b i (by omega), Bool.false_and, Bool.and_false]

theorem lowBits_masked (b : BitVec 8) :
    lowBits (wordLen lcreg) (masked lcreg b) = lowBits (wordLen lcreg) b := by
  refine List.map_congr_left fun i hi ↦ ?_
  rw [getLsbD_masked, decide_eq_true (List.mem_range.mp hi), Bool.true_and]

/-- The four word lengths. -/
theorem wls_cases (x : BitVec 2) : x = 0 ∨ x = 1 ∨ x = 2 ∨ x = 3 := by
  revert x
  decide

end RtlCores.Uart
