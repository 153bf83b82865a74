import RtlCores.Lib.Bits

/-!
# Little-endian words

A word of `n` bytes lies in memory with its lowest byte at the lowest address.
-/

namespace RtlCores.Lib

variable {w : Nat} {f g : Nat → BitVec 8}

/-- The word with the bytes `f 0, …, f (n - 1)`, from the lowest up. -/
def leWord (f : Nat → BitVec 8) (n : Nat) : BitVec (8 * n) :=
  BitVec.ofFnLE fun i ↦ (f (i.val / 8)).getLsbD (i.val % 8)

/-- Byte `k` of a word. -/
def byteAt (v : BitVec w) (k : Nat) : BitVec 8 := v.extractLsb' (8 * k) 8

@[simp] theorem getElem_leWord (f : Nat → BitVec 8) (n i : Nat) (h : i < 8 * n) :
    (leWord f n)[i] = (f (i / 8)).getLsbD (i % 8) := by
  simp [leWord]

/-- Only the first `n` bytes matter. -/
theorem leWord_congr {n : Nat} (h : ∀ k < n, f k = g k) : leWord f n = leWord g n := by
  ext i hi
  rw [getElem_leWord, getElem_leWord, h (i / 8) (by omega)]

/-- The bytes of a word are those it was made of. -/
theorem byteAt_setWidth_leWord (f : Nat → BitVec 8) {n k : Nat} (hk : k < n) (hn : 8 * n ≤ w) :
    byteAt ((leWord f n).setWidth w) k = f k := by
  ext i hi
  have hidx : 8 * k + i < 8 * n := by omega
  have hdiv : (8 * k + i) / 8 = k := by omega
  have hmod : (8 * k + i) % 8 = i := by omega
  rw [byteAt, BitVec.getElem_extractLsb', BitVec.getLsbD_setWidth, decide_eq_true (by omega),
    Bool.true_and, BitVec.getLsbD_eq_getElem hidx, getElem_leWord, hdiv, hmod,
    BitVec.getLsbD_eq_getElem hi]

theorem leWord_one (f : Nat → BitVec 8) : leWord f 1 = f 0 := by
  ext i hi
  rw [getElem_leWord, Nat.div_eq_of_lt hi, Nat.mod_eq_of_lt hi, BitVec.getLsbD_eq_getElem]

/-- A word is its upper bytes on top of its lower ones. -/
theorem leWord_add (f : Nat → BitVec 8) (m n : Nat) :
    leWord f (m + n) = (leWord (fun k ↦ f (m + k)) n ++ leWord f m).cast (by omega) := by
  ext i hi
  rw [getElem_leWord, BitVec.getElem_cast, BitVec.getElem_append]
  by_cases h : i < 8 * m
  · rw [dif_pos h, getElem_leWord]
  · have hdiv : i / 8 = m + (i - 8 * m) / 8 := by omega
    have hmod : i % 8 = (i - 8 * m) % 8 := by omega
    rw [dif_neg h, getElem_leWord, hdiv, hmod]

theorem leWord_two (f : Nat → BitVec 8) : leWord f 2 = f 1 ++ f 0 := by
  have h := leWord_add f 1 1
  rwa [leWord_one, leWord_one] at h

theorem leWord_three (f : Nat → BitVec 8) : leWord f 3 = f 2 ++ f 1 ++ f 0 := by
  have h := leWord_add f 1 2
  rwa [leWord_one, leWord_two] at h

theorem leWord_four (f : Nat → BitVec 8) : leWord f 4 = f 3 ++ f 2 ++ f 1 ++ f 0 := by
  have h := leWord_add f 1 3
  rwa [leWord_one, leWord_three] at h

theorem leWord_eight (f : Nat → BitVec 8) :
    leWord f 8 = leWord (fun k ↦ f (4 + k)) 4 ++ leWord f 4 :=
  leWord_add f 4 4

end RtlCores.Lib
