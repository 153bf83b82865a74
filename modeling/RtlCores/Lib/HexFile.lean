import RtlCores.Lib.Bytes

/-!
# Hex files

Bytes written as two hexadecimal digits and a blank, with line ends in between, and read back as
`$readmemh` reads the numbers of a file: one number a memory word, from the first address on.
-/

namespace RtlCores.Lib

def blank : Char := Char.ofNat 0x20

def lineEnd : Char := Char.ofNat 0x0A

/-- What `"%02x "` prints for a byte. -/
def byteText (b : BitVec 8) : List Char :=
  [Nat.digitChar (b.toNat / 16), Nat.digitChar (b.toNat % 16), blank]

def isSpace (c : Char) : Bool := c = blank || c = lineEnd

/-- The value of a hexadecimal digit. -/
def hexVal (c : Char) : Option Nat := (List.range 16).find? fun d ↦ Nat.digitChar d = c

/-- The numbers in a text, `acc` the value of the digits read of the number at its front.  Anything
but digits and white space is refused. -/
def readHex : Option Nat → List Char → Option (List Nat)
  | none, [] => some []
  | some n, [] => some [n]
  | acc, c :: cs =>
    if isSpace c then
      match acc with
      | none => readHex none cs
      | some n => (readHex none cs).map (n :: ·)
    else (hexVal c).bind fun d ↦ readHex (some (16 * acc.getD 0 + d)) cs

/-- The bytes that a file holds. -/
def readmemh (file : List Char) : Option (List (BitVec 8)) :=
  (readHex none file).map (List.map (BitVec.ofNat 8))

theorem hexVal_digitChar {d : Nat} (h : d < 16) :
    hexVal (Nat.digitChar d) = some d ∧ isSpace (Nat.digitChar d) = false := by
  revert d
  decide

theorem readHex_space {c : Char} (h : isSpace c = true) (cs : List Char) :
    readHex none (c :: cs) = readHex none cs := by
  rw [readHex, if_pos h]

theorem readHex_digit {d : Nat} (h : d < 16) (acc : Option Nat) (cs : List Char) :
    readHex acc (Nat.digitChar d :: cs) = readHex (some (16 * acc.getD 0 + d)) cs := by
  obtain ⟨hval, hspace⟩ := hexVal_digitChar h
  cases acc with
  | none =>
    rw [readHex, hspace, if_neg Bool.false_ne_true, hval]
    rfl
  | some n =>
    rw [readHex, hspace, if_neg Bool.false_ne_true, hval]
    rfl

/-- A printed byte is read back. -/
theorem readmemh_byteText (b : BitVec 8) (cs : List Char) :
    readmemh (byteText b ++ cs) = (readmemh cs).map (b :: ·) := by
  have hread : readHex none (byteText b ++ cs) = (readHex none cs).map (b.toNat :: ·) := by
    have hhigh : b.toNat / 16 < 16 := Nat.div_lt_of_lt_mul b.isLt
    have hlow : b.toNat % 16 < 16 := Nat.mod_lt _ (by decide)
    show readHex none
      (Nat.digitChar (b.toNat / 16) :: Nat.digitChar (b.toNat % 16) :: blank :: cs) = _
    rw [readHex_digit hhigh, readHex_digit hlow, readHex, if_pos (by decide), Option.getD_none,
      Option.getD_some, Nat.mul_zero, Nat.zero_add, Nat.div_add_mod]
  rw [readmemh, hread, readmemh]
  cases readHex none cs with
  | none => rfl
  | some ns => simp

theorem readmemh_flatMap_byteText (bs : List (BitVec 8)) (cs : List Char) :
    readmemh (bs.flatMap byteText ++ cs) = (readmemh cs).map (bs ++ ·) := by
  induction bs with
  | nil =>
    rw [List.flatMap_nil, List.nil_append]
    cases readmemh cs <;> rfl
  | cons b bs ih =>
    rw [List.flatMap_cons, List.append_assoc, readmemh_byteText, ih, Option.map_map]
    rfl

theorem readmemh_lineEnd (cs : List Char) : readmemh (lineEnd :: cs) = readmemh cs := by
  rw [readmemh, readHex_space (by decide), readmemh]

/-! ## Big-endian words -/

/-- The bytes of a word of 32 bits, the highest first. -/
def beBytes (v : BitVec 32) : List (BitVec 8) := [byteAt v 3, byteAt v 2, byteAt v 1, byteAt v 0]

theorem append_byteAt (v : BitVec 32) :
    byteAt v 3 ++ byteAt v 2 ++ byteAt v 1 ++ byteAt v 0 = v := by
  ext i hi
  simp only [byteAt, BitVec.getElem_append, BitVec.getElem_extractLsb']
  split_ifs <;> rw [← BitVec.getLsbD_eq_getElem] <;> congr 1 <;> omega

/-- Byte `j` of word `k` in a list of words. -/
theorem getElem?_flatMap_beBytes {vs : List (BitVec 32)} {k : Nat} {v : BitVec 32}
    (h : vs[k]? = some v) {j : Nat} (hj : j < 4) :
    (vs.flatMap beBytes)[4 * k + j]? = some (byteAt v (3 - j)) := by
  induction vs generalizing k with
  | nil => simp at h
  | cons u vs ih =>
    rw [List.flatMap_cons]
    cases k with
    | zero =>
      obtain rfl : u = v := by simpa using h
      rw [List.getElem?_append_left (by simp [beBytes]; omega)]
      obtain rfl | rfl | rfl | rfl : j = 0 ∨ j = 1 ∨ j = 2 ∨ j = 3 := by omega
      all_goals rfl
    | succ k =>
      have hlen : (beBytes u).length = 4 := rfl
      rw [List.getElem?_append_right (by omega), hlen,
        show 4 * (k + 1) + j - 4 = 4 * k + j by omega]
      exact ih (by simpa using h)

theorem length_flatMap_beBytes (vs : List (BitVec 32)) :
    (vs.flatMap beBytes).length = 4 * vs.length := by
  induction vs with
  | nil => rfl
  | cons u vs ih =>
    rw [List.flatMap_cons, List.length_append, ih, List.length_cons, Nat.mul_succ, Nat.add_comm]
    rfl

end RtlCores.Lib
