import RtlCores.Lib.Bits

/-!
# Words assembled from shifted fields

Software packs a field into a word by masking, shifting and or-ing, or adding.  `place` puts
a field at a position; the lemmas read a field back from a word whose other fields lie
elsewhere.
-/

namespace RtlCores.Lib

variable {w n m : Nat}

/-- The field `x` at position `lo` of a word whose other bits are 0. -/
def place (w lo : Nat) (x : BitVec n) : BitVec w := x.setWidth w <<< lo

theorem getElem_place (lo : Nat) (x : BitVec n) (i : Nat) (h : i < w) :
    (place w lo x)[i] = (decide (lo ≤ i) && x.getLsbD (i - lo)) := by
  rw [place, BitVec.getElem_shiftLeft, BitVec.getElem_setWidth]
  by_cases hi : i < lo
  · have hlo : ¬ lo ≤ i := by omega
    simp [hi, hlo]
  · have hlo : lo ≤ i := by omega
    simp [hi, hlo]

/-- A field that fits is read back as it is. -/
@[simp] theorem extractLsb'_place_self {lo : Nat} (h : lo + n ≤ w) (x : BitVec n) :
    (place w lo x).extractLsb' lo n = x := by
  ext i hi
  have hw : lo + i < w := by omega
  have hlo : lo + i - lo = i := by omega
  rw [BitVec.getElem_extractLsb', BitVec.getLsbD_eq_getElem hw, getElem_place, hlo]
  simp [hi]

/-- Below its position a field is 0. -/
@[simp] theorem extractLsb'_place_below {lo k : Nat} (h : k + m ≤ lo) (x : BitVec n) :
    (place w lo x).extractLsb' k m = 0 := by
  ext i hi
  have hlo : ¬ lo ≤ k + i := by omega
  rw [BitVec.getElem_extractLsb']
  by_cases hw : k + i < w
  · rw [BitVec.getLsbD_eq_getElem hw, getElem_place]
    simp [hlo]
  · rw [BitVec.getLsbD_of_ge _ _ (by omega)]
    simp

/-- Above its last bit a field is 0. -/
@[simp] theorem extractLsb'_place_above {lo k : Nat} (h : lo + n ≤ k) (x : BitVec n) :
    (place w lo x).extractLsb' k m = 0 := by
  ext i hi
  rw [BitVec.getElem_extractLsb']
  by_cases hw : k + i < w
  · rw [BitVec.getLsbD_eq_getElem hw, getElem_place, BitVec.getLsbD_of_ge x _ (by omega)]
    simp
  · rw [BitVec.getLsbD_of_ge _ _ (by omega)]
    simp

/-- Shifting up a word that has the bits of a field places the field. -/
theorem shiftLeft_eq_place {x : BitVec n} {y : BitVec w} (lo : Nat)
    (h : ∀ i, lo + i < w → y.getLsbD i = x.getLsbD i) : y <<< lo = place w lo x := by
  ext i hi
  rw [getElem_place, BitVec.getElem_shiftLeft]
  by_cases hlo : i < lo
  · have hle : ¬ lo ≤ i := by omega
    simp [hlo, hle]
  · have hle : lo ≤ i := by omega
    have hbit := h (i - lo) (by omega)
    rw [BitVec.getLsbD_eq_getElem (by omega)] at hbit
    simp [hlo, hle, hbit]

/-- Masking the low `n` bits of a word and shifting them up places them. -/
theorem and_mask_shiftLeft (x : BitVec w) (n lo : Nat) :
    (x &&& (BitVec.allOnes n).setWidth w) <<< lo = place w lo (x.setWidth n) := by
  refine shiftLeft_eq_place lo fun i hi ↦ ?_
  have hw : i < w := by omega
  by_cases hn : i < n <;> simp [hw, hn]

/-- Doubling a sign-extended number. -/
theorem signExtend_append_zero (m : Nat) (x : BitVec n) :
    (x ++ 0#1).signExtend m = x.signExtend m <<< 1 := by
  ext i hi
  rw [BitVec.getElem_signExtend, BitVec.getElem_shiftLeft]
  by_cases h0 : i < 1
  · have hin : i < n + 1 := by omega
    rw [dif_pos hin, BitVec.getElem_append]
    simp [h0]
  · by_cases hin : i < n + 1
    · have hx : i - 1 < n := by omega
      rw [dif_pos hin, BitVec.getElem_append, BitVec.getElem_signExtend]
      simp [h0, hx]
    · have hx : ¬ i - 1 < n := by omega
      rw [dif_neg hin, BitVec.getElem_signExtend, BitVec.msb_append]
      cases n with
      | zero => simp [BitVec.of_length_zero (x := x)]
      | succ n => simp [h0, hx]

/-- Zeros below a number shift it up. -/
theorem append_zero_eq_shiftLeft (x : BitVec n) (k : Nat) :
    x ++ 0#k = x.signExtend (n + k) <<< k := by
  ext i hi
  rw [BitVec.getElem_append, BitVec.getElem_shiftLeft, BitVec.getElem_signExtend]
  by_cases hk : i < k
  · simp [hk]
  · have hn : i - k < n := by omega
    simp [hk, hn]

/-- Bits `k` to `k + n - 1` of a word, cut out by a mask and moved down and up again by signed
shifts. -/
theorem and_mask_sshiftRight_shiftLeft (x : BitVec w) {k n : Nat} (h : k + n < w) (lo : Nat) :
    (x &&& (BitVec.allOnes n).setWidth w <<< k).sshiftRight k <<< lo
      = place w lo (x.extractLsb' k n) := by
  have hmsb : (x &&& (BitVec.allOnes n).setWidth w <<< k).msb = false := by
    have hw : w - 1 < w := by omega
    have hn : ¬ w - 1 - k < n := by omega
    rw [BitVec.msb_eq_getLsbD_last, BitVec.getLsbD_and, BitVec.getLsbD_shiftLeft,
      BitVec.getLsbD_setWidth, BitVec.getLsbD_allOnes]
    simp [hn]
  rw [BitVec.sshiftRight_eq_of_msb_false hmsb]
  refine shiftLeft_eq_place lo fun i _ ↦ ?_
  by_cases hn : i < n
  · have hw : k + i < w := by omega
    simp [hn, hw, BitVec.getLsbD_eq_getElem]
  · simp [hn]

/-- The bits from `k` on of a word masked to its `n` low bits, moved to another place. -/
theorem and_low_sshiftRight_shiftLeft (x : BitVec w) {k n : Nat} (h : n < w) (lo : Nat) :
    (x &&& (BitVec.allOnes n).setWidth w).sshiftRight k <<< lo
      = place w lo ((x.setWidth n).extractLsb' k (n - k)) := by
  have hmsb : (x &&& (BitVec.allOnes n).setWidth w).msb = false := by
    have hn : ¬ w - 1 < n := by omega
    rw [BitVec.msb_eq_getLsbD_last, BitVec.getLsbD_and, BitVec.getLsbD_setWidth,
      BitVec.getLsbD_allOnes]
    simp [hn]
  rw [BitVec.sshiftRight_eq_of_msb_false hmsb]
  refine shiftLeft_eq_place lo fun i _ ↦ ?_
  by_cases hn : k + i < n
  · have hnk : i < n - k := by omega
    have hw : k + i < w := by omega
    simp [hn, hnk, hw]
  · simp [hn]

/-- A word put together from four adjoining pieces. -/
theorem append_four_pieces (a b c d : Nat) (x : BitVec (a + b + c + d)) :
    x.extractLsb' (d + c + b) a ++ x.extractLsb' (d + c) b ++ x.extractLsb' d c ++
      x.extractLsb' 0 d = x := by
  rw [BitVec.extractLsb'_append_extractLsb'_eq_extractLsb' rfl,
    BitVec.extractLsb'_append_extractLsb'_eq_extractLsb' rfl,
    BitVec.extractLsb'_append_extractLsb'_eq_extractLsb' (Nat.zero_add d).symm]
  exact BitVec.extractLsb'_eq_self

/-- Words that lie below and from bit `k` on add up without carries. -/
theorem add_eq_or_of_split (k : Nat) {a b : BitVec w} (ha : a.extractLsb' k (w - k) = 0)
    (hb : b.extractLsb' 0 k = 0) : a + b = a ||| b := by
  refine BitVec.add_eq_or_of_and_eq_zero _ _ ?_
  ext i hi
  rw [BitVec.getElem_and, BitVec.getElem_zero, ← BitVec.getLsbD_eq_getElem,
    ← BitVec.getLsbD_eq_getElem]
  by_cases hik : i < k
  · have hbit := congrArg (fun v ↦ v.getLsbD i) hb
    have hzero : b.getLsbD i = false := by simpa [hik] using hbit
    rw [hzero, Bool.and_false]
  · have hbit := congrArg (fun v ↦ v.getLsbD (i - k)) ha
    have hlt : i - k < w - k := by omega
    have hsum : k + (i - k) = i := by omega
    have hzero : a.getLsbD i = false := by simpa [hlt, hsum] using hbit
    rw [hzero, Bool.false_and]

/-- A field above everything else is added without carries. -/
theorem add_place_eq_or (lo : Nat) {a : BitVec w} (h : a.extractLsb' lo (w - lo) = 0)
    (x : BitVec n) : a + place w lo x = a ||| place w lo x :=
  add_eq_or_of_split lo h (extractLsb'_place_below (Nat.le_of_eq (Nat.zero_add lo)) x)

/-- Two numbers placed at the top of a word are added there. -/
theorem place_add_place (lo : Nat) (x y : BitVec n) (h : w = lo + n) :
    place w lo x + place w lo y = place w lo (x + y) := by
  subst h
  have hplace (z : BitVec n) : (place (lo + n) lo z).toNat = z.toNat * 2 ^ lo := by
    have hle : 2 ^ n ≤ 2 ^ (lo + n) := Nat.pow_le_pow_right (by decide) (Nat.le_add_left n lo)
    have hlt : z.toNat * 2 ^ lo < 2 ^ (lo + n) := by
      rw [Nat.add_comm, Nat.pow_add]
      exact Nat.mul_lt_mul_of_pos_right z.isLt (Nat.two_pow_pos lo)
    rw [place, BitVec.toNat_shiftLeft, BitVec.toNat_setWidth,
      Nat.mod_eq_of_lt (lt_of_lt_of_le z.isLt hle), Nat.shiftLeft_eq, Nat.mod_eq_of_lt hlt]
  apply BitVec.eq_of_toNat_eq
  calc (place (lo + n) lo x + place (lo + n) lo y).toNat
      = (x.toNat + y.toNat) * 2 ^ lo % (2 ^ n * 2 ^ lo) := by
        rw [BitVec.toNat_add, hplace, hplace, ← Nat.add_mul, ← Nat.pow_add, Nat.add_comm n]
    _ = (x.toNat + y.toNat) % 2 ^ n * 2 ^ lo := Nat.mul_mod_mul_right _ _ _
    _ = (place (lo + n) lo (x + y)).toNat := by rw [hplace, BitVec.toNat_add]

end RtlCores.Lib
