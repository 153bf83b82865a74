import RtlCores.Lib.Staged

/-!
# The barrel shifter (`modules/shift.v`)

`shift_right` is `$clog2(n)` stages of two-input multiplexers, stage `s` moving every
bit down by `2 ^ s` places when bit `s` of the amount is set; `shift` runs it on the
reversed word for a left shift, and `shift_left` has stages of its own that move up.
`$clog2` is `Nat.clog 2`.
-/

namespace RtlCores.Modules

open RtlCores.Lib

variable {n : Nat}

/-- `mux_2to1` at gate level. -/
def mux2to1 (w0 w1 sel : Bool) : Bool := (w0 && !sel) || (w1 && sel)

@[simp] theorem mux2to1_eq (w0 w1 sel : Bool) : mux2to1 w0 w1 sel = if sel then w1 else w0 := by
  cases sel <;> simp [mux2to1]

/-- The wires `stages` of `shift_right`. -/
def shiftRightStages (msb : Bool) (din : BitVec n) (shiftN : BitVec (Nat.clog 2 n + 1)) :
    Nat → BitVec n
  | 0 => din
  | s + 1 =>
    let prev := shiftRightStages msb din shiftN s
    BitVec.ofFnLE fun b ↦
      if n - 2 ^ s ≤ b.val then mux2to1 (prev.getLsbD b.val) msb (shiftN.getLsbD s)
      else mux2to1 (prev.getLsbD b.val) (prev.getLsbD (b.val + 2 ^ s)) (shiftN.getLsbD s)

/-- `shift_right`. -/
def shiftRight (sign : Bool) (din : BitVec n) (shiftN : BitVec (Nat.clog 2 n + 1)) : BitVec n :=
  let shiftsNum := Nat.clog 2 n
  let msb := sign && din.getLsbD (n - 1)
  -- if number of shifts bigger than size of din, then output only msb
  if shiftN.getLsbD shiftsNum then fill n msb else shiftRightStages msb din shiftN shiftsNum

/-- The bit reversal at the ends of `shift` for a left shift. -/
def reverse (v : BitVec n) : BitVec n := BitVec.ofFnLE fun k ↦ v.getLsbD (n - k.val - 1)

/-- `shift`: `rightEn` is 0 for a left shift and 1 for a right shift. -/
def shift (rightEn sign : Bool) (din : BitVec n) (shiftN : BitVec (Nat.clog 2 n + 1)) :
    BitVec n :=
  let signIn := rightEn && sign
  if rightEn then shiftRight signIn din shiftN
  else reverse (shiftRight signIn (reverse din) shiftN)

/-- The wires `stages` of `shift_left`. -/
def shiftLeftStages (din : BitVec n) (shiftN : BitVec (Nat.clog 2 n + 1)) : Nat → BitVec n
  | 0 => din
  | s + 1 =>
    let prev := shiftLeftStages din shiftN s
    BitVec.ofFnLE fun b ↦
      if b.val < 2 ^ s then mux2to1 (prev.getLsbD b.val) false (shiftN.getLsbD s)
      else mux2to1 (prev.getLsbD b.val) (prev.getLsbD (b.val - 2 ^ s)) (shiftN.getLsbD s)

/-- `shift_left`. -/
def shiftLeft (din : BitVec n) (shiftN : BitVec (Nat.clog 2 n + 1)) : BitVec n :=
  let shiftsNum := Nat.clog 2 n
  -- if number of shifts bigger than size of din, then output 0
  if shiftN.getLsbD shiftsNum then fill n false else shiftLeftStages din shiftN shiftsNum

/-! ## What the stages compute -/

/-- `v` moved down by `k` places, `b` moving in at the top. -/
def shiftIn (b : Bool) (k : Nat) (v : BitVec n) : BitVec n :=
  BitVec.ofFnLE fun i ↦ if i.val + k < n then v.getLsbD (i.val + k) else b

@[simp] theorem getElem_shiftIn (b : Bool) (k : Nat) (v : BitVec n) (i : Nat) (h : i < n) :
    (shiftIn b k v)[i] = if i + k < n then v.getLsbD (i + k) else b := by
  simp [shiftIn]

theorem shiftIn_zero (b : Bool) (v : BitVec n) : shiftIn b 0 v = v := by
  ext i hi
  simp [hi]

theorem shiftIn_shiftIn (b : Bool) (j k : Nat) (v : BitVec n) :
    shiftIn b j (shiftIn b k v) = shiftIn b (j + k) v := by
  ext i hi
  rw [getElem_shiftIn, getElem_shiftIn]
  by_cases hj : i + j < n
  · simp [hj, Nat.add_assoc]
  · rw [if_neg hj, if_neg (by omega)]

theorem shiftIn_of_le (b : Bool) {k : Nat} (hk : n ≤ k) (v : BitVec n) :
    shiftIn b k v = fill n b := by
  ext i hi
  rw [getElem_shiftIn, getElem_fill, if_neg (by omega)]

/-- The multiplexer stages are stages of `shiftIn`. -/
theorem shiftRightStages_eq_staged (msb : Bool) (din : BitVec n)
    (shiftN : BitVec (Nat.clog 2 n + 1)) (k : Nat) :
    shiftRightStages msb din shiftN k = staged (shiftIn msb) shiftN din k := by
  induction k with
  | zero => rfl
  | succ s ih =>
    rw [shiftRightStages, staged, ih]
    ext i hi
    simp only [BitVec.getElem_ofFnLE, mux2to1_eq]
    cases hs : shiftN.getLsbD s with
    | false => simp [hi]
    | true =>
      simp only [if_true, getElem_shiftIn]
      by_cases hi' : i + 2 ^ s < n
      · rw [if_neg (by omega), if_pos hi']
      · rw [if_pos (by omega), if_neg hi']

/-- An amount whose top bit is clear is its residue. -/
theorem toNat_mod_of_getLsbD_false {m : Nat} {a : BitVec (m + 1)} (h : a.getLsbD m = false) :
    a.toNat % 2 ^ m = a.toNat := by
  have hbit := mod_two_pow_succ_bit a m
  rw [Nat.mod_eq_of_lt a.isLt, h] at hbit
  simpa using hbit.symm

/-- An amount whose top bit is set is at least that power of two. -/
theorem le_toNat_of_getLsbD_true {m : Nat} {a : BitVec (m + 1)} (h : a.getLsbD m = true) :
    2 ^ m ≤ a.toNat := by
  have hbit := mod_two_pow_succ_bit a m
  rw [Nat.mod_eq_of_lt a.isLt, h] at hbit
  simp at hbit
  omega

/-- With the top bit set nothing of the word is left. -/
theorem le_toNat_of_top {shiftN : BitVec (Nat.clog 2 n + 1)}
    (h : shiftN.getLsbD (Nat.clog 2 n) = true) : n ≤ shiftN.toNat :=
  le_trans (Nat.le_pow_clog (by omega) n) (le_toNat_of_getLsbD_true h)

/-- `shift_right` moves the word down by the whole amount. -/
theorem shiftRight_eq_shiftIn (sign : Bool) (din : BitVec n)
    (shiftN : BitVec (Nat.clog 2 n + 1)) :
    shiftRight sign din shiftN = shiftIn (sign && din.getLsbD (n - 1)) shiftN.toNat din := by
  rw [shiftRight]
  cases h : shiftN.getLsbD (Nat.clog 2 n) with
  | true =>
    rw [if_pos rfl, shiftIn_of_le _ (le_toNat_of_top h)]
  | false =>
    rw [if_neg Bool.false_ne_true, shiftRightStages_eq_staged,
      staged_eq (shiftIn_zero _) (shiftIn_shiftIn _), toNat_mod_of_getLsbD_false h]

theorem shiftIn_false (k : Nat) (v : BitVec n) : shiftIn false k v = v >>> k := by
  ext i hi
  rw [getElem_shiftIn, BitVec.getElem_ushiftRight, Nat.add_comm k i]
  by_cases h : i + k < n
  · rw [if_pos h]
  · rw [if_neg h, BitVec.getLsbD_of_ge v (i + k) (by omega)]

theorem shiftIn_msb (k : Nat) (v : BitVec n) :
    shiftIn (v.getLsbD (n - 1)) k v = v.sshiftRight k := by
  ext i hi
  rw [getElem_shiftIn, BitVec.getElem_sshiftRight, BitVec.msb_eq_getLsbD_last, Nat.add_comm k i]
  by_cases h : i + k < n
  · rw [if_pos h, dif_pos h, BitVec.getLsbD_eq_getElem]
  · rw [if_neg h, dif_neg h]

theorem reverse_shiftIn_reverse (k : Nat) (v : BitVec n) :
    reverse (shiftIn false k (reverse v)) = v <<< k := by
  ext i hi
  have hlt : n - i - 1 < n := by omega
  simp only [reverse, BitVec.getElem_ofFnLE, BitVec.getElem_shiftLeft]
  rw [BitVec.getLsbD_eq_getElem hlt, getElem_shiftIn]
  by_cases h : n - i - 1 + k < n
  · rw [if_pos h, BitVec.getLsbD_eq_getElem h, BitVec.getElem_ofFnLE]
    have hk : ¬ i < k := by omega
    simp only [hk, decide_false, Bool.not_false, Bool.true_and]
    rw [← BitVec.getLsbD_eq_getElem]
    congr 1
    omega
  · have hk : i < k := by omega
    simp [h, hk]

/-- A left shift, whatever `sign` is. -/
@[simp] theorem shift_left (sign : Bool) (din : BitVec n) (shiftN : BitVec (Nat.clog 2 n + 1)) :
    shift false sign din shiftN = din <<< shiftN.toNat := by
  simp only [shift, Bool.false_and, Bool.false_eq_true, if_false, shiftRight_eq_shiftIn]
  exact reverse_shiftIn_reverse _ _

/-- A logical right shift. -/
@[simp] theorem shift_right_logical (din : BitVec n) (shiftN : BitVec (Nat.clog 2 n + 1)) :
    shift true false din shiftN = din >>> shiftN.toNat := by
  simp [shift, shiftRight_eq_shiftIn, shiftIn_false]

/-- An arithmetic right shift. -/
@[simp] theorem shift_right_arith (din : BitVec n) (shiftN : BitVec (Nat.clog 2 n + 1)) :
    shift true true din shiftN = din.sshiftRight shiftN.toNat := by
  simp [shift, shiftRight_eq_shiftIn, shiftIn_msb]

/-! ## The left shifter -/

/-- The multiplexer stages of `shift_left` are stages of `<<<`. -/
theorem shiftLeftStages_eq_staged (din : BitVec n) (shiftN : BitVec (Nat.clog 2 n + 1)) (k : Nat) :
    shiftLeftStages din shiftN k = staged (fun a (v : BitVec n) ↦ v <<< a) shiftN din k := by
  induction k with
  | zero => rfl
  | succ s ih =>
    rw [shiftLeftStages, staged, ih]
    ext i hi
    simp only [BitVec.getElem_ofFnLE, mux2to1_eq]
    cases hs : shiftN.getLsbD s with
    | false => simp [hi]
    | true =>
      simp only [if_true, BitVec.getElem_shiftLeft]
      by_cases hi' : i < 2 ^ s
      · rw [if_pos hi']
        simp [hi']
      · rw [if_neg hi', ← BitVec.getLsbD_eq_getElem]
        simp [hi']

/-- `shift_left` moves the word up by the whole amount. -/
theorem shiftLeft_eq (din : BitVec n) (shiftN : BitVec (Nat.clog 2 n + 1)) :
    shiftLeft din shiftN = din <<< shiftN.toNat := by
  rw [shiftLeft]
  cases h : shiftN.getLsbD (Nat.clog 2 n) with
  | true =>
    rw [if_pos rfl, BitVec.shiftLeft_eq_zero (le_toNat_of_top h)]
    rfl
  | false =>
    have hadd : ∀ (a b : Nat) (v : BitVec n), v <<< b <<< a = v <<< (a + b) := by
      intro a b v
      rw [Nat.add_comm, BitVec.shiftLeft_add]
    rw [if_neg Bool.false_ne_true, shiftLeftStages_eq_staged,
      staged_eq BitVec.shiftLeft_zero hadd, toNat_mod_of_getLsbD_false h]

/-- The shifters over the integers, for every amount that the port can carry. -/
theorem shift_computes (din : BitVec n) (shiftN : BitVec (Nat.clog 2 n + 1)) :
    (∀ sign, (shift false sign din shiftN).toNat = din.toNat * 2 ^ shiftN.toNat % 2 ^ n) ∧
    (shift true false din shiftN).toNat = din.toNat / 2 ^ shiftN.toNat ∧
    (shift true true din shiftN).toInt = din.toInt / 2 ^ shiftN.toNat ∧
    ∀ sign, shiftLeft din shiftN = shift false sign din shiftN := by
  refine ⟨fun sign ↦ ?_, ?_, ?_, fun sign ↦ ?_⟩
  · rw [shift_left, BitVec.toNat_shiftLeft, Nat.shiftLeft_eq]
  · rw [shift_right_logical, BitVec.toNat_ushiftRight, Nat.shiftRight_eq_div_pow]
  · rw [shift_right_arith, BitVec.toInt_sshiftRight, Int.shiftRight_eq_div_pow]
    push_cast
    rfl
  · rw [shift_left, shiftLeft_eq]

end RtlCores.Modules
