import Mathlib

/-!
# Words assembled from slices

Hardware descriptions build a word by part-select assignment (`v[hi:lo] = x`), by
replication (`{k{b}}`) and by concatenation.  `splice` and `fill` are the first two
over an arbitrary width; concatenation is `BitVec.append`.
-/

namespace RtlCores.Lib

variable {w n : Nat}

/-- `v` with the `n` bits from position `lo` replaced by `x`.  Bits of `x` past the
end of `v` are dropped. -/
def splice (v : BitVec w) (lo : Nat) (x : BitVec n) : BitVec w :=
  BitVec.ofFnLE fun i ↦
    if lo ≤ i.val ∧ i.val < lo + n then x.getLsbD (i.val - lo) else v.getLsbD i.val

@[simp] theorem getElem_splice (v : BitVec w) (lo : Nat) (x : BitVec n) (i : Nat) (h : i < w) :
    (splice v lo x)[i] =
      if lo ≤ i ∧ i < lo + n then x.getLsbD (i - lo) else v[i] := by
  simp [splice]

theorem getLsbD_splice (v : BitVec w) (lo : Nat) (x : BitVec n) (i : Nat) :
    (splice v lo x).getLsbD i =
      (decide (i < w) && if lo ≤ i ∧ i < lo + n then x.getLsbD (i - lo) else v.getLsbD i) := by
  by_cases h : i < w
  · simp [h]
  · simp [h, BitVec.getLsbD_of_ge (splice v lo x) i (by omega)]

/-- `v` with the bits assigned that a clocked block assigns without blocking, the last one first to
count; an assignment past the end of `v` is dropped. -/
def nonblocking (v : BitVec w) (as : List (Nat × Bool)) : BitVec w :=
  as.foldl (fun v a ↦ splice v a.1 (BitVec.ofBool a.2)) v

theorem getLsbD_splice_ofBool (v : BitVec w) (lo : Nat) (b : Bool) {i : Nat} (h : i = lo → lo < w) :
    (splice v lo (BitVec.ofBool b)).getLsbD i = if i = lo then b else v.getLsbD i := by
  rw [getLsbD_splice]
  by_cases hi : i = lo
  · subst hi
    simp [h rfl]
  · rw [if_neg hi, if_neg (by omega)]
    by_cases hw : i < w
    · simp [hw]
    · simp [hw, BitVec.getLsbD_of_ge v i (by omega)]

/-- A bit to which nothing is assigned keeps its value. -/
theorem getLsbD_nonblocking_of_ne {as : List (Nat × Bool)} (v : BitVec w) {i : Nat} (hi : i < w)
    (h : ∀ a ∈ as, a.1 ≠ i) : (nonblocking v as).getLsbD i = v.getLsbD i := by
  induction as generalizing v with
  | nil => rfl
  | cons a as ih =>
    have hrest := ih (splice v a.1 (BitVec.ofBool a.2)) fun c hc ↦ h c (List.mem_cons_of_mem a hc)
    rw [getLsbD_splice_ofBool v a.1 a.2 (· ▸ hi), if_neg (h a List.mem_cons_self).symm] at hrest
    exact hrest

/-- A bit to which one value is assigned has that value. -/
theorem getLsbD_nonblocking_of_mem {as : List (Nat × Bool)} (v : BitVec w) {i : Nat} (hi : i < w)
    {b : Bool} (hmem : (i, b) ∈ as) (h : ∀ a ∈ as, a.1 = i → a.2 = b) :
    (nonblocking v as).getLsbD i = b := by
  induction as generalizing v with
  | nil => exact absurd hmem List.not_mem_nil
  | cons a as ih =>
    show (nonblocking (splice v a.1 (BitVec.ofBool a.2)) as).getLsbD i = b
    have htail : ∀ c ∈ as, c.1 = i → c.2 = b := fun c hc ↦ h c (List.mem_cons_of_mem a hc)
    by_cases hlater : (i, b) ∈ as
    · exact ih _ hlater htail
    · have hne : ∀ c ∈ as, c.1 ≠ i := by
        rintro ⟨j, d⟩ hc rfl
        obtain rfl : d = b := htail _ hc rfl
        exact hlater hc
      have hhead : a = (i, b) := ((List.mem_cons.mp hmem).resolve_right hlater).symm
      rw [getLsbD_nonblocking_of_ne _ hi hne, hhead, getLsbD_splice_ofBool v i b fun _ ↦ hi,
        if_pos rfl]

/-- A loop that assigns other bits leaves a bit that was assigned before it. -/
theorem getLsbD_nonblocking_head {ι : Type} {js : List ι} {f : ι → Nat} {g : ι → Bool}
    (v : BitVec w) {k : Nat} {b : Bool} (hk : k < w) (h : ∀ j ∈ js, f j ≠ k) :
    (nonblocking v ((k, b) :: js.map fun j ↦ (f j, g j))).getLsbD k = b := by
  refine getLsbD_nonblocking_of_mem v hk List.mem_cons_self ?_
  rintro a ha hka
  rcases List.mem_cons.mp ha with rfl | ha
  · rfl
  · obtain ⟨j, hj, rfl⟩ := List.mem_map.mp ha
    exact absurd hka (h j hj)

/-- A bit that a loop assigns in one of its turns only. -/
theorem getLsbD_nonblocking_map {ι : Type} {js : List ι} {f : ι → Nat} {g : ι → Bool}
    (v : BitVec w) {k : Nat} {b : Bool} {i : ι} (hi : f i < w) (hmem : i ∈ js) (hne : k ≠ f i)
    (hinj : ∀ j, f j = f i → j = i) :
    (nonblocking v ((k, b) :: js.map fun j ↦ (f j, g j))).getLsbD (f i) = g i := by
  refine getLsbD_nonblocking_of_mem v hi (List.mem_cons_of_mem _ ?_) ?_
  · exact List.mem_map.mpr ⟨i, hmem, rfl⟩
  · rintro a ha hka
    rcases List.mem_cons.mp ha with rfl | ha
    · exact absurd hka hne
    · obtain ⟨j, -, rfl⟩ := List.mem_map.mp ha
      rw [hinj j hka]

/-- `k` copies of the bit `b`. -/
def fill (k : Nat) (b : Bool) : BitVec k := if b then BitVec.allOnes k else 0

@[simp] theorem getElem_fill (k : Nat) (b : Bool) (i : Nat) (h : i < k) :
    (fill k b)[i] = b := by
  cases b <;> simp [fill]

@[simp] theorem fill_false (k : Nat) : fill k false = 0 := rfl

/-- Prefixing copies of the sign bit is sign extension. -/
theorem fill_msb_append (k : Nat) (x : BitVec n) :
    fill k x.msb ++ x = x.signExtend (k + n) := by
  ext i hi
  rw [BitVec.getElem_append, BitVec.getElem_signExtend]
  by_cases h : i < n <;> simp [h]

/-- Sign extension in two steps. -/
theorem signExtend_signExtend {k : Nat} (h : n ≤ k) (m : Nat) (x : BitVec n) :
    (x.signExtend k).signExtend m = x.signExtend m := by
  ext i hi
  have hmsb : (x.signExtend k).msb = x.msb := by
    rw [BitVec.msb_signExtend]
    rcases Nat.lt_or_ge n k with hlt | hge
    · have hnk : ¬ k ≤ n := by omega
      simp [hnk]
      omega
    · obtain rfl : n = k := by omega
      simp [BitVec.msb, BitVec.getMsbD]
  rw [BitVec.getElem_signExtend, BitVec.getElem_signExtend, hmsb]
  by_cases hik : i < k
  · rw [dif_pos hik, BitVec.getElem_signExtend]
  · rw [dif_neg hik, dif_neg (by omega)]

/-- Adding one binary digit to a residue. -/
theorem mod_two_pow_succ_bit (a : BitVec w) (s : Nat) :
    a.toNat % 2 ^ (s + 1) = 2 ^ s * (a.getLsbD s).toNat + a.toNat % 2 ^ s := by
  rw [Nat.mod_pow_succ, ← BitVec.testBit_toNat, Nat.toNat_testBit, Nat.add_comm]

/-- A word from its low bits and its top bit. -/
theorem toNat_eq_low_add_top (hw : 0 < w) (x : BitVec w) :
    x.toNat = 2 ^ (w - 1) * (x.getLsbD (w - 1)).toNat + x.toNat % 2 ^ (w - 1) := by
  have hbit := mod_two_pow_succ_bit x (w - 1)
  rwa [Nat.sub_add_cancel hw, Nat.mod_eq_of_lt x.isLt] at hbit

/-- A signed word from its low bits and its sign bit. -/
theorem toInt_eq_low_sub_sign (hw : 0 < w) (x : BitVec w) :
    x.toInt = (x.toNat % 2 ^ (w - 1) : Nat) - (2 ^ (w - 1) * (x.getLsbD (w - 1)).toNat : Nat) := by
  have htop := toNat_eq_low_add_top hw x
  have hpow : 2 ^ w = 2 * 2 ^ (w - 1) := by
    rw [← Nat.pow_succ', Nat.succ_eq_add_one, Nat.sub_add_cancel hw]
  rw [BitVec.toInt_eq_msb_cond, BitVec.msb_eq_getLsbD_last, hpow]
  generalize x.toNat % 2 ^ (w - 1) = low at *
  generalize 2 ^ (w - 1) = p at *
  cases hb : x.getLsbD (w - 1) <;> rw [hb] at htop <;>
    simp only [Bool.toNat_true, Bool.toNat_false, if_true, Bool.false_eq_true, if_false]
      at htop ⊢ <;>
    omega

end RtlCores.Lib
