import RtlCores.Lib.Bytes
import RtlCores.Lib.Clocked

/-!
# Byte arrays

A byte array is a function from addresses to bytes; a period writes at most one block of
consecutive bytes.  A run keeps at each address the byte of the latest write that covers it.
-/

namespace RtlCores.Lib

/-- The write of the `size` bytes `data 0, data 1, …` from `addr` on. -/
structure BlockWrite where
  addr : Nat
  size : Nat
  data : Nat → BitVec 8

namespace BlockWrite

variable (w : BlockWrite) (a : Nat → BitVec 8) {i : Nat}

/-- Address `i` lies in the block. -/
def Covers (i : Nat) : Prop := w.addr ≤ i ∧ i < w.addr + w.size

instance (i : Nat) : Decidable (w.Covers i) := inferInstanceAs (Decidable (_ ∧ _))

/-- The byte written at address `i`. -/
def byte (i : Nat) : BitVec 8 := w.data (i - w.addr)

/-- The array after the write. -/
def apply (i : Nat) : BitVec 8 := if w.Covers i then w.byte i else a i

theorem apply_of_covers (h : w.Covers i) : w.apply a i = w.byte i := if_pos h

theorem apply_of_not_covers (h : ¬ w.Covers i) : w.apply a i = a i := if_neg h

end BlockWrite

/-- One period of the byte array. -/
def storeStep (w : Option BlockWrite) (a : Nat → BitVec 8) : Nat → BitVec 8 :=
  match w with
  | none => a
  | some w => w.apply a

variable (ws : Nat → Option BlockWrite) (a : Nat → BitVec 8) {i k : Nat}

/-- A byte that the writes of `n` periods do not cover keeps its value. -/
theorem run_storeStep_of_not_covers {n : Nat}
    (h : ∀ j < n, ∀ w, ws j = some w → ¬ w.Covers i) : run storeStep ws a n i = a i := by
  induction n with
  | zero => rfl
  | succ n ih =>
    have hn := h n (Nat.lt_succ_self n)
    rw [run_succ]
    cases hw : ws n with
    | none => exact ih fun j hj ↦ h j (Nat.lt_succ_of_lt hj)
    | some w =>
      exact (w.apply_of_not_covers _ (hn w hw)).trans (ih fun j hj ↦ h j (Nat.lt_succ_of_lt hj))

/-- The latest write that covers a byte is the one that shows. -/
theorem run_storeStep_of_latest {n : Nat} (hk : k < n) {w : BlockWrite} (hw : ws k = some w)
    (hcov : w.Covers i) (hlater : ∀ j, k < j → j < n → ∀ w', ws j = some w' → ¬ w'.Covers i) :
    run storeStep ws a n i = w.byte i := by
  obtain ⟨d, rfl⟩ := Nat.exists_eq_add_of_lt hk
  rw [Nat.add_right_comm, run_add]
  have hrest : ∀ j < d, ∀ w', ws (k + 1 + j) = some w' → ¬ w'.Covers i := by
    intro j hj w' hw'
    exact hlater (k + 1 + j) (by omega) (by omega) w' hw'
  rw [run_storeStep_of_not_covers _ _ hrest, run_succ, hw]
  exact w.apply_of_covers _ hcov

end RtlCores.Lib
