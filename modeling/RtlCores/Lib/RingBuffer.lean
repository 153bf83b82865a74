import RtlCores.Lib.Bits

/-!
# Ring buffers

A memory of `2 ^ a` cells, indexed by `BitVec a` so that indices wrap by themselves,
holds a list in the `n` cells from a read index on.  `window` reads that list off;
appending at the write index and dropping at the read index are the list operations,
as long as the list fits.
-/

namespace RtlCores.Lib

variable {a : Nat} {α : Type*}

/-- The `n` cells of `mem` from index `r` on, wrapping around. -/
def window (mem : BitVec a → α) (r : BitVec a) (n : Nat) : List α :=
  (List.range n).map fun i ↦ mem (r + BitVec.ofNat a i)

@[simp] theorem length_window (mem : BitVec a → α) (r : BitVec a) (n : Nat) :
    (window mem r n).length = n := by simp [window]

@[simp] theorem window_zero (mem : BitVec a → α) (r : BitVec a) : window mem r 0 = [] := rfl

/-- The last cell of a window split off. -/
theorem window_succ (mem : BitVec a → α) (r : BitVec a) (n : Nat) :
    window mem r (n + 1) = window mem r n ++ [mem (r + BitVec.ofNat a n)] := by
  simp [window, List.range_succ]

/-- The first cell of a window split off. -/
theorem window_succ_head (mem : BitVec a → α) (r : BitVec a) (n : Nat) :
    window mem r (n + 1) = mem r :: window mem (r + 1) n := by
  simp only [window, List.range_succ_eq_map, List.map_cons, List.map_map, BitVec.ofNat_eq_ofNat,
    BitVec.add_zero, List.cons.injEq, true_and]
  refine List.map_congr_left fun i _ ↦ ?_
  simp only [Function.comp_apply, Nat.succ_eq_add_one, BitVec.ofNat_add]
  rw [BitVec.add_comm (BitVec.ofNat a i), ← BitVec.add_assoc]

/-- Offsets below `2 ^ a` address different cells. -/
theorem add_ofNat_ne {r : BitVec a} {i j : Nat} (hi : i < 2 ^ a) (hj : j < 2 ^ a) (h : i ≠ j) :
    r + BitVec.ofNat a i ≠ r + BitVec.ofNat a j := by
  intro heq
  have hij : BitVec.ofNat a i = BitVec.ofNat a j := add_left_cancel heq
  have := congrArg BitVec.toNat hij
  rw [BitVec.toNat_ofNat, BitVec.toNat_ofNat, Nat.mod_eq_of_lt hi, Nat.mod_eq_of_lt hj] at this
  exact h this

/-- Writing the cell just past a window that is not full does not touch the window. -/
theorem window_update [DecidableEq (BitVec a)] (mem : BitVec a → α) (r : BitVec a) {n : Nat}
    (hn : n < 2 ^ a) (x : α) :
    window (Function.update mem (r + BitVec.ofNat a n) x) r n = window mem r n := by
  refine List.map_congr_left fun i hi ↦ ?_
  have hin : i < n := List.mem_range.mp hi
  exact Function.update_of_ne (add_ofNat_ne (by omega) hn (by omega)) _ _

/-- Writing the cell just past a window and taking it in appends to the list. -/
theorem window_push (mem : BitVec a → α) (r : BitVec a) {n : Nat} (hn : n < 2 ^ a) (x : α) :
    window (Function.update mem (r + BitVec.ofNat a n) x) r (n + 1) = window mem r n ++ [x] := by
  rw [window_succ, window_update mem r hn, Function.update_self]

/-- Appending while dropping the oldest: also on a full window, where the cell just past it
is the one dropped. -/
theorem window_push_drop (mem : BitVec a → α) (r : BitVec a) {n : Nat} (hpos : 0 < n)
    (hn : n ≤ 2 ^ a) (x : α) :
    window (Function.update mem (r + BitVec.ofNat a n) x) (r + 1) n =
      (window mem r n).tail ++ [x] := by
  obtain ⟨k, rfl⟩ : ∃ k, n = k + 1 := ⟨n - 1, by omega⟩
  have hlast : r + 1 + BitVec.ofNat a k = r + BitVec.ofNat a (k + 1) := by
    rw [BitVec.add_assoc, Nat.add_comm k 1, BitVec.ofNat_add]
    rfl
  have h := window_push mem (r + 1) (n := k) (by omega) x
  rw [hlast] at h
  rw [h, window_succ_head]
  rfl

end RtlCores.Lib
