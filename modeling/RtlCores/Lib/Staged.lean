import RtlCores.Lib.Bits

/-!
# Logarithmic shifting

A barrel shifter applies, for each bit `s` of the shift amount, a shift by `2 ^ s` if
the bit is set.  That the stages compose to one shift by the whole amount needs only
that shifts compose additively, so the statement is about an arbitrary additive family
of maps `op : ℕ → α → α`.
-/

namespace RtlCores.Lib

variable {α : Type*} {m : Nat}

/-- The value after `k` stages, stage `s` applying `op (2 ^ s)` when bit `s` of `amount`
is set. -/
def staged (op : Nat → α → α) (amount : BitVec m) (x : α) : Nat → α
  | 0 => x
  | s + 1 => if amount.getLsbD s then op (2 ^ s) (staged op amount x s) else staged op amount x s

/-- After `k` stages the value has been shifted by the `k` low bits of the amount. -/
theorem staged_eq {op : Nat → α → α} (hzero : ∀ x, op 0 x = x)
    (hadd : ∀ a b x, op a (op b x) = op (a + b) x) (amount : BitVec m) (x : α) (k : Nat) :
    staged op amount x k = op (amount.toNat % 2 ^ k) x := by
  induction k with
  | zero => simp [staged, Nat.mod_one, hzero]
  | succ s ih =>
    rw [staged, ih, mod_two_pow_succ_bit]
    cases h : amount.getLsbD s with
    | true => simp [hadd]
    | false => simp

end RtlCores.Lib
