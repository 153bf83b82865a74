import RtlCores.Uart.TopPeriod

/-!
# The input filter of the receiver (`UART/uart.sv`)

`rx_sync_reg` holds the last three samples of the selected line, and the receiver is to be given
their majority.  The synchroniser is bypassed where bits 8 to 2 of the divisor are zero; the
divisor has sixteen bits, so that is not only the divisors below 4.
-/

namespace RtlCores.Uart.UartUut

open RtlCores.Lib RtlCores.Modules

variable (i : UartIn) (s : UartUut)

/-! ## One period of the UART by itself -/

/-- The state before the posedge that ends a period, the lines being steady since they changed
right after the previous posedge. -/
def mid : UartUut := (s.settle i).negedge i

def period : UartUut := (s.mid i).posedge i

/-- The line as the posedge that ends the period samples it. -/
def sample : Bool := (s.mid i).rxSin i

/-- The level that the receiver is given before that posedge. -/
def given : Bool := (s.mid i).rxDin i

/-- The states after a posedge in reset. -/
def AfterReset (s : UartUut) : Prop := ∃ i s₀, i.res = true ∧ s = period i s₀

/-- The line as the synchroniser remembers it: three ones from the reset, then the samples. -/
def heard (is : Nat → UartIn) (s : UartUut) : Nat → Bool
  | n + 3 => sample (is n) (run period is s n)
  | _ => true

variable {i s}

theorem follow_rxSyncReg (clk : Bool) : (s.follow clk i).rxSyncReg = s.rxSyncReg := by
  unfold follow
  split <;> rfl

theorem mid_rxSyncReg (hi : i.res = false) : (s.mid i).rxSyncReg = s.rxSyncReg := by
  show (((s.follow true i).async i).follow true i).rxSyncReg = _
  rw [follow_rxSyncReg]
  show (if i.res then 7 else (s.follow true i).rxSyncReg) = _
  rw [hi, if_neg Bool.false_ne_true, follow_rxSyncReg]

/-- A posedge shifts the sample in. -/
theorem period_rxSyncReg (hi : i.res = false) :
    (s.period i).rxSyncReg = s.rxSyncReg.extractLsb' 0 2 ++ BitVec.ofBool (s.sample i) := by
  show (if i.res then 7 else (s.mid i).rxSyncReg.extractLsb' 0 2 ++ _) = _
  rw [hi, if_neg Bool.false_ne_true, mid_rxSyncReg hi]
  rfl

theorem getLsbD_shiftIn (r : BitVec 3) (b : Bool) :
    (r.extractLsb' 0 2 ++ BitVec.ofBool b).getLsbD 0 = b ∧
      (r.extractLsb' 0 2 ++ BitVec.ofBool b).getLsbD 1 = r.getLsbD 0 ∧
      (r.extractLsb' 0 2 ++ BitVec.ofBool b).getLsbD 2 = r.getLsbD 1 := by
  revert r b
  decide

/-! ## The last three samples -/

/-- The synchroniser holds the last three samples, the newest in bit 0. -/
structure Remembers (x : Nat → Bool) (n : Nat) (s : UartUut) : Prop where
  newest : s.rxSyncReg.getLsbD 0 = x (n + 2)
  middle : s.rxSyncReg.getLsbD 1 = x (n + 1)
  oldest : s.rxSyncReg.getLsbD 2 = x n

theorem AfterReset.remembers (h : AfterReset s) (is : Nat → UartIn) :
    Remembers (heard is s) 0 s := by
  obtain ⟨i, s₀, hi, hs⟩ := h
  have hreg : s.rxSyncReg = 7 := by
    rw [hs]
    show (if i.res then 7 else _) = _
    exact if_pos hi
  constructor <;> rw [hreg] <;> rfl

theorem Remembers.period {x : Nat → Bool} {n : Nat} (h : Remembers x n s) (hi : i.res = false)
    (hx : x (n + 3) = s.sample i) : Remembers x (n + 1) (s.period i) := by
  obtain ⟨h₀, h₁, h₂⟩ := getLsbD_shiftIn s.rxSyncReg (s.sample i)
  constructor <;> rw [period_rxSyncReg hi]
  case newest => exact h₀.trans hx.symm
  case middle => exact h₁.trans h.newest
  case oldest => exact h₂.trans h.middle

theorem remembers_run (h : AfterReset s) {is : Nat → UartIn} (hres : ∀ n, (is n).res = false)
    (n : Nat) : Remembers (heard is s) n (run UartUut.period is s n) := by
  induction n with
  | zero => exact h.remembers is
  | succ n ih => exact ih.period (hres n) rfl

theorem Remembers.rxSync {x : Nat → Bool} {n : Nat} (h : Remembers x n s) :
    s.rxSync = (x n).atLeastTwo (x (n + 1)) (x (n + 2)) := by
  rw [UartUut.rxSync, h.newest, h.middle, h.oldest]
  cases x n <;> cases x (n + 1) <;> cases x (n + 2) <;> rfl

/-! ## Which divisors are filtered -/

/-- The bypass looks at nine bits of the divisor. -/
theorem bypass_iff (d : BitVec 16) : (d.extractLsb' 2 7 == 0) = true ↔ d.toNat % 512 < 4 := by
  rw [beq_iff_eq, ← BitVec.toNat_inj, BitVec.extractLsb'_toNat, Nat.shiftRight_eq_div_pow]
  show d.toNat / 4 % 128 = 0 ↔ _
  omega

theorem given_of_filtered (hi : i.res = false) (hd : 4 ≤ i.divisor.toNat % 512) :
    s.given i = s.rxSync := by
  have hno : ¬(i.divisor.extractLsb' 2 7 == 0) = true := by
    rw [bypass_iff]
    omega
  rw [given, rxDin, if_neg hno, UartUut.rxSync, UartUut.rxSync, mid_rxSyncReg hi]

theorem given_of_bypassed (hd : i.divisor.toNat % 512 < 4) : s.given i = s.sample i := by
  rw [given, rxDin, if_pos ((bypass_iff _).mpr hd), sample]

/-- With divisor `d` the receiver is given the majority of the last three samples, and a pulse of
one clock never reaches it. -/
structure Filters (d : BitVec 16) : Prop where
  majority : ∀ is s, AfterReset s → (∀ n, (is n).res = false) → ∀ n, (is n).divisor = d →
    given (is n) (run period is s n) =
      (heard is s n).atLeastTwo (heard is s (n + 1)) (heard is s (n + 2))
  pulse : ∀ is s, AfterReset s → (∀ n, (is n).res = false) → ∀ m v,
    (∀ j ≤ 4, heard is s (m + j) = if j = 2 then v else !v) →
    ∀ j ≤ 2, (is (m + j)).divisor = d → given (is (m + j)) (run period is s (m + j)) = !v

theorem filters_of_le {d : BitVec 16} (hd : 4 ≤ d.toNat % 512) : Filters d := by
  have hmajority : ∀ is s, AfterReset s → (∀ n, (is n).res = false) → ∀ n, (is n).divisor = d →
      given (is n) (run period is s n) =
        (heard is s n).atLeastTwo (heard is s (n + 1)) (heard is s (n + 2)) := by
    intro is s hs hres n hn
    rw [given_of_filtered (hres n) (by rw [hn]; exact hd)]
    exact (remembers_run hs hres n).rxSync
  refine ⟨hmajority, ?_⟩
  intro is s hs hres m v hv j hj hdiv
  have hthree : ∀ l ≤ 2, heard is s (m + j + l) = if j + l = 2 then v else !v := by
    intro l hl
    rw [Nat.add_assoc]
    exact hv (j + l) (by omega)
  have h₀ := hthree 0 (by omega)
  have h₁ := hthree 1 (by omega)
  have h₂ := hthree 2 (by omega)
  rw [Nat.add_zero] at h₀
  -- only one of the three samples is the pulse
  rw [hmajority is s hs hres _ hdiv, h₀, h₁, h₂]
  obtain rfl | rfl | rfl : j = 0 ∨ j = 1 ∨ j = 2 := by omega
  all_goals cases v <;> rfl

/-- Lines that are low and steady, with the divisor `d`. -/
def lowLine (d : BitVec 16) : UartIn :=
  ⟨false, false, false, false, false, false, 0, d, 0, 0⟩

/-- A bypassed receiver sees the line fall at once. -/
theorem not_filters_of_lt {d : BitVec 16} (hd : d.toNat % 512 < 4) : ¬Filters d := by
  intro h
  have hgiven := h.majority (fun _ ↦ lowLine d)
    (period { lowLine d with res := true } Top.zeros.uart) ⟨_, _, rfl, rfl⟩ (fun _ ↦ rfl) 0 rfl
  rw [given_of_bypassed hd] at hgiven
  exact absurd hgiven Bool.false_ne_true

/-- The receiver's input is filtered with exactly the divisors that are at least 4 in their nine
low bits. -/
theorem filters_iff (d : BitVec 16) : Filters d ↔ 4 ≤ d.toNat % 512 := by
  constructor
  · intro h
    by_contra hlt
    exact not_filters_of_lt (by omega) h
  · exact filters_of_le

/-- Divisor 512 is not filtered. -/
theorem not_filters_512 : ¬∀ d : BitVec 16, 4 ≤ d.toNat → Filters d := by
  intro h
  exact not_filters_of_lt (by decide) (h 0x200#16 (by decide))

end RtlCores.Uart.UartUut
