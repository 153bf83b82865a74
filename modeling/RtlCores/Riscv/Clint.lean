import RtlCores.Modules.Counter
import RtlCores.Riscv.Pkg

/-!
# The local interrupt controller (`RISCV_SingleCycle/clint.sv`)

Three registers that are written at the negedge of `clk`, and a counter, clocked at the posedge,
that scans the external interrupt lines while nothing is pending.
-/

namespace RtlCores.Riscv

open RtlCores.Lib RtlCores.Modules

variable {xlen exIrq : Nat}

/-! ## `op_clint_csr` -/

namespace ClintCsr

def msip : BitVec 32 := 0x02000000
def mtime : BitVec 32 := 0x0200BFF8
def mtimecmp : BitVec 32 := 0x02004000

end ClintCsr

/-- The width of `cnt`, declared as `[$clog2(XLEN)-1:0]`. -/
def cntWidth (xlen : Nat) : Nat := if Nat.clog 2 xlen = 0 then 2 else Nat.clog 2 xlen

/-- The registers of `clint`, with the flip-flops of its counter. -/
structure Clint (xlen exIrq : Nat) where
  msip : BitVec xlen
  mtime : BitVec xlen
  mtimecmp : BitVec xlen
  count : BitVec (Nat.clog 2 exIrq)

/-- The input ports over a clock: the write at its negedge, the lines at its posedge. -/
structure ClintIn (xlen exIrq : Nat) where
  wrEn : Bool
  dataAddr : BitVec 32
  dataIn : BitVec xlen
  irqExternal : BitVec exIrq

namespace Clint

variable (i : ClintIn xlen exIrq) (s : Clint xlen exIrq)

def irqSwPending : Bool := s.msip.getLsbD 0

def cnt : BitVec (cntWidth xlen) := if exIrq ≤ 1 then 0 else s.count.setWidth (cntWidth xlen)

/-- `irq_external[cnt]`, which is 0 outside the lines. -/
def irqExPending : Bool := i.irqExternal.getLsbD s.cnt.toNat

def irqTimerPending : Bool := decide (s.mtime ≤ s.mtimecmp)

def irqMmodeEn : Bool := !s.irqSwPending && !s.irqExPending i && !s.irqTimerPending

/-- The registers while `res` is high. -/
def reset : Clint xlen exIrq := ⟨0, 0, 0, 0⟩

/-- A negedge of `clk`. -/
def negedge : Clint xlen exIrq where
  msip := if i.wrEn && i.dataAddr == ClintCsr.msip then i.dataIn else s.msip
  mtime := if i.wrEn && i.dataAddr == ClintCsr.mtime then i.dataIn else s.mtime
  mtimecmp := if i.wrEn && i.dataAddr == ClintCsr.mtimecmp then i.dataIn else s.mtimecmp
  count := s.count

/-- A posedge of `clk`. -/
def posedge : Clint xlen exIrq :=
  { s with count := CounterTffSync.clock ⟨true, s.irqMmodeEn i, true⟩ s.count }

def clock : Clint xlen exIrq := (s.negedge i).posedge i

/-- The registers after `n` clocks since the reset. -/
def after (is : Nat → ClintIn xlen exIrq) (n : Nat) : Clint xlen exIrq := run clock is reset n

/-! ## The timer -/

def writesMtime (i : ClintIn xlen exIrq) : Bool := i.wrEn && i.dataAddr == ClintCsr.mtime

theorem clock_mtime :
    (s.clock i).mtime = if writesMtime i then i.dataIn else s.mtime := rfl

theorem clock_mtimecmp_of_writesMtime (h : writesMtime i = true) :
    (s.clock i).mtimecmp = s.mtimecmp := by
  obtain ⟨-, haddr⟩ := Bool.and_eq_true_iff.mp h
  have hother : (i.dataAddr == ClintCsr.mtimecmp) = false := by
    rw [beq_iff_eq.mp haddr]
    rfl
  show (if i.wrEn && i.dataAddr == ClintCsr.mtimecmp then i.dataIn else s.mtimecmp) = _
  rw [hother, Bool.and_false, if_neg Bool.false_ne_true]

/-- The timer interrupt is pending when the time has come. -/
def TimerRight : Prop := s.irqTimerPending = true ↔ s.mtimecmp ≤ s.mtime

/-- The comparison is the wrong way round. -/
theorem timerRight_iff : s.TimerRight ↔ s.mtime = s.mtimecmp := by
  rw [TimerRight, irqTimerPending, decide_eq_true_iff]
  constructor
  · intro h
    rcases BitVec.le_total s.mtime s.mtimecmp with hle | hle
    · exact BitVec.le_antisymm hle (h.mp hle)
    · exact BitVec.le_antisymm (h.mpr hle) hle
  · intro h
    rw [h]

/-- On a clock on which it is not written, `mtime` advances by one. -/
def MtimeCounts : Prop := writesMtime i = false → (s.clock i).mtime = s.mtime + 1

theorem mtimeCounts_iff (hx : 0 < xlen) : s.MtimeCounts i ↔ writesMtime i = true := by
  rw [MtimeCounts, clock_mtime]
  constructor
  · intro h
    by_contra hno
    rw [Bool.not_eq_true] at hno
    have hstuck := h hno
    rw [hno, if_neg Bool.false_ne_true, left_eq_add] at hstuck
    have hone : (1 : BitVec xlen).toNat = 0 := congrArg BitVec.toNat hstuck
    exact absurd ((BitVec.toNat_one hx).symm.trans hone) Nat.one_ne_zero
  · intro h hno
    rw [h] at hno
    contradiction

/-- The clock writes 0 to `mtime`. -/
def ClearsMtime : Prop := writesMtime i = true ∧ i.dataIn = 0

/-- As long as every clock writes 0 to `mtime`, it and `mtimecmp` stay 0. -/
theorem after_of_clears {is : Nat → ClintIn xlen exIrq} {n : Nat}
    (h : ∀ m < n, ClearsMtime (is m)) : (after is n).mtime = 0 ∧ (after is n).mtimecmp = 0 := by
  induction n with
  | zero => exact ⟨rfl, rfl⟩
  | succ n ih =>
    obtain ⟨-, hcmp⟩ := ih fun m hm ↦ h m (Nat.lt_succ_of_lt hm)
    obtain ⟨hwrite, hdata⟩ := h n (Nat.lt_succ_self n)
    constructor
    · rw [after, run_succ, clock_mtime, if_pos hwrite, hdata]
    · rw [after, run_succ, clock_mtimecmp_of_writesMtime _ _ hwrite]
      exact hcmp

/-- In a run of `n` clocks from reset `mtime` counts and the timer interrupt is right throughout
exactly if every clock writes 0 to `mtime`. -/
theorem timer_right_iff (hx : 0 < xlen) (is : Nat → ClintIn xlen exIrq) (n : Nat) :
    ((∀ m < n, (after is m).MtimeCounts (is m)) ∧ ∀ m ≤ n, (after is m).TimerRight) ↔
      ∀ m < n, ClearsMtime (is m) := by
  constructor
  · rintro ⟨hcounts, hright⟩ m hm
    induction m using Nat.strong_induction_on with
    | _ m ih =>
      have hbefore := after_of_clears fun k hk ↦ ih k hk (hk.trans hm)
      have hwrite := (mtimeCounts_iff (is m) _ hx).mp (hcounts m hm)
      have hnext := (timerRight_iff _).mp (hright (m + 1) hm)
      rw [after, run_succ, clock_mtime, if_pos hwrite, clock_mtimecmp_of_writesMtime _ _ hwrite]
        at hnext
      exact ⟨hwrite, hnext.trans hbefore.2⟩
  · intro h
    constructor
    · intro m hm
      exact (mtimeCounts_iff (is m) _ hx).mpr (h m hm).1
    · intro m hm
      obtain ⟨htime, hcmp⟩ := after_of_clears fun k hk ↦ h k (hk.trans_le hm)
      exact (timerRight_iff _).mpr (htime.trans hcmp.symm)

/-- A clock without a write. -/
def quiet : ClintIn xlen exIrq := ⟨false, 0, 0, 0⟩

/-- Two clocks that write 0 to `mtime`. -/
theorem timer_right_cleared :
    (after (fun _ ↦ ⟨true, ClintCsr.mtime, 0, 0⟩) 2 : Clint 32 1).TimerRight :=
  ((timer_right_iff (by decide) (fun _ ↦ ⟨true, ClintCsr.mtime, 0, 0⟩) 2).mpr
    fun _ _ ↦ ⟨rfl, rfl⟩).2 2 le_rfl

/-- After one clock without a write the time is still 0; and when 1 has been written to `mtime` and
`mtimecmp` is 0, no timer interrupt is pending. -/
theorem timer_not_right :
    (¬∀ (is : Nat → ClintIn 32 1) (n : Nat), (after is n).MtimeCounts (is n)) ∧
      ¬∀ (is : Nat → ClintIn 32 1) (n : Nat), (after is n).TimerRight := by
  constructor
  · intro h
    have hstuck := h (fun _ ↦ quiet) 0 rfl
    revert hstuck
    decide
  · intro h
    have hpending := (h (fun _ ↦ ⟨true, ClintCsr.mtime, 1, 0⟩) 1).mpr (by decide)
    revert hpending
    decide

/-! ## The scan -/

/-- No count can leave the range: the lines are a power of two, or as many as `cnt` can tell. -/
def ScanFits (xlen exIrq : Nat) : Prop := (∃ k, exIrq = 2 ^ k) ∨ 2 ^ cntWidth xlen ≤ exIrq

/-- At this posedge the counter goes on from the last line. -/
def PassesLast : Prop :=
  (s.negedge i).irqMmodeEn i = true ∧ s.cnt.toNat = exIrq - 1

theorem toNat_count_clock :
    (s.clock i).count.toNat =
      counted (Nat.clog 2 exIrq) ⟨true, (s.negedge i).irqMmodeEn i, true⟩ s.count.toNat := by
  rw [← toNat_countedWord, ← CounterTffSync.clock_eq]
  rfl

theorem cnt_lt_of_fits (he : 1 ≤ exIrq) (h : ScanFits xlen exIrq) : s.cnt.toNat < exIrq := by
  rw [cnt]
  split
  · exact he
  · rcases h with ⟨k, hk⟩ | hw
    · have hcount : s.count.toNat < exIrq := by
        have hpow : 2 ^ Nat.clog 2 exIrq = exIrq := by
          rw [hk, Nat.clog_pow 2 k Nat.one_lt_two]
        exact s.count.isLt.trans_eq hpow
      rw [BitVec.toNat_setWidth]
      exact (Nat.mod_le _ _).trans_lt hcount
    · exact (BitVec.isLt _).trans_le hw

/-- Otherwise `cnt` is the counter itself, which does not wrap right after the last line. -/
structure ScanOverruns (xlen exIrq : Nat) : Prop where
  one_lt : 1 < exIrq
  lt_pow : exIrq < 2 ^ Nat.clog 2 exIrq
  clog_le : Nat.clog 2 exIrq ≤ cntWidth xlen

theorem scanOverruns_of_not_fits (he : 1 ≤ exIrq) (h : ¬ScanFits xlen exIrq) :
    ScanOverruns xlen exIrq := by
  rw [ScanFits, not_or, not_exists, Nat.not_le] at h
  obtain ⟨hpow, hlt⟩ := h
  have hone : exIrq ≠ 1 := hpow 0
  constructor
  case one_lt => omega
  case lt_pow => exact lt_of_le_of_ne (Nat.le_pow_clog Nat.one_lt_two exIrq) (hpow _)
  case clog_le => exact Nat.clog_le_of_le_pow hlt.le

theorem ScanOverruns.toNat_cnt (h : ScanOverruns xlen exIrq) (s : Clint xlen exIrq) :
    s.cnt.toNat = s.count.toNat := by
  have hlt : s.count.toNat < 2 ^ cntWidth xlen :=
    s.count.isLt.trans_le (Nat.pow_le_pow_right Nat.two_pos h.clog_le)
  rw [cnt, if_neg (Nat.not_le.mpr h.one_lt), BitVec.toNat_setWidth, Nat.mod_eq_of_lt hlt]

/-- Below the number of lines the counter counts without wrapping. -/
theorem ScanOverruns.toNat_cnt_clock (h : ScanOverruns xlen exIrq) (i : ClintIn xlen exIrq)
    {s : Clint xlen exIrq} (hs : s.cnt.toNat < exIrq) :
    (s.clock i).cnt.toNat =
      if (s.negedge i).irqMmodeEn i then s.cnt.toNat + 1 else s.cnt.toNat := by
  have hroom : s.count.toNat + 1 < 2 ^ Nat.clog 2 exIrq := by
    rw [h.toNat_cnt] at hs
    exact (Nat.succ_le_of_lt hs).trans_lt h.lt_pow
  rw [h.toNat_cnt, h.toNat_cnt, toNat_count_clock, counted, Nat.mod_eq_of_lt hroom]
  rfl

theorem ScanOverruns.clock_lt_iff (h : ScanOverruns xlen exIrq) (i : ClintIn xlen exIrq)
    {s : Clint xlen exIrq} (hs : s.cnt.toNat < exIrq) :
    (s.clock i).cnt.toNat < exIrq ↔ ¬s.PassesLast i := by
  rw [h.toNat_cnt_clock i hs, PassesLast]
  cases (s.negedge i).irqMmodeEn i with
  | false => simp [hs]
  | true =>
    have hone := h.one_lt
    simp only [if_true, true_and]
    omega

/-- In a run the scan stays in range as long as it does not pass the last line. -/
theorem ScanOverruns.run_lt_iff (h : ScanOverruns xlen exIrq) (is : Nat → ClintIn xlen exIrq) :
    (∀ n, (after is n).cnt.toNat < exIrq) ↔ ∀ n, ¬(after is n).PassesLast (is n) := by
  constructor
  · intro hlt n
    exact (h.clock_lt_iff (is n) (hlt n)).mp (hlt (n + 1))
  · intro hno n
    induction n with
    | zero =>
      rw [h.toNat_cnt]
      exact Nat.zero_lt_of_lt h.one_lt
    | succ n ih => exact (h.clock_lt_iff (is n) ih).mpr (hno n)

/-- The first clock sets `mtime` past `mtimecmp`; from then on nothing is pending. -/
def scanning (n : Nat) : ClintIn xlen exIrq := ⟨n == 0, ClintCsr.mtime, 1, 0⟩

theorem irqMmodeEn_scanning (hx : 0 < xlen) (n : Nat) :
    ((after scanning n).negedge (scanning n) : Clint xlen exIrq).irqMmodeEn (scanning n) =
      true := by
  have hregs : ∀ n, ((after scanning n).negedge (scanning n) : Clint xlen exIrq).msip = 0 ∧
      ((after scanning n).negedge (scanning n) : Clint xlen exIrq).mtime = 1 ∧
      ((after scanning n).negedge (scanning n) : Clint xlen exIrq).mtimecmp = 0 := by
    intro n
    induction n with
    | zero => exact ⟨rfl, rfl, rfl⟩
    | succ n ih => exact ih
  obtain ⟨hmsip, hmtime, hmtimecmp⟩ := hregs n
  have hsw : ((after scanning n).negedge (scanning n) : Clint xlen exIrq).irqSwPending = false := by
    rw [irqSwPending, hmsip]
    exact BitVec.getLsbD_zero
  have hex : ((after scanning n).negedge (scanning n) : Clint xlen exIrq).irqExPending
      (scanning n) = false := BitVec.getLsbD_zero
  have htimer : ((after scanning n).negedge (scanning n) : Clint xlen exIrq).irqTimerPending =
      false := by
    have hone : (1 : BitVec xlen).toNat = 1 := BitVec.toNat_one hx
    rw [irqTimerPending, hmtime, hmtimecmp, decide_eq_false_iff_not, BitVec.le_def, hone]
    exact Nat.not_succ_le_zero 0
  rw [irqMmodeEn, hsw, hex, htimer]
  rfl

theorem ScanOverruns.toNat_cnt_scanning (h : ScanOverruns xlen exIrq) (hx : 0 < xlen) {n : Nat}
    (hn : n ≤ exIrq) : (after scanning n : Clint xlen exIrq).cnt.toNat = n := by
  induction n with
  | zero =>
    rw [h.toNat_cnt]
    exact BitVec.toNat_zero
  | succ n ih =>
    have hcnt := ih (Nat.le_of_succ_le hn)
    have hnext := h.toNat_cnt_clock (scanning n) (s := after scanning n) (by rw [hcnt]; exact hn)
    rw [irqMmodeEn_scanning hx, if_pos rfl, hcnt] at hnext
    exact hnext

/-- A run keeps the scan in range exactly if the lines fit or it never passes the last line, and
all runs do exactly if the lines fit. -/
theorem scan_in_range_iff (hx : 0 < xlen) (he : 1 ≤ exIrq) :
    (∀ is : Nat → ClintIn xlen exIrq, (∀ n, (after is n).cnt.toNat < exIrq) ↔
      ScanFits xlen exIrq ∨ ∀ n, ¬(after is n).PassesLast (is n)) ∧
      ((∀ (is : Nat → ClintIn xlen exIrq) (n : Nat), (after is n).cnt.toNat < exIrq) ↔
        ScanFits xlen exIrq) := by
  by_cases hfits : ScanFits xlen exIrq
  · have hlt (is : Nat → ClintIn xlen exIrq) (n : Nat) : (after is n).cnt.toNat < exIrq :=
      cnt_lt_of_fits _ he hfits
    refine ⟨fun is ↦ ?_, ?_⟩
    · exact iff_of_true (hlt is) (.inl hfits)
    · exact iff_of_true hlt hfits
  · have hover := scanOverruns_of_not_fits he hfits
    refine ⟨fun is ↦ ?_, ?_⟩
    · rw [or_iff_right hfits]
      exact hover.run_lt_iff is
    · refine iff_of_false (fun hall ↦ ?_) hfits
      have hlt := hall scanning exIrq
      rw [hover.toNat_cnt_scanning hx le_rfl] at hlt
      exact Nat.lt_irrefl _ hlt

/-- Eight lines, with `XLEN = 32`, after nine clocks. -/
theorem scan_in_range_eight : (after (scanning : Nat → ClintIn 32 8) 9).cnt.toNat < 8 :=
  (scan_in_range_iff (by decide) (by decide)).2.mpr (.inl ⟨3, rfl⟩) scanning 9

/-- With three lines the scan reaches line 3. -/
theorem scan_out_of_range_three :
    ¬∀ (is : Nat → ClintIn 32 3) (n : Nat), (after is n).cnt.toNat < 3 := by
  intro h
  have hlt := h scanning 3
  have hover : ScanOverruns 32 3 := ⟨by decide, by decide, by decide⟩
  rw [hover.toNat_cnt_scanning (by decide) le_rfl] at hlt
  exact Nat.lt_irrefl 3 hlt

end Clint

end RtlCores.Riscv
