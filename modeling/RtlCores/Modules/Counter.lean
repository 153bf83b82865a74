import RtlCores.Lib.Clocked
import RtlCores.Lib.Ripple

/-!
# Counters (`modules/counter.v`, `modules/flip_flop.v`)

Four counters of `n` flip-flops.  Three are clocked together and carry the condition to toggle from
one bit to the next, as an enable, as a T input or as J and K inputs; in the fourth each flip-flop
is clocked by the one below it.  All four toggle along the chain of `Lib.Ripple`.
-/

namespace RtlCores.Modules

open RtlCores.Lib

/-! ## Flip-flops -/

/-- `ff_d` after a posedge of `clk`. -/
def ffD (resN en din q : Bool) : Bool := if !resN then false else if en then din else q

/-- `ff_t` after a posedge of `clk`. -/
def ffT (resN t q : Bool) : Bool := if !resN then false else if t then !q else q

/-- `ff_jk` after a posedge of `clk`. -/
def ffJk (j k q : Bool) : Bool :=
  match j, k with
  | false, false => q
  | false, true => false
  | true, false => true
  | true, true => !q

/-- The inputs that the counters share; `countUp` is a parameter of `counter_tff_async`. -/
structure CountIn where
  resN : Bool
  en : Bool
  countUp : Bool

variable {n : Nat} (i : CountIn) (count : BitVec n)

/-! ## `counter`

The first three counters have one and the same chain of wires. -/

namespace Counter

variable (loadEn : Bool) (load : BitVec n)

def dinAnd : Nat → Bool := toggles i.en i.countUp count.getLsbD

def enXor : Nat → Bool
  | 0 => if loadEn then load.getLsbD 0 else i.en ^^ count.getLsbD 0
  | k + 1 =>
    if loadEn then load.getLsbD (k + 1) else dinAnd i count (k + 1) ^^ count.getLsbD (k + 1)

/-- The flip-flops after a posedge of `clk`. -/
def clock : BitVec n :=
  BitVec.ofFnLE fun k ↦ ffD i.resN i.en (enXor i count loadEn load k.val) (count.getLsbD k.val)

end Counter

/-! ## `counter_tff_sync` -/

namespace CounterTffSync

def enAnd : Nat → Bool := toggles i.en i.countUp count.getLsbD

/-- The flip-flops after a posedge of `clk`. -/
def clock : BitVec n :=
  BitVec.ofFnLE fun k ↦ ffT i.resN (enAnd i count k.val) (count.getLsbD k.val)

end CounterTffSync

/-! ## `counter_jkff` -/

namespace CounterJkff

def bigJ : Bool := i.en && i.resN

def bigK : Bool := i.en || !i.resN

def d : Nat → Bool := toggles i.en i.countUp count.getLsbD

def j (k : Nat) : Bool := if bigJ i != bigK i then bigJ i else d i count k

def k (k : Nat) : Bool := if bigJ i != bigK i then bigK i else d i count k

/-- The flip-flops after a posedge of `clk`. -/
def clock : BitVec n :=
  BitVec.ofFnLE fun b ↦ ffJk (j i count b.val) (k i count b.val) (count.getLsbD b.val)

end CounterJkff

/-! ## `counter_tff_async` -/

namespace CounterTffAsync

/-- The flip-flops while `res_n` has its level, before the posedge of `clk`.  A flip-flop that is
clocked by the fall of the one below stays clear too. -/
def async : BitVec n := if i.resN then count else 0

/-- A posedge on a wire that goes from one level to another. -/
def rises (old new : Bool) : Bool := !old && new

/-- Whether `ff_clk[k]` has a posedge when `clk` has one: for `k` above 0 it follows the flip-flop
below. -/
def clocked : Nat → Bool
  | 0 => true
  | k + 1 =>
    rises (i.countUp ^^ count.getLsbD k)
      (i.countUp ^^ if clocked k then ffT i.resN i.en (count.getLsbD k) else count.getLsbD k)

/-- The flip-flops when the posedge of `clk` has rippled through. -/
def ripple : BitVec n :=
  BitVec.ofFnLE fun k ↦
    if clocked i count k.val then ffT i.resN i.en (count.getLsbD k.val) else count.getLsbD k.val

def clock : BitVec n := ripple i (async i count)

end CounterTffAsync

/-! ## What they count -/

/-- The value after a posedge. -/
def counted (n : Nat) (i : CountIn) (v : Nat) : Nat :=
  if !i.resN then 0
  else if i.en then (if i.countUp then (v + 1) % 2 ^ n else (v + (2 ^ n - 1)) % 2 ^ n)
  else v

/-- The word after a posedge. -/
def countedWord : BitVec n := if !i.resN then 0 else toggled i.en i.countUp count

theorem toNat_countedWord : (countedWord i count).toNat = counted n i count.toNat := by
  unfold countedWord counted
  split
  · exact Nat.zero_mod _
  · exact toNat_toggled _ _ _

variable {i count}

/-- A word is the next one if its bits are. -/
theorem eq_countedWord {x : BitVec n}
    (h : ∀ k < n, x.getLsbD k = if !i.resN then false
      else toggles i.en i.countUp count.getLsbD k ^^ count.getLsbD k) :
    x = countedWord i count := by
  refine BitVec.eq_of_getLsbD_eq fun k hk ↦ (h k hk).trans ?_
  unfold countedWord
  split
  · exact BitVec.getLsbD_zero.symm
  · simp [toggled, hk]

theorem toggles_of_not_en {up : Bool} {x : Nat → Bool} (k : Nat) :
    toggles false up x k = false := by
  induction k with
  | zero => rfl
  | succ k ih => rw [toggles, ih, Bool.false_and]

theorem Counter.clock_eq (load : BitVec n) : clock i count false load = countedWord i count := by
  refine eq_countedWord fun k hk ↦ ?_
  have hxor : enXor i count false load k =
      (toggles i.en i.countUp count.getLsbD k ^^ count.getLsbD k) := by
    cases k with
    | zero => rfl
    | succ k => rfl
  have hbit : (clock i count false load).getLsbD k =
      ffD i.resN i.en (enXor i count false load k) (count.getLsbD k) := by simp [clock, hk]
  rw [hbit, hxor, ffD]
  cases i.resN with
  | false => rfl
  | true =>
    cases hen : i.en with
    | false => rw [toggles_of_not_en]; simp
    | true => rfl

theorem CounterTffSync.clock_eq : clock i count = countedWord i count := by
  refine eq_countedWord fun k hk ↦ ?_
  have hbit : (clock i count).getLsbD k = ffT i.resN (enAnd i count k) (count.getLsbD k) := by
    simp [clock, hk]
  rw [hbit, enAnd, ffT]
  cases toggles i.en i.countUp count.getLsbD k <;> simp

/-- `J` and `K` differ only to clear. -/
theorem CounterJkff.clock_eq : clock i count = countedWord i count := by
  refine eq_countedWord fun b hb ↦ ?_
  have hbit : (clock i count).getLsbD b =
      ffJk (j i count b) (k i count b) (count.getLsbD b) := by simp [clock, hb]
  rw [hbit, j, k, d, bigJ, bigK]
  cases i.resN <;> cases i.en <;> cases toggles _ i.countUp count.getLsbD b <;>
    cases count.getLsbD b <;> rfl

/-- A flip-flop is clocked and enabled exactly when the chain tells it to toggle. -/
theorem CounterTffAsync.clocked_and_en (hres : i.resN = true) (k : Nat) :
    (clocked i count k && i.en) = toggles i.en i.countUp count.getLsbD k := by
  induction k with
  | zero => rfl
  | succ k ih =>
    rw [toggles, ← ih, clocked, rises, ffT, hres]
    cases clocked i count k <;> cases i.en <;> cases i.countUp <;> cases count.getLsbD k <;> rfl

theorem CounterTffAsync.clock_eq : clock i count = countedWord i count := by
  refine eq_countedWord fun k hk ↦ ?_
  have hbit : (clock i count).getLsbD k =
      if clocked i (async i count) k then ffT i.resN i.en ((async i count).getLsbD k)
      else (async i count).getLsbD k := by simp [clock, ripple, hk]
  rw [hbit]
  cases hres : i.resN with
  | false => simp [async, hres, ffT]
  | true =>
    rw [← clocked_and_en hres, show async i count = count from if_pos hres, ffT]
    cases clocked i count k <;> cases i.en <;> simp

/-! ## Runs -/

/-- A counter that is reset in its first clock holds from then on what is counted from 0. -/
theorem toNat_run (step : CountIn → BitVec n → BitVec n) (is : Nat → CountIn)
    (hstep : ∀ m x, step (is m) x = countedWord (is m) x) (hreset : (is 0).resN = false)
    (x : BitVec n) (m : Nat) :
    (run step is x (m + 1)).toNat = run (counted n) (fun m ↦ is (m + 1)) 0 m := by
  induction m with
  | zero =>
    rw [run_succ, run_zero, hstep, toNat_countedWord, counted, hreset]
    rfl
  | succ m ih => rw [run_succ, hstep, toNat_countedWord, ih, run_succ]

/-- Whatever they hold before the reset and whatever is on the load input, the counters with a
common clock hold the same value, which counts modulo `2 ^ n`; so does the rippling counter, built
for a direction, when the others are given that direction. -/
theorem counters_agree (n : Nat) (is : Nat → CountIn) (hreset : (is 0).resN = false)
    (load x y z : BitVec n) (m : Nat) :
    (run (fun i c ↦ Counter.clock i c false load) is x (m + 1)).toNat =
        run (counted n) (fun m ↦ is (m + 1)) 0 m ∧
      (run CounterTffSync.clock is y (m + 1)).toNat =
        run (counted n) (fun m ↦ is (m + 1)) 0 m ∧
      (run CounterJkff.clock is z (m + 1)).toNat =
        run (counted n) (fun m ↦ is (m + 1)) 0 m ∧
      ∀ up (u : BitVec n), (∀ m, (is m).countUp = up) →
        (run (fun i c ↦ CounterTffAsync.clock { i with countUp := up } c) is u (m + 1)).toNat =
          run (counted n) (fun m ↦ is (m + 1)) 0 m := by
  refine ⟨?_, ?_, ?_, ?_⟩
  · exact toNat_run _ is (fun _ _ ↦ Counter.clock_eq load) hreset x m
  · exact toNat_run _ is (fun _ _ ↦ CounterTffSync.clock_eq) hreset y m
  · exact toNat_run _ is (fun _ _ ↦ CounterJkff.clock_eq) hreset z m
  · intro up u hup
    refine toNat_run _ is (fun m c ↦ ?_) hreset u m
    show CounterTffAsync.clock { is m with countUp := up } c = _
    rw [← hup m]
    exact CounterTffAsync.clock_eq

/-- A reset, then counting up. -/
def countUpwards (m : Nat) : CountIn := ⟨m != 0, true, true⟩

/-- Three bits that count up nine times from a reset, in the first counter and in the rippling
one. -/
theorem counters_agree_up :
    (run (fun i c ↦ Counter.clock i c false 0) countUpwards 5#3 10).toNat = 1 ∧
      (run (fun i c ↦ CounterTffAsync.clock { i with countUp := true } c) countUpwards 6#3
        10).toNat = 1 := by
  have hcount : run (counted 3) (fun m ↦ countUpwards (m + 1)) 0 9 = 1 := by decide
  have h := counters_agree 3 countUpwards rfl 0 5 2 7 9
  exact ⟨h.1.trans hcount, (h.2.2.2 true 6 fun _ ↦ rfl).trans hcount⟩

/-! ## Loading

The counter that can be loaded comes in two builds.  In the one above `load_en` switches the inputs
of flip-flops that `en` enables; in the other, behind `GATE_FLOW_OFF`, it comes before `en`. -/

/-- The input ports of `counter`. -/
structure CounterIn (n : Nat) extends CountIn where
  loadEn : Bool
  load : BitVec n

namespace Counter

/-- A posedge of `clk` in the build of gates and flip-flops. -/
def gateFlow (i : CounterIn n) (count : BitVec n) : BitVec n :=
  clock i.toCountIn count i.loadEn i.load

/-- A posedge of `clk` in the build with `GATE_FLOW_OFF`.  Its reset waits for the posedge, over
which `res_n` is held. -/
def gateFlowOff (i : CounterIn n) (C : BitVec n) : BitVec n :=
  if !i.resN then 0
  else if i.loadEn then i.load
  else if i.en then C + (if i.countUp then 1#n else -1#n)
  else C

theorem toNat_neg_one (n : Nat) : (-1#n).toNat = 2 ^ n - 1 := by
  rw [BitVec.neg_one_eq_allOnes, BitVec.toNat_allOnes]

/-- One counter adds what the other counts along its chain. -/
theorem gateFlowOff_eq_countedWord {i : CounterIn n} (hload : i.loadEn = false) (C : BitVec n) :
    gateFlowOff i C = countedWord i.toCountIn C := by
  apply BitVec.eq_of_toNat_eq
  rw [toNat_countedWord, counted, gateFlowOff, hload]
  cases i.resN with
  | false => exact Nat.zero_mod _
  | true =>
    cases i.en with
    | false => rfl
    | true =>
      cases i.countUp with
      | false =>
        have hadd := BitVec.toNat_add C (-1#n)
        rwa [toNat_neg_one] at hadd
      | true =>
        have hadd := BitVec.toNat_add C 1#n
        rwa [BitVec.toNat_ofNat, Nat.add_mod_mod] at hadd

/-- Behind the enable, a load reaches the flip-flops of an enabled counter only. -/
theorem gateFlow_load {i : CounterIn n} (hres : i.resN = true) (hload : i.loadEn = true)
    (count : BitVec n) : gateFlow i count = if i.en then i.load else count := by
  apply BitVec.eq_of_getLsbD_eq
  intro k hk
  have hxor : enXor i.toCountIn count i.loadEn i.load k = i.load.getLsbD k := by
    rw [hload]
    cases k with
    | zero => rfl
    | succ k => rfl
  have hbit : (gateFlow i count).getLsbD k =
      ffD i.resN i.en (enXor i.toCountIn count i.loadEn i.load k) (count.getLsbD k) := by
    simp [gateFlow, clock, hk]
  rw [hbit, hxor, hres, ffD]
  cases i.en with
  | false => rfl
  | true => rfl

/-- At this posedge a counter that is not enabled is told to load another word than it holds. -/
def LoadsDisabled (i : CounterIn n) (count : BitVec n) : Prop :=
  i.resN = true ∧ i.loadEn = true ∧ i.en = false ∧ i.load ≠ count

instance (i : CounterIn n) (count : BitVec n) : Decidable (LoadsDisabled i count) :=
  inferInstanceAs (Decidable (_ ∧ _))

theorem gateFlow_eq_gateFlowOff_iff (i : CounterIn n) (count : BitVec n) :
    gateFlow i count = gateFlowOff i count ↔ ¬LoadsDisabled i count := by
  cases hload : i.loadEn with
  | false =>
    have heq : gateFlow i count = gateFlowOff i count := by
      rw [gateFlowOff_eq_countedWord hload, gateFlow, hload, clock_eq]
    simp [heq, LoadsDisabled, hload]
  | true =>
    cases hres : i.resN with
    | false =>
      have hoff : gateFlowOff i count = 0 := by simp [gateFlowOff, hres]
      have hon : gateFlow i count = 0 := by
        ext k hk
        simp [gateFlow, clock, ffD, hres]
      simp [hoff, hon, LoadsDisabled, hres]
    | true =>
      have hoff : gateFlowOff i count = i.load := by simp [gateFlowOff, hres, hload]
      rw [gateFlow_load hres hload, hoff]
      cases hen : i.en with
      | false => simp [LoadsDisabled, hres, hload, hen, eq_comm]
      | true => simp [LoadsDisabled, hen]

/-- The two builds hold the same count after every posedge exactly in the runs in which no counter
is told to load while it is not enabled, other than the word it holds. -/
theorem counter_builds_agree_iff (n : Nat) (is : Nat → CounterIn n) (c : BitVec n) :
    (∀ m, run gateFlow is c m = run gateFlowOff is c m) ↔
      ∀ m, ¬LoadsDisabled (is m) (run gateFlow is c m) := by
  rw [run_eq_iff]
  exact forall_congr' fun m ↦ gateFlow_eq_gateFlowOff_iff (is m) _

/-- A counter of four bits is reset and then, not enabled, told to load 8. -/
def loadDisabled (m : Nat) : CounterIn 4 := ⟨⟨m != 0, false, true⟩, m == 1, 8⟩

/-- One build keeps 0 and the other loads. -/
theorem counter_builds_disagree :
    ¬∀ (n : Nat), 1 ≤ n → ∀ (is : Nat → CounterIn n) (c : BitVec n) (m : Nat),
      run gateFlow is c m = run gateFlowOff is c m := by
  intro h
  exact absurd (h 4 (by decide) loadDisabled 0 2) (by decide)

end Counter

end RtlCores.Modules
