import RtlCores.Lib.Phases

/-!
# Simulation time of the testbench (`RISCV_SingleCycle/testbench/interface.cpp`)

The interface keeps the time of the simulation and drives the clock of the design: `eval_sim` lets
at most a phase of the clock pass and evaluates the design, and `wait` cuts an interval into such
pieces.  Intervals are not negative here; the VCD file, which gets the time of each evaluation, is
left out.
-/

namespace RtlCores.Riscv

open RtlCores.Lib

/-- `CLK_PHASE` -/
def clkPhase : Nat := 40

/-- What Verilator provides: `eval` of the design at a level of `clk`, and whether the simulation
has finished. -/
structure Verilated (Top : Type) where
  eval : Bool → Top → Top
  gotFinish : Top → Bool

/-- A call of `eval_sim`: its argument, and what `Verilated::gotFinish()` returned. -/
structure SimCall where
  interval : Nat
  gotFinish : Bool
deriving DecidableEq, Repr

/-- `Interface`, with a record of the calls of `eval_sim` and of the timestamp and the clock at each
evaluation of the design. -/
structure Interface (Top : Type) where
  timestamp : BitVec 64
  clk : Bool
  top : Top
  calls : List SimCall
  evals : List (BitVec 64 × Bool)

namespace Interface

variable {Top : Type} (v : Verilated Top)

/-- `eval_sim` -/
def evalSim (s : Interface Top) (interval : Nat) : Interface Top :=
  let s := { s with calls := s.calls ++ [⟨interval, v.gotFinish s.top⟩] }
  if v.gotFinish s.top then s
  else if clkPhase < interval then s
  else
    let timestamp := s.timestamp + BitVec.ofNat 64 interval
    let clk := if interval ≠ 0 ∧ timestamp.toNat % clkPhase = 0 then !s.clk else s.clk
    { s with
      timestamp := timestamp
      clk := clk
      top := v.eval clk s.top
      evals := s.evals ++ [(timestamp, clk)] }

/-- The loop of `wait`: the number of cycles, and what remains of the interval. -/
def phases : Nat → Interface Top → Nat → Interface Top × Nat
  | 0, s, interval => (s, interval)
  | cycles + 1, s, interval => phases cycles (s.evalSim v clkPhase) (interval - clkPhase)

/-- `wait` -/
def wait (s : Interface Top) (interval : Nat := clkPhase) : Interface Top :=
  let delta := clkPhase - s.timestamp.toNat % clkPhase
  let (s, interval) :=
    if delta ≠ 0 ∧ delta < interval then (s.evalSim v delta, interval - delta) else (s, interval)
  let cycles := interval / clkPhase
  let (s, interval) := phases v cycles s interval
  if cycles ≠ 0 ∧ interval = 0 then s else s.evalSim v interval

/-- `wait_ticks` -/
def waitTicks : Nat → Interface Top → Interface Top
  | 0, s => s
  | repeats + 1, s => waitTicks repeats (s.wait v (clkPhase * 2))

/-! ## The pieces of an interval -/

/-- The arguments with which `wait` calls `eval_sim` behind the next edge, or on it. -/
def pieces (interval : Nat) : List Nat :=
  List.replicate (interval / clkPhase) clkPhase ++
    if interval / clkPhase ≠ 0 ∧ interval % clkPhase = 0 then [] else [interval % clkPhase]

/-- The arguments with which `wait` calls `eval_sim`. -/
def cuts (timestamp interval : Nat) : List Nat :=
  let delta := clkPhase - timestamp % clkPhase
  if delta < interval then delta :: pieces (interval - delta) else pieces interval

theorem phases_eq (cycles : Nat) (s : Interface Top) (interval : Nat) :
    phases v cycles s interval =
      ((List.replicate cycles clkPhase).foldl (evalSim v) s, interval - cycles * clkPhase) := by
  induction cycles generalizing s interval with
  | zero => rw [phases, Nat.zero_mul, Nat.sub_zero]; rfl
  | succ cycles ih =>
    rw [phases, ih, List.replicate_succ, List.foldl_cons, Nat.sub_sub, Nat.succ_mul, Nat.add_comm]

theorem wait_eq_foldl (s : Interface Top) (interval : Nat) :
    s.wait v interval = (cuts s.timestamp.toNat interval).foldl (evalSim v) s := by
  have hpieces (s : Interface Top) (interval : Nat) :
      (let cycles := interval / clkPhase
      let (s, interval) := phases v cycles s interval
      if cycles ≠ 0 ∧ interval = 0 then s else s.evalSim v interval) =
        (pieces interval).foldl (evalSim v) s := by
    have hmod : interval - interval / clkPhase * clkPhase = interval % clkPhase := by
      rw [Nat.mul_comm, Nat.mod_eq_sub]
    rw [pieces, List.foldl_append]
    simp only [phases_eq, hmod]
    split
    · rfl
    · rfl
  have hdelta : clkPhase - s.timestamp.toNat % clkPhase ≠ 0 :=
    Nat.sub_ne_zero_of_lt (Nat.mod_lt _ (by decide))
  by_cases h : clkPhase - s.timestamp.toNat % clkPhase < interval
  · have hboth := And.intro hdelta h
    rw [cuts, if_pos h, List.foldl_cons, ← hpieces]
    simp only [wait, if_pos hboth]
  · rw [cuts, if_neg h, ← hpieces]
    simp only [wait, h, and_false, if_false]

theorem sum_pieces (interval : Nat) : (pieces interval).sum = interval := by
  have hsplit := Nat.div_add_mod' interval clkPhase
  rw [pieces, List.sum_append, List.sum_replicate_nat]
  split
  case isTrue h => rw [List.sum_nil, ← h.2, hsplit]
  case isFalse => rw [List.sum_singleton, hsplit]

theorem sum_cuts (timestamp interval : Nat) : (cuts timestamp interval).sum = interval := by
  rw [cuts]
  split
  case isTrue h => rw [List.sum_cons, sum_pieces, Nat.add_sub_cancel' h.le]
  case isFalse => exact sum_pieces interval

theorem stepped_pieces {timestamp : Nat} (h : clkPhase ∣ timestamp) (interval : Nat) :
    Stepped clkPhase timestamp (pieces interval) := by
  have hrest : clkPhase ∣ timestamp + (List.replicate (interval / clkPhase) clkPhase).sum := by
    rw [List.sum_replicate_nat]
    exact Nat.dvd_add h (Nat.dvd_mul_left _ _)
  refine stepped_append (stepped_replicate h _) ?_
  split
  · trivial
  · refine ⟨?_, trivial⟩
    rw [Nat.mod_eq_zero_of_dvd hrest, Nat.zero_add]
    exact (Nat.mod_lt _ (by decide)).le

/-- No call of `eval_sim` passes an edge of the clock without stopping there. -/
theorem stepped_cuts (timestamp interval : Nat) :
    Stepped clkPhase timestamp (cuts timestamp interval) := by
  have hlt : timestamp % clkPhase < clkPhase := Nat.mod_lt _ (by decide)
  rw [cuts]
  split
  case isTrue h =>
    have hsum : timestamp % clkPhase + (clkPhase - timestamp % clkPhase) = clkPhase :=
      Nat.add_sub_cancel' hlt.le
    refine ⟨hsum.le, stepped_pieces ?_ _⟩
    nth_rewrite 1 [← Nat.div_add_mod timestamp clkPhase]
    rw [Nat.add_assoc, hsum]
    exact Nat.dvd_add (Nat.dvd_mul_right _ _) (Nat.dvd_refl _)
  case isFalse h =>
    by_cases hin : interval < clkPhase
    · rw [pieces, Nat.div_eq_of_lt hin, Nat.mod_eq_of_lt hin]
      refine ⟨?_, trivial⟩
      omega
    · refine stepped_pieces (Nat.dvd_of_mod_eq_zero ?_) interval
      omega

/-! ## A sequence of calls -/

/-- The calls of `eval_sim` between two states. -/
def newCalls (s s' : Interface Top) : List SimCall := s'.calls.drop s.calls.length

/-- The evaluations of the design between two states. -/
def newEvals (s s' : Interface Top) : List (BitVec 64 × Bool) := s'.evals.drop s.evals.length

/-- The timestamps of the evaluations at which the clock is not as before. -/
def toggles : Bool → List (BitVec 64 × Bool) → List Nat
  | _, [] => []
  | clk, (timestamp, clk') :: evals =>
    (if clk' = clk then [] else [timestamp.toNat]) ++ toggles clk' evals

/-- None of the calls with these arguments finds the simulation finished. -/
def Unfinished : Interface Top → List Nat → Prop
  | _, [] => True
  | s, d :: ds => v.gotFinish s.top = false ∧ Unfinished (s.evalSim v d) ds

theorem evalSim_calls (s : Interface Top) (interval : Nat) :
    (s.evalSim v interval).calls = s.calls ++ [⟨interval, v.gotFinish s.top⟩] := by
  rw [evalSim]
  split
  · rfl
  · split <;> rfl

theorem foldl_evalSim_calls (s : Interface Top) (ds : List Nat) :
    ∃ new, (ds.foldl (evalSim v) s).calls = s.calls ++ new := by
  induction ds generalizing s with
  | nil => exact ⟨[], (List.append_nil _).symm⟩
  | cons d ds ih =>
    obtain ⟨new, hnew⟩ := ih (s.evalSim v d)
    rw [evalSim_calls, List.append_assoc] at hnew
    exact ⟨_, hnew⟩

theorem unfinished_of_newCalls (s : Interface Top) (ds : List Nat)
    (h : ∀ c ∈ newCalls s (ds.foldl (evalSim v) s), c.gotFinish = false) : Unfinished v s ds := by
  induction ds generalizing s with
  | nil => trivial
  | cons d ds ih =>
    obtain ⟨new, hnew⟩ := foldl_evalSim_calls v (s.evalSim v d) ds
    have hcalls : newCalls s ((d :: ds).foldl (evalSim v) s) =
        ⟨d, v.gotFinish s.top⟩ ::
          newCalls (s.evalSim v d) (ds.foldl (evalSim v) (s.evalSim v d)) := by
      rw [newCalls, newCalls, List.foldl_cons, hnew, List.drop_left, evalSim_calls,
        List.append_assoc, List.drop_left]
      rfl
    rw [hcalls] at h
    exact ⟨h _ List.mem_cons_self, ih _ fun c hc ↦ h c (List.mem_cons_of_mem _ hc)⟩

/-- The clock after a number of toggles. -/
def toggled (clk : Bool) (ts : List Nat) : Bool := ts.foldl (fun clk _ ↦ !clk) clk

/-- A call that evaluates the design. -/
structure Evaluated (s s' : Interface Top) (d : Nat) : Prop where
  timestamp : s'.timestamp.toNat = s.timestamp.toNat + d
  clk : s'.clk = if d ≠ 0 ∧ clkPhase ∣ s.timestamp.toNat + d then !s.clk else s.clk
  calls : s'.calls = s.calls ++ [⟨d, false⟩]
  evals : s'.evals = s.evals ++ [(s'.timestamp, s'.clk)]

theorem evaluated_evalSim {s : Interface Top} {d : Nat} (hfinish : v.gotFinish s.top = false)
    (hd : d ≤ clkPhase) (hmax : s.timestamp.toNat + d < 2 ^ 64) :
    Evaluated s (s.evalSim v d) d := by
  have htime : (s.timestamp + BitVec.ofNat 64 d).toNat = s.timestamp.toNat + d := by
    rw [BitVec.toNat_add, BitVec.toNat_ofNat, Nat.add_mod_mod, Nat.mod_eq_of_lt hmax]
  have hnot : ¬clkPhase < d := hd.not_gt
  constructor
  · simp only [evalSim, hfinish, hnot, Bool.false_eq_true, if_false, htime]
  · simp only [evalSim, hfinish, hnot, Bool.false_eq_true, if_false, htime, Nat.dvd_iff_mod_eq_zero]
  · rw [evalSim_calls, hfinish]
  · simp only [evalSim, hfinish, hnot, Bool.false_eq_true, if_false]

/-- The run of a sequence of calls none of which passes an edge of the clock. -/
theorem foldl_evalSim {s : Interface Top} {ds : List Nat}
    (hsteps : Stepped clkPhase s.timestamp.toNat ds)
    (hmax : s.timestamp.toNat + ds.sum < 2 ^ 64) (hrun : Unfinished v s ds) :
    let s' := ds.foldl (evalSim v) s
    s'.timestamp.toNat = s.timestamp.toNat + ds.sum ∧
      s'.clk = toggled s.clk (landings clkPhase s.timestamp.toNat ds) ∧
      s'.calls = s.calls ++ ds.map (⟨·, false⟩) ∧
      ∃ new, s'.evals = s.evals ++ new ∧
        toggles s.clk new = landings clkPhase s.timestamp.toNat ds := by
  induction ds generalizing s with
  | nil => exact ⟨rfl, rfl, (List.append_nil _).symm, [], (List.append_nil _).symm, rfl⟩
  | cons d ds ih =>
    rw [List.sum_cons, ← Nat.add_assoc] at hmax
    have hstep := evaluated_evalSim v hrun.1 (hsteps.le List.mem_cons_self)
      (lt_of_le_of_lt (Nat.le_add_right _ _) hmax)
    have htime := hstep.timestamp
    obtain ⟨ihtime, ihclk, ihcalls, new, ihevals, ihtoggles⟩ :=
      ih (htime ▸ hsteps.2) (htime ▸ hmax) hrun.2
    rw [htime] at ihtime ihclk ihtoggles
    refine ⟨?_, ?_, ?_, ((s.evalSim v d).timestamp, (s.evalSim v d).clk) :: new, ?_, ?_⟩
    · rw [List.foldl_cons, ihtime, List.sum_cons, Nat.add_assoc]
    · rw [List.foldl_cons, ihclk, landings, hstep.clk]
      split <;> rfl
    · rw [List.foldl_cons, ihcalls, hstep.calls, List.append_assoc]
      rfl
    · rw [List.foldl_cons, ihevals, hstep.evals, List.append_assoc]
      rfl
    · rw [toggles, ihtoggles, landings, hstep.clk, htime]
      split
      · rw [if_neg (by simp)]
      · rw [if_pos rfl]

/-! ## Waiting -/

/-- Between `s` and `s'` the time has advanced by `t`, no call of `eval_sim` was given more than a
phase, and the clock has been toggled, with the design evaluated, once at each multiple of the phase
that was reached, in order. -/
structure TimeKept (s s' : Interface Top) (t : Nat) : Prop where
  timestamp : s'.timestamp.toNat = s.timestamp.toNat + t
  calls : ∀ c ∈ newCalls s s', c.interval ≤ clkPhase
  toggles : toggles s.clk (newEvals s s') = multiples clkPhase s.timestamp.toNat t

/-- The clock is toggled at each multiple of the phase, at no other time and never twice. -/
theorem TimeKept.toggles_once {s s' : Interface Top} {t : Nat} (h : TimeKept s s' t) :
    (∀ n, n ∈ Interface.toggles s.clk (newEvals s s') ↔
      (s.timestamp.toNat < n ∧ n ≤ s.timestamp.toNat + t) ∧ clkPhase ∣ n) ∧
    (Interface.toggles s.clk (newEvals s s')).Pairwise (· < ·) := by
  rw [h.toggles]
  exact ⟨fun _ ↦ mem_multiples, pairwise_multiples _ _ _⟩

/-- No call of `eval_sim` between `s` and `s'` found the simulation finished. -/
def Running (s s' : Interface Top) : Prop := ∀ c ∈ newCalls s s', c.gotFinish = false

section Waiting

variable {s : Interface Top} {t : Nat}

theorem wait_run (hmax : s.timestamp.toNat + t < 2 ^ 64) (hrun : Running s (s.wait v t)) :
    TimeKept s (s.wait v t) t ∧
      (s.wait v t).clk = toggled s.clk (multiples clkPhase s.timestamp.toNat t) := by
  have hsteps := stepped_cuts s.timestamp.toNat t
  have hsum := sum_cuts s.timestamp.toNat t
  rw [Running, wait_eq_foldl] at hrun
  obtain ⟨htime, hclk, hcalls, new, hevals, htoggles⟩ :=
    foldl_evalSim v hsteps (hsum.symm ▸ hmax) (unfinished_of_newCalls v s _ hrun)
  rw [landings_eq hsteps, hsum] at hclk htoggles
  rw [wait_eq_foldl]
  refine ⟨⟨htime.trans (congrArg _ hsum), ?_, ?_⟩, hclk⟩
  · rw [newCalls, hcalls, List.drop_left]
    intro c hc
    obtain ⟨d, hd, rfl⟩ := List.mem_map.mp hc
    exact hsteps.le hd
  · rw [newEvals, hevals, List.drop_left]
    exact htoggles

theorem wait_calls (s : Interface Top) (t : Nat) :
    ∃ new, (s.wait v t).calls = s.calls ++ new := by
  rw [wait_eq_foldl]
  exact foldl_evalSim_calls v s _

/-- A run that never finds the simulation finished can be cut behind a `wait`. -/
theorem Running.cut {s' : Interface Top} (hs' : ∃ new, s'.calls = (s.wait v t).calls ++ new)
    (h : Running s s') : Running s (s.wait v t) ∧ Running (s.wait v t) s' := by
  obtain ⟨first, hfirst⟩ := wait_calls v s t
  obtain ⟨second, hsecond⟩ := hs'
  have hall : newCalls s s' = first ++ second := by
    rw [newCalls, hsecond, hfirst, List.append_assoc, List.drop_left]
  constructor
  · intro c hc
    rw [newCalls, hfirst, List.drop_left] at hc
    exact h c (hall ▸ List.mem_append_left _ hc)
  · intro c hc
    rw [newCalls, hsecond, List.drop_left] at hc
    exact h c (hall ▸ List.mem_append_right _ hc)

/-- Waiting twice is waiting once, as far as time and clock are concerned. -/
theorem wait_wait {a b : Nat} (hmax : s.timestamp.toNat + (a + b) < 2 ^ 64)
    (honce : Running s (s.wait v (a + b))) (htwice : Running s ((s.wait v a).wait v b)) :
    ((s.wait v a).wait v b).timestamp = (s.wait v (a + b)).timestamp ∧
      ((s.wait v a).wait v b).clk = (s.wait v (a + b)).clk := by
  obtain ⟨hfirst, hsecond⟩ := htwice.cut v (wait_calls v _ b)
  obtain ⟨hkept, hclk⟩ := wait_run v hmax honce
  rw [← Nat.add_assoc] at hmax
  obtain ⟨hkept1, hclk1⟩ := wait_run v (lt_of_le_of_lt (Nat.le_add_right _ _) hmax) hfirst
  obtain ⟨hkept2, hclk2⟩ := wait_run v (hkept1.timestamp ▸ hmax) hsecond
  constructor
  · apply BitVec.eq_of_toNat_eq
    rw [hkept2.timestamp, hkept1.timestamp, hkept.timestamp, Nat.add_assoc]
  · rw [hclk2, hclk1, hclk, multiples_add, hkept1.timestamp, toggled, toggled, toggled,
      List.foldl_append]

/-- The clock is high in every other phase of the time. -/
def InPhase (s : Interface Top) : Prop :=
  s.clk = decide (s.timestamp.toNat / clkPhase % 2 = 1)

theorem toggled_eq (clk : Bool) (ts : List Nat) :
    toggled clk ts = (clk ^^ decide (ts.length % 2 = 1)) := by
  induction ts generalizing clk with
  | nil => exact (Bool.xor_false clk).symm
  | cons n ts ih =>
    have hodd : decide ((ts.length + 1) % 2 = 1) = !decide (ts.length % 2 = 1) := by
      rw [← decide_not, decide_eq_decide]
      omega
    show toggled (!clk) ts = _
    rw [ih, List.length_cons, hodd]
    cases clk <;> simp

theorem wait_inPhase (h : InPhase s) (hmax : s.timestamp.toNat + t < 2 ^ 64)
    (hrun : Running s (s.wait v t)) : InPhase (s.wait v t) := by
  obtain ⟨hkept, hclk⟩ := wait_run v hmax hrun
  have hlen := length_multiples clkPhase s.timestamp.toNat t
  rw [InPhase, hclk, toggled_eq, h, hkept.timestamp, ← hlen, Bool.eq_iff_iff]
  simp
  omega

theorem waitTicks_calls (n : Nat) (s : Interface Top) :
    ∃ new, (waitTicks v n s).calls = s.calls ++ new := by
  induction n generalizing s with
  | zero => exact ⟨[], (List.append_nil _).symm⟩
  | succ n ih =>
    obtain ⟨first, hfirst⟩ := wait_calls v s (clkPhase * 2)
    obtain ⟨second, hsecond⟩ := ih (s.wait v (clkPhase * 2))
    rw [hfirst, List.append_assoc] at hsecond
    exact ⟨_, hsecond⟩

/-- Whole ticks leave the clock as it was. -/
theorem waitTicks_run {n : Nat} (hmax : s.timestamp.toNat + n * (clkPhase * 2) < 2 ^ 64)
    (hrun : Running s (waitTicks v n s)) :
    (waitTicks v n s).timestamp.toNat = s.timestamp.toNat + n * (clkPhase * 2) ∧
      (waitTicks v n s).clk = s.clk := by
  induction n generalizing s with
  | zero => exact ⟨by rw [Nat.zero_mul]; rfl, rfl⟩
  | succ n ih =>
    rw [Nat.succ_mul, Nat.add_comm (n * _), ← Nat.add_assoc] at hmax
    obtain ⟨hfirst, hrest⟩ := hrun.cut v (waitTicks_calls v n _)
    obtain ⟨hkept, hclk⟩ := wait_run v (lt_of_le_of_lt (Nat.le_add_right _ _) hmax) hfirst
    obtain ⟨ihtime, ihclk⟩ := ih (hkept.timestamp ▸ hmax) hrest
    have hlen := length_multiples clkPhase s.timestamp.toNat (clkPhase * 2)
    rw [Nat.add_mul_div_left _ _ (show 0 < clkPhase by decide)] at hlen
    constructor
    · rw [waitTicks, ihtime, hkept.timestamp, Nat.succ_mul, Nat.add_comm (n * _), Nat.add_assoc]
    · rw [waitTicks, ihclk, hclk, toggled_eq, Nat.add_left_cancel hlen]
      exact Bool.xor_false s.clk

end Waiting

/-- While the simulation runs and the 64 bits of the timestamp suffice, `wait` keeps the time, and
waiting twice leaves the timestamp and the clock of waiting once. -/
theorem wait_keeps_time :
    (∀ (s : Interface Top) (t : Nat), s.timestamp.toNat + t < 2 ^ 64 → Running s (s.wait v t) →
      TimeKept s (s.wait v t) t) ∧
    ∀ (s : Interface Top) (a b : Nat), s.timestamp.toNat + (a + b) < 2 ^ 64 →
      Running s (s.wait v (a + b)) → Running s ((s.wait v a).wait v b) →
      ((s.wait v a).wait v b).timestamp = (s.wait v (a + b)).timestamp ∧
        ((s.wait v a).wait v b).clk = (s.wait v (a + b)).clk :=
  ⟨fun _ _ hmax hrun ↦ (wait_run v hmax hrun).1, fun _ _ _ ↦ wait_wait v⟩

/-- 90 units of time from 10 on, and the same in two parts. -/
theorem wait_keeps_time_ninety :
    let v : Verilated Unit := ⟨fun _ _ ↦ (), fun _ ↦ false⟩
    let s : Interface Unit := ⟨10, false, (), [], []⟩
    TimeKept s (s.wait v 90) 90 ∧
      ((s.wait v 30).wait v 60).timestamp = (s.wait v 90).timestamp := by
  intro v s
  have hkept := (wait_keeps_time v).1 s 90 (by decide) (by rw [Running]; decide +kernel)
  have htwice := (wait_keeps_time v).2 s 30 60 (by decide) (by rw [Running]; decide +kernel)
    (by rw [Running]; decide +kernel)
  exact ⟨hkept, htwice.1⟩

/-- When the timestamp wraps, in the middle of a phase, an edge is lost; and once the simulation has
finished time stands still. -/
theorem not_timeKept :
    (¬∀ (s : Interface Unit) (t : Nat),
      TimeKept s (s.wait ⟨fun _ _ ↦ (), fun _ ↦ false⟩ t) t) ∧
    ¬∀ (s : Interface Unit) (t : Nat),
      TimeKept s (s.wait ⟨fun _ _ ↦ (), fun _ ↦ true⟩ t) t := by
  constructor
  · intro h
    have htoggles := (h ⟨0xFFFFFFFFFFFFFFFF, false, (), [], []⟩ 40).toggles
    revert htoggles
    decide +kernel
  · intro h
    have htime := (h ⟨0, false, (), [], []⟩ 1).timestamp
    revert htime
    decide +kernel

end Interface

end RtlCores.Riscv
