import RtlCores.Lib.Clocked

/-!
# Asynchronous serial lines

A line carries one level a tick.  A character on it is a start bit, the data bits with the
lowest first, a parity bit if the format has one, and a stop period; every bit lasts the same
number of ticks.  The module has the windows of a signal, the machines fed a list of ticks,
and the wave of a character in a given format.
-/

namespace RtlCores.Lib

variable {α β I S : Type*}

/-! ## Windows of a signal -/

/-- The `n` values of the signal `f` from time `t` on. -/
def trace (f : Nat → α) (t n : Nat) : List α := (List.range n).map fun j ↦ f (t + j)

@[simp] theorem length_trace (f : Nat → α) (t n : Nat) : (trace f t n).length = n := by
  simp [trace]

@[simp] theorem trace_zero (f : Nat → α) (t : Nat) : trace f t 0 = [] := rfl

theorem trace_succ (f : Nat → α) (t n : Nat) : trace f t (n + 1) = trace f t n ++ [f (t + n)] := by
  simp [trace, List.range_succ]

theorem trace_add (f : Nat → α) (t m n : Nat) :
    trace f t (m + n) = trace f t m ++ trace f (t + m) n := by
  induction n with
  | zero => simp
  | succ n ih => rw [← Nat.add_assoc, trace_succ, ih, trace_succ, List.append_assoc, Nat.add_assoc]

/-- A signal that stays at one value. -/
theorem trace_eq_replicate {f : Nat → α} {t n : Nat} {v : α} (h : ∀ j < n, f (t + j) = v) :
    trace f t n = List.replicate n v := by
  induction n with
  | zero => rfl
  | succ n ih =>
    rw [trace_succ, ih fun j hj ↦ h j (Nat.lt_succ_of_lt hj), h n (Nat.lt_succ_self n),
      List.replicate_succ']

/-- A signal that is high in tick `m` of `n` and low in the others. -/
def pulse (n m : Nat) : List Bool := (List.range n).map fun j ↦ decide (j = m)

theorem trace_eq_pulse {f : Nat → Bool} {t n m : Nat} (h : ∀ j < n, f (t + j) = decide (j = m)) :
    trace f t n = pulse n m := List.map_congr_left fun j hj ↦ h j (List.mem_range.mp hj)

theorem pulse_succ (n m : Nat) : pulse (n + 1) (m + 1) = false :: pulse n m := by
  rw [pulse, pulse, List.range_succ_eq_map, List.map_cons, List.map_map]
  congr 1
  refine List.map_congr_left fun j _ ↦ ?_
  exact decide_eq_decide.mpr Nat.succ_inj

theorem replicate_append_pulse (a n m : Nat) :
    List.replicate a false ++ pulse n m = pulse (a + n) (a + m) := by
  have hlow : (List.range a).map (fun j ↦ decide (j = a + m)) = List.replicate a false := by
    rw [List.eq_replicate_iff]
    refine ⟨by simp, ?_⟩
    simp only [List.mem_map, List.mem_range]
    rintro b ⟨j, hj, rfl⟩
    exact decide_eq_false (by omega)
  rw [pulse, pulse, List.range_add, List.map_append, hlow, List.map_map]
  congr 1
  refine List.map_congr_left fun j _ ↦ ?_
  simp

theorem pulse_append_replicate {n m : Nat} (hm : m < n) (b : Nat) :
    pulse n m ++ List.replicate b false = pulse (n + b) m := by
  have hlow : (List.range b).map (fun j ↦ decide (n + j = m)) = List.replicate b false := by
    rw [List.eq_replicate_iff]
    refine ⟨by simp, ?_⟩
    simp only [List.mem_map, List.mem_range]
    rintro c ⟨j, -, rfl⟩
    exact decide_eq_false (by omega)
  rw [pulse, pulse, List.range_add, List.map_append, List.map_map]
  exact congrArg _ hlow.symm

/-- A pulse in its place between low ticks, or none at all. -/
theorem pulse_cases (n m : Nat) :
    pulse n m = List.replicate n false ∨
      ∃ b, pulse n m = List.replicate m false ++ true :: List.replicate b false := by
  rcases Nat.lt_or_ge m n with hlt | hge
  · right
    obtain ⟨b, rfl⟩ : ∃ b, n = m + 1 + b := ⟨n - (m + 1), by omega⟩
    refine ⟨b, ?_⟩
    have hfront : List.replicate m false ++ [true] = pulse (m + 1) m := replicate_append_pulse m 1 0
    rw [← pulse_append_replicate (Nat.lt_succ_self m) b, ← hfront, List.append_assoc]
    rfl
  · left
    rw [pulse, List.eq_replicate_iff]
    refine ⟨by simp, ?_⟩
    simp only [List.mem_map, List.mem_range]
    rintro c ⟨j, hj, rfl⟩
    exact decide_eq_false (by omega)

/-! ## Machines fed a list -/

/-- The state after the inputs of a list, first to last. -/
def feed (step : I → S → S) (s : S) : List I → S
  | [] => s
  | i :: is => feed step (step i s) is

/-- What `out` shows after each input of a list, in order. -/
def shown (out : S → Option β) (step : I → S → S) (s : S) : List I → List β
  | [] => []
  | i :: is => (out (step i s)).toList ++ shown out step (step i s) is

variable {step : I → S → S} {out : S → Option β}

@[simp] theorem feed_nil (s : S) : feed step s [] = s := rfl

@[simp] theorem shown_nil (s : S) : shown out step s [] = [] := rfl

theorem feed_append (s : S) (is js : List I) :
    feed step s (is ++ js) = feed step (feed step s is) js := by
  induction is generalizing s with
  | nil => rfl
  | cons i is ih => exact ih (step i s)

theorem shown_append (s : S) (is js : List I) :
    shown out step s (is ++ js) = shown out step s is ++ shown out step (feed step s is) js := by
  induction is generalizing s with
  | nil => rfl
  | cons i is ih =>
    rw [List.cons_append, shown, ih, shown, List.append_assoc]
    rfl

/-- The rule for a machine that counts towards what it shows: a measure that grows by at most
one an input and has to reach `bound` first keeps it silent. -/
theorem shown_eq_nil_of_measure {P : S → Prop} {age : S → Nat} {bound : Nat}
    (hkeep : ∀ i s, P s → P (step i s)) (hage : ∀ i s, P s → age (step i s) ≤ age s + 1)
    (hout : ∀ s, P s → age s < bound → out s = none) {s : S} (h : P s) (is : List I)
    (hlen : age s + is.length < bound) : shown out step s is = [] := by
  induction is generalizing s with
  | nil => rfl
  | cons i is ih =>
    rw [List.length_cons] at hlen
    have hstep := hage i s h
    rw [shown, hout _ (hkeep i s h) (by omega), ih (hkeep i s h) (by omega)]
    rfl

/-! ## Characters on the line -/

/-- Every level held for `n` ticks. -/
def stretch (n : Nat) (levels : List Bool) : List Bool := levels.flatMap (List.replicate n)

@[simp] theorem stretch_nil (n : Nat) : stretch n [] = [] := rfl

theorem stretch_cons (n : Nat) (v : Bool) (levels : List Bool) :
    stretch n (v :: levels) = List.replicate n v ++ stretch n levels := rfl

@[simp] theorem stretch_singleton (n : Nat) (v : Bool) :
    stretch n [v] = List.replicate n v := by
  simp [stretch]

theorem stretch_append (n : Nat) (xs ys : List Bool) :
    stretch n (xs ++ ys) = stretch n xs ++ stretch n ys := List.flatMap_append

@[simp] theorem length_stretch (n : Nat) (levels : List Bool) :
    (stretch n levels).length = n * levels.length := by
  induction levels with
  | nil => rfl
  | cons v levels ih => rw [stretch_cons, List.length_append, List.length_replicate, ih,
      List.length_cons, Nat.mul_succ, Nat.add_comm]

/-- Ticks that carry the levels, one bit for each; `bit` says which ticks are a bit at a level. -/
inductive Carries (bit : Bool → List Bool → Prop) : List Bool → List Bool → Prop
  | nil : Carries bit [] []
  | cons {v : Bool} {levels is js : List Bool} :
    bit v is → Carries bit levels js → Carries bit (v :: levels) (is ++ js)

section Carries

variable {bit : Bool → List Bool → Prop} {v : Bool} {levels ticks : List Bool}

/-- Without noise. -/
theorem carries_stretch {n : Nat} (h : ∀ v, bit v (List.replicate n v)) (levels : List Bool) :
    Carries bit levels (stretch n levels) := by
  induction levels with
  | nil => exact .nil
  | cons v levels ih => exact .cons (h v) ih

theorem Carries.of_cons (h : Carries bit (v :: levels) ticks) :
    ∃ is js, ticks = is ++ js ∧ bit v is ∧ Carries bit levels js := by
  cases h with
  | cons hbit hrest => exact ⟨_, _, rfl, hbit, hrest⟩

theorem carries_nil_iff : Carries bit [] ticks ↔ ticks = [] := by
  constructor
  · rintro ⟨⟩
    rfl
  · rintro rfl
    exact .nil

theorem carries_singleton_iff : Carries bit [v] ticks ↔ bit v ticks := by
  constructor
  · intro h
    obtain ⟨is, js, rfl, hbit, hrest⟩ := h.of_cons
    obtain rfl := carries_nil_iff.mp hrest
    rwa [List.append_nil]
  · intro h
    rw [← List.append_nil ticks]
    exact .cons h .nil

theorem Carries.of_append {xs ys : List Bool} (h : Carries bit (xs ++ ys) ticks) :
    ∃ is js, ticks = is ++ js ∧ Carries bit xs is ∧ Carries bit ys js := by
  induction xs generalizing ticks with
  | nil => exact ⟨[], ticks, rfl, .nil, h⟩
  | cons x xs ih =>
    obtain ⟨is, js, rfl, hbit, hrest⟩ := Carries.of_cons h
    obtain ⟨ks, ls, rfl, hxs, hys⟩ := ih hrest
    exact ⟨is ++ ks, ls, (List.append_assoc is ks ls).symm, .cons hbit hxs, hys⟩

end Carries

/-- The sum of some bits modulo two. -/
def xorAll (bits : List Bool) : Bool := bits.foldr xor false

/-- The reduction operator `^` of a word. -/
def redXor {w : Nat} (x : BitVec w) : Bool := xorAll ((List.range w).map x.getLsbD)

/-- The `n` low bits of a word, lowest first. -/
def lowBits {w : Nat} (n : Nat) (x : BitVec w) : List Bool := (List.range n).map x.getLsbD

@[simp] theorem length_lowBits {w : Nat} (n : Nat) (x : BitVec w) : (lowBits n x).length = n := by
  simp [lowBits]

theorem lowBits_succ {w : Nat} (n : Nat) (x : BitVec w) :
    lowBits (n + 1) x = lowBits n x ++ [x.getLsbD n] := by
  simp [lowBits, List.range_succ]

theorem xorAll_append (xs ys : List Bool) : xorAll (xs ++ ys) = xor (xorAll xs) (xorAll ys) := by
  induction xs with
  | nil => simp [xorAll]
  | cons x xs ih => simpa [xorAll] using congrArg (xor x) ih

/-- Zeros above the low bits do not count. -/
theorem redXor_eq_xorAll_lowBits {w n : Nat} (x : BitVec w) (hn : n ≤ w)
    (h : ∀ i, n ≤ i → x.getLsbD i = false) : redXor x = xorAll (lowBits n x) := by
  obtain ⟨d, rfl⟩ : ∃ d, w = n + d := ⟨w - n, by omega⟩
  have hupper : (List.range d).map (fun i ↦ x.getLsbD (n + i)) = List.replicate d false := by
    rw [List.eq_replicate_iff]
    refine ⟨by simp, ?_⟩
    simp only [List.mem_map, List.mem_range]
    rintro b ⟨i, -, rfl⟩
    exact h _ (Nat.le_add_right n i)
  have hzeros : ∀ m, xorAll (List.replicate m false) = false := by
    intro m
    induction m with
    | zero => rfl
    | succ m ih => simpa [xorAll, List.replicate_succ] using ih
  rw [redXor, lowBits, List.range_add, List.map_append, List.map_map, xorAll_append]
  have : (List.range d).map (x.getLsbD ∘ fun i ↦ n + i) = List.replicate d false := hupper
  rw [this, hzeros, Bool.xor_false]

theorem redXor_extractLsb' {w : Nat} (n : Nat) (x : BitVec w) :
    redXor (x.extractLsb' 0 n) = xorAll (lowBits n x) := by
  unfold redXor lowBits
  congr 1
  refine List.map_congr_left fun i hi ↦ ?_
  simp [List.mem_range.mp hi]

/-- The kinds of parity bit. -/
inductive Parity
  | odd | even | mark | space

/-- The parity bit of some data bits. -/
def Parity.bit : Parity → List Bool → Bool
  | odd, bits => !xorAll bits
  | even, bits => xorAll bits
  | mark, _ => true
  | space, _ => false

/-- How a character is put on the line. -/
structure LineFormat where
  wordLen : Nat
  parity : Option Parity
  /-- The stop period in half bits. -/
  stopHalves : Nat

namespace LineFormat

variable {w : Nat} (fmt : LineFormat) (n : Nat) (x : BitVec w)

/-- The parity bit that belongs to a character. -/
def parityBit : Option Bool := fmt.parity.map fun p ↦ p.bit (lowBits fmt.wordLen x)

/-- The levels of a character before its stop period, for any bit in the parity position. -/
def levels (par : Option Bool) : List Bool := false :: (lowBits fmt.wordLen x ++ par.toList)

/-- The ticks of the stop period. -/
def stopTicks : Nat := fmt.stopHalves * n / 2

/-- A character with `n` ticks a bit. -/
def wave : List Bool :=
  stretch n (fmt.levels x (fmt.parityBit x)) ++ List.replicate (fmt.stopTicks n) true

end LineFormat

end RtlCores.Lib
