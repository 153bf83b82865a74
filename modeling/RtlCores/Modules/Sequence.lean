import RtlCores.Lib.Matching
import RtlCores.Lib.Serial

/-!
# Sequence detectors (`modules/sequence.v`)

A detector of a pattern of four bits, highest bit first, in a stream of one bit a clock.  The state
is how many bits of the pattern have been seen.  With `OVERLAP` the states returned to after a
mismatch come from `return_states`, and are those of the matching automaton of `Lib.Matching`;
without it every mismatch returns to the first bit of the pattern.
-/

namespace RtlCores.Modules

open RtlCores.Lib

inductive SeqState
  | s0 | s1 | s2 | s3
  deriving DecidableEq

/-- The registers of `sequence_detector`. -/
structure SequenceDetector where
  state : SeqState
  dout : Bool

/-- The wires `r1`, `r2`, `r3` and `c3`: the state after a mismatch in `S1`, `S2` and `S3`, and
after a match. -/
structure ReturnStates where
  r1 : SeqState
  r2 : SeqState
  r3 : SeqState
  c3 : SeqState

namespace SequenceDetector

variable (overlapping : Bool) (seq : BitVec 4) (din : Bool) (s : SequenceDetector)

/-- Bit `k` of the pattern equals bit `l`. -/
def same (k l : Nat) : Bool := seq.getLsbD k == seq.getLsbD l

/-- The module `return_states`. -/
def returnStates : ReturnStates where
  r1 := if same seq 3 2 then .s0 else .s1
  r2 :=
    if same seq 3 2 && !same seq 2 1 then .s2
    else if !same seq 3 1 then .s1 else .s0
  r3 :=
    if same seq 3 2 && same seq 2 1 && !same seq 1 0 then .s3
    else if same seq 3 1 && same seq 1 0 && !same seq 3 2 then .s2
    else if !same seq 3 0 then .s1 else .s0
  c3 :=
    if same seq 3 2 && same seq 2 1 && same seq 1 0 then .s3
    else if same seq 3 1 && same seq 2 0 then .s2
    else if !same seq 3 0 then .s0 else .s1

/-- The return states without overlapping: if `din` is the first bit of the pattern, that bit has
been seen. -/
def restartStates : ReturnStates where
  r1 := if din == seq.getLsbD 3 then .s1 else .s0
  r2 := if din == seq.getLsbD 3 then .s1 else .s0
  r3 := if din == seq.getLsbD 3 then .s1 else .s0
  c3 := .s0

def returns : ReturnStates := if overlapping then returnStates seq else restartStates seq din

def nextState : SeqState → SeqState
  | .s1 => if din == seq.getLsbD 2 then .s2 else (returns overlapping seq din).r1
  | .s2 => if din == seq.getLsbD 1 then .s3 else (returns overlapping seq din).r2
  | .s3 =>
    if din == seq.getLsbD 0 then (returns overlapping seq din).c3
    else (returns overlapping seq din).r3
  | .s0 => if din == seq.getLsbD 3 then .s1 else .s0

/-- The registers after a negedge of `res_n`. -/
def reset : SequenceDetector := ⟨.s0, false⟩

/-- The registers after a posedge of `clk`, with `res_n` high. -/
def clock : SequenceDetector where
  state := nextState overlapping seq din s.state
  dout := decide (s.state = .s3) && din == seq.getLsbD 0

/-- The registers after `n` clocks since the reset, with the stream `x` on `din`. -/
def after (x : Nat → Bool) (n : Nat) : SequenceDetector :=
  run (fun din s ↦ clock overlapping seq din s) x reset n

/-- `dout` after clock `n`, the first clock being clock 0. -/
def reported (x : Nat → Bool) (n : Nat) : Bool := (after overlapping seq x (n + 1)).dout

/-! ## Occurrences -/

/-- The pattern, in the order in which it is looked for. -/
def pattern : List Bool := [seq.getLsbD 3, seq.getLsbD 2, seq.getLsbD 1, seq.getLsbD 0]

/-- The last four bits up to that of clock `n` are the pattern. -/
def Occurs (x : Nat → Bool) (n : Nat) : Prop :=
  3 ≤ n ∧ x (n - 3) = seq.getLsbD 3 ∧ x (n - 2) = seq.getLsbD 2 ∧ x (n - 1) = seq.getLsbD 1 ∧
    x n = seq.getLsbD 0

instance (x : Nat → Bool) (n : Nat) : Decidable (Occurs seq x n) :=
  inferInstanceAs (Decidable (_ ∧ _))

/-- How many bits of the pattern a state has seen. -/
def seen : SeqState → Nat
  | .s0 => 0
  | .s1 => 1
  | .s2 => 2
  | .s3 => 3

variable {overlapping seq din s} {x : Nat → Bool} {n t : Nat}

/-- The pattern occurs in the stretch of a stream that begins with clock `t`. -/
theorem pattern_suffix_trace_iff (h : t ≤ n) :
    pattern seq <:+ trace x t (n + 1 - t) ↔ t + 3 ≤ n ∧ Occurs seq x n := by
  by_cases hlen : t + 3 ≤ n
  · obtain ⟨j, rfl⟩ : ∃ j, n = t + (j + 3) := ⟨n - t - 3, by omega⟩
    have hcount : t + (j + 3) + 1 - t = j + 4 := by omega
    have hsplit : trace x t (j + 4) =
        trace x t j ++ [x (t + j), x (t + (j + 1)), x (t + (j + 2)), x (t + (j + 3))] := by
      rw [trace_succ, trace_succ, trace_succ, trace_succ]
      simp
    rw [hcount, hsplit]
    constructor
    · rintro ⟨pre, hpre⟩
      obtain ⟨-, hbits⟩ := List.append_inj' hpre rfl
      simp only [pattern, List.cons.injEq] at hbits
      obtain ⟨h₃, h₂, h₁, h₀, -⟩ := hbits
      exact ⟨by omega, by omega, h₃.symm, h₂.symm, h₁.symm, h₀.symm⟩
    · rintro ⟨-, -, h₃, h₂, h₁, h₀⟩
      refine ⟨trace x t j, ?_⟩
      rw [pattern, ← h₃, ← h₂, ← h₁, ← h₀]
      rfl
  · constructor
    · intro hsuffix
      have hle := hsuffix.length_le
      rw [length_trace] at hle
      exact absurd hle (by show ¬4 ≤ _; omega)
    · exact fun hboth ↦ absurd hboth.1 hlen

/-- A word is reported exactly when all but its last bit had been seen, and then its last bit. -/
theorem reported_eq (overlapping : Bool) (seq : BitVec 4) (x : Nat → Bool) (n : Nat) :
    reported overlapping seq x n =
      (decide ((after overlapping seq x n).state = .s3) && x n == seq.getLsbD 0) := rfl

/-- The detector is right about clock `n` as long as its state is the longest match with the bits
since clock `t`. -/
theorem reported_iff_of_overlap (h : t ≤ n)
    (hseen : seen (after overlapping seq x n).state = overlap (pattern seq) 3 (trace x t (n - t))) :
    reported overlapping seq x n = true ↔ t + 3 ≤ n ∧ Occurs seq x n := by
  have hlast : pattern seq = (pattern seq).take 3 ++ [seq.getLsbD 0] := rfl
  have hsucc : trace x t (n + 1 - t) = trace x t (n - t) ++ [x n] := by
    rw [Nat.succ_sub h, trace_succ, Nat.add_sub_cancel' h]
  have hstate : (after overlapping seq x n).state = .s3 ↔
      seen (after overlapping seq x n).state = 3 := by
    cases (after overlapping seq x n).state <;> decide
  rw [← pattern_suffix_trace_iff h, hsucc, hlast, append_suffix_append_iff, ← overlap_eq_iff,
    ← hseen, reported_eq, Bool.and_eq_true, decide_eq_true_iff, beq_iff_eq, hstate,
    eq_comm (a := x n)]

/-! ## Overlapping -/

theorem three_le_length (seq : BitVec 4) : 3 ≤ (pattern seq).length := Nat.le_succ 3

/-- The state functions are the matching automaton, with all sixteen patterns. -/
theorem seen_nextState (seq : BitVec 4) (din : Bool) (st : SeqState) :
    seen (nextState true seq din st) =
      overlap (pattern seq) 3 ((pattern seq).take (seen st) ++ [din]) := by
  revert seq
  cases din <;> cases st <;> decide

/-- The state is the longest match with the bits since the reset. -/
theorem seen_after (seq : BitVec 4) (x : Nat → Bool) (n : Nat) :
    seen (after true seq x n).state = overlap (pattern seq) 3 (trace x 0 n) := by
  induction n with
  | zero => exact (overlap_nil (three_le_length seq)).symm
  | succ n ih =>
    rw [trace_succ, Nat.zero_add, overlap_append_singleton (three_le_length seq), ← ih]
    exact seen_nextState seq (x n) (after true seq x n).state

/-- The overlapping detector reports every occurrence of every pattern in every stream. -/
theorem reported_iff_occurs (seq : BitVec 4) (x : Nat → Bool) (n : Nat) :
    reported true seq x n = true ↔ Occurs seq x n := by
  rw [reported_iff_of_overlap (Nat.zero_le n) (seen_after seq x n)]
  constructor
  · exact fun h ↦ h.2
  · exact fun h ↦ ⟨by rw [Nat.zero_add]; exact h.1, h⟩

/-- Overlapping occurrences of 1010 in 101010. -/
example : (List.range 6).map (reported true 0b1010#4 fun k ↦ k % 2 == 0) =
    [false, false, false, true, false, true] := by decide

/-! ## Without overlapping -/

/-- An occurrence is reported unless it shares a bit with one that was reported before. -/
def ScansRight (seq : BitVec 4) : Prop :=
  ∀ x n, reported false seq x n = true ↔
    Occurs seq x n ∧ ∀ m < n, reported false seq x m = true → m + 4 ≤ n

/-- No mismatch leaves more than the first bit of the pattern: `return_states` has only `S0` and
`S1` for it. -/
def ShortReturns (seq : BitVec 4) : Prop :=
  (returnStates seq).r2 ≠ .s2 ∧ (returnStates seq).r3 ≠ .s2 ∧ (returnStates seq).r3 ≠ .s3

instance (seq : BitVec 4) : Decidable (ShortReturns seq) := inferInstanceAs (Decidable (_ ∧ _))

variable (seq x) in
/-- The clock after that of the last report before clock `n`. -/
def since : Nat → Nat
  | 0 => 0
  | n + 1 => if reported false seq x n then n + 1 else since n

theorem since_le (seq : BitVec 4) (x : Nat → Bool) (n : Nat) : since seq x n ≤ n := by
  induction n with
  | zero => exact le_rfl
  | succ n ih =>
    rw [since]
    split
    · exact le_rfl
    · exact ih.trans (Nat.le_succ n)

theorem lt_since {m : Nat} (hm : m < n) (h : reported false seq x m = true) :
    m < since seq x n := by
  induction n with
  | zero => exact absurd hm (Nat.not_lt_zero m)
  | succ n ih =>
    rw [since]
    split
    case isTrue => exact hm
    case isFalse hno =>
      rcases Nat.lt_succ_iff_lt_or_eq.mp hm with hlt | rfl
      · exact ih hlt
      · exact absurd h hno

/-- The bits since the last report begin with the reset or after a report. -/
theorem since_eq_zero_or (seq : BitVec 4) (x : Nat → Bool) (n : Nat) :
    since seq x n = 0 ∨ ∃ m < n, reported false seq x m = true ∧ since seq x n = m + 1 := by
  induction n with
  | zero => exact .inl rfl
  | succ n ih =>
    rw [since]
    split
    case isTrue h => exact .inr ⟨n, Nat.lt_succ_self n, h, rfl⟩
    case isFalse =>
      rcases ih with hzero | ⟨m, hm, hrep, heq⟩
      · exact .inl hzero
      · exact .inr ⟨m, hm.trans (Nat.lt_succ_self n), hrep, heq⟩

/-- The bits of an occurrence are all since the last report exactly when no reported one shares a
bit with it. -/
theorem since_add_three_le_iff (h : Occurs seq x n) :
    since seq x n + 3 ≤ n ↔ ∀ m < n, reported false seq x m = true → m + 4 ≤ n := by
  constructor
  · intro hle m hm hrep
    have hlt := lt_since hm hrep
    omega
  · intro hall
    rcases since_eq_zero_or seq x n with hzero | ⟨m, hm, hrep, heq⟩
    · rw [hzero, Nat.zero_add]
      exact h.1
    · have hle := hall m hm hrep
      omega

/-- What is seen after a mismatch has been seen, with every pattern. -/
theorem take_seen_nextState_suffix (seq : BitVec 4) (din : Bool) (st : SeqState)
    (hno : ¬(st = .s3 ∧ din = seq.getLsbD 0)) :
    (pattern seq).take (seen (nextState false seq din st)) <:+
      (pattern seq).take (seen st) ++ [din] := by
  revert seq
  cases din <;> cases st <;> decide

/-- Without a match, the states after short mismatches are those of the matching automaton. -/
theorem seen_nextState_of_short (hshort : ShortReturns seq) (din : Bool) (st : SeqState)
    (hno : ¬(st = .s3 ∧ din = seq.getLsbD 0)) :
    seen (nextState false seq din st) =
      overlap (pattern seq) 3 ((pattern seq).take (seen st) ++ [din]) := by
  revert seq
  cases din <;> cases st <;> decide

/-- A match returns to the state that has seen nothing. -/
theorem nextState_of_match (seq : BitVec 4) :
    nextState false seq (seq.getLsbD 0) .s3 = .s0 := by
  rw [nextState, if_pos (beq_self_eq_true _)]
  rfl

theorem reported_false_iff (seq : BitVec 4) (x : Nat → Bool) (n : Nat) :
    reported false seq x n = true ↔
      (after false seq x n).state = .s3 ∧ x n = seq.getLsbD 0 := by
  rw [reported_eq, Bool.and_eq_true, decide_eq_true_iff, beq_iff_eq]

/-- A clock with a report starts over, and one without goes on with the bits since the last. -/
theorem after_succ_cases (seq : BitVec 4) (x : Nat → Bool) (n : Nat) :
    (after false seq x (n + 1)).state = .s0 ∧ since seq x (n + 1) = n + 1 ∨
      ¬((after false seq x n).state = .s3 ∧ x n = seq.getLsbD 0) ∧
        since seq x (n + 1) = since seq x n ∧
        trace x (since seq x n) (n + 1 - since seq x n) =
          trace x (since seq x n) (n - since seq x n) ++ [x n] := by
  by_cases hrep : reported false seq x n = true
  · obtain ⟨hstate, hbit⟩ := (reported_false_iff seq x n).mp hrep
    refine .inl ⟨?_, if_pos hrep⟩
    show nextState false seq (x n) (after false seq x n).state = .s0
    rw [hstate, hbit, nextState_of_match]
  · refine .inr ⟨mt (reported_false_iff seq x n).mpr hrep, if_neg hrep, ?_⟩
    rw [Nat.succ_sub (since_le seq x n), trace_succ, Nat.add_sub_cancel' (since_le seq x n)]

/-- The bits that the state has seen are the last ones since the last report. -/
theorem take_seen_suffix (seq : BitVec 4) (x : Nat → Bool) (n : Nat) :
    (pattern seq).take (seen (after false seq x n).state) <:+
      trace x (since seq x n) (n - since seq x n) := by
  induction n with
  | zero => exact List.nil_suffix
  | succ n ih =>
    rcases after_succ_cases seq x n with ⟨hstate, hsince⟩ | ⟨hno, hsince, htrace⟩
    · rw [hstate]
      exact List.nil_suffix
    · rw [hsince, htrace]
      refine (take_seen_nextState_suffix seq (x n) _ hno).trans ?_
      exact (append_suffix_append_iff _ _ _ _).mpr ⟨ih, rfl⟩

/-- With every pattern, what is reported is an occurrence and shares no bit with another that is
reported. -/
theorem occurs_of_reported (h : reported false seq x n = true) :
    Occurs seq x n ∧ ∀ m < n, reported false seq x m = true → m + 4 ≤ n := by
  obtain ⟨hstate, hbit⟩ := (reported_false_iff seq x n).mp h
  have hseen := take_seen_suffix seq x n
  have hle := since_le seq x n
  rw [hstate] at hseen
  have hsuffix : pattern seq <:+ trace x (since seq x n) (n + 1 - since seq x n) := by
    rw [Nat.succ_sub hle, trace_succ, Nat.add_sub_cancel' hle, hbit]
    exact (append_suffix_append_iff ((pattern seq).take 3) _ _ _).mpr ⟨hseen, rfl⟩
  obtain ⟨hroom, hoccurs⟩ := (pattern_suffix_trace_iff hle).mp hsuffix
  exact ⟨hoccurs, (since_add_three_le_iff hoccurs).mp hroom⟩

/-- With short returns the state is the longest match with the bits since the last report. -/
theorem seen_after_of_short (hshort : ShortReturns seq) (x : Nat → Bool) (n : Nat) :
    seen (after false seq x n).state =
      overlap (pattern seq) 3 (trace x (since seq x n) (n - since seq x n)) := by
  induction n with
  | zero => exact (overlap_nil (three_le_length seq)).symm
  | succ n ih =>
    rcases after_succ_cases seq x n with ⟨hstate, hsince⟩ | ⟨hno, hsince, htrace⟩
    · rw [hstate, hsince, Nat.sub_self, trace_zero, overlap_nil (three_le_length seq), seen]
    · rw [hsince, htrace, overlap_append_singleton (three_le_length seq), ← ih]
      exact seen_nextState_of_short hshort (x n) _ hno

theorem scansRight_of_short (hshort : ShortReturns seq) : ScansRight seq := by
  intro x n
  rw [reported_iff_of_overlap (since_le seq x n) (seen_after_of_short hshort x n), and_comm]
  exact and_congr_right since_add_three_le_iff

/-! ### Missed occurrences -/

variable (seq) in
/-- The bits seen before a mismatch, the mismatch, and the rest of an occurrence that began before
the mismatch. -/
def missedStream : List Bool :=
  if (returnStates seq).r2 = .s2 then
    (pattern seq).take 2 ++ [!seq.getLsbD 1] ++ (pattern seq).drop 2
  else if (returnStates seq).r3 = .s3 then
    (pattern seq).take 3 ++ [!seq.getLsbD 0] ++ (pattern seq).drop 3
  else (pattern seq).take 3 ++ [!seq.getLsbD 0] ++ (pattern seq).drop 2

/-- The occurrence at the end of that stream is not reported, and nor is anything before it. -/
theorem missed_of_not_short (h : ¬ShortReturns seq) :
    Occurs seq (fun k ↦ (missedStream seq).getD k false) ((missedStream seq).length - 1) ∧
      ∀ m < (missedStream seq).length,
        reported false seq (fun k ↦ (missedStream seq).getD k false) m = false := by
  revert seq
  decide

theorem not_scansRight_of_not_short (h : ¬ShortReturns seq) : ¬ScansRight seq := by
  intro hright
  obtain ⟨hoccurs, hnone⟩ := missed_of_not_short h
  have hlt : (missedStream seq).length - 1 < (missedStream seq).length := by
    have hpos := hoccurs.1
    omega
  have hrep := (hright (fun k ↦ (missedStream seq).getD k false) _).mpr
    ⟨hoccurs, fun m hm hrep ↦ absurd (hnone m (hm.trans hlt)) (by rw [hrep]; decide)⟩
  exact absurd ((hnone _ hlt).symm.trans hrep) (by decide)

/-- The detector without overlapping scans right exactly with the patterns in which a mismatch
never leaves more than the first bit. -/
theorem scansRight_iff (seq : BitVec 4) : ScansRight seq ↔ ShortReturns seq := by
  constructor
  · intro hright
    by_contra hshort
    exact not_scansRight_of_not_short hshort hright
  · exact scansRight_of_short

/-- The pattern 1101 is missed in the stream 11101. -/
theorem not_scansRight_1101 : ¬∀ seq, ScansRight seq :=
  fun h ↦ @not_scansRight_of_not_short 0b1101#4 (by decide) (h _)

end SequenceDetector

end RtlCores.Modules
