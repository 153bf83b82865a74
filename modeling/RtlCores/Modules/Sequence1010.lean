import RtlCores.Modules.Sequence

/-!
# The detectors of 1010 (`modules/sequence.v`)

Three more detectors of the one pattern 1010, with overlapping: a basic one with the states of
`sequence_detector` and a combinational output, and two in which the state is two bits that say what
the last inputs were, with a registered output and with the output as a third bit of the state.  All
of them follow `sequence_detector` from clock to clock.
-/

namespace RtlCores.Modules

open RtlCores.Lib

/-! ## `sequence_detector_1010` -/

namespace SequenceDetector1010

def pass : BitVec 4 := 0b1010

variable (din : Bool)

def nextState : SeqState → SeqState
  | .s1 => if din == pass.getLsbD 2 then .s2 else .s1
  | .s2 => if din == pass.getLsbD 1 then .s3 else .s0
  | .s3 => if din == pass.getLsbD 0 then .s2 else .s1
  | .s0 => if din == pass.getLsbD 3 then .s1 else .s0

/-- The output, which follows `din` without waiting for a clock. -/
def out (state : SeqState) : Bool := decide (state = .s3) && din == pass.getLsbD 0

/-- The register after `n` clocks since the reset. -/
def after (x : Nat → Bool) (n : Nat) : SeqState := run nextState x .s0 n

/-- The output just before clock `n`. -/
def outBefore (x : Nat → Bool) (n : Nat) : Bool := out (x n) (after x n)

end SequenceDetector1010

/-! ## `sequence_detector_1010_mealy` -/

/-- The registers of `sequence_detector_1010_mealy`. -/
structure SequenceDetector1010Mealy where
  s1 : Bool
  s2 : Bool
  dout : Bool

namespace SequenceDetector1010Mealy

/-- The registers after a negedge of `res_n`. -/
def reset : SequenceDetector1010Mealy := ⟨false, false, false⟩

/-- The registers after a posedge of `clk`, with `res_n` high. -/
def clock (din : Bool) (s : SequenceDetector1010Mealy) : SequenceDetector1010Mealy where
  s1 := din
  s2 := (din && s.s2 && !s.s1) || (!din && s.s1)
  dout := !din && s.s2 && s.s1

/-- The registers after `n` clocks since the reset. -/
def after (x : Nat → Bool) (n : Nat) : SequenceDetector1010Mealy := run clock x reset n

end SequenceDetector1010Mealy

/-! ## `sequence_detector_1010_moore` -/

/-- The registers of `sequence_detector_1010_moore`. -/
structure SequenceDetector1010Moore where
  s1 : Bool
  s2 : Bool
  s3 : Bool

namespace SequenceDetector1010Moore

/-- The registers after a negedge of `res_n`. -/
def reset : SequenceDetector1010Moore := ⟨false, false, false⟩

/-- The registers after a posedge of `clk`, with `res_n` high. -/
def clock (din : Bool) (s : SequenceDetector1010Moore) : SequenceDetector1010Moore where
  s1 := din
  s3 := !din && s.s1 && s.s2
  s2 := (!din && s.s1) || (din && !s.s1 && (s.s2 || s.s3))

def dout (s : SequenceDetector1010Moore) : Bool := s.s3

/-- The registers after `n` clocks since the reset. -/
def after (x : Nat → Bool) (n : Nat) : SequenceDetector1010Moore := run clock x reset n

end SequenceDetector1010Moore

/-! ## Agreement

The two bits of the optimized detectors are the last input and whether a 0 or another bit was
awaited. -/

/-- The state as the bits `s1` and `s2`. -/
def SeqState.bits : SeqState → Bool × Bool
  | .s0 => (false, false)
  | .s1 => (true, false)
  | .s2 => (false, true)
  | .s3 => (true, true)

/-- The return states of 1010 are the ones built into the basic detector. -/
theorem nextState_1010 (din : Bool) (state : SeqState) :
    SequenceDetector.nextState true 0b1010 din state =
      SequenceDetector1010.nextState din state := by
  cases din <;> cases state <;> rfl

/-- The registered detector in the state of `sequence_detector`. -/
structure SequenceDetector1010Mealy.Follows (s : SequenceDetector)
    (m : SequenceDetector1010Mealy) : Prop where
  bits : (m.s1, m.s2) = s.state.bits
  dout : m.dout = s.dout

theorem SequenceDetector1010Mealy.Follows.clock {s : SequenceDetector}
    {m : SequenceDetector1010Mealy} (h : Follows s m) (din : Bool) :
    Follows (s.clock true 0b1010 din) (m.clock din) := by
  obtain ⟨s1, s2, dout⟩ := m
  obtain ⟨state, dout'⟩ := s
  obtain ⟨rfl, rfl⟩ : s1 = state.bits.1 ∧ s2 = state.bits.2 := Prod.ext_iff.mp h.bits
  constructor
  case bits => cases din <;> cases state <;> rfl
  case dout => cases din <;> cases state <;> rfl

/-- The detector with three bits in the state of `sequence_detector`.  The third is only ever set
together with the second. -/
structure SequenceDetector1010Moore.Follows (s : SequenceDetector)
    (q : SequenceDetector1010Moore) : Prop where
  bits : (q.s1, q.s2) = s.state.bits
  dout : q.s3 = s.dout
  state : s.dout = true → s.state = .s2

theorem SequenceDetector1010Moore.Follows.clock {s : SequenceDetector}
    {q : SequenceDetector1010Moore} (h : Follows s q) (din : Bool) :
    Follows (s.clock true 0b1010 din) (q.clock din) := by
  obtain ⟨s1, s2, s3⟩ := q
  obtain ⟨state, dout⟩ := s
  obtain ⟨rfl, rfl⟩ : s1 = state.bits.1 ∧ s2 = state.bits.2 := Prod.ext_iff.mp h.bits
  obtain rfl : s3 = dout := h.dout
  -- a third bit that is set does not matter next to the second
  have hor : (state.bits.2 || s3) = state.bits.2 := by
    cases hs3 : s3 with
    | false => rw [Bool.or_false]
    | true =>
      obtain rfl : state = .s2 := h.state hs3
      rfl
  constructor
  case bits =>
    show (din, (!din && state.bits.1) || (din && !state.bits.1 && (state.bits.2 || s3))) = _
    rw [hor]
    cases din <;> cases state <;> rfl
  case dout => cases din <;> cases state <;> rfl
  case state =>
    show (decide (state = .s3) && din == false) = true →
      SequenceDetector.nextState true 0b1010 din state = .s2
    cases din <;> cases state <;> decide

theorem follows_mealy (x : Nat → Bool) (n : Nat) :
    SequenceDetector1010Mealy.Follows (SequenceDetector.after true 0b1010 x n)
      (SequenceDetector1010Mealy.after x n) := by
  refine run_simulates_of _ _ _ (fun _ _ ↦ True) ?_ x (fun _ ↦ trivial) ?_ n
  · exact fun din s m _ h ↦ h.clock din
  · exact ⟨rfl, rfl⟩

theorem follows_moore (x : Nat → Bool) (n : Nat) :
    SequenceDetector1010Moore.Follows (SequenceDetector.after true 0b1010 x n)
      (SequenceDetector1010Moore.after x n) := by
  refine run_simulates_of _ _ _ (fun _ _ ↦ True) ?_ x (fun _ ↦ trivial) ?_ n
  · exact fun din s q _ h ↦ h.clock din
  · exact ⟨rfl, rfl, fun h ↦ absurd h Bool.false_ne_true⟩

theorem state_basic (x : Nat → Bool) (n : Nat) :
    SequenceDetector1010.after x n = (SequenceDetector.after true 0b1010 x n).state := by
  refine run_simulates_of (fun din s ↦ SequenceDetector.clock true 0b1010 din s)
    SequenceDetector1010.nextState (fun s state ↦ state = s.state) (fun _ _ ↦ True) ?_ x
    (s := SequenceDetector.reset) (fun _ ↦ trivial) rfl n
  rintro din s state - rfl
  exact (nextState_1010 din s.state).symm

/-- In every stream and after every clock since the reset the registered detectors put out the same
as `sequence_detector` with overlapping and the pattern 1010, and as the basic detector did before
that clock. -/
theorem detectors_1010_agree (x : Nat → Bool) (n : Nat) :
    (SequenceDetector1010Mealy.after x n).dout = (SequenceDetector1010Moore.after x n).dout ∧
      (SequenceDetector1010Mealy.after x n).dout =
        (SequenceDetector.after true 0b1010 x n).dout ∧
      (SequenceDetector1010Mealy.after x (n + 1)).dout = SequenceDetector1010.outBefore x n := by
  have hmealy := follows_mealy x
  refine ⟨?_, (hmealy n).dout, ?_⟩
  · exact (hmealy n).dout.trans (follows_moore x n).dout.symm
  · rw [(hmealy (n + 1)).dout, SequenceDetector1010.outBefore, state_basic]
    exact SequenceDetector.reported_eq true 0b1010 x n

end RtlCores.Modules
