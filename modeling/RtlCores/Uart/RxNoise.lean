import RtlCores.Uart.RxDecode

/-!
# Noise on the line

After its first tick a bit counts for the receiver in the three ticks only in which the line is
sampled, and one wrong sample is outvoted.  In the stop period after the first stop bit nothing is
voted on: there a wrong tick looks like a start bit, which the receiver follows and then rejects.
-/

namespace RtlCores.Uart

open RtlCores.Lib RtlCores.Modules

/-- The samples that are taken of a bit. -/
inductive Sample
  | a | b | c

/-- The tick counter when a sample is taken. -/
def Sample.tick (ticksNum : Nat) : Sample → Nat
  | a => tickSampleA ticksNum
  | b => tickSampleB ticksNum
  | c => tickSampleC ticksNum

namespace Rx

/-- The first `m` ticks of a bit of `n` ticks, wrong where one sample is taken, or nowhere.  The
tick counter is at 0 in the second tick of a bit. -/
def noisyTicks (n m : Nat) (v : Bool) : Option Sample → List Bool
  | none => List.replicate m v
  | some x => (pulse m (x.tick n + 1)).map (xor v)

/-- Some bits, each with its own noise. -/
def noisyBits (n : Nat) (flips : Nat → Option Sample) : List Bool → List Bool
  | [] => []
  | v :: levels => noisyTicks n n v (flips 0) ++ noisyBits n (fun i ↦ flips (i + 1)) levels

/-- A character with noise, with any parity bit and any first stop bit. -/
def noisyChar (n : Nat) (lcreg b : BitVec 8) (par stop : Bool) (flips : Nat → Option Sample) :
    List Bool :=
  noisyBits n flips (charLevels lcreg b par stop) ++
    noisyTicks n ((lineFormat lcreg).stopTicks n - n) true
      (flips (charLevels lcreg b par stop).length)

/-- Without noise the bits are those of the line format. -/
theorem noisyBits_none (n : Nat) (levels : List Bool) :
    noisyBits n (fun _ ↦ none) levels = stretch n levels := by
  induction levels with
  | nil => rfl
  | cons v levels ih => rw [noisyBits, ih, stretch_cons, noisyTicks]

/-- With the right parity bit, a stop bit and no noise, a character is what the format says. -/
theorem noisyChar_none (n : Nat) (lcreg b : BitVec 8) :
    noisyChar n lcreg b ((parityKind lcreg).bit (lowBits (wordLen lcreg) b)) true (fun _ ↦ none) =
      (lineFormat lcreg).wave n b := by
  have hpar : (if pen lcreg then some ((parityKind lcreg).bit (lowBits (wordLen lcreg) b))
      else none) = (lineFormat lcreg).parityBit b := by
    rw [LineFormat.parityBit, lineFormat]
    cases pen lcreg <;> rfl
  have hstop : n + ((lineFormat lcreg).stopTicks n - n) = (lineFormat lcreg).stopTicks n := by
    have hticks := stopTicks_lineFormat lcreg n
    split at hticks
    · split at hticks <;> omega
    · omega
  rw [noisyChar, noisyBits_none, charLevels, hpar, stretch_append, stretch_singleton, noisyTicks,
    List.append_assoc, List.replicate_append_replicate, hstop, LineFormat.wave]

/-! ## Noise is outvoted -/

variable {k : Nat} {lcreg : BitVec 8} {s : Rx} {b : BitVec 8}

theorem tickSampleA_bounds (hk : 3 ≤ k) :
    0 < tickSampleA (2 ^ k) ∧ tickSampleA (2 ^ k) < tickSampleB (2 ^ k) := by
  have hpow : 2 ^ 3 ≤ 2 ^ k := Nat.pow_le_pow_right (by decide) hk
  have hdelta : 0 < tickDelta (2 ^ k) ∧ tickDelta (2 ^ k) < 4 := by
    unfold tickDelta
    split <;> decide
  unfold tickSampleA tickSampleB
  omega

theorem sampleTick_pos (hk : 3 ≤ k) (x : Sample) : 0 < x.tick (2 ^ k) := by
  obtain ⟨hpos, hab⟩ := tickSampleA_bounds hk
  have hac := (tickSample_bounds hk).1
  cases x
  case a => exact hpos
  case b => exact hpos.trans hab
  case c => exact hpos.trans hac

/-- A sample that is wrong is outvoted by the other two. -/
theorem voted_flip (hk : 3 ≤ k) (v : Bool) (x : Sample) :
    voted (2 ^ k) (fun j ↦ xor v (decide (j = x.tick (2 ^ k)))) = v := by
  obtain ⟨hac, hbc, -⟩ := tickSample_bounds hk
  have hab := (tickSampleA_bounds hk).2
  rw [voted]
  cases x
  case a =>
    rw [Sample.tick, decide_eq_true rfl, decide_eq_false hab.ne', decide_eq_false hac.ne']
    cases v <;> rfl
  case b =>
    rw [Sample.tick, decide_eq_true rfl, decide_eq_false hab.ne, decide_eq_false hbc.ne']
    cases v <;> rfl
  case c =>
    rw [Sample.tick, decide_eq_true rfl, decide_eq_false hac.ne, decide_eq_false hbc.ne]
    cases v <;> rfl

theorem isBit_noisyTicks (hk : 3 ≤ k) (v : Bool) (flip : Option Sample) :
    IsBit (2 ^ k) v (noisyTicks (2 ^ k) (2 ^ k) v flip) := by
  have hpos : 0 < 2 ^ k := Nat.two_pow_pos k
  cases flip with
  | none => exact isBit_replicate hpos v
  | some x =>
    refine ⟨_, ?_, voted_flip hk v x⟩
    have hpulse := pulse_succ (2 ^ k - 1) (x.tick (2 ^ k))
    rw [Nat.sub_add_cancel hpos] at hpulse
    rw [noisyTicks, hpulse, List.map_cons, Bool.xor_false, pulse, List.map_map, levelsTo]
    rfl

theorem carries_noisyBits (hk : 3 ≤ k) (flips : Nat → Option Sample) (levels : List Bool) :
    Carries (IsBit (2 ^ k)) levels (noisyBits (2 ^ k) flips levels) := by
  induction levels generalizing flips with
  | nil => exact .nil
  | cons v levels ih => exact .cons (isBit_noisyTicks hk v (flips 0)) (ih _)

/-! ## The rest of the stop period -/

/-- A start bit that the samples do not confirm is rejected. -/
theorem AfterBit.tick_start {s₀ : Rx} (hk : 3 ≤ k) (h : AfterBit k lcreg s₀ true .start s)
    (v : Bool) : (tick k lcreg v s).rxFsm = .idle := by
  have hcase : s.fsmCase lcreg v s.rxFsm = .idle := by
    rw [fsmCase, h.rxFsm, h.votedDin]
    rfl
  have hinit := initCt_of_ne_idle (s := s) (by rw [h.rxFsm]; decide) v
  exact (entered_tick hk h.settled h.countTicks hinit hcase).rxFsm

/-- A receiver that waits takes one low tick for a start bit, but presents nothing. -/
theorem Armed.words_glitch (hk : 3 ≤ k) (h : Armed k lcreg s) (g : Nat) :
    s.words (2 ^ k) lcreg (false :: List.replicate g true) = [] := by
  have hpos : 0 < 2 ^ k := Nat.two_pow_pos k
  have hentered := entered_tick hk h.settled h.countTicks h.initCt_low h.fsmCase_low
  have hactive : (tick k lcreg false s).rxFsm ≠ .idle := by
    rw [hentered.rxFsm]
    decide
  -- no word is presented while the receiver is in the start state
  have hstart : ∀ j < 2 ^ k, shown (Rx.present (2 ^ k) lcreg) (tick k lcreg) (tick k lcreg false s)
      (List.replicate j true) = [] := by
    intro j hj
    rw [← levelsTo_const, shown_inBit hk hentered.countTicks hentered.settled hactive hj,
      hentered.rxFsm]
    exact if_neg fun h ↦ absurd h.1 (by decide)
  rw [words, shown, hentered.present hk]
  rcases Nat.lt_or_ge g (2 ^ k) with hlt | hge
  · exact hstart g hlt
  · obtain ⟨j, rfl⟩ : ∃ j, g = 2 ^ k - 1 + (j + 1) := ⟨g - 2 ^ k, by omega⟩
    have hafter := hentered.afterBit hk (by decide) (d := fun _ ↦ true)
    rw [levelsTo_const, voted_const] at hafter
    have hidle := hafter.tick_start hk true
    rw [List.replicate_add, shown_append, hstart _ (by omega), List.replicate_succ, shown,
      present_of_idle hidle, shown_idle k hidle]
    rfl

/-- The rest of a stop period with noise, and idle ticks after it, present nothing. -/
theorem Armed.words_stop (hk : 3 ≤ k) (h : Armed k lcreg s) (m g : Nat) (flip : Option Sample) :
    s.words (2 ^ k) lcreg (noisyTicks (2 ^ k) m true flip ++ List.replicate g true) = [] := by
  cases flip with
  | none =>
    rw [noisyTicks, List.replicate_append_replicate]
    exact (h.feed_gap hk _).1
  | some x =>
    rw [noisyTicks]
    rcases pulse_cases m (x.tick (2 ^ k) + 1) with hpulse | ⟨c, hpulse⟩
    · rw [hpulse, List.map_replicate, Bool.xor_false, List.replicate_append_replicate]
      exact (h.feed_gap hk _).1
    · -- at least two idle ticks come before the wrong one
      obtain ⟨hnone, harmed⟩ := h.feed_gap hk (x.tick (2 ^ k) + 1)
      have htwo : x.tick (2 ^ k) + 1 ≠ 1 := Nat.succ_ne_succ_iff.mpr (sampleTick_pos hk x).ne'
      have hglitch := (harmed htwo).words_glitch hk (c + g)
      rw [hpulse, List.map_append, List.map_replicate, List.map_cons, List.map_replicate,
        Bool.xor_false, Bool.xor_self, List.append_assoc, List.cons_append,
        List.replicate_append_replicate, words_append]
      exact congrArg₂ (· ++ ·) hnone hglitch

/-! ## Characters -/

/-- A character with noise presents its word, and so does one without. -/
theorem words_noisyChar_eq (hk : 3 ≤ k) (h : Armed k lcreg s) (b : BitVec 8) (par stop : Bool)
    (flips : Nat → Option Sample) (g : Nat) :
    s.words (2 ^ k) lcreg
        (noisyChar (2 ^ k) lcreg b par stop flips ++ List.replicate g true) =
      [{ wordOf lcreg b par with errF := !stop }] := by
  have hcarries := carries_noisyBits hk flips (charLevels lcreg b par stop)
  obtain ⟨harmed, -, hword⟩ := h.feed_char hk hcarries
  have hrest := harmed.words_stop hk ((lineFormat lcreg).stopTicks (2 ^ k) - 2 ^ k) g
    (flips (charLevels lcreg b par stop).length)
  rw [noisyChar, List.append_assoc, words_append]
  exact congrArg₂ (· ++ ·) hword hrest

/-- For 8, 16, 32 and so on ticks a bit: from every state in which the receiver waits for a start
bit, a character presents the same words with noise as without, and therefore as many. -/
theorem words_noisyChar (k : Nat) (lcreg : BitVec 8) (s : Rx) (b : BitVec 8) (par stop : Bool)
    (flips : Nat → Option Sample) (g : Nat) :
    (s.idled (2 ^ (k + 3))).words (2 ^ (k + 3)) lcreg
        (noisyChar (2 ^ (k + 3)) lcreg b par stop flips ++ List.replicate g true) =
      (s.idled (2 ^ (k + 3))).words (2 ^ (k + 3)) lcreg
        (noisyChar (2 ^ (k + 3)) lcreg b par stop (fun _ ↦ none) ++ List.replicate g true) := by
  have hk : 3 ≤ k + 3 := Nat.le_add_left 3 k
  have harmed : Armed (k + 3) lcreg (s.idled (2 ^ (k + 3))) := by
    refine ⟨?_, .inl rfl, settled_of_idle rfl⟩
    rw [idled, rxTickBw_two_pow]
  rw [words_noisyChar_eq hk harmed, words_noisyChar_eq hk harmed]

end Rx

end RtlCores.Uart
