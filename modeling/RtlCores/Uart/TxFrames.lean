import RtlCores.Uart.TxPhases

/-!
# The line format of the transmitter

The ticks after a reset fall into segments.  A segment is one character, from its start bit to
the end of its stop period, or one idle bit time, and the queue at its first tick decides which.
The pieces of a segment are put together with `TxLine.Shows`, which says what the line and
`tx_ready` are during some ticks and what becomes of the queue.
-/

namespace RtlCores.Uart.TxLine

open RtlCores.Lib RtlCores.Modules

variable (ticksNum : Nat) (lcreg : BitVec 8) (es : Nat → TxEnv) (s : Tx)

/-- The transmitter and its queue `t` ticks after a reset. -/
def after (t : Nat) : TxLine := run (fun e l ↦ l.step ticksNum lcreg e) es ⟨s.reset, []⟩ t

/-- The level of `tx_dout` in tick `t`. -/
def lineAt (t : Nat) : Bool := (after ticksNum lcreg es s t).dout lcreg (es t)

/-- `tx_ready` in tick `t`. -/
def readyAt (t : Nat) : Bool := (after ticksNum lcreg es s t).tx.txReady

/-- The queue in tick `t`. -/
def queueAt (t : Nat) : List (BitVec 8) := (after ticksNum lcreg es s t).queue

/-- The bytes enqueued in the `n` ticks from `t` on. -/
def enqueued (t n : Nat) : List (BitVec 8) := (trace es t n).flatMap TxEnv.enq

theorem enqueued_succ (t n : Nat) :
    enqueued es t (n + 1) = enqueued es t n ++ (es (t + n)).enq := by
  simp [enqueued, trace_succ]

theorem enqueued_add (t m n : Nat) :
    enqueued es t (m + n) = enqueued es t m ++ enqueued es (t + m) n := by
  simp [enqueued, trace_add]

/-- During the `n` ticks from `t` on the line shows `levels` and `tx_ready` shows `readies`;
at their end the first `taken` bytes have left the queue. -/
structure Shows (t n : Nat) (levels readies : List Bool) (taken : Nat) : Prop where
  line : trace (lineAt ticksNum lcreg es s) t n = levels
  ready : trace (readyAt ticksNum lcreg es s) t n = readies
  queue : queueAt ticksNum lcreg es s (t + n) =
    (queueAt ticksNum lcreg es s t).drop taken ++ enqueued es t n

variable {ticksNum lcreg es s} {t m n : Nat}

theorem Shows.append {xs ys us vs : List Bool} {a b : Nat}
    (h : Shows ticksNum lcreg es s t m xs us a)
    (h' : Shows ticksNum lcreg es s (t + m) n ys vs b)
    (hab : a + b ≤ (queueAt ticksNum lcreg es s t).length) :
    Shows ticksNum lcreg es s t (m + n) (xs ++ ys) (us ++ vs) (a + b) := by
  constructor
  case line => rw [trace_add, h.line, h'.line]
  case ready => rw [trace_add, h.ready, h'.ready]
  case queue =>
    have hlen : b ≤ ((queueAt ticksNum lcreg es s t).drop a).length := by
      rw [List.length_drop]
      omega
    rw [← Nat.add_assoc, h'.queue, h.queue, List.drop_append_of_le_length hlen, List.drop_drop,
      enqueued_add, List.append_assoc]

theorem shows_zero : Shows ticksNum lcreg es s t 0 [] [] 0 := by
  constructor
  case queue => simp [enqueued]
  all_goals rfl

/-! ## One phase -/

section Phase

variable {k : Nat}

theorem settled_after (t : Nat) : (after ticksNum lcreg es s t).tx.Settled lcreg := by
  induction t with
  | zero => exact Tx.settled_reset s
  | succ t ih => exact ih.clock _ _

/-- The ticks of a phase, up to its last. -/
theorem inPhase_after (hk : 2 ≤ k) (hc : (after (2 ^ k) lcreg es s t).tx.countTicks = 0) {j : Nat}
    (hj : j < Tx.phaseTicks (2 ^ k) (after (2 ^ k) lcreg es s t).tx.txFsm) :
    Tx.InPhase (2 ^ k) lcreg (after (2 ^ k) lcreg es s t).tx j
      (after (2 ^ k) lcreg es s (t + j)).tx := by
  induction j with
  | zero => exact Tx.inPhase_zero hc (settled_after t) _
  | succ j ih => exact (ih (by omega)).tick hk hj _

/-- The first tick after a phase. -/
theorem afterPhase_after (hk : 2 ≤ k) (hc : (after (2 ^ k) lcreg es s t).tx.countTicks = 0)
    (hn : Tx.phaseTicks (2 ^ k) (after (2 ^ k) lcreg es s t).tx.txFsm = n) :
    Tx.AfterPhase lcreg ((es (t + (n - 1))).offer (queueAt (2 ^ k) lcreg es s (t + n)))
      (after (2 ^ k) lcreg es s t).tx (after (2 ^ k) lcreg es s (t + n)).tx := by
  have hpow : 2 ^ 2 ≤ 2 ^ k := Nat.pow_le_pow_right (by decide) hk
  obtain ⟨m, rfl⟩ : ∃ m, n = m + 1 := ⟨n - 1, by
    have : 0 < n := by
      rw [← hn, Tx.phaseTicks]
      split <;> omega
    omega⟩
  exact (inPhase_after hk hc (by omega)).last hk hn.symm _

/-- A state other than the half stop bit lasts one bit time. -/
theorem phaseTicks_after {fsm : TxFsm} (h : (after (2 ^ k) lcreg es s t).tx.txFsm = fsm)
    (hne : fsm ≠ .stopHalf) :
    Tx.phaseTicks (2 ^ k) (after (2 ^ k) lcreg es s t).tx.txFsm = 2 ^ k :=
  Tx.phaseTicks_of_ne (h.trans_ne hne) _

/-- `tx_ready` is high in the second tick of the first stop bit only. -/
theorem readyAt_phase (hk : 2 ≤ k) (hc : (after (2 ^ k) lcreg es s t).tx.countTicks = 0) {j : Nat}
    (hj : j < Tx.phaseTicks (2 ^ k) (after (2 ^ k) lcreg es s t).tx.txFsm) :
    readyAt (2 ^ k) lcreg es s (t + j) =
      (decide ((after (2 ^ k) lcreg es s t).tx.txFsm = .stop ∧
        (after (2 ^ k) lcreg es s t).tx.countBits = 0) && decide (j = 1)) := by
  have h := inPhase_after hk hc hj
  rw [readyAt, Tx.txReady, h.txFsm, h.countBits, h.countTicks]
  cases hfsm : (after (2 ^ k) lcreg es s t).tx.txFsm <;>
    simp [Tx.phaseCount, Bool.beq_eq_decide_eq]

theorem queueAt_succ (t : Nat) :
    queueAt ticksNum lcreg es s (t + 1) =
      (if readyAt ticksNum lcreg es s t then (queueAt ticksNum lcreg es s t).tail
        else queueAt ticksNum lcreg es s t) ++ (es t).enq := rfl

/-- While `tx_ready` is low the queue only grows. -/
theorem queueAt_of_quiet (hquiet : ∀ j < n, readyAt ticksNum lcreg es s (t + j) = false) :
    queueAt ticksNum lcreg es s (t + n) = queueAt ticksNum lcreg es s t ++ enqueued es t n := by
  induction n with
  | zero => simp [enqueued]
  | succ n ih =>
    rw [← Nat.add_assoc, queueAt_succ, hquiet n (Nat.lt_succ_self n),
      ih fun j hj ↦ hquiet j (Nat.lt_succ_of_lt hj), enqueued_succ, ← List.append_assoc]
    rfl

/-- A phase in which no byte leaves the queue and the line has one level. -/
theorem shows_phase (hk : 2 ≤ k) (hc : (after (2 ^ k) lcreg es s t).tx.countTicks = 0)
    (hquiet : ¬((after (2 ^ k) lcreg es s t).tx.txFsm = .stop ∧
      (after (2 ^ k) lcreg es s t).tx.countBits = 0)) {v : Bool}
    (hline : ∀ j < Tx.phaseTicks (2 ^ k) (after (2 ^ k) lcreg es s t).tx.txFsm,
      queueAt (2 ^ k) lcreg es s (t + j) = queueAt (2 ^ k) lcreg es s t ++ enqueued es t j →
        lineAt (2 ^ k) lcreg es s (t + j) = v)
    (hn : Tx.phaseTicks (2 ^ k) (after (2 ^ k) lcreg es s t).tx.txFsm = n) :
    Shows (2 ^ k) lcreg es s t n (List.replicate n v) (List.replicate n false) 0 := by
  subst hn
  have hlow : ∀ j < Tx.phaseTicks (2 ^ k) (after (2 ^ k) lcreg es s t).tx.txFsm,
      readyAt (2 ^ k) lcreg es s (t + j) = false := by
    intro j hj
    rw [readyAt_phase hk hc hj, decide_eq_false hquiet, Bool.false_and]
  constructor
  case line =>
    refine trace_eq_replicate fun j hj ↦ hline j hj ?_
    exact queueAt_of_quiet fun i hi ↦ hlow i (hi.trans hj)
  case ready => exact trace_eq_replicate hlow
  case queue => exact queueAt_of_quiet hlow

/-- The first stop bit: the line is high and the head of the queue is taken. -/
theorem shows_stop (hk : 2 ≤ k) (hc : (after (2 ^ k) lcreg es s t).tx.countTicks = 0)
    (hfsm : (after (2 ^ k) lcreg es s t).tx.txFsm = .stop)
    (hbits : (after (2 ^ k) lcreg es s t).tx.countBits = 0)
    (hne : queueAt (2 ^ k) lcreg es s t ≠ []) :
    Shows (2 ^ k) lcreg es s t (2 ^ k) (List.replicate (2 ^ k) true) (pulse (2 ^ k) 1) 1 := by
  have hticks := phaseTicks_after hfsm (by decide)
  have hready : ∀ j < 2 ^ k, readyAt (2 ^ k) lcreg es s (t + j) = decide (j = 1) := by
    intro j hj
    rw [readyAt_phase hk hc (by rwa [hticks]), decide_eq_true ⟨hfsm, hbits⟩, Bool.true_and]
  have hpow : 2 ^ 2 ≤ 2 ^ k := Nat.pow_le_pow_right (by decide) hk
  constructor
  case line =>
    refine trace_eq_replicate fun j hj ↦ ?_
    have h := inPhase_after hk hc (by rwa [hticks])
    rw [lineAt, dout, Tx.txDout, h.txFsm, hfsm]
  case ready => exact trace_eq_pulse hready
  case queue =>
    -- one tick, the tick of the pulse, and the rest
    obtain ⟨r, hr⟩ : ∃ r, 2 ^ k = 2 + r := ⟨2 ^ k - 2, by omega⟩
    have h1 : queueAt (2 ^ k) lcreg es s (t + 1) =
        queueAt (2 ^ k) lcreg es s t ++ enqueued es t 1 := by
      refine queueAt_of_quiet fun j hj ↦ ?_
      rw [hready j (by omega), decide_eq_false (by omega)]
    have h2 : queueAt (2 ^ k) lcreg es s (t + 2) =
        (queueAt (2 ^ k) lcreg es s t).tail ++ enqueued es t 2 := by
      rw [queueAt_succ, hready 1 (by omega), decide_eq_true rfl, if_pos rfl, h1,
        List.tail_append_of_ne_nil hne, enqueued_succ es t 1, List.append_assoc]
    have hrest : queueAt (2 ^ k) lcreg es s (t + 2 + r) =
        queueAt (2 ^ k) lcreg es s (t + 2) ++ enqueued es (t + 2) r := by
      refine queueAt_of_quiet fun j hj ↦ ?_
      rw [Nat.add_assoc, hready (2 + j) (by omega), decide_eq_false (by omega)]
    have hsplit : enqueued es t (2 ^ k) = enqueued es t 2 ++ enqueued es (t + 2) r := by
      rw [hr, enqueued_add]
    rw [hsplit, ← List.append_assoc, List.drop_one, ← h2, ← hrest, hr, Nat.add_assoc]

end Phase

/-! ## One character -/

section Character

variable {k : Nat} {b : BitVec 8}

/-- The last data bit is the one that makes the word as long as it should be. -/
theorem lastBit_ofNat {s : Tx} {j : Nat} (hj : j < 8) (h : s.countBits = BitVec.ofNat 3 j) :
    s.lastBit lcreg = decide (j + 1 = wordLen lcreg) := by
  rw [Tx.lastBit, h]
  exact countBits_last lcreg hj

/-- The parity bit sent is that of the format. -/
theorem parityBit_eq (b : BitVec 8) :
    Tx.parityBit lcreg b = (parityKind lcreg).bit (lowBits (wordLen lcreg) b) := by
  have hparity : Tx.parity lcreg b = xorAll (lowBits (wordLen lcreg) b) := by
    unfold Tx.parity wordLen
    rcases wls_cases (wls lcreg) with h | h | h | h <;> rw [h]
    · exact redXor_extractLsb' 5 b
    · exact redXor_extractLsb' 6 b
    · exact redXor_extractLsb' 7 b
    · rfl
  rw [Tx.parityBit, hparity, parityKind]
  cases sp lcreg <;> cases eps lcreg <;> rfl

variable (lcreg es s k) in
/-- Tick `t` is the first of data bit `j` of the byte `b`. -/
structure AtData (b : BitVec 8) (j t : Nat) : Prop where
  countTicks : (after (2 ^ k) lcreg es s t).tx.countTicks = 0
  txFsm : (after (2 ^ k) lcreg es s t).tx.txFsm = .data
  countBits : (after (2 ^ k) lcreg es s t).tx.countBits = BitVec.ofNat 3 j
  tsr : ∀ i, i + j < 8 → (after (2 ^ k) lcreg es s t).tx.tsr.getLsbD i = b.getLsbD (i + j)

variable (lcreg es s k) in
/-- Tick `t` is the first of the state `fsm`, with the bit counter at 0. -/
structure AtState (fsm : TxFsm) (t : Nat) : Prop where
  countTicks : (after (2 ^ k) lcreg es s t).tx.countTicks = 0
  txFsm : (after (2 ^ k) lcreg es s t).tx.txFsm = fsm
  countBits : (after (2 ^ k) lcreg es s t).tx.countBits = 0

variable (lcreg es s k) in
/-- Tick `t` is the first of a segment. -/
structure AtBoundary (t : Nat) : Prop where
  countTicks : (after (2 ^ k) lcreg es s t).tx.countTicks = 0
  txFsm : (after (2 ^ k) lcreg es s t).tx.txFsm =
    if (queueAt (2 ^ k) lcreg es s t).isEmpty then .idle else .start

/-- A state that ends a segment. -/
theorem atBoundary_of_afterPhase {s₀ : Tx} {i : TxIn}
    (h : Tx.AfterPhase lcreg i s₀ (after (2 ^ k) lcreg es s t).tx)
    (hstart : i.txStart = !(queueAt (2 ^ k) lcreg es s t).isEmpty)
    (hlast : ∀ txStart, s₀.fsmCase lcreg txStart s₀.txFsm = if txStart then .start else .idle) :
    AtBoundary lcreg es s k t := by
  refine ⟨h.countTicks, ?_⟩
  rw [h.txFsm, hlast, hstart]
  cases (queueAt (2 ^ k) lcreg es s t).isEmpty <;> rfl

/-- An idle bit time. -/
theorem shows_idle (hk : 2 ≤ k) (h : AtBoundary lcreg es s k t)
    (hq : queueAt (2 ^ k) lcreg es s t = []) :
    Shows (2 ^ k) lcreg es s t (2 ^ k) (List.replicate (2 ^ k) true)
        (List.replicate (2 ^ k) false) 0 ∧
      AtBoundary lcreg es s k (t + 2 ^ k) := by
  have hfsm : (after (2 ^ k) lcreg es s t).tx.txFsm = .idle := by rw [h.txFsm, hq]; rfl
  have hticks := phaseTicks_after hfsm (by decide)
  constructor
  · refine shows_phase hk h.countTicks (by rw [hfsm]; rintro ⟨h, -⟩; cases h) ?_ hticks
    intro j hj _
    have hin := inPhase_after hk h.countTicks hj
    rw [lineAt, dout, Tx.txDout, hin.txFsm, hfsm]
  · have hnext := afterPhase_after hk h.countTicks hticks
    refine atBoundary_of_afterPhase hnext rfl fun txStart ↦ ?_
    rw [Tx.fsmCase, hfsm]

/-- The start bit loads the head of the queue. -/
theorem shows_start (hk : 2 ≤ k) (hc : (after (2 ^ k) lcreg es s t).tx.countTicks = 0)
    (hfsm : (after (2 ^ k) lcreg es s t).tx.txFsm = .start) {q : List (BitVec 8)}
    (hq : queueAt (2 ^ k) lcreg es s t = b :: q) :
    Shows (2 ^ k) lcreg es s t (2 ^ k) (List.replicate (2 ^ k) false)
        (List.replicate (2 ^ k) false) 0 ∧
      AtData lcreg es s k b 0 (t + 2 ^ k) := by
  have hticks := phaseTicks_after hfsm (by decide)
  have hshows : Shows (2 ^ k) lcreg es s t (2 ^ k) (List.replicate (2 ^ k) false)
      (List.replicate (2 ^ k) false) 0 := by
    refine shows_phase hk hc (by rw [hfsm]; rintro ⟨h, -⟩; cases h) ?_ hticks
    intro j hj _
    have hin := inPhase_after hk hc hj
    rw [lineAt, dout, Tx.txDout, hin.txFsm, hfsm]
  refine ⟨hshows, ?_⟩
  have hnext := afterPhase_after hk hc hticks
  constructor
  case countTicks => exact hnext.countTicks
  case txFsm => rw [hnext.txFsm, Tx.fsmCase, hfsm]
  case countBits => simp [hnext.countBits, Tx.cbIncr, hfsm]
  case tsr =>
    intro i _
    have hload : (after (2 ^ k) lcreg es s t).tx.loadEn = true := by simp [Tx.loadEn, hfsm]
    rw [hnext.tsr, ShiftReg.clock_load _ hload, Tx.tsrIn, TxEnv.offer, hshows.queue, hq]
    rfl

/-- A data bit shows the lowest bit left in the shift register. -/
theorem AtData.shows (hk : 2 ≤ k) {j : Nat} (h : AtData lcreg es s k b j t) (hj : j < 8) :
    Shows (2 ^ k) lcreg es s t (2 ^ k) (List.replicate (2 ^ k) (b.getLsbD j))
      (List.replicate (2 ^ k) false) 0 := by
  have hticks := phaseTicks_after h.txFsm (by decide)
  refine shows_phase hk h.countTicks (by rw [h.txFsm]; rintro ⟨h, -⟩; cases h) ?_ hticks
  intro i hi _
  have hin := inPhase_after hk h.countTicks hi
  rw [lineAt, dout, Tx.txDout, hin.txFsm, h.txFsm]
  show (after (2 ^ k) lcreg es s (t + i)).tx.tsr.getLsbD 0 = _
  rw [hin.tsr, h.tsr 0 (by omega), Nat.zero_add]

/-- What follows a data bit. -/
theorem AtData.afterPhase (hk : 2 ≤ k) {j : Nat} (h : AtData lcreg es s k b j t) :
    ∃ i, Tx.AfterPhase lcreg i (after (2 ^ k) lcreg es s t).tx
      (after (2 ^ k) lcreg es s (t + 2 ^ k)).tx :=
  ⟨_, afterPhase_after hk h.countTicks (phaseTicks_after h.txFsm (by decide))⟩

theorem AtData.next (hk : 2 ≤ k) {j : Nat} (h : AtData lcreg es s k b j t)
    (hj : j + 1 < wordLen lcreg) : AtData lcreg es s k b (j + 1) (t + 2 ^ k) := by
  have hlen := wordLen_le lcreg
  obtain ⟨i, hnext⟩ := h.afterPhase hk
  have hlast : (after (2 ^ k) lcreg es s t).tx.lastBit lcreg = false := by
    rw [lastBit_ofNat (by omega) h.countBits]
    exact decide_eq_false (by omega)
  constructor
  case countTicks => exact hnext.countTicks
  case txFsm => rw [hnext.txFsm, Tx.fsmCase, h.txFsm]; simp [hlast]
  case countBits =>
    rw [hnext.countBits, hlast, Tx.cbNext, Tx.cbIncr, h.txFsm, h.countBits, BitVec.ofNat_add]
    rfl
  case tsr =>
    intro m hm
    have hload : (after (2 ^ k) lcreg es s t).tx.loadEn = false := by simp [Tx.loadEn, h.txFsm]
    have hen : (after (2 ^ k) lcreg es s t).tx.sregEn = true := by simp [Tx.sregEn, h.txFsm]
    rw [hnext.tsr, ShiftReg.getLsbD_clock_shift _ hload hen (by omega), h.tsr _ (by omega)]
    congr 1
    omega

/-- After the last data bit comes the parity bit, or the stop period. -/
theorem AtData.last (hk : 2 ≤ k) {j : Nat} (h : AtData lcreg es s k b j t)
    (hj : j + 1 = wordLen lcreg) :
    AtState lcreg es s k (if pen lcreg then .parity else .stop) (t + 2 ^ k) := by
  have hlen := wordLen_le lcreg
  obtain ⟨i, hnext⟩ := h.afterPhase hk
  have hlast : (after (2 ^ k) lcreg es s t).tx.lastBit lcreg = true := by
    rw [lastBit_ofNat (by omega) h.countBits]
    exact decide_eq_true hj
  constructor
  case countTicks => exact hnext.countTicks
  case txFsm => rw [hnext.txFsm, Tx.fsmCase, h.txFsm]; simp [hlast]
  case countBits => simp [hnext.countBits, hlast]

/-- The data bits before bit `j`. -/
theorem AtData.shows_lowBits (hk : 2 ≤ k) (h : AtData lcreg es s k b 0 t) {j : Nat}
    (hj : j < wordLen lcreg) :
    Shows (2 ^ k) lcreg es s t (2 ^ k * j) (stretch (2 ^ k) (lowBits j b))
        (List.replicate (2 ^ k * j) false) 0 ∧
      AtData lcreg es s k b j (t + 2 ^ k * j) := by
  induction j with
  | zero => exact ⟨shows_zero, h⟩
  | succ j ih =>
    obtain ⟨hshows, hat⟩ := ih (by omega)
    have hlen := wordLen_le lcreg
    have hbit := hat.shows hk (by omega)
    rw [Nat.mul_succ, lowBits_succ, stretch_append, stretch_singleton,
      ← List.replicate_append_replicate, ← Nat.add_assoc]
    exact ⟨hshows.append hbit (Nat.zero_le _), hat.next hk hj⟩

/-- All the data bits. -/
theorem AtData.shows_word (hk : 2 ≤ k) (h : AtData lcreg es s k b 0 t) :
    Shows (2 ^ k) lcreg es s t (2 ^ k * wordLen lcreg)
        (stretch (2 ^ k) (lowBits (wordLen lcreg) b))
        (List.replicate (2 ^ k * wordLen lcreg) false) 0 ∧
      AtState lcreg es s k (if pen lcreg then .parity else .stop)
        (t + 2 ^ k * wordLen lcreg) := by
  obtain ⟨j, hj⟩ : ∃ j, wordLen lcreg = j + 1 := ⟨4 + (wls lcreg).toNat, by
    unfold wordLen
    omega⟩
  have hlen := wordLen_le lcreg
  obtain ⟨hshows, hat⟩ := h.shows_lowBits hk (j := j) (by omega)
  have hbit := hat.shows hk (by omega)
  have hlast := hat.last hk hj.symm
  rw [hj, Nat.mul_succ, lowBits_succ, stretch_append, stretch_singleton,
    ← List.replicate_append_replicate, ← Nat.add_assoc]
  exact ⟨hshows.append hbit (Nat.zero_le _), hlast⟩

/-- The parity bit, the byte still at the head of the queue. -/
theorem AtState.shows_parity (hk : 2 ≤ k) (h : AtState lcreg es s k .parity t)
    {q : List (BitVec 8)} (hq : queueAt (2 ^ k) lcreg es s t = b :: q) :
    Shows (2 ^ k) lcreg es s t (2 ^ k) (List.replicate (2 ^ k) (Tx.parityBit lcreg b))
        (List.replicate (2 ^ k) false) 0 ∧
      AtState lcreg es s k .stop (t + 2 ^ k) := by
  constructor
  · refine shows_phase hk h.countTicks (by rw [h.txFsm]; rintro ⟨h, -⟩; cases h) ?_
      (phaseTicks_after h.txFsm (by decide))
    intro j hj hqueue
    have hin := inPhase_after hk h.countTicks hj
    have hhead : (queueAt (2 ^ k) lcreg es s (t + j)).headD (es (t + j)).idleDin = b := by
      rw [hqueue, hq]
      rfl
    rw [lineAt, dout, Tx.txDout, hin.txFsm, h.txFsm, TxEnv.offer]
    exact congrArg (Tx.parityBit lcreg) hhead
  · have hafter := afterPhase_after hk h.countTicks (phaseTicks_after h.txFsm (by decide))
    constructor
    case countTicks => exact hafter.countTicks
    case txFsm => rw [hafter.txFsm, Tx.fsmCase, h.txFsm]
    case countBits => simp [hafter.countBits, Tx.cbIncr, h.txFsm]

/-- The levels of a character before its stop period. -/
theorem shows_levels (hk : 2 ≤ k) (hc : (after (2 ^ k) lcreg es s t).tx.countTicks = 0)
    (hfsm : (after (2 ^ k) lcreg es s t).tx.txFsm = .start) {q : List (BitVec 8)}
    (hq : queueAt (2 ^ k) lcreg es s t = b :: q) (levels : List Bool)
    (hlevels : levels = (lineFormat lcreg).levels b ((lineFormat lcreg).parityBit b)) :
    Shows (2 ^ k) lcreg es s t (2 ^ k * levels.length) (stretch (2 ^ k) levels)
        (List.replicate (2 ^ k * levels.length) false) 0 ∧
      AtState lcreg es s k .stop (t + 2 ^ k * levels.length) := by
  subst hlevels
  obtain ⟨hstart, hdata⟩ := shows_start hk hc hfsm hq
  obtain ⟨hword, hend⟩ := hdata.shows_word hk
  have hboth := hstart.append hword (Nat.zero_le _)
  rw [List.replicate_append_replicate, ← stretch_cons] at hboth
  have hlen : (false :: lowBits (wordLen lcreg) b).length = 1 + wordLen lcreg := by
    simp [Nat.add_comm]
  cases hpen : pen lcreg with
  | false =>
    have hpar : (lineFormat lcreg).levels b ((lineFormat lcreg).parityBit b) =
        false :: lowBits (wordLen lcreg) b := by
      simp [LineFormat.levels, LineFormat.parityBit, lineFormat, hpen]
    rw [hpen, if_neg Bool.false_ne_true, Nat.add_assoc] at hend
    rw [hpar, hlen, Nat.mul_add, Nat.mul_one]
    exact ⟨hboth, hend⟩
  | true =>
    have hpar : (lineFormat lcreg).levels b ((lineFormat lcreg).parityBit b) =
        (false :: lowBits (wordLen lcreg) b) ++ [Tx.parityBit lcreg b] := by
      simp [LineFormat.levels, LineFormat.parityBit, lineFormat, hpen, parityBit_eq]
    rw [hpen, if_pos rfl, Nat.add_assoc] at hend
    have hhead : queueAt (2 ^ k) lcreg es s (t + (2 ^ k + 2 ^ k * wordLen lcreg)) =
        b :: (q ++ enqueued es t (2 ^ k + 2 ^ k * wordLen lcreg)) := by
      rw [hboth.queue, hq]
      rfl
    obtain ⟨hparity, hstop⟩ := hend.shows_parity hk hhead
    rw [hpar, List.length_append, hlen, Nat.mul_add, Nat.mul_add, Nat.mul_one,
      List.length_singleton, Nat.mul_one, stretch_append, stretch_singleton,
      ← List.replicate_append_replicate, ← Nat.add_assoc]
    exact ⟨hboth.append hparity (Nat.zero_le _), hstop⟩

/-- What follows the first stop bit. -/
theorem AtState.afterStop (hk : 2 ≤ k) (h : AtState lcreg es s k .stop t) :
    (after (2 ^ k) lcreg es s (t + 2 ^ k)).tx.countTicks = 0 ∧
      (after (2 ^ k) lcreg es s (t + 2 ^ k)).tx.countBits = 1 ∧
      (after (2 ^ k) lcreg es s (t + 2 ^ k)).tx.txFsm =
        if Tx.halfParity lcreg then .stopHalf
        else if stb lcreg then .stop
        else if (queueAt (2 ^ k) lcreg es s (t + 2 ^ k)).isEmpty then .idle else .start := by
  have hnext := afterPhase_after hk h.countTicks (phaseTicks_after h.txFsm (by decide))
  have hlast : (after (2 ^ k) lcreg es s t).tx.lastBit lcreg = false := by
    simp [Tx.lastBit, h.countBits]
  refine ⟨hnext.countTicks, ?_, ?_⟩
  · rw [hnext.countBits, hlast, Tx.cbNext, Tx.cbIncr, h.txFsm, h.countBits]
    rfl
  · rw [hnext.txFsm, Tx.fsmCase, h.txFsm, h.countBits, Tx.stopBits, TxEnv.offer]
    cases stb lcreg <;> cases (queueAt (2 ^ k) lcreg es s (t + 2 ^ k)).isEmpty <;> rfl

/-- A phase of the line at its high level, after the first stop bit. -/
theorem shows_stopRest (hk : 2 ≤ k) {fsm : TxFsm} (hstop : fsm = .stop ∨ fsm = .stopHalf)
    (hc : (after (2 ^ k) lcreg es s t).tx.countTicks = 0)
    (hbits : (after (2 ^ k) lcreg es s t).tx.countBits = 1)
    (hfsm : (after (2 ^ k) lcreg es s t).tx.txFsm = fsm)
    (hcase : fsm = .stop → Tx.halfParity lcreg = false ∧ stb lcreg = true)
    (hn : Tx.phaseTicks (2 ^ k) fsm = n) :
    Shows (2 ^ k) lcreg es s t n (List.replicate n true) (List.replicate n false) 0 ∧
      AtBoundary lcreg es s k (t + n) := by
  rw [← hfsm] at hn
  constructor
  · refine shows_phase hk hc (by rw [hbits]; rintro ⟨-, h⟩; cases h) ?_ hn
    intro j hj _
    have hin := inPhase_after hk hc hj
    rw [lineAt, dout, Tx.txDout, hin.txFsm, hfsm]
    rcases hstop with rfl | rfl <;> rfl
  · refine atBoundary_of_afterPhase (afterPhase_after hk hc hn) rfl fun txStart ↦ ?_
    rw [Tx.fsmCase, hfsm]
    rcases hstop with rfl | rfl
    · obtain ⟨hhalf, hstb⟩ := hcase rfl
      simp [hhalf, hbits, Tx.stopBits, hstb]
    · rfl

/-- A stop period of more than the first stop bit. -/
theorem shows_stopMore (hk : 2 ≤ k) (h : AtState lcreg es s k .stop t)
    (hne : queueAt (2 ^ k) lcreg es s t ≠ []) {fsm : TxFsm} {m : Nat}
    (hstop : fsm = .stop ∨ fsm = .stopHalf)
    (hfsm : (after (2 ^ k) lcreg es s (t + 2 ^ k)).tx.txFsm = fsm)
    (hcase : fsm = .stop → Tx.halfParity lcreg = false ∧ stb lcreg = true)
    (hm : Tx.phaseTicks (2 ^ k) fsm = m) :
    Shows (2 ^ k) lcreg es s t (2 ^ k + m) (List.replicate (2 ^ k + m) true)
        (pulse (2 ^ k + m) 1) 1 ∧
      AtBoundary lcreg es s k (t + (2 ^ k + m)) := by
  have hpow : 2 ^ 2 ≤ 2 ^ k := Nat.pow_le_pow_right (by decide) hk
  have hfirst := shows_stop hk h.countTicks h.txFsm h.countBits hne
  obtain ⟨hc, hbits, -⟩ := h.afterStop hk
  obtain ⟨hrest, hend⟩ := shows_stopRest hk hstop hc hbits hfsm hcase hm
  rw [← List.replicate_append_replicate, ← pulse_append_replicate (by omega), ← Nat.add_assoc]
  exact ⟨hfirst.append hrest (List.length_pos_of_ne_nil hne), hend⟩

/-- The stop period. -/
theorem shows_stopPeriod (hk : 2 ≤ k) (h : AtState lcreg es s k .stop t)
    (hne : queueAt (2 ^ k) lcreg es s t ≠ []) (ticks : Nat)
    (hticks : ticks = (lineFormat lcreg).stopTicks (2 ^ k)) :
    Shows (2 ^ k) lcreg es s t ticks (List.replicate ticks true) (pulse ticks 1) 1 ∧
      AtBoundary lcreg es s k (t + ticks) := by
  obtain ⟨hc, -, hfsm⟩ := h.afterStop hk
  rw [stopTicks_lineFormat] at hticks
  cases hstb : stb lcreg with
  | false =>
    have hhalf : Tx.halfParity lcreg = false := by simp [Tx.halfParity, hstb]
    rw [hstb, if_neg Bool.false_ne_true] at hticks
    rw [hhalf, hstb] at hfsm
    rw [hticks]
    exact ⟨shows_stop hk h.countTicks h.txFsm h.countBits hne, hc, hfsm⟩
  | true =>
    rw [hstb, if_pos rfl] at hticks
    by_cases hwls : wls lcreg = 0
    · have hhalf : Tx.halfParity lcreg = true := by simp [Tx.halfParity, hstb, hwls]
      have hsum : ticks = 2 ^ k + Tx.phaseTicks (2 ^ k) .stopHalf := by
        obtain ⟨j, rfl⟩ : ∃ j, k = j + 1 := ⟨k - 1, by omega⟩
        rw [hticks, if_pos hwls, Tx.phaseTicks, if_pos rfl, Nat.pow_succ]
        omega
      rw [hhalf] at hfsm
      rw [hsum]
      exact shows_stopMore hk h hne (.inr rfl) hfsm (fun h ↦ by cases h) rfl
    · have hhalf : Tx.halfParity lcreg = false := by
        rw [Tx.halfParity, beq_false_of_ne hwls, Bool.false_and]
      have hsum : ticks = 2 ^ k + Tx.phaseTicks (2 ^ k) .stop := by
        rw [hticks, if_neg hwls, Tx.phaseTicks_of_ne (by decide), Nat.two_mul]
      rw [hhalf, hstb] at hfsm
      rw [hsum]
      exact shows_stopMore hk h hne (.inl rfl) hfsm (fun _ ↦ ⟨hhalf, hstb⟩) rfl

/-- A whole character. -/
theorem shows_wave (hk : 2 ≤ k) (h : AtBoundary lcreg es s k t) {q : List (BitVec 8)}
    (hq : queueAt (2 ^ k) lcreg es s t = b :: q) :
    Shows (2 ^ k) lcreg es s t ((lineFormat lcreg).wave (2 ^ k) b).length
        ((lineFormat lcreg).wave (2 ^ k) b)
        (pulse ((lineFormat lcreg).wave (2 ^ k) b).length
          (2 ^ k * ((lineFormat lcreg).levels b ((lineFormat lcreg).parityBit b)).length + 1)) 1 ∧
      AtBoundary lcreg es s k (t + ((lineFormat lcreg).wave (2 ^ k) b).length) := by
  have hfsm : (after (2 ^ k) lcreg es s t).tx.txFsm = .start := by rw [h.txFsm, hq]; rfl
  obtain ⟨hlevels, hstop⟩ := shows_levels hk h.countTicks hfsm hq _ rfl
  have hne : queueAt (2 ^ k) lcreg es s (t + 2 ^ k *
      ((lineFormat lcreg).levels b ((lineFormat lcreg).parityBit b)).length) ≠ [] := by
    rw [hlevels.queue, hq]
    exact List.cons_ne_nil _ _
  obtain ⟨hperiod, hend⟩ := shows_stopPeriod hk hstop hne _ rfl
  have hall := hlevels.append hperiod (by rw [hq]; simp)
  rw [LineFormat.wave, List.length_append, length_stretch, List.length_replicate,
    ← replicate_append_pulse, ← Nat.add_assoc]
  exact ⟨hall, hend⟩

end Character

/-! ## The segments of a run -/

variable (ticksNum lcreg es s)

/-- The ticks of a segment. -/
def segTicks (sent : Option (BitVec 8)) : Nat :=
  sent.elim ticksNum fun b ↦ ((lineFormat lcreg).wave ticksNum b).length

/-- What the line shows in a segment. -/
def segLevels (sent : Option (BitVec 8)) : List Bool :=
  sent.elim (List.replicate ticksNum true) fun b ↦ (lineFormat lcreg).wave ticksNum b

/-- What `tx_ready` shows in a segment: a pulse in the second tick of the stop period. -/
def segReadies (sent : Option (BitVec 8)) : List Bool :=
  sent.elim (List.replicate ticksNum false) fun b ↦
    pulse ((lineFormat lcreg).wave ticksNum b).length
      (ticksNum * ((lineFormat lcreg).levels b ((lineFormat lcreg).parityBit b)).length + 1)

/-- The first tick of segment `n`. -/
def segStart : Nat → Nat
  | 0 => 0
  | n + 1 => segStart n + segTicks ticksNum lcreg (queueAt ticksNum lcreg es s (segStart n)).head?

/-- The byte that segment `n` sends. -/
def segSent (n : Nat) : Option (BitVec 8) :=
  (queueAt ticksNum lcreg es s (segStart ticksNum lcreg es s n)).head?

/-- `start n` is the first tick of segment `n`, and `sent n` is the byte it sends, if it does. -/
structure Transmits (start : Nat → Nat) (sent : Nat → Option (BitVec 8)) : Prop where
  start_zero : start 0 = 0
  start_succ : ∀ n, start (n + 1) = start n + segTicks ticksNum lcreg (sent n)
  line : ∀ n, trace (lineAt ticksNum lcreg es s) (start n) (segTicks ticksNum lcreg (sent n)) =
    segLevels ticksNum lcreg (sent n)
  ready : ∀ n, trace (readyAt ticksNum lcreg es s) (start n) (segTicks ticksNum lcreg (sent n)) =
    segReadies ticksNum lcreg (sent n)
  /-- A segment sends a byte if one is waiting at its first tick. -/
  prompt : ∀ n, sent n = (queueAt ticksNum lcreg es s (start n)).head?
  /-- The bytes sent so far and those waiting are the bytes enqueued so far. -/
  order : ∀ n, (List.range n).filterMap sent ++ queueAt ticksNum lcreg es s (start n) =
    enqueued es 0 (start n)
  /-- Every byte is sent in the end. -/
  complete : ∀ t, ∃ n, t ≤ start n ∧ enqueued es 0 t <+: (List.range n).filterMap sent

variable {k : Nat}

theorem segTicks_pos (sent : Option (BitVec 8)) : 0 < segTicks (2 ^ k) lcreg sent := by
  have hone : 0 < 2 ^ k := Nat.two_pow_pos k
  cases sent with
  | none => exact hone
  | some b =>
    show 0 < ((lineFormat lcreg).wave (2 ^ k) b).length
    rw [LineFormat.wave, List.length_append, length_stretch, LineFormat.levels, List.length_cons]
    exact Nat.add_pos_left (Nat.mul_pos hone (Nat.succ_pos _)) _

theorem le_segStart (n : Nat) : n ≤ segStart (2 ^ k) lcreg es s n := by
  induction n with
  | zero => exact Nat.zero_le _
  | succ n ih =>
    have := segTicks_pos (k := k) lcreg (segSent (2 ^ k) lcreg es s n)
    show n + 1 ≤ segStart (2 ^ k) lcreg es s n +
      segTicks (2 ^ k) lcreg (segSent (2 ^ k) lcreg es s n)
    omega

variable {lcreg es s}

/-- One segment. -/
theorem shows_segment (hk : 2 ≤ k) (h : AtBoundary lcreg es s k t) (sent : Option (BitVec 8))
    (hsent : sent = (queueAt (2 ^ k) lcreg es s t).head?) :
    Shows (2 ^ k) lcreg es s t (segTicks (2 ^ k) lcreg sent) (segLevels (2 ^ k) lcreg sent)
        (segReadies (2 ^ k) lcreg sent) sent.toList.length ∧
      AtBoundary lcreg es s k (t + segTicks (2 ^ k) lcreg sent) := by
  subst hsent
  cases hq : queueAt (2 ^ k) lcreg es s t with
  | nil => exact shows_idle hk h hq
  | cons b q => exact shows_wave hk h hq

theorem atBoundary_segStart (hk : 2 ≤ k) (n : Nat) :
    AtBoundary lcreg es s k (segStart (2 ^ k) lcreg es s n) := by
  induction n with
  | zero => exact ⟨rfl, rfl⟩
  | succ n ih => exact (shows_segment hk ih _ rfl).2

variable (lcreg es s)

theorem shows_segStart (hk : 2 ≤ k) (n : Nat) :
    Shows (2 ^ k) lcreg es s (segStart (2 ^ k) lcreg es s n)
      (segTicks (2 ^ k) lcreg (segSent (2 ^ k) lcreg es s n))
      (segLevels (2 ^ k) lcreg (segSent (2 ^ k) lcreg es s n))
      (segReadies (2 ^ k) lcreg (segSent (2 ^ k) lcreg es s n))
      (segSent (2 ^ k) lcreg es s n).toList.length :=
  (shows_segment hk (atBoundary_segStart hk n) _ rfl).1

/-- The byte sent leaves the queue, and what is enqueued meanwhile enters. -/
theorem queueAt_segStart_succ (hk : 2 ≤ k) (n : Nat) :
    (segSent (2 ^ k) lcreg es s n).toList ++
        queueAt (2 ^ k) lcreg es s (segStart (2 ^ k) lcreg es s (n + 1)) =
      queueAt (2 ^ k) lcreg es s (segStart (2 ^ k) lcreg es s n) ++
        enqueued es (segStart (2 ^ k) lcreg es s n)
          (segTicks (2 ^ k) lcreg (segSent (2 ^ k) lcreg es s n)) := by
  have hqueue := (shows_segStart lcreg es s hk n).queue
  rw [show segStart (2 ^ k) lcreg es s (n + 1) = segStart (2 ^ k) lcreg es s n +
    segTicks (2 ^ k) lcreg (segSent (2 ^ k) lcreg es s n) from rfl, hqueue, ← List.append_assoc]
  congr 1
  unfold segSent
  cases queueAt (2 ^ k) lcreg es s (segStart (2 ^ k) lcreg es s n) <;> rfl

theorem filterMap_range_succ (sent : Nat → Option (BitVec 8)) (n : Nat) :
    (List.range (n + 1)).filterMap sent = (List.range n).filterMap sent ++ (sent n).toList := by
  rw [List.range_succ, List.filterMap_append]
  rfl

theorem segSent_order (hk : 2 ≤ k) (n : Nat) :
    (List.range n).filterMap (segSent (2 ^ k) lcreg es s) ++
        queueAt (2 ^ k) lcreg es s (segStart (2 ^ k) lcreg es s n) =
      enqueued es 0 (segStart (2 ^ k) lcreg es s n) := by
  induction n with
  | zero => rfl
  | succ n ih =>
    rw [filterMap_range_succ, List.append_assoc, queueAt_segStart_succ lcreg es s hk,
      ← List.append_assoc, ih, segStart, enqueued_add, Nat.zero_add]
    rfl

/-- The first bytes of the queue are the next ones sent. -/
theorem exists_segSent_append (hk : 2 ≤ k) (p : List (BitVec 8)) (n : Nat)
    (hp : p <+: queueAt (2 ^ k) lcreg es s (segStart (2 ^ k) lcreg es s n)) :
    ∃ m, n ≤ m ∧ (List.range n).filterMap (segSent (2 ^ k) lcreg es s) ++ p <+:
      (List.range m).filterMap (segSent (2 ^ k) lcreg es s) := by
  induction p generalizing n with
  | nil => exact ⟨n, le_rfl, by rw [List.append_nil]⟩
  | cons b p ih =>
    obtain ⟨rest, hrest⟩ := hp
    have hsent : segSent (2 ^ k) lcreg es s n = some b := by
      rw [segSent, ← hrest]
      rfl
    have hnext := queueAt_segStart_succ lcreg es s hk n
    rw [hsent, ← hrest, Option.toList_some, List.singleton_append, List.cons_append,
      List.cons_append, List.cons.injEq] at hnext
    have hp : p <+: queueAt (2 ^ k) lcreg es s (segStart (2 ^ k) lcreg es s (n + 1)) := by
      rw [hnext.2, List.append_assoc]
      exact List.prefix_append _ _
    obtain ⟨m, hm, hpre⟩ := ih (n + 1) hp
    rw [filterMap_range_succ, hsent, List.append_assoc] at hpre
    exact ⟨m, by omega, hpre⟩

/-- The line format of `uart_tx`: from a reset on, for every byte enqueued at any tick and every
line control word, the line is the bytes in order, each as one character of the format that the
control word selects, and `tx_ready` is one pulse a character, after its parity bit. -/
theorem transmits_characters (hk : 2 ≤ k) :
    ∃ start sent, Transmits (2 ^ k) lcreg es s start sent := by
  refine ⟨segStart (2 ^ k) lcreg es s, segSent (2 ^ k) lcreg es s, ?_⟩
  constructor
  case start_zero => rfl
  case start_succ => exact fun _ ↦ rfl
  case line => exact fun n ↦ (shows_segStart lcreg es s hk n).line
  case ready => exact fun n ↦ (shows_segStart lcreg es s hk n).ready
  case prompt => exact fun _ ↦ rfl
  case order => exact segSent_order lcreg es s hk
  case complete =>
    intro t
    have hle := le_segStart (k := k) lcreg es s t
    obtain ⟨m, hm, hpre⟩ := exists_segSent_append lcreg es s hk _ t List.prefix_rfl
    rw [segSent_order lcreg es s hk] at hpre
    refine ⟨m, hm.trans (le_segStart lcreg es s m), List.IsPrefix.trans ?_ hpre⟩
    obtain ⟨d, hd⟩ := Nat.exists_eq_add_of_le hle
    rw [hd, enqueued_add]
    exact List.prefix_append _ _

/-- Two bytes for a transmitter with sixteen ticks a bit, even parity and two stop bits. -/
theorem transmits_characters_sixteen :
    ∃ start sent, Transmits (2 ^ 4) 0x1F#8
      (fun t ↦ ⟨if t = 3 then [0x5A#8, 0xC3#8] else [], 0, false⟩) ⟨9, 5, .data, .parity, 0xFF⟩
      start sent :=
  transmits_characters _ _ _ (by decide)

end RtlCores.Uart.TxLine
