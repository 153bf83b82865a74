import RtlCores.Uart.TxFrames
import RtlCores.Uart.RxDecode

/-!
# Loopback

The transmitter and the receiver on one baud clock, with `tx_dout` on `rx_din`.  A segment of the
line is a character and more ticks at the high level, or an idle bit time; neither leaves a gap of
one tick, so the receiver waits for a start bit at every boundary of segments.
-/

namespace RtlCores.Uart

open RtlCores.Lib

/-- The transmitter with its queue, and the receiver. -/
structure Loop where
  line : TxLine
  rx : Rx

namespace Loop

variable (ticksNum : Nat) (lcreg : BitVec 8) (es : Nat → TxEnv) (s : Tx) (r : Rx)

/-- One baud tick: the receiver sees the level of the line before the tick. -/
def step (e : TxEnv) (l : Loop) : Loop where
  line := l.line.step ticksNum lcreg e
  rx := l.rx.clock ticksNum lcreg (l.line.dout lcreg e)

/-- Both machines after a reset, with nothing enqueued. -/
def init : Loop := ⟨⟨s.reset, []⟩, r.reset ticksNum⟩

/-- The words presented with `rx_done` in the first `n` ticks after a reset. -/
def received (n : Nat) : List RxOut :=
  emitted (fun _ l ↦ l.rx.present ticksNum lcreg) (step ticksNum lcreg) es (init ticksNum s r) n

/-- The word that the receiver should make of a byte. -/
def echo (b : BitVec 8) : RxOut := ⟨false, false, masked lcreg b⟩

/-! ## The two machines apart -/

theorem run_step (n : Nat) :
    run (step ticksNum lcreg) es (init ticksNum s r) n =
      ⟨TxLine.after ticksNum lcreg es s n,
        (r.reset ticksNum).fed ticksNum lcreg (trace (TxLine.lineAt ticksNum lcreg es s) 0 n)⟩ := by
  induction n with
  | zero => rfl
  | succ n ih =>
    rw [run_succ, ih, trace_succ, Rx.fed_append, Nat.zero_add]
    rfl

theorem received_succ (n : Nat) :
    received ticksNum lcreg es s r (n + 1) =
      (r.reset ticksNum).words ticksNum lcreg
        (trace (TxLine.lineAt ticksNum lcreg es s) 0 n) := by
  induction n with
  | zero =>
    show [] ++ (Rx.present ticksNum lcreg (r.reset ticksNum)).toList = []
    rw [Rx.present_of_idle rfl]
    rfl
  | succ n ih =>
    rw [received, emitted, ← received, ih, run_step, trace_succ, Rx.fed_append, Rx.words_append,
      Rx.words_singleton, Nat.zero_add]
    rfl

/-- What has been received is never taken back. -/
theorem received_mono {m n : Nat} (h : m ≤ n) :
    received ticksNum lcreg es s r m <+: received ticksNum lcreg es s r n := by
  induction n, h using Nat.le_induction with
  | base => exact List.prefix_rfl
  | succ n _ ih => exact ih.trans (List.prefix_append _ _)

/-! ## Segments seen by the receiver -/

variable {k : Nat} {r}

/-- The line of a sent character is one the receiver knows, with the right parity bit and some
more ticks at the high level. -/
theorem wave_eq (hk : 3 ≤ k) (b : BitVec 8) :
    ∃ g, g ≠ 1 ∧ (lineFormat lcreg).wave (2 ^ k) b =
      Rx.charLine (2 ^ k) lcreg b ((parityKind lcreg).bit (lowBits (wordLen lcreg) b)) ++
        List.replicate g true := by
  have hpow : 2 ^ 3 ≤ 2 ^ k := Nat.pow_le_pow_right (by decide) hk
  obtain ⟨g, hg, hsum⟩ : ∃ g, g ≠ 1 ∧ (lineFormat lcreg).stopTicks (2 ^ k) = 2 ^ k + g := by
    rw [stopTicks_lineFormat]
    split
    · split
      · exact ⟨3 * 2 ^ k / 2 - 2 ^ k, by omega, by omega⟩
      · exact ⟨2 ^ k, by omega, by omega⟩
    · exact ⟨0, by omega, by omega⟩
  refine ⟨g, hg, ?_⟩
  have hpar : (lineFormat lcreg).parityBit b =
      if pen lcreg then some ((parityKind lcreg).bit (lowBits (wordLen lcreg) b)) else none := by
    rw [LineFormat.parityBit, lineFormat]
    cases pen lcreg <;> rfl
  rw [LineFormat.wave, hsum, Rx.charLine, hpar, stretch_append, stretch_singleton,
    ← List.replicate_append_replicate, List.append_assoc]

/-- The receiver makes the right word of a sent character. -/
theorem wordOf_eq_echo (b : BitVec 8) :
    Rx.wordOf lcreg b ((parityKind lcreg).bit (lowBits (wordLen lcreg) b)) = echo lcreg b := by
  rw [Rx.wordOf, echo, Bool.xor_self, Bool.and_false]

variable {lcreg}

/-- A segment of the line. -/
theorem armed_fed_segLevels (hk : 3 ≤ k) (h : Rx.Armed k lcreg r) (sent : Option (BitVec 8)) :
    Rx.Armed k lcreg (r.fed (2 ^ k) lcreg (TxLine.segLevels (2 ^ k) lcreg sent)) ∧
      r.words (2 ^ k) lcreg (TxLine.segLevels (2 ^ k) lcreg sent) =
        sent.toList.map (echo lcreg) := by
  cases sent with
  | none =>
    have hpow : 2 ^ 3 ≤ 2 ^ k := Nat.pow_le_pow_right (by decide) hk
    obtain ⟨hnone, harmed⟩ := h.feed_gap hk (2 ^ k)
    exact ⟨harmed (by omega), hnone⟩
  | some b =>
    obtain ⟨g, hg, hwave⟩ := wave_eq lcreg hk b
    obtain ⟨harmed, -, hword⟩ := h.feed_charLine hk b
      ((parityKind lcreg).bit (lowBits (wordLen lcreg) b))
    obtain ⟨hnone, hgap⟩ := harmed.feed_gap hk g
    show Rx.Armed k lcreg (r.fed (2 ^ k) lcreg ((lineFormat lcreg).wave (2 ^ k) b)) ∧
      r.words (2 ^ k) lcreg ((lineFormat lcreg).wave (2 ^ k) b) = [echo lcreg b]
    rw [hwave, Rx.fed_append, Rx.words_append]
    refine ⟨hgap hg, ?_⟩
    rw [← wordOf_eq_echo, ← hword]
    exact (congrArg _ hnone).trans (List.append_nil _)

/-- At a boundary of segments the receiver waits, and it has received what has been sent. -/
theorem received_segStart (r : Rx) (hk : 3 ≤ k) (n : Nat) :
    Rx.Armed k lcreg ((r.reset (2 ^ k)).fed (2 ^ k) lcreg
        (trace (TxLine.lineAt (2 ^ k) lcreg es s) 0 (TxLine.segStart (2 ^ k) lcreg es s n))) ∧
      received (2 ^ k) lcreg es s r (TxLine.segStart (2 ^ k) lcreg es s n + 1) =
        ((List.range n).filterMap (TxLine.segSent (2 ^ k) lcreg es s)).map (echo lcreg) := by
  induction n with
  | zero =>
    refine ⟨⟨?_, .inl rfl, Rx.settled_of_idle rfl⟩, ?_⟩
    · show 2 ^ rxTickBw (2 ^ k) - 1 = _
      rw [rxTickBw_two_pow]
    · rw [received_succ]
      rfl
  | succ n ih =>
    obtain ⟨harmed, hreceived⟩ := ih
    obtain ⟨harmed', hwords⟩ := armed_fed_segLevels hk harmed (TxLine.segSent (2 ^ k) lcreg es s n)
    have hline := (TxLine.shows_segStart lcreg es s (by omega : 2 ≤ k) n).line
    rw [received_succ] at hreceived ⊢
    rw [show TxLine.segStart (2 ^ k) lcreg es s (n + 1) = TxLine.segStart (2 ^ k) lcreg es s n +
      TxLine.segTicks (2 ^ k) lcreg (TxLine.segSent (2 ^ k) lcreg es s n) from rfl, trace_add,
      Nat.zero_add, hline, Rx.fed_append, Rx.words_append, hreceived, hwords,
      TxLine.filterMap_range_succ, List.map_append]
    exact ⟨harmed', rfl⟩

/-- Nothing more is enqueued. -/
theorem enqueued_of_quiet (es : Nat → TxEnv) {t : Nat} (hfin : ∀ j, t ≤ j → (es j).enq = [])
    (d : Nat) : TxLine.enqueued es 0 (t + d) = TxLine.enqueued es 0 t := by
  induction d with
  | zero => rfl
  | succ d ih => rw [← Nat.add_assoc, TxLine.enqueued_succ, ih, hfin _ (by omega), List.append_nil]

/-- What has been sent at a boundary of segments is among what is enqueued in all. -/
theorem sent_le_enqueued (es : Nat → TxEnv) (s : Tx) (hk : 2 ≤ k) {t : Nat}
    (hfin : ∀ j, t ≤ j → (es j).enq = []) (i : Nat) :
    (List.range i).filterMap (TxLine.segSent (2 ^ k) lcreg es s) <+: TxLine.enqueued es 0 t := by
  refine (List.prefix_append _ (TxLine.queueAt (2 ^ k) lcreg es s
    (TxLine.segStart (2 ^ k) lcreg es s i))).trans ?_
  rw [TxLine.segSent_order lcreg es s hk]
  rcases Nat.le_total (TxLine.segStart (2 ^ k) lcreg es s i) t with hle | hge
  · obtain ⟨d, hd⟩ := Nat.exists_eq_add_of_le hle
    rw [hd, TxLine.enqueued_add]
    exact List.prefix_append _ _
  · obtain ⟨d, hd⟩ := Nat.exists_eq_add_of_le hge
    rw [hd, enqueued_of_quiet es hfin]

/-- The loopback round trip: for every line control word and every finite sequence of bytes
enqueued at any ticks, the words received after a reset are the bytes enqueued, masked to the word
length, in order and each once, with both error bits low. -/
theorem received_eq_enqueued (lcreg : BitVec 8) (es : Nat → TxEnv) (s : Tx) (r : Rx) (hk : 3 ≤ k)
    (t : Nat) (hfin : ∀ j, t ≤ j → (es j).enq = []) :
    (∀ n, received (2 ^ k) lcreg es s r n <+: (TxLine.enqueued es 0 t).map (echo lcreg)) ∧
      ∃ m, ∀ n, m ≤ n →
        received (2 ^ k) lcreg es s r n = (TxLine.enqueued es 0 t).map (echo lcreg) := by
  have hpre : ∀ n,
      received (2 ^ k) lcreg es s r n <+: (TxLine.enqueued es 0 t).map (echo lcreg) := by
    intro n
    have hle := TxLine.le_segStart (k := k) lcreg es s n
    refine (received_mono (2 ^ k) lcreg es s r (Nat.le_succ_of_le hle)).trans ?_
    rw [(received_segStart es s r hk n).2]
    exact (sent_le_enqueued es s (by omega) hfin n).map _
  refine ⟨hpre, ?_⟩
  -- the segment by which everything enqueued has been sent
  obtain ⟨i, -, hall⟩ := TxLine.exists_segSent_append lcreg es s (by omega : 2 ≤ k) _ t
    List.prefix_rfl
  refine ⟨TxLine.segStart (2 ^ k) lcreg es s i + 1, fun n hn ↦ ?_⟩
  have hle := TxLine.le_segStart (k := k) lcreg es s t
  obtain ⟨d, hd⟩ := Nat.exists_eq_add_of_le hle
  rw [TxLine.segSent_order lcreg es s (by omega), hd, enqueued_of_quiet es hfin] at hall
  refine (hpre n).eq_of_length_le ?_
  have hreceived := (received_mono (2 ^ k) lcreg es s r hn).length_le
  rw [(received_segStart es s r hk i).2] at hreceived
  exact ((hall.map (echo lcreg)).length_le).trans hreceived

/-- Three bytes with eight ticks a bit, words of five bits, odd parity and one and a half stop
bits. -/
theorem received_eq_enqueued_three :
    ∃ m, ∀ n, m ≤ n →
      received (2 ^ 3) 0x0C#8 (fun t ↦ ⟨if t = 2 then [0xA5#8, 0x3C#8] else
          if t = 300 then [0xFF#8] else [], 0, false⟩)
        ⟨3, 5, .data, .parity, 0xFF⟩ ⟨1, 6, .stop, .data, true, false, true, 0xAA, true⟩ n =
        (TxLine.enqueued (fun t ↦ ⟨if t = 2 then [0xA5#8, 0x3C#8] else
          if t = 300 then [0xFF#8] else [], 0, false⟩) 0 301).map (echo 0x0C#8) :=
  (received_eq_enqueued _ _ _ _ (by decide) 301 fun j hj ↦ by
    show (if j = 2 then _ else if j = 300 then _ else _) = _
    rw [if_neg (by omega), if_neg (by omega)]).2

end Loop

end RtlCores.Uart
