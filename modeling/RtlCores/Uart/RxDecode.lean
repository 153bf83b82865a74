import RtlCores.Uart.RxFrames

/-!
# Sequences of characters

Which sequences of characters the receiver decodes.  A start bit that comes exactly one tick after
a stop bit finds the tick counter at 0 instead of at its last value, so the receiver enters the
start state only with the last tick of that start bit; `Rx.age` bounds how far a word can have
come, and a word that starts so late cannot be presented while its character is on the line.
-/

namespace RtlCores.Uart

open RtlCores.Lib RtlCores.Modules

/-- A character on the line, with any bit in the parity position, and the idle ticks after its
first stop bit.  A second or half stop bit counts as idle ticks. -/
structure RxChar where
  data : BitVec 8
  par : Bool
  gap : Nat

namespace Rx

/-! ## What is presented during a sequence -/

section Windows

variable (ticksNum : Nat) (lcreg : BitVec 8)

/-- The words presented while the line carries `levels`. -/
def words (s : Rx) (levels : List Bool) : List RxOut :=
  shown (Rx.present ticksNum lcreg) (fun rxDin s ↦ s.clock ticksNum lcreg rxDin) s levels

/-- The receiver after the line has carried `levels`. -/
def fed (s : Rx) (levels : List Bool) : Rx :=
  feed (fun rxDin s ↦ s.clock ticksNum lcreg rxDin) s levels

/-- The words presented during each character and during the gap after it. -/
def windows (s : Rx) : List RxChar → List (List RxOut × List RxOut)
  | [] => []
  | c :: cs =>
    (s.words ticksNum lcreg (charLine ticksNum lcreg c.data c.par),
      (s.fed ticksNum lcreg (charLine ticksNum lcreg c.data c.par)).words ticksNum lcreg
        (List.replicate c.gap true)) ::
    windows ((s.fed ticksNum lcreg (charLine ticksNum lcreg c.data c.par)).fed ticksNum lcreg
      (List.replicate c.gap true)) cs

/-- From its idle state and after `lead` idle ticks, the receiver presents one word for each
character, while the character is on the line, and nothing between the characters. -/
def Decodes (s : Rx) (lead : Nat) (cs : List RxChar) : Prop :=
  (s.idled ticksNum).words ticksNum lcreg (List.replicate lead true) = [] ∧
    ((s.idled ticksNum).fed ticksNum lcreg (List.replicate lead true)).windows ticksNum lcreg cs =
      cs.map fun c ↦ ([wordOf lcreg c.data c.par], [])

instance (s : Rx) (lead : Nat) (cs : List RxChar) : Decidable (s.Decodes ticksNum lcreg lead cs) :=
  inferInstanceAs (Decidable (_ ∧ _))

variable {ticksNum} {lcreg} {s : Rx}

theorem fed_append (xs ys : List Bool) :
    s.fed ticksNum lcreg (xs ++ ys) = (s.fed ticksNum lcreg xs).fed ticksNum lcreg ys :=
  feed_append s xs ys

theorem words_append (xs ys : List Bool) :
    s.words ticksNum lcreg (xs ++ ys) =
      s.words ticksNum lcreg xs ++ (s.fed ticksNum lcreg xs).words ticksNum lcreg ys :=
  shown_append s xs ys

theorem words_singleton (v : Bool) :
    s.words ticksNum lcreg [v] = ((s.clock ticksNum lcreg v).present ticksNum lcreg).toList :=
  List.append_nil _

end Windows

/-! ## How far a word can have come -/

variable {k : Nat} {lcreg : BitVec 8} {s : Rx}

/-- The ticks since the start state was entered, if the word in progress was received without
waiting. -/
def age (k : Nat) (lcreg : BitVec 8) (s : Rx) : Nat :=
  match s.rxFsm with
  | .idle => 0
  | .start => s.countTicks + 1
  | .data => 2 ^ k + 2 ^ k * s.countBits.toNat + s.countTicks + 1
  | .parity => 2 ^ k + 2 ^ k * wordLen lcreg + s.countTicks + 1
  | .stop => 2 ^ k + 2 ^ k * wordLen lcreg + (if pen lcreg then 2 ^ k else 0) + s.countTicks + 1

/-- The age at which a word is presented. -/
def doneAge (k : Nat) (lcreg : BitVec 8) : Nat :=
  2 ^ k + 2 ^ k * wordLen lcreg + (if pen lcreg then 2 ^ k else 0) + tickSampleD (2 ^ k) + 1

/-- What every state has: the latch is settled and the tick counter in its range. -/
def Regular (k : Nat) (lcreg : BitVec 8) (s : Rx) : Prop :=
  s.Settled lcreg ∧ s.countTicks < 2 ^ k

theorem countNext_lt (k : Nat) (v : Bool) (s : Rx) : s.countNext (2 ^ k) v < 2 ^ k := by
  have hpos : 0 < 2 ^ k := Nat.two_pow_pos k
  rw [countNext, ctNextval, rxTickBw_two_pow]
  split
  · exact Nat.mod_lt _ hpos
  · omega

theorem Regular.tick (h : Regular k lcreg s) (v : Bool) : Regular k lcreg (tick k lcreg v s) :=
  ⟨h.1.clock _ v, countNext_lt k v s⟩

theorem present_eq_none_of_age (h : age k lcreg s < doneAge k lcreg) :
    s.present (2 ^ k) lcreg = none := by
  rw [present, if_neg]
  rw [rxDone, Bool.and_eq_true, decide_eq_true_eq, decide_eq_true_eq]
  rintro ⟨hstop, htick⟩
  simp only [age, hstop, htick, doneAge] at h
  omega

theorem lastBit_eq (s : Rx) : s.lastBit lcreg = decide (s.countBits.toNat + 1 = wordLen lcreg) := by
  have hbits := countBits_last lcreg s.countBits.isLt
  rw [BitVec.ofNat_toNat, BitVec.setWidth_eq] at hbits
  exact hbits

/-- What a tick does that brings the tick counter to 0: the next state is entered. -/
structure Rise (k : Nat) (lcreg : BitVec 8) (v : Bool) (s : Rx) : Prop where
  fsm : (Rx.tick k lcreg v s).rxFsm = s.fsmCase lcreg v s.rxFsm
  count : (Rx.tick k lcreg v s).countTicks = 0
  bits : (Rx.tick k lcreg v s).countBits = if s.cbIncr then s.cbNext else 0
  last : s.rxFsm ≠ .idle → s.countTicks + 1 = 2 ^ k

theorem Regular.rise (h : Regular k lcreg s) {v : Bool} (hrise : s.firstRise (2 ^ k) v = true) :
    Rise k lcreg v s where
  fsm := (if_pos hrise).trans (h.1 v)
  count := by
    rw [firstRise, Bool.and_eq_true, beq_iff_eq] at hrise
    exact hrise.2
  bits := if_pos hrise
  last := by
    intro hactive
    have hc := h.2
    rw [firstRise, Bool.and_eq_true, beq_iff_eq] at hrise
    have hzero := hrise.2
    rw [countNext, if_pos (initCt_of_ne_idle hactive v), ctNextval,
      initCt_of_ne_idle hactive v, rxTickBw_two_pow, Bool.toNat_true] at hzero
    by_contra hlt
    rw [Nat.mod_eq_of_lt (by omega)] at hzero
    omega

/-- Between two states a word comes one tick further. -/
theorem age_tick_le_of_not_rise {v : Bool} (hrise : s.firstRise (2 ^ k) v = false) :
    age k lcreg (Rx.tick k lcreg v s) ≤ age k lcreg s + 1 := by
  have hfsm : (Rx.tick k lcreg v s).rxFsm = s.rxFsm := if_neg (by simp [hrise])
  have hbits : (Rx.tick k lcreg v s).countBits = s.countBits := if_neg (by simp [hrise])
  have hcount : s.rxFsm ≠ .idle → (Rx.tick k lcreg v s).countTicks ≤ s.countTicks + 1 := by
    intro hne
    have hinit := initCt_of_ne_idle hne v
    show s.countNext (2 ^ k) v ≤ _
    rw [countNext, if_pos hinit, ctNextval, hinit]
    exact Nat.mod_le _ _
  unfold age
  rw [hfsm, hbits]
  cases hcase : s.rxFsm
  case idle => exact Nat.zero_le _
  all_goals
    have := hcount (by rw [hcase]; decide)
    simp only
    omega

/-- A state that waits for a start bit, or has just found one. -/
theorem age_le_one (hfsm : s.rxFsm = .idle ∨ s.rxFsm = .start) (hcount : s.countTicks = 0) :
    age k lcreg s ≤ 1 := by
  rcases hfsm with h | h <;> simp [age, h, hcount]

/-- After the stop bit, and while idle, the line decides whether a word begins. -/
theorem Rise.age_le_one {v : Bool} (h : Rise k lcreg v s)
    (hcase : s.rxFsm = .idle ∨ s.rxFsm = .stop) : age k lcreg (Rx.tick k lcreg v s) ≤ 1 := by
  refine Rx.age_le_one ?_ h.count
  rw [h.fsm]
  rcases hcase with hcase | hcase
  all_goals
    rw [fsmCase, hcase]
    cases v
    · exact .inr rfl
    · exact .inl rfl

theorem Rise.age_le_of_start {v : Bool} (h : Rise k lcreg v s) (hcase : s.rxFsm = .start) :
    age k lcreg (Rx.tick k lcreg v s) ≤ age k lcreg s + 1 := by
  have hend := h.last (by rw [hcase]; decide)
  have hnext : (Rx.tick k lcreg v s).rxFsm = .idle ∨ (Rx.tick k lcreg v s).rxFsm = .data := by
    rw [h.fsm, fsmCase, hcase]
    cases s.votedDin
    · exact .inr rfl
    · exact .inl rfl
  have hbits : (Rx.tick k lcreg v s).countBits = 0 := by
    rw [h.bits, cbIncr, hcase]
    rfl
  rcases hnext with hn | hn <;> simp only [age, hn, hcase, h.count, hbits]
  · exact Nat.zero_le _
  · simp
    omega

/-- The last bit of a word. -/
theorem Rise.age_le_of_lastBit {v : Bool} (h : Rise k lcreg v s) (hcase : s.rxFsm = .data)
    (hlast : s.lastBit lcreg = true) : age k lcreg (Rx.tick k lcreg v s) ≤ age k lcreg s + 1 := by
  have hend := h.last (by rw [hcase]; decide)
  have hlen : s.countBits.toNat + 1 = wordLen lcreg := by
    rw [lastBit_eq, decide_eq_true_eq] at hlast
    exact hlast
  have hmul : 2 ^ k * wordLen lcreg = 2 ^ k * s.countBits.toNat + 2 ^ k := by
    rw [← hlen, Nat.mul_succ]
  have hnext : (Rx.tick k lcreg v s).rxFsm = if pen lcreg then .parity else .stop := by
    rw [h.fsm, fsmCase, hcase, hlast]
    rfl
  cases hpen : pen lcreg with
  | false =>
    rw [hpen] at hnext
    simp only [age, hnext, hcase, h.count, hpen, hmul, if_false, Bool.false_eq_true]
    omega
  | true =>
    rw [hpen] at hnext
    simp only [age, hnext, hcase, h.count, hmul, if_true]
    omega

/-- A bit that is not the last. -/
theorem Rise.age_le_of_not_lastBit {v : Bool} (h : Rise k lcreg v s) (hcase : s.rxFsm = .data)
    (hlast : s.lastBit lcreg = false) : age k lcreg (Rx.tick k lcreg v s) ≤ age k lcreg s + 1 := by
  have hend := h.last (by rw [hcase]; decide)
  have hincr : s.cbIncr = true := decide_eq_true hcase
  have hnext : (Rx.tick k lcreg v s).rxFsm = .data := by
    rw [h.fsm, fsmCase, hcase, hlast]
    rfl
  have hle : (Rx.tick k lcreg v s).countBits.toNat ≤ s.countBits.toNat + 1 := by
    rw [h.bits, hincr, if_pos rfl, cbNext, hincr, BitVec.toNat_add]
    exact Nat.mod_le _ _
  have hmul : 2 ^ k * (Rx.tick k lcreg v s).countBits.toNat ≤
      2 ^ k * s.countBits.toNat + 2 ^ k := by
    rw [← Nat.mul_succ]
    exact Nat.mul_le_mul_left _ hle
  simp only [age, hnext, hcase, h.count]
  omega

theorem Rise.age_le_of_parity {v : Bool} (h : Rise k lcreg v s) (hcase : s.rxFsm = .parity) :
    age k lcreg (Rx.tick k lcreg v s) ≤ age k lcreg s + 1 := by
  have hend := h.last (by rw [hcase]; decide)
  have hnext : (Rx.tick k lcreg v s).rxFsm = .stop := by rw [h.fsm, fsmCase, hcase]
  simp only [age, hnext, hcase, h.count]
  split <;> omega

/-- A word comes at most one tick further in a tick. -/
theorem age_tick_le (h : Regular k lcreg s) (v : Bool) :
    age k lcreg (Rx.tick k lcreg v s) ≤ age k lcreg s + 1 := by
  cases hrise : s.firstRise (2 ^ k) v with
  | false => exact age_tick_le_of_not_rise hrise
  | true =>
    have hr := h.rise hrise
    cases hcase : s.rxFsm with
    | idle => exact (hr.age_le_one (.inl hcase)).trans (Nat.le_add_left _ _)
    | start => exact hr.age_le_of_start hcase
    | data =>
      cases hlast : s.lastBit lcreg with
      | true => exact hr.age_le_of_lastBit hcase hlast
      | false => exact hr.age_le_of_not_lastBit hcase hlast
    | parity => exact hr.age_le_of_parity hcase
    | stop => exact (hr.age_le_one (.inr hcase)).trans (Nat.le_add_left _ _)

/-- A word that cannot be finished in the time left is not presented. -/
theorem words_eq_nil_of_age (h : Regular k lcreg s) (levels : List Bool)
    (hlen : age k lcreg s + levels.length < doneAge k lcreg) :
    s.words (2 ^ k) lcreg levels = [] :=
  shown_eq_nil_of_measure (fun v _ h ↦ h.tick v) (fun v _ h ↦ age_tick_le h v)
    (fun _ _ h ↦ present_eq_none_of_age h) h levels hlen

/-! ## A start bit that is seen late -/

variable (lcreg) in
/-- With the tick counter at 0 in the idle state, a start bit only makes it count. -/
theorem late_feed (hfsm : s.rxFsm = .idle) (hc : s.countTicks = 0) {j : Nat} (hj : j < 2 ^ k) :
    (s.fed (2 ^ k) lcreg (List.replicate j false)).rxFsm = .idle ∧
      (s.fed (2 ^ k) lcreg (List.replicate j false)).countTicks = j ∧
      s.words (2 ^ k) lcreg (List.replicate j false) = [] := by
  induction j with
  | zero => exact ⟨hfsm, hc, rfl⟩
  | succ j ih =>
    obtain ⟨hidle, hcount, hnone⟩ := ih (by omega)
    have hinit : (s.fed (2 ^ k) lcreg (List.replicate j false)).initCt false = true := by
      rw [initCt, hidle]
      rfl
    have hnext := countNext_of_initCt hinit (by rw [hcount]; exact hj)
    have hrise : (s.fed (2 ^ k) lcreg (List.replicate j false)).firstRise (2 ^ k) false =
        false := by
      simp [firstRise, hnext]
    have hstep : s.fed (2 ^ k) lcreg (List.replicate (j + 1) false) =
        Rx.tick k lcreg false (s.fed (2 ^ k) lcreg (List.replicate j false)) := by
      rw [List.replicate_succ', fed_append]
      rfl
    have hidle' : (s.fed (2 ^ k) lcreg (List.replicate (j + 1) false)).rxFsm = .idle := by
      rw [hstep]
      exact (if_neg (by simp [hrise])).trans hidle
    refine ⟨hidle', ?_, ?_⟩
    · rw [hstep]
      exact hnext.trans (by rw [hcount])
    · rw [hstep] at hidle'
      rw [List.replicate_succ', words_append, hnone, words_singleton, present_of_idle hidle']
      rfl

theorem length_charLine (n : Nat) (b : BitVec 8) (par : Bool) :
    (charLine n lcreg b par).length =
      n + n * wordLen lcreg + (if pen lcreg then n else 0) + n := by
  rw [charLine_eq]
  cases pen lcreg <;> simp <;> omega

/-- A character whose start bit is seen late presents nothing while it is on the line. -/
theorem words_late (hfsm : s.rxFsm = .idle) (hc : s.countTicks = 0)
    (b : BitVec 8) (par : Bool) : s.words (2 ^ k) lcreg (charLine (2 ^ k) lcreg b par) = [] := by
  have hpos : 0 < 2 ^ k := Nat.two_pow_pos k
  obtain ⟨hidle, hcount, hnone⟩ := late_feed lcreg hfsm hc (by omega : 2 ^ k - 1 < 2 ^ k)
  -- all but the last tick of the start bit, then the rest of the character
  obtain ⟨rest, hrest⟩ : ∃ rest, charLine (2 ^ k) lcreg b par =
      List.replicate (2 ^ k - 1) false ++ rest := by
    have hstart : List.replicate (2 ^ k) false = List.replicate (2 ^ k - 1) false ++ [false] := by
      rw [← List.replicate_succ', Nat.sub_add_cancel hpos]
    exact ⟨[false] ++ _, by rw [charLine_eq, hstart, List.append_assoc]⟩
  have hlen := congrArg List.length hrest
  rw [length_charLine, List.length_append, List.length_replicate] at hlen
  rw [hrest, words_append, hnone, List.nil_append]
  refine words_eq_nil_of_age ⟨settled_of_idle hidle, ?_⟩ rest ?_
  · rw [hcount]
    omega
  · have hage : age k lcreg (s.fed (2 ^ k) lcreg (List.replicate (2 ^ k - 1) false)) = 0 := by
      rw [age, hidle]
    rw [hage, doneAge, tickSampleD, tickSampleC]
    have hdelta : 0 < tickDelta (2 ^ k) := by
      unfold tickDelta
      split <;> decide
    omega

/-! ## Which sequences are decoded -/

/-- A receiver that waits decodes the sequences without a gap of one tick before a further
character. -/
theorem Armed.windows_eq_iff (hk : 3 ≤ k) (h : Armed k lcreg s) (cs : List RxChar) :
    s.windows (2 ^ k) lcreg cs = cs.map (fun c ↦ ([wordOf lcreg c.data c.par], [])) ↔
      ∀ c ∈ cs.dropLast, c.gap ≠ 1 := by
  induction cs generalizing s with
  | nil => simp [windows]
  | cons c cs ih =>
    obtain ⟨harmed, hfsm, hword⟩ := h.feed_charLine hk c.data c.par
    obtain ⟨hnone, hgap⟩ := harmed.feed_gap hk c.gap
    have hhead : s.windows (2 ^ k) lcreg (c :: cs) = ([wordOf lcreg c.data c.par], []) ::
        ((s.fed (2 ^ k) lcreg (charLine (2 ^ k) lcreg c.data c.par)).fed (2 ^ k) lcreg
          (List.replicate c.gap true)).windows (2 ^ k) lcreg cs :=
      congrArg₂ (fun x y ↦ (x, y) :: _) hword hnone
    rw [hhead, List.map_cons, List.cons_inj_right]
    by_cases hone : c.gap = 1
    · cases cs with
      | nil => simp [windows]
      | cons c' cs =>
        -- the next start bit is seen late
        obtain ⟨hidle, hcount⟩ := harmed.tick_stop hk hfsm
        have hlate : (Rx.tick k lcreg true (s.fed (2 ^ k) lcreg
            (charLine (2 ^ k) lcreg c.data c.par))).words (2 ^ k) lcreg
            (charLine (2 ^ k) lcreg c'.data c'.par) = [] :=
          words_late hidle hcount c'.data c'.par
        rw [hone]
        constructor
        · intro hwindows
          have hfirst := congrArg Prod.fst (List.cons.inj hwindows).1
          exact absurd (hlate.symm.trans hfirst) (List.cons_ne_nil _ _).symm
        · intro hall
          exact absurd hone (hall c (List.mem_cons_self ..))
    · refine (ih (hgap hone)).trans ?_
      cases cs with
      | nil => simp
      | cons c' cs => simp [hone]

/-- `uart_rx` with sixteen ticks a bit, from its idle state: it presents exactly one word for each
character, the right one and while the character is on the line, if and only if no gap between two
characters is one tick long. -/
theorem decodes_iff (lcreg : BitVec 8) (s : Rx) (lead : Nat) (cs : List RxChar) :
    s.Decodes 16 lcreg lead cs ↔ ∀ c ∈ cs.dropLast, c.gap ≠ 1 := by
  have harmed : Armed 4 lcreg (s.idled (2 ^ 4)) := ⟨rfl, .inl rfl, settled_of_idle rfl⟩
  obtain ⟨hlead, hnone⟩ := harmed.feed_idle rfl lead
  constructor
  · rintro ⟨-, hwindows⟩
    exact (hlead.windows_eq_iff (by decide) cs).mp hwindows
  · intro hgaps
    exact ⟨hnone, (hlead.windows_eq_iff (by decide) cs).mpr hgaps⟩

/-- Two characters one idle tick apart, eight data bits and no parity: the second is lost. -/
theorem decodes_not_gap_one :
    ¬(Rx.mk 0 0 .idle .idle true true true 0 false).Decodes 16 0x03#8 0
      [⟨0x5A#8, false, 1⟩, ⟨0x5A#8, false, 0⟩] := by
  decide +kernel

end Rx

end RtlCores.Uart
