import RtlCores.Uart.TopPeriod

/-!
# The data ready flag

In FIFO mode the flag copies the state of the receive FIFO at every negedge.  In non-FIFO mode it
is set and cleared by events, and it stays right as long as the events are those it was made for:
`Top.FlagRight` is what holds then between the periods, and `Top.Tracked` is what a period must
keep to.
-/

namespace RtlCores.Uart.Top

open RtlCores.Lib RtlCores.Modules

/-- After the negedge of the period, unless the receive FIFO is being read or written, the flag
tells whether the FIFO holds a character. -/
def TruthfulAt (i : TopIn) (s : Top) : Prop :=
  s.rbrRd i = false → (s.mid i).uart.rxPush ((s.mid i).uartIn i) = false →
    ((s.mid i).lsr.dr = true ↔ (s.mid i).rxContents ≠ [])

/-- In non-FIFO mode, between two periods: the flag is about to be set and the FIFO holds a
character, or the flag is right. -/
def FlagRight (s : Top) : Prop :=
  s.fifoEn = false →
    if s.rxDone then s.rxContents ≠ [] else (s.lsr.dr = true ↔ s.rxContents ≠ [])

/-- The mode after a period. -/
def fifoEnNext (i : TopIn) (s : Top) : Bool := (s.fcrNext i).getLsbD 0

/-- What a period that ends in non-FIFO mode must keep to. -/
structure Tracked (i : TopIn) (s : Top) : Prop where
  /-- While the receive FIFO is cleared no character arrives, and the FIFO is empty or, in non-FIFO
  mode, being read. -/
  clear : s.fifoEnNext i = false → s.fcr.getLsbD 1 = true →
    (s.mid i).rxReady = false ∧ (s.rxContents = [] ∨ s.fifoEn = false ∧ s.rbrRd i = true)
  /-- A read of the receive FIFO in non-FIFO mode empties it and no character is dropped in the
  same clock; or there is more than one character and one is dropped. -/
  read : s.fifoEnNext i = false → s.fcr.getLsbD 1 = false → s.fifoEn = false →
    s.rbrRd i = true → s.rxContents ≠ [] →
      ((s.mid i).rxReady = true ↔ 2 ≤ s.rxContents.length)

variable {i : TopIn} {s : Top}

/-! ## One period -/

@[simp] theorem mid_rxContents (i : TopIn) (s : Top) : (s.mid i).rxContents = s.rxContents := by
  rw [rxContents, mid_rxFifo]
  rfl

/-- The flag after a negedge. -/
theorem mid_dr (hres : i.res = false) :
    (s.mid i).lsr.dr =
      if s.fifoEn then !s.rxContents.isEmpty
      else if s.rbrRd i then false else if s.rxDone then true else s.lsr.dr := by
  show (if s.fifoEn then !(s.settle i).uart.rxFifo.empty
    else if i.res || s.rbrRd i then false else if s.rxDone then true else s.lsr.dr) = _
  rw [settle_rxFifo, Fifo.empty_eq, hres, Bool.false_or]
  rfl

theorem FlagRight.truthfulAt (h : s.FlagRight) (hres : i.res = false) : s.TruthfulAt i := by
  intro hread _
  rw [mid_dr hres, mid_rxContents, hread, if_neg Bool.false_ne_true]
  cases hen : s.fifoEn with
  | true => cases s.rxContents <;> simp
  | false =>
    have hright := h hen
    cases hdone : s.rxDone with
    | true =>
      rw [hdone] at hright
      exact ⟨fun _ ↦ hright, fun _ ↦ rfl⟩
    | false =>
      rw [hdone] at hright
      exact hright

/-- A read does not change the mode. -/
theorem fifoEnNext_of_rbrRd (hres : i.res = false) (hread : s.rbrRd i = true) :
    s.fifoEnNext i = s.fifoEn := by
  have haddr : i.addr ≠ regFcr := by
    rw [rbrRd, Bool.and_eq_true, beq_iff_eq] at hread
    rw [hread.2]
    decide
  rw [fifoEnNext, fcrNext, hres, if_neg Bool.false_ne_true, if_neg haddr, fifoEn]
  cases wen i <;> simp

/-- The flag after a negedge, with the flag right before it. -/
theorem FlagRight.mid_dr_iff (h : s.FlagRight) (hres : i.res = false) :
    (s.mid i).lsr.dr = true ↔ s.rxContents ≠ [] ∧ ¬(s.fifoEn = false ∧ s.rbrRd i = true) := by
  rw [mid_dr hres]
  cases hen : s.fifoEn with
  | true => cases s.rxContents <;> simp
  | false =>
    have hright := h hen
    cases hread : s.rbrRd i with
    | true => simp
    | false =>
      cases hdone : s.rxDone with
      | true =>
        rw [hdone] at hright
        simpa using hright
      | false =>
        rw [hdone] at hright
        simpa using hright

/-- A FIFO that counts as full holds a character. -/
theorem rxContents_ne_nil_of_rxFull (hf : s.uart.rxFifo.WellFormed)
    (hfull : (s.mid i).rxFull i = true) : s.rxContents ≠ [] := by
  cases hen : s.fifoEn with
  | false =>
    rw [rxFull_of_not_fifoEn hen] at hfull
    intro hnil
    simp [hnil] at hfull
  | true =>
    rw [rxFull, UartUut.rxFull, mid_rxFifo, hf.full_eq,
      show UartUut.fifoEn ((s.mid i).uartIn i) = true from hen] at hfull
    have hcount : s.uart.rxFifo.count.toNat = 2 ^ 4 := by simpa using hfull
    intro hnil
    have hlen := Fifo.length_contents (f := s.uart.rxFifo)
    rw [show s.uart.rxFifo.contents = [] from hnil, hcount] at hlen
    exact absurd hlen (by decide)

/-- A period without a clear that ends in non-FIFO mode, the FIFO not being read. -/
theorem FlagRight.period_of_not_read (h : s.FlagRight) (hf : s.uart.rxFifo.WellFormed)
    (hres : i.res = false) (hclr : s.fcr.getLsbD 1 = false) (hread : s.rbrRd i = false) :
    (s.period i).FlagRight := by
  intro _
  have hdr := h.mid_dr_iff (i := i) hres
  rw [hread] at hdr
  rw [period_rxDone, period_lsr, rxContents_period hf hres hclr, hread, if_neg Bool.false_ne_true]
  cases hready : (s.mid i).rxReady with
  | false => simpa using hdr
  | true =>
    rw [if_pos rfl, Bool.true_and]
    cases hfull : (s.mid i).rxFull i with
    | false => simp
    | true => simpa using rxContents_ne_nil_of_rxFull hf hfull

/-- A period in non-FIFO mode without a clear, the FIFO being read. -/
theorem flagRight_period_of_read (hf : s.uart.rxFifo.WellFormed)
    (hres : i.res = false) (hclr : s.fcr.getLsbD 1 = false) (hen : s.fifoEn = false)
    (hread : s.rbrRd i = true) :
    (s.period i).FlagRight ↔
      (s.rxContents ≠ [] → ((s.mid i).rxReady = true ↔ 2 ≤ s.rxContents.length)) := by
  have hen' : (s.period i).fifoEn = false := (fifoEnNext_of_rbrRd hres hread).trans hen
  have hdr : (s.mid i).lsr.dr = false := by
    rw [mid_dr hres, hen, hread]
    rfl
  rw [FlagRight, period_rxDone, period_lsr, rxContents_period hf hres hclr, hread, if_pos rfl,
    rxFull_of_not_fifoEn hen, hdr]
  simp only [hen', forall_const]
  -- the FIFO is empty, is emptied, or keeps characters
  rcases hq : s.rxContents with _ | ⟨x, _ | ⟨y, q⟩⟩ <;> cases (s.mid i).rxReady <;> simp

/-- A period with a clear that ends in non-FIFO mode. -/
theorem FlagRight.period_clear_iff (h : s.FlagRight) (hres : i.res = false)
    (hen' : s.fifoEnNext i = false) (hclr : s.fcr.getLsbD 1 = true) :
    (s.period i).FlagRight ↔ (s.mid i).rxReady = false ∧
      (s.rxContents = [] ∨ s.fifoEn = false ∧ s.rbrRd i = true) := by
  have hnil := rxContents_period_clear (i := i) (.inr hclr)
  have hdr := h.mid_dr_iff (i := i) hres
  rw [FlagRight, show (s.period i).fifoEn = false from hen', hnil, period_rxDone, period_lsr]
  cases (s.mid i).rxReady with
  | true => simp
  | false =>
    simp only [forall_const, Bool.false_eq_true, if_false, ne_eq, not_true, iff_false, true_and]
    rw [hdr]
    tauto

/-- The flag stays right in exactly the periods that keep to `Tracked`. -/
theorem FlagRight.period_iff (h : s.FlagRight) (hf : s.uart.rxFifo.WellFormed)
    (hres : i.res = false) : (s.period i).FlagRight ↔ s.Tracked i := by
  cases hen' : s.fifoEnNext i with
  | true =>
    constructor
    · intro _
      constructor
      all_goals exact fun hf ↦ absurd hf (by simp [hen'])
    · intro _ hf
      exact absurd (hf.symm.trans hen') (by decide)
  | false =>
    cases hclr : s.fcr.getLsbD 1 with
    | true =>
      rw [h.period_clear_iff hres hen' hclr]
      constructor
      · intro hok
        exact ⟨fun _ _ ↦ hok, fun _ hlow ↦ absurd (hclr.symm.trans hlow) (by decide)⟩
      · intro htracked
        exact htracked.clear hen' hclr
    | false =>
      cases hread : s.rbrRd i with
      | false =>
        constructor
        · intro _
          exact ⟨fun _ hhigh ↦ absurd (hclr.symm.trans hhigh) (by decide),
            fun _ _ _ hr ↦ absurd (hread.symm.trans hr) (by decide)⟩
        · intro _
          exact h.period_of_not_read hf hres hclr hread
      | true =>
        have hen : s.fifoEn = false := (fifoEnNext_of_rbrRd hres hread).symm.trans hen'
        rw [flagRight_period_of_read hf hres hclr hen hread]
        constructor
        · intro hok
          exact ⟨fun _ hhigh ↦ absurd (hclr.symm.trans hhigh) (by decide), fun _ _ _ _ ↦ hok⟩
        · intro htracked
          exact htracked.read hen' hclr hen hread

/-! ## Runs -/

/-- A machine held in reset presents nothing. -/
theorem rxReady_of_res (hres : i.res = true) : (s.mid i).rxReady = false := by
  have hrx : (s.mid i).uart.rx.rxFsm = .idle := by
    show (((s.uart.follow true _).async _).follow true _).rx.rxFsm = .idle
    simp [UartUut.follow, UartUut.async, uartIn, hres, Rx.reset, Rx.idled]
  rw [rxReady, UartUut.rxReady, UartUut.rxDone, Rx.rxDone, hrx]
  rfl

theorem AfterReset.flagRight (h : AfterReset s) : s.FlagRight := by
  obtain ⟨s₀, i, j, hi, hj, rfl⟩ := h
  intro _
  have hdr : ((s₀.period i).mid j).lsr.dr = false := by
    have hen : (s₀.period i).fifoEn = false := by
      rw [fifoEn, period_fcr, fcrNext, hi, if_pos rfl]
      rfl
    show (if (s₀.period i).fifoEn then _ else if j.res || _ then false else _) = false
    rw [hen, hj]
    rfl
  rw [period_rxDone, period_lsr, rxReady_of_res hj, rxContents_period_clear (.inl hj), hdr]
  simp

/-- In every run from a reset whose periods keep to `Tracked`, the flag is truthful after every
negedge, in FIFO mode and in non-FIFO mode. -/
theorem truthful_of_tracked (is : Nat → TopIn) (s : Top) (hs : AfterReset s)
    (hres : ∀ n, (is n).res = false)
    (htracked : ∀ n, (run (fun i s ↦ s.period i) is s n).Tracked (is n)) (n : Nat) :
    (run (fun i s ↦ s.period i) is s n).TruthfulAt (is n) := by
  have hfifo : ∀ n, FifosWellFormed (run (fun i s ↦ s.period i) is s n) :=
    fun n ↦ Reached.fifosWellFormed ⟨s, is, n, hs, rfl⟩
  have hright : ∀ n, (run (fun i s ↦ s.period i) is s n).FlagRight := by
    intro n
    induction n with
    | zero => exact hs.flagRight
    | succ n ih => exact (ih.period_iff (hfifo n).rx (hres n)).mpr (htracked n)
  exact (hright n).truthfulAt (hres n)

/-- Divisor 1, words of five bits, non-FIFO mode; a character arrives and is read. -/
def readRun (n : Nat) : TopIn :=
  ([writePorts true regLcr 0x80, writePorts true regDll 1, writePorts true regDlm 0,
    writePorts true regLcr 0] ++ List.replicate 16 (idlePorts false) ++
    List.replicate 96 (idlePorts true) ++ [readPorts true regRbr]).getD n (idlePorts true)

/-- RBR is read once. -/
theorem readRun_rd {n : Nat} (hn : n ≠ 116) : (readRun n).rd = false := by
  rcases Nat.lt_or_gt_of_ne hn with hlt | hgt
  · have hfirst : ∀ n < 116, (readRun n).rd = false := by decide +kernel
    exact hfirst n hlt
  · have hidle : readRun n = idlePorts true := List.getD_eq_default _ _ hgt
    rw [hidle]
    rfl

theorem tracked_readRun (n : Nat) :
    (run (fun i s ↦ s.period i) readRun poweredUp n).Tracked (readRun n) := by
  have hwr : ∀ n, wen (readRun n) = true → (readRun n).addr = regFcr →
      (readRun n).dataIn.getLsbD 1 = false :=
    forall_getD (P := fun i ↦ wen i = true → i.addr = regFcr → i.dataIn.getLsbD 1 = false)
      (by decide +kernel) (by decide)
  constructor
  case clear =>
    rintro - hclr
    have hlow := @fcr_low_after poweredUp readRun 1 0 (by decide +kernel) n fun k _ _ ↦ hwr k
    rw [Nat.zero_add] at hlow
    exact absurd (hlow.symm.trans hclr) Bool.false_ne_true
  case read =>
    rintro - - - hread -
    obtain rfl : n = 116 := by
      by_contra hn
      rw [rbrRd, ren, readRun_rd hn, Bool.and_false] at hread
      exact absurd hread Bool.false_ne_true
    decide +kernel

/-- The flag is high while the character is held and low once it has been read. -/
theorem truthful_of_tracked_read :
    (((after readRun poweredUp 115).mid (readRun 115)).lsr.dr = true ∧
      ((after readRun poweredUp 115).mid (readRun 115)).rxContents ≠ []) ∧
    ((after readRun poweredUp 117).mid (readRun 117)).lsr.dr = false ∧
      ((after readRun poweredUp 117).mid (readRun 117)).rxContents = [] := by
  have hres : ∀ n, (readRun n).res = false :=
    forall_getD (P := fun i ↦ i.res = false) (by decide +kernel) rfl
  have htruthful := truthful_of_tracked readRun poweredUp afterReset_poweredUp hres tracked_readRun
  have hhigh : ((after readRun poweredUp 115).mid (readRun 115)).lsr.dr = true := by
    decide +kernel
  have hlow : ((after readRun poweredUp 117).mid (readRun 117)).lsr.dr = false := by
    decide +kernel
  refine ⟨⟨hhigh, ?_⟩, hlow, not_not.mp fun hheld ↦ ?_⟩
  · exact (htruthful 115 (by decide +kernel) (by decide +kernel)).mp hhigh
  · have hdr := (htruthful 117 (by decide +kernel) (by decide +kernel)).mpr hheld
    exact absurd (hlow.symm.trans hdr) Bool.false_ne_true

/-- Divisor 1, words of five bits; a character arrives and the FIFOs are cleared in non-FIFO
mode, as `flush_fifo` does. -/
def flushRun (n : Nat) : TopIn :=
  ([writePorts true regLcr 0x80, writePorts true regDll 1, writePorts true regDlm 0,
    writePorts true regLcr 0] ++ List.replicate 16 (idlePorts false) ++
    List.replicate 96 (idlePorts true) ++ [writePorts true regFcr 0x06]).getD n (idlePorts true)

/-- After the FIFOs have been cleared the flag still says that a character is there. -/
theorem not_truthful_flush :
    ¬∀ (is : Nat → TopIn) (s : Top), AfterReset s → (∀ n, (is n).res = false) →
      ∀ n, (run (fun i s ↦ s.period i) is s n).TruthfulAt (is n) := by
  intro h
  have hres : ∀ n, (flushRun n).res = false := forall_getD (P := fun i ↦ i.res = false)
    (by decide +kernel) rfl
  have hrun := h flushRun poweredUp afterReset_poweredUp hres 118
  have hempty : (run (fun i s ↦ s.period i) flushRun poweredUp 118).uart.rxFifo.empty = true := by
    decide +kernel
  have hflag := (hrun (by decide +kernel) (by decide +kernel)).mp (by decide +kernel)
  rw [Fifo.empty_eq, List.isEmpty_iff] at hempty
  rw [mid_rxContents] at hflag
  exact hflag hempty

end RtlCores.Uart.Top
