import RtlCores.Uart.Overrun

/-!
# The error flags of the character to be read

In FIFO mode PE and FE are those of the oldest character in the receive FIFO.  They are loaded in
the clock after a character has arrived and in the clock after one has been read, and cleared in
the clock after an LSR read.  `Top.FlagsDue` is what holds between the periods from the one in
which a character becomes the oldest to the next LSR read: the flags are about to be loaded, or
they are loaded and nothing is about to clear them.
-/

namespace RtlCores.Uart.Top

open RtlCores.Lib RtlCores.Modules

/-- In this period the oldest character is read and leaves another one, or a character arrives in
an empty FIFO: at its end a character becomes the oldest. -/
def NewHead (i : TopIn) (s : Top) : Prop :=
  (s.period i).rxContents ≠ [] ∧ (s.rxContents = [] ∨ s.rbrRd i = true)

/-- After the negedge of the period PE and FE are the error bits of the oldest character. -/
def FlagsOfHead (i : TopIn) (s : Top) : Prop :=
  ∀ c, s.rxContents.head? = some c →
    (s.mid i).lsr.pe = c.getLsbD 8 ∧ (s.mid i).lsr.fe = c.getLsbD 9

/-- The flags will be those of the oldest character after the next negedge, whatever is done. -/
def FlagsDue (s : Top) : Prop :=
  s.rxAvailable = true ∨
    s.postLsrRd = false ∧ s.lsr.pe = s.rdData.getLsbD 8 ∧ s.lsr.fe = s.rdData.getLsbD 9

variable {i : TopIn} {s : Top}

/-! ## One period -/

theorem settle_rxAvailable : (s.settle i).rxAvailable = s.rxAvailable := by
  rw [rxAvailable, settle_rxFifo]
  rfl

theorem settle_rdData : (s.settle i).rdData = s.rdData := by
  rw [rdData, settle_rxFifo, rdData]

theorem mid_pe :
    (s.mid i).lsr.pe = if s.rxAvailable then s.rdData.getLsbD 8
      else if i.res || s.postLsrRd then false else s.lsr.pe := by
  rw [← settle_rxAvailable (i := i), ← settle_rdData (i := i)]
  rfl

theorem mid_fe :
    (s.mid i).lsr.fe = if s.rxAvailable then s.rdData.getLsbD 9
      else if i.res || s.postLsrRd then false else s.lsr.fe := by
  rw [← settle_rxAvailable (i := i), ← settle_rdData (i := i)]
  rfl

/-- The flags after the negedge are those on the output of the FIFO. -/
theorem FlagsDue.mid (h : s.FlagsDue) (hres : i.res = false) :
    (s.mid i).lsr.pe = s.rdData.getLsbD 8 ∧ (s.mid i).lsr.fe = s.rdData.getLsbD 9 := by
  rw [mid_pe, mid_fe]
  rcases h with havailable | ⟨hpost, hpe, hfe⟩
  · rw [if_pos havailable, if_pos havailable]
    exact ⟨rfl, rfl⟩
  · rw [hres, hpost, hpe, hfe]
    cases s.rxAvailable <;> exact ⟨rfl, rfl⟩

/-- The output of a FIFO that is not empty is the oldest character. -/
theorem head?_rxContents (h : s.rxContents ≠ []) : s.rxContents.head? = some s.rdData := by
  refine Fifo.head?_contents ?_
  have hlen := List.length_pos_of_ne_nil h
  rwa [rxContents, Fifo.length_contents] at hlen

theorem FlagsDue.flagsOfHead (h : s.FlagsDue) (hres : i.res = false) : s.FlagsOfHead i := by
  intro c hc
  have hne : s.rxContents ≠ [] := by
    intro hnil
    rw [hnil] at hc
    exact absurd hc (by simp)
  rw [head?_rxContents hne, Option.some.injEq] at hc
  rw [← hc]
  exact h.mid hres

/-- What a period in FIFO mode keeps to: no reset and no clear of the receive FIFO, before and
after it. -/
structure FifoMode (i : TopIn) (s : Top) : Prop where
  res : i.res = false
  fifoEn : s.fifoEn = true
  rxClr : s.fcr.getLsbD 1 = false
  next : (s.period i).fifoEn = true

/-- A character that becomes the oldest has its flags loaded in the next clock. -/
theorem NewHead.flagsDue (h : s.NewHead i) (hf : s.uart.rxFifo.WellFormed)
    (hmode : s.FifoMode i) : (s.period i).FlagsDue := by
  obtain ⟨hne, hcause⟩ := h
  have hempty : (s.period i).uart.rxFifo.empty = false := by
    rw [Fifo.empty_eq, Bool.eq_false_iff, ne_eq, List.isEmpty_iff]
    exact hne
  have havailable : (s.period i).rxAvailable = ((s.mid i).rxReady || s.rbrRd i) := by
    rw [rxAvailable, period_rxDone, hmode.next, hempty, Bool.not_false, Bool.and_true,
      Bool.true_and]
    rfl
  refine .inl (havailable.trans ?_)
  rcases hcause with hnil | hread
  · -- the FIFO was empty, so the character has come from the receiver
    have hcontents := rxContents_period hf hmode.res hmode.rxClr
    rw [hnil, List.tail_nil, ite_self, List.nil_append] at hcontents
    cases hready : (s.mid i).rxReady with
    | true => rfl
    | false =>
      rw [hready, Bool.false_and, if_neg Bool.false_ne_true] at hcontents
      exact absurd hcontents hne
  · rw [hread, Bool.or_true]

/-- A period in which the oldest character stays, without an LSR read, keeps its flags due. -/
theorem FlagsDue.period (h : s.FlagsDue) (hf : s.uart.rxFifo.WellFormed) (hmode : s.FifoMode i)
    (hne : s.rxContents ≠ []) (hread : s.rbrRd i = false) (hlsr : lsrRd i = false) :
    (s.period i).FlagsDue := by
  obtain ⟨hpe, hfe⟩ := h.mid hmode.res
  have hcontents := rxContents_period hf hmode.res hmode.rxClr
  rw [hread, if_neg Bool.false_ne_true] at hcontents
  have hhead : (s.period i).rdData = s.rdData := by
    have hne' : (s.period i).rxContents ≠ [] := by
      rw [hcontents]
      exact List.append_ne_nil_of_left_ne_nil hne _
    have hsame := head?_rxContents hne'
    rw [hcontents, List.head?_append_of_ne_nil _ hne, head?_rxContents hne, Option.some.injEq]
      at hsame
    exact hsame.symm
  refine .inr ⟨?_, ?_, ?_⟩
  · rw [period_postLsrRd, hlsr]
  · rw [period_lsr, hpe, hhead]
  · rw [period_lsr, hfe, hhead]

/-! ## Runs -/

/-- As long as no LSR read has been completed since a character became the oldest, its flags are
due; an empty FIFO has no oldest character. -/
theorem flagsDue_after {is : Nat → TopIn} (hs : Reached s)
    (hmode : ∀ k, (after is s k).FifoMode (is k)) {m : Nat}
    (hhead : (after is s m).NewHead (is m)) (d : Nat)
    (hsince : ∀ k, m < k → k < m + 1 + d →
      ¬(after is s k).NewHead (is k) ∧ lsrRd (is k) = false)
    (hne : (after is s (m + 1 + d)).rxContents ≠ []) : (after is s (m + 1 + d)).FlagsDue := by
  have hfifo : ∀ k, (after is s k).uart.rxFifo.WellFormed := by
    intro k
    have hreached : Reached (after is s k) := Reachable.run hs is k
    exact hreached.fifosWellFormed.rx
  induction d with
  | zero => exact hhead.flagsDue (hfifo m) (hmode m)
  | succ d ih =>
    obtain ⟨hsame, hlsr⟩ := hsince (m + 1 + d) (by omega) (by omega)
    -- the character was the oldest before this period already, and is not read in it
    have hkept : ¬((after is s (m + 1 + d)).rxContents = [] ∨
        (after is s (m + 1 + d)).rbrRd (is (m + 1 + d)) = true) := fun hcause ↦ hsame ⟨hne, hcause⟩
    rw [not_or, Bool.not_eq_true] at hkept
    obtain ⟨hbefore, hread⟩ := hkept
    have hdue := ih (fun k hk hlt ↦ hsince k hk (by omega)) hbefore
    exact hdue.period (hfifo _) (hmode _) hbefore hread hlsr

/-- In every run in FIFO mode, with any reads and arrivals: from the negedge after a character has
become the oldest in the receive FIFO, and until an LSR read has been completed, PE and FE are the
error bits that were stored with it. -/
theorem flagsOfHead_after (is : Nat → TopIn) (s : Top) (hs : Reached s)
    (hmode : ∀ k, (after is s k).FifoMode (is k)) (m n : Nat) (hmn : m < n)
    (hhead : (after is s m).NewHead (is m))
    (hsince : ∀ k, m < k → k < n → ¬(after is s k).NewHead (is k) ∧ lsrRd (is k) = false) :
    (after is s n).FlagsOfHead (is n) := by
  obtain ⟨d, rfl⟩ : ∃ d, n = m + 1 + d := ⟨n - m - 1, by omega⟩
  intro c hc
  have hne : (after is s (m + 1 + d)).rxContents ≠ [] := by
    intro hnil
    rw [hnil] at hc
    exact absurd hc (by simp)
  exact (flagsDue_after hs hmode hhead d hsince hne).flagsOfHead (hmode _).res c hc

/-- Divisor 1, words of five bits with odd parity, FIFO mode. -/
def paritySetup (n : Nat) : TopIn :=
  [writePorts true regLcr 0x80, writePorts true regDll 1, writePorts true regDlm 0,
    writePorts true regLcr 0x08, writePorts true regFcr 0x01].getD n (idlePorts true)

/-- A start bit, then ones: a character with a wrong parity bit. -/
def parityRun (n : Nat) : TopIn := idlePorts (16 ≤ n)

theorem fifoMode_parityRun (k : Nat) :
    (after parityRun (after paritySetup poweredUp 5) k).FifoMode (parityRun k) := by
  have hfcr : ∀ k, (after parityRun (after paritySetup poweredUp 5) k).fcr = 1 := by
    intro k
    induction k with
    | zero => decide +kernel
    | succ k ih =>
      rw [after, run_succ, period_fcr, fcrNext, ih]
      rfl
  have hnext := hfcr (k + 1)
  constructor
  case res => rfl
  case fifoEn => rw [fifoEn, hfcr]; rfl
  case rxClr => rw [hfcr]; rfl
  case next =>
    rw [after, run_succ] at hnext
    rw [fifoEn, hnext]
    rfl

/-- The character arrives in the empty FIFO and its parity error is flagged. -/
theorem flagsOfHead_after_parity :
    ((after parityRun (after paritySetup poweredUp 5) 125).mid (idlePorts true)).lsr.pe = true := by
  have hflags := flagsOfHead_after parityRun (after paritySetup poweredUp 5)
    ⟨poweredUp, paritySetup, 5, afterReset_poweredUp, rfl⟩ fifoMode_parityRun 124 125 (by decide)
    ⟨by decide +kernel, .inl (by decide +kernel)⟩ fun k hk hlt ↦ absurd hk (by omega)
  exact (hflags 0x11F#10 (by decide +kernel)).1

end RtlCores.Uart.Top
