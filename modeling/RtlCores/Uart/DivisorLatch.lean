import RtlCores.Uart.Driver

/-!
# Loading the divisor

The accesses of `set_baud_rate` load the divisor and LCR, and neither read RBR nor write THR or
FCR.  What else they change: the write to DLM goes to IER as well.  The FIFOs change only as they do
by themselves, by arrivals, by what the transmitter takes and by a clear that is under way.
-/

namespace RtlCores.Uart

open RtlCores.Lib RtlCores.Modules

/-! ## Periods without an access to the FIFOs -/

namespace Top

variable (i : TopIn) (s : Top)

/-- The characters in the transmit FIFO, oldest first. -/
def txContents : List (BitVec 8) := s.uart.txFifo.contents

/-- The character that the transmitter takes out of its FIFO in a period. -/
def taken : Option (BitVec 8) := Fifo.pulled (s.txReq i) s.uart.txFifo

/-- A period in which the ports neither read RBR nor write THR or FCR. -/
structure Aside : Prop where
  res : i.res = false
  rbrRd : s.rbrRd i = false
  thrWr : s.thrWr i = false
  fcr : wen i = true → i.addr ≠ regFcr

variable {i s}

theorem aside_idlePorts (sin : Bool) (s : Top) : s.Aside (idlePorts sin) where
  res := rfl
  rbrRd := rfl
  thrWr := rfl
  fcr h := absurd h Bool.false_ne_true

theorem aside_writePorts (sin : Bool) {addr : BitVec 3} (data : BitVec 8) (hfcr : addr ≠ regFcr)
    (hthr : addr = regThr → s.dlab = true) : s.Aside (writePorts sin addr data) where
  res := rfl
  rbrRd := rfl
  thrWr := by
    show (true && !s.dlab && addr == 0) = false
    by_cases haddr : addr = regThr
    · rw [hthr haddr]
      rfl
    · rw [beq_false_of_ne (show addr ≠ 0 from haddr), Bool.and_false]
  fcr _ := hfcr

theorem Aside.fcr_period (h : s.Aside i) :
    (s.period i).fcr = if wen i then s.fcr else s.fcr &&& 0xF9 := by
  rw [period_fcr, fcrNext, h.res, if_neg Bool.false_ne_true]
  cases hwen : wen i with
  | false => rfl
  | true => rw [if_pos rfl, if_pos rfl, if_neg (h.fcr hwen)]

theorem Aside.rxContents_period (h : s.Aside i) (hf : s.uart.rxFifo.WellFormed)
    (hclr : s.fcr.getLsbD 1 = false) :
    (s.period i).rxContents = s.rxContents ++ (s.pushed i).toList := by
  have hnone : s.returned i = none := by
    rw [returned, h.rbrRd]
    rfl
  rw [rxContents_conserve hf h.res hclr, hnone]
  rfl

theorem Aside.txContents_period (h : s.Aside i) (hf : s.uart.txFifo.WellFormed)
    (hclr : s.fcr.getLsbD 2 = false) :
    s.txContents = (s.taken i).toList ++ (s.period i).txContents := by
  have hlow : (s.txReq i).res = false := by
    show (i.res || s.fcr.getLsbD 2) = false
    rw [h.res, hclr]
    rfl
  have hpush : (s.txReq i).push = false := by
    show (s.thrWr i && _) = false
    rw [h.thrWr]
    rfl
  have hnone : Fifo.pushed (s.txReq i) s.uart.txFifo = none := by
    rw [Fifo.pushed, Fifo.wen, hpush]
    rfl
  have hconserve := hf.conserve _ hlow
  rw [hnone, Option.toList_none, List.append_nil] at hconserve
  rw [txContents, txContents, period_txFifo]
  exact hconserve

theorem txContents_period_clear (h : s.fcr.getLsbD 2 = true) : (s.period i).txContents = [] := by
  rw [txContents, period_txFifo]
  refine Fifo.contents_clock_of_res _ ?_
  show (i.res || s.fcr.getLsbD 2) = true
  rw [h, Bool.or_true]

end Top

/-! ## Runs of such periods -/

namespace Bus

/-- The bus has not been idle. -/
def busy (b : Bus) : Bool := b.past.all fun p ↦ Top.wen p.1

/-- The characters that arrived in the periods of a run, oldest first. -/
def arrived : List (TopIn × Top) → List (BitVec 10)
  | [] => []
  | p :: past => arrived past ++ (p.2.pushed p.1).toList

/-- The characters that the transmitter took in the periods of a run, oldest first. -/
def taken : List (TopIn × Top) → List (BitVec 8)
  | [] => []
  | p :: past => taken past ++ (p.2.taken p.1).toList

/-- What holds after periods from the state `s` on that all are `Aside`. -/
structure Kept (s : Top) (b : Bus) : Prop where
  fifos : Top.FifosWellFormed b.top
  fcr : b.top.fcr = if b.busy then s.fcr else s.fcr &&& 0xF9
  rx : s.fcr.getLsbD 1 = false → b.top.rxContents = s.rxContents ++ arrived b.past
  rxClear : s.fcr.getLsbD 1 = true → b.busy = true → b.past ≠ [] → b.top.rxContents = []
  tx : s.fcr.getLsbD 2 = false → s.txContents = taken b.past ++ b.top.txContents
  txClear : s.fcr.getLsbD 2 = true → b.busy = true → b.past ≠ [] → b.top.txContents = []

variable {t : Timing} {s : Top} {b : Bus}

theorem kept_start (hs : Top.Reached s) : Kept s (start s) where
  fifos := hs.fifosWellFormed
  fcr := rfl
  rx _ := (List.append_nil _).symm
  rxClear _ _ h := absurd rfl h
  tx _ := rfl
  txClear _ _ h := absurd rfl h

/-- The clear bits of FCR that are low stay low. -/
theorem Kept.getLsbD_fcr (h : Kept s b) {k : Nat} (hk : s.fcr.getLsbD k = false) :
    b.top.fcr.getLsbD k = false := by
  rw [h.fcr]
  split
  · exact hk
  · rw [BitVec.getLsbD_and, hk, Bool.false_and]

theorem Kept.period (h : Kept s b) (ports : Bool → TopIn) (hi : b.top.Aside (b.next t ports)) :
    Kept s (b.period t ports) := by
  have hbusy : (b.period t ports).busy = (Top.wen (b.next t ports) && b.busy) := rfl
  -- as long as the bus has not been idle FCR is as it was
  have hsame : (b.period t ports).busy = true → b.top.fcr = s.fcr := by
    intro hall
    rw [hbusy, Bool.and_eq_true] at hall
    rw [h.fcr, hall.2, if_pos rfl]
  constructor
  case fifos => exact h.fifos.period _
  case fcr =>
    rw [hbusy]
    refine hi.fcr_period.trans ?_
    rw [h.fcr]
    cases Top.wen (b.next t ports) with
    | true => rfl
    | false =>
      cases b.busy with
      | true => rfl
      | false =>
        show s.fcr &&& 0xF9 &&& 0xF9 = s.fcr &&& 0xF9
        rw [BitVec.and_assoc, BitVec.and_self]
  case rx =>
    intro hlow
    refine (hi.rxContents_period h.fifos.rx (h.getLsbD_fcr hlow)).trans ?_
    rw [h.rx hlow, List.append_assoc]
    rfl
  case rxClear =>
    intro hhigh hall _
    refine Top.rxContents_period_clear (.inr ?_)
    rw [hsame hall]
    exact hhigh
  case tx =>
    intro hlow
    rw [h.tx hlow, hi.txContents_period h.fifos.tx (h.getLsbD_fcr hlow), ← List.append_assoc]
    rfl
  case txClear =>
    intro hhigh hall _
    refine Top.txContents_period_clear ?_
    rw [hsame hall]
    exact hhigh

theorem Kept.wait (h : Kept s b) (n : Nat) : Kept s (b.wait t n) := by
  induction n with
  | zero => exact h
  | succ n ih => exact ih.period _ (Top.aside_idlePorts _ _)

theorem Kept.access (h : Kept s b) (ports : Bool → TopIn)
    (hi : (b.ready t).top.Aside ((b.ready t).next t ports)) : Kept s (b.access t ports) := by
  have hready : Kept s (b.ready t) := h.wait _
  obtain ⟨hfifos, hfcr, hrx, hrxClear, htx, htxClear⟩ := hready.period ports hi
  exact ⟨hfifos, hfcr, hrx, hrxClear, htx, htxClear⟩

end Bus

variable {t : Timing} {d : BitVec 16} {v : BitVec 8} {s : Top} {b : Bus}

/-- Writes to the divisor latches and to LCR are `Aside`. -/
theorem Bus.Kept.ioWrite (h : Bus.Kept s b) {addr : BitVec 3} (data : BitVec 8)
    (hfcr : addr ≠ regFcr) (hthr : addr = regThr → b.top.settings.dlab = true) :
    Bus.Kept s ((ioWrite t addr data).run b).2 := by
  have hdlab : (b.ready t).top.dlab = b.top.settings.dlab := by
    rw [← Top.dlab_settings, Bus.settings_ready]
  exact h.access _ (Top.aside_writePorts _ data hfcr fun haddr ↦ hdlab.trans (hthr haddr))

/-! ## The sequence -/

/-- The bus after `set_baud_rate`, from the state `s` on. -/
def Bus.rateSet (t : Timing) (d : BitVec 16) (v : BitVec 8) (s : Top) : Bus :=
  ((setBaudRate t d v).run (Bus.start s)).2

theorem Bus.kept_rateSet (hs : Top.Reached s) (d : BitVec 16) (v : BitVec 8) :
    Bus.Kept s (Bus.rateSet t d v s) := by
  rw [Bus.rateSet, setBaudRate_run]
  have hlcr := (Bus.kept_start hs).ioWrite (t := t) 0x80 (show regLcr ≠ regFcr by decide)
    (fun h ↦ absurd h (by decide))
  have hdll := hlcr.ioWrite (t := t) (d.setWidth 8) (show regDll ≠ regFcr by decide) fun _ ↦ by
    rw [settings_ioWrite, Settings.write_lcr, Settings.dlab_withLcr]
  have hdlm := hdll.ioWrite (t := t) ((d >>> 8).setWidth 8) (show regDlm ≠ regFcr by decide)
    (fun h ↦ absurd h (by decide))
  exact hdlm.ioWrite (t := t) v (show regLcr ≠ regFcr by decide) (fun h ↦ absurd h (by decide))

/-- `set_baud_rate` loads the divisor and LCR and touches nothing else, and a `get_divisor` that
follows returns the divisor and leaves LCR alone. -/
structure TouchesNothingElse (t : Timing) (d : BitVec 16) (v : BitVec 8) (s : Top) : Prop where
  divisor : (Bus.rateSet t d v s).top.divisor = d
  lcr : (Bus.rateSet t d v s).top.lcr = v
  ier : (Bus.rateSet t d v s).top.ier = s.ier
  fcr : (Bus.rateSet t d v s).top.fcr = s.fcr
  mcr : (Bus.rateSet t d v s).top.mcr = s.mcr
  rxContents : (Bus.rateSet t d v s).top.rxContents = s.rxContents
  txContents : (Bus.rateSet t d v s).top.txContents = s.txContents
  divisor_read : ((getDivisor t).run (Bus.rateSet t d v s)).1 = d
  lcr_read : ((getDivisor t).run (Bus.rateSet t d v s)).2.top.lcr = v

/-- IER holds what the write to DLM puts there; and in the periods of the sequence no clear bit
expires or empties a FIFO, no character arrives and the transmitter takes none. -/
structure Undisturbed (t : Timing) (d : BitVec 16) (v : BitVec 8) (s : Top) : Prop where
  ier : s.ier = (d >>> 8).setWidth 8 &&& 0x0F
  clear : (Bus.rateSet t d v s).busy = true ∨ s.fcr &&& 0xF9 = s.fcr
  rx : if s.fcr.getLsbD 1 then s.rxContents = [] else Bus.arrived (Bus.rateSet t d v s).past = []
  tx : if s.fcr.getLsbD 2 then s.txContents = [] else Bus.taken (Bus.rateSet t d v s).past = []

theorem Bus.settings_rateSet (t : Timing) (d : BitVec 16) (v : BitVec 8) (s : Top) :
    (Bus.rateSet t d v s).top.settings =
      ⟨v, (d >>> 8).setWidth 8 &&& 0x0F, s.mcr, d.setWidth 8, (d >>> 8).setWidth 8⟩ :=
  settings_setBaudRate t d v (Bus.start s)

theorem Bus.past_rateSet_ne_nil (t : Timing) (d : BitVec 16) (v : BitVec 8) (s : Top) :
    (Bus.rateSet t d v s).past ≠ [] := List.cons_ne_nil _ _

/-- A clear bit that is set survives until the bus is idle. -/
theorem busy_of_clear {busy : Bool} {fcr : BitVec 8} {k : Nat}
    (hclear : busy = true ∨ fcr &&& 0xF9 = fcr) (hmask : BitVec.getLsbD (0xF9 : BitVec 8) k = false)
    (hk : fcr.getLsbD k = true) : busy = true := by
  rcases hclear with hbusy | hfcr
  · exact hbusy
  · rw [← hfcr, BitVec.getLsbD_and, hmask, Bool.and_false] at hk
    exact absurd hk Bool.false_ne_true

namespace Bus

theorem Kept.fcr_eq_iff (h : Kept s b) :
    b.top.fcr = s.fcr ↔ b.busy = true ∨ s.fcr &&& 0xF9 = s.fcr := by
  rw [h.fcr]
  cases b.busy <;> simp

theorem Kept.rxContents_eq_iff (h : Kept s b) (hpast : b.past ≠ [])
    (hclear : b.busy = true ∨ s.fcr &&& 0xF9 = s.fcr) :
    b.top.rxContents = s.rxContents ↔
      if s.fcr.getLsbD 1 then s.rxContents = [] else arrived b.past = [] := by
  cases hbit : s.fcr.getLsbD 1 with
  | true =>
    rw [if_pos rfl, h.rxClear hbit (busy_of_clear hclear (by decide) hbit) hpast]
    exact eq_comm
  | false =>
    rw [if_neg Bool.false_ne_true, h.rx hbit]
    exact List.append_right_eq_self

theorem Kept.txContents_eq_iff (h : Kept s b) (hpast : b.past ≠ [])
    (hclear : b.busy = true ∨ s.fcr &&& 0xF9 = s.fcr) :
    b.top.txContents = s.txContents ↔
      if s.fcr.getLsbD 2 then s.txContents = [] else taken b.past = [] := by
  cases hbit : s.fcr.getLsbD 2 with
  | true =>
    rw [if_pos rfl, h.txClear hbit (busy_of_clear hclear (by decide) hbit) hpast]
    exact eq_comm
  | false =>
    rw [if_neg Bool.false_ne_true, h.tx hbit]
    exact List.self_eq_append_left

end Bus

theorem TouchesNothingElse.undisturbed (h : TouchesNothingElse t d v s) (hs : Top.Reached s) :
    Undisturbed t d v s := by
  have hkept := Bus.kept_rateSet (t := t) hs d v
  have hpast := Bus.past_rateSet_ne_nil t d v s
  have hclear := hkept.fcr_eq_iff.mp h.fcr
  constructor
  case ier => exact h.ier.symm.trans (congrArg Settings.ier (Bus.settings_rateSet t d v s))
  case clear => exact hclear
  case rx => exact (hkept.rxContents_eq_iff hpast hclear).mp h.rxContents
  case tx => exact (hkept.txContents_eq_iff hpast hclear).mp h.txContents

theorem Undisturbed.touchesNothingElse (h : Undisturbed t d v s) (hs : Top.Reached s) :
    TouchesNothingElse t d v s := by
  have hkept := Bus.kept_rateSet (t := t) hs d v
  have hpast := Bus.past_rateSet_ne_nil t d v s
  have hsettings := Bus.settings_rateSet t d v s
  obtain ⟨hread, hkeep⟩ := getDivisor_run t (Bus.rateSet t d v s)
  rw [hsettings] at hkeep
  have hdll : (Bus.rateSet t d v s).top.dll = d.setWidth 8 := congrArg Settings.dll hsettings
  have hdlm : (Bus.rateSet t d v s).top.dlm = (d >>> 8).setWidth 8 :=
    congrArg Settings.dlm hsettings
  constructor
  case divisor => rw [Top.divisor, hdll, hdlm, append_halves]
  case lcr => exact congrArg Settings.lcr hsettings
  case ier => exact (congrArg Settings.ier hsettings).trans h.ier.symm
  case fcr => exact hkept.fcr_eq_iff.mpr h.clear
  case mcr => exact congrArg Settings.mcr hsettings
  case rxContents => exact (hkept.rxContents_eq_iff hpast h.clear).mpr h.rx
  case txContents => exact (hkept.txContents_eq_iff hpast h.clear).mpr h.tx
  case divisor_read => rw [hread, hdll, hdlm, halves_eq]
  case lcr_read => exact congrArg Settings.lcr hkeep

/-- From every state reached, for every divisor and every value for LCR, and however the bus is used
and the line behaves, `set_baud_rate` touches nothing else exactly when it finds in IER what it
will leave there and the FIFOs do not change by themselves meanwhile. -/
theorem touchesNothingElse_iff (t : Timing) (d : BitVec 16) (v : BitVec 8) (s : Top)
    (hs : Top.Reached s) : TouchesNothingElse t d v s ↔ Undisturbed t d v s :=
  ⟨fun h ↦ h.undisturbed hs, fun h ↦ h.touchesNothingElse hs⟩

/-- An idle line, and a clock between two accesses. -/
def slowTiming : Timing := ⟨fun _ ↦ true, fun _ ↦ 1⟩

theorem touchesNothingElse_poweredUp : TouchesNothingElse slowTiming 13 3 Top.poweredUp := by
  refine (touchesNothingElse_iff slowTiming 13 3 Top.poweredUp ?_).mpr ?_
  · exact ⟨Top.poweredUp, fun _ ↦ Top.resetPorts, 0, Top.afterReset_poweredUp, rfl⟩
  · constructor
    case ier => decide +kernel
    case clear => exact .inr (by decide +kernel)
    case rx => decide +kernel
    case tx => decide +kernel

/-- The divisor 256 sets the lowest bit of IER. -/
theorem not_touchesNothingElse :
    ¬∀ (t : Timing) (d : BitVec 16) (v : BitVec 8) (s : Top), Top.Reached s →
      v.getLsbD 7 = false → TouchesNothingElse t d v s := by
  intro h
  have hier := (h slowTiming 0x100 3 Top.poweredUp
    ⟨Top.poweredUp, fun _ ↦ Top.resetPorts, 0, Top.afterReset_poweredUp, rfl⟩ (by decide)).ier
  exact absurd hier (by decide +kernel)

end RtlCores.Uart
