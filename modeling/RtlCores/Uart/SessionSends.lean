import RtlCores.Uart.Sessions

/-!
# What a session sends

The driver writes THR only after it has read in LSR that the transmit FIFO is empty.  So the FIFO
takes every byte that is written, and never holds more than one; in whatever order the calls come,
the bytes leave it in the order in which they were written, to the transmitter or by a flush.
-/

namespace RtlCores.Uart

open RtlCores.Lib RtlCores.Modules
open Std.Do

namespace Top

variable (i : TopIn) (s : Top)

/-- The byte that is written to THR in a period. -/
def offered : List (BitVec 8) := if s.thrWr i then [i.dataIn] else []

/-- The byte that enters the transmit FIFO in a period. -/
def accepted : List (BitVec 8) :=
  if resFifo .tx i s then [] else (Fifo.pushed (s.txReq i) s.uart.txFifo).toList

/-- The bytes that leave the transmit FIFO in a period: the one that the transmitter takes, or all
that are held, when the FIFO is cleared. -/
def left : List (BitVec 8) := if resFifo .tx i s then s.txContents else (s.taken i).toList

variable {i s}

/-- What was held and what enters is what leaves and what is held afterwards. -/
theorem txContents_conserve (hf : s.uart.txFifo.WellFormed) :
    s.txContents ++ s.accepted i = s.left i ++ (s.period i).txContents := by
  rw [accepted, left]
  cases hclr : resFifo .tx i s with
  | true =>
    have hempty : FifoEmpty .tx (s.period i) := fifoEmpty_period hclr
    rw [if_pos rfl, if_pos rfl, show (s.period i).txContents = [] from hempty]
  | false =>
    rw [txContents, txContents, period_txFifo]
    exact hf.conserve (s.txReq i) hclr

theorem accepted_of_not_thrWr (h : s.thrWr i = false) : s.accepted i = [] := by
  have hpush : (s.txReq i).push = false := by
    show (s.thrWr i && _) = false
    rw [h]
    rfl
  rw [accepted, Fifo.pushed, Fifo.wen, hpush]
  split <;> rfl

/-- Without a write to THR the transmit FIFO only loses bytes. -/
theorem txContents_suffix (hf : s.uart.txFifo.WellFormed) (h : s.thrWr i = false) :
    (s.period i).txContents <:+ s.txContents := by
  have hconserve := txContents_conserve (i := i) hf
  rw [accepted_of_not_thrWr h, List.append_nil] at hconserve
  rw [hconserve]
  exact List.suffix_append _ _

/-- A byte that is written while the FIFO is empty and is not being cleared enters. -/
theorem accepted_of_thrWr (hf : s.uart.txFifo.WellFormed) (hwr : s.thrWr i = true)
    (hempty : s.txContents = []) (hlow : resFifo .tx i s = false) :
    s.accepted i = [i.dataIn] := by
  have hnone : s.uart.txFifo.empty = true := by
    rw [Fifo.empty_eq, List.isEmpty_iff]
    exact hempty
  have hfull := hf.full_eq_false_of_empty hnone
  have htxFull : (s.mid i).uart.txFull ((s.mid i).uartIn i) = false := by
    rw [UartUut.txFull, mid_txFifo, hnone, hfull, Bool.and_false, Bool.not_true, Bool.and_false]
    rfl
  have hpush : (s.txReq i).push = true := by
    show (s.thrWr i && !(s.mid i).uart.txFull ((s.mid i).uartIn i)) = true
    rw [hwr, htxFull]
    rfl
  rw [accepted, hlow, if_neg Bool.false_ne_true, Fifo.pushed, Fifo.wen, hpush, hfull]
  rfl

end Top

/-! ## The invariant -/

/-- After the periods `past` the bytes `l` have been written to THR; all have entered the transmit
FIFO, which holds at most one. -/
structure Sends (l : List (BitVec 8)) (past : List (TopIn × Top)) (s : Top) : Prop where
  fifos : Top.FifosWellFormed s
  offered : Bus.log Top.offered past = l
  accepted : Bus.log Top.accepted past = l
  conserve : l = Bus.log Top.left past ++ s.txContents
  length_le : s.txContents.length ≤ 1

/-- The transmit FIFO is empty and is not going to be cleared. -/
def Vacant (s : Top) : Prop := s.txContents = [] ∧ s.fcr.getLsbD 2 = false

/-- A period without a write to THR. -/
def Unsent (i : TopIn) (s : Top) : Prop := i.res = false ∧ s.thrWr i = false

variable {i : TopIn} {s : Top} {l : List (BitVec 8)} {past : List (TopIn × Top)} {t : Timing}

theorem Sends.period_unsent (h : Sends l past s) (hi : Unsent i s) :
    Sends l ((i, s) :: past) (s.period i) where
  fifos := h.fifos.period i
  offered := by
    rw [Bus.log, h.offered, Top.offered, hi.2, if_neg Bool.false_ne_true, List.append_nil]
  accepted := by rw [Bus.log, h.accepted, Top.accepted_of_not_thrWr hi.2, List.append_nil]
  conserve := by
    have hconserve := Top.txContents_conserve (i := i) h.fifos.tx
    rw [Top.accepted_of_not_thrWr hi.2, List.append_nil] at hconserve
    rw [Bus.log, List.append_assoc, ← hconserve]
    exact h.conserve
  length_le := (Top.txContents_suffix h.fifos.tx hi.2).length_le.trans h.length_le

theorem keptBy_sends (l : List (BitVec 8)) : KeptBy Unsent (Sends l) :=
  fun _ _ _ hi h ↦ h.period_unsent hi

theorem unsent_of_aside (i : TopIn) (s : Top) (h : s.Aside i) : Unsent i s := ⟨h.res, h.thrWr⟩

/-- A byte that is written to a FIFO that is vacant. -/
theorem Sends.period_sent (h : Sends l past s) (hv : Vacant s) (hres : i.res = false)
    (hwr : s.thrWr i = true) : Sends (l ++ [i.dataIn]) ((i, s) :: past) (s.period i) := by
  have hlow : Top.resFifo .tx i s = false := (Top.resFifo_eq hres).trans hv.2
  have haccepted := Top.accepted_of_thrWr h.fifos.tx hwr hv.1 hlow
  have hconserve := Top.txContents_conserve (i := i) h.fifos.tx
  rw [haccepted] at hconserve
  constructor
  case fifos => exact h.fifos.period i
  case offered => rw [Bus.log, h.offered, Top.offered, if_pos hwr]
  case accepted => rw [Bus.log, h.accepted, haccepted]
  case conserve =>
    rw [Bus.log, List.append_assoc, ← hconserve, ← List.append_assoc, ← h.conserve]
  case length_le =>
    rw [hv.1, List.nil_append] at hconserve
    have hlen := congrArg List.length hconserve
    rw [List.length_append, List.length_singleton] at hlen
    omega

/-- What is vacant stays so while the FIFO is left aside. -/
theorem Vacant.period (hv : Vacant s) (hf : s.uart.txFifo.WellFormed) (hi : s.Aside i) :
    Vacant (s.period i) := by
  refine ⟨?_, Top.fcr_low_period hv.2 fun hwen haddr ↦ absurd haddr (hi.fcr hwen)⟩
  have hsuffix := Top.txContents_suffix hf hi.thrWr
  rw [hv.1] at hsuffix
  exact List.suffix_nil.mp hsuffix

theorem keptBy_sends_vacant (l : List (BitVec 8)) :
    KeptBy Top.Aside fun past s ↦ Sends l past s ∧ Vacant s :=
  fun i s _ hi h ↦ ⟨h.1.period_unsent (unsent_of_aside i s hi), h.2.period h.1.fifos.tx hi⟩

/-! ## A byte -/

/-- A read of LSR that shows `TF` leaves the FIFO vacant. -/
theorem sends_txFifoEmpty (l : List (BitVec 8)) :
    ⦃fun b => ⌜Between (Sends l) b⌝⦄ txFifoEmpty (Bus.io t)
      ⦃⇓ r b => ⌜Between (Sends l) b ∧ (r ≠ 0 → Vacant b.top)⌝⦄ := by
  rintro b hb
  have hI := (keptBy_sends l).mono unsent_of_aside
  refine ⟨(OnlyAsks.txFifoEmpty t).between hI b hb, fun hr ↦ ?_⟩
  have hempty : (b.ready t).top.txContents = [] := (txFifoEmpty_ne_zero_iff t b).mp hr
  obtain ⟨hsends, -⟩ := hI.ready (t := t) (g := b.top.settings) Top.aside_idlePorts ⟨hb.1, rfl⟩
  have haside := Top.aside_readPorts (s := (b.ready t).top) (t.line (b.ready t).past.length) regLsr
    fun h ↦ absurd h (by decide)
  have hsuffix := Top.txContents_suffix hsends.fifos.tx haside.thrWr
  rw [hempty] at hsuffix
  refine ⟨List.suffix_nil.mp hsuffix, ?_⟩
  refine (congrArg (BitVec.getLsbD · 2) haside.fcr_period).trans ?_
  exact (BitVec.getLsbD_and ..).trans (Bool.and_false _)

/-- The write to THR in `tx_byte`. -/
theorem sends_ioWrite_thr (l : List (BitVec 8)) (data : BitVec 8) :
    ⦃fun b => ⌜Between (Sends l) b ∧ Vacant b.top⌝⦄ ioWrite t regThr data
      ⦃⇓ _ b => ⌜Between (Sends (l ++ [data])) b⌝⦄ := by
  rintro b ⟨⟨hb, hdlab⟩, hv⟩
  obtain ⟨⟨hsends, hvacant⟩, hset⟩ := (keptBy_sends_vacant l).ready (t := t)
    (g := b.top.settings) Top.aside_idlePorts ⟨⟨hb, hv⟩, rfl⟩
  have hwr : (b.ready t).top.thrWr
      (Top.writePorts (t.line (b.ready t).past.length) regThr data) = true := by
    show (true && !(b.ready t).top.dlab && true) = true
    rw [← Top.dlab_settings, hset, hdlab]
    rfl
  refine ⟨hsends.period_sent hvacant rfl hwr, ?_⟩
  show (((ioWrite t regThr data).run b).2.top.settings).dlab = false
  rw [settings_ioWrite]
  exact hdlab

/-- `tx_byte` has the byte sent exactly if it says so. -/
theorem sends_txByte (l : List (BitVec 8)) (data : BitVec 8) {timeout : BitVec 16}
    (htimeout : timeout ≠ 0) (res : BitVec 16) :
    ⦃fun b => ⌜Between (Sends l) b⌝⦄ Polling.txByte (Bus.io t) data timeout res
      ⦃⇓ r b => ⌜Between (Sends (l ++ if r then [data] else [])) b⌝⦄ := by
  have hstatus : ⦃fun b => ⌜Between (Sends l) b⌝⦄ (BitVec.setWidth 16 <$> txFifoEmpty (Bus.io t))
      ⦃⇓ r b => ⌜Between (Sends l) b ∧ ((r == 0) = false → Vacant b.top)⌝⦄ := by
    rintro b hb
    obtain ⟨hsends, hv⟩ := sends_txFifoEmpty (t := t) l b hb
    refine ⟨hsends, fun hr ↦ hv fun hzero ↦ ?_⟩
    have hwide := congrArg (BitVec.setWidth 16) hzero
    exact absurd (hr.symm.trans (beq_iff_eq.mpr hwide)) Bool.false_ne_true
  have hpoll : ⦃fun b => ⌜Between (Sends l) b⌝⦄ Polling.pollTx (Bus.io t) timeout res
      ⦃⇓ r b => ⌜Between (Sends l) b ∧ ((r == 0) = false → Vacant b.top)⌝⦄ := by
    rintro b hb
    exact pollLoop_triple hstatus (fun _ _ _ h ↦ h.1) b ⟨hb, fun h ↦ absurd h htimeout⟩
  refine Triple.bind _ _ hpoll fun r ↦ ?_
  rintro b ⟨hb, hv⟩
  cases hr : r == 0 with
  | true =>
    show Between (Sends (l ++ [])) b
    rw [List.append_nil]
    exact hb
  | false => exact sends_ioWrite_thr l data b ⟨hb, hv hr⟩

/-! ## The calls -/

theorem sends_send (l arr : List (BitVec 8)) :
    ⦃fun b => ⌜Between (Sends l) b⌝⦄ send (Bus.io t) arr
      ⦃⇓ _ b => ⌜∃ l', l'.Sublist arr ∧ Between (Sends (l ++ l')) b⌝⦄ := by
  induction arr generalizing l with
  | nil =>
    rintro b hb
    refine ⟨[], List.nil_sublist _, ?_⟩
    rw [List.append_nil]
    exact hb
  | cons data arr ih =>
    have hbyte := sends_txByte (t := t) l data (show (1000 : BitVec 16) ≠ 0 by decide) 0
    rw [← Polling.txByte_eq] at hbyte
    refine Triple.bind _ _ hbyte fun r ↦ ?_
    rintro b hb
    obtain ⟨l', hl', hsends⟩ := ih _ b hb
    refine ⟨(if r then [data] else []) ++ l', ?_, ?_⟩
    · cases r with
      | true => exact hl'.cons_cons data
      | false => exact hl'.cons data
    · rw [← List.append_assoc]
      exact hsends

/-- A read of any register. -/
theorem sends_ioRead (l : List (BitVec 8)) (addr : BitVec 3) :
    ⦃fun b => ⌜Between (Sends l) b⌝⦄ ioRead t addr ⦃⇓ _ b => ⌜Between (Sends l) b⌝⦄ := by
  rintro b ⟨hb, hdlab⟩
  obtain ⟨hsends, hset⟩ := (keptBy_sends l).ioRead (t := t) (g := b.top.settings)
    (fun _ _ ↦ ⟨rfl, rfl⟩) addr (fun _ _ _ ↦ ⟨rfl, rfl⟩) b ⟨hb, rfl⟩
  refine ⟨hsends, ?_⟩
  rw [hset]
  exact hdlab

/-- A write to FCR. -/
theorem sends_ioWrite_fcr (l : List (BitVec 8)) (v : BitVec 8) :
    ⦃fun b => ⌜Between (Sends l) b⌝⦄ ioWrite t regFcr v ⦃⇓ _ b => ⌜Between (Sends l) b⌝⦄ := by
  rintro b ⟨hb, hdlab⟩
  obtain ⟨hsends, hset⟩ := (keptBy_sends l).ioWrite (t := t) (g := b.top.settings)
    (fun _ _ ↦ ⟨rfl, rfl⟩) regFcr v (fun _ _ _ ↦ ⟨rfl, Bool.and_false _⟩) b ⟨hb, rfl⟩
  refine ⟨hsends, ?_⟩
  rw [hset]
  exact hdlab

theorem sends_recvLoop (l : List (BitVec 8)) (n : Nat) (arr : List (BitVec 8)) :
    ⦃fun b => ⌜Between (Sends l) b⌝⦄ recvLoop (Bus.io t) n arr
      ⦃⇓ _ b => ⌜Between (Sends l) b⌝⦄ := by
  have hI := (keptBy_sends l).mono unsent_of_aside
  induction n generalizing arr with
  | zero => exact fun b hb ↦ hb
  | succ n ih =>
    refine Triple.bind _ _ ((OnlyAsks.pollRx t 1000 0).between hI) fun res ↦ ?_
    cases res == 0 with
    | true => exact fun b hb ↦ hb
    | false =>
      refine Triple.bind _ _ (sends_ioRead l regRbr) fun ch ↦ ?_
      cases hch : ch == 0 with
      | true => exact fun b hb ↦ hb
      | false => exact ih _

theorem sends_recvCh (l : List (BitVec 8)) :
    ⦃fun b => ⌜Between (Sends l) b⌝⦄ recvCh (Bus.io t) ⦃⇓ _ b => ⌜Between (Sends l) b⌝⦄ := by
  have hI := (keptBy_sends l).mono unsent_of_aside
  refine Triple.bind _ _ ((OnlyAsks.rxFifoEmpty t).between hI) fun res ↦ ?_
  cases res == 0 with
  | true => exact sends_ioRead l regRbr
  | false => exact fun b hb ↦ hb

/-! ## Sessions -/

namespace DriverCall

/-- The bytes that a call is asked to send. -/
def asked : DriverCall → List (BitVec 8)
  | txByte data _ _ => [data]
  | sendCh ch => [ch]
  | sendStr str => text str
  | send arr => arr
  | _ => []

/-- `set_baud_rate` is given values that leave DLAB low, and `tx_byte` a timeout that lets it read
the status. -/
def Legal : DriverCall → Prop
  | setBaudRate _ lcr => lcr.getLsbD 7 = false
  | txByte _ timeout _ => timeout ≠ 0
  | _ => True

end DriverCall

/-- What is left of a call's result for the bytes that it has sent. -/
theorem sends_exec (l : List (BitVec 8)) {c : DriverCall} (hc : c.Legal) :
    ⦃fun b => ⌜Between (Sends l) b⌝⦄ c.exec t
      ⦃⇓ _ b => ⌜∃ l', l'.Sublist c.asked ∧ Between (Sends (l ++ l')) b⌝⦄ := by
  have hnone : ∀ {α : Type} {x : StateM Bus α} {asked : List (BitVec 8)},
      ⦃fun b => ⌜Between (Sends l) b⌝⦄ x ⦃⇓ _ b => ⌜Between (Sends l) b⌝⦄ →
        ⦃fun b => ⌜Between (Sends l) b⌝⦄ x
          ⦃⇓ _ b => ⌜∃ l', l'.Sublist asked ∧ Between (Sends (l ++ l')) b⌝⦄ := by
    rintro α x asked hx b hb
    refine ⟨[], List.nil_sublist _, ?_⟩
    rw [List.append_nil]
    exact hx b hb
  have haside : c.LeavesAside → ⦃fun b => ⌜Between (Sends l) b⌝⦄ c.exec t
      ⦃⇓ _ b => ⌜Between (Sends l) b⌝⦄ := fun h b hb ↦
    (((keptBy_sends l).mono unsent_of_aside).exec_aside t h b hb).2
  cases c with
  | setBaudRate d lcr => exact hnone (haside hc)
  | setFifoMode enable => exact hnone (Triple.bind _ _ (sends_ioWrite_fcr l _) fun _ _ hb ↦ hb)
  | flushFifo => exact hnone (Triple.bind _ _ (sends_ioWrite_fcr l _) fun _ _ hb ↦ hb)
  | txByte data timeout res =>
    refine Triple.bind _ _ (sends_txByte l data hc res) fun r ↦ ?_
    rintro b hb
    refine ⟨_, ?_, hb⟩
    cases r with
    | true => exact List.Sublist.refl _
    | false => exact List.nil_sublist _
  | sendCh ch => exact Triple.bind _ _ (sends_send l [ch]) fun _ _ hb ↦ hb
  | sendStr str =>
    refine Triple.bind (Uart.sendStr (Bus.io t) str) _ ?_ fun _ _ hb ↦ hb
    rw [sendStr_eq_send]
    exact sends_send l _
  | send arr => exact Triple.bind _ _ (sends_send l arr) fun _ _ hb ↦ hb
  | recvCh => exact hnone (Triple.bind _ _ (sends_recvCh l) fun _ _ hb ↦ hb)
  | recv n =>
    refine hnone (Triple.bind _ _ ?_ fun _ _ hb ↦ hb)
    exact Triple.bind _ _ (sends_recvLoop l n []) fun _ _ hb ↦ hb
  | getDivisor | getLineStatus | rxFifoEmpty | txFifoEmpty | isOverrun | pollRx | pollTx
  | pollTxFinished => exact hnone (haside trivial)

theorem sends_session (l : List (BitVec 8)) (calls : List DriverCall)
    (hcalls : ∀ c ∈ calls, c.Legal) :
    ⦃fun b => ⌜Between (Sends l) b⌝⦄ session t calls
      ⦃⇓ _ b => ⌜∃ l', l'.Sublist (calls.flatMap DriverCall.asked) ∧
        Between (Sends (l ++ l')) b⌝⦄ := by
  induction calls generalizing l with
  | nil =>
    rintro b hb
    refine ⟨[], List.nil_sublist _, ?_⟩
    rw [List.append_nil]
    exact hb
  | cons c calls ih =>
    rw [List.forall_mem_cons] at hcalls
    refine Triple.bind _ _ (sends_exec l hcalls.1) fun got ↦ ?_
    rintro b ⟨l₁, hl₁, hb⟩
    obtain ⟨l₂, hl₂, hb₂⟩ := ih (l ++ l₁) hcalls.2 b hb
    refine ⟨l₁ ++ l₂, hl₁.append hl₂, ?_⟩
    rw [← List.append_assoc]
    exact hb₂

/-- What a session has sent. -/
structure SendsInOrder (t : Timing) (s : Top) (calls : List DriverCall) : Prop where
  /-- What is written to THR is some of what was asked for, in the same order. -/
  asked : (Bus.log Top.offered (Bus.afterSession t s calls).past).Sublist
    (calls.flatMap DriverCall.asked)
  /-- The transmit FIFO takes every byte that is written. -/
  accepted : Bus.log Top.accepted (Bus.afterSession t s calls).past =
    Bus.log Top.offered (Bus.afterSession t s calls).past
  /-- The bytes leave the FIFO in the order in which they were written. -/
  left : Bus.log Top.offered (Bus.afterSession t s calls).past =
    Bus.log Top.left (Bus.afterSession t s calls).past ++
      (Bus.afterSession t s calls).top.txContents
  /-- The FIFO holds at most one byte. -/
  length_le : (Bus.afterSession t s calls).top.txContents.length ≤ 1
  /-- A `tx_byte` that follows writes its byte exactly if it says so. -/
  txByte : ∀ data timeout res, timeout ≠ 0 →
    let r := (Polling.txByte (Bus.io t) data timeout res).run (Bus.afterSession t s calls)
    Bus.log Top.accepted r.2.past = Bus.log Top.accepted (Bus.afterSession t s calls).past ++
      if r.1 then [data] else []

theorem Top.AfterReset.sends (h : Top.AfterReset s) : Between (Sends []) (Bus.start s) := by
  have hfifos := Top.Reached.fifosWellFormed (s := s) ⟨s, fun _ ↦ Top.resetPorts, 0, h, rfl⟩
  obtain ⟨s₀, i, j, -, hj, rfl⟩ := h
  have hempty : ((s₀.period i).period j).txContents = [] := by
    have hclr : Top.resFifo .tx j (s₀.period i) = true := by
      show (j.res || _) = true
      rw [hj, Bool.true_or]
    exact Top.fifoEmpty_period hclr
  have hlcr : ((s₀.period i).period j).lcr = 0 := by
    rw [Top.period_lcr, Top.written, hj, if_pos rfl]
  refine ⟨⟨hfifos, rfl, rfl, hempty.symm, ?_⟩, ?_⟩
  · show ((s₀.period i).period j).txContents.length ≤ 1
    rw [hempty]
    exact Nat.zero_le 1
  · show ((s₀.period i).period j).lcr.getLsbD 7 = false
    rw [hlcr]
    exact BitVec.getLsbD_zero

/-- From a reset, in every session, however the bus is used and the line behaves, no byte that is
written to THR is lost or overtaken. -/
theorem session_sends (t : Timing) (s : Top) (hs : Top.AfterReset s) (calls : List DriverCall)
    (hcalls : ∀ c ∈ calls, c.Legal) : SendsInOrder t s calls := by
  obtain ⟨l, hl, hb⟩ := sends_session (t := t) [] calls hcalls (Bus.start s) hs.sends
  rw [List.nil_append] at hb
  have hsends : Sends l (Bus.afterSession t s calls).past (Bus.afterSession t s calls).top := hb.1
  constructor
  case asked =>
    rw [hsends.offered]
    exact hl
  case accepted => rw [hsends.accepted, hsends.offered]
  case left =>
    rw [hsends.offered]
    exact hsends.conserve
  case length_le => exact hsends.length_le
  case txByte =>
    rintro data timeout res htimeout
    obtain ⟨hafter, -⟩ := sends_txByte (t := t) l data htimeout res _ hb
    rw [hsends.accepted]
    exact hafter.accepted

/-- A session that turns the FIFOs on, sends, flushes and receives. -/
theorem session_sends_restful : SendsInOrder restful Top.poweredUp
    [.setBaudRate 1 3, .setFifoMode true, .send [0x41, 0x42], .flushFifo, .txByte 0x43 7 1,
      .recv 3] :=
  session_sends restful Top.poweredUp Top.afterReset_poweredUp _ (by
    rintro c hc
    simp only [List.mem_cons, List.not_mem_nil, or_false] at hc
    rcases hc with rfl | rfl | rfl | rfl | rfl | rfl
    · exact (by decide : (3#8).getLsbD 7 = false)
    · trivial
    · trivial
    · trivial
    · exact (by decide : (7#16) ≠ 0)
    · trivial)

end RtlCores.Uart
