import RtlCores.Uart.RxSync
import RtlCores.Uart.Ticks

/-!
# No character is lost silently

The receive path of a run: the words that the receiver presents are those that the detector of
`rx_done` completes; a completed word enters the receive FIFO or is dropped; an RBR read takes the
oldest one out; and a drop raises the overrun flag, which stays up until the processor has read
it.
-/

namespace RtlCores.Uart

open RtlCores.Lib RtlCores.Modules

/-- The flags by their bit numbers. -/
theorem Lsr.getLsbD_bits (l : Lsr) (k : Nat) :
    l.bits.getLsbD k = [l.dr, l.oe, l.pe, l.fe, l.bi, l.tf, l.te, l.ei].getD k false := by
  match k with
  | 0 | 1 | 2 | 3 | 4 | 5 | 6 | 7 =>
    simp only [bits, BitVec.getLsbD_append]
    exact (BitVec.getLsbD_ofBool _ 0).trans (Bool.true_and _)
  | k + 8 => exact BitVec.getLsbD_of_ge _ _ (Nat.le_add_left 8 k)

namespace Top

variable (i j : TopIn) (s : Top)

/-! ## The receive path in one period -/

/-- The words that the receiver presents while new ports or registers settle. -/
def settleWords : List RxOut := s.uart.settleWords ((s.latchDivisor i).uartIn i)

/-- The words that the receiver presents between the posedge at the end of a period with the ports
`i` and the negedge of the next period, with the ports `j`. -/
def presented : List (BitVec 10) :=
  (((s.mid i).posedge i).settleWords i ++ (s.period i).settleWords j).map RxOut.bits

/-- The word that the receive path is offered in a period. -/
def completed : Option (BitVec 10) :=
  if (s.mid i).rxReady then some ((s.mid i).uart.rx.rxOut s.lcr).bits else none

/-- The word that enters the receive FIFO in a period. -/
def pushed : Option (BitVec 10) :=
  if (s.mid i).uart.rxPush ((s.mid i).uartIn i) then some (s.rxReq i).din else none

/-- The word that an RBR read takes out of the receive FIFO in a period. -/
def returned : Option (BitVec 10) := if s.rbrRd i then s.rxContents.head? else none

/-- A completed word that does not enter the FIFO. -/
def Dropped : Prop := (s.completed i).isSome ∧ s.pushed i = none

/-- An LSR read, with the overrun flag in the value that it returns. -/
def overrunRead : Bool := lsrRd i && ((s.mid i).readData i).getLsbD 1

/-- What becomes of the characters received in a run. -/
structure NoSilentLoss (is : Nat → TopIn) (s : Top) : Prop where
  /-- The words presented are those completed, one by one; in a period that loads another divisor
  the baud clock is restarted. -/
  presented : ∀ n, (after is s (n + 2)).divisor = (after is s (n + 1)).divisor →
    (after is s n).presented (is n) (is (n + 1)) =
      ((after is s (n + 1)).completed (is (n + 1))).toList
  /-- Only completed words enter the FIFO. -/
  pushed : ∀ n x, (after is s n).pushed (is n) = some x → (after is s n).completed (is n) = some x
  /-- What enters is what the reads return, each word once and in the same order, followed by what
  is still held. -/
  conserve : ∀ n, s.rxContents ++ emitted (fun i s ↦ s.pushed i) (fun i s ↦ s.period i) is s n =
    emitted (fun i s ↦ s.returned i) (fun i s ↦ s.period i) is s n ++ (after is s n).rxContents
  /-- A read that takes a word out has it on the bus, cut to the word length. -/
  read : ∀ n x, (after is s n).returned (is n) = some x →
    ((after is s n).mid (is n)).readData (is n) =
      masked (after is s n).lcr (x.extractLsb' 0 8)
  /-- The overrun flag is up from the negedge of the period in which a word is dropped to the end
  of the first LSR read that returns it. -/
  overrun : ∀ n m, n ≤ m → (after is s n).Dropped (is n) →
    (∀ k, n ≤ k → k < m → (after is s k).overrunRead (is k) = false) →
    ((after is s m).mid (is m)).lsr.oe = true

variable {i j s}

/-! ## Words presented and words completed -/

/-- In a period that keeps the divisor, the divisor latches are what they were. -/
theorem divisor_latchDivisor (hj : j.res = false) (h : (s.period j).divisor = s.divisor) :
    (s.latchDivisor j).divisor = s.divisor := by
  rw [← h, divisor, divisor, period_dll j s hj, period_dlm j s hj]
  rfl

theorem presented_eq_completed (hi : i.res = false) (hj : j.res = false)
    (hdiv : ((s.period i).period j).divisor = (s.period i).divisor) :
    s.presented i j = ((s.period i).completed j).toList := by
  have hkeep := divisor_latchDivisor hj hdiv
  have hmoved := UartUut.settle_settle_moved (s := ((s.mid i).posedge i).uart)
    (i := (((s.mid i).posedge i).latchDivisor i).uartIn i)
    (j := ((s.period i).latchDivisor j).uartIn j) hi hj hkeep rfl
  have hwords := hmoved.words_eq
  have hlist : ((s.mid i).posedge i).settleWords i ++ (s.period i).settleWords j = _ := hwords
  rw [presented, hlist, completed]
  -- the detector holds what `rx_done` was before the posedge
  have hset : ((s.period i).mid j).uart.rxDoneSet = ((s.mid i).posedge i).uart.rxDone := by
    show ((s.period i).uart.settle _).rxDoneSet = _
    rw [UartUut.settle_rxDoneSet]
    show (((s.mid i).posedge i).uart.settle _).rxDoneSet = _
    rw [UartUut.settle_rxDoneSet]
    rfl
  have hready : ((s.period i).mid j).rxReady =
      (((s.period i).mid j).uart.rx.rxDone 16 && !((s.mid i).posedge i).uart.rx.rxDone 16) := by
    rw [rxReady, UartUut.rxReady, hset]
    rfl
  rw [hready]
  show List.map RxOut.bits (if ((s.period i).mid j).uart.rx.rxDone 16 &&
    !((s.mid i).posedge i).uart.rx.rxDone 16 then _ else none).toList = _
  cases ((s.period i).mid j).uart.rx.rxDone 16 &&
    !((s.mid i).posedge i).uart.rx.rxDone 16 <;> rfl

/-! ## The FIFO -/

theorem pushed_eq_completed {x : BitVec 10} (h : s.pushed i = some x) : s.completed i = some x := by
  rw [pushed] at h
  split at h
  case isTrue hpush =>
    have hready : (s.mid i).rxReady = true := by
      rw [UartUut.rxPush, Bool.and_eq_true] at hpush
      exact hpush.1
    rw [completed, if_pos hready]
    exact h
  case isFalse => exact absurd h (by simp)

/-- A dropped word found the FIFO full. -/
theorem Dropped.rxFull (h : s.Dropped i) :
    (s.mid i).rxFull i = true ∧ (s.mid i).rxReady = true := by
  obtain ⟨hcompleted, hpushed⟩ := h
  have hready : (s.mid i).rxReady = true := by
    rw [completed] at hcompleted
    split at hcompleted
    · assumption
    · exact absurd hcompleted (by simp)
  refine ⟨?_, hready⟩
  by_contra hfull
  rw [Bool.not_eq_true] at hfull
  have hpush : (s.mid i).uart.rxPush ((s.mid i).uartIn i) = true := by
    show ((s.mid i).rxReady && !(s.mid i).rxFull i) = true
    rw [hready, hfull]
    rfl
  rw [pushed, if_pos hpush] at hpushed
  exact absurd hpushed (by simp)

theorem rxContents_conserve (hf : s.uart.rxFifo.WellFormed) (hres : i.res = false)
    (hclr : s.fcr.getLsbD 1 = false) :
    s.rxContents ++ (s.pushed i).toList = (s.returned i).toList ++ (s.period i).rxContents := by
  rw [rxContents_period hf hres hclr, ← List.append_assoc]
  congr 1
  · rw [returned]
    cases s.rbrRd i with
    | false => rfl
    | true => cases s.rxContents <;> rfl
  · show (if (s.mid i).rxReady && !(s.mid i).rxFull i then some (s.rxReq i).din
      else none).toList = _
    split <;> rfl

/-- The bits of the word that are on the bus during an RBR read. -/
theorem rbr_eq_masked (s : Top) : s.rbr = masked s.lcr (s.rdData.extractLsb' 0 8) := by
  refine BitVec.eq_of_getLsbD_eq fun k hk ↦ ?_
  rw [getLsbD_masked, BitVec.getLsbD_extractLsb', rbr, wordLen, Nat.zero_add]
  rcases wls_cases (wls s.lcr) with h | h | h | h <;> rw [h] <;>
    simp [hk, BitVec.getLsbD_extractLsb']

theorem readData_of_returned {x : BitVec 10} (h : s.returned i = some x) :
    (s.mid i).readData i = masked s.lcr (x.extractLsb' 0 8) := by
  rw [returned] at h
  split at h
  case isFalse => exact absurd h (by simp)
  case isTrue hread =>
    have hpos : 0 < s.uart.rxFifo.count.toNat := by
      rw [← Fifo.length_contents]
      refine List.length_pos_of_ne_nil fun hnil ↦ ?_
      rw [rxContents, hnil] at h
      exact absurd h (by simp)
    have hhead : s.uart.rxFifo.dout = x :=
      Option.some_inj.mp ((Fifo.head?_contents hpos).symm.trans h)
    have hdata : (s.mid i).rdData = x := by
      rw [rdData, mid_rxFifo]
      exact hhead
    rw [rbrRd, Bool.and_eq_true, Bool.and_eq_true, Bool.not_eq_true', beq_iff_eq] at hread
    obtain ⟨⟨hren, hdlab⟩, haddr⟩ := hread
    have hdlab' : (s.mid i).dlab = false := hdlab
    rw [readData, if_pos hren, haddr]
    show (if (s.mid i).dlab then (s.mid i).dll else (s.mid i).rbr) = _
    rw [hdlab', if_neg Bool.false_ne_true, rbr_eq_masked, hdata]
    rfl

/-! ## The overrun flag -/

theorem mid_oe : (s.mid i).lsr.oe =
    if (s.mid i).rxFull i && (s.mid i).rxReady then true
    else if i.res || s.postLsrRd then false else s.lsr.oe := by
  rfl

/-- An LSR read returns the flags as they are after the negedge. -/
theorem overrunRead_eq : s.overrunRead i = (lsrRd i && (s.mid i).lsr.oe) := by
  rw [overrunRead]
  cases hread : lsrRd i with
  | false => rfl
  | true =>
    rw [lsrRd, Bool.and_eq_true, beq_iff_eq] at hread
    obtain ⟨hren, haddr⟩ := hread
    have hdata : (s.mid i).readData i = (s.mid i).lsr.bits := by
      rw [readData, if_pos hren, haddr]
      rfl
    rw [hdata, Lsr.getLsbD_bits]
    rfl

theorem Dropped.mid_oe (h : s.Dropped i) : (s.mid i).lsr.oe = true := by
  rw [Top.mid_oe, h.rxFull.1, h.rxFull.2]
  rfl

/-- The flag stays up until a read has returned it. -/
theorem mid_oe_period (hj : j.res = false) (h : (s.mid i).lsr.oe = true)
    (hread : s.overrunRead i = false) : ((s.period i).mid j).lsr.oe = true := by
  have hnot : lsrRd i = false := by
    rw [overrunRead_eq, h, Bool.and_true] at hread
    exact hread
  rw [mid_oe, period_postLsrRd, period_lsr, hj, hnot, h]
  split <;> rfl

/-! ## Runs -/

/-- In every run without RXCLR, from any state reached, no received character is lost silently,
unless the divisor is changed in the clock in which the character is presented. -/
theorem no_silent_loss (is : Nat → TopIn) (s : Top) (hs : Reached s)
    (hres : ∀ n, (is n).res = false) (hclr : s.fcr.getLsbD 1 = false)
    (hwr : ∀ n, wen (is n) = true → (is n).addr = regFcr → (is n).dataIn.getLsbD 1 = false) :
    NoSilentLoss is s := by
  have hfifo : ∀ n, FifosWellFormed (after is s n) :=
    fun n ↦ run_invariant _ _ (fun i s h ↦ h.period i) is hs.fifosWellFormed n
  have hlow : ∀ n, (after is s n).fcr.getLsbD 1 = false := by
    intro n
    have hafter := @fcr_low_after s is 1 0 hclr n fun k _ _ ↦ hwr k
    rwa [Nat.zero_add] at hafter
  constructor
  case presented => exact fun n hdiv ↦ presented_eq_completed (hres n) (hres (n + 1)) hdiv
  case pushed => exact fun n x ↦ pushed_eq_completed
  case conserve =>
    intro n
    refine emitted_conserve _ _ _ rxContents is s n fun k _ ↦ ?_
    exact rxContents_conserve (hfifo k).rx (hres k) (hlow k)
  case read => exact fun n x ↦ readData_of_returned
  case overrun =>
    intro n m hnm hdropped
    induction m, hnm using Nat.le_induction with
    | base => exact fun _ ↦ hdropped.mid_oe
    | succ m hnm ih =>
      intro hread
      have hm := ih fun k hk hkm ↦ hread k hk (Nat.lt_succ_of_lt hkm)
      exact mid_oe_period (hres (m + 1)) hm (hread m hnm (Nat.lt_succ_self m))

/-- Divisor 1, words of five bits, non-FIFO mode; two characters arrive, and the line status
register is read. -/
def overrunRun (n : Nat) : TopIn :=
  ([writePorts true regLcr 0x80, writePorts true regDll 1, writePorts true regDlm 0,
    writePorts true regLcr 0] ++ List.replicate 16 (idlePorts false) ++
    List.replicate 96 (idlePorts true) ++ List.replicate 16 (idlePorts false) ++
    List.replicate 96 (idlePorts true) ++ [readPorts true regLsr]).getD n (idlePorts true)

/-- The second character is dropped. -/
theorem no_silent_loss_second : NoSilentLoss overrunRun poweredUp ∧
    (after overrunRun poweredUp 224).Dropped (overrunRun 224) := by
  refine ⟨no_silent_loss overrunRun poweredUp ?_ ?_ rfl ?_, ⟨by decide +kernel, by decide +kernel⟩⟩
  · exact ⟨poweredUp, overrunRun, 0, afterReset_poweredUp, rfl⟩
  · exact forall_getD (P := fun i ↦ i.res = false) (by decide +kernel) rfl
  · exact forall_getD (P := fun i ↦ wen i = true → i.addr = regFcr → i.dataIn.getLsbD 1 = false)
      (by decide +kernel) (fun h ↦ absurd h (by decide))

/-! ## A divisor loaded while a word is presented -/

/-- No divisor of 0 is written. -/
theorem dll_ne_zero_period (hres : i.res = false) (h : s.dll ≠ 0)
    (hwr : wen i = true → i.addr = regDll → i.dataIn ≠ 0) : (s.period i).dll ≠ 0 := by
  rw [period_dll i s hres]
  split
  case isTrue hload =>
    rw [Bool.and_eq_true, beq_iff_eq, baudLoad, Bool.and_eq_true] at hload
    exact hwr hload.1.1 hload.2
  case isFalse => exact h

theorem divisor_ne_zero (h : s.dll ≠ 0) : s.divisor ≠ 0 := by
  intro hzero
  apply h
  have hlow := congrArg (BitVec.extractLsb' 0 8) hzero
  rwa [divisor, BitVec.extractLsb'_append_eq_right] at hlow

/-- The receiver waits, and the line has been high. -/
structure Waits (s : Top) : Prop where
  rx : s.uart.rx.rxFsm = .idle
  sync : s.uart.rxSyncReg = 7
  external : s.mcr.getLsbD 4 = false

namespace Waits

/-- The receiver while it waits with the line high. -/
theorem settle (h : s.Waits) (hres : i.res = false) (hsin : i.sin = true) : (s.settle i).Waits := by
  have hfollow : ∀ u : UartUut, u.rx.rxFsm = .idle → u.rxSyncReg = 7 →
      (u.follow true ((s.latchDivisor i).uartIn i)).rx.rxFsm = .idle ∧
        (u.follow true ((s.latchDivisor i).uartIn i)).rxSyncReg = 7 := by
    rintro u hidle hsync
    have hline : u.rxDin ((s.latchDivisor i).uartIn i) = true := by
      have hin : u.rxSin ((s.latchDivisor i).uartIn i) = true := by
        show (if s.mcr.getLsbD 4 then _ else i.sin) = true
        rw [h.external, if_neg Bool.false_ne_true, hsin]
      rw [UartUut.rxDin, hin, UartUut.rxSync, hsync]
      exact ite_self _
    refine ⟨?_, (UartUut.follow_rxSyncReg true).trans hsync⟩
    rw [UartUut.follow]
    split
    · show ((u.rx).clock 16 _ (u.rxDin _)).rxFsm = .idle
      rw [hline]
      exact Rx.idle_of_clock hidle
    · exact hidle
  have hasync : ∀ u : UartUut, (u.async ((s.latchDivisor i).uartIn i)).rx = u.rx ∧
      (u.async ((s.latchDivisor i).uartIn i)).rxSyncReg = u.rxSyncReg := by
    intro u
    rw [UartUut.async, show ((s.latchDivisor i).uartIn i).res = false from hres]
    exact ⟨rfl, rfl⟩
  obtain ⟨hidle, hsync⟩ := hfollow s.uart h.rx h.sync
  obtain ⟨hrx, hreg⟩ := hasync (s.uart.follow true ((s.latchDivisor i).uartIn i))
  obtain ⟨hidle', hsync'⟩ := hfollow _ (hrx ▸ hidle) (hreg.trans hsync)
  exact ⟨hidle', hsync', h.external⟩

theorem mid (h : s.Waits) (hres : i.res = false) (hsin : i.sin = true) : (s.mid i).Waits :=
  have hsettle := h.settle hres hsin
  ⟨hsettle.rx, hsettle.sync, hsettle.external⟩

/-- No word is completed. -/
theorem completed (h : s.Waits) (hres : i.res = false) (hsin : i.sin = true) :
    s.completed i = none := by
  have hdone : (s.mid i).uart.rxDone = false := by
    rw [UartUut.rxDone, Rx.rxDone, (h.mid hres hsin).rx]
    rfl
  rw [Top.completed, rxReady, UartUut.rxReady, hdone, Bool.false_and, if_neg Bool.false_ne_true]

theorem period (h : s.Waits) (hres : i.res = false) (hsin : i.sin = true)
    (hmcr : wen i = true → i.addr ≠ regMcr) : (s.period i).Waits := by
  have hmid := h.mid hres hsin
  refine settle (s := (s.mid i).posedge i) ⟨hmid.rx, ?_, ?_⟩ hres hsin
  · show (if i.res then 7 else (s.mid i).uart.rxSyncReg.extractLsb' 0 2 ++
      BitVec.ofBool (if (s.mid i).mcr.getLsbD 4 then _ else i.sin)) = 7
    rw [hres, if_neg Bool.false_ne_true, hmid.sync, hmid.external, if_neg Bool.false_ne_true, hsin]
    rfl
  · show (written i regMcr _ s.mcr).getLsbD 4 = false
    rw [written, hres, if_neg Bool.false_ne_true]
    split
    case isTrue hwr =>
      rw [Bool.and_eq_true, beq_iff_eq] at hwr
      exact absurd hwr.2 (hmcr hwr.1)
    case isFalse => exact h.external

end Waits

/-- Divisor 1 and words of five bits, with DLAB set. -/
def reloadSetup (n : Nat) : TopIn :=
  [writePorts true regLcr 0x80, writePorts true regDll 1, writePorts true regDlm 0].getD n
    (idlePorts true)

/-- A character arrives, and DLL is loaded with 2 in the clock in which it is presented. -/
def reloadRun (n : Nat) : TopIn :=
  (List.replicate 16 (idlePorts false) ++ List.replicate 92 (idlePorts true) ++
    [writePorts true regDll 2]).getD n (idlePorts true)

/-- With the new divisor the baud clock falls and rises again at once, and the word is gone before
the detector of `rx_done` has seen it: it never enters the FIFO and is never dropped. -/
theorem lost_silently_reload :
    ¬∀ (is : Nat → TopIn) (s : Top), Reached s → (∀ n, (is n).res = false) →
      s.fcr.getLsbD 1 = false → (∀ n, wen (is n) = true → (is n).addr ≠ regFcr) →
      (∀ n, (after is s n).divisor ≠ 0) →
      ∀ n, ∀ x ∈ (after is s n).presented (is n) (is (n + 1)),
        ∃ m, (after is s m).pushed (is m) = some x ∨ (after is s m).Dropped (is m) := by
  intro h
  let s := after reloadSetup poweredUp 4
  have hres : ∀ n, (reloadRun n).res = false :=
    forall_getD (P := fun i ↦ i.res = false) (by decide +kernel) rfl
  have hwr : ∀ n, wen (reloadRun n) = true → (reloadRun n).addr ≠ regFcr :=
    forall_getD (P := fun i ↦ wen i = true → i.addr ≠ regFcr) (by decide +kernel) (by decide)
  have hmcr : ∀ n, wen (reloadRun n) = true → (reloadRun n).addr ≠ regMcr :=
    forall_getD (P := fun i ↦ wen i = true → i.addr ≠ regMcr) (by decide +kernel) (by decide)
  have hdata : ∀ n, wen (reloadRun n) = true → (reloadRun n).addr = regDll →
      (reloadRun n).dataIn ≠ 0 :=
    forall_getD (P := fun i ↦ wen i = true → i.addr = regDll → i.dataIn ≠ 0) (by decide +kernel)
      (by decide)
  have hhigh : ∀ k, (reloadRun (130 + k)).sin = true := by
    intro k
    have hidle : reloadRun (130 + k) = idlePorts true :=
      List.getD_eq_default _ _ (Nat.le_add_right_of_le (by decide))
    rw [hidle]
    rfl
  have hdll : ∀ n, (after reloadRun s n).dll ≠ 0 := by
    intro n
    induction n with
    | zero => decide +kernel
    | succ n ih => exact dll_ne_zero_period (hres n) ih (hdata n)
  -- nothing is completed until the receiver waits, and then nothing more is
  have hfirst : emitted (fun i s ↦ s.completed i) (fun i s ↦ s.period i) reloadRun s 130 = [] := by
    decide +kernel
  have hwaits : ∀ k, (after reloadRun s (130 + k)).Waits := by
    intro k
    induction k with
    | zero => exact ⟨by decide +kernel, by decide +kernel, by decide +kernel⟩
    | succ k ih => exact ih.period (hres _) (hhigh k) (hmcr _)
  have hnone : ∀ m, (after reloadRun s m).completed (reloadRun m) = none := by
    intro m
    rcases Nat.lt_or_ge m 130 with hm | hm
    · exact (emitted_eq_nil_iff _ _ _ _ _).mp hfirst m hm
    · obtain ⟨k, rfl⟩ := Nat.exists_eq_add_of_le hm
      exact (hwaits k).completed (hres _) (hhigh k)
  have hpresented : (after reloadRun s 107).presented (reloadRun 107) (reloadRun 108) = [0x1F] := by
    decide +kernel
  obtain ⟨m, hpushed | hdropped⟩ := h reloadRun s ⟨poweredUp, reloadSetup, 4, afterReset_poweredUp,
    rfl⟩ hres (by decide +kernel) hwr (fun n ↦ divisor_ne_zero (hdll n)) 107 0x1F
    (by rw [hpresented]; exact List.mem_singleton_self _)
  · exact absurd ((pushed_eq_completed hpushed).symm.trans (hnone m)) (Option.some_ne_none _)
  · have hsome := hdropped.1
    rw [hnone m] at hsome
    exact absurd hsome Bool.false_ne_true

end Top

end RtlCores.Uart
