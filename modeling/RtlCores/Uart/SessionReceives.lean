import RtlCores.Uart.SessionSends

/-!
# What a session receives

In FIFO mode data ready shows at every read of LSR whether the receive FIFO holds a character, and
the driver reads RBR only after it has seen one.  So it never reads an empty FIFO: what it hands
over are the characters that have arrived, in order, cut to the word length.  A character that is
zero ends a text and is not handed over.
-/

namespace RtlCores.Uart

open RtlCores.Lib RtlCores.Modules
open Std.Do

namespace Top

variable (i : TopIn) (s : Top)

/-- The byte that an RBR read puts on the bus. -/
def handed : List (BitVec 8) := if s.rbrRd i then [(s.mid i).readData i] else []

/-- The character that an RBR read takes out of the receive FIFO. -/
def word : List (BitVec 10) := (s.returned i).toList

/-- The same, cut to the word length. -/
def cut : List (BitVec 8) := (s.word i).map fun x ↦ masked s.lcr (x.extractLsb' 0 8)

variable {i s}

theorem word_of_not_rbrRd (h : s.rbrRd i = false) : s.word i = [] := by
  rw [word, returned, h]
  rfl

/-- A read while a character is held takes it out. -/
theorem word_of_rbrRd (h : s.rbrRd i = true) (hne : s.rxContents ≠ []) :
    ∃ x, s.word i = [x] ∧ s.handed i = [masked s.lcr (x.extractLsb' 0 8)] := by
  obtain ⟨x, q, hq⟩ := List.exists_cons_of_ne_nil hne
  have hreturned : s.returned i = some x := by
    rw [returned, if_pos h, hq]
    rfl
  refine ⟨x, ?_, ?_⟩
  · rw [word, hreturned]
    rfl
  · rw [handed, if_pos h, readData_of_returned hreturned]

end Top

/-! ## The invariant -/

/-- After the periods `past` the characters `got` have been handed over; every RBR read has taken
the oldest character out of the receive FIFO, which is in FIFO mode if `mode` says so. -/
structure Receives (mode : Bool) (got : List (BitVec 8)) (past : List (TopIn × Top)) (s : Top) :
    Prop where
  fifos : Top.FifosWellFormed s
  fifoEn : mode = true → s.fifoEn = true
  clear : s.fcr.getLsbD 1 = false
  conserve : Bus.arrived past = Bus.log Top.word past ++ s.rxContents
  handed : Bus.log Top.handed past = Bus.log Top.cut past
  length : (Bus.log Top.handed past).length = (Bus.log Top.word past).length
  got : got = (Bus.log Top.handed past).filter (· != 0)

/-- A character is held. -/
def Waiting (s : Top) : Prop := s.rxContents ≠ []

/-- A period without a read of RBR, in which FCR is written, if it is, with a value for FIFO mode
that does not clear the receive FIFO. -/
structure Unread (i : TopIn) (s : Top) : Prop where
  res : i.res = false
  rbrRd : s.rbrRd i = false
  fcr : Top.wen i = true → i.addr = regFcr →
    i.dataIn.getLsbD 0 = true ∧ i.dataIn.getLsbD 1 = false

variable {i : TopIn} {s : Top} {mode : Bool} {got : List (BitVec 8)} {past : List (TopIn × Top)}
variable {t : Timing}

theorem unread_of_aside (i : TopIn) (s : Top) (h : s.Aside i) : Unread i s :=
  ⟨h.res, h.rbrRd, fun hwen haddr ↦ absurd haddr (h.fcr hwen)⟩

theorem fifoEn_period (hen : s.fifoEn = true) (hres : i.res = false)
    (hfcr : Top.wen i = true → i.addr = regFcr → i.dataIn.getLsbD 0 = true) :
    (s.period i).fifoEn = true := by
  show (s.fcrNext i).getLsbD 0 = true
  rw [Top.fcrNext, hres, if_neg Bool.false_ne_true]
  cases hwen : Top.wen i with
  | false =>
    rw [if_neg Bool.false_ne_true, BitVec.getLsbD_and]
    exact (Bool.and_true _).trans hen
  | true =>
    rw [if_pos rfl]
    split
    case isTrue haddr => exact hfcr hwen haddr
    case isFalse => exact hen

/-- What any period does to the receive FIFO, and what is said of it. -/
theorem Receives.conserve_period (h : Receives mode got past s) (hres : i.res = false) :
    Bus.arrived ((i, s) :: past) =
      Bus.log Top.word ((i, s) :: past) ++ (s.period i).rxContents := by
  rw [Bus.arrived, Bus.log, h.conserve, List.append_assoc, List.append_assoc]
  congr 1
  exact Top.rxContents_conserve h.fifos.rx hres h.clear

theorem Receives.period_unread (h : Receives mode got past s) (hi : Unread i s) :
    Receives mode got ((i, s) :: past) (s.period i) := by
  have hword := Top.word_of_not_rbrRd hi.rbrRd
  have hhanded : s.handed i = [] := by rw [Top.handed, hi.rbrRd, if_neg Bool.false_ne_true]
  constructor
  case fifos => exact h.fifos.period i
  case fifoEn =>
    exact fun hmode ↦ fifoEn_period (h.fifoEn hmode) hi.res fun hwen haddr ↦ (hi.fcr hwen haddr).1
  case clear => exact Top.fcr_low_period h.clear fun hwen haddr ↦ (hi.fcr hwen haddr).2
  case conserve => exact h.conserve_period hi.res
  case handed => rw [Bus.log, Bus.log, h.handed, hhanded, Top.cut, hword, List.map_nil]
  case length => rw [Bus.log, Bus.log, hhanded, hword, List.append_nil, List.append_nil, h.length]
  case got => rw [Bus.log, hhanded, List.append_nil, h.got]

/-- An RBR read while a character is held. -/
theorem Receives.period_read (h : Receives mode got past s) (hne : Waiting s)
    (hread : s.rbrRd i = true) (hres : i.res = false) (hwen : Top.wen i = false) :
    Receives mode (got ++ text [(s.mid i).readData i]) ((i, s) :: past) (s.period i) := by
  obtain ⟨x, hword, hhanded⟩ := Top.word_of_rbrRd hread hne
  have hdata : s.handed i = [(s.mid i).readData i] := by rw [Top.handed, if_pos hread]
  constructor
  case fifos => exact h.fifos.period i
  case fifoEn =>
    exact fun hmode ↦ fifoEn_period (h.fifoEn hmode) hres fun hw ↦
      absurd (hwen.symm.trans hw) Bool.false_ne_true
  case clear =>
    exact Top.fcr_low_period h.clear fun hw ↦ absurd (hwen.symm.trans hw) Bool.false_ne_true
  case conserve => exact h.conserve_period hres
  case handed => rw [Bus.log, Bus.log, h.handed, hhanded, Top.cut, hword, List.map_singleton]
  case length =>
    rw [Bus.log, Bus.log, hdata, hword, List.length_append, List.length_append, h.length,
      List.length_singleton, List.length_singleton]
  case got =>
    rw [Bus.log, hdata, List.filter_append, ← h.got, text]
    rfl

theorem keptBy_receives (mode : Bool) (got : List (BitVec 8)) :
    KeptBy Unread (Receives mode got) :=
  fun _ _ _ hi h ↦ h.period_unread hi

theorem keptBy_receives_aside (mode : Bool) (got : List (BitVec 8)) :
    KeptBy Top.Aside (Receives mode got) :=
  (keptBy_receives mode got).mono unread_of_aside

/-- What is waiting stays so until RBR is read. -/
theorem keptBy_receives_waiting (mode : Bool) (got : List (BitVec 8)) :
    KeptBy Top.Aside fun past s ↦ Receives mode got past s ∧ Waiting s := by
  rintro i s past hi ⟨h, hne⟩
  refine ⟨h.period_unread (unread_of_aside i s hi), fun hnil ↦ hne ?_⟩
  rw [hi.rxContents_period h.fifos.rx h.clear] at hnil
  exact (List.append_eq_nil_iff.mp hnil).1

/-! ## A character -/

/-- A read of LSR in FIFO mode that shows data ready leaves a character waiting. -/
theorem receives_rxFifoEmpty (got : List (BitVec 8)) :
    ⦃fun b => ⌜Between (Receives true got) b⌝⦄ rxFifoEmpty (Bus.io t)
      ⦃⇓ r b => ⌜Between (Receives true got) b ∧ (r = 0 → Waiting b.top)⌝⦄ := by
  rintro b hb
  have hI := keptBy_receives_aside true got
  refine ⟨(OnlyAsks.rxFifoEmpty t).between hI b hb, fun hr ↦ ?_⟩
  obtain ⟨hrecv, -⟩ := hI.ready (t := t) (g := b.top.settings) Top.aside_idlePorts ⟨hb.1, rfl⟩
  have hwaiting : Waiting (b.ready t).top := by
    have hpending := (not_iff_not.mpr (rxFifoEmpty_ne_zero_iff t b)).mp (not_not_intro hr)
    rw [not_not, Top.Pending, if_pos (hrecv.fifoEn rfl)] at hpending
    exact hpending
  have haside := Top.aside_readPorts (s := (b.ready t).top) (t.line (b.ready t).past.length) regLsr
    fun h ↦ absurd h (by decide)
  exact (keptBy_receives_waiting true got _ _ _ haside ⟨hrecv, hwaiting⟩).2

theorem receives_pollRx (got : List (BitVec 8)) {timeout : BitVec 16} (htimeout : timeout ≠ 0)
    (res : BitVec 16) :
    ⦃fun b => ⌜Between (Receives true got) b⌝⦄ Polling.pollRx (Bus.io t) timeout res
      ⦃⇓ r b => ⌜Between (Receives true got) b ∧ ((r == 0) = false → Waiting b.top)⌝⦄ := by
  have hstatus : ⦃fun b => ⌜Between (Receives true got) b⌝⦄
      (BitVec.setWidth 16 <$> rxFifoEmpty (Bus.io t))
      ⦃⇓ r b => ⌜Between (Receives true got) b ∧ (r = 0 → Waiting b.top)⌝⦄ := by
    rintro b hb
    obtain ⟨hrecv, hwaiting⟩ := receives_rxFifoEmpty (t := t) got b hb
    refine ⟨hrecv, fun hr ↦ hwaiting ?_⟩
    have hzero := Polling.setWidth_beq_zero ((rxFifoEmpty (Bus.io t)).run b).1
    exact beq_iff_eq.mp (hzero.symm.trans (beq_iff_eq.mpr hr))
  have hloop : ⦃fun b => ⌜Between (Receives true got) b⌝⦄
      Polling.pollLoop (BitVec.setWidth 16 <$> rxFifoEmpty (Bus.io t)) (· != 0) timeout res
      ⦃⇓ r b => ⌜Between (Receives true got) b ∧ (r = 0 → Waiting b.top)⌝⦄ := by
    rintro b hb
    exact pollLoop_triple hstatus (fun _ _ _ h ↦ h.1) b ⟨hb, fun h ↦ absurd h htimeout⟩
  refine Triple.bind _ _ hloop fun r ↦ ?_
  rintro b ⟨hb, hwaiting⟩
  refine ⟨hb, fun hr ↦ hwaiting ?_⟩
  by_contra hne
  rw [beq_false_of_ne hne] at hr
  exact absurd hr (by decide)

/-- The access of `rx_byte` is a read of RBR. -/
theorem Bus.rbrRd_ready {b : Bus} (hdlab : b.top.settings.dlab = false) :
    (b.ready t).top.rbrRd ((b.ready t).next t fun sin ↦ Top.readPorts sin regRbr) = true := by
  show (true && !(b.ready t).top.dlab && true) = true
  rw [← Top.dlab_settings, Bus.settings_ready, hdlab]
  rfl

/-- `rx_byte` with a character waiting. -/
theorem receives_rxByte (mode : Bool) (got : List (BitVec 8)) :
    ⦃fun b => ⌜Between (Receives mode got) b ∧ Waiting b.top⌝⦄ rxByte (Bus.io t)
      ⦃⇓ ch b => ⌜Between (Receives mode (got ++ text [ch])) b⌝⦄ := by
  rintro b ⟨⟨hb, hdlab⟩, hne⟩
  obtain ⟨⟨hrecv, hwaiting⟩, -⟩ := (keptBy_receives_waiting mode got).ready (t := t)
    (g := b.top.settings) Top.aside_idlePorts ⟨⟨hb, hne⟩, rfl⟩
  refine ⟨hrecv.period_read hwaiting (Bus.rbrRd_ready hdlab) rfl rfl, ?_⟩
  show (((ioRead t regRbr).run b).2.top.settings).dlab = false
  rw [settings_ioRead]
  exact hdlab

theorem text_cons {ch : BitVec 8} (l : List (BitVec 8)) (hch : (ch == 0) = false) :
    text (ch :: l) = ch :: text l := by
  rw [text, List.takeWhile_cons, bne, hch]
  rfl

theorem text_singleton (ch : BitVec 8) : text [ch] = [ch].filter (· != 0) := by
  rw [text, List.takeWhile_cons, List.filter_cons]
  rfl

/-- The byte that ends an array is not part of its text. -/
theorem text_append_zero (l : List (BitVec 8)) : text (l ++ [0]) = text l := by
  induction l with
  | nil => rfl
  | cons ch l ih =>
    rw [List.cons_append, text, text, List.takeWhile_cons, List.takeWhile_cons]
    split
    · exact congrArg (ch :: ·) ih
    · rfl

/-- `w` is what reads of RBR have put on the bus. -/
def Handed (w : List (BitVec 8)) : BusProp := fun past _ ↦ Bus.log Top.handed past = w

theorem keptBy_handed (w : List (BitVec 8)) : KeptBy Top.Aside (Handed w) := by
  rintro i s past hi h
  have hnone : s.handed i = [] := by rw [Top.handed, hi.rbrRd, if_neg Bool.false_ne_true]
  rw [Handed, Bus.log, hnone, List.append_nil]
  exact h

theorem handed_rxByte (w : List (BitVec 8)) :
    ⦃fun b => ⌜Between (Handed w) b⌝⦄ rxByte (Bus.io t)
      ⦃⇓ ch b => ⌜Between (Handed (w ++ [ch])) b⌝⦄ := by
  rintro b ⟨hb, hdlab⟩
  obtain ⟨hlog, -⟩ := (keptBy_handed w).ready (t := t) (g := b.top.settings)
    Top.aside_idlePorts ⟨hb, rfl⟩
  refine ⟨?_, ?_⟩
  · show Bus.log Top.handed (b.ready t).past ++
      Top.handed ((b.ready t).next t fun sin ↦ Top.readPorts sin regRbr) (b.ready t).top = _
    rw [Top.handed, if_pos (Bus.rbrRd_ready hdlab), hlog]
    rfl
  · show (((ioRead t regRbr).run b).2.top.settings).dlab = false
    rw [settings_ioRead]
    exact hdlab

/-- The rule for the loop of `recv`: `P` is kept along with the bytes that are read, if a poll that
ends with a character leaves `W`, under which a byte is read.  A byte that is 0 is the last one, and
a loop that has not ended has read one in every turn. -/
theorem recvLoop_triple {P : List (BitVec 8) → Bus → Prop} {W : Bus → Prop}
    (hpoll : ∀ l, ⦃fun b => ⌜P l b⌝⦄ Polling.pollRx (Bus.io t) 1000 0
      ⦃⇓ r b => ⌜P l b ∧ ((r == 0) = false → W b)⌝⦄)
    (hbyte : ∀ l, ⦃fun b => ⌜P l b ∧ W b⌝⦄ rxByte (Bus.io t) ⦃⇓ ch b => ⌜P (l ++ [ch]) b⌝⦄)
    (n : Nat) (arr l : List (BitVec 8)) :
    ⦃fun b => ⌜P l b⌝⦄ recvLoop (Bus.io t) n arr
      ⦃⇓ r b => ⌜∃ l', r.1 = arr ++ l' ∧ P (l ++ l') b ∧ text l' = l'.filter (· != 0) ∧
        (r.2 = false → text l' = l' ∧ l'.length = n)⌝⦄ := by
  induction n generalizing l arr with
  | zero =>
    rintro b hb
    refine ⟨[], (List.append_nil _).symm, ?_, rfl, fun _ ↦ ⟨rfl, rfl⟩⟩
    rw [List.append_nil]
    exact hb
  | succ n ih =>
    refine Triple.bind _ _ (hpoll l) fun res ↦ ?_
    rintro b ⟨hb, hready⟩
    cases hres : res == 0 with
    | true =>
      refine ⟨[], (List.append_nil _).symm, ?_, rfl, fun h ↦ absurd h (by simp)⟩
      rw [List.append_nil]
      exact hb
    | false =>
      refine Triple.bind _ _ (hbyte l) (fun ch ↦ ?_) b ⟨hb, hready hres⟩
      rintro b hb
      cases hch : ch == 0 with
      | true => exact ⟨[ch], rfl, hb, text_singleton ch, fun h ↦ absurd h (by simp)⟩
      | false =>
        obtain ⟨l', hl, hP, hfilter, hdone⟩ := ih (arr ++ [ch]) (l ++ [ch]) b hb
        refine ⟨ch :: l', ?_, ?_, ?_, fun h ↦ ?_⟩
        · rw [hl, List.append_assoc]
          rfl
        · rw [List.append_assoc] at hP
          exact hP
        · rw [text_cons l' hch, List.filter_cons_of_pos (by rw [bne, hch]; rfl), hfilter]
        · obtain ⟨htext, hlen⟩ := hdone h
          rw [text_cons l' hch, htext, List.length_cons, hlen]
          exact ⟨rfl, rfl⟩

/-- The loop reads RBR once for every byte that it stores, whatever is held. -/
theorem handed_recvLoop (w : List (BitVec 8)) (n : Nat) :
    ⦃fun b => ⌜Between (Handed w) b⌝⦄ recvLoop (Bus.io t) n []
      ⦃⇓ r b => ⌜r.2 = false → (Bus.log Top.handed b.past).length = w.length + n⌝⦄ := by
  have hpoll (l : List (BitVec 8)) : ⦃fun b => ⌜Between (Handed (w ++ l)) b⌝⦄
      Polling.pollRx (Bus.io t) 1000 0
      ⦃⇓ r b => ⌜Between (Handed (w ++ l)) b ∧ ((r == 0) = false → True)⌝⦄ :=
    fun b hb ↦ ⟨(OnlyAsks.pollRx t 1000 0).between (keptBy_handed (w ++ l)) b hb, fun _ ↦ trivial⟩
  have hbyte (l : List (BitVec 8)) : ⦃fun b => ⌜Between (Handed (w ++ l)) b ∧ True⌝⦄
      rxByte (Bus.io t) ⦃⇓ ch b => ⌜Between (Handed (w ++ (l ++ [ch]))) b⌝⦄ := by
    rintro b ⟨hb, -⟩
    have hread := handed_rxByte (t := t) (w ++ l) b hb
    simp only [List.append_assoc] at hread
    exact hread
  rintro b hb
  obtain ⟨l, -, ⟨hlog, -⟩, -, hdone⟩ := recvLoop_triple hpoll hbyte n [] [] b (by
    show Between (Handed (w ++ [])) b
    rwa [List.append_nil])
  rintro h
  have hread : Bus.log Top.handed _ = w ++ ([] ++ l) := hlog
  rw [hread, List.nil_append, List.length_append, (hdone h).2]

/-- The loop in FIFO mode: it hands over what it stores. -/
theorem receives_recvLoop (got : List (BitVec 8)) (n : Nat) (arr : List (BitVec 8)) :
    ⦃fun b => ⌜Between (Receives true got) b⌝⦄ recvLoop (Bus.io t) n arr
      ⦃⇓ r b => ⌜∃ l, r.1 = arr ++ l ∧ Between (Receives true (got ++ text l)) b ∧
        (r.2 = false → text l = l ∧ l.length = n)⌝⦄ := by
  have hpoll (l : List (BitVec 8)) :=
    receives_pollRx (t := t) (got ++ l.filter (· != 0)) (show (1000 : BitVec 16) ≠ 0 by decide) 0
  have hbyte (l : List (BitVec 8)) :
      ⦃fun b => ⌜Between (Receives true (got ++ l.filter (· != 0))) b ∧ Waiting b.top⌝⦄
      rxByte (Bus.io t)
      ⦃⇓ ch b => ⌜Between (Receives true (got ++ (l ++ [ch]).filter (· != 0))) b⌝⦄ := by
    have hread := receives_rxByte (t := t) true (got ++ l.filter (· != 0))
    simp only [text_singleton, List.append_assoc, ← List.filter_append] at hread
    exact hread
  rintro b hb
  obtain ⟨l, hl, hrecv, hfilter, hdone⟩ := recvLoop_triple hpoll hbyte n arr [] b (by
    show Between (Receives true (got ++ [])) b
    rwa [List.append_nil])
  refine ⟨l, hl, ?_, hdone⟩
  rw [hfilter]
  exact hrecv

/-! ## The calls -/

theorem receives_recvCh (got : List (BitVec 8)) :
    ⦃fun b => ⌜Between (Receives true got) b⌝⦄ recvCh (Bus.io t)
      ⦃⇓ ch b => ⌜Between (Receives true (got ++ text [ch])) b⌝⦄ := by
  refine Triple.bind _ _ (receives_rxFifoEmpty got) fun res ↦ ?_
  rintro b ⟨hb, hwaiting⟩
  cases hres : res == 0 with
  | true => exact receives_rxByte true got b ⟨hb, hwaiting (beq_iff_eq.mp hres)⟩
  | false =>
    show Between (Receives true (got ++ [])) b
    rw [List.append_nil]
    exact hb

theorem receives_recv (got : List (BitVec 8)) (n : Nat) :
    ⦃fun b => ⌜Between (Receives true got) b⌝⦄ recv (Bus.io t) n
      ⦃⇓ r b => ⌜Between (Receives true (got ++ text r.1)) b ∧
        (r.2 = false → (text r.1).length = n)⌝⦄ := by
  refine Triple.bind _ _ (receives_recvLoop got n []) fun r ↦ ?_
  rintro b ⟨l, hl, hb, hdone⟩
  have htext : text (r.1 ++ [0]) = text l := by rw [hl, List.nil_append, text_append_zero]
  refine ⟨?_, fun h ↦ ?_⟩
  · show Between (Receives true (got ++ text (r.1 ++ [0]))) b
    rw [htext]
    exact hb
  · obtain ⟨hall, hlen⟩ := hdone h
    show (text (r.1 ++ [0])).length = n
    rw [htext, hall, hlen]

/-- A `recv` that has not ended has read RBR in every turn. -/
theorem handed_recv (w : List (BitVec 8)) (n : Nat) :
    ⦃fun b => ⌜Between (Handed w) b⌝⦄ recv (Bus.io t) n
      ⦃⇓ r b => ⌜r.2 = false → (Bus.log Top.handed b.past).length = w.length + n⌝⦄ :=
  Triple.bind _ _ (handed_recvLoop w n) fun _ _ hb ↦ hb

theorem receives_txByte (mode : Bool) (got : List (BitVec 8)) (data : BitVec 8)
    (timeout res : BitVec 16) :
    ⦃fun b => ⌜Between (Receives mode got) b⌝⦄ Polling.txByte (Bus.io t) data timeout res
      ⦃⇓ _ b => ⌜Between (Receives mode got) b⌝⦄ := by
  have hpoll := (OnlyAsks.pollTx t timeout res).between (keptBy_receives_aside mode got)
  refine Triple.bind _ _ hpoll fun r ↦ ?_
  cases hr : r == 0 with
  | true => exact fun b hb ↦ hb
  | false =>
    rintro b ⟨hb, hdlab⟩
    obtain ⟨hrecv, hset⟩ := (keptBy_receives mode got).ioWrite (t := t) (g := b.top.settings)
      (fun sin s ↦ unread_of_aside _ s (Top.aside_idlePorts sin s)) regThr data
      (fun _ _ _ ↦ ⟨rfl, rfl, fun _ haddr ↦
        absurd (show regThr = regFcr from haddr) (by decide)⟩) b ⟨hb, rfl⟩
    refine ⟨hrecv, ?_⟩
    rw [hset]
    exact hdlab

theorem receives_send (mode : Bool) (got arr : List (BitVec 8)) :
    ⦃fun b => ⌜Between (Receives mode got) b⌝⦄ send (Bus.io t) arr
      ⦃⇓ _ b => ⌜Between (Receives mode got) b⌝⦄ := by
  induction arr with
  | nil => exact fun b hb ↦ hb
  | cons data arr ih =>
    have hbyte := receives_txByte (t := t) mode got data 1000 0
    rw [← Polling.txByte_eq] at hbyte
    exact Triple.bind _ _ hbyte fun _ ↦ ih

/-- `set_fifo_mode` turns FIFO mode on. -/
theorem receives_setFifoMode (mode : Bool) (got : List (BitVec 8)) :
    ⦃fun b => ⌜Between (Receives mode got) b⌝⦄ setFifoMode (Bus.io t) true
      ⦃⇓ _ b => ⌜Between (Receives true got) b⌝⦄ := by
  rintro b ⟨hb, hdlab⟩
  have hI := keptBy_receives mode got
  obtain ⟨hrecv, hset⟩ := hI.ready (t := t) (g := b.top.settings)
    (fun sin s ↦ unread_of_aside _ s (Top.aside_idlePorts sin s)) ⟨hb, rfl⟩
  have hafter := hrecv.period_unread (i := (b.ready t).next t fun sin ↦
    Top.writePorts sin regFcr 0x01) ⟨rfl, Bool.and_false _, fun _ _ ↦ by
      constructor
      · exact (by decide : (0x01#8).getLsbD 0 = true)
      · exact (by decide : (0x01#8).getLsbD 1 = false)⟩
  refine ⟨{ hafter with fifoEn := fun _ ↦ ?_ }, ?_⟩
  · exact (by decide : (0x01#8).getLsbD 0 = true)
  · show (((ioWrite t regFcr 0x01).run b).2.top.settings).dlab = false
    rw [settings_ioWrite]
    exact hdlab

/-! ## Sessions -/

/-- A call in FIFO mode that keeps to it and leaves DLAB low. -/
def DriverCall.InFifoMode : DriverCall → Prop
  | setBaudRate _ lcr => lcr.getLsbD 7 = false
  | setFifoMode enable => enable = true
  | flushFifo => False
  | _ => True

/-- A call of which nothing is handed over. -/
theorem receives_of_keeps {α : Type} {x : StateM Bus α}
    (hx : ⦃fun b => ⌜Between (Receives mode got) b⌝⦄ x ⦃⇓ _ b => ⌜Between (Receives true got) b⌝⦄) :
    ⦃fun b => ⌜Between (Receives mode got) b⌝⦄ (do let _ ← x; return ([] : List (BitVec 8)))
      ⦃⇓ l b => ⌜Between (Receives true (got ++ l)) b⌝⦄ := by
  refine Triple.bind _ _ hx fun _ ↦ ?_
  rintro b hb
  show Between (Receives true (got ++ [])) b
  rw [List.append_nil]
  exact hb

theorem receives_exec (got : List (BitVec 8)) {c : DriverCall} (hc : c.InFifoMode) :
    ⦃fun b => ⌜Between (Receives true got) b⌝⦄ c.exec t
      ⦃⇓ l b => ⌜Between (Receives true (got ++ l)) b⌝⦄ := by
  have haside : c.LeavesAside → ⦃fun b => ⌜Between (Receives true got) b⌝⦄ c.exec t
      ⦃⇓ l b => ⌜Between (Receives true (got ++ l)) b⌝⦄ := by
    rintro h b hb
    obtain ⟨hnil, hrecv⟩ := (keptBy_receives_aside true got).exec_aside t h b hb
    show Between (Receives true (got ++ ((c.exec t).run b).1)) _
    rw [show ((c.exec t).run b).1 = [] from hnil, List.append_nil]
    exact hrecv
  cases c with
  | setBaudRate d lcr => exact haside hc
  | setFifoMode enable =>
    obtain rfl : enable = true := hc
    exact receives_of_keeps (receives_setFifoMode true got)
  | flushFifo => cases hc
  | txByte data timeout res => exact receives_of_keeps (receives_txByte true got data timeout res)
  | sendCh ch => exact receives_of_keeps (receives_send true got [ch])
  | sendStr str =>
    refine receives_of_keeps ?_
    rw [sendStr_eq_send]
    exact receives_send true got _
  | send arr => exact receives_of_keeps (receives_send true got arr)
  | recvCh => exact Triple.bind _ _ (receives_recvCh got) fun _ _ hb ↦ hb
  | recv n => exact Triple.bind _ _ (receives_recv got n) fun _ _ hb ↦ hb.1
  | getDivisor | getLineStatus | rxFifoEmpty | txFifoEmpty | isOverrun | pollRx | pollTx
  | pollTxFinished => exact haside trivial

/-- A call and what follows it. -/
theorem receives_cons {c : DriverCall} {calls : List DriverCall}
    (hc : ⦃fun b => ⌜Between (Receives mode got) b⌝⦄ c.exec t
      ⦃⇓ l b => ⌜Between (Receives true (got ++ l)) b⌝⦄)
    (hcalls : ∀ l, ⦃fun b => ⌜Between (Receives true (got ++ l)) b⌝⦄ session t calls
      ⦃⇓ l' b => ⌜Between (Receives true (got ++ l ++ l')) b⌝⦄) :
    ⦃fun b => ⌜Between (Receives mode got) b⌝⦄ session t (c :: calls)
      ⦃⇓ l b => ⌜Between (Receives true (got ++ l)) b⌝⦄ := by
  refine Triple.bind _ _ hc fun l ↦ Triple.bind _ _ (hcalls l) fun l' ↦ ?_
  rintro b hb
  show Between (Receives true (got ++ (l ++ l'))) b
  rw [← List.append_assoc]
  exact hb

theorem receives_session (got : List (BitVec 8)) (calls : List DriverCall)
    (hcalls : ∀ c ∈ calls, c.InFifoMode) :
    ⦃fun b => ⌜Between (Receives true got) b⌝⦄ session t calls
      ⦃⇓ l b => ⌜Between (Receives true (got ++ l)) b⌝⦄ := by
  induction calls generalizing got with
  | nil =>
    rintro b hb
    show Between (Receives true (got ++ [])) b
    rw [List.append_nil]
    exact hb
  | cons c calls ih =>
    rw [List.forall_mem_cons] at hcalls
    exact receives_cons (receives_exec got hcalls.1) fun l ↦ ih (got ++ l) hcalls.2

/-- What a session has received. -/
structure ReceivesInOrder (t : Timing) (s : Top) (calls : List DriverCall) : Prop where
  /-- The characters handed over are those that RBR reads have returned, but for the zeros. -/
  handedOver : handedOver t s calls =
    (Bus.log Top.handed (Bus.afterSession t s calls).past).filter (· != 0)
  /-- Every RBR read has returned the oldest character, cut to the word length. -/
  handed : Bus.log Top.handed (Bus.afterSession t s calls).past =
    Bus.log Top.cut (Bus.afterSession t s calls).past
  /-- What has arrived is what has been taken out, in the same order, and what is still held. -/
  conserve : Bus.arrived (Bus.afterSession t s calls).past =
    Bus.log Top.word (Bus.afterSession t s calls).past ++
      (Bus.afterSession t s calls).top.rxContents
  /-- A `recv` that follows and has not ended after `n` turns has taken `n` characters more out of
  the receive FIFO, so it ends if no more than `n` are to be had. -/
  recv : ∀ n, let b := Bus.afterSession t s calls
    let r := (Uart.recv (Bus.io t) n).run b
    r.1.2 = false →
      (Bus.log Top.word r.2.past).length = (Bus.log Top.word b.past).length + n ∧
        (Uart.handedOver t s calls).length + n ≤ (Bus.arrived r.2.past).length

theorem Top.AfterReset.receives (h : Top.AfterReset s) :
    Between (Receives false []) (Bus.start s) := by
  have hfifos := Top.Reached.fifosWellFormed (s := s) ⟨s, fun _ ↦ Top.resetPorts, 0, h, rfl⟩
  have hdlab := h.sends.2
  obtain ⟨s₀, i, j, -, hj, rfl⟩ := h
  have hempty : ((s₀.period i).period j).rxContents = [] := Top.rxContents_period_clear (.inl hj)
  have hfcr : ((s₀.period i).period j).fcr = 0 := by
    rw [Top.period_fcr, Top.fcrNext, hj, if_pos rfl]
  refine ⟨⟨hfifos, fun h ↦ absurd h Bool.false_ne_true, ?_, hempty.symm, rfl, rfl, rfl⟩, hdlab⟩
  show ((s₀.period i).period j).fcr.getLsbD 1 = false
  rw [hfcr]
  exact BitVec.getLsbD_zero

/-- From a reset, in every session that selects FIFO mode first and keeps to it, however the bus is
used and the line behaves, the characters handed over are those that have arrived, in order. -/
theorem session_receives (t : Timing) (s : Top) (hs : Top.AfterReset s) (calls : List DriverCall)
    (hcalls : ∀ c ∈ calls, c.InFifoMode) :
    ReceivesInOrder t s (.setFifoMode true :: calls) := by
  have hfirst := receives_of_keeps (receives_setFifoMode (t := t) false [])
  have hsession := receives_cons (c := .setFifoMode true) hfirst fun l ↦
    receives_session ([] ++ l) calls hcalls
  have hb := hsession (Bus.start s) hs.receives
  have hrecv : Receives true (handedOver t s (.setFifoMode true :: calls))
    (Bus.afterSession t s (.setFifoMode true :: calls)).past
    (Bus.afterSession t s (.setFifoMode true :: calls)).top := hb.1
  constructor
  case handedOver => exact hrecv.got
  case handed => exact hrecv.handed
  case conserve => exact hrecv.conserve
  case recv =>
    rintro n b r hdone
    obtain ⟨hafter, hlen⟩ := receives_recv (t := t) _ n _ hb
    have hgrown := handed_recv (t := t) _ n b ⟨rfl, hb.2⟩ hdone
    rw [hrecv.length] at hgrown
    refine ⟨hafter.1.length.symm.trans hgrown, ?_⟩
    have hgot := congrArg List.length hafter.1.got
    have hle := List.length_filter_le (· != 0) (Bus.log Top.handed r.2.past)
    rw [List.length_append, hlen hdone] at hgot
    have hconserve := congrArg List.length hafter.1.conserve
    rw [List.length_append, ← hafter.1.length] at hconserve
    show _ ≤ (Bus.arrived r.2.past).length
    refine hgot.le.trans (hle.trans ?_)
    exact (Nat.le_add_right _ _).trans hconserve.ge

/-- The line carries a word of five bits at divisor 1, the lowest of them 0, and there is time for
it to arrive before it is asked for. -/
def oneCharacter : Timing where
  line n := !decide (5 ≤ n ∧ n < 37)
  gap k := if k = 5 then 110 else 0

/-- A session that sets the baud rate and receives a character. -/
def receiveOne : List DriverCall := [.setFifoMode true, .setBaudRate 1 0, .recvCh]

/-- The character on the line is the one `recv_ch` hands over. -/
theorem session_receives_oneCharacter :
    ReceivesInOrder oneCharacter Top.poweredUp receiveOne ∧
      handedOver oneCharacter Top.poweredUp receiveOne = [0x1E] := by
  have hcalls : ∀ c ∈ receiveOne.tail, c.InFifoMode := by
    rintro c hc
    simp only [receiveOne, List.tail_cons, List.mem_cons, List.not_mem_nil, or_false] at hc
    rcases hc with rfl | rfl
    · exact (by decide : (0#8).getLsbD 7 = false)
    · trivial
  refine ⟨session_receives oneCharacter Top.poweredUp Top.afterReset_poweredUp _ hcalls, ?_⟩
  decide +kernel

end RtlCores.Uart
