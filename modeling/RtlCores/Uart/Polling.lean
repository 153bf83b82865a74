import RtlCores.Uart.DriverCalls

/-!
# The polls of the driver (`UART/driver/uart_driver.cpp`)

`poll_rx`, `poll_tx` and `poll_tx_finished` read LSR until a bit is set or the timeout, which counts
reads, has run out, and return what they have made of the last read.  The variable that keeps it has
no initial value, so what it happens to hold is an argument here.
-/

namespace RtlCores.Uart

open RtlCores.Lib

namespace Polling

/-! ## Calls -/

section Calls

variable {m : Type → Type} [Monad m] (io : DriverIo m)

/-- `while (timeout-- && waits(res = status()));` and `res` after it. -/
def pollLoop (status : m (BitVec 16)) (waits : BitVec 16 → Bool) (timeout res : BitVec 16) :
    m (BitVec 16) :=
  if _h : timeout = 0 then return res
  else do
    let res ← status
    if waits res then pollLoop status waits (timeout - 1) res else return res
termination_by timeout.toNat
decreasing_by bv_omega

/-- `poll_rx` -/
def pollRx (timeout res : BitVec 16) : m (BitVec 16) := do
  let res ← pollLoop (BitVec.setWidth 16 <$> rxFifoEmpty io) (· != 0) timeout res
  return if res == 0 then 1 else 0

/-- `poll_tx` -/
def pollTx (timeout res : BitVec 16) : m (BitVec 16) :=
  pollLoop (BitVec.setWidth 16 <$> txFifoEmpty io) (· == 0) timeout res

/-- `poll_tx_finished` -/
def pollTxFinished (timeout res : BitVec 16) : m (BitVec 16) :=
  pollLoop ((fun lineStatus ↦ (lineStatus &&& 0x40).setWidth 16) <$> getLineStatus io) (· == 0)
    timeout res

/-- `tx_byte`, which tells whether the byte was written. -/
def txByte (data : BitVec 8) (timeout res : BitVec 16) : m Bool := do
  let res ← pollTx io timeout res
  if res == 0 then return false
  io.ioWrite regThr data
  return true

variable {status : m (BitVec 16)} {waits : BitVec 16 → Bool} {timeout : BitVec 16}

theorem pollLoop_zero (res : BitVec 16) : pollLoop status waits 0 res = return res := by
  rw [pollLoop, dif_pos rfl]

theorem pollLoop_of_ne (h : timeout ≠ 0) (res : BitVec 16) :
    pollLoop status waits timeout res = do
      let res ← status
      if waits res then pollLoop status waits (timeout - 1) res else return res := by
  rw [pollLoop, dif_neg h]

/-- A poll that reads at all does not depend on what its variable held. -/
theorem pollLoop_congr (h : timeout ≠ 0) (res res' : BitVec 16) :
    pollLoop status waits timeout res = pollLoop status waits timeout res' := by
  rw [pollLoop_of_ne h, pollLoop_of_ne h]

end Calls

/-! ## Devices -/

/-- A device that answers the reads of LSR with the values of a sequence: the number of reads so far
and the bytes that have been written to THR. -/
structure LsrDevice where
  lsr : Nat → BitVec 8
  reads : Nat
  written : List (BitVec 8)

namespace LsrDevice

def io : DriverIo (StateM LsrDevice) where
  ioRead addr := modifyGet fun d ↦
    if addr = regLsr then (d.lsr d.reads, { d with reads := d.reads + 1 }) else (0, d)
  ioWrite addr data := modify fun d ↦
    if addr = regThr then { d with written := d.written ++ [data] } else d

/-- The device after `n` reads of LSR. -/
def after (d : LsrDevice) (n : Nat) : LsrDevice := { d with reads := d.reads + n }

/-- Whether a bit of LSR is set in the `k`-th read from now, from 0 on. -/
def shows (d : LsrDevice) (bit k : Nat) : Bool := (d.lsr (d.reads + k)).getLsbD bit

theorem after_after (d : LsrDevice) (n k : Nat) :
    (d.after n).after k = d.after (n + k) := by
  rw [after, after, after, Nat.add_assoc]

theorem shows_after (d : LsrDevice) (n bit k : Nat) :
    (d.after n).shows bit k = d.shows bit (n + k) := by
  rw [shows, shows, after, Nat.add_assoc]

end LsrDevice

/-! ## The last read -/

/-- `UART_LSR_DR` -/
def lsrDr : Nat := 0

/-- `UART_LSR_TF` -/
def lsrTf : Nat := 5

/-- `UART_LSR_TE` -/
def lsrTe : Nat := 6

section Loop

variable {status : StateM LsrDevice (BitVec 16)} {waits : BitVec 16 → Bool}
variable {value : BitVec 8 → BitVec 16} {bit : Nat} {timeout : BitVec 16}

/-- `status` reads LSR once, and the loop waits as long as the bit is clear. -/
structure PollsBit (status : StateM LsrDevice (BitVec 16)) (waits : BitVec 16 → Bool)
    (value : BitVec 8 → BitVec 16) (bit : Nat) : Prop where
  run : ∀ d, status.run d = (value (d.lsr d.reads), d.after 1)
  waits : ∀ x, waits (value x) = !x.getLsbD bit

/-- One turn of the loop. -/
theorem pollLoop_step (h : PollsBit status waits value bit) (htimeout : timeout ≠ 0)
    (res : BitVec 16) (d : LsrDevice) :
    (pollLoop status waits timeout res).run d =
      if d.shows bit 0 then (value (d.lsr d.reads), d.after 1)
      else (pollLoop status waits (timeout - 1) (value (d.lsr d.reads))).run (d.after 1) := by
  rw [pollLoop_of_ne htimeout, StateT.run_bind, h.run]
  show (if waits (value (d.lsr d.reads)) then _ else _ : StateM LsrDevice _).run _ = _
  rw [h.waits, LsrDevice.shows, Nat.add_zero]
  cases (d.lsr d.reads).getLsbD bit <;> rfl

/-- A poll ends with the first read that shows the bit, or with the last read it may make. -/
theorem pollLoop_run (h : PollsBit status waits value bit) (htimeout : timeout ≠ 0)
    (res : BitVec 16) (d : LsrDevice) :
    ∃ k < timeout.toNat,
      (pollLoop status waits timeout res).run d = (value (d.lsr (d.reads + k)), d.after (k + 1)) ∧
        (∀ j < k, d.shows bit j = false) ∧ (d.shows bit k = false → k + 1 = timeout.toNat) := by
  induction hn : timeout.toNat generalizing timeout res d with
  | zero => exact absurd (BitVec.eq_of_toNat_eq hn) htimeout
  | succ n ih =>
    have hpred : (timeout - 1).toNat = n := by bv_omega
    rw [pollLoop_step h htimeout]
    cases hshown : d.shows bit 0 with
    | true =>
      refine ⟨0, n.succ_pos, rfl, fun j hj ↦ absurd hj j.not_lt_zero, fun hnot ↦ ?_⟩
      rw [hshown] at hnot
      contradiction
    | false =>
      by_cases hlast : timeout - 1 = 0
      · have hzero : n = 0 := by
          rw [← hpred, hlast]
          rfl
        refine ⟨0, n.succ_pos, ?_, fun j hj ↦ absurd hj j.not_lt_zero, fun _ ↦ by rw [hzero]⟩
        rw [hlast, pollLoop_zero]
        rfl
      · obtain ⟨k, hk, hrun, hbefore, hend⟩ :=
          ih hlast (value (d.lsr d.reads)) (d.after 1) hpred
        refine ⟨k + 1, Nat.succ_lt_succ hk, ?_, ?_, ?_⟩
        · rw [if_neg Bool.false_ne_true, hrun, LsrDevice.after_after, Nat.add_comm k 1]
          show (value (d.lsr (d.reads + 1 + k)), _) = _
          rw [Nat.add_assoc, Nat.add_comm 1 (1 + k)]
        · intro j hj
          cases j with
          | zero => exact hshown
          | succ j =>
            rw [Nat.add_comm, ← LsrDevice.shows_after]
            exact hbefore j (Nat.lt_of_succ_lt_succ hj)
        · rw [Nat.add_comm k 1, ← LsrDevice.shows_after, Nat.add_comm 1 k]
          exact fun hnot ↦ congrArg (· + 1) (hend hnot)

end Loop

/-! ## What is asked of the polls -/

/-- A poll for a bit, from `d`, with its result and the device after it: it makes at most `timeout`
reads, only the last of them shows the bit, and it is successful exactly if one of the first
`timeout` reads does. -/
structure Answers (d : LsrDevice) (bit : Nat) (timeout : BitVec 16) (r : BitVec 16 × LsrDevice) :
    Prop where
  reads : ∃ n ≤ timeout.toNat, r.2 = d.after n ∧ ∀ k, k + 1 < n → d.shows bit k = false
  result : r.1 ≠ 0 ↔ ∃ k < timeout.toNat, d.shows bit k = true

/-- A poll answers, and does not depend on what its variable holds. -/
def PollRight (poll : BitVec 16 → BitVec 16 → StateM LsrDevice (BitVec 16)) (bit : Nat)
    (timeout : BitVec 16) (d : LsrDevice) : Prop :=
  (∀ res, Answers d bit timeout ((poll timeout res).run d)) ∧
    ∀ res res', (poll timeout res).run d = (poll timeout res').run d

/-- `tx_byte` writes the byte exactly if one of the first `timeout` reads shows `TF`, and does not
depend on what the variable of `poll_tx` holds. -/
def TxByteRight (data : BitVec 8) (timeout : BitVec 16) (d : LsrDevice) : Prop :=
  (∀ res, let r := (txByte LsrDevice.io data timeout res).run d
    (∃ n ≤ timeout.toNat, r.2.reads = d.reads + n) ∧
      (r.1 = true ↔ ∃ k < timeout.toNat, d.shows lsrTf k = true) ∧
      r.2.written = if r.1 then d.written ++ [data] else d.written) ∧
    ∀ res res', (txByte LsrDevice.io data timeout res).run d =
      (txByte LsrDevice.io data timeout res').run d

section Polls

variable {status : StateM LsrDevice (BitVec 16)} {waits : BitVec 16 → Bool}
variable {value : BitVec 8 → BitVec 16} {bit : Nat} {timeout : BitVec 16}

theorem answers_pollLoop (h : PollsBit status waits value bit) (htimeout : timeout ≠ 0)
    (res : BitVec 16) (d : LsrDevice) {r : BitVec 16 → BitVec 16}
    (hr : ∀ x, r (value x) ≠ 0 ↔ x.getLsbD bit = true) :
    Answers d bit timeout
      (Prod.map r id ((pollLoop status waits timeout res).run d)) := by
  obtain ⟨k, hk, hrun, hbefore, hend⟩ := pollLoop_run h htimeout res d
  rw [hrun]
  refine ⟨⟨k + 1, hk, rfl, fun j hj ↦ hbefore j (Nat.lt_of_succ_lt_succ hj)⟩, ?_⟩
  show r (value (d.lsr (d.reads + k))) ≠ 0 ↔ _
  rw [hr]
  constructor
  · exact fun hshown ↦ ⟨k, hk, hshown⟩
  · rintro ⟨j, hj, hshown⟩
    cases hlast : d.shows bit k with
    | true => exact hlast
    | false =>
      -- the reads have run out, so the `j`-th is one of those that were made
      have hle : j ≤ k := Nat.le_of_lt_succ (hj.trans_eq (hend hlast).symm)
      rcases Nat.lt_or_eq_of_le hle with hlt | rfl
      · rw [hbefore j hlt] at hshown
        contradiction
      · rw [hlast] at hshown
        contradiction

theorem pollsBit_rx :
    PollsBit (BitVec.setWidth 16 <$> rxFifoEmpty LsrDevice.io) (· != 0)
      (fun x ↦ (if x &&& 0x01 == 0 then 1 else 0 : BitVec 8).setWidth 16) lsrDr where
  run _ := rfl
  waits := by decide +kernel

theorem pollsBit_tx :
    PollsBit (BitVec.setWidth 16 <$> txFifoEmpty LsrDevice.io) (· == 0)
      (fun x ↦ (x &&& 0x20).setWidth 16) lsrTf where
  run _ := rfl
  waits := by decide +kernel

theorem pollsBit_txFinished :
    PollsBit ((fun lineStatus ↦ (lineStatus &&& 0x40).setWidth 16) <$>
      getLineStatus LsrDevice.io) (· == 0) (fun x ↦ (x &&& 0x40).setWidth 16) lsrTe where
  run _ := rfl
  waits := by decide +kernel

/-- A poll is its loop, with `r` made of what the variable has in the end. -/
def PollsBy (poll : BitVec 16 → BitVec 16 → StateM LsrDevice (BitVec 16))
    (status : StateM LsrDevice (BitVec 16)) (waits : BitVec 16 → Bool)
    (r : BitVec 16 → BitVec 16) : Prop :=
  ∀ timeout res d, (poll timeout res).run d =
    Prod.map r id ((pollLoop status waits timeout res).run d)

theorem pollsBy_rx :
    PollsBy (pollRx LsrDevice.io) (BitVec.setWidth 16 <$> rxFifoEmpty LsrDevice.io) (· != 0)
      fun res ↦ if res == 0 then 1 else 0 :=
  fun _ _ _ ↦ rfl

theorem pollsBy_tx :
    PollsBy (pollTx LsrDevice.io) (BitVec.setWidth 16 <$> txFifoEmpty LsrDevice.io) (· == 0) id :=
  fun _ _ _ ↦ rfl

theorem pollsBy_txFinished :
    PollsBy (pollTxFinished LsrDevice.io) ((fun lineStatus ↦ (lineStatus &&& 0x40).setWidth 16) <$>
      getLineStatus LsrDevice.io) (· == 0) id :=
  fun _ _ _ ↦ rfl

section PollsBy

variable {poll : BitVec 16 → BitVec 16 → StateM LsrDevice (BitVec 16)} {r : BitVec 16 → BitVec 16}

theorem PollsBy.right (hpoll : PollsBy poll status waits r) (h : PollsBit status waits value bit)
    (hr : ∀ x, r (value x) ≠ 0 ↔ x.getLsbD bit = true) (htimeout : timeout ≠ 0) (d : LsrDevice) :
    PollRight poll bit timeout d := by
  constructor
  · intro res
    rw [hpoll]
    exact answers_pollLoop h htimeout res d hr
  · intro res res'
    rw [hpoll, hpoll, pollLoop_congr htimeout res res']

/-- A poll that makes no read gives what it makes of its variable. -/
theorem PollsBy.zero (hpoll : PollsBy poll status waits r) (res : BitVec 16) (d : LsrDevice) :
    (poll 0 res).run d = (r res, d) := by
  rw [hpoll, pollLoop_zero]
  rfl

theorem PollsBy.not_right_zero (hpoll : PollsBy poll status waits r) (hr : r 0 ≠ r 1)
    (d : LsrDevice) : ¬ PollRight poll bit 0 d := by
  rintro ⟨-, hcongr⟩
  have hsame := congrArg Prod.fst (hcongr 0 1)
  rw [hpoll.zero, hpoll.zero] at hsame
  exact hr hsame

end PollsBy

/-! ## The calls -/

theorem pollRx_right (htimeout : timeout ≠ 0) (d : LsrDevice) :
    PollRight (pollRx LsrDevice.io) lsrDr timeout d :=
  pollsBy_rx.right pollsBit_rx (by decide +kernel) htimeout d

theorem pollTx_right (htimeout : timeout ≠ 0) (d : LsrDevice) :
    PollRight (pollTx LsrDevice.io) lsrTf timeout d :=
  pollsBy_tx.right pollsBit_tx (by decide +kernel) htimeout d

theorem pollTxFinished_right (htimeout : timeout ≠ 0) (d : LsrDevice) :
    PollRight (pollTxFinished LsrDevice.io) lsrTe timeout d :=
  pollsBy_txFinished.right pollsBit_txFinished (by decide +kernel) htimeout d

/-- `tx_byte` writes THR exactly if its poll gives something other than 0. -/
theorem txByte_run (data : BitVec 8) (timeout res : BitVec 16) (d : LsrDevice) :
    (txByte LsrDevice.io data timeout res).run d =
      let r := (pollTx LsrDevice.io timeout res).run d
      if r.1 = 0 then (false, r.2) else (true, { r.2 with written := r.2.written ++ [data] }) := by
  rw [txByte, StateT.run_bind]
  generalize (pollTx LsrDevice.io timeout res).run d = r
  obtain ⟨value, d'⟩ := r
  show (if value == 0 then _ else _ : StateM LsrDevice _).run d' = _
  by_cases hvalue : value = 0
  · rw [hvalue]
    rfl
  · rw [if_neg (by rwa [beq_iff_eq])]
    show _ = if value = 0 then _ else _
    rw [if_neg hvalue]
    rfl

theorem txByte_right (htimeout : timeout ≠ 0) (data : BitVec 8) (d : LsrDevice) :
    TxByteRight data timeout d := by
  have hpoll := pollTx_right htimeout d
  constructor
  · intro res
    obtain ⟨⟨n, hn, hafter, -⟩, hresult⟩ := hpoll.1 res
    rw [txByte_run]
    by_cases hvalue : ((pollTx LsrDevice.io timeout res).run d).1 = 0
    · simp only [if_pos hvalue, hafter, ← hresult]
      exact ⟨⟨n, hn, rfl⟩, iff_of_false Bool.false_ne_true (not_not_intro hvalue), rfl⟩
    · simp only [if_neg hvalue, hafter, ← hresult]
      exact ⟨⟨n, hn, rfl⟩, iff_of_true trivial hvalue, rfl⟩
  · intro res res'
    rw [txByte_run, txByte_run, hpoll.2 res res']

end Polls

/-! ## A timeout of 0 -/

theorem not_pollRx_right_zero (d : LsrDevice) : ¬ PollRight (pollRx LsrDevice.io) lsrDr 0 d :=
  pollsBy_rx.not_right_zero (by decide) d

theorem not_pollTx_right_zero (d : LsrDevice) : ¬ PollRight (pollTx LsrDevice.io) lsrTf 0 d :=
  pollsBy_tx.not_right_zero (by decide) d

theorem not_pollTxFinished_right_zero (d : LsrDevice) :
    ¬ PollRight (pollTxFinished LsrDevice.io) lsrTe 0 d :=
  pollsBy_txFinished.not_right_zero (by decide) d

/-- `tx_byte` then writes a byte that no read of LSR allows. -/
theorem not_txByte_right_zero (data : BitVec 8) (d : LsrDevice) : ¬ TxByteRight data 0 d := by
  intro hright
  obtain ⟨-, hwrites, -⟩ := hright.1 1
  rw [txByte_run, pollsBy_tx.zero] at hwrites
  obtain ⟨k, hk, -⟩ := hwrites.1 rfl
  exact absurd hk k.not_lt_zero

/-! ## When the polls are right -/

/-- The polls and `tx_byte` do what is asked of them exactly for a timeout other than 0. -/
theorem polls_right_iff (timeout : BitVec 16) (d : LsrDevice) :
    (PollRight (pollRx LsrDevice.io) lsrDr timeout d ↔ timeout ≠ 0) ∧
      (PollRight (pollTx LsrDevice.io) lsrTf timeout d ↔ timeout ≠ 0) ∧
      (PollRight (pollTxFinished LsrDevice.io) lsrTe timeout d ↔ timeout ≠ 0) ∧
      ∀ data, TxByteRight data timeout d ↔ timeout ≠ 0 := by
  refine ⟨⟨?_, fun h ↦ pollRx_right h d⟩, ⟨?_, fun h ↦ pollTx_right h d⟩,
    ⟨?_, fun h ↦ pollTxFinished_right h d⟩, fun data ↦ ⟨?_, fun h ↦ txByte_right h data d⟩⟩
  · rintro hright rfl
    exact not_pollRx_right_zero d hright
  · rintro hright rfl
    exact not_pollTx_right_zero d hright
  · rintro hright rfl
    exact not_pollTxFinished_right_zero d hright
  · rintro hright rfl
    exact not_txByte_right_zero data d hright

/-- No read is made and none would show a bit, but the polls give what their variable held, and
`tx_byte` writes. -/
theorem not_polls_right_zero :
    let d : LsrDevice := { lsr := fun _ ↦ 0, reads := 0, written := [] }
    ((txByte LsrDevice.io 0x41 0 1).run d = (true, { d with written := [0x41] })) ∧
      ¬ PollRight (pollRx LsrDevice.io) lsrDr 0 d ∧
      ¬ PollRight (pollTx LsrDevice.io) lsrTf 0 d ∧
      ¬ PollRight (pollTxFinished LsrDevice.io) lsrTe 0 d ∧ ¬ TxByteRight 0x41 0 d := by
  refine ⟨?_, not_pollRx_right_zero _, not_pollTx_right_zero _, not_pollTxFinished_right_zero _,
    not_txByte_right_zero _ _⟩
  rw [txByte_run, pollsBy_tx.zero]
  rfl

/-! ## A variable that holds 0 -/

section Agree

variable {m : Type → Type} [Monad m] [LawfulMonad m] (io : DriverIo m)

theorem setWidth_beq_zero : ∀ x : BitVec 8, (x.setWidth 16 == 0) = (x == 0) := by
  decide +kernel

/-- The `poll_tx` of the other calls is this one, with a variable that holds a byte. -/
theorem setWidth_pollTxLoop (timeout : BitVec 16) (res : BitVec 8) :
    BitVec.setWidth 16 <$> pollTxLoop io timeout.toNat res =
      Polling.pollTx io timeout (res.setWidth 16) := by
  unfold pollTx
  induction hn : timeout.toNat generalizing timeout res with
  | zero =>
    obtain rfl : timeout = 0 := BitVec.eq_of_toNat_eq hn
    rw [pollLoop_zero, pollTxLoop, map_pure]
  | succ n ih =>
    have hne : timeout ≠ 0 := by
      rintro rfl
      contradiction
    have hpred : (timeout - 1).toNat = n := by bv_omega
    rw [pollLoop_of_ne hne, pollTxLoop, map_bind, bind_map_left]
    refine bind_congr fun x ↦ ?_
    rw [setWidth_beq_zero, bne]
    cases x == 0 with
    | true => exact ih (timeout - 1) x hpred
    | false => exact map_pure _ x

/-- The `tx_byte` that `send` and `send_str` use has the variable hold 0. -/
theorem txByte_eq (data : BitVec 8) (timeout : BitVec 16) :
    Uart.txByte io data timeout.toNat = txByte io data timeout 0 := by
  have hpoll : pollTx io timeout 0 = BitVec.setWidth 16 <$> Uart.pollTx io timeout.toNat :=
    (setWidth_pollTxLoop io timeout 0).symm
  rw [txByte, hpoll, bind_map_left, Uart.txByte]
  refine bind_congr fun x ↦ ?_
  rw [setWidth_beq_zero]

end Agree

end Polling

end RtlCores.Uart
