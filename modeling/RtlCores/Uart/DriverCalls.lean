import RtlCores.Uart.Top

/-!
# The calls of the driver (`UART/driver/uart_driver.cpp`)

`UartDriver` reaches the core through two virtual functions, so its calls are written over any
monad that has them.  `Transmitter` is the simplest device that can lose a byte: THR empties some
number of status reads after it has been written.  A poll gives up after a fixed number of reads,
and `send` and `send_str` go on to the next byte when it does.
-/

namespace RtlCores.Uart

open RtlCores.Lib

/-- The virtual functions of `UartDriver`. -/
structure DriverIo (m : Type → Type) where
  ioRead : BitVec 3 → m (BitVec 8)
  ioWrite : BitVec 3 → BitVec 8 → m Unit

/-! ## Calls -/

section Calls

variable {m : Type → Type} [Monad m] (io : DriverIo m)

def getLineStatus : m (BitVec 8) := io.ioRead regLsr

def rxFifoEmpty : m (BitVec 8) := do
  let lineStatus ← getLineStatus io
  return if lineStatus &&& 0x01 == 0 then 1 else 0

def txFifoEmpty : m (BitVec 8) := do
  let lineStatus ← getLineStatus io
  return lineStatus &&& 0x20

def setFifoMode (enable : Bool) : m Unit := io.ioWrite regFcr (if enable then 0x01 else 0x00)

def flushFifo : m Unit := io.ioWrite regFcr 0x06

/-- The default value of `timeout`. -/
def defaultTimeout : Nat := 1000

/-- The loop of `poll_tx`; `res` is what the last read gave. -/
def pollTxLoop : Nat → BitVec 8 → m (BitVec 8)
  | 0, res => return res
  | timeout + 1, _ => do
    let res ← txFifoEmpty io
    if res != 0 then return res else pollTxLoop timeout res

/-- In the source `res` has no value before the first read, which a timeout of 0 does not make. -/
def pollTx (timeout : Nat) : m (BitVec 8) := pollTxLoop io timeout 0

/-- Tells whether the byte was written. -/
def txByte (data : BitVec 8) (timeout : Nat) : m Bool := do
  let res ← pollTx io timeout
  if res == 0 then return false
  io.ioWrite regThr data
  return true

/-- The string is given as the bytes from `str` on, with the byte that ends it. -/
def sendStr : List (BitVec 8) → m Unit
  | [] => return
  | c :: str => do
    if c != 0 then
      let _ ← txByte io c defaultTimeout
      sendStr str

/-- The array is given as its `length` bytes. -/
def send : List (BitVec 8) → m Unit
  | [] => return
  | b :: arr => do
    let _ ← txByte io b defaultTimeout
    send arr

end Calls

/-- A string is sent up to the byte that ends it. -/
theorem sendStr_eq_send {m : Type → Type} [Monad m] (io : DriverIo m) (str : List (BitVec 8)) :
    sendStr io str = send io (str.takeWhile (· != 0)) := by
  induction str with
  | nil => rfl
  | cons c str ih =>
    rw [sendStr, List.takeWhile_cons]
    split
    · rw [ih]
      rfl
    · rfl

/-! ## A transmitter -/

/-- `TF` reads 0 for the next `busy` status reads; it does so `frame` times after a byte has been
written. -/
structure Transmitter where
  frame : Nat
  busy : Nat
  written : List (BitVec 8)

namespace Transmitter

def lsr (t : Transmitter) : BitVec 8 := if t.busy = 0 then 0x20 else 0

/-- A status read. -/
def polled (t : Transmitter) : Transmitter := { t with busy := t.busy - 1 }

/-- A write to THR. -/
def take (t : Transmitter) (data : BitVec 8) : Transmitter :=
  { t with busy := t.frame, written := t.written ++ [data] }

def io : DriverIo (StateM Transmitter) where
  ioRead addr := modifyGet fun t ↦ if addr = regLsr then (t.lsr, t.polled) else (0, t)
  ioWrite addr data := modify fun t ↦ if addr = regThr then t.take data else t

variable {t : Transmitter}

theorem txFifoEmpty_run (t : Transmitter) : (txFifoEmpty io).run t = (t.lsr, t.polled) := by
  show (t.lsr &&& 0x20, t.polled) = _
  rw [lsr]
  split <;> rfl

/-- One turn of the loop. -/
theorem pollTxLoop_succ_run (n : Nat) (res : BitVec 8) (t : Transmitter) :
    (pollTxLoop io (n + 1) res).run t =
      if t.lsr != 0 then (t.lsr, t.polled) else (pollTxLoop io n t.lsr).run t.polled := by
  show (do
    let res ← txFifoEmpty io
    if res != 0 then return res else pollTxLoop io n res : StateM Transmitter _).run t = _
  rw [StateT.run_bind, txFifoEmpty_run]
  show (if t.lsr != 0 then return t.lsr else pollTxLoop io n t.lsr :
    StateM Transmitter _).run t.polled = _
  split <;> rfl

/-- A poll waits as long as the transmitter is busy, or gives up. -/
theorem pollTxLoop_run (n : Nat) (res : BitVec 8) (t : Transmitter) (hn : 0 < n) :
    (pollTxLoop io n res).run t =
      if t.busy < n then (0x20, { t with busy := 0 }) else (0, { t with busy := t.busy - n }) := by
  induction n generalizing t res with
  | zero => exact absurd hn (lt_irrefl 0)
  | succ n ih =>
    rw [pollTxLoop_succ_run]
    by_cases hbusy : t.busy = 0
    · rw [lsr, if_pos hbusy, if_pos (by decide), if_pos (by omega), polled, hbusy]
    · rw [lsr, if_neg hbusy, if_neg (by decide)]
      cases n with
      | zero =>
        rw [if_neg (by omega)]
        rfl
      | succ n =>
        rw [ih _ _ (Nat.succ_pos n), polled]
        by_cases hlt : t.busy < n + 1 + 1
        · rw [if_pos (by show t.busy - 1 < n + 1; omega), if_pos hlt]
        · rw [if_neg (by show ¬t.busy - 1 < n + 1; omega), if_neg hlt]
          congr 2
          show t.busy - 1 - (n + 1) = t.busy - (n + 1 + 1)
          omega

/-- A byte is written if the transmitter is ready in time, and not otherwise. -/
theorem txByte_run (b : BitVec 8) (t : Transmitter) :
    (txByte io b defaultTimeout).run t =
      if t.busy < defaultTimeout then (true, t.take b)
      else (false, { t with busy := t.busy - defaultTimeout }) := by
  have hpoll := pollTxLoop_run defaultTimeout 0 t (by decide)
  show (do
    let res ← pollTxLoop io defaultTimeout 0
    if res == 0 then return false
    io.ioWrite regThr b
    return true : StateM Transmitter _).run t = _
  rw [StateT.run_bind, hpoll]
  split <;> rfl

theorem send_cons (b : BitVec 8) (arr : List (BitVec 8)) (t : Transmitter) :
    ((send io (b :: arr)).run t).2 =
      ((send io arr).run ((txByte io b defaultTimeout).run t).2).2 := rfl

/-- Every byte is written at most once. -/
theorem length_written_send_le (arr : List (BitVec 8)) (t : Transmitter) :
    ((send io arr).run t).2.written.length ≤ t.written.length + arr.length := by
  induction arr generalizing t with
  | nil => exact le_rfl
  | cons b arr ih =>
    rw [send_cons, txByte_run]
    split
    · refine (ih (t.take b)).trans ?_
      simp only [take, List.length_append, List.length_cons, List.length_nil]
      omega
    · exact (ih _).trans (Nat.add_le_add_left (Nat.le_succ _) _)

/-- The transmitter is ready in time for the first byte, and for the others. -/
def InTime (t : Transmitter) (arr : List (BitVec 8)) : Prop :=
  arr ≠ [] → t.busy < defaultTimeout ∧ (2 ≤ arr.length → t.frame < defaultTimeout)

theorem inTime_take_iff (b c : BitVec 8) (arr : List (BitVec 8)) (t : Transmitter) :
    (t.take b).InTime (c :: arr) ↔ t.frame < defaultTimeout := by
  constructor
  · exact fun h ↦ (h (List.cons_ne_nil c arr)).1
  · exact fun h _ ↦ ⟨h, fun _ ↦ h⟩

/-- If the transmitter is not ready in time for the first byte, fewer bytes are written. -/
theorem written_send_ne (b : BitVec 8) (arr : List (BitVec 8)) (t : Transmitter)
    (hbusy : ¬t.busy < defaultTimeout) :
    ((send io (b :: arr)).run t).2.written ≠ t.written ++ b :: arr := by
  rw [send_cons, txByte_run, if_neg hbusy]
  intro hall
  have hle := length_written_send_le arr { t with busy := t.busy - defaultTimeout }
  have hlen := congrArg List.length hall
  rw [List.length_append, List.length_cons] at hlen
  exact absurd hle (by simp only [hlen]; omega)

/-- What is written is the array exactly when the transmitter is always ready in time. -/
theorem written_send_iff (arr : List (BitVec 8)) (t : Transmitter) :
    ((send io arr).run t).2.written = t.written ++ arr ↔ t.InTime arr := by
  induction arr generalizing t with
  | nil => exact ⟨fun _ h ↦ absurd rfl h, fun _ ↦ (List.append_nil _).symm⟩
  | cons b arr ih =>
    by_cases hbusy : t.busy < defaultTimeout
    · have hnext := ih (t.take b)
      have hwritten : (t.take b).written ++ arr = t.written ++ b :: arr := by
        rw [take, List.append_assoc]
        rfl
      rw [send_cons, txByte_run, if_pos hbusy, ← hwritten, hnext]
      cases arr with
      | nil =>
        constructor
        · exact fun _ _ ↦ ⟨hbusy, fun h ↦ absurd h (Nat.not_succ_le_self 1)⟩
        · exact fun _ h ↦ absurd rfl h
      | cons c arr =>
        rw [inTime_take_iff]
        constructor
        · exact fun h _ ↦ ⟨hbusy, fun _ ↦ h⟩
        · exact fun h ↦ (h (List.cons_ne_nil _ _)).2 (by simp)
    · refine iff_of_false (written_send_ne b arr t hbusy) fun h ↦ ?_
      exact hbusy (h (List.cons_ne_nil _ _)).1

/-- The bytes have been written once and in order, or the caller can tell that they were not: the
result is another than that of a call that has written them. -/
def NothingLost (call : StateM Transmitter Unit) (t : Transmitter) (bytes : List (BitVec 8)) :
    Prop :=
  (call.run t).2.written = t.written ++ bytes ∨ (call.run t).1 ≠ ()

theorem nothingLost_iff (call : StateM Transmitter Unit) (bytes : List (BitVec 8)) :
    NothingLost call t bytes ↔ (call.run t).2.written = t.written ++ bytes := by
  constructor
  · rintro (h | h)
    · exact h
    · exact absurd rfl h
  · exact .inl

/-- `send` and `send_str` lose nothing exactly when the transmitter is ready within the timeout
before every byte. -/
theorem send_nothingLost_iff (t : Transmitter) (arr str : List (BitVec 8)) :
    (NothingLost (send io arr) t arr ↔ t.InTime arr) ∧
      (NothingLost (sendStr io str) t (str.takeWhile (· != 0)) ↔
        t.InTime (str.takeWhile (· != 0))) := by
  rw [nothingLost_iff, nothingLost_iff, sendStr_eq_send]
  exact ⟨written_send_iff arr t, written_send_iff _ t⟩

/-- The second of two bytes is lost when THR takes a thousand status reads to empty. -/
theorem not_nothingLost_1000 :
    ¬∀ (frame : Nat) (arr : List (BitVec 8)), NothingLost (send io arr) ⟨frame, 0, []⟩ arr := by
  intro h
  have hlost := (nothingLost_iff _ _).mp (h 1000 [0x41, 0x42])
  rw [written_send_iff] at hlost
  exact absurd ((hlost (List.cons_ne_nil _ _)).2 le_rfl) (lt_irrefl 1000)

end Transmitter

end RtlCores.Uart
