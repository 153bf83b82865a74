import Mathlib
import RtlCores.Uart.Flush
import RtlCores.Uart.Polling

/-!
# Sessions of the driver (`UART/driver/uart_driver.cpp`)

A session is any sequence of calls of the driver, made on the bus of the core while the line does
what it likes.  The rest of the calls are here, and the rules that take a property from one access
to a call and from a call to a session.
-/

namespace RtlCores.Uart

open RtlCores.Lib RtlCores.Modules
open Std.Do

/-! ## The other calls -/

section Calls

variable {m : Type → Type} [Monad m] (io : DriverIo m)

def rxByte : m (BitVec 8) := io.ioRead regRbr

def isOverrun : m (BitVec 8) := do
  let lineStatus ← getLineStatus io
  return lineStatus &&& 0x02

/-- A zero stands for no character. -/
def recvCh : m (BitVec 8) := do
  let res ← rxFifoEmpty io
  if res == 0 then rxByte io else return 0

/-- `while (poll_rx() && (*arr++ = rx_byte()));`, up to its `n`-th turn: the bytes stored, and
whether the loop has ended. -/
def recvLoop : Nat → List (BitVec 8) → m (List (BitVec 8) × Bool)
  | 0, arr => return (arr, false)
  | n + 1, arr => do
    let res ← Polling.pollRx io 1000 0
    if res == 0 then return (arr, true)
    let ch ← rxByte io
    if ch == 0 then return (arr ++ [ch], true) else recvLoop n (arr ++ [ch])

/-- The array that the caller is given, with the byte that ends it. -/
def recv (n : Nat) : m (List (BitVec 8) × Bool) := do
  let (arr, done) ← recvLoop io n []
  return (arr ++ [0], done)

def sendCh (ch : BitVec 8) : m Unit := do
  let _ ← txByte io ch defaultTimeout

end Calls

/-! ## Sessions -/

/-- A call, with the divisor and the value for LCR that `set_baud_rate` works out, and the turns
that the loop of `recv` takes at most. -/
inductive DriverCall
  | setBaudRate (freqDivisor : BitVec 16) (lcr : BitVec 8)
  | getDivisor
  | setFifoMode (enable : Bool)
  | flushFifo
  | getLineStatus
  | rxFifoEmpty
  | txFifoEmpty
  | isOverrun
  | pollRx (timeout res : BitVec 16)
  | pollTx (timeout res : BitVec 16)
  | pollTxFinished (timeout res : BitVec 16)
  | txByte (data : BitVec 8) (timeout res : BitVec 16)
  | sendCh (ch : BitVec 8)
  | sendStr (str : List (BitVec 8))
  | send (arr : List (BitVec 8))
  | recvCh
  | recv (n : Nat)

/-- What a caller reads in an array: the bytes before the first zero. -/
def text (arr : List (BitVec 8)) : List (BitVec 8) := arr.takeWhile (· != 0)

variable (t : Timing)

/-- A call on the bus, with the characters that it hands over. -/
def DriverCall.exec : DriverCall → StateM Bus (List (BitVec 8))
  | .setBaudRate freqDivisor lcr => do
    Uart.setBaudRate t freqDivisor lcr
    return []
  | .getDivisor => do
    let _ ← Uart.getDivisor t
    return []
  | .setFifoMode enable => do
    Uart.setFifoMode (Bus.io t) enable
    return []
  | .flushFifo => do
    Uart.flushFifo (Bus.io t)
    return []
  | .getLineStatus => do
    let _ ← Uart.getLineStatus (Bus.io t)
    return []
  | .rxFifoEmpty => do
    let _ ← Uart.rxFifoEmpty (Bus.io t)
    return []
  | .txFifoEmpty => do
    let _ ← Uart.txFifoEmpty (Bus.io t)
    return []
  | .isOverrun => do
    let _ ← Uart.isOverrun (Bus.io t)
    return []
  | .pollRx timeout res => do
    let _ ← Polling.pollRx (Bus.io t) timeout res
    return []
  | .pollTx timeout res => do
    let _ ← Polling.pollTx (Bus.io t) timeout res
    return []
  | .pollTxFinished timeout res => do
    let _ ← Polling.pollTxFinished (Bus.io t) timeout res
    return []
  | .txByte data timeout res => do
    let _ ← Polling.txByte (Bus.io t) data timeout res
    return []
  | .sendCh ch => do
    Uart.sendCh (Bus.io t) ch
    return []
  | .sendStr str => do
    Uart.sendStr (Bus.io t) str
    return []
  | .send arr => do
    Uart.send (Bus.io t) arr
    return []
  | .recvCh => do
    let ch ← Uart.recvCh (Bus.io t)
    return text [ch]
  | .recv n => do
    let (arr, _) ← Uart.recv (Bus.io t) n
    return text arr

/-- The calls one after another, with all the characters handed over. -/
def session : List DriverCall → StateM Bus (List (BitVec 8))
  | [] => return []
  | c :: calls => do
    let got ← c.exec t
    let rest ← session calls
    return got ++ rest

/-- The state of the bus after a session. -/
def Bus.afterSession (s : Top) (calls : List DriverCall) : Bus :=
  ((session t calls).run (Bus.start s)).2

/-- The characters that a session hands over. -/
def handedOver (s : Top) (calls : List DriverCall) : List (BitVec 8) :=
  ((session t calls).run (Bus.start s)).1

/-! ## Accesses -/

/-- What is said of the periods so far and of the core. -/
abbrev BusProp : Type := List (TopIn × Top) → Top → Prop

/-- Periods that meet `A` keep `I`. -/
def KeptBy (A : TopIn → Top → Prop) (I : BusProp) : Prop :=
  ∀ i s past, A i s → I past s → I ((i, s) :: past) (s.period i)

/-- The bus satisfies `I`, and the settings are `g`. -/
def At (I : BusProp) (g : Settings) (b : Bus) : Prop := I b.past b.top ∧ b.top.settings = g

/-- The bus satisfies `I` between two calls, where THR is not hidden by the divisor latch. -/
def Between (I : BusProp) (b : Bus) : Prop := I b.past b.top ∧ b.top.settings.dlab = false

variable {t} {A B : TopIn → Top → Prop} {I J : BusProp} {g : Settings}

theorem KeptBy.mono (h : KeptBy B I) (hAB : ∀ i s, A i s → B i s) : KeptBy A I :=
  fun i s past hA ↦ h i s past (hAB i s hA)

/-- The bus when an access begins. -/
theorem KeptBy.ready (h : KeptBy A I) (hidle : ∀ sin s, A (Top.idlePorts sin) s) {b : Bus}
    (hb : At I g b) : At I g (b.ready t) := by
  refine ⟨?_, (Bus.settings_ready b).trans hb.2⟩
  rw [Bus.ready]
  induction t.gap b.accesses with
  | zero => exact hb.1
  | succ n ih => exact h _ _ _ (hidle _ _) ih

theorem KeptBy.ioRead (h : KeptBy A I) (hidle : ∀ sin s, A (Top.idlePorts sin) s)
    (addr : BitVec 3) (hread : ∀ sin s, s.settings = g → A (Top.readPorts sin addr) s) :
    ⦃fun b => ⌜At I g b⌝⦄ ioRead t addr ⦃⇓ _ b => ⌜At I g b⌝⦄ := by
  rintro b hb
  obtain ⟨hI, hg⟩ := h.ready (t := t) hidle hb
  refine ⟨h _ _ _ (hread _ _ hg) hI, ?_⟩
  exact (settings_ioRead t addr b).trans hb.2

theorem KeptBy.ioWrite (h : KeptBy A I) (hidle : ∀ sin s, A (Top.idlePorts sin) s)
    (addr : BitVec 3) (data : BitVec 8)
    (hwrite : ∀ sin s, s.settings = g → A (Top.writePorts sin addr data) s) :
    ⦃fun b => ⌜At I g b⌝⦄ ioWrite t addr data ⦃⇓ _ b => ⌜At I (g.write addr data) b⌝⦄ := by
  rintro b hb
  obtain ⟨hI, hg⟩ := h.ready (t := t) hidle hb
  refine ⟨h _ _ _ (hwrite _ _ hg) hI, ?_⟩
  refine (settings_ioWrite t addr data b).trans ?_
  rw [hb.2]

/-! ## Polls -/

section Loops

variable {σ : Type}

/-- A loop that reads the status: what holds after a read holds when it ends, if a read that makes
it wait leaves what holds before one.  A loop that may not read has to find it. -/
theorem pollLoop_triple {status : StateM σ (BitVec 16)} {waits : BitVec 16 → Bool}
    {P : σ → Prop} {Q : BitVec 16 → σ → Prop} {timeout res : BitVec 16}
    (hstatus : ⦃fun s => ⌜P s⌝⦄ status ⦃⇓ r s => ⌜Q r s⌝⦄)
    (hwaits : ∀ r s, waits r = true → Q r s → P s) :
    ⦃fun s => ⌜P s ∧ (timeout = 0 → Q res s)⌝⦄ Polling.pollLoop status waits timeout res
      ⦃⇓ r s => ⌜Q r s⌝⦄ := by
  induction hn : timeout.toNat generalizing timeout res with
  | zero =>
    obtain rfl : timeout = 0 := BitVec.eq_of_toNat_eq hn
    rw [Polling.pollLoop_zero]
    exact fun s hs ↦ hs.2 rfl
  | succ n ih =>
    have hne : timeout ≠ 0 := by
      rintro rfl
      contradiction
    have hpred : (timeout - 1).toNat = n := by bv_omega
    rw [Polling.pollLoop_of_ne hne]
    refine Triple.bind _ _ (fun s hs ↦ hstatus s hs.1) fun r ↦ ?_
    rintro s hs
    cases hr : waits r with
    | false => exact hs
    | true => exact ih hpred s ⟨hwaits r s hr hs, fun _ ↦ hs⟩

/-- What every read of the status keeps, the loop keeps. -/
theorem pollLoop_keeps {status : StateM σ (BitVec 16)} {P : σ → Prop}
    (hstatus : ⦃fun s => ⌜P s⌝⦄ status ⦃⇓ _ s => ⌜P s⌝⦄) (waits : BitVec 16 → Bool)
    (timeout res : BitVec 16) :
    ⦃fun s => ⌜P s⌝⦄ Polling.pollLoop status waits timeout res ⦃⇓ _ s => ⌜P s⌝⦄ := by
  rintro s hs
  exact pollLoop_triple hstatus (fun _ _ _ hP ↦ hP) s ⟨hs, fun _ ↦ hs⟩

end Loops

/-! ## Calls that only ask for the status -/

theorem Top.aside_readPorts (sin : Bool) (addr : BitVec 3) {s : Top}
    (hrbr : addr = regRbr → s.dlab = true) : s.Aside (readPorts sin addr) where
  res := rfl
  rbrRd := by
    show (true && !s.dlab && addr == 0) = false
    by_cases haddr : addr = regRbr
    · rw [hrbr haddr]
      rfl
    · rw [beq_false_of_ne (show addr ≠ 0 from haddr), Bool.and_false]
  thrWr := rfl
  fcr h := absurd h Bool.false_ne_true

/-- The call keeps the settings and what periods keep that leave the FIFOs and FCR aside. -/
def OnlyAsks {α : Type} (x : StateM Bus α) : Prop :=
  ∀ I g, KeptBy Top.Aside I → ⦃fun b => ⌜At I g b⌝⦄ x ⦃⇓ _ b => ⌜At I g b⌝⦄

namespace OnlyAsks

variable {α β : Type}

theorem pure (a : α) : OnlyAsks (pure a) := fun _ _ _ _ hb ↦ hb

theorem bind {x : StateM Bus α} {f : α → StateM Bus β} (hx : OnlyAsks x)
    (hf : ∀ a, OnlyAsks (f a)) : OnlyAsks (x >>= f) :=
  fun I g hI ↦ Triple.bind _ _ (hx I g hI) fun a ↦ hf a I g hI

theorem map (f : α → β) {x : StateM Bus α} (hx : OnlyAsks x) : OnlyAsks (f <$> x) :=
  hx.bind fun a ↦ pure (f a)

theorem pollLoop {status : StateM Bus (BitVec 16)} (h : OnlyAsks status) (waits : BitVec 16 → Bool)
    (timeout res : BitVec 16) : OnlyAsks (Polling.pollLoop status waits timeout res) :=
  fun I g hI ↦ pollLoop_keeps (h I g hI) waits timeout res

variable (t)

theorem getLineStatus : OnlyAsks (Uart.getLineStatus (Bus.io t)) := by
  rintro I g hI
  exact hI.ioRead Top.aside_idlePorts regLsr fun sin s _ ↦ Top.aside_readPorts sin regLsr fun h ↦
    absurd h (by decide)

theorem rxFifoEmpty : OnlyAsks (Uart.rxFifoEmpty (Bus.io t)) :=
  (getLineStatus t).bind fun _ ↦ pure _

theorem txFifoEmpty : OnlyAsks (Uart.txFifoEmpty (Bus.io t)) :=
  (getLineStatus t).bind fun _ ↦ pure _

theorem isOverrun : OnlyAsks (Uart.isOverrun (Bus.io t)) :=
  (getLineStatus t).bind fun _ ↦ pure _

theorem pollRx (timeout res : BitVec 16) : OnlyAsks (Polling.pollRx (Bus.io t) timeout res) :=
  (((rxFifoEmpty t).map _).pollLoop _ timeout res).bind fun _ ↦ pure _

theorem pollTx (timeout res : BitVec 16) : OnlyAsks (Polling.pollTx (Bus.io t) timeout res) :=
  ((txFifoEmpty t).map _).pollLoop _ timeout res

theorem pollTxFinished (timeout res : BitVec 16) :
    OnlyAsks (Polling.pollTxFinished (Bus.io t) timeout res) :=
  ((getLineStatus t).map _).pollLoop _ timeout res

end OnlyAsks

/-! ## Calls that set the divisor -/

variable (t)

theorem KeptBy.ioWrite_aside (hI : KeptBy Top.Aside I) (addr : BitVec 3) (data : BitVec 8)
    (hfcr : addr ≠ regFcr) (hthr : addr = regThr → g.dlab = true) :
    ⦃fun b => ⌜At I g b⌝⦄ Uart.ioWrite t addr data ⦃⇓ _ b => ⌜At I (g.write addr data) b⌝⦄ := by
  refine hI.ioWrite Top.aside_idlePorts addr data fun sin s hg ↦
    Top.aside_writePorts sin data hfcr ?_
  rintro haddr
  rw [← Top.dlab_settings, hg]
  exact hthr haddr

theorem KeptBy.ioRead_aside (hI : KeptBy Top.Aside I) (addr : BitVec 3)
    (haddr : addr = regRbr → g.dlab = true) :
    ⦃fun b => ⌜At I g b⌝⦄ Uart.ioRead t addr ⦃⇓ _ b => ⌜At I g b⌝⦄ := by
  refine hI.ioRead Top.aside_idlePorts addr fun sin s hg ↦ Top.aside_readPorts sin addr ?_
  rintro h
  rw [← Top.dlab_settings, hg]
  exact haddr h

theorem KeptBy.ioWrite_lcr (hI : KeptBy Top.Aside I) (g : Settings) (v : BitVec 8) :
    ⦃fun b => ⌜At I g b⌝⦄ Uart.ioWrite t regLcr v ⦃⇓ _ b => ⌜At I (g.withLcr v) b⌝⦄ := by
  rw [← Settings.write_lcr]
  exact hI.ioWrite_aside t regLcr v (by decide) (fun h ↦ absurd h (by decide))

/-- `set_baud_rate` leaves DLAB as the value for LCR has it. -/
theorem KeptBy.setBaudRate (hI : KeptBy Top.Aside I) (d : BitVec 16) {v : BitVec 8}
    (hv : v.getLsbD 7 = false) :
    ⦃fun b => ⌜Between I b⌝⦄ Uart.setBaudRate t d v ⦃⇓ _ b => ⌜Between I b⌝⦄ := by
  rintro b ⟨hb, -⟩
  have hdll := hI.ioWrite_aside t (g := b.top.settings.withLcr 0x80) regDll
    (d.setWidth 8) (by decide) fun _ ↦ Settings.dlab_withLcr _
  have hdlm := hI.ioWrite_aside t
    (g := (b.top.settings.withLcr 0x80).write regDll (d.setWidth 8)) regDlm
    ((d >>> 8).setWidth 8) (by decide) fun h ↦ absurd h (by decide)
  obtain ⟨hkept, hset⟩ := Triple.bind _ _ (hI.ioWrite_lcr t b.top.settings 0x80) (fun _ ↦
    Triple.bind _ _ hdll fun _ ↦ Triple.bind _ _ hdlm fun _ ↦ hI.ioWrite_lcr t _ v) b ⟨hb, rfl⟩
  refine ⟨hkept, ?_⟩
  rw [hset]
  exact hv

/-- `get_divisor` puts LCR back as it was. -/
theorem KeptBy.getDivisor (hI : KeptBy Top.Aside I) :
    ⦃fun b => ⌜Between I b⌝⦄ Uart.getDivisor t ⦃⇓ _ b => ⌜Between I b⌝⦄ := by
  rintro b ⟨hb, hdlab⟩
  have hset := (getDivisor_run t b).2
  have hread : ⦃fun b' => ⌜At I b.top.settings b'⌝⦄ Uart.ioRead t regLcr
      ⦃⇓ _ b' => ⌜At I b.top.settings b'⌝⦄ :=
    hI.ioRead_aside t regLcr (fun h ↦ absurd h (by decide))
  have hdll := hI.ioRead_aside t (g := b.top.settings.withLcr 0x80) regDll
    fun _ ↦ Settings.dlab_withLcr _
  have hdlm := hI.ioRead_aside t (g := b.top.settings.withLcr 0x80) regDlm
    fun _ ↦ Settings.dlab_withLcr _
  have hkept : ⦃fun b' => ⌜At I b.top.settings b'⌝⦄ Uart.getDivisor t
      ⦃⇓ _ b' => ⌜I b'.past b'.top⌝⦄ :=
    Triple.bind _ _ hread fun lcr ↦ Triple.bind _ _ (hI.ioWrite_lcr t b.top.settings 0x80) fun _ ↦
      Triple.bind _ _ hdll fun lo ↦ Triple.bind _ _ hdlm fun hi ↦
        Triple.bind _ _ (hI.ioWrite_lcr t (b.top.settings.withLcr 0x80) lcr) fun _ _ h ↦ h.1
  refine ⟨hkept b ⟨hb, rfl⟩, ?_⟩
  show ((Uart.getDivisor t).run b).2.top.settings.dlab = false
  rw [hset]
  exact hdlab

/-! ## Calls that leave the FIFOs aside -/

theorem OnlyAsks.between {α : Type} {x : StateM Bus α} (hx : OnlyAsks x)
    (hI : KeptBy Top.Aside I) :
    ⦃fun b => ⌜Between I b⌝⦄ x ⦃⇓ _ b => ⌜Between I b⌝⦄ := by
  rintro b ⟨hb, hdlab⟩
  obtain ⟨hkept, hset⟩ := hx I b.top.settings hI b ⟨hb, rfl⟩
  refine ⟨hkept, ?_⟩
  rw [hset]
  exact hdlab

/-- A call that neither reads RBR nor writes THR or FCR, and leaves DLAB low. -/
def DriverCall.LeavesAside : DriverCall → Prop
  | setBaudRate _ lcr => lcr.getLsbD 7 = false
  | setFifoMode _ | flushFifo | txByte _ _ _ | sendCh _ | sendStr _ | send _ | recvCh | recv _ =>
    False
  | _ => True

/-- A call of which nothing is handed over. -/
theorem exec_of_keeps {α : Type} {x : StateM Bus α} {P Q : Bus → Prop}
    (h : ⦃fun b => ⌜P b⌝⦄ x ⦃⇓ _ b => ⌜Q b⌝⦄) :
    ⦃fun b => ⌜P b⌝⦄ (do let _ ← x; return ([] : List (BitVec 8)))
      ⦃⇓ got b => ⌜got = [] ∧ Q b⌝⦄ :=
  Triple.bind _ _ h fun _ _ hb ↦ ⟨rfl, hb⟩

theorem KeptBy.exec_aside (hI : KeptBy Top.Aside I) {c : DriverCall} (hc : c.LeavesAside) :
    ⦃fun b => ⌜Between I b⌝⦄ c.exec t ⦃⇓ got b => ⌜got = [] ∧ Between I b⌝⦄ := by
  cases c with
  | setBaudRate d lcr => exact exec_of_keeps (hI.setBaudRate t d hc)
  | getDivisor => exact exec_of_keeps (hI.getDivisor t)
  | getLineStatus => exact exec_of_keeps ((OnlyAsks.getLineStatus t).between hI)
  | rxFifoEmpty => exact exec_of_keeps ((OnlyAsks.rxFifoEmpty t).between hI)
  | txFifoEmpty => exact exec_of_keeps ((OnlyAsks.txFifoEmpty t).between hI)
  | isOverrun => exact exec_of_keeps ((OnlyAsks.isOverrun t).between hI)
  | pollRx timeout res => exact exec_of_keeps ((OnlyAsks.pollRx t timeout res).between hI)
  | pollTx timeout res => exact exec_of_keeps ((OnlyAsks.pollTx t timeout res).between hI)
  | pollTxFinished timeout res =>
    exact exec_of_keeps ((OnlyAsks.pollTxFinished t timeout res).between hI)
  | setFifoMode | flushFifo | txByte | sendCh | sendStr | send | recvCh | recv => cases hc

/-! ## Histories -/

/-- What `out` gives in the periods of a run, oldest first. -/
def Bus.log {α : Type} (out : TopIn → Top → List α) : List (TopIn × Top) → List α
  | [] => []
  | p :: past => log out past ++ out p.1 p.2

end RtlCores.Uart
