import RtlCores.Uart.Overrun

/-!
# The driver (`UART/driver/uart_driver.cpp`)

The driver makes its accesses one after another, each in one period; before an access the bus may
be idle, and the line does what it likes all the time.  `Settings` is what the registers are for a
driver that writes them, and every access does to the registers of `uart_top` what it does to
the settings: among other things, a write to DLM is also a write to IER.
-/

namespace RtlCores.Uart

open RtlCores.Lib RtlCores.Modules

/-! ## The bus -/

/-- How a run of the driver meets the core: the level of the line in each period, and the number of
idle periods before each access. -/
structure Timing where
  line : Nat → Bool
  gap : Nat → Nat

/-- The core, the number of accesses so far, and the periods so far, the latest first, each with
its ports and the state at its beginning. -/
structure Bus where
  top : Top
  accesses : Nat
  past : List (TopIn × Top)

namespace Bus

variable (t : Timing) (ports : Bool → TopIn) (b : Bus)

/-- The bus before the first access. -/
def start (s : Top) : Bus := ⟨s, 0, []⟩

/-- The ports of the next period. -/
def next : TopIn := ports (t.line b.past.length)

/-- One period. -/
def period : Bus :=
  { b with
    top := b.top.period (b.next t ports)
    past := (b.next t ports, b.top) :: b.past }

/-- Idle periods. -/
def wait : Nat → Bus
  | 0 => b
  | n + 1 => (wait n).period t Top.idlePorts

/-- The bus when an access begins. -/
def ready : Bus := b.wait t (t.gap b.accesses)

/-- An access. -/
def access : Bus := { (b.ready t).period t ports with accesses := b.accesses + 1 }

/-- The data that the core drives at the end of a read. -/
def sample : BitVec 8 :=
  ((b.ready t).top.mid ((b.ready t).next t ports)).readData ((b.ready t).next t ports)

end Bus

/-! ## The driver -/

variable (t : Timing)

def ioWrite (addr : BitVec 3) (data : BitVec 8) : StateM Bus Unit :=
  modify fun b ↦ b.access t fun sin ↦ Top.writePorts sin addr data

def ioRead (addr : BitVec 3) : StateM Bus (BitVec 8) :=
  modifyGet fun b ↦
    (b.sample t fun sin ↦ Top.readPorts sin addr, b.access t fun sin ↦ Top.readPorts sin addr)

/-- The accesses of `set_baud_rate`, with the divisor and the value for LCR that it works out. -/
def setBaudRate (freqDivisor : BitVec 16) (lcr : BitVec 8) : StateM Bus Unit := do
  ioWrite t regLcr 0x80
  ioWrite t regDll (freqDivisor.setWidth 8)
  ioWrite t regDlm ((freqDivisor >>> 8).setWidth 8)
  ioWrite t regLcr lcr

/-- The two reads may come in either order in the source. -/
def getDivisor : StateM Bus (BitVec 16) := do
  let lcr ← ioRead t regLcr
  ioWrite t regLcr 0x80
  let lo ← ioRead t regDll
  let hi ← ioRead t regDlm
  ioWrite t regLcr lcr
  return lo.setWidth 16 ||| hi.setWidth 16 <<< 8

/-! ## The registers that a driver sets -/

/-- The registers that keep what is written to them. -/
structure Settings where
  lcr : BitVec 8
  ier : BitVec 8
  mcr : BitVec 8
  dll : BitVec 8
  dlm : BitVec 8

namespace Settings

def dlab (g : Settings) : Bool := g.lcr.getLsbD 7

/-- A write access.  The latches heed DLAB, and IER does not. -/
def write (addr : BitVec 3) (data : BitVec 8) (g : Settings) : Settings where
  lcr := if addr = regLcr then data else g.lcr
  ier := if addr = regIer then data &&& 0x0F else g.ier
  mcr := if addr = regMcr then data &&& 0x3F else g.mcr
  dll := if g.dlab && addr == regDll then data else g.dll
  dlm := if g.dlab && addr == regDlm then data else g.dlm

/-- The settings with another value in LCR. -/
def withLcr (data : BitVec 8) (g : Settings) : Settings := { g with lcr := data }

theorem write_lcr (data : BitVec 8) (g : Settings) : g.write regLcr data = g.withLcr data := by
  simp [write, withLcr, regLcr, regIer, regMcr, regDll, regDlm]

theorem dlab_withLcr (g : Settings) : (g.withLcr 0x80).dlab = true := by
  show (0x80#8).getLsbD 7 = true
  decide

end Settings

namespace Top

def settings (s : Top) : Settings := ⟨s.lcr, s.ier, s.mcr, s.dll, s.dlm⟩

theorem dlab_settings (s : Top) : s.settings.dlab = s.dlab := rfl

variable {i : TopIn} {s : Top}

/-- A period without a write keeps the settings. -/
theorem settings_period_of_not_wen (hres : i.res = false) (hwen : wen i = false) :
    (s.period i).settings = s.settings := by
  have hwritten : ∀ a x old, written i a x old = old := by
    intro a x old
    rw [written, hres, hwen]
    rfl
  have hload : s.baudLoad i = false := by
    rw [baudLoad, hwen]
    rfl
  rw [settings, period_lcr, period_ier, period_mcr, period_dll i s hres, period_dlm i s hres,
    hwritten, hwritten, hwritten, hload]
  rfl

theorem settings_period_write (sin : Bool) (addr : BitVec 3) (data : BitVec 8) (s : Top) :
    (s.period (writePorts sin addr data)).settings = s.settings.write addr data := by
  have hwritten : ∀ a x old, written (writePorts sin addr data) a x old =
      if addr = a then x else old := by
    intro a x old
    show (if addr == a then x else old) = _
    simp only [beq_iff_eq]
  rw [settings, period_lcr, period_ier, period_mcr, period_dll _ s rfl, period_dlm _ s rfl,
    hwritten, hwritten, hwritten]
  rfl

end Top

namespace Bus

variable {t}

@[simp] theorem settings_wait (n : Nat) (b : Bus) :
    (b.wait t n).top.settings = b.top.settings := by
  induction n with
  | zero => rfl
  | succ n ih => exact (Top.settings_period_of_not_wen rfl rfl).trans ih

theorem settings_ready (b : Bus) : (b.ready t).top.settings = b.top.settings :=
  settings_wait (t.gap b.accesses) b

end Bus

@[simp] theorem settings_ioWrite (addr : BitVec 3) (data : BitVec 8) (b : Bus) :
    ((ioWrite t addr data).run b).2.top.settings = b.top.settings.write addr data := by
  refine (Top.settings_period_write _ addr data _).trans ?_
  rw [Bus.settings_ready]

@[simp] theorem settings_ioRead (addr : BitVec 3) (b : Bus) :
    ((ioRead t addr).run b).2.top.settings = b.top.settings :=
  (Top.settings_period_of_not_wen rfl rfl).trans (Bus.settings_ready b)

theorem setBaudRate_run (freqDivisor : BitVec 16) (lcr : BitVec 8) (b : Bus) :
    ((setBaudRate t freqDivisor lcr).run b).2 =
      ((ioWrite t regLcr lcr).run
        ((ioWrite t regDlm ((freqDivisor >>> 8).setWidth 8)).run
          ((ioWrite t regDll (freqDivisor.setWidth 8)).run
            ((ioWrite t regLcr 0x80).run b).2).2).2).2 := rfl

/-- The settings after `set_baud_rate`. -/
theorem settings_setBaudRate (freqDivisor : BitVec 16) (lcr : BitVec 8) (b : Bus) :
    ((setBaudRate t freqDivisor lcr).run b).2.top.settings =
      { lcr := lcr
        ier := (freqDivisor >>> 8).setWidth 8 &&& 0x0F
        mcr := b.top.mcr
        dll := freqDivisor.setWidth 8
        dlm := (freqDivisor >>> 8).setWidth 8 } := by
  rw [setBaudRate_run, settings_ioWrite, settings_ioWrite, settings_ioWrite, settings_ioWrite]
  simp [Settings.write, Settings.dlab, regLcr, regDll, regDlm, regIer, regMcr, Top.settings]

/-! ## Reading the divisor back -/

theorem ioRead_lcr (b : Bus) : ((ioRead t regLcr).run b).1 = b.top.lcr :=
  congrArg Settings.lcr (Bus.settings_ready b)

theorem ioRead_dll {b : Bus} (h : b.top.settings.dlab = true) :
    ((ioRead t regDll).run b).1 = b.top.dll := by
  have hsettings := Bus.settings_ready (t := t) b
  have hdlab : (b.ready t).top.dlab = true := by rw [← Top.dlab_settings, hsettings, h]
  show (if (b.ready t).top.dlab then (b.ready t).top.dll else _) = _
  rw [hdlab, if_pos rfl]
  exact congrArg Settings.dll hsettings

theorem ioRead_dlm {b : Bus} (h : b.top.settings.dlab = true) :
    ((ioRead t regDlm).run b).1 = b.top.dlm := by
  have hsettings := Bus.settings_ready (t := t) b
  have hdlab : (b.ready t).top.dlab = true := by rw [← Top.dlab_settings, hsettings, h]
  show (if (b.ready t).top.dlab then (b.ready t).top.dlm else _) = _
  rw [hdlab, if_pos rfl]
  exact congrArg Settings.dlm hsettings

/-- `get_divisor` returns what the latches hold, and leaves all settings as they were. -/
theorem getDivisor_run (b : Bus) :
    ((getDivisor t).run b).1 = b.top.dll.setWidth 16 ||| b.top.dlm.setWidth 16 <<< 8 ∧
      ((getDivisor t).run b).2.top.settings = b.top.settings := by
  let b₁ := ((ioRead t regLcr).run b).2
  let b₂ := ((ioWrite t regLcr 0x80).run b₁).2
  let b₃ := ((ioRead t regDll).run b₂).2
  let b₄ := ((ioRead t regDlm).run b₃).2
  have h₂ : b₂.top.settings = b.top.settings.withLcr 0x80 := by
    rw [settings_ioWrite, settings_ioRead, Settings.write_lcr]
  have h₃ : b₃.top.settings = b.top.settings.withLcr 0x80 := (settings_ioRead t _ _).trans h₂
  have h₄ : b₄.top.settings = b.top.settings.withLcr 0x80 := (settings_ioRead t _ _).trans h₃
  have hdll : ((ioRead t regDll).run b₂).1 = b.top.dll := by
    rw [ioRead_dll t (by rw [h₂, Settings.dlab_withLcr])]
    exact congrArg Settings.dll h₂
  have hdlm : ((ioRead t regDlm).run b₃).1 = b.top.dlm := by
    rw [ioRead_dlm t (by rw [h₃, Settings.dlab_withLcr])]
    exact congrArg Settings.dlm h₃
  refine ⟨?_, ?_⟩
  · show ((ioRead t regDll).run b₂).1.setWidth 16 |||
      ((ioRead t regDlm).run b₃).1.setWidth 16 <<< 8 = _
    rw [hdll, hdlm]
  · show ((ioWrite t regLcr ((ioRead t regLcr).run b).1).run b₄).2.top.settings = _
    rw [settings_ioWrite, h₄, ioRead_lcr, Settings.write_lcr]
    rfl

theorem append_halves (d : BitVec 16) : (d >>> 8).setWidth 8 ++ d.setWidth 8 = d := by
  refine BitVec.eq_of_getLsbD_eq fun k hk ↦ ?_
  rw [BitVec.getLsbD_append]
  by_cases h : k < 8
  · simp [h]
  · simp [h, show k - 8 < 8 by omega, show 8 + (k - 8) = k by omega]

theorem halves_eq (d : BitVec 16) :
    (d.setWidth 8).setWidth 16 ||| ((d >>> 8).setWidth 8).setWidth 16 <<< 8 = d := by
  refine BitVec.eq_of_getLsbD_eq fun k hk ↦ ?_
  by_cases h : k < 8
  · simp [h, hk]
  · simp [h, hk, show k - 8 < 8 by omega, show 8 + (k - 8) = k by omega]

end RtlCores.Uart
