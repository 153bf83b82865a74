import RtlCores.Riscv.Run

/-!
# Reset

`res_n` may fall and rise anywhere in the clock period, so runs are followed here from edge
to edge, together with the level of `clk`.  Reset clears the registers but neither of the two
read latches: the one of the instruction memory still drives the decoder until the first
fetch, and the one of the data memory is shown by a `LOAD-FP` word, which reads no memory,
until a load has read the memory and so renewed it.
-/

namespace RtlCores.Riscv

open RtlCores.Lib RtlCores.Modules

variable {xlen depth : Nat}

namespace State

/-! ## Edges -/

/-- The next edge of `clk` with `res_n` high; the first component is the level of `clk`. -/
def tick (p : Inputs xlen) (x : Bool × State xlen depth) : Bool × State xlen depth :=
  (!x.1, if x.1 then x.2.negedge p else x.2.posedge p)

/-- The next edge of `clk` with `res_n` low. -/
def tickInReset (x : Bool × State xlen depth) (p : Inputs xlen) : Bool × State xlen depth :=
  (!x.1, if x.1 then x.2.negedgeInReset p else x.2.posedgeInReset p)

/-- The state after the edges of a reset pulse, one input an edge. -/
def resetPulse (ps : List (Inputs xlen)) (x : Bool × State xlen depth) :
    Bool × State xlen depth :=
  ps.foldl tickInReset x

/-- `s` in reset, with the history bit cleared and the memories of `s₀`. -/
structure Cleared (s₀ s : State xlen depth) : Prop where
  core : s.core = { pc := instBaseAddress, imemReq := false, csr := Csr.reset false }
  regMem : s.regMem = fun _ ↦ 0
  imem : s.instructionMem.memx = s₀.instructionMem.memx
  dmem : s.dataMem.memx = s₀.dataMem.memx

/-- What any edge in reset leaves, the history bit aside. -/
theorem tickInReset_held (s₀ : State xlen depth) (x : Bool × State xlen depth) (p : Inputs xlen)
    (himem : x.2.instructionMem.memx = s₀.instructionMem.memx)
    (hdmem : x.2.dataMem.memx = s₀.dataMem.memx) :
    (tickInReset x p).2.regMem = (fun _ ↦ 0) ∧
      (tickInReset x p).2.instructionMem.memx = s₀.instructionMem.memx ∧
      (tickInReset x p).2.dataMem.memx = s₀.dataMem.memx := by
  obtain ⟨level, s⟩ := x
  have hblock : Memory.wrEn (s.asyncReset.dmemReqPorts p false) = false := rfl
  cases level with
  | false => exact ⟨rfl, himem, hdmem⟩
  | true =>
    refine ⟨rfl, himem, ?_⟩
    show (s.asyncReset.dataMem.clock false (s.asyncReset.dmemReqPorts p false)).memx = _
    rw [Memory.clock_of_wrEn_false _ _ _ hblock]
    exact hdmem

/-- A posedge in reset clears the history bit, since `imem_req` is low. -/
theorem tickInReset_cleared (s₀ : State xlen depth) (x : Bool × State xlen depth)
    (p : Inputs xlen) (himem : x.2.instructionMem.memx = s₀.instructionMem.memx)
    (hdmem : x.2.dataMem.memx = s₀.dataMem.memx)
    (h : x.1 = false ∨ x.2.core.csr.irqStarted = false) :
    Cleared s₀ (tickInReset x p).2 := by
  obtain ⟨hregs, hi, hd⟩ := tickInReset_held s₀ x p himem hdmem
  refine ⟨?_, hregs, hi, hd⟩
  obtain ⟨level, s⟩ := x
  cases level with
  | false => rfl
  | true =>
    rcases h with hlevel | hstarted
    · contradiction
    · show s.asyncReset.core = _
      rw [asyncReset, show s.core.csr.irqStarted = false from hstarted]

/-- A reset pulse of a full clock period, from whatever state and level. -/
theorem resetPulse_cleared (ps : List (Inputs xlen)) (hps : 2 ≤ ps.length) (level : Bool)
    (s : State xlen depth) : Cleared s (resetPulse ps (level, s)).2 := by
  rcases ps with _ | ⟨p, _ | ⟨q, ps⟩⟩
  · contradiction
  · simp at hps
  · -- one of the first two edges is a posedge
    have htwo : Cleared s (tickInReset (tickInReset (level, s) p) q).2 := by
      cases level with
      | true =>
        obtain ⟨-, hi, hd⟩ := tickInReset_held s (true, s) p rfl rfl
        exact tickInReset_cleared s _ q hi hd (.inl rfl)
      | false =>
        have hone := tickInReset_cleared s (false, s) p rfl rfl (.inl rfl)
        refine tickInReset_cleared s _ q hone.imem hone.dmem (.inr ?_)
        rw [hone.core]
        rfl
    -- the later edges keep what the first two have cleared
    have hrest : ∀ (ps : List (Inputs xlen)) (x : Bool × State xlen depth), Cleared s x.2 →
        Cleared s (resetPulse ps x).2 := by
      intro ps
      induction ps with
      | nil => exact fun _ h ↦ h
      | cons p ps ih =>
        intro x h
        refine ih _ (tickInReset_cleared s x p h.imem h.dmem (.inr ?_))
        rw [h.core]
        rfl
    exact hrest ps _ htwo

/-- Equal registers and memory bytes, and read latches that cannot tell the two apart: the
one of the instruction memory is open or holds the same word, the one of the data memory
holds the same word if `d`. -/
structure Agree (d : Prop) (s t : State xlen depth) : Prop where
  core : s.core = t.core
  regMem : s.regMem = t.regMem
  imem : s.instructionMem.memx = t.instructionMem.memx
  dmem : s.dataMem.memx = t.dataMem.memx
  imemLatch : s.core.imemReq = true ∨ s.instructionMem.regRd = t.instructionMem.regRd
  dmemLatch : d → s.dataMem.regRd = t.dataMem.regRd

/-- A `LOAD-FP` word in flight writes no register. -/
def NoLatchRead (p : Inputs xlen) (s : State xlen depth) : Prop :=
  s.dec.opcode = Opcode.iTypeFl → s.rfWrEn p = false

/-- The data memory is read, and its latch is open. -/
def ReadsData (p : Inputs xlen) (s : State xlen depth) : Prop :=
  Memory.rdEn (s.dmemReqPorts p true) = true

/-- Before the data memory is read for the first time no `LOAD-FP` word writes a register. -/
def NoLatchReadFirst (is : Nat → Inputs xlen) (x : Bool × State xlen depth) : Prop :=
  ∀ n, (run tick is x n).1 = true → (∀ m < n, ¬ReadsData (is m) (run tick is x m).2) →
    NoLatchRead (is n) (run tick is x n).2

variable {p : Inputs xlen} {d d' : Prop} {s t : State xlen depth}

namespace Agree

theorem mono (h : Agree d s t) (hd : d' → d) : Agree d' s t :=
  { h with dmemLatch := fun hd' ↦ h.dmemLatch (hd hd') }

theorem regRdNow_imem (h : Agree d s t) :
    s.instructionMem.regRdNow true (s.imemReqPorts true) =
      t.instructionMem.regRdNow true (t.imemReqPorts true) := by
  have hw : SupportedWidth 32 := by simp [SupportedWidth]
  have hports : s.imemReqPorts true = t.imemReqPorts true := by
    rw [imemReqPorts, imemReqPorts, h.core]
  rw [hports]
  cases hreq : t.core.imemReq with
  | true =>
    have hen : Memory.rdEn (t.imemReqPorts true) = true := hreq
    rw [Memory.regRdNow_eq_readBlock _ _ _ hw hen, Memory.regRdNow_eq_readBlock _ _ _ hw hen,
      h.imem]
  | false =>
    have hen : Memory.rdEn (t.imemReqPorts true) = false := hreq
    rcases h.imemLatch with hopen | hlatch
    · rw [h.core, hreq] at hopen
      contradiction
    · rw [Memory.regRdNow, Memory.regRdNow, hen]
      exact hlatch

theorem instruction (h : Agree d s t) : s.instruction = t.instruction := by
  have hports : s.imemReqPorts true = t.imemReqPorts true := by
    rw [imemReqPorts, imemReqPorts, h.core]
  rw [State.instruction, State.instruction, Memory.rdData, Memory.rdData, h.regRdNow_imem, hports]

theorem coreIn (h : Agree d s t) : s.coreIn p = t.coreIn p := by
  rw [State.coreIn, State.coreIn, h.instruction, h.regMem]

theorem dec (h : Agree d s t) : s.dec = t.dec := by
  rw [State.dec, State.dec, h.instruction]

theorem ctl (h : Agree d s t) : s.ctl = t.ctl := by
  rw [State.ctl, State.ctl, h.dec]

theorem csrIn (h : Agree d s t) : s.csrIn p = t.csrIn p := by
  rw [State.csrIn, State.csrIn, h.core, h.coreIn]

theorem aluRes (h : Agree d s t) : s.aluRes p = t.aluRes p := by
  rw [State.aluRes, State.aluRes, h.core, h.coreIn]

theorem dmemReqPorts (h : Agree d s t) : s.dmemReqPorts p = t.dmemReqPorts p := by
  funext resN
  rw [State.dmemReqPorts, State.dmemReqPorts, h.ctl, dmemAddr, dmemAddr, h.core, h.coreIn]

/-- What the data memory shows: the latches are told apart only by a read that is not
enabled. -/
theorem regRdNow_dmem (h : Agree d s t) (hd : d ∨ s.ReadsData p)
    (hw : SupportedWidth xlen) :
    s.dataMem.regRdNow false (s.dmemReqPorts p true) =
      t.dataMem.regRdNow false (t.dmemReqPorts p true) := by
  rw [ReadsData, h.dmemReqPorts] at hd
  rw [h.dmemReqPorts]
  rcases hd with hd | hen
  · have hmem : s.dataMem = t.dataMem := Memory.ext h.dmem (h.dmemLatch hd)
    rw [hmem]
  · rw [Memory.regRdNow_eq_readBlock _ _ _ hw hen, Memory.regRdNow_eq_readBlock _ _ _ hw hen,
      h.dmem]

theorem memRdData (h : Agree d s t) (hw : SupportedWidth xlen)
    (hd : d ∨ s.ReadsData p) : s.memRdData p = t.memRdData p := by
  have haddr : s.dmemAddr p = t.dmemAddr p := by
    rw [dmemAddr, dmemAddr, h.core, h.coreIn]
  rw [State.memRdData, State.memRdData, Memory.rdData, Memory.rdData, h.regRdNow_dmem hd hw,
    haddr, h.dmemReqPorts]

/-- The value written to a register, unless it is a latched one. -/
theorem rfWrData (h : Agree d s t) (hw : SupportedWidth xlen)
    (hd : d ∨ s.dec.opcode ≠ Opcode.iTypeFl) : s.rfWrData p = t.rfWrData p := by
  rw [State.rfWrData, State.rfWrData, ← h.core, ← h.coreIn]
  by_cases hsel : s.ctl.rfWrDataSel = .mem
  · have hread : d ∨ s.ReadsData p := by
      rcases hd with hd | hne
      · exact .inl hd
      · right
        have hload : s.dec.opcode = Opcode.iTypeLoad := by
          rcases rfWrDataSelOf_eq_mem hsel with hload | hfl
          · exact hload
          · exact absurd hfl hne
        have hreq : s.ctl.dmemReq = true := control_dmemReq_of_load hload
        have hwr : s.ctl.dmemWr = false := by
          rw [ctl_dmemWr, hload]
          rfl
        show (s.ctl.dmemReq && !s.ctl.dmemWr) = true
        rw [hreq, hwr]
        rfl
    rw [h.memRdData hw hread]
  · exact Core.rfWrData_of_ne_mem s.core (s.coreIn p) hsel _ _

/-- Both write the same registers at a negedge. -/
theorem regMem_write (h : Agree d s t) (hw : SupportedWidth xlen) (hd : d ∨ s.NoLatchRead p) :
    s.regMem.write (s.rfWrEn p) s.dec.rdAddr (s.rfWrData p) =
      t.regMem.write (t.rfWrEn p) t.dec.rdAddr (t.rfWrData p) := by
  have hen : s.rfWrEn p = t.rfWrEn p := by
    rw [State.rfWrEn, State.rfWrEn, h.core, h.coreIn]
  rw [← hen, ← h.dec, ← h.regMem]
  cases hwr : s.rfWrEn p with
  | false => rw [RegFile.write_false, RegFile.write_false]
  | true =>
    have hdata : d ∨ s.dec.opcode ≠ Opcode.iTypeFl := by
      rcases hd with hd | hsafe
      · exact .inl hd
      · right
        intro hfl
        rw [hsafe hfl] at hwr
        contradiction
    rw [h.rfWrData hw hdata]

theorem negedge (h : Agree d s t) (hw : SupportedWidth xlen) (hd : d ∨ s.NoLatchRead p) :
    Agree (d ∨ s.ReadsData p) (s.negedge p) (t.negedge p) where
  core := by rw [State.negedge, State.negedge, h.core, h.csrIn, h.aluRes]
  regMem := h.regMem_write hw hd
  imem := h.imem
  dmem := by
    show (s.dataMem.clock false (s.dmemReqPorts p true)).memx =
      (t.dataMem.clock false (t.dmemReqPorts p true)).memx
    rw [Memory.clock, Memory.clock, h.dmem, h.dmemReqPorts]
  imemLatch := .inr h.regRdNow_imem
  dmemLatch hd := h.regRdNow_dmem hd hw

theorem posedge (h : Agree d s t) (hw : SupportedWidth xlen) :
    Agree (d ∨ s.ReadsData p) (s.posedge p) (t.posedge p) where
  core := by
    rw [State.posedge, State.posedge, State.nextPc, State.nextPc, h.core, h.coreIn, h.csrIn]
  regMem := h.regMem
  imem := h.imem
  dmem := h.dmem
  imemLatch := .inr h.regRdNow_imem
  dmemLatch hd := h.regRdNow_dmem hd hw

/-- One edge keeps two runs in agreement, and a read of the data memory renews both latches. -/
theorem tick (hw : SupportedWidth xlen) {x y : Bool × State xlen depth} (hxy : x.1 = y.1)
    (h : Agree d x.2 y.2) (hd : x.1 = true → d ∨ x.2.NoLatchRead p) :
    (tick p x).1 = (tick p y).1 ∧ Agree (d ∨ x.2.ReadsData p) (tick p x).2 (tick p y).2 := by
  obtain ⟨level, s⟩ := x
  obtain ⟨level', t⟩ := y
  obtain rfl : level = level' := hxy
  refine ⟨rfl, ?_⟩
  cases level with
  | true => exact h.negedge hw (hd rfl)
  | false => exact h.posedge hw

/-- So does any number of them: what the latches hold does not matter before a read and is the
same after it. -/
theorem run (hw : SupportedWidth xlen) {x y : Bool × State xlen depth} (hxy : x.1 = y.1)
    (h : Agree d x.2 y.2) {is : Nat → Inputs xlen} (hd : d ∨ NoLatchReadFirst is x) (n : Nat) :
    (Lib.run State.tick is x n).1 = (Lib.run State.tick is y n).1 ∧
      Agree (d ∨ ∃ m < n, ReadsData (is m) (Lib.run State.tick is x m).2)
        (Lib.run State.tick is x n).2 (Lib.run State.tick is y n).2 := by
  induction n with
  | zero =>
    refine ⟨hxy, h.mono fun hor ↦ hor.resolve_right ?_⟩
    rintro ⟨m, hm, -⟩
    exact absurd hm (Nat.not_lt_zero m)
  | succ n ih =>
    obtain ⟨hlevel, hagree⟩ := ih
    have hsafe : (Lib.run State.tick is x n).1 = true →
        (d ∨ ∃ m < n, ReadsData (is m) (Lib.run State.tick is x m).2) ∨
          NoLatchRead (is n) (Lib.run State.tick is x n).2 := by
      intro hhigh
      by_cases hopen : d ∨ ∃ m < n, ReadsData (is m) (Lib.run State.tick is x m).2
      · exact .inl hopen
      · obtain ⟨hnd, hnone⟩ := not_or.mp hopen
        exact .inr (hd.resolve_left hnd n hhigh fun m hm hread ↦ hnone ⟨m, hm, hread⟩)
    obtain ⟨hlevel', hagree'⟩ := hagree.tick hw hlevel hsafe
    refine ⟨hlevel', hagree'.mono ?_⟩
    rintro (hdd | ⟨m, hm, hread⟩)
    · exact .inl (.inl hdd)
    · rcases Nat.lt_succ_iff_lt_or_eq.mp hm with hlt | rfl
      · exact .inl (.inr ⟨m, hlt, hread⟩)
      · exact .inr hread

end Agree

/-! ## After reset -/

/-- The word held by the closed instruction latch writes nothing: no register, no memory and
no CSR. -/
structure Quiet (p : Inputs xlen) (s : State xlen depth) : Prop where
  irqStart : s.irqStart p = false
  irqStop : s.irqStop p = false
  wrEn : (s.csrIn p).wrEn = false
  rfWrEn : s.rfWrEn p = false
  opcode : s.dec.opcode ≠ Opcode.sType

namespace Cleared

variable {s₀ t₀ : State xlen depth}

/-- A quiet word leaves the reset state as it is. -/
theorem negedge (h : Cleared s₀ s) (hq : Quiet p s) : Cleared s₀ (s.negedge p) where
  core := by
    have hcsr : (s.negedge p).core.csr = s.core.csr :=
      Csr.negedge_of_idle _ _ _ hq.irqStart hq.irqStop hq.wrEn
    show { s.core with csr := (s.negedge p).core.csr } = _
    rw [hcsr]
    exact h.core
  regMem := by rw [negedge_regMem, hq.rfWrEn, RegFile.write_false, h.regMem]
  imem := h.imem
  dmem := (cycle_dataMem_of_ne_store p s hq.opcode).trans h.dmem

/-- The first posedge fetches from `INST_BASE_ADDRESS`. -/
theorem posedge_core (h : Cleared s₀ s) :
    (s.posedge p).core = { pc := instBaseAddress, imemReq := true, csr := Csr.reset false } := by
  have hreq : s.core.imemReq = false := by rw [h.core]
  have hin : (s.csrIn p).imemReq = false := hreq
  have hinst : Core.instReq s.core (s.coreIn p) = true := by
    rw [Core.instReq, h.core]
    rfl
  rw [posedge, hreq, hinst, Csr.posedge, hin, Bool.false_and, h.core]
  rfl

/-- Two states just out of reset agree once a posedge has opened the instruction memory. -/
theorem posedge (hs : Cleared s₀ s) (ht : Cleared t₀ t)
    (himem : s₀.instructionMem.memx = t₀.instructionMem.memx)
    (hdmem : s₀.dataMem.memx = t₀.dataMem.memx)
    (hd : d → (s.posedge p).dataMem.regRd = (t.posedge p).dataMem.regRd) :
    Agree d (s.posedge p) (t.posedge p) where
  core := by rw [hs.posedge_core, ht.posedge_core]
  regMem := by
    show s.regMem = t.regMem
    rw [hs.regMem, ht.regMem]
  imem := by
    show s.instructionMem.memx = t.instructionMem.memx
    rw [hs.imem, ht.imem, himem]
  dmem := by
    show s.dataMem.memx = t.dataMem.memx
    rw [hs.dmem, ht.dmem, hdmem]
  imemLatch := .inl (by rw [hs.posedge_core])
  dmemLatch := hd

end Cleared

end State

end RtlCores.Riscv
