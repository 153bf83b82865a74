import RtlCores.Lib.Program
import RtlCores.Riscv.Halt
import RtlCores.Riscv.Refinement

/-!
# Runs of the core

As long as the words that the core fetches are base instructions whose accesses are to the data
memory and whose targets are aligned, and no interrupt line is high, the core does in `n`
periods what a hart does in `n` steps.  What is shown of a program on harts therefore holds of
the core that has its words in the instruction memory.
-/

namespace RtlCores.Riscv

open RtlCores.Lib RtlCores.Modules

variable {xlen depth : Nat}

namespace State

/-- The instruction memory as a hart sees it. -/
def code (s : State xlen depth) : Isa.Code xlen := fun a ↦
  if a.toNat < 2 ^ 32 then fetch s.instructionMem.memx (a.setWidth 32) else 0

/-- No interrupt line is high. -/
def LinesLow (p : Inputs xlen) : Prop :=
  p.irqExPending = false ∧ p.irqSwPending = false ∧ p.irqTimerPending = false

/-- The core is running, and where the hart `h` is. -/
structure Tracks (s : State xlen depth) (h : Isa.Hart xlen) : Prop where
  shows : s.Shows h
  imemReq : s.core.imemReq = true
  x0 : s.regMem 0 = 0
  aligned : s.core.pc.toNat % 4 = 0

variable {p : Inputs xlen} {s : State xlen depth} {g h h' : Isa.Hart xlen}

theorem Shows.of_agree (hx : 32 ≤ xlen) (hs : s.Shows g) (hgh : g.Agree dmemDepth h) :
    s.Shows h := by
  refine ⟨hgh.pc ▸ hs.pc, hgh.regs ▸ hs.regMem, fun i ↦ ?_⟩
  have hlt : (BitVec.ofNat xlen i).toNat < dmemDepth := by
    rw [toNat_ofNat_dmem hx i]
    exact i.isLt
  rw [hs.dataMem i, hgh.mem _ hlt]

namespace Tracks

theorem steady (ht : Tracks s h) (hp : LinesLow p) : Steady p s :=
  ⟨ht.imemReq, ht.x0, ht.aligned, hp⟩

/-- The core has the hart's instruction in flight. -/
theorem instruction (ht : Tracks s h) (hne : s.code h.pc ≠ 0) :
    h.pc.toNat < 2 ^ 32 ∧ s.instruction = s.code h.pc := by
  have hlt : h.pc.toNat < 2 ^ 32 := by
    by_contra hge
    exact hne (if_neg hge)
  refine ⟨hlt, ?_⟩
  rw [instruction_eq_fetch ht.imemReq, code, if_pos hlt, ht.shows.pc]

theorem agree (hx : 32 ≤ xlen) (ht : Tracks s h) (hpc : h.pc.toNat < 2 ^ 32) :
    s.hart.Agree dmemDepth h := by
  refine ⟨?_, ht.shows.regMem, fun a ha ↦ ?_⟩
  · show s.core.pc.setWidth xlen = h.pc
    apply BitVec.eq_of_toNat_eq
    rw [BitVec.toNat_setWidth_of_le hx, ht.shows.pc, BitVec.toNat_setWidth,
      Nat.mod_eq_of_lt hpc]
  · rw [hart_mem_of_lt ha, ht.shows.dataMem ⟨a.toNat, ha⟩]
    congr 1
    exact BitVec.ofNat_toNat _ _ |>.trans (BitVec.setWidth_eq a)

/-! ## One period -/

/-- A period of the core is a step of the hart. -/
theorem cycle (hx : xlen = 32 ∨ xlen = 64) {verilator : Bool}
    {s : State xlen (instMemDepth verilator)} (ht : Tracks s h) (hp : LinesLow p)
    (hstep : h.step? s.code dmemDepth = some h') :
    Tracks (s.cycle p) h' ∧
      { (s.cycle p).core.csr with irqStarted := s.core.csr.irqStarted } = s.core.csr := by
  obtain ⟨i, henc, hok, rfl⟩ := Isa.Hart.step?_eq_some_iff.mp hstep
  obtain ⟨hlt, hword⟩ := ht.instruction henc.ne_zero
  have hagree := ht.agree (by omega) hlt
  have hdepth : instMemDepth verilator ≤ 2 ^ 12 := by
    cases verilator <;> decide
  have hpc : s.core.pc.toNat ≤ instMemDepth verilator := by
    have hfetch : Isa.Encodes xlen (fetch s.instructionMem.memx s.core.pc) i := by
      rwa [← instruction_eq_fetch ht.imemReq, hword]
    exact pc_le_of_encodes hfetch
  have henc' : Isa.Encodes xlen s.instruction i := hword ▸ henc
  have hst := ht.steady hp
  have hshows : (s.cycle p).Shows (i.next h) :=
    (cycle_shows hx hst (by omega) henc' fun a n ha ↦
      (hagree.permitted hok).1 (a, n) ha).of_agree (by omega) (hagree.next hok)
  refine ⟨⟨hshows, ?_, cycle_x0 ht.x0, ?_⟩, ?_⟩
  · rw [State.cycle, posedge_imemReq, negedge_instruction, hword, bne_iff_ne.mpr henc.ne_zero,
      Bool.or_true]
  · have hdvd : 4 ∣ 2 ^ 32 := by decide
    rw [hshows.pc, BitVec.toNat_setWidth, Nat.mod_mod_of_dvd _ hdvd, Isa.Instr.next]
    cases htarget : i.target h with
    | some t => exact hok.2 t htarget
    | none =>
      have hdvd' : 4 ∣ 2 ^ xlen := pow_dvd_pow 2 (by omega : 2 ≤ xlen)
      have hfour : (4 : BitVec xlen).toNat % 4 = 0 := by
        show (BitVec.ofNat xlen 4).toNat % 4 = 0
        rw [BitVec.toNat_ofNat, Nat.mod_mod_of_dvd _ hdvd']
      have haligned : h.pc.toNat % 4 = 0 := by
        have := ht.aligned
        rwa [ht.shows.pc, BitVec.toNat_setWidth, Nat.mod_mod_of_dvd _ hdvd] at this
      show (h.pc + 4).toNat % 4 = 0
      rw [BitVec.toNat_add, Nat.mod_mod_of_dvd _ hdvd', Nat.add_mod, hfour, haligned]
  · rw [hst.cycle_csr (ofBase_of_encodes henc')]

/-! ## Runs -/

/-- As many periods of the core as steps of the hart. -/
theorem run (hx : xlen = 32 ∨ xlen = 64) {verilator : Bool} {n : Nat}
    {s : State xlen (instMemDepth verilator)} (ht : Tracks s h) {is : Nat → Inputs xlen}
    (hlines : ∀ k < n, LinesLow (is k)) (hrun : h.run? s.code dmemDepth n = some h') :
    Tracks (Lib.run (fun p s ↦ s.cycle p) is s n) h' ∧
      { (Lib.run (fun p s ↦ s.cycle p) is s n).core.csr with
        irqStarted := s.core.csr.irqStarted } = s.core.csr := by
  induction n generalizing s h is with
  | zero =>
    obtain rfl := Option.some.inj hrun
    exact ⟨ht, rfl⟩
  | succ n ih =>
    obtain ⟨g, hstep, hrest⟩ := Isa.Hart.run?_succ_eq_some_iff.mp hrun
    obtain ⟨hg, hcsr⟩ := ht.cycle hx (hlines 0 (by omega)) hstep
    have hlines' : ∀ k < n, LinesLow (is (1 + k)) := fun k hk ↦ hlines (1 + k) (by omega)
    obtain ⟨hlast, hcsr'⟩ := ih hg hlines' hrest
    rw [Nat.add_comm n 1, run_add]
    refine ⟨hlast, ?_⟩
    rw [← hcsr, ← hcsr']
    rfl

/-- What a program comes to on harts it comes to on the core. -/
theorem reaches (hx : xlen = 32 ∨ xlen = 64) {verilator : Bool}
    {s : State xlen (instMemDepth verilator)} (ht : Tracks s h) {is : Nat → Inputs xlen}
    (hlines : ∀ k, LinesLow (is k)) {Q : Isa.Hart xlen → Prop}
    (hQ : Isa.Reaches s.code dmemDepth Q h) :
    ∃ n h', Q h' ∧ Tracks (Lib.run (fun p s ↦ s.cycle p) is s n) h' := by
  obtain ⟨n, h', hrun, hh'⟩ := hQ
  exact ⟨n, h', hh', (ht.run hx (fun k _ ↦ hlines k) hrun).1⟩

end Tracks

/-- The hart of a running core. -/
theorem tracks_hart (hx : 32 ≤ xlen) (himem : s.core.imemReq = true) (hx0 : s.regMem 0 = 0)
    (haligned : s.core.pc.toNat % 4 = 0) : Tracks s s.hart := by
  refine ⟨⟨?_, rfl, fun i ↦ (hart_mem hx i).symm⟩, himem, hx0, haligned⟩
  show s.core.pc = (s.core.pc.setWidth xlen).setWidth 32
  rw [BitVec.setWidth_setWidth_of_le _ hx, BitVec.setWidth_eq]

/-- In both widths, every program and every run: if a hart in the state of the core executes `n`
instructions of those that `Isa.decode` has, then after `n` periods with the interrupt lines low
the core has the `pc`, registers and data memory of the hart; `x0` is still 0 and no CSR has
changed.  JALR, SYSTEM, FENCE and the 32-bit operations stop the hart. -/
theorem run_refines_isa (hx : xlen = 32 ∨ xlen = 64) {verilator : Bool}
    {s : State xlen (instMemDepth verilator)} (himem : s.core.imemReq = true)
    (hx0 : s.regMem 0 = 0) (haligned : s.core.pc.toNat % 4 = 0) {is : Nat → Inputs xlen} {n : Nat}
    (hlines : ∀ k < n, LinesLow (is k)) {h' : Isa.Hart xlen}
    (hrun : s.hart.run? s.code dmemDepth n = some h') :
    let t := Lib.run (fun p s ↦ s.cycle p) is s n
    t.Shows h' ∧ t.core.imemReq = true ∧ t.regMem 0 = 0 ∧
      { t.core.csr with irqStarted := s.core.csr.irqStarted } = s.core.csr := by
  obtain ⟨ht, hcsr⟩ := (tracks_hart (by omega) himem hx0 haligned).run hx hlines hrun
  exact ⟨ht.shows, ht.imemReq, ht.x0, hcsr⟩

/-- `ADDI x1, x0, 5`, `SW x1, 8(x0)` and `LBU x2, 8(x0)` -/
theorem run_refines_isa_lbu :
    let s : State 32 (instMemDepth false) :=
      running [0x00500093, 0x00102423, 0x00804103] 0 (Csr.reset false) fun _ ↦ 0
    let t := Lib.run (fun p s ↦ s.cycle p) (fun _ ↦ irqLine false) s 3
    ∃ h', s.hart.run? s.code dmemDepth 3 = some h' ∧ t.Shows h' ∧ t.core.imemReq = true ∧
      t.regMem 0 = 0 ∧ { t.core.csr with irqStarted := s.core.csr.irqStarted } = s.core.csr := by
  intro s t
  obtain ⟨h', hrun⟩ := Option.isSome_iff_exists.mp
    (show (s.hart.run? s.code dmemDepth 3).isSome = true by decide +kernel)
  exact ⟨h', hrun, run_refines_isa (.inl rfl) rfl rfl rfl (fun _ _ ↦ ⟨rfl, rfl, rfl⟩) hrun⟩

/-! ## The data memory in words -/

/-- The word of the data memory at address `a`. -/
def dataWord (s : State xlen depth) (a : Nat) : BitVec 32 :=
  s.dataMem.memx.read4 false (BitVec.ofNat 32 a)

/-- The `n` words of the data memory from address `base` on. -/
def dataWords (s : State xlen depth) (base n : Nat) : List (BitVec 32) :=
  (List.range n).map fun k ↦ s.dataWord (base + 4 * k)

theorem dataWord_eq (hmem : ∀ i : Fin dmemDepth, s.dataMem.memx i = h.mem (BitVec.ofNat xlen i))
    (hx : 32 ≤ xlen) {a : Nat} (ha : a + 4 ≤ dmemDepth) : s.dataWord a = h.word a := by
  have hdepth : dmemDepth = 512 := rfl
  have hbyte : ∀ k < 4, ∀ addr : BitVec 32, addr.toNat = a + k →
      s.dataMem.memx.read addr = h.mem (BitVec.ofInt xlen a + BitVec.ofNat xlen k) := by
    intro k hk addr haddr
    have hlt : addr.toNat < dmemDepth := by omega
    have hspec : BitVec.ofInt xlen a + BitVec.ofNat xlen k = BitVec.ofNat xlen addr.toNat := by
      apply BitVec.eq_of_toNat_eq
      rw [Isa.Hart.toNat_word_byte hx (by omega) hk, toNat_ofNat_dmem hx ⟨addr.toNat, hlt⟩]
      exact haddr.symm
    rw [hspec, Memx.read, dif_pos hlt, hmem ⟨addr.toNat, hlt⟩]
  have hnat : ∀ j : BitVec 32, j.toNat < 4 → (BitVec.ofNat 32 a + j).toNat = a + j.toNat := by
    intro j hj
    rw [BitVec.toNat_add, BitVec.toNat_ofNat, Nat.mod_eq_of_lt (by omega : a < 2 ^ 32),
      Nat.mod_eq_of_lt (by omega)]
  have hzero : (BitVec.ofNat 32 a).toNat = a + 0 := by
    rw [BitVec.toNat_ofNat, Nat.mod_eq_of_lt (by omega), Nat.add_zero]
  rw [Isa.Hart.word_eq, leWord_four, State.dataWord, Memx.read4, if_neg Bool.false_ne_true,
    hbyte 0 (by decide) _ hzero, hbyte 1 (by decide) _ (hnat 1 (by decide)),
    hbyte 2 (by decide) _ (hnat 2 (by decide)), hbyte 3 (by decide) _ (hnat 3 (by decide))]

theorem Shows.dataWord (hs : s.Shows h) (hx : 32 ≤ xlen) {a : Nat} (ha : a + 4 ≤ dmemDepth) :
    s.dataWord a = h.word a :=
  dataWord_eq hs.dataMem hx ha

/-! ## Loaded programs -/

/-- A byte of a loaded image. -/
theorem read_image (words : List (BitVec 32)) {k j : Nat} (hj : j < 4)
    (hk : 4 * k + 4 ≤ depth) {addr : BitVec 32} (haddr : addr.toNat = 4 * k + j) :
    (image words : Memx depth).read addr = (words.getD k 0).extractLsb' (24 - 8 * j) 8 := by
  have hlt : addr.toNat < depth := by omega
  rw [Memx.read, dif_pos hlt]
  show (words.getD (addr.toNat / 4) 0).extractLsb' (24 - 8 * (addr.toNat % 4)) 8 = _
  rw [haddr, show (4 * k + j) / 4 = k by omega, show (4 * k + j) % 4 = j by omega]

/-- The words of a loaded image are fetched from where they stand. -/
theorem fetch_image (words : List (BitVec 32)) {k : Nat} (hk : 4 * k + 4 ≤ depth)
    (hdepth : depth ≤ 2 ^ 31) :
    fetch (image words : Memx depth) (BitVec.ofNat 32 (4 * k)) = words.getD k 0 := by
  have haddr : ∀ j : BitVec 32, j.toNat < 4 →
      (BitVec.ofNat 32 (4 * k) + j).toNat = 4 * k + j.toNat := by
    intro j hj
    rw [BitVec.toNat_add, BitVec.toNat_ofNat, Nat.mod_eq_of_lt (by omega : 4 * k < 2 ^ 32),
      Nat.mod_eq_of_lt (by omega)]
  have hbase : (BitVec.ofNat 32 (4 * k)).toNat = 4 * k + 0 := by
    rw [BitVec.toNat_ofNat, Nat.mod_eq_of_lt (by omega), Nat.add_zero]
  have h0 := read_image words (by decide) hk hbase
  have h1 := read_image words (by decide) hk (haddr 1 (by decide))
  have h2 := read_image words (by decide) hk (haddr 2 (by decide))
  have h3 := read_image words (by decide) hk (haddr 3 (by decide))
  rw [fetch, if_neg (by omega), Memx.read4, if_pos rfl, h0, h1, h2, h3]
  ext i hi
  grind

/-- The address of an instruction, in both widths. -/
theorem toNat_index (hx : 32 ≤ xlen) {k : Nat} (hk : 4 * k < 2 ^ 32) :
    (BitVec.ofInt xlen (4 * k)).toNat = 4 * k := by
  rw [show (4 * k : ℤ) = ((4 * k : Nat) : ℤ) by push_cast; rfl]
  exact Isa.toNat_ofInt hx hk

theorem setWidth_index (hx : 32 ≤ xlen) {k : Nat} (hk : 4 * k < 2 ^ 32) :
    (BitVec.ofInt xlen (4 * k)).setWidth 32 = BitVec.ofNat 32 (4 * k) := by
  apply BitVec.eq_of_toNat_eq
  rw [BitVec.toNat_setWidth, toNat_index hx hk, BitVec.toNat_ofNat]

theorem code_index (hx : 32 ≤ xlen) {k : Nat} (hk : 4 * k < 2 ^ 32) :
    s.code (BitVec.ofInt xlen (4 * k)) =
      fetch s.instructionMem.memx (BitVec.ofNat 32 (4 * k)) := by
  rw [code, if_pos (by rw [toNat_index hx hk]; exact hk), setWidth_index hx hk]

/-- A running core at instruction `k`. -/
theorem tracks_goto (hx : 32 ≤ xlen) (himem : s.core.imemReq = true) (hx0 : s.regMem 0 = 0)
    {k : Nat} (hk : 4 * k < 2 ^ 32) (hpc : s.core.pc = BitVec.ofNat 32 (4 * k)) :
    Tracks s (s.hart.goto k) := by
  refine ⟨⟨?_, rfl, fun i ↦ (hart_mem hx i).symm⟩, himem, hx0, ?_⟩
  · exact hpc.trans (setWidth_index hx hk).symm
  · rw [hpc, BitVec.toNat_ofNat, Nat.mod_eq_of_lt hk, Nat.mul_mod_right]

/-- The instructions that the words of a loaded image encode stand in the code memory. -/
theorem holds_of_image (hx : 32 ≤ xlen) {s : State xlen depth} {words : List (BitVec 32)}
    {prog : List Isa.Instr} (himage : s.instructionMem.memx = image words)
    (hwords : Isa.Assembles xlen prog words) (hlen : 4 * prog.length ≤ depth)
    (hdepth : depth ≤ 2 ^ 31) : s.code.Holds prog := by
  intro k i hk
  have hlt : k < prog.length := by
    by_contra hge
    rw [List.getElem?_eq_none (by omega)] at hk
    contradiction
  rw [code_index hx (by omega), himage, fetch_image words (by omega) hdepth]
  exact Isa.decode_eq_some_iff.mp ((hwords k hlt).trans hk)

/-! ## The end of a program -/

/-- An all-zero word raises nothing. -/
theorem Steady.plain_of_zero (h : Steady p s) (hword : s.instruction = 0) : Plain p s := by
  have hdec : s.dec = decode 0 := by rw [dec, hword]
  have hy : s.dec.yType = false := by
    rw [hdec]
    decide +kernel
  have hc : s.dec.cType = false := by
    rw [hdec]
    decide +kernel
  have hnonzero : (s.csrIn p).irqIllegal = false := by
    show (_ && s.instruction != 0) = false
    rw [hword, bne_self_eq_false, Bool.and_false]
  have hcsr : (s.csrIn p).illegal = false := by
    rw [CsrIn.illegal, show (s.csrIn p).yType = false from hy,
      show (s.csrIn p).cType = false from hc]
    rfl
  have hexception : (s.csrIn p).exception = false := by
    refine exception_of_not_raises (irqAlign_of_even p s h.pc_bit) ?_
    rw [Raises, CsrIn.irqEcall, CsrIn.irqBreak, show (s.csrIn p).yType = false from hy, hnonzero,
      hcsr]
    rfl
  refine ⟨?_, hy, hc⟩
  show s.core.csr.irqStart (s.csrIn p) = false
  rw [Csr.irqStart_eq, h.interrupt, hexception]
  rfl

/-- An all-zero word inside the memory stops the core behind it. -/
theorem Tracks.halted (ht : Tracks s h) (hp : LinesLow p) (hword : s.code h.pc = 0)
    (hpc : 0 < h.pc.toNat) (hin : h.pc.toNat ≤ depth) (hlt : h.pc.toNat + 4 < 2 ^ 32) :
    Halted (s.cycle p) ∧ (s.cycle p).regMem = s.regMem ∧
      (s.cycle p).dataMem.memx = s.dataMem.memx := by
  have hnat : s.core.pc.toNat = h.pc.toNat := by
    rw [ht.shows.pc, BitVec.toNat_setWidth, Nat.mod_eq_of_lt (by omega)]
  have hfetch : fetch s.instructionMem.memx s.core.pc = 0 := by
    rw [ht.shows.pc, ← hword, code, if_pos (by omega)]
  have hinstr : s.instruction = 0 := by
    rw [instruction_eq_fetch ht.imemReq, hfetch]
  have hne : s.core.pc ≠ instBaseAddress := by
    intro heq
    have hzero : s.core.pc.toNat = 0 := congrArg BitVec.toNat heq
    omega
  have hzero : FetchesZero s := ⟨ht.imemReq, hne, hinstr⟩
  have hread : s.instructionMem.memx.read4 true s.core.pc = 0 := by
    rwa [fetch, if_neg (by omega)] at hfetch
  obtain ⟨hregs, hmem⟩ := negedge_of_zero (p := p) hinstr
  refine ⟨⟨?_, ?_, ?_⟩, hregs, hmem⟩
  · exact posedge_imemReq_of_zero hne (by rw [negedge_instruction, hinstr])
  · have h32 : s.dec.is32bit = true := by
      rw [dec, hinstr]
      decide +kernel
    have hb : s.dec.bType = false := by
      rw [dec, hinstr]
      decide +kernel
    have hsel : s.ctl.pcSel = false := by
      rw [ctl, dec, hinstr]
      rfl
    have hplain := (ht.steady hp).plain_of_zero hinstr
    rw [hplain.cycle_pc_next ht.imemReq h32 hb hsel]
    intro heq
    have hsum : (s.core.pc + 4).toNat = 0 := congrArg BitVec.toNat heq
    rw [BitVec.toNat_add, hnat] at hsum
    have hfour : (4 : BitVec 32).toNat = 4 := rfl
    omega
  · rw [State.cycle, hzero.posedge_instruction, hread, ite_self]

/-- A core that is out of reset stands at the first word, whatever it did before. -/
theorem Cleared.tracks (hx : 32 ≤ xlen) {s₀ s : State xlen depth} (hs : Cleared s₀ s) :
    Tracks (s.posedge p) ((s.posedge p).hart.goto 0) := by
  have hcore := hs.posedge_core (p := p)
  have hregs : (s.posedge p).regMem = fun _ ↦ 0 := hs.regMem
  refine tracks_goto hx (by rw [hcore]) (by rw [hregs]) (by decide) ?_
  rw [hcore]
  rfl

/-- The core stands as the hart `h` leaves it, and so it stays whatever its inputs are. -/
structure Ended (h : Isa.Hart xlen) (t : State xlen depth) : Prop where
  regMem : t.regMem = h.regs
  dataMem : ∀ i : Fin dmemDepth, t.dataMem.memx i = h.mem (BitVec.ofNat xlen i)
  frozen : ∀ (is : Nat → Inputs xlen) (n : Nat), Frozen t (Lib.run tick is (true, t) n).2

/-- A program that comes to its last instruction from every hart runs to its end on the core:
after a reset pulse that is released while `clk` is low, whatever was in the registers, the data
memory and the latches, and with the interrupt lines low. -/
theorem ends_of_reaches (hx : xlen = 32 ∨ xlen = 64) {verilator : Bool}
    {s : State xlen (instMemDepth verilator)} {words : List (BitVec 32)} {prog : List Isa.Instr}
    (himage : s.instructionMem.memx = image words) (hwords : Isa.Assembles xlen prog words)
    (hend : words.getD prog.length 0 = 0) (hpos : 0 < prog.length)
    (hlen : 4 * prog.length + 4 ≤ instMemDepth verilator) {Q : Isa.Hart xlen → Prop}
    (hQ : ∀ (code : Isa.Code xlen) (h : Isa.Hart xlen), code.Holds prog →
      Isa.Reaches code dmemDepth (fun h' ↦ ∃ k, h' = Isa.Hart.goto k prog.length ∧ Q k)
        (h.goto 0))
    {level : Bool} {ps : List (Inputs xlen)} (hps : 2 ≤ ps.length)
    (hlow : (resetPulse ps (level, s)).1 = false) {is : Nat → Inputs xlen}
    (hlines : ∀ k, LinesLow (is k)) :
    ∃ n k, Q k ∧ Ended k
      (Lib.run (fun p s ↦ s.cycle p) is (tick p (resetPulse ps (level, s))).2 n) := by
  have hx' : 32 ≤ xlen := by omega
  have hdepth : instMemDepth verilator ≤ 2 ^ 12 := by
    cases verilator <;> decide
  have hclear := resetPulse_cleared ps hps level s
  have htick : (tick p (resetPulse ps (level, s))).2 = (resetPulse ps (level, s)).2.posedge p := by
    rw [tick, hlow]
    rfl
  rw [htick]
  set t := (resetPulse ps (level, s)).2.posedge p with ht
  have htimage : t.instructionMem.memx = image words := hclear.imem.trans himage
  have hcode : t.code.Holds prog :=
    holds_of_image hx' htimage hwords (by omega) (by omega)
  obtain ⟨n, h', ⟨k, rfl, hk⟩, htk⟩ :=
    (hclear.tracks (p := p) hx').reaches hx hlines (hQ t.code t.hart hcode)
  set u := Lib.run (fun p s ↦ s.cycle p) is t n with hu
  -- behind the program there is an all-zero word
  have hcodeu : u.instructionMem.memx = image words := by
    have hinv := run_invariant (fun p s ↦ State.cycle p s)
      (fun u ↦ u.instructionMem.memx = image words) (fun _ _ h ↦ h) is htimage n
    exact hinv
  have hindex : (BitVec.ofInt xlen (4 * prog.length)).toNat = 4 * prog.length :=
    toNat_index hx' (by omega)
  have hzero : u.code (Isa.Hart.goto k prog.length).pc = 0 := by
    show u.code (BitVec.ofInt xlen (4 * prog.length)) = 0
    rw [code_index hx' (by omega), hcodeu, fetch_image words hlen (by omega), hend]
  have hpc : (Isa.Hart.goto k prog.length).pc.toNat = 4 * prog.length := hindex
  obtain ⟨hhalt, hregs, hmem⟩ := htk.halted (hlines n) hzero (by omega) (by omega) (by omega)
  refine ⟨n + 1, k, hk, ⟨?_, ?_, ?_⟩⟩
  · exact hregs.trans htk.shows.regMem
  · intro i
    exact (congrFun hmem i).trans (htk.shows.dataMem i)
  · exact hhalt.frozen true

end State

end RtlCores.Riscv
