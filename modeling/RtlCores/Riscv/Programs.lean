import RtlCores.Riscv.BubbleSort

/-!
# The other application programs (`RISCV_SingleCycle/asm`)

`find_max_in_array.asm` looks for the greatest of the words of an array, which is shown for arrays
of every length and contents; `fibonacci_sequence.asm` writes the first ten Fibonacci numbers.
Both run to their end from any state before reset, as `tb_asm_arr` and `tb_asm_fib` wait for.
-/

namespace RtlCores.Riscv

open RtlCores.Lib RtlCores.Lib.Isa RtlCores.Riscv.State

variable {xlen depth : Nat} {code : Code xlen} {g h : Hart xlen}

namespace FindMax

/-- `asm/find_max_in_array.asm` -/
def asm : List Instr :=
  [.lui 10 0x00000, .opImm .add 10 10 0,
    -- the array
    .opImm .add 11 0 8, .store .sw 10 11 0,
    .opImm .add 11 0 (-21), .store .sw 10 11 4,
    .opImm .add 11 0 15, .store .sw 10 11 8,
    .opImm .add 11 0 (-3), .store .sw 10 11 12,
    .opImm .add 11 0 42, .store .sw 10 11 16,
    .opImm .add 11 0 17, .store .sw 10 11 20,
    -- max, `i` and `N`
    .load .lw 11 10 0, .opImm .add 12 0 1, .opImm .add 13 0 6,
    -- loop_cond
    .branch .bge 12 13 36, .opImm .sll 15 12 2, .opReg .add 16 10 15, .load .lw 14 16 0,
    .branch .blt 11 14 8, .jal 0 8,
    -- update_max
    .opReg .add 11 14 0,
    -- skip_update
    .opImm .add 12 12 1, .jal 0 (-32),
    -- done
    .store .sw 10 11 24, .opImm .add 0 0 0]

/-- `asm/find_max_in_array.mem` -/
def mem : List (BitVec 32) :=
  [0x00000537, 0x00050513, 0x00800593, 0x00b52023, 0xfeb00593, 0x00b52223, 0x00f00593,
    0x00b52423, 0xffd00593, 0x00b52623, 0x02a00593, 0x00b52823, 0x01100593, 0x00b52a23,
    0x00052583, 0x00100613, 0x00600693, 0x02d65263, 0x00261793, 0x00f50833, 0x00082703,
    0x00e5c463, 0x0080006f, 0x000705b3, 0x00160613, 0xfe1ff06f, 0x00b52c23, 0x00000013,
    0x00000000]

theorem assembles (hx : xlen = 32 ∨ xlen = 64) : Assembles xlen asm mem := by
  rcases hx with rfl | rfl <;> decide +kernel

variable {base n i : Nat} {a : Nat → BitVec 32}

/-- `v` is the greatest of the first `i` words. -/
def Greatest (a : Nat → BitVec 32) (i : Nat) (v : BitVec 32) : Prop :=
  (∃ k < i, v = a k) ∧ ∀ k < i, (a k).toInt ≤ v.toInt

theorem Greatest.succ {v : BitVec 32} (hv : Greatest a i v) :
    Greatest a (i + 1) (if v.toInt < (a i).toInt then a i else v) := by
  obtain ⟨⟨k, hk, hkv⟩, hmax⟩ := hv
  split
  case isTrue hlt =>
    refine ⟨⟨i, by omega, rfl⟩, fun k' hk' ↦ ?_⟩
    rcases Nat.lt_or_eq_of_le (Nat.le_of_lt_succ hk') with hlt' | rfl
    · exact le_trans (hmax k' hlt') hlt.le
    · exact le_rfl
  case isFalse hge =>
    refine ⟨⟨k, by omega, hkv⟩, fun k' hk' ↦ ?_⟩
    rcases Nat.lt_or_eq_of_le (Nat.le_of_lt_succ hk') with hlt' | rfl
    · exact hmax k' hlt'
    · exact not_lt.mp hge

/-- At `loop_cond`, after the first `i` words. -/
structure Scanned (base n : Nat) (g : Hart xlen) (a : Nat → BitVec 32) (i : Nat) (h : Hart xlen) :
    Prop where
  x10 : h.get 10 = BitVec.ofInt xlen base
  x12 : h.get 12 = BitVec.ofInt xlen i
  x13 : h.get 13 = BitVec.ofInt xlen n
  x11 : ∃ v : BitVec 32, h.get 11 = v.signExtend xlen ∧ Greatest a i v
  words : h.Words base n a
  mem : h.mem = g.mem

section Rounds

variable (hx : 32 ≤ xlen) (hcode : code.Holds asm) (hdepth : depth ≤ 2 ^ 31)
  (hbase : base + 4 * n ≤ depth)

include hx hcode hdepth hbase

/-- A round of the loop. -/
theorem round (hi : i < n) (hh : Scanned base n g a i h) :
    Reaches code depth (fun h' ↦ ∃ k, h' = Hart.goto k 17 ∧ Scanned base n g a (i + 1) k)
      (h.goto 17) := by
  obtain ⟨v, h11, hv⟩ := hh.x11
  refine .notTaken hcode rfl ?_ ?_
  · rw [hh.x12, hh.x13, holds_bge hx ⟨by omega, by omega⟩ ⟨by omega, by omega⟩,
      decide_eq_false_iff_not]
    omega
  refine .opImm hcode rfl (v := BitVec.ofInt xlen (4 * i)) ?_ ?_
  · rw [hh.x12]
    exact apply_sll_two hx i
  refine .opReg hcode rfl (v := BitVec.ofInt xlen (base + 4 * i)) ?_ ?_
  · simp only [Hart.get_set, BitVec.reduceEq, ite_true, ite_false, hh.x10, apply_add]
  refine .lw hcode hx hdepth rfl (base + 4 * i) ?_ (by omega) (v := a i) ?_ ?_
  · simp only [Hart.get_set, BitVec.reduceEq, ite_true, ite_false]
    rw [← BitVec.ofInt_add]
    rfl
  · rw [Hart.set_word, Hart.set_word, hh.words i hi]
  set k := (((h.set 15 (BitVec.ofInt xlen (4 * i))).set 16 (BitVec.ofInt xlen (base + 4 * i))).set
    14 ((a i).signExtend xlen)) with hk
  have hkeep : ∀ r : BitVec 5, r ≠ 14 ∧ r ≠ 15 ∧ r ≠ 16 → k.get r = h.get r := by
    rintro r ⟨h14, h15, h16⟩
    rw [hk, Hart.get_set_of_ne _ _ h14, Hart.get_set_of_ne _ _ h16, Hart.get_set_of_ne _ _ h15]
  have hk14 : k.get 14 = (a i).signExtend xlen := by
    simp only [hk, Hart.get_set, BitVec.reduceEq, ite_true, ite_false]
  have hk11 : k.get 11 = v.signExtend xlen := (hkeep 11 (by decide)).trans h11
  -- both ways lead to `skip_update` with the greater of the two in `x11`
  have hskip : ∀ k' : Hart xlen, (∀ r : BitVec 5, r ≠ 11 → k'.get r = k.get r) →
      k'.get 11 = (if v.toInt < (a i).toInt then a i else v).signExtend xlen →
      k'.mem = k.mem → Reaches code depth
        (fun h' ↦ ∃ k, h' = Hart.goto k 17 ∧ Scanned base n g a (i + 1) k) (k'.goto 24) := by
    intro k' hregs h11' hmem
    have hsame : ∀ b, k'.word b = h.word b := by
      intro b
      rw [Hart.word_eq, Hart.word_eq, hmem]
      rfl
    refine .opImm hcode rfl (v := BitVec.ofInt xlen (i + 1 : Nat)) ?_ ?_
    · rw [hregs 12 (by decide), hkeep 12 (by decide), hh.x12]
      exact apply_add _ _
    refine .jump hcode hx rfl 17 (by decide) (.done ⟨_, rfl, ?_, ?_, ?_, ⟨_, ?_, hv.succ⟩, ?_, ?_⟩)
    · rw [Hart.get_set_of_ne _ _ (by decide), hregs 10 (by decide), hkeep 10 (by decide), hh.x10]
    · simp only [Hart.get_set, BitVec.reduceEq, ite_true, ite_false]
    · rw [Hart.get_set_of_ne _ _ (by decide), hregs 13 (by decide), hkeep 13 (by decide), hh.x13]
    · rw [Hart.get_set_of_ne _ _ (by decide), h11']
    · intro j hj
      rw [Hart.set_word, hsame, hh.words j hj]
    · rw [Hart.set_mem, hmem, hk, Hart.set_mem, Hart.set_mem, Hart.set_mem, hh.mem]
  by_cases hlt : v.toInt < (a i).toInt
  · refine .taken hcode rfl hx 23 (by decide) ?_ ?_
    · rw [hk11, hk14, holds_blt_signExtend hx]
      exact decide_eq_true hlt
    refine .opReg hcode rfl (v := (a i).signExtend xlen) ?_ (hskip _ ?_ ?_ ?_)
    · rw [hk14]
      exact BitVec.add_zero _
    · exact fun r hr ↦ Hart.get_set_of_ne _ _ hr
    · rw [if_pos hlt, Hart.get_set, if_neg (by decide), if_pos rfl]
    · rw [Hart.set_mem]
  · refine .notTaken hcode rfl ?_ (.jump hcode hx rfl 24 (by decide) (hskip k ?_ ?_ rfl))
    · rw [hk11, hk14, holds_blt_signExtend hx]
      exact decide_eq_false hlt
    · exact fun _ _ ↦ rfl
    · rw [if_neg hlt, hk11]

/-- The loop, from its first round. -/
theorem reaches_greatest (hn : 0 < n) (h0 : Scanned base n g a 1 h) :
    Reaches code depth (fun h' ↦ ∃ k, h' = Hart.goto k 26 ∧ Scanned base n g a n k)
      (h.goto 17) := by
  refine (Reaches.loop (fun i h' ↦ ∃ k, h' = Hart.goto k 17 ∧ Scanned base n g a i k)
    hn ⟨h, rfl, h0⟩ ?_).trans ?_
  · rintro i _ - hi ⟨k, rfl, hk⟩
    exact round hx hcode hdepth hbase hi hk
  rintro _ ⟨k, rfl, hk⟩
  refine .taken hcode rfl hx 26 (by decide) ?_ (.done ⟨k, rfl, hk⟩)
  rw [hk.x12, hk.x13, holds_bge hx ⟨by omega, by omega⟩ ⟨by omega, by omega⟩, decide_eq_true_iff]

end Rounds

/-- The array of the program. -/
def array : Nat → BitVec 32 :=
  fun k ↦ ((([8, -21, 15, -3, 42, 17] : List (BitVec 12)).getD k 0).signExtend 32)

/-- The program ends behind its last instruction with the greatest word behind the array. -/
theorem reaches_end (hx : 32 ≤ xlen) (hcode : code.Holds asm) (hdepth : depth ≤ 2 ^ 31)
    (hin : 28 ≤ depth) (h : Hart xlen) :
    Reaches code depth (fun h' ↦ ∃ k, h' = Hart.goto k 28 ∧ k.word 24 = 42) (h.goto 0) := by
  refine .cleared hcode (by decide) rfl rfl fun g hg _ _ ↦ ?_
  refine (Reaches.array hcode hx hdepth 10 11
    (fun j ↦ ([8, -21, 15, -3, 42, 17] : List (BitVec 12)).getD j 0)
    (by decide) (by decide) (by decide) (by decide) hg (by omega) (k := 2) (n := 6)).trans ?_
  rintro _ ⟨k, rfl, h10, hwords, -⟩
  refine .lw hcode hx hdepth rfl 0 ?_ (by omega) (v := array 0) ?_ ?_
  · rw [h10, ← BitVec.ofInt_add]
    rfl
  · exact hwords 0 (by decide)
  refine .opImm hcode rfl (v := BitVec.ofInt xlen (1 : Nat)) (Hart.apply_add_get_zero _ 1) ?_
  refine .opImm hcode rfl (v := BitVec.ofInt xlen (6 : Nat)) (Hart.apply_add_get_zero _ 6) ?_
  set k₁ := (((k.set 11 ((array 0).signExtend xlen)).set 12 (BitVec.ofInt xlen (1 : Nat))).set 13
    (BitVec.ofInt xlen (6 : Nat))) with hk₁
  have hstart : Scanned 0 6 k₁ array 1 k₁ := by
    refine ⟨?_, ?_, ?_, ⟨array 0, ?_, ⟨0, by decide, rfl⟩, ?_⟩, ?_, rfl⟩
    · simp only [hk₁, Hart.get_set, BitVec.reduceEq, ite_false, h10]
    · simp only [hk₁, Hart.get_set, BitVec.reduceEq, ite_true, ite_false]
    · simp only [hk₁, Hart.get_set, BitVec.reduceEq, ite_true, ite_false]
    · simp only [hk₁, Hart.get_set, BitVec.reduceEq, ite_true, ite_false]
    · intro j hj
      rw [Nat.lt_one_iff.mp hj]
    · intro j hj
      rw [hk₁, Hart.set_word, Hart.set_word, Hart.set_word, hwords j hj]
      rfl
  refine (reaches_greatest hx hcode hdepth (by omega) (by decide) hstart).trans ?_
  rintro _ ⟨k₂, rfl, hk₂⟩
  obtain ⟨v, h11, ⟨j, hj, rfl⟩, hmax⟩ := hk₂.x11
  have hlast : ∀ j < 6, (array 4).toInt ≤ (array j).toInt → array j = 42 := by decide
  refine .sw hcode hx hdepth rfl 24 ?_ (by omega) h11 (.opImm hcode rfl rfl (.done ⟨_, rfl, ?_⟩))
  · rw [hk₂.x10, ← BitVec.ofInt_add]
    rfl
  · rw [Hart.set_zero, Hart.setWord_word hx (by decide), setWidth_signExtend_word hx]
    exact hlast j hj (hmax 4 (by decide))

/-- In both widths, for every length and contents of the array and wherever it lies: from
`loop_cond` on, with the base in `x10`, the first word in `x11`, 1 in `x12`, the length in `x13`
and the lines low, the core comes to `done` with the greatest word of the array, by the signed
order, in `x11` and the data memory as it was. -/
theorem core_finds (hx : xlen = 32 ∨ xlen = 64) {verilator : Bool}
    {s : State xlen (instMemDepth verilator)} (himage : s.instructionMem.memx = image mem)
    (himem : s.core.imemReq = true) (hx0 : s.regMem 0 = 0) (hpc : s.core.pc = 0x44)
    {base n : Nat} (hn : 0 < n) (hbase : base + 4 * n ≤ dmemDepth)
    (h10 : s.regMem 10 = BitVec.ofNat xlen base)
    (h11 : s.regMem 11 = (s.dataWord base).signExtend xlen) (h12 : s.regMem 12 = 1)
    (h13 : s.regMem 13 = BitVec.ofNat xlen n) {is : Nat → Inputs xlen}
    (hlines : ∀ k, LinesLow (is k)) :
    ∃ m, let t := Lib.run (fun p s ↦ s.cycle p) is s m
      t.core.pc = 0x68 ∧ t.core.imemReq = true ∧ t.dataMem.memx = s.dataMem.memx ∧
      ∃ v ∈ s.dataWords base n, t.regMem 11 = v.signExtend xlen ∧
        ∀ w ∈ s.dataWords base n, w.toInt ≤ v.toInt := by
  have hx' : 32 ≤ xlen := by omega
  have hdepth : 4 * asm.length ≤ instMemDepth verilator ∧ instMemDepth verilator ≤ 2 ^ 31 := by
    cases verilator <;> decide
  have hcode : s.code.Holds asm :=
    holds_of_image hx' himage (assembles hx) hdepth.1 hdepth.2
  have ht : Tracks s (s.hart.goto 17) := tracks_goto hx' himem hx0 (by decide) hpc
  have hget : ∀ r : BitVec 5, r ≠ 0 → s.hart.get r = s.regMem r := fun r hr ↦ if_neg hr
  have hstart : Scanned base n s.hart (fun k ↦ s.dataWord (base + 4 * k)) 1 s.hart := by
    refine ⟨(hget 10 (by decide)).trans h10, (hget 12 (by decide)).trans h12,
      (hget 13 (by decide)).trans h13, ⟨_, (hget 11 (by decide)).trans h11, ⟨0, by decide, rfl⟩, ?_⟩,
      fun k hk ↦ (ht.shows.dataWord hx' (by omega)).symm, rfl⟩
    intro k hk
    rw [Nat.lt_one_iff.mp hk]
    exact le_rfl
  obtain ⟨m, h', ⟨k, rfl, hk⟩, htm⟩ := ht.reaches hx hlines
    (reaches_greatest hx' hcode (by decide) hbase hn hstart)
  obtain ⟨v, hv, ⟨j, hj, rfl⟩, hmax⟩ := hk.x11
  refine ⟨m, ?_, htm.imemReq, ?_, _, List.mem_map.mpr ⟨j, List.mem_range.mpr hj, rfl⟩, ?_, ?_⟩
  · exact htm.shows.pc.trans (setWidth_index hx' (by decide : 4 * 26 < 2 ^ 32))
  · funext i
    rw [htm.shows.dataMem i, ht.shows.dataMem i, Hart.goto_mem, Hart.goto_mem, hk.mem]
  · rw [htm.shows.regMem]
    exact hv
  · intro w hw
    obtain ⟨k', hk', rfl⟩ := List.mem_map.mp hw
    exact hmax k' (List.mem_range.mp hk')

/-- 60 words at address 100, those from 0x80 on negative. -/
theorem core_finds_sixty :
    let s : State 32 (instMemDepth true) :=
      { (running mem 0x44 (Csr.reset false) fun r ↦
          if r = 10 then 100 else if r = 11 then 0x64646464 else if r = 12 then 1
          else if r = 13 then 60 else 0 : State 32 4096) with
        dataMem := { memx := fun i ↦ BitVec.ofNat 8 (i.val / 4 * 4), regRd := 0 } }
    ∃ m, let t := Lib.run (fun p s ↦ s.cycle p) (fun _ ↦ irqLine false) s m
      t.core.pc = 0x68 ∧ t.core.imemReq = true ∧ t.dataMem.memx = s.dataMem.memx ∧
      ∃ v ∈ s.dataWords 100 60, t.regMem 11 = v.signExtend 32 ∧
        ∀ w ∈ s.dataWords 100 60, w.toInt ≤ v.toInt := by
  intro s
  exact core_finds (.inl rfl) rfl rfl rfl rfl (by decide) (by decide) rfl (by decide +kernel) rfl
    rfl fun _ ↦ ⟨rfl, rfl, rfl⟩

/-- What `tb_asm_arr` waits for and checks, from any state before reset. -/
theorem asm_arr_ends (hx : xlen = 32 ∨ xlen = 64) {verilator : Bool}
    {s : State xlen (instMemDepth verilator)} (himage : s.instructionMem.memx = image mem)
    {level : Bool} {ps : List (Inputs xlen)} (hps : 2 ≤ ps.length)
    (hlow : (resetPulse ps (level, s)).1 = false) {p : Inputs xlen} {is : Nat → Inputs xlen}
    (hlines : ∀ k, LinesLow (is k)) :
    ∃ n, let t := Lib.run (fun p s ↦ s.cycle p) is (tick p (resetPulse ps (level, s))).2 n
      t.dataWord 24 = 42 ∧
      ∀ (js : Nat → Inputs xlen) (m : Nat), Frozen t (Lib.run tick js (true, t) m).2 := by
  have hlen : 4 * asm.length + 4 ≤ instMemDepth verilator := by
    cases verilator <;> decide
  obtain ⟨n, k, hword, hend⟩ := ends_of_reaches hx himage (assembles hx) rfl
    (by decide) hlen (fun _ h hcode ↦ reaches_end (by omega) hcode (by decide) (by decide) h)
    hps hlow (p := p) hlines
  exact ⟨n, (dataWord_eq hend.dataMem (by omega) (by decide)).trans hword, hend.frozen⟩

end FindMax

namespace Fibonacci

/-- `asm/fibonacci_sequence.asm` -/
def asm : List Instr :=
  [.lui 10 0x00000, .opImm .add 10 10 0,
    .opImm .add 11 0 0, .opImm .add 12 0 1,
    .store .sw 10 11 0, .store .sw 10 12 4,
    .opImm .add 13 0 2,
    -- loop_cond
    .opImm .add 14 0 10, .branch .bge 13 14 36,
    .opReg .add 15 11 12, .opImm .sll 16 13 2, .opReg .add 17 10 16, .store .sw 17 15 0,
    .opReg .add 11 12 0, .opReg .add 12 15 0,
    .opImm .add 13 13 1, .jal 0 (-36),
    -- done
    .opImm .add 0 0 0]

/-- `asm/fibonacci_sequence.mem` -/
def mem : List (BitVec 32) :=
  [0x00000537, 0x00050513, 0x00000593, 0x00100613, 0x00b52023, 0x00c52223, 0x00200693,
    0x00a00713, 0x02e6d263, 0x00c587b3, 0x00269813, 0x010508b3, 0x00f8a023, 0x000605b3,
    0x00078633, 0x00168693, 0xfddff06f, 0x00000013, 0x00000000]

theorem assembles (hx : xlen = 32 ∨ xlen = 64) : Assembles xlen asm mem := by
  rcases hx with rfl | rfl <;> decide +kernel

/-- At `loop_cond`, with the first `i` terms in memory. -/
structure Written (g : Hart xlen) (i : Nat) (h : Hart xlen) : Prop where
  x10 : h.get 10 = BitVec.ofInt xlen (0 : Nat)
  x11 : h.get 11 = BitVec.ofInt xlen (Nat.fib (i - 2))
  x12 : h.get 12 = BitVec.ofInt xlen (Nat.fib (i - 1))
  x13 : h.get 13 = BitVec.ofInt xlen i
  words : h.Words 0 i fun k ↦ BitVec.ofNat 32 (Nat.fib k)
  rest : g.SameOutside 0 40 h

section Rounds

variable (hx : 32 ≤ xlen) (hcode : code.Holds asm) (hdepth : depth ≤ 2 ^ 31) (hin : 40 ≤ depth)

include hx hcode hdepth hin

/-- A round of the loop. -/
theorem round {i : Nat} (h2 : 2 ≤ i) (hi : i < 10) (hh : Written g i h) :
    Reaches code depth (fun h' ↦ ∃ k, h' = Hart.goto k 7 ∧ Written g (i + 1) k) (h.goto 7) := by
  obtain ⟨j, rfl⟩ := Nat.exists_eq_add_of_le' h2
  have hfib : Nat.fib j + Nat.fib (j + 1) = Nat.fib (j + 2) := Nat.fib_add_two.symm
  refine .opImm hcode rfl (v := BitVec.ofInt xlen (10 : Nat)) (h.apply_add_get_zero 10) ?_
  refine .notTaken hcode rfl ?_ ?_
  · simp only [Hart.get_set, BitVec.reduceEq, ite_true, ite_false, hh.x13]
    rw [holds_bge hx ⟨by omega, by omega⟩ ⟨by omega, by omega⟩, decide_eq_false_iff_not]
    omega
  refine .opReg hcode rfl (v := BitVec.ofInt xlen (Nat.fib (j + 2))) ?_ ?_
  · simp only [Hart.get_set, BitVec.reduceEq, ite_false, hh.x11, hh.x12]
    rw [apply_add, ← hfib, Nat.cast_add]
    rfl
  refine .opImm hcode rfl (v := BitVec.ofInt xlen (4 * (j + 2 : Nat))) ?_ ?_
  · simp only [Hart.get_set, BitVec.reduceEq, ite_false, hh.x13]
    exact apply_sll_two hx _
  refine .opReg hcode rfl (v := BitVec.ofInt xlen ((0 : Nat) + 4 * (j + 2 : Nat))) ?_ ?_
  · simp only [Hart.get_set, BitVec.reduceEq, ite_true, ite_false, hh.x10, apply_add]
  refine .sw hcode hx hdepth rfl (0 + 4 * (j + 2)) ?_ (by omega)
    (v := BitVec.ofInt xlen (Nat.fib (j + 2))) ?_ ?_
  · simp only [Hart.get_set, BitVec.reduceEq, ite_true, ite_false]
    rw [← BitVec.ofInt_add]
    rfl
  · simp only [Hart.get_set, BitVec.reduceEq, ite_true, ite_false]
  refine .opReg hcode rfl (v := BitVec.ofInt xlen (Nat.fib (j + 1))) ?_ ?_
  · simp only [Hart.setWord_get, Hart.get_set, BitVec.reduceEq, ite_true, ite_false, hh.x12]
    exact BitVec.add_zero _
  refine .opReg hcode rfl (v := BitVec.ofInt xlen (Nat.fib (j + 2))) ?_ ?_
  · simp only [Hart.setWord_get, Hart.get_set, BitVec.reduceEq, ite_true, ite_false]
    exact BitVec.add_zero _
  refine .opImm hcode rfl (v := BitVec.ofInt xlen (j + 2 + 1 : Nat)) ?_ ?_
  · simp only [Hart.setWord_get, Hart.get_set, BitVec.reduceEq, ite_false, hh.x13]
    exact apply_add _ _
  refine .jump hcode hx rfl 7 (by decide) (.done ⟨_, rfl, ?_, ?_, ?_, ?_, ?_, ?_⟩)
  · simp only [Hart.setWord_get, Hart.get_set, BitVec.reduceEq, ite_false, hh.x10]
  · simp only [Hart.get_set, BitVec.reduceEq, ite_true, ite_false]
    rfl
  · simp only [Hart.get_set, BitVec.reduceEq, ite_true, ite_false]
    rfl
  · simp only [Hart.get_set, BitVec.reduceEq, ite_true, ite_false]
  · intro k hk
    rw [Hart.set_word, Hart.set_word, Hart.set_word]
    rcases Nat.lt_or_eq_of_le (Nat.le_of_lt_succ hk) with hlt | rfl
    · rw [Hart.setWord_word_of_disjoint hx (by omega) (by omega) (by omega), Hart.set_word,
        Hart.set_word, Hart.set_word, Hart.set_word, hh.words k hlt]
    · rw [Hart.setWord_word hx (by omega), setWidth_ofInt hx]
      rfl
  · intro b hb
    rw [Hart.set_mem, Hart.set_mem, Hart.set_mem, Hart.setWord_mem hx (by omega),
      if_neg (by omega), Hart.set_mem, Hart.set_mem, Hart.set_mem, Hart.set_mem, hh.rest b hb]

/-- The program ends behind its last instruction with the first ten terms in memory and the rest
of the memory as it was. -/
theorem reaches_end (h : Hart xlen) :
    Reaches code depth (fun h' ↦ ∃ k, h' = Hart.goto k 18 ∧ Written h 10 k) (h.goto 0) := by
  refine .cleared hcode (by decide) rfl rfl fun g hg _ hmem ↦ ?_
  refine .opImm hcode rfl (v := BitVec.ofInt xlen (Nat.fib 0)) (Hart.apply_add_get_zero _ 0) ?_
  refine .opImm hcode rfl (v := BitVec.ofInt xlen (Nat.fib 1)) (Hart.apply_add_get_zero _ 1) ?_
  refine .sw hcode hx hdepth rfl 0 ?_ (by omega) (v := BitVec.ofInt xlen (Nat.fib 0)) ?_ ?_
  · simp only [Hart.get_set, BitVec.reduceEq, ite_false, hg]
    rw [← BitVec.ofInt_add]
    rfl
  · simp only [Hart.get_set, BitVec.reduceEq, ite_true, ite_false]
  refine .sw hcode hx hdepth rfl 4 ?_ (by omega) (v := BitVec.ofInt xlen (Nat.fib 1)) ?_ ?_
  · simp only [Hart.setWord_get, Hart.get_set, BitVec.reduceEq, ite_false, hg]
    rw [← BitVec.ofInt_add]
    rfl
  · simp only [Hart.setWord_get, Hart.get_set, BitVec.reduceEq, ite_true, ite_false]
  refine .opImm hcode rfl (v := BitVec.ofInt xlen (2 : Nat)) (Hart.apply_add_get_zero _ 2) ?_
  refine (Reaches.loop (fun i h' ↦ ∃ k, h' = Hart.goto k 7 ∧ Written h i k)
    (by decide : 2 ≤ 10) ⟨_, rfl, ?_, ?_, ?_, ?_, ?_, ?_⟩ ?_).trans ?_
  · simp only [Hart.setWord_get, Hart.get_set, BitVec.reduceEq, ite_false, hg]
  · simp only [Hart.setWord_get, Hart.get_set, BitVec.reduceEq, ite_true, ite_false]
  · simp only [Hart.setWord_get, Hart.get_set, BitVec.reduceEq, ite_true, ite_false]
  · simp only [Hart.get_set, BitVec.reduceEq, ite_true, ite_false]
  · intro k hk
    rw [Hart.set_word]
    match k, hk with
    | 0, _ =>
      rw [Hart.setWord_word_of_disjoint hx (by decide) (by decide) (by decide),
        Hart.setWord_word hx (by decide), setWidth_ofInt hx]
      rfl
    | 1, _ =>
      rw [Hart.setWord_word hx (by decide), setWidth_ofInt hx]
      rfl
  · intro b hb
    rw [Hart.set_mem, Hart.setWord_mem hx (by decide), if_neg (by omega),
      Hart.setWord_mem hx (by decide), if_neg (by omega), Hart.set_mem, Hart.set_mem, hmem]
  · rintro i _ h2 hi ⟨k, rfl, hk⟩
    exact round hx hcode hdepth hin h2 hi hk
  rintro _ ⟨k, rfl, hk⟩
  refine .opImm hcode rfl (v := BitVec.ofInt xlen (10 : Nat)) (k.apply_add_get_zero 10) ?_
  refine .taken hcode rfl hx 17 (by decide) ?_ ?_
  · simp only [Hart.get_set, BitVec.reduceEq, ite_true, ite_false, hk.x13]
    rw [holds_bge hx ⟨by decide, by decide⟩ ⟨by decide, by decide⟩]
    exact decide_eq_true le_rfl
  refine .opImm hcode rfl rfl (.done ⟨_, rfl, ?_, ?_, ?_, ?_, ?_, ?_⟩)
  · simp only [Hart.set_zero, Hart.get_set, BitVec.reduceEq, ite_false, hk.x10]
  · simp only [Hart.set_zero, Hart.get_set, BitVec.reduceEq, ite_false, hk.x11]
  · simp only [Hart.set_zero, Hart.get_set, BitVec.reduceEq, ite_false, hk.x12]
  · simp only [Hart.set_zero, Hart.get_set, BitVec.reduceEq, ite_false, hk.x13]
  · intro j hj
    rw [Hart.set_word, Hart.set_word, hk.words j hj]
  · intro b hb
    rw [Hart.set_mem, Hart.set_mem, hk.rest b hb]

end Rounds

/-- What `tb_asm_fib` waits for and checks, from any state before reset. -/
theorem asm_fib_ends (hx : xlen = 32 ∨ xlen = 64) {verilator : Bool}
    {s : State xlen (instMemDepth verilator)} (himage : s.instructionMem.memx = image mem)
    {level : Bool} {ps : List (Inputs xlen)} (hps : 2 ≤ ps.length)
    (hlow : (resetPulse ps (level, s)).1 = false) {p : Inputs xlen} {is : Nat → Inputs xlen}
    (hlines : ∀ k, LinesLow (is k)) :
    ∃ n, let t := Lib.run (fun p s ↦ s.cycle p) is (tick p (resetPulse ps (level, s))).2 n
      (∀ k < 10, t.dataWord (4 * k) = BitVec.ofNat 32 (Nat.fib k)) ∧
      (∀ (js : Nat → Inputs xlen) (m : Nat), Frozen t (Lib.run tick js (true, t) m).2) := by
  have hlen : 4 * asm.length + 4 ≤ instMemDepth verilator := by
    cases verilator <;> decide
  have hends : ∀ (code : Code xlen) (h : Hart xlen), code.Holds asm →
      Reaches code dmemDepth (fun h' ↦ ∃ k, h' = Hart.goto k 18 ∧
        ∀ j < 10, k.word (4 * j) = BitVec.ofNat 32 (Nat.fib j)) (h.goto 0) := by
    intro code h hcode
    refine (reaches_end (by omega) hcode (by decide) (by decide) h).mono ?_
    rintro _ ⟨k, rfl, hk⟩
    refine ⟨k, rfl, fun j hj ↦ ?_⟩
    have hword := hk.words j hj
    rwa [Nat.zero_add] at hword
  obtain ⟨n, k, hk, hend⟩ := ends_of_reaches hx himage (assembles hx) rfl (by decide) hlen hends
    hps hlow (p := p) hlines
  refine ⟨n, fun j hj ↦ ?_, hend.frozen⟩
  exact (dataWord_eq hend.dataMem (by omega) (by show _ ≤ 512; omega)).trans (hk j hj)

end Fibonacci

/-! ## The application tests -/

/-- The three application tests of `testbench.sv` pass: in both widths, after any reset pulse of a
clock period that is released while `clk` is low, whatever the registers, the data memory, the
CSRs and the latches held before, each program runs to its all-zero word with the expected
values in place, and from then on nothing changes whatever the inputs are. -/
theorem application_tests_pass (hx : xlen = 32 ∨ xlen = 64) {verilator : Bool}
    (s : State xlen (instMemDepth verilator)) {level : Bool} {ps : List (Inputs xlen)}
    (hps : 2 ≤ ps.length) (hlow : (resetPulse ps (level, s)).1 = false) (p : Inputs xlen)
    {is : Nat → Inputs xlen} (hlines : ∀ k, LinesLow (is k)) :
    let t := fun n ↦ Lib.run (fun p s ↦ s.cycle p) is (tick p (resetPulse ps (level, s))).2 n
    let stays := fun n ↦ ∀ (js : Nat → Inputs xlen) (m : Nat),
      Frozen (t n) (Lib.run tick js (true, t n) m).2
    (s.instructionMem.memx = image BubbleSort.mem →
      ∃ n, (t n).regMem 11 = 9 ∧ (t n).regMem 12 = 7 ∧ (t n).regMem 13 = 4 ∧
        (t n).regMem 14 = 2 ∧ stays n) ∧
    (s.instructionMem.memx = image FindMax.mem → ∃ n, (t n).dataWord 24 = 42 ∧ stays n) ∧
    (s.instructionMem.memx = image Fibonacci.mem →
      ∃ n, (∀ k < 10, (t n).dataWord (4 * k) = BitVec.ofNat 32 (Nat.fib k)) ∧ stays n) :=
  ⟨fun himage ↦ BubbleSort.asm_bub_ends hx himage hps hlow hlines,
    fun himage ↦ FindMax.asm_arr_ends hx himage hps hlow hlines,
    fun himage ↦ Fibonacci.asm_fib_ends hx himage hps hlow hlines⟩

/-- Bubble sort after a reset in the middle of a run, with other contents everywhere. -/
theorem application_tests_pass_again :
    let s : State 32 (instMemDepth true) :=
      { (running BubbleSort.mem 0x40 (irqsEnabled 8) fun r ↦ r.setWidth 32 : State 32 4096) with
        dataMem := { memx := fun i ↦ BitVec.ofNat 8 i, regRd := 77 } }
    let x := tick (irqLine true) (resetPulse [irqLine true, irqLine false] (false, s))
    let t := fun n ↦ Lib.run (fun p s ↦ s.cycle p) (fun _ ↦ irqLine false) x.2 n
    ∃ n, (t n).regMem 11 = 9 ∧ (t n).regMem 12 = 7 ∧ (t n).regMem 13 = 4 ∧ (t n).regMem 14 = 2 ∧
      ∀ (js : Nat → Inputs 32) (m : Nat), Frozen (t n) (Lib.run tick js (true, t n) m).2 := by
  intro s x t
  exact (application_tests_pass (.inl rfl) s (by decide) rfl (irqLine true)
    fun _ ↦ ⟨rfl, rfl, rfl⟩).1 rfl

end RtlCores.Riscv
