import RtlCores.Lib.Exchange
import RtlCores.Riscv.Execution

/-!
# Bubble sort (`RISCV_SingleCycle/asm/bubble_sort.asm`)

The program puts an array of four words into the data memory, sorts it in decreasing signed order
and loads it into registers.  The two loops are shown correct for arrays of every length and
contents: each round of the inner loop is an exchange of neighbours, each round of the outer
loop a pass.
-/

namespace RtlCores.Riscv.BubbleSort

open RtlCores.Lib RtlCores.Lib.Isa

/-- `asm/bubble_sort.asm` -/
def asm : List Instr :=
  [.lui 10 0x00000, .opImm .add 10 10 0,
    -- the array
    .opImm .add 11 0 7, .store .sw 10 11 0,
    .opImm .add 11 0 2, .store .sw 10 11 4,
    .opImm .add 11 0 9, .store .sw 10 11 8,
    .opImm .add 11 0 4, .store .sw 10 11 12,
    -- its size, the loop limit and `i`
    .opImm .add 11 0 4, .opImm .add 12 11 (-1), .opImm .add 13 0 0,
    -- outer_loop_cond
    .branch .bge 13 12 64, .opImm .add 14 0 0,
    -- inner_loop_cond
    .opReg .sub 15 11 13, .opImm .add 15 15 (-1), .branch .bge 14 15 40,
    .opImm .sll 16 14 2, .opReg .add 17 10 16, .load .lw 18 17 0, .load .lw 19 17 4,
    .branch .bge 18 19 12, .store .sw 17 19 0, .store .sw 17 18 4,
    -- no_swap
    .opImm .add 14 14 1, .jal 0 (-44),
    -- outer_loop_incr
    .opImm .add 13 13 1, .jal 0 (-60),
    -- sort_done
    .load .lw 11 17 0, .load .lw 12 17 4, .load .lw 13 17 8, .load .lw 14 17 12,
    .opImm .add 0 0 0]

/-- `asm/bubble_sort.mem` -/
def mem : List (BitVec 32) :=
  [0x00000537, 0x00050513, 0x00700593, 0x00b52023, 0x00200593, 0x00b52223, 0x00900593,
    0x00b52423, 0x00400593, 0x00b52623, 0x00400593, 0xfff58613, 0x00000693, 0x04c6d063,
    0x00000713, 0x40d587b3, 0xfff78793, 0x02f75463, 0x00271813, 0x010508b3, 0x0008a903,
    0x0048a983, 0x01395663, 0x0138a023, 0x0128a223, 0x00170713, 0xfd5ff06f, 0x00168693,
    0xfc5ff06f, 0x0008a583, 0x0048a603, 0x0088a683, 0x00c8a703, 0x00000013, 0x00000000]

theorem assembles {xlen : Nat} (hx : xlen = 32 ∨ xlen = 64) : Assembles xlen asm mem := by
  rcases hx with rfl | rfl <;> decide +kernel

/-- The order of the sorted array. -/
def Desc (v w : BitVec 32) : Prop := w.toInt ≤ v.toInt

instance : DecidableRel Desc := fun v w ↦ inferInstanceAs (Decidable (w.toInt ≤ v.toInt))

instance : Std.Total Desc := ⟨fun v w ↦ le_total w.toInt v.toInt⟩

instance : IsTrans (BitVec 32) Desc := ⟨fun _ _ _ huv hvw ↦ le_trans hvw huv⟩

variable {xlen : Nat} {code : Code xlen} {base n : Nat} {g h : Hart xlen}

/-- The array `a` of `n` words at `base`, the registers that point to it, and the rest of the
memory as it was in `g`. -/
structure Holding (base n : Nat) (g : Hart xlen) (a : Nat → BitVec 32) (h : Hart xlen) : Prop where
  x10 : h.get 10 = BitVec.ofInt xlen base
  x11 : h.get 11 = BitVec.ofInt xlen n
  x12 : h.get 12 = BitVec.ofInt xlen (n - 1)
  words : h.Words base n a
  rest : g.SameOutside base (base + 4 * n) h

/-- At `outer_loop_cond`, after `i` passes. -/
structure Outer (base n : Nat) (g : Hart xlen) (a : Nat → BitVec 32) (i : Nat) (h : Hart xlen) :
    Prop where
  holding : Holding base n g (passes Desc n a i) h
  x13 : h.get 13 = BitVec.ofInt xlen i
  x17 : 0 < i → h.get 17 = BitVec.ofInt xlen (base + 4 * (n - 1 - i : Nat))

/-- At `inner_loop_cond` of pass `i`, after `j` exchanges. -/
structure Inner (base n : Nat) (g : Hart xlen) (a : Nat → BitVec 32) (i j : Nat) (h : Hart xlen) :
    Prop where
  holding : Holding base n g (pass Desc a j) h
  x13 : h.get 13 = BitVec.ofInt xlen i
  x14 : h.get 14 = BitVec.ofInt xlen j
  x17 : 0 < j → h.get 17 = BitVec.ofInt xlen (base + 4 * (j - 1 : Nat))

/-- At `no_swap`, after exchange `j` of pass `i`. -/
structure Exchanged (base n : Nat) (g : Hart xlen) (a : Nat → BitVec 32) (i j : Nat)
    (h : Hart xlen) : Prop where
  holding : Holding base n g (exchange Desc a j) h
  x13 : h.get 13 = BitVec.ofInt xlen i
  x14 : h.get 14 = BitVec.ofInt xlen j
  x17 : h.get 17 = BitVec.ofInt xlen (base + 4 * j)

variable {depth : Nat} {a : Nat → BitVec 32} {i j : Nat}

/-- Writes of other registers keep the array. -/
theorem Holding.set (hh : Holding base n g a h) {rd : BitVec 5} (v : BitVec xlen)
    (hrd : rd ≠ 10 ∧ rd ≠ 11 ∧ rd ≠ 12) : Holding base n g a (h.set rd v) := by
  obtain ⟨h10, h11, h12⟩ := hrd
  refine ⟨?_, ?_, ?_, ?_, ?_⟩
  · rw [Hart.get_set_of_ne _ _ h10.symm, hh.x10]
  · rw [Hart.get_set_of_ne _ _ h11.symm, hh.x11]
  · rw [Hart.get_set_of_ne _ _ h12.symm, hh.x12]
  · intro i hi
    rw [Hart.set_word, hh.words i hi]
  · intro b hb
    rw [Hart.set_mem, hh.rest b hb]

/-- Two words of the array swapped. -/
theorem Holding.swap (hx : 32 ≤ xlen) (hbase : base + 4 * n ≤ 2 ^ 32)
    (hh : Holding base n g a h) (hj : j + 1 < n) :
    Holding base n g (a ∘ Equiv.swap j (j + 1))
      ((h.setWord (base + 4 * j) ((a (j + 1)).signExtend xlen)).setWord (base + 4 * (j + 1))
        ((a j).signExtend xlen)) := by
  refine ⟨hh.x10, hh.x11, hh.x12, ?_, ?_⟩
  · have hwords := (hh.words.setWord hx hbase (by omega : j < n)
      ((a (j + 1)).signExtend xlen)).setWord hx hbase hj ((a j).signExtend xlen)
    rw [setWidth_signExtend_word hx, setWidth_signExtend_word hx] at hwords
    rwa [Equiv.swap_comm, Equiv.comp_swap_eq_update]
  · exact (hh.rest.setWord hx (by omega) (by omega) hbase _).setWord hx (by omega) (by omega)
      hbase _

/-- `x15 = size - i - 1`, with which `j` is compared at instruction 17. -/
theorem reaches_limit (hcode : code.Holds asm) {Q : Hart xlen → Prop}
    (hh : Holding base n g a h) (h13 : h.get 13 = BitVec.ofInt xlen i)
    (hnext : Reaches code depth Q
      (((h.set 15 (BitVec.ofInt xlen (n - i))).set 15 (BitVec.ofInt xlen (n - i - 1))).goto 17)) :
    Reaches code depth Q (h.goto 15) := by
  refine .opReg hcode rfl (v := BitVec.ofInt xlen (n - i)) ?_ ?_
  · rw [hh.x11, h13, apply_sub]
  refine .opImm hcode rfl (v := BitVec.ofInt xlen (n - i - 1)) ?_ hnext
  simp only [Hart.get_set, BitVec.reduceEq, ite_true, ite_false]
  exact apply_add _ _

section Rounds

variable (hx : 32 ≤ xlen) (hcode : code.Holds asm) (hdepth : depth ≤ 2 ^ 31)
  (hbase : base + 4 * n ≤ depth)

include hx hcode hdepth hbase

/-- The words at `j` and `j + 1` are put in order. -/
theorem reaches_exchanged (hj : j + 1 < n) (hh : Holding base n g a h)
    (h13 : h.get 13 = BitVec.ofInt xlen i) (h14 : h.get 14 = BitVec.ofInt xlen j) :
    Reaches code depth (fun h' ↦ ∃ k, h' = Hart.goto k 25 ∧ Exchanged base n g a i j k)
      (h.goto 18) := by
  -- x16 = 4 * j, x17 = base + 4 * j
  refine .opImm hcode rfl (v := BitVec.ofInt xlen (4 * j)) ?_ ?_
  · rw [h14]
    exact apply_sll_two hx j
  refine .opReg hcode rfl (v := BitVec.ofInt xlen (base + 4 * j)) ?_ ?_
  · simp only [Hart.get_set, BitVec.reduceEq, ite_true, ite_false, hh.x10, apply_add]
  -- x18 = array[j], x19 = array[j + 1]
  refine .lw hcode hx hdepth rfl (base + 4 * j) ?_ (by omega) (v := a j) ?_ ?_
  · simp only [Hart.get_set, BitVec.reduceEq, ite_true, ite_false]
    rw [← BitVec.ofInt_add]
    rfl
  · rw [Hart.set_word, Hart.set_word, hh.words j (by omega)]
  refine .lw hcode hx hdepth rfl (base + 4 * (j + 1)) ?_ (by omega) (v := a (j + 1)) ?_ ?_
  · simp only [Hart.get_set, BitVec.reduceEq, ite_true, ite_false]
    rw [← BitVec.ofInt_add]
    rfl
  · rw [Hart.set_word, Hart.set_word, Hart.set_word, hh.words (j + 1) hj]
  set k := ((((h.set 16 (BitVec.ofInt xlen (4 * j))).set 17 (BitVec.ofInt xlen (base + 4 * j))).set
    18 ((a j).signExtend xlen)).set 19 ((a (j + 1)).signExtend xlen)) with hk
  have hholding : Holding base n g a k :=
    (((hh.set _ (by decide)).set _ (by decide)).set _ (by decide)).set _ (by decide)
  have h13' : k.get 13 = BitVec.ofInt xlen i := by
    simp only [hk, Hart.get_set, BitVec.reduceEq, ite_false, h13]
  have h14' : k.get 14 = BitVec.ofInt xlen j := by
    simp only [hk, Hart.get_set, BitVec.reduceEq, ite_false, h14]
  have h17 : k.get 17 = BitVec.ofInt xlen (base + 4 * j) := by
    simp only [hk, Hart.get_set, BitVec.reduceEq, ite_true, ite_false]
  have h18 : k.get 18 = (a j).signExtend xlen := by
    simp only [hk, Hart.get_set, BitVec.reduceEq, ite_true, ite_false]
  have h19 : k.get 19 = (a (j + 1)).signExtend xlen := by
    simp only [hk, Hart.get_set, BitVec.reduceEq, ite_true, ite_false]
  by_cases hdesc : Desc (a j) (a (j + 1))
  · refine .taken hcode rfl hx 25 (by decide) ?_ (.done ⟨k, rfl, ?_, h13', h14', h17⟩)
    · rw [h18, h19, holds_bge_signExtend hx]
      exact decide_eq_true hdesc
    · rwa [exchange, if_pos hdesc]
  · refine .notTaken hcode rfl ?_ ?_
    · rw [h18, h19, holds_bge_signExtend hx]
      exact decide_eq_false hdesc
    refine .sw hcode hx hdepth rfl (base + 4 * j) ?_ (by omega) h19 ?_
    · rw [h17, ← BitVec.ofInt_add]
      rfl
    refine .sw hcode hx hdepth rfl (base + 4 * (j + 1)) ?_ (by omega) h18 ?_
    · rw [Hart.setWord_get, h17, ← BitVec.ofInt_add]
      rfl
    refine .done ⟨_, rfl, ?_, h13', h14', h17⟩
    rw [exchange, if_neg hdesc]
    exact hholding.swap hx (by omega) hj

/-- A round of the inner loop. -/
theorem inner_round (hj : j + 1 < n - i) (hh : Inner base n g a i j h) :
    Reaches code depth (fun h' ↦ ∃ k, h' = Hart.goto k 15 ∧ Inner base n g a i (j + 1) k)
      (h.goto 15) := by
  refine reaches_limit hcode hh.holding hh.x13 ?_
  refine .notTaken hcode rfl ?_ ?_
  · simp only [Hart.get_set, BitVec.reduceEq, ite_true, ite_false, hh.x14]
    rw [holds_bge hx ⟨by omega, by omega⟩ ⟨by omega, by omega⟩, decide_eq_false_iff_not]
    omega
  refine (reaches_exchanged (i := i) hx hcode hdepth hbase (show j + 1 < n by omega)
    ((hh.holding.set _ (by decide)).set _ (by decide)) ?_ ?_).trans ?_
  · simp only [Hart.get_set, BitVec.reduceEq, ite_false, hh.x13]
  · simp only [Hart.get_set, BitVec.reduceEq, ite_false, hh.x14]
  rintro _ ⟨k, rfl, hk⟩
  refine .opImm hcode rfl (v := BitVec.ofInt xlen (j + 1 : Nat)) ?_ ?_
  · rw [hk.x14]
    exact apply_add _ _
  refine .jump hcode hx rfl 15 (by decide) (.done ⟨_, rfl, hk.holding.set _ (by decide), ?_, ?_, ?_⟩)
  · rw [Hart.get_set_of_ne _ _ (by decide), hk.x13]
  · simp only [Hart.get_set, BitVec.reduceEq, ite_true, ite_false]
  · intro _
    rw [Hart.get_set_of_ne _ _ (by decide), hk.x17, Nat.add_sub_cancel]

/-- A round of the outer loop. -/
theorem outer_round (hi : i + 1 < n) (hh : Outer base n g a i h) :
    Reaches code depth (fun h' ↦ ∃ k, h' = Hart.goto k 13 ∧ Outer base n g a (i + 1) k)
      (h.goto 13) := by
  refine .notTaken hcode rfl ?_ ?_
  · rw [hh.x13, hh.holding.x12, holds_bge hx ⟨by omega, by omega⟩ ⟨by omega, by omega⟩,
      decide_eq_false_iff_not]
    omega
  refine .opImm hcode rfl (v := BitVec.ofInt xlen (0 : Nat)) (h.apply_add_get_zero 0) ?_
  -- the inner loop, up to `j = size - i - 1`
  have hstart :
      Inner base n g (passes Desc n a i) i 0 (h.set 14 (BitVec.ofInt xlen (0 : Nat))) := by
    refine ⟨hh.holding.set _ (by decide), ?_, ?_, fun hlt ↦ absurd hlt (by decide)⟩
    · rw [Hart.get_set_of_ne _ _ (by decide), hh.x13]
    · simp only [Hart.get_set, BitVec.reduceEq, ite_true, ite_false]
  refine (Reaches.loop (fun j h' ↦ ∃ k, h' = Hart.goto k 15 ∧
    Inner base n g (passes Desc n a i) i j k) (Nat.zero_le (n - 1 - i)) ⟨_, rfl, hstart⟩ ?_).trans ?_
  · rintro j _ - hj ⟨k, rfl, hk⟩
    exact inner_round hx hcode hdepth hbase (by omega) hk
  rintro _ ⟨k, rfl, hk⟩
  refine reaches_limit hcode hk.holding hk.x13 ?_
  refine .taken hcode rfl hx 27 (by decide) ?_ ?_
  · simp only [Hart.get_set, BitVec.reduceEq, ite_true, ite_false, hk.x14]
    rw [holds_bge hx ⟨by omega, by omega⟩ ⟨by omega, by omega⟩, decide_eq_true_iff]
    omega
  refine .opImm hcode rfl (v := BitVec.ofInt xlen (i + 1 : Nat)) ?_ ?_
  · simp only [Hart.get_set, BitVec.reduceEq, ite_false, hk.x13]
    exact apply_add _ _
  refine .jump hcode hx rfl 13 (by decide) (.done ⟨_, rfl, ?_, ?_, ?_⟩)
  · exact ((hk.holding.set _ (by decide)).set _ (by decide)).set _ (by decide)
  · simp only [Hart.get_set, BitVec.reduceEq, ite_true, ite_false]
  · intro _
    simp only [Hart.get_set, BitVec.reduceEq, ite_false]
    rw [hk.x17 (by omega), show n - 1 - i - 1 = n - 1 - (i + 1) by omega]

/-- From the point where the array is in memory and its size in `x11`, the sort comes to
`sort_done`. -/
theorem reaches_sorted (h10 : h.get 10 = BitVec.ofInt xlen base)
    (h11 : h.get 11 = BitVec.ofInt xlen n) (hwords : h.Words base n a) :
    Reaches code depth (fun h' ↦ ∃ k, h' = Hart.goto k 29 ∧
      Outer base n h a (n - 1) k) (h.goto 11) := by
  refine .opImm hcode rfl (v := BitVec.ofInt xlen (n - 1)) ?_ ?_
  · rw [h11]
    exact apply_add _ _
  refine .opImm hcode rfl (v := BitVec.ofInt xlen (0 : Nat)) (Hart.apply_add_get_zero _ 0) ?_
  have hstart : Outer base n h a 0
      ((h.set 12 (BitVec.ofInt xlen (n - 1))).set 13 (BitVec.ofInt xlen (0 : Nat))) := by
    refine ⟨⟨?_, ?_, ?_, ?_, ?_⟩, ?_, fun hlt ↦ absurd hlt (by decide)⟩
    · simp only [Hart.get_set, BitVec.reduceEq, ite_false, h10]
    · simp only [Hart.get_set, BitVec.reduceEq, ite_false, h11]
    · simp only [Hart.get_set, BitVec.reduceEq, ite_true, ite_false]
    · intro i hi
      rw [Hart.set_word, Hart.set_word, hwords i hi]
      rfl
    · intro b _
      rw [Hart.set_mem, Hart.set_mem]
    · simp only [Hart.get_set, BitVec.reduceEq, ite_true, ite_false]
  refine (Reaches.loop (fun i h' ↦ ∃ k, h' = Hart.goto k 13 ∧ Outer base n h a i k)
    (Nat.zero_le (n - 1)) ⟨_, rfl, hstart⟩ ?_).trans ?_
  · rintro i _ - hi ⟨k, rfl, hk⟩
    exact outer_round hx hcode hdepth hbase (by omega) hk
  rintro _ ⟨k, rfl, hk⟩
  refine .taken hcode rfl hx 29 (by decide) ?_ (.done ⟨k, rfl, hk⟩)
  rw [hk.x13, hk.holding.x12, holds_bge hx ⟨by omega, by omega⟩ ⟨by omega, by omega⟩,
    decide_eq_true_iff]
  omega

end Rounds

/-! ## The whole program -/

/-- The array of the program. -/
def array : Nat → BitVec 32 := fun k ↦ ((([7, 2, 9, 4] : List (BitVec 12)).getD k 0).signExtend 32)

section Whole

variable {depth : Nat} (hx : 32 ≤ xlen) (hcode : code.Holds asm) (hdepth : depth ≤ 2 ^ 31)
  (hin : 16 ≤ depth)

include hx hcode hdepth hin

/-- The array in memory, its size in `x11`. -/
theorem reaches_loaded {Q : Hart xlen → Prop}
    (hnext : ∀ h' : Hart xlen, h'.get 10 = BitVec.ofInt xlen (0 : Nat) →
      h'.get 11 = BitVec.ofInt xlen (4 : Nat) → h'.Words 0 4 array →
      Reaches code depth Q (h'.goto 11)) :
    Reaches code depth Q (h.goto 0) := by
  refine .cleared hcode (by decide) rfl rfl fun g hg _ _ ↦ ?_
  refine (Reaches.array hcode hx hdepth 10 11 (fun j ↦ ([7, 2, 9, 4] : List (BitVec 12)).getD j 0)
    (by decide) (by decide) (by decide) (by decide) hg hin (k := 2) (n := 4)).trans ?_
  rintro _ ⟨k, rfl, h10, hwords, -⟩
  refine .opImm hcode rfl (v := BitVec.ofInt xlen (4 : Nat)) (k.apply_add_get_zero 4) ?_
  refine hnext _ ?_ ?_ ?_
  · rw [Hart.get_set_of_ne _ _ (by decide), h10]
  · rw [Hart.get_set, if_neg (by decide), if_pos rfl]
  · intro i hi
    rw [Hart.set_word, hwords i hi]
    rfl

/-- The program ends behind its last instruction with the sorted array in `x11` to `x14`. -/
theorem reaches_end (h : Hart xlen) :
    Reaches code depth (fun h' ↦ ∃ k, h' = Hart.goto k 34 ∧ k.get 11 = BitVec.ofInt xlen 9 ∧
      k.get 12 = BitVec.ofInt xlen 7 ∧ k.get 13 = BitVec.ofInt xlen 4 ∧
      k.get 14 = BitVec.ofInt xlen 2) (h.goto 0) := by
  refine reaches_loaded hx hcode hdepth hin fun h₁ h10 h11 hwords ↦ ?_
  refine (reaches_sorted hx hcode hdepth (by omega) h10 h11 hwords).trans ?_
  rintro _ ⟨k, rfl, hk⟩
  have hword : ∀ i < 4, k.word (4 * i) = passes Desc 4 array 3 i := by
    intro i hi
    rw [← hk.holding.words i hi, Nat.zero_add]
  have h17 : k.get 17 = BitVec.ofInt xlen 0 := hk.x17 (by decide)
  refine .lw hcode hx hdepth rfl 0 ?_ (by omega) (v := 9) ?_ ?_
  · rw [h17, ← BitVec.ofInt_add]
    rfl
  · exact (hword 0 (by decide)).trans (by decide)
  refine .lw hcode hx hdepth rfl 4 ?_ (by omega) (v := 7) ?_ ?_
  · rw [Hart.get_set_of_ne _ _ (by decide), h17, ← BitVec.ofInt_add]
    rfl
  · exact (hword 1 (by decide)).trans (by decide)
  refine .lw hcode hx hdepth rfl 8 ?_ (by omega) (v := 4) ?_ ?_
  · simp only [Hart.get_set, BitVec.reduceEq, ite_false, h17]
    rw [← BitVec.ofInt_add]
    rfl
  · exact (hword 2 (by decide)).trans (by decide)
  refine .lw hcode hx hdepth rfl 12 ?_ (by omega) (v := 2) ?_ ?_
  · simp only [Hart.get_set, BitVec.reduceEq, ite_false, h17]
    rw [← BitVec.ofInt_add]
    rfl
  · exact (hword 3 (by decide)).trans (by decide)
  refine .opImm hcode rfl rfl (.done ⟨_, rfl, ?_⟩)
  simp only [Hart.set_zero, Hart.get_set, BitVec.reduceEq, ite_true, ite_false]
  exact ⟨rfl, rfl, rfl, rfl⟩

end Whole

/-! ## On the core -/

open RtlCores.Riscv.State

/-- The words of an array that a hart holds, as the core has them. -/
theorem dataWords_eq {depth : Nat} {s : State xlen depth} (hx : 32 ≤ xlen) (hs : s.Shows h)
    (hbase : base + 4 * n ≤ dmemDepth) (hwords : h.Words base n a) :
    s.dataWords base n = (List.range n).map a := by
  refine List.map_congr_left fun k hk ↦ ?_
  have hlt := List.mem_range.mp hk
  rw [hs.dataWord hx (by omega), hwords k hlt]

/-- What stands outside the array, as the core has it. -/
theorem memx_eq {depth : Nat} {s t : State xlen depth} (hx : 32 ≤ xlen) (hs : s.Shows g)
    (ht : t.Shows h) (hrest : g.SameOutside base (base + 4 * n) h) (i : Fin dmemDepth)
    (hi : i.val < base ∨ base + 4 * n ≤ i.val) : t.dataMem.memx i = s.dataMem.memx i := by
  have hnat := toNat_ofNat_dmem hx i
  rw [ht.dataMem i, hs.dataMem i, hrest _ (by rwa [hnat])]

/-- In both widths, for every length and contents of the array and wherever it lies: from
`addi x12, x11, -1` on, with the base in `x10`, the length in `x11` and the lines low, the core
comes to `sort_done` with the same words in decreasing signed order and no other byte of the data
memory changed. -/
theorem core_sorts (hx : xlen = 32 ∨ xlen = 64) {verilator : Bool}
    {s : State xlen (instMemDepth verilator)} (himage : s.instructionMem.memx = image mem)
    (himem : s.core.imemReq = true) (hx0 : s.regMem 0 = 0) (hpc : s.core.pc = 0x2C)
    (h10 : s.regMem 10 = BitVec.ofNat xlen base) (h11 : s.regMem 11 = BitVec.ofNat xlen n)
    (hbase : base + 4 * n ≤ dmemDepth) {is : Nat → Inputs xlen} (hlines : ∀ k, LinesLow (is k)) :
    ∃ m, let t := Lib.run (fun p s ↦ s.cycle p) is s m
      t.core.pc = 0x74 ∧ t.core.imemReq = true ∧
      (t.dataWords base n).Perm (s.dataWords base n) ∧
      (t.dataWords base n).Pairwise (fun v w ↦ w.toInt ≤ v.toInt) ∧
      ∀ i : Fin dmemDepth, i.val < base ∨ base + 4 * n ≤ i.val →
        t.dataMem.memx i = s.dataMem.memx i := by
  have hx' : 32 ≤ xlen := by omega
  have hdepth : 4 * asm.length ≤ instMemDepth verilator ∧ instMemDepth verilator ≤ 2 ^ 31 := by
    cases verilator <;> decide
  have hcode : s.code.Holds asm :=
    holds_of_image hx' himage (assembles hx) hdepth.1 hdepth.2
  have ht : Tracks s (s.hart.goto 11) := tracks_goto hx' himem hx0 (by decide) hpc
  have hget : ∀ r : BitVec 5, r ≠ 0 → s.hart.get r = s.regMem r := fun r hr ↦ if_neg hr
  have hwords : s.hart.Words base n fun k ↦ s.dataWord (base + 4 * k) :=
    fun k hk ↦ (ht.shows.dataWord hx' (by omega)).symm
  obtain ⟨m, h', ⟨k, rfl, hk⟩, htm⟩ := ht.reaches hx hlines
    (reaches_sorted hx' hcode (by decide) hbase ((hget 10 (by decide)).trans h10)
      ((hget 11 (by decide)).trans h11) hwords)
  have hsorted := dataWords_eq hx' htm.shows hbase hk.holding.words
  refine ⟨m, ?_, htm.imemReq, ?_, ?_, ?_⟩
  · exact htm.shows.pc.trans (setWidth_index hx' (by decide : 4 * 29 < 2 ^ 32))
  · rw [hsorted]
    exact (passes_shuffle Desc n _ (n - 1) le_rfl).perm
  · rw [hsorted]
    exact passes_pairwise Desc n _
  · exact fun i hi ↦ memx_eq hx' ht.shows htm.shows hk.holding.rest i hi

/-- 100 words at address 40, in increasing order. -/
theorem core_sorts_hundred :
    let s : State 64 (instMemDepth false) :=
      { (running mem 0x2C (Csr.reset false)
          fun r ↦ if r = 10 then 40 else if r = 11 then 100 else 0 : State 64 1024) with
        dataMem := { memx := fun i ↦ if i.val % 4 = 0 then BitVec.ofNat 8 (i.val / 4) else 0,
                     regRd := 0 } }
    ∃ m, let t := Lib.run (fun p s ↦ s.cycle p) (fun _ ↦ irqLine false) s m
      t.core.pc = 0x74 ∧ t.core.imemReq = true ∧
      (t.dataWords 40 100).Perm (s.dataWords 40 100) ∧
      (t.dataWords 40 100).Pairwise (fun v w ↦ w.toInt ≤ v.toInt) ∧
      ∀ i : Fin dmemDepth, i.val < 40 ∨ 40 + 4 * 100 ≤ i.val →
        t.dataMem.memx i = s.dataMem.memx i := by
  intro s
  exact core_sorts (.inr rfl) rfl rfl rfl rfl rfl rfl (by decide) fun _ ↦ ⟨rfl, rfl, rfl⟩

/-- What `tb_asm_bub` waits for and checks, from any state before reset. -/
theorem asm_bub_ends (hx : xlen = 32 ∨ xlen = 64) {verilator : Bool}
    {s : State xlen (instMemDepth verilator)} (himage : s.instructionMem.memx = image mem)
    {level : Bool} {ps : List (Inputs xlen)} (hps : 2 ≤ ps.length)
    (hlow : (resetPulse ps (level, s)).1 = false) {p : Inputs xlen} {is : Nat → Inputs xlen}
    (hlines : ∀ k, LinesLow (is k)) :
    ∃ n, let t := Lib.run (fun p s ↦ s.cycle p) is (tick p (resetPulse ps (level, s))).2 n
      t.regMem 11 = 9 ∧ t.regMem 12 = 7 ∧ t.regMem 13 = 4 ∧ t.regMem 14 = 2 ∧
      ∀ (js : Nat → Inputs xlen) (m : Nat), Frozen t (Lib.run tick js (true, t) m).2 := by
  have hlen : 4 * asm.length + 4 ≤ instMemDepth verilator := by
    cases verilator <;> decide
  obtain ⟨n, k, ⟨h11, h12, h13, h14⟩, hend⟩ := ends_of_reaches hx himage (assembles hx) rfl
    (by decide) hlen (fun _ h hcode ↦ reaches_end (by omega) hcode (by decide) (by decide) h)
    hps hlow (p := p) hlines
  exact ⟨n, by rw [hend.regMem]; exact h11, by rw [hend.regMem]; exact h12,
    by rw [hend.regMem]; exact h13, by rw [hend.regMem]; exact h14, hend.frozen⟩

end RtlCores.Riscv.BubbleSort
