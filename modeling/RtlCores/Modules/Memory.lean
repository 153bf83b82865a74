import RtlCores.Lib.Bytes
import RtlCores.Riscv.Pkg

/-!
# Byte memory (`modules/memory.sv`)

The memory with asynchronous reads (`SYNC_READ = 0`) and `ADDR_WIDTH = 32`, as the core
instantiates it: block sizes, the byte writes of one active clock edge, and the read
register `reg_rd`, which is a level latch.  An array index is a 32-bit expression, so
`addr + k` wraps.  Reading outside the array gives 0, the two-state value of `x`; writing
outside it does nothing.
-/

namespace RtlCores.Modules

open RtlCores.Lib RtlCores.Riscv

variable {depth dataWidth : Nat}

/-- The array `MEMX`, one byte an address. -/
abbrev Memx (depth : Nat) := Fin depth → BitVec 8

namespace Memx

/-- `MEMX[addr]` as an operand. -/
def read (m : Memx depth) (addr : BitVec 32) : BitVec 8 :=
  if h : addr.toNat < depth then m ⟨addr.toNat, h⟩ else 0

/-- `MEMX[addr] <= v` -/
def store (m : Memx depth) (addr : BitVec 32) (v : BitVec 8) : Memx depth :=
  fun i ↦ if i.val = addr.toNat then v else m i

end Memx

/-- `get_block_size` -/
def getBlockSize (blocks : Nat) : Nat :=
  match blocks with
  | 1 => 0
  | 2 => 1
  | 3 => 2
  | 4 => 3
  | 8 => 4
  | _ => 0

/-- `block_size`: the requested block size capped by the bus width. -/
def blockSize (dataWidth : Nat) (blsize : BitVec 3) : Nat :=
  let maxbl := dataWidth / 8
  let bsize := getBlockSize maxbl
  if blsize = DmemSize.dubl then if maxbl > 4 then 4 else bsize
  else if blsize = DmemSize.word then if maxbl > 3 then 3 else bsize
  else if blsize = DmemSize.trpl then if maxbl > 2 then 2 else bsize
  else if blsize = DmemSize.half then if maxbl > 1 then 1 else 0
  else if blsize = DmemSize.byte then 0
  else bsize

/-- The byte writes of one posedge of `wclk` with `wr_en` high; a big-endian memory has only
the first of them. -/
def Memx.write (endianess : Bool) (m : Memx depth) (bs : Nat) (addr : BitVec 32)
    (wrData : BitVec dataWidth) : Memx depth :=
  let m := m.store addr (wrData.extractLsb' 0 8)
  let m := if 16 ≤ dataWidth ∧ 0 < bs ∧ !endianess then
    m.store (addr + 1) (wrData.extractLsb' 8 8) else m
  let m := if 24 ≤ dataWidth ∧ 1 < bs ∧ !endianess then
    m.store (addr + 2) (wrData.extractLsb' 16 8) else m
  let m := if 32 ≤ dataWidth ∧ 2 < bs ∧ !endianess then
    m.store (addr + 3) (wrData.extractLsb' 24 8) else m
  if 64 ≤ dataWidth ∧ 3 < bs ∧ !endianess then
    (((m.store (addr + 7) (wrData.extractLsb' 56 8)).store (addr + 6)
      (wrData.extractLsb' 48 8)).store (addr + 5) (wrData.extractLsb' 40 8)).store (addr + 4)
      (wrData.extractLsb' 32 8)
  else m

/-- Four consecutive bytes from `addr`, the byte at `addr` last (little endian) or first. -/
def Memx.read4 (endianess : Bool) (m : Memx depth) (addr : BitVec 32) : BitVec 32 :=
  if endianess then m.read addr ++ m.read (addr + 1) ++ m.read (addr + 2) ++ m.read (addr + 3)
  else m.read (addr + 3) ++ m.read (addr + 2) ++ m.read (addr + 1) ++ m.read addr

/-- Three consecutive bytes. -/
def Memx.read3 (endianess : Bool) (m : Memx depth) (addr : BitVec 32) : BitVec 24 :=
  if endianess then m.read addr ++ m.read (addr + 1) ++ m.read (addr + 2)
  else m.read (addr + 2) ++ m.read (addr + 1) ++ m.read addr

/-- Two consecutive bytes. -/
def Memx.read2 (endianess : Bool) (m : Memx depth) (addr : BitVec 32) : BitVec 16 :=
  if endianess then m.read addr ++ m.read (addr + 1) else m.read (addr + 1) ++ m.read addr

/-- The latches of `reg_rd` while `rd_en` is high: one block for each bus width, which fills
its own block size and clears what lies above the next smaller one. -/
def latchRegRd (endianess : Bool) (m : Memx depth) (bs : Nat) (addr : BitVec 32)
    (regRd : BitVec dataWidth) : BitVec dataWidth :=
  let regRd := if 64 ≤ dataWidth then
      let regRd := if bs = 4 then
          splice (splice regRd 32 (m.read4 endianess (if endianess then addr else addr + 4)))
            0 (m.read4 endianess (if endianess then addr + 4 else addr))
        else regRd
      if bs = 3 then splice regRd 32 (0 : BitVec (dataWidth - 32)) else regRd
    else regRd
  let regRd := if 32 ≤ dataWidth then
      let regRd := if bs = 3 then splice regRd 0 (m.read4 endianess addr) else regRd
      if bs = 2 then splice regRd 24 (0 : BitVec (dataWidth - 24)) else regRd
    else regRd
  let regRd := if 24 ≤ dataWidth then
      let regRd := if bs = 2 then splice regRd 0 (m.read3 endianess addr) else regRd
      if bs = 1 then splice regRd 16 (0 : BitVec (dataWidth - 16)) else regRd
    else regRd
  let regRd := if 16 ≤ dataWidth then
      let regRd := if bs = 1 then splice regRd 0 (m.read2 endianess addr) else regRd
      if bs = 0 then splice regRd 8 (0 : BitVec (dataWidth - 8)) else regRd
    else regRd
  if bs = 0 then splice regRd 0 (m.read addr) else regRd

/-- Storage of a `memory` instance: the array and the read latch. -/
@[ext] structure Memory (depth dataWidth : Nat) where
  memx : Memx depth
  regRd : BitVec dataWidth

/-- The request ports of `memory`. -/
structure MemReq (dataWidth : Nat) where
  res : Bool
  req : Bool
  wen : Bool
  ren : Bool
  blsize : BitVec 3
  addr : BitVec 32
  wrData : BitVec dataWidth

namespace Memory

variable (endianess : Bool) (q : MemReq dataWidth) (m : Memory depth dataWidth)

def wrEn (q : MemReq dataWidth) : Bool := !q.res && q.req && q.wen

def rdEn (q : MemReq dataWidth) : Bool := q.req && q.ren

/-- `reg_rd` once the request has settled: transparent while `rd_en` is high. -/
def regRdNow : BitVec dataWidth :=
  if rdEn q then latchRegRd endianess m.memx (blockSize dataWidth q.blsize) q.addr m.regRd
  else m.regRd

/-- `rd_data` -/
def rdData : BitVec dataWidth := if depth < q.addr.toNat then 0 else m.regRdNow endianess q

/-- The memory after a posedge of `wclk`, the latch holding what it showed before it. -/
def clock : Memory depth dataWidth where
  memx := if wrEn q then
      Memx.write endianess m.memx (blockSize dataWidth q.blsize) q.addr q.wrData
    else m.memx
  regRd := m.regRdNow endianess q

/-- The memory across an edge that is not a posedge of `wclk`: only the latch follows. -/
def hold : Memory depth dataWidth := { m with regRd := m.regRdNow endianess q }

end Memory

/-! ## What the latches hold

While `rd_en` is high the latch blocks fix every bit of `reg_rd`: what it held before is
lost. -/

/-- The widths that `memory` supports. -/
def SupportedWidth (dataWidth : Nat) : Prop :=
  dataWidth = 8 ∨ dataWidth = 16 ∨ dataWidth = 24 ∨ dataWidth = 32 ∨ dataWidth = 64

/-- The block of size `bs` at `addr`, zero-extended. -/
def Memx.readBlock (endianess : Bool) (m : Memx depth) (bs : Nat) (addr : BitVec 32) :
    BitVec dataWidth :=
  match bs with
  | 0 => (m.read addr).setWidth dataWidth
  | 1 => (m.read2 endianess addr).setWidth dataWidth
  | 2 => (m.read3 endianess addr).setWidth dataWidth
  | 3 => (m.read4 endianess addr).setWidth dataWidth
  | _ => (m.read4 endianess (if endianess then addr else addr + 4) ++
      m.read4 endianess (if endianess then addr + 4 else addr)).setWidth dataWidth

/-- Splicing over the low bits and clearing the rest is zero extension. -/
theorem splice_splice_zero {n : Nat} (v : BitVec dataWidth) (x : BitVec n) :
    splice (splice v n (0 : BitVec (dataWidth - n))) 0 x = x.setWidth dataWidth := by
  ext i hi
  by_cases h : i < n
  · simp [h]
  · have hrange : n ≤ i ∧ i < n + (dataWidth - n) := by omega
    simp [h, hrange]

/-- A slice at least as wide as the word replaces it. -/
theorem splice_of_le {n : Nat} (h : dataWidth ≤ n) (v : BitVec dataWidth) (x : BitVec n) :
    splice v 0 x = x.setWidth dataWidth := by
  ext i hi
  have hin : i < n := by omega
  simp [hin]

/-- Splicing both halves of a word is concatenation. -/
theorem splice_splice_append {n k : Nat} (h : dataWidth = k + n) (v : BitVec dataWidth)
    (hi : BitVec k) (lo : BitVec n) :
    splice (splice v n hi) 0 lo = (hi ++ lo).setWidth dataWidth := by
  subst h
  ext i hi'
  rw [BitVec.getElem_setWidth, BitVec.getLsbD_append]
  by_cases hin : i < n
  · simp [hin]
  · have hrange : n ≤ i ∧ i < n + k := by omega
    simp [hin, hrange]

/-- A block of `n` bits fills its part of the latch and the next wider block, when the word
has one, clears the rest. -/
theorem splice_block {n : Nat} (P : Prop) [Decidable P] (hP : ¬P → dataWidth ≤ n)
    (v : BitVec dataWidth) (x : BitVec n) :
    splice (if P then splice v n (0 : BitVec (dataWidth - n)) else v) 0 x
      = x.setWidth dataWidth := by
  by_cases h : P
  · rw [if_pos h, splice_splice_zero]
  · rw [if_neg h, splice_of_le (hP h)]

/-- The latch blocks of the selected size determine the whole of `reg_rd`. -/
theorem latchRegRd_eq (hw : SupportedWidth dataWidth) (endianess : Bool) (m : Memx depth)
    {bs : Nat} (hbs : bs ≤ getBlockSize (dataWidth / 8)) (addr : BitVec 32)
    (regRd : BitVec dataWidth) :
    latchRegRd endianess m bs addr regRd = m.readBlock endianess bs addr := by
  have hcases : (bs = 0 ∧ 8 ≤ dataWidth) ∨ (bs = 1 ∧ 16 ≤ dataWidth) ∨
      (bs = 2 ∧ 24 ≤ dataWidth) ∨ (bs = 3 ∧ 32 ≤ dataWidth) ∨ (bs = 4 ∧ dataWidth = 64) := by
    rcases hw with rfl | rfl | rfl | rfl | rfl <;> simp only [getBlockSize] at hbs <;> omega
  rcases hcases with ⟨rfl, h⟩ | ⟨rfl, h⟩ | ⟨rfl, h⟩ | ⟨rfl, h⟩ | ⟨rfl, h⟩
  · simpa [latchRegRd, Memx.readBlock] using
      splice_block (16 ≤ dataWidth) (by rcases hw with h | h | h | h | h <;> omega) regRd
        (m.read addr)
  · simpa [latchRegRd, Memx.readBlock, h] using
      splice_block (24 ≤ dataWidth) (by rcases hw with h | h | h | h | h <;> omega) regRd
        (m.read2 endianess addr)
  · have h16 : 16 ≤ dataWidth := by omega
    simpa [latchRegRd, Memx.readBlock, h, h16] using
      splice_block (32 ≤ dataWidth) (by rcases hw with h | h | h | h | h <;> omega) regRd
        (m.read3 endianess addr)
  · have h16 : 16 ≤ dataWidth := by omega
    have h24 : 24 ≤ dataWidth := by omega
    simpa [latchRegRd, Memx.readBlock, h, h16, h24] using
      splice_block (64 ≤ dataWidth) (by rcases hw with h | h | h | h | h <;> omega) regRd
        (m.read4 endianess addr)
  · subst h
    simpa [latchRegRd, Memx.readBlock] using
      splice_splice_append (show 64 = 32 + 32 from rfl) regRd
        (m.read4 endianess (if endianess then addr else addr + 4))
        (m.read4 endianess (if endianess then addr + 4 else addr))

/-- The block size selected never exceeds the bus width. -/
theorem blockSize_le (hw : SupportedWidth dataWidth) (blsize : BitVec 3) :
    blockSize dataWidth blsize ≤ getBlockSize (dataWidth / 8) := by
  rcases hw with rfl | rfl | rfl | rfl | rfl <;> revert blsize <;> decide

namespace Memory

variable (endianess : Bool) (q : MemReq dataWidth) (m : Memory depth dataWidth)

@[simp] theorem hold_memx : (m.hold endianess q).memx = m.memx := rfl

/-- What an enabled read port shows comes from the array alone. -/
theorem regRdNow_eq_readBlock (hw : SupportedWidth dataWidth) (h : rdEn q = true) :
    m.regRdNow endianess q = m.memx.readBlock endianess (blockSize dataWidth q.blsize) q.addr := by
  rw [regRdNow, if_pos h, latchRegRd_eq hw endianess m.memx (blockSize_le hw q.blsize)]

/-- A closed latch shows what it holds. -/
theorem regRdNow_of_rdEn_false (h : rdEn q = false) : m.regRdNow endianess q = m.regRd := by
  rw [regRdNow, if_neg (by simp [h])]

/-- The latch keeps showing what it shows while the request stands. -/
theorem regRdNow_hold (hw : SupportedWidth dataWidth) :
    (m.hold endianess q).regRdNow endianess q = m.regRdNow endianess q := by
  cases h : rdEn q with
  | true => rw [regRdNow_eq_readBlock _ _ _ hw h, regRdNow_eq_readBlock _ _ _ hw h, hold_memx]
  | false =>
    rw [regRdNow_of_rdEn_false _ _ _ h]
    rfl

theorem rdData_hold (hw : SupportedWidth dataWidth) :
    (m.hold endianess q).rdData endianess q = m.rdData endianess q := by
  rw [rdData, rdData, regRdNow_hold _ _ _ hw]

/-- An instance that is never written only follows its latch. -/
theorem clock_of_wrEn_false (h : wrEn q = false) : m.clock endianess q = m.hold endianess q := by
  rw [clock, hold, if_neg (by simp [h])]

end Memory

/-! ## Blocks as little-endian words -/

/-- The number of bytes in a block of size `bs`. -/
def blockBytes (bs : Nat) : Nat := if bs = 4 then 8 else bs + 1

theorem offset_zero (addr : BitVec 32) : addr + BitVec.ofNat 32 0 = addr := BitVec.add_zero addr

theorem offset_four_add (addr : BitVec 32) (k : Nat) :
    addr + BitVec.ofNat 32 (4 + k) = addr + 4 + BitVec.ofNat 32 k := by
  rw [BitVec.ofNat_add, BitVec.add_assoc]
  rfl

theorem Memx.readBlock_eq_leWord (m : Memx depth) {bs : Nat} (hbs : bs ≤ 4) (addr : BitVec 32) :
    m.readBlock false bs addr =
      (leWord (fun k ↦ m.read (addr + BitVec.ofNat 32 k)) (blockBytes bs)).setWidth dataWidth := by
  obtain rfl | rfl | rfl | rfl | rfl : bs = 0 ∨ bs = 1 ∨ bs = 2 ∨ bs = 3 ∨ bs = 4 := by omega
  · rw [show blockBytes 0 = 1 from rfl, leWord_one, offset_zero]
    rfl
  · rw [show blockBytes 1 = 2 from rfl, leWord_two, offset_zero]
    rfl
  · rw [show blockBytes 2 = 3 from rfl, leWord_three, offset_zero]
    rfl
  · rw [show blockBytes 3 = 4 from rfl, leWord_four, offset_zero]
    rfl
  · rw [show blockBytes 4 = 8 from rfl, leWord_eight, leWord_four, leWord_four]
    simp only [offset_four_add, offset_zero]
    rfl

/-- The offsets from its address at which a block is written, in the order of the writes. -/
def blockOffsets (bs : Nat) : List Nat :=
  if bs = 4 then [0, 1, 2, 3, 7, 6, 5, 4] else List.range (bs + 1)

theorem mem_blockOffsets {bs k : Nat} : k ∈ blockOffsets bs ↔ k < blockBytes bs := by
  rw [blockOffsets, blockBytes]
  split
  · simp only [List.mem_cons, List.not_mem_nil, or_false]
    omega
  · rw [List.mem_range]

/-- The bytes of `d` at the given offsets stored from `addr` on. -/
def Memx.storeAt (m : Memx depth) (addr : BitVec 32) (d : BitVec dataWidth) (ks : List Nat) :
    Memx depth :=
  ks.foldl (fun m k ↦ m.store (addr + BitVec.ofNat 32 k) (byteAt d k)) m

theorem Memx.write_eq_storeAt (m : Memx depth) {bs : Nat} (hbs : bs ≤ 4)
    (hw : 8 * blockBytes bs ≤ dataWidth) (addr : BitVec 32) (d : BitVec dataWidth) :
    m.write false bs addr d = m.storeAt addr d (blockOffsets bs) := by
  obtain rfl | rfl | rfl | rfl | rfl : bs = 0 ∨ bs = 1 ∨ bs = 2 ∨ bs = 3 ∨ bs = 4 := by omega
  · simp [Memx.write, Memx.storeAt, blockOffsets, byteAt]
  · have h16 : 16 ≤ dataWidth := hw
    simp [Memx.write, Memx.storeAt, blockOffsets, byteAt, List.range_succ, h16]
  · have h24 : 24 ≤ dataWidth := hw
    have h16 : 16 ≤ dataWidth := le_trans (by decide) h24
    simp [Memx.write, Memx.storeAt, blockOffsets, byteAt, List.range_succ, h16, h24]
  · have h32 : 32 ≤ dataWidth := hw
    have h16 : 16 ≤ dataWidth := le_trans (by decide) h32
    have h24 : 24 ≤ dataWidth := le_trans (by decide) h32
    simp [Memx.write, Memx.storeAt, blockOffsets, byteAt, List.range_succ, h16, h24, h32]
  · have h64 : 64 ≤ dataWidth := hw
    have h16 : 16 ≤ dataWidth := le_trans (by decide) h64
    have h24 : 24 ≤ dataWidth := le_trans (by decide) h64
    have h32 : 32 ≤ dataWidth := le_trans (by decide) h64
    simp [Memx.write, Memx.storeAt, blockOffsets, byteAt, h16, h24, h32, h64]

theorem Memx.storeAt_apply (m : Memx depth) {addr : BitVec 32} (d : BitVec dataWidth)
    {ks : List Nat} (hks : ∀ k ∈ ks, (addr + BitVec.ofNat 32 k).toNat = addr.toNat + k)
    (i : Fin depth) :
    m.storeAt addr d ks i =
      if addr.toNat ≤ i.val ∧ i.val - addr.toNat ∈ ks then byteAt d (i.val - addr.toNat)
      else m i := by
  induction ks generalizing m with
  | nil => simp [Memx.storeAt]
  | cons k ks ih =>
    have hk := hks k List.mem_cons_self
    have hrest := ih (m.store (addr + BitVec.ofNat 32 k) (byteAt d k))
      fun j hj ↦ hks j (List.mem_cons_of_mem k hj)
    rw [Memx.storeAt, List.foldl_cons]
    refine hrest.trans ?_
    by_cases hin : addr.toNat ≤ i.val ∧ i.val - addr.toNat ∈ ks
    · rw [if_pos hin, if_pos ⟨hin.1, List.mem_cons_of_mem k hin.2⟩]
    · rw [if_neg hin, Memx.store, hk]
      by_cases hik : i.val = addr.toNat + k
      · have hsub : i.val - addr.toNat = k := by omega
        have hle : addr.toNat ≤ i.val := by omega
        rw [if_pos hik, hsub, if_pos ⟨hle, List.mem_cons_self⟩]
      · rw [if_neg hik, if_neg]
        rintro ⟨hle, hmem⟩
        rcases List.mem_cons.mp hmem with heq | hmem
        · omega
        · exact hin ⟨hle, hmem⟩

/-- The bytes of a block are written inside the array and nowhere else. -/
theorem Memx.write_apply (m : Memx depth) {bs : Nat} (hbs : bs ≤ 4)
    (hw : 8 * blockBytes bs ≤ dataWidth) {addr : BitVec 32}
    (haddr : addr.toNat + blockBytes bs ≤ 2 ^ 32) (d : BitVec dataWidth) (i : Fin depth) :
    m.write false bs addr d i =
      if addr.toNat ≤ i.val ∧ i.val < addr.toNat + blockBytes bs then
        byteAt d (i.val - addr.toNat)
      else m i := by
  have hnat : ∀ k ∈ blockOffsets bs, (addr + BitVec.ofNat 32 k).toNat = addr.toNat + k := by
    intro k hk
    have hlt := mem_blockOffsets.mp hk
    rw [BitVec.toNat_add, BitVec.toNat_ofNat, Nat.mod_eq_of_lt (show k < 2 ^ 32 by omega),
      Nat.mod_eq_of_lt (by omega)]
  rw [m.write_eq_storeAt hbs hw, m.storeAt_apply d hnat]
  refine if_congr ?_ rfl rfl
  rw [mem_blockOffsets]
  omega

end RtlCores.Modules
