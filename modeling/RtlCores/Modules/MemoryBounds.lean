import RtlCores.Modules.MemoryRuns

/-!
# Accesses outside the array

The range test of `memory` lets the address `DEPTH` itself pass, looks at the start of a block
only, and does not guard the writes.  What an access outside the array reads is `x` in the
source; here the elements that the array does not have are a parameter, and an access is
isolated when nothing it shows depends on them.
-/

namespace RtlCores.Modules

open RtlCores.Lib RtlCores.Riscv

variable {depth dataWidth : Nat}

/-! ## Blocks in either byte order -/

/-- The offset from its address of the byte that ends up in byte `k` of a block of size `bs`. -/
def byteOffset (endianess : Bool) (bs k : Nat) : Nat :=
  if endianess then blockBytes bs - 1 - k else k

theorem byteOffset_lt (endianess : Bool) {bs k : Nat} (hk : k < blockBytes bs) :
    byteOffset endianess bs k < blockBytes bs := by
  rw [byteOffset]
  split
  · omega
  · exact hk

theorem byteOffset_byteOffset (endianess : Bool) {bs k : Nat} (hk : k < blockBytes bs) :
    byteOffset endianess bs (byteOffset endianess bs k) = k := by
  cases endianess with
  | false => rfl
  | true =>
    simp only [byteOffset, if_true]
    omega

namespace Memx

variable (m : Memx depth)

/-- Four bytes of a big-endian memory. -/
theorem read4_true (addr : BitVec 32) : m.read4 true addr =
    m.read (addr + 0#32) ++ m.read (addr + 1#32) ++ m.read (addr + 2#32) ++
      m.read (addr + 3#32) := by
  rw [offset_zero]
  rfl

theorem readBlock_true_eq_leWord {bs : Nat} (hbs : bs ≤ 4) (addr : BitVec 32) :
    m.readBlock true bs addr =
      (leWord (fun k ↦ m.read (addr + BitVec.ofNat 32 (byteOffset true bs k)))
        (blockBytes bs)).setWidth dataWidth := by
  have h0 : m.read addr = m.read (addr + 0#32) := congrArg m.read (offset_zero addr).symm
  obtain rfl | rfl | rfl | rfl | rfl : bs = 0 ∨ bs = 1 ∨ bs = 2 ∨ bs = 3 ∨ bs = 4 := by omega
  · rw [show blockBytes 0 = 1 from rfl, leWord_one]
    exact congrArg (BitVec.setWidth dataWidth) h0
  · rw [show blockBytes 1 = 2 from rfl, leWord_two]
    exact congrArg (fun b ↦ (b ++ m.read (addr + 1)).setWidth dataWidth) h0
  · rw [show blockBytes 2 = 3 from rfl, leWord_three]
    exact congrArg (fun b ↦ (b ++ m.read (addr + 1) ++ m.read (addr + 2)).setWidth dataWidth) h0
  · rw [show blockBytes 3 = 4 from rfl, leWord_four]
    exact congrArg (BitVec.setWidth dataWidth) (m.read4_true addr)
  · rw [show blockBytes 4 = 8 from rfl, leWord_eight, leWord_four, leWord_four]
    show (m.read4 true addr ++ m.read4 true (addr + 4)).setWidth dataWidth = _
    rw [read4_true, read4_true, ← offset_four_add, ← offset_four_add, ← offset_four_add,
      ← offset_four_add]
    rfl

/-- A block is a word made of the bytes at its address and after. -/
theorem readBlock_eq (endianess : Bool) {bs : Nat} (hbs : bs ≤ 4) (addr : BitVec 32) :
    m.readBlock endianess bs addr =
      (leWord (fun k ↦ m.read (addr + BitVec.ofNat 32 (byteOffset endianess bs k)))
        (blockBytes bs)).setWidth dataWidth := by
  cases endianess with
  | false => exact m.readBlock_eq_leWord hbs addr
  | true => exact m.readBlock_true_eq_leWord hbs addr

/-- Every byte of a block that fits the word can be read off it. -/
theorem byteAt_readBlock (endianess : Bool) {bs : Nat} (hbs : bs ≤ 4)
    (hw : 8 * blockBytes bs ≤ dataWidth) (addr : BitVec 32) {k : Nat} (hk : k < blockBytes bs) :
    byteAt (m.readBlock endianess bs addr : BitVec dataWidth) k =
      m.read (addr + BitVec.ofNat 32 (byteOffset endianess bs k)) := by
  rw [m.readBlock_eq endianess hbs addr]
  exact byteAt_setWidth_leWord _ hk hw

/-! ## Writes that may wrap -/

theorem storeAt_cons (addr : BitVec 32) (d : BitVec dataWidth) (k : Nat) (ks : List Nat) :
    m.storeAt addr d (k :: ks) =
      (m.store (addr + BitVec.ofNat 32 k) (byteAt d k)).storeAt addr d ks := rfl

/-- Different offsets of one access are different addresses, also when it wraps. -/
theorem offset_inj (addr : BitVec 32) {j k : Nat} (hj : j < 8) (hk : k < 8)
    (h : (addr + BitVec.ofNat 32 j).toNat = (addr + BitVec.ofNat 32 k).toNat) : j = k := by
  rw [BitVec.toNat_add, BitVec.toNat_add, BitVec.toNat_ofNat, BitVec.toNat_ofNat] at h
  have haddr := addr.isLt
  omega

theorem storeAt_of_ne {addr : BitVec 32} (d : BitVec dataWidth) {ks : List Nat} {i : Fin depth}
    (h : ∀ k ∈ ks, i.val ≠ (addr + BitVec.ofNat 32 k).toNat) : m.storeAt addr d ks i = m i := by
  induction ks generalizing m with
  | nil => rfl
  | cons k ks ih =>
    rw [storeAt_cons, ih _ fun j hj ↦ h j (List.mem_cons_of_mem k hj), store,
      if_neg (h k List.mem_cons_self)]

/-- The element at an offset that is written holds its byte afterwards. -/
theorem storeAt_of_mem {addr : BitVec 32} (d : BitVec dataWidth) {ks : List Nat}
    (hks : ∀ k ∈ ks, k < 8) {k : Nat} (hk : k ∈ ks) {i : Fin depth}
    (hi : i.val = (addr + BitVec.ofNat 32 k).toNat) : m.storeAt addr d ks i = byteAt d k := by
  induction ks generalizing m with
  | nil => cases hk
  | cons j ks ih =>
    rw [storeAt_cons]
    by_cases hmem : k ∈ ks
    · exact ih _ (fun l hl ↦ hks l (List.mem_cons_of_mem j hl)) hmem
    · obtain rfl : k = j := by
        rcases List.mem_cons.mp hk with hkj | hmem'
        · exact hkj
        · exact absurd hmem' hmem
      rw [storeAt_of_ne _ _ ?_, store, if_pos hi]
      intro l hl heq
      have hlk := offset_inj addr (hks l (List.mem_cons_of_mem k hl)) (hks k hk)
        (heq.symm.trans hi)
      exact hmem (hlk ▸ hl)

/-- Stores leave the array as it is exactly when each byte that falls inside it is the one
that is already there. -/
theorem storeAt_eq_self_iff {addr : BitVec 32} (d : BitVec dataWidth) {ks : List Nat}
    (hks : ∀ k ∈ ks, k < 8) :
    m.storeAt addr d ks = m ↔
      ∀ k ∈ ks, ∀ i : Fin depth, i.val = (addr + BitVec.ofNat 32 k).toNat → m i = byteAt d k := by
  constructor
  · intro h k hk i hi
    rw [← m.storeAt_of_mem d hks hk hi, h]
  · intro h
    funext i
    by_cases hin : ∃ k ∈ ks, i.val = (addr + BitVec.ofNat 32 k).toNat
    · obtain ⟨k, hk, hi⟩ := hin
      rw [m.storeAt_of_mem d hks hk hi, h k hk i hi]
    · refine m.storeAt_of_ne d fun k hk hi ↦ hin ⟨k, hk, hi⟩

/-- A big-endian memory writes the byte at the address only. -/
theorem write_true (bs : Nat) (addr : BitVec 32) (d : BitVec dataWidth) :
    m.write true bs addr d = m.storeAt addr d [0] := by
  rw [storeAt_cons, offset_zero]
  simp [write, storeAt, byteAt]

/-- A write outside the array changes it exactly when one of the bytes that wrap to its start
differs from the one there. -/
theorem write_eq_self_iff (endianess : Bool) {bs : Nat} (hbs : bs ≤ 4)
    (hw : 8 * blockBytes bs ≤ dataWidth) {addr : BitVec 32} (haddr : depth ≤ addr.toNat)
    (d : BitVec dataWidth) :
    m.write endianess bs addr d = m ↔
      (endianess = false → ∀ k < blockBytes bs, ∀ i : Fin depth,
        i.val = (addr + BitVec.ofNat 32 k).toNat → m i = byteAt d k) := by
  cases endianess with
  | true =>
    rw [write_true, storeAt_eq_self_iff _ _ (by simp)]
    refine iff_of_true ?_ (by simp)
    intro k hk i hi
    obtain rfl := List.mem_singleton.mp hk
    rw [offset_zero] at hi
    exact absurd i.isLt (by omega)
  | false =>
    have hlt : ∀ k ∈ blockOffsets bs, k < 8 := by
      intro k hk
      have := mem_blockOffsets.mp hk
      rw [blockBytes] at this
      split at this <;> omega
    rw [m.write_eq_storeAt hbs hw, m.storeAt_eq_self_iff d hlt]
    simp only [mem_blockOffsets, true_implies]

/-! ## Elements that the array does not have -/

/-- The array with what an access outside it reads. -/
def extended (outside : Nat → BitVec 8) : Memx (2 ^ 32) :=
  fun i ↦ if h : i.val < depth then m ⟨i.val, h⟩ else outside i.val

variable {m}

theorem read_extended (outside : Nat → BitVec 8) (addr : BitVec 32) :
    (m.extended outside).read addr =
      if addr.toNat < depth then m.read addr else outside addr.toNat := by
  rw [read, dif_pos addr.isLt, extended]
  by_cases h : addr.toNat < depth
  · rw [dif_pos h, if_pos h, read, dif_pos h]
  · rw [dif_neg h, if_neg h]

/-- The two-state reading of `x`. -/
theorem read_extended_zero (addr : BitVec 32) :
    (m.extended fun _ ↦ 0).read addr = m.read addr := by
  rw [read_extended]
  by_cases h : addr.toNat < depth
  · rw [if_pos h]
  · rw [if_neg h, read, dif_neg h]

/-- A block inside the array does not depend on what lies outside, any other does. -/
theorem readBlock_extended_congr_iff (endianess : Bool) {bs : Nat} (hbs : bs ≤ 4)
    (hw : 8 * blockBytes bs ≤ dataWidth) (addr : BitVec 32) :
    (∀ outside outside',
      ((m.extended outside).readBlock endianess bs addr : BitVec dataWidth) =
        (m.extended outside').readBlock endianess bs addr) ↔
      ∀ k < blockBytes bs, (addr + BitVec.ofNat 32 k).toNat < depth := by
  constructor
  · intro h k hk
    by_contra hout
    have hpos := byteOffset_lt endianess hk
    -- the byte of the word that this element ends up in
    have hbyte := congrArg (byteAt · (byteOffset endianess bs k)) (h (fun _ ↦ 0) fun _ ↦ 1)
    simp only [byteAt_readBlock _ endianess hbs hw addr hpos,
      byteOffset_byteOffset endianess hk, read_extended, if_neg hout] at hbyte
    exact absurd hbyte (by decide)
  · intro h outside outside'
    rw [readBlock_eq _ _ hbs, readBlock_eq _ _ hbs]
    refine congrArg (BitVec.setWidth dataWidth) (leWord_congr fun k hk ↦ ?_)
    have hin := h _ (byteOffset_lt endianess hk)
    rw [read_extended, read_extended, if_pos hin, if_pos hin]

end Memx

/-! ## The two read ports -/

/-- A `memory` with the output register of `SYNC_READ`. -/
@[ext] structure PortMemory (depth dataWidth : Nat) where
  mem : Memory depth dataWidth
  rdReg : BitVec dataWidth

/-- A request, and what the elements outside the array read as while it stands. -/
structure Access (dataWidth : Nat) where
  req : MemReq dataWidth
  outside : Nat → BitVec 8

namespace Memory

variable (endianess : Bool) (a : Access dataWidth) (m : Memory depth dataWidth)

/-- `reg_rd` once the request has settled. -/
def regRdSeen : BitVec dataWidth :=
  if rdEn a.req then
    latchRegRd endianess (m.memx.extended a.outside) (blockSize dataWidth a.req.blsize) a.req.addr
      m.regRd
  else m.regRd

/-- The memory after a posedge of `wclk`. -/
def clockSeen : Memory depth dataWidth :=
  { m.clock endianess a.req with regRd := m.regRdSeen endianess a }

@[simp] theorem clockSeen_memx : (m.clockSeen endianess a).memx = (m.clock endianess a.req).memx :=
  rfl

theorem regRdSeen_of_rdEn_false (h : rdEn a.req = false) :
    m.regRdSeen endianess a = m.regRd := by
  rw [regRdSeen, if_neg (by simp [h])]

theorem regRdSeen_eq_readBlock (hw : SupportedWidth dataWidth) (h : rdEn a.req = true) :
    m.regRdSeen endianess a = (m.memx.extended a.outside).readBlock endianess
      (blockSize dataWidth a.req.blsize) a.req.addr := by
  rw [regRdSeen, if_pos h, latchRegRd_eq hw _ _ (blockSize_le hw _)]

theorem clock_memx_congr (q : MemReq dataWidth) {m m' : Memory depth dataWidth}
    (h : m.memx = m'.memx) : (m.clock endianess q).memx = (m'.clock endianess q).memx := by
  rw [clock, clock, h]

/-- With zeros outside the array this is the two-state memory. -/
theorem clockSeen_zero (hw : SupportedWidth dataWidth) (q : MemReq dataWidth) :
    m.clockSeen endianess ⟨q, fun _ ↦ 0⟩ = m.clock endianess q := by
  refine Memory.ext rfl ?_
  show m.regRdSeen endianess ⟨q, fun _ ↦ 0⟩ = m.regRdNow endianess q
  cases h : rdEn q with
  | true =>
    have hbs := blockSize_le_four hw q.blsize
    rw [regRdSeen_eq_readBlock _ _ _ hw h, regRdNow_eq_readBlock _ _ _ hw h,
      Memx.readBlock_eq _ _ hbs, Memx.readBlock_eq _ _ hbs]
    refine congrArg _ (leWord_congr fun k _ ↦ ?_)
    exact Memx.read_extended_zero _
  | false => rw [regRdSeen_of_rdEn_false _ _ _ h, regRdNow_of_rdEn_false _ _ _ h]

end Memory

namespace PortMemory

variable (endianess : Bool) (a : Access dataWidth) (s : PortMemory depth dataWidth)

/-- One posedge of `wclk`: the memory, and the register of a synchronous read port. -/
def clock : PortMemory depth dataWidth where
  mem := s.mem.clockSeen endianess a
  rdReg :=
    if a.req.res then 0
    else if Memory.rdEn a.req then
      if depth < a.req.addr.toNat then 0 else s.mem.regRdSeen endianess a
    else s.rdReg

/-- `rd_data` for the access of this period: at once, or from the edge that ends it. -/
def rdData (syncRead : Bool) : BitVec dataWidth :=
  if syncRead then (s.clock endianess a).rdReg
  else if depth < a.req.addr.toNat then 0 else s.mem.regRdSeen endianess a

@[simp] theorem clock_mem : (s.clock endianess a).mem = s.mem.clockSeen endianess a := rfl

theorem clock_rdReg_of_res (h : a.req.res = true) : (s.clock endianess a).rdReg = 0 := by
  rw [clock, if_pos h]

theorem clock_rdReg_of_beyond (h : Memory.rdEn a.req = true) (hout : depth < a.req.addr.toNat) :
    (s.clock endianess a).rdReg = 0 := by
  rw [clock, if_pos h, if_pos hout, ite_self]

theorem clock_rdReg_of_read (hres : ¬a.req.res = true) (h : Memory.rdEn a.req = true)
    (hin : ¬depth < a.req.addr.toNat) :
    (s.clock endianess a).rdReg = s.mem.regRdSeen endianess a := by
  rw [clock, if_neg hres, if_pos h, if_neg hin]

theorem clock_rdReg_of_idle (hres : ¬a.req.res = true) (h : ¬Memory.rdEn a.req = true) :
    (s.clock endianess a).rdReg = s.rdReg := by
  rw [clock, if_neg hres, if_neg h]

theorem rdData_of_beyond (hout : depth < a.req.addr.toNat) :
    s.rdData endianess a false = 0 := by
  rw [rdData, if_neg Bool.false_ne_true, if_pos hout]

theorem rdData_of_not_beyond (hin : ¬depth < a.req.addr.toNat) :
    s.rdData endianess a false = (s.clock endianess a).mem.regRd := by
  rw [rdData, if_neg Bool.false_ne_true, if_neg hin]
  rfl

/-- The accesses of a run. -/
def accesses (qs : Nat → MemReq dataWidth) (outs : Nat → Nat → BitVec 8) (t : Nat) :
    Access dataWidth := ⟨qs t, outs t⟩

/-! ## Which access a read port shows -/

/-- The latest of the first `n` periods in which the latch was open. -/
def latchedRead (qs : Nat → MemReq dataWidth) : Nat → Option Nat
  | 0 => none
  | n + 1 => if Memory.rdEn (qs n) then some n else latchedRead qs n

/-- The access whose block the output register holds after `n` periods; after a reset or a
read beyond `depth` it holds none. -/
def loadedRead (depth : Nat) (qs : Nat → MemReq dataWidth) : Nat → Option Nat
  | 0 => none
  | n + 1 =>
    if (qs n).res then none
    else if Memory.rdEn (qs n) then if depth < (qs n).addr.toNat then none else some n
    else loadedRead depth qs n

/-- The access whose block `rd_data` shows for period `n`. -/
def shownRead (syncRead : Bool) (depth : Nat) (qs : Nat → MemReq dataWidth) (n : Nat) :
    Option Nat :=
  if syncRead then loadedRead depth qs (n + 1)
  else if depth < (qs n).addr.toNat then none else latchedRead qs (n + 1)

variable {endianess : Bool} {s : PortMemory depth dataWidth} {qs : Nat → MemReq dataWidth}

/-- Nothing outside the array gets into it. -/
theorem run_memx (outs : Nat → Nat → BitVec 8) (n : Nat) :
    (run (clock endianess) (accesses qs outs) s n).mem.memx =
      (run (Memory.clock endianess) qs s.mem n).memx := by
  induction n with
  | zero => rfl
  | succ n ih =>
    rw [run_succ, run_succ, clock_mem, Memory.clockSeen_memx]
    exact Memory.clock_memx_congr endianess (qs n) ih

/-- With zeros outside the array the run is the one of the two-state memory. -/
theorem run_mem_zero (hw : SupportedWidth dataWidth) (n : Nat) :
    (run (clock endianess) (accesses qs fun _ _ ↦ 0) s n).mem =
      run (Memory.clock endianess) qs s.mem n := by
  induction n with
  | zero => rfl
  | succ n ih =>
    rw [run_succ, run_succ, ← ih]
    exact Memory.clockSeen_zero _ _ hw (qs n)

/-- The block that access `k` of a run reads. -/
def blockRead (endianess : Bool) (s : PortMemory depth dataWidth) (qs : Nat → MemReq dataWidth)
    (outs : Nat → Nat → BitVec 8) (k : Nat) : BitVec dataWidth :=
  ((run (Memory.clock endianess) qs s.mem k).memx.extended (outs k)).readBlock endianess
    (blockSize dataWidth (qs k).blsize) (qs k).addr

/-- An open latch shows the block of the access that stands. -/
theorem regRdSeen_of_rdEn (hw : SupportedWidth dataWidth) {n : Nat}
    (h : Memory.rdEn (qs n) = true) (outs : Nat → Nat → BitVec 8) :
    (run (clock endianess) (accesses qs outs) s n).mem.regRdSeen endianess (accesses qs outs n) =
      blockRead endianess s qs outs n := by
  rw [Memory.regRdSeen_eq_readBlock _ _ _ hw h, run_memx]
  rfl

/-- The latch holds the block of the latest read. -/
theorem regRd_run (hw : SupportedWidth dataWidth) (outs : Nat → Nat → BitVec 8) (n : Nat) :
    (run (clock endianess) (accesses qs outs) s n).mem.regRd =
      ((latchedRead qs n).map (blockRead endianess s qs outs)).getD s.mem.regRd := by
  induction n with
  | zero => rfl
  | succ n ih =>
    show Memory.regRdSeen endianess (accesses qs outs n) _ = _
    rw [latchedRead]
    cases h : Memory.rdEn (qs n) with
    | true => exact regRdSeen_of_rdEn hw h outs
    | false => exact (Memory.regRdSeen_of_rdEn_false _ _ _ h).trans ih

/-- The output register holds the block of the access that was loaded, or a value that
nothing outside the array has a part in. -/
theorem rdReg_run (hw : SupportedWidth dataWidth) (n : Nat) :
    ∃ v, ∀ outs, (run (clock endianess) (accesses qs outs) s n).rdReg =
      ((loadedRead depth qs n).map (blockRead endianess s qs outs)).getD v := by
  induction n with
  | zero => exact ⟨s.rdReg, fun _ ↦ rfl⟩
  | succ n ih =>
    rw [loadedRead]
    by_cases hres : (qs n).res = true
    · rw [if_pos hres]
      exact ⟨0, fun outs ↦ clock_rdReg_of_res _ (accesses qs outs n) _ hres⟩
    · rw [if_neg hres]
      by_cases hrd : Memory.rdEn (qs n) = true
      · rw [if_pos hrd]
        by_cases hout : depth < (qs n).addr.toNat
        · rw [if_pos hout]
          exact ⟨0, fun outs ↦ clock_rdReg_of_beyond _ (accesses qs outs n) _ hrd hout⟩
        · rw [if_neg hout]
          refine ⟨0, fun outs ↦ ?_⟩
          exact (clock_rdReg_of_read _ (accesses qs outs n) _ hres hrd hout).trans
            (regRdSeen_of_rdEn hw hrd outs)
      · rw [if_neg hrd]
        obtain ⟨v, hv⟩ := ih
        refine ⟨v, fun outs ↦ ?_⟩
        exact (clock_rdReg_of_idle _ (accesses qs outs n) _ hres hrd).trans (hv outs)

/-- What `rd_data` shows for a period: the block of one access, or a value that nothing
outside the array has a part in. -/
theorem rdData_run (hw : SupportedWidth dataWidth) (syncRead : Bool) (n : Nat) :
    ∃ v, ∀ outs,
      (run (clock endianess) (accesses qs outs) s n).rdData endianess (accesses qs outs n)
          syncRead =
        ((shownRead syncRead depth qs n).map (blockRead endianess s qs outs)).getD v := by
  cases syncRead with
  | true => exact rdReg_run hw (n + 1)
  | false =>
    rw [shownRead, if_neg Bool.false_ne_true]
    by_cases hout : depth < (qs n).addr.toNat
    · rw [if_pos hout]
      exact ⟨0, fun outs ↦ rdData_of_beyond _ (accesses qs outs n) _ hout⟩
    · rw [if_neg hout]
      refine ⟨s.mem.regRd, fun outs ↦ ?_⟩
      exact (rdData_of_not_beyond _ (accesses qs outs n) _ hout).trans (regRd_run hw outs (n + 1))

/-- With zeros outside the array, `rd_data` is that of the two-state memory. -/
theorem rdData_run_zero (hw : SupportedWidth dataWidth) (n : Nat) :
    (run (clock endianess) (accesses qs fun _ _ ↦ 0) s n).rdData endianess
        (accesses qs (fun _ _ ↦ 0) n) false =
      (run (Memory.clock endianess) qs s.mem n).rdData endianess (qs n) := by
  by_cases hout : depth < (qs n).addr.toNat
  · rw [rdData_of_beyond _ _ _ hout, Memory.rdData, if_pos hout]
  · rw [rdData_of_not_beyond _ _ _ hout, Memory.rdData, if_neg hout]
    exact congrArg Memory.regRd (run_mem_zero hw (n + 1))

/-! ## Isolation -/

/-- The access of period `n` is isolated: `rd_data` does not depend on elements that the
array does not have, it is 0 for an address outside, and a write outside changes nothing.
A synchronous read port shows an address only when it reads. -/
structure IsolatedAt (syncRead endianess : Bool) (s : PortMemory depth dataWidth)
    (qs : Nat → MemReq dataWidth) (n : Nat) : Prop where
  read_congr : ∀ outs outs',
    (run (clock endianess) (accesses qs outs) s n).rdData endianess (accesses qs outs n)
        syncRead =
      (run (clock endianess) (accesses qs outs') s n).rdData endianess (accesses qs outs' n)
        syncRead
  read_zero : depth ≤ (qs n).addr.toNat → (syncRead = true → Memory.rdEn (qs n) = true) →
    ∀ outs, (run (clock endianess) (accesses qs outs) s n).rdData endianess (accesses qs outs n)
      syncRead = 0
  write_memx : Memory.wrEn (qs n) = true → depth ≤ (qs n).addr.toNat →
    ∀ outs, (run (clock endianess) (accesses qs outs) s (n + 1)).mem.memx =
      (run (clock endianess) (accesses qs outs) s n).mem.memx

/-- Every byte of the block lies inside the array. -/
def Inside (depth : Nat) (q : MemReq dataWidth) : Prop :=
  ∀ k < blockLength dataWidth q.blsize, (q.addr + BitVec.ofNat 32 k).toNat < depth

/-- When the missing range tests do no harm in period `n`: the block that is shown lies inside
the array, with the address `DEPTH` on an asynchronous port the latch holds 0, and the bytes
of a write outside that wrap to the start of the array are those already there. -/
structure InBoundsAt (syncRead endianess : Bool) (m : Memory depth dataWidth)
    (qs : Nat → MemReq dataWidth) (n : Nat) : Prop where
  shown : ∀ k, shownRead syncRead depth qs n = some k → Inside depth (qs k)
  latched : syncRead = false → (qs n).addr.toNat = depth →
    (run (Memory.clock endianess) qs m n).regRd = 0
  wrapped : endianess = false → Memory.wrEn (qs n) = true → depth ≤ (qs n).addr.toNat →
    ∀ k < blockLength dataWidth (qs n).blsize, ∀ i : Fin depth,
      i.val = ((qs n).addr + BitVec.ofNat 32 k).toNat →
        (run (Memory.clock endianess) qs m n).memx i = byteAt (qs n).wrData k

theorem not_inside (hw : SupportedWidth dataWidth) {q : MemReq dataWidth}
    (h : depth ≤ q.addr.toNat) : ¬Inside depth q := by
  intro hin
  have hpos : 0 < blockLength dataWidth q.blsize := by
    rw [← blockBytes_blockSize hw, blockBytes]
    split <;> omega
  have h0 := hin 0 hpos
  rw [offset_zero] at h0
  omega

/-- An address outside that is read and shown is `DEPTH` itself. -/
theorem shownRead_of_rdEn {syncRead : Bool} {n : Nat} (hres : syncRead = true → (qs n).res = false)
    (hrd : Memory.rdEn (qs n) = true) (hout : ¬depth < (qs n).addr.toNat) :
    shownRead syncRead depth qs n = some n := by
  cases syncRead with
  | true => rw [shownRead, if_pos rfl, loadedRead, hres rfl, if_neg Bool.false_ne_true, if_pos hrd,
      if_neg hout]
  | false => rw [shownRead, if_neg Bool.false_ne_true, if_neg hout, latchedRead, if_pos hrd]

/-- `rd_data` is independent of what lies outside exactly when the block it shows lies
inside. -/
theorem read_congr_iff (hw : SupportedWidth dataWidth) (syncRead : Bool) (n : Nat) :
    (∀ outs outs',
      (run (clock endianess) (accesses qs outs) s n).rdData endianess (accesses qs outs n)
          syncRead =
        (run (clock endianess) (accesses qs outs') s n).rdData endianess (accesses qs outs' n)
          syncRead) ↔
      ∀ k, shownRead syncRead depth qs n = some k → Inside depth (qs k) := by
  obtain ⟨v, hv⟩ := @rdData_run _ _ endianess s qs hw syncRead n
  simp only [hv]
  cases shownRead syncRead depth qs n with
  | none => simp
  | some k =>
    have hblock := @Memx.readBlock_extended_congr_iff _ dataWidth
      (run (Memory.clock endianess) qs s.mem k).memx endianess _
      (blockSize_le_four hw (qs k).blsize)
      (blockBytes_blockSize hw (qs k).blsize ▸ blockLength_le dataWidth (qs k).blsize) (qs k).addr
    rw [blockBytes_blockSize hw] at hblock
    constructor
    · intro h k' hk'
      obtain rfl := Option.some.inj hk'
      exact hblock.mp fun outside outside' ↦ h (fun _ ↦ outside) fun _ ↦ outside'
    · intro h outs outs'
      exact hblock.mpr (h k rfl) (outs k) (outs' k)

/-- `rd_data` is 0 for every address beyond `depth`; for `depth` itself it is what the latch
holds, on an asynchronous port that is not reading. -/
theorem read_zero_of_inBounds (hw : SupportedWidth dataWidth) {syncRead : Bool} {n : Nat}
    (h : InBoundsAt syncRead endianess s.mem qs n) (haddr : depth ≤ (qs n).addr.toNat)
    (hrd : syncRead = true → Memory.rdEn (qs n) = true) (outs : Nat → Nat → BitVec 8) :
    (run (clock endianess) (accesses qs outs) s n).rdData endianess (accesses qs outs n)
      syncRead = 0 := by
  have hnot (hres : syncRead = true → (qs n).res = false) (hrd : Memory.rdEn (qs n) = true) :
      depth < (qs n).addr.toNat := by
    by_contra hout
    exact not_inside hw haddr (h.shown n (shownRead_of_rdEn hres hrd hout))
  cases syncRead with
  | true =>
    show (clock endianess (accesses qs outs n) _).rdReg = 0
    by_cases hres : (qs n).res = true
    · exact clock_rdReg_of_res _ _ _ hres
    · have hres' : (qs n).res = false := by simpa using hres
      exact clock_rdReg_of_beyond _ _ _ (hrd rfl) (hnot (fun _ ↦ hres') (hrd rfl))
  | false =>
    by_cases hout : depth < (qs n).addr.toNat
    · exact rdData_of_beyond _ _ _ hout
    · have hclosed : Memory.rdEn (qs n) = false := by
        by_contra hopen
        exact hout (hnot (fun h ↦ absurd h Bool.false_ne_true) (by simpa using hopen))
      have hzero := h.latched rfl (by omega)
      -- what is shown is the same for all outside values, and zero for zeros
      rw [(read_congr_iff hw false n).mpr h.shown outs (fun _ _ ↦ 0), rdData_run_zero hw,
        Memory.rdData, if_neg hout, Memory.regRdNow_of_rdEn_false _ _ _ hclosed, hzero]

theorem latched_of_read_zero (hw : SupportedWidth dataWidth) {n : Nat}
    (h : ∀ k, shownRead false depth qs n = some k → Inside depth (qs k))
    (haddr : (qs n).addr.toNat = depth)
    (hzero : (run (clock endianess) (accesses qs fun _ _ ↦ 0) s n).rdData endianess
      (accesses qs (fun _ _ ↦ 0) n) false = 0) :
    (run (Memory.clock endianess) qs s.mem n).regRd = 0 := by
  have hout : ¬depth < (qs n).addr.toNat := by omega
  have hclosed : Memory.rdEn (qs n) = false := by
    by_contra hopen
    have hshown := @shownRead_of_rdEn depth _ qs false n
      (fun h ↦ absurd h Bool.false_ne_true) (by simpa using hopen) hout
    exact not_inside hw haddr.ge (h n hshown)
  rwa [rdData_run_zero hw, Memory.rdData, if_neg hout,
    Memory.regRdNow_of_rdEn_false _ _ _ hclosed] at hzero

theorem write_memx_iff (hw : SupportedWidth dataWidth) {n : Nat}
    (hwr : Memory.wrEn (qs n) = true) (haddr : depth ≤ (qs n).addr.toNat)
    (outs : Nat → Nat → BitVec 8) :
    (run (clock endianess) (accesses qs outs) s (n + 1)).mem.memx =
        (run (clock endianess) (accesses qs outs) s n).mem.memx ↔
      (endianess = false → ∀ k < blockLength dataWidth (qs n).blsize, ∀ i : Fin depth,
        i.val = ((qs n).addr + BitVec.ofNat 32 k).toNat →
          (run (Memory.clock endianess) qs s.mem n).memx i = byteAt (qs n).wrData k) := by
  have hlen := blockBytes_blockSize hw (qs n).blsize
  rw [run_memx, run_memx, run_succ, Memory.clock, if_pos hwr, ← hlen]
  exact Memx.write_eq_self_iff _ endianess (blockSize_le_four hw _)
    (hlen ▸ blockLength_le dataWidth (qs n).blsize) haddr _

/-- In any period of any run, an access is isolated exactly when the missing range tests do
no harm. -/
theorem isolatedAt_iff {DEPTH : BitVec 32} (hw : SupportedWidth dataWidth)
    (syncRead endianess : Bool) (s : PortMemory DEPTH.toNat dataWidth)
    (qs : Nat → MemReq dataWidth) (n : Nat) :
    IsolatedAt syncRead endianess s qs n ↔ InBoundsAt syncRead endianess s.mem qs n := by
  constructor
  · rintro ⟨hread, hzero, hwrite⟩
    have hshown := (read_congr_iff hw syncRead n).mp hread
    refine ⟨hshown, ?_, ?_⟩
    · rintro rfl haddr
      exact latched_of_read_zero hw hshown haddr
        (hzero haddr.ge (fun h ↦ absurd h Bool.false_ne_true) fun _ _ ↦ 0)
    · intro hend hwr haddr
      exact (write_memx_iff hw hwr haddr _).mp (hwrite hwr haddr fun _ _ ↦ 0) hend
  · intro h
    refine ⟨(read_congr_iff hw syncRead n).mpr h.shown, ?_, ?_⟩
    · intro haddr hrd outs
      exact read_zero_of_inBounds hw h haddr hrd outs
    · intro hwr haddr outs
      exact (write_memx_iff hw hwr haddr outs).mpr fun hend ↦ h.wrapped hend hwr haddr

/-- A word written at address 16 of sixteen bytes, while the latch holds 0. -/
theorem isolatedAt_iff_depth :
    IsolatedAt false false (⟨⟨fun _ ↦ 0, 0⟩, 0⟩ : PortMemory (16#32).toNat 32)
      (fun _ ↦ ⟨false, true, true, false, DmemSize.word, 16, 0x11223344⟩) 0 := by
  refine (isolatedAt_iff (by simp [SupportedWidth]) _ _ _ _ 0).mpr ⟨?_, ?_, ?_⟩
  · rintro k hk
    have hnone : (none : Option Nat) = some k := hk
    contradiction
  · rintro - -
    rfl
  · rintro - - - k hk ⟨i, hi⟩ hik
    have hout : ∀ k < 4, 16 ≤ (16#32 + BitVec.ofNat 32 k).toNat := by decide
    have hle : 16 ≤ i := (hout k hk).trans_eq hik.symm
    exact absurd hle (Nat.not_le.mpr hi)

/-- A byte read at address 16 of sixteen bytes is not isolated, nor is a word written at the
last address of all. -/
theorem not_isolatedAt :
    ¬IsolatedAt false false (⟨⟨fun _ ↦ 0, 0⟩, 0⟩ : PortMemory (16#32).toNat 32)
        (fun _ ↦ ⟨false, true, false, true, DmemSize.byte, 16, 0⟩) 0 ∧
      ¬IsolatedAt false false (⟨⟨fun _ ↦ 0, 0⟩, 0⟩ : PortMemory (16#32).toNat 32)
        (fun _ ↦ ⟨false, true, true, false, DmemSize.word, 0xFFFFFFFF, 0x11223344⟩) 0 := by
  constructor
  · intro h
    have hread := h.read_congr (fun _ _ ↦ 0) fun _ _ ↦ 1
    exact absurd hread (by decide +kernel)
  · intro h
    have hwrite := congrFun (h.write_memx rfl (by decide) fun _ _ ↦ 0) ⟨0, by decide⟩
    exact absurd hwrite (by decide +kernel)

end PortMemory

end RtlCores.Modules
