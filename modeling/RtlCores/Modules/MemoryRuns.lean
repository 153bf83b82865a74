import RtlCores.Lib.ByteStore
import RtlCores.Modules.Memory

/-!
# `memory` as a byte array

Runs of a little-endian `memory` with asynchronous reads, one access a clock period, against
the byte array of `Lib.ByteStore`.
-/

namespace RtlCores.Modules

open RtlCores.Lib RtlCores.Riscv

variable {depth dataWidth : Nat}

/-- The number of bytes that `blsize` asks for; the other codes ask for a whole word. -/
def requestedBytes (dataWidth : Nat) (blsize : BitVec 3) : Nat :=
  if blsize = DmemSize.byte then 1
  else if blsize = DmemSize.half then 2
  else if blsize = DmemSize.trpl then 3
  else if blsize = DmemSize.word then 4
  else if blsize = DmemSize.dubl then 8
  else dataWidth / 8

/-- The block length of an access. -/
def blockLength (dataWidth : Nat) (blsize : BitVec 3) : Nat :=
  min (requestedBytes dataWidth blsize) (dataWidth / 8)

/-- The block lengths are those that `block_size` encodes. -/
theorem blockBytes_blockSize (hw : SupportedWidth dataWidth) (blsize : BitVec 3) :
    blockBytes (blockSize dataWidth blsize) = blockLength dataWidth blsize := by
  rcases hw with rfl | rfl | rfl | rfl | rfl <;> revert blsize <;> decide

theorem blockSize_le_four (hw : SupportedWidth dataWidth) (blsize : BitVec 3) :
    blockSize dataWidth blsize ≤ 4 := by
  refine (blockSize_le hw blsize).trans ?_
  rcases hw with rfl | rfl | rfl | rfl | rfl <;> decide

theorem blockLength_le (dataWidth : Nat) (blsize : BitVec 3) :
    8 * blockLength dataWidth blsize ≤ dataWidth := by
  have hmin : blockLength dataWidth blsize ≤ dataWidth / 8 := Nat.min_le_right _ _
  omega

/-- The array as a function of the address. -/
def Memx.contents (m : Memx depth) (i : Nat) : BitVec 8 := if h : i < depth then m ⟨i, h⟩ else 0

theorem Memx.read_eq_contents (m : Memx depth) (addr : BitVec 32) :
    m.read addr = m.contents addr.toNat := rfl

namespace Memory

variable (q : MemReq dataWidth) (m : Memory depth dataWidth)

/-- The write that a request asks for. -/
def blockWrite (q : MemReq dataWidth) : Option BlockWrite :=
  if q.req && q.wen && !q.res then
    some ⟨q.addr.toNat, blockLength dataWidth q.blsize, byteAt q.wrData⟩
  else none

/-- The access lies inside the array. -/
def Fits (depth : Nat) (q : MemReq dataWidth) : Prop :=
  q.addr.toNat + blockLength dataWidth q.blsize ≤ depth

instance (depth : Nat) (q : MemReq dataWidth) : Decidable (Fits depth q) :=
  inferInstanceAs (Decidable (_ ≤ _))

/-- One clock edge does to the bytes what the request asks for. -/
theorem contents_clock (hw : SupportedWidth dataWidth) (hdepth : depth ≤ 2 ^ 32)
    (hfits : Fits depth q) :
    (m.clock false q).memx.contents = storeStep (blockWrite q) m.memx.contents := by
  have hen : wrEn q = (q.req && q.wen && !q.res) := by
    rw [wrEn, Bool.and_assoc, Bool.and_comm]
  rw [clock, blockWrite, hen]
  by_cases h : (q.req && q.wen && !q.res) = true
  · rw [if_pos h, if_pos h]
    have hlen := blockBytes_blockSize hw q.blsize
    have hwidth : 8 * blockBytes (blockSize dataWidth q.blsize) ≤ dataWidth :=
      hlen ▸ blockLength_le dataWidth q.blsize
    have haddr : q.addr.toNat + blockBytes (blockSize dataWidth q.blsize) ≤ 2 ^ 32 :=
      hlen ▸ hfits.trans hdepth
    funext i
    rw [storeStep, Memx.contents, BlockWrite.apply]
    by_cases hi : i < depth
    · have hbyte := Memx.write_apply m.memx (blockSize_le_four hw q.blsize) hwidth haddr
        q.wrData ⟨i, hi⟩
      rw [hlen] at hbyte
      rw [dif_pos hi, Memx.contents, dif_pos hi]
      exact hbyte
    · have hout : ¬ BlockWrite.Covers
          ⟨q.addr.toNat, blockLength dataWidth q.blsize, byteAt q.wrData⟩ i := by
        rintro ⟨-, hlt⟩
        exact hi (lt_of_lt_of_le hlt hfits)
      rw [dif_neg hi, if_neg hout, Memx.contents, dif_neg hi]
  · rw [if_neg h, if_neg h]
    rfl

/-- An enabled read port shows the block at its address, zero-extended. -/
theorem rdData_eq_leWord (hw : SupportedWidth dataWidth) (hdepth : depth ≤ 2 ^ 32)
    (hfits : Fits depth q) (h : rdEn q = true) :
    m.rdData false q =
      (leWord (fun k ↦ m.memx.contents (q.addr.toNat + k))
        (blockLength dataWidth q.blsize)).setWidth dataWidth := by
  have hin : ¬ depth < q.addr.toNat := by
    have := hfits
    rw [Fits] at this
    omega
  rw [rdData, if_neg hin, regRdNow_eq_readBlock _ _ _ hw h,
    Memx.readBlock_eq_leWord _ (blockSize_le_four hw q.blsize), blockBytes_blockSize hw]
  congr 1
  refine leWord_congr fun k hk ↦ ?_
  have hsum : q.addr.toNat + k < 2 ^ 32 := by
    have := hfits
    rw [Fits] at this
    omega
  rw [Memx.read_eq_contents, BitVec.toNat_add, BitVec.toNat_ofNat,
    Nat.mod_eq_of_lt (show k < 2 ^ 32 by omega), Nat.mod_eq_of_lt hsum]

/-- Along every run the bytes are those of the byte array. -/
theorem contents_run (hw : SupportedWidth dataWidth) (hdepth : depth ≤ 2 ^ 32)
    (is : Nat → MemReq dataWidth) (hfits : ∀ t, Fits depth (is t)) (t : Nat) :
    (run (clock false) is m t).memx.contents =
      run storeStep (fun k ↦ blockWrite (is k)) m.memx.contents t := by
  induction t with
  | zero => rfl
  | succ t ih => rw [run_succ, contents_clock _ _ hw hdepth (hfits t), ih, run_succ]

/-- A little-endian `memory` with asynchronous reads refines a byte array: its bytes follow
the writes, each is the one most recently written at its address, and an enabled read shows
the bytes at its addresses. -/
theorem refines_byteArray {DEPTH : BitVec 32} (hw : SupportedWidth dataWidth)
    (m : Memory DEPTH.toNat dataWidth) (is : Nat → MemReq dataWidth)
    (hfits : ∀ t, Fits DEPTH.toNat (is t)) (t : Nat) :
    (run (clock false) is m t).memx.contents =
        run storeStep (fun k ↦ blockWrite (is k)) m.memx.contents t ∧
      (∀ i, (∀ j < t, ∀ w, blockWrite (is j) = some w → ¬ w.Covers i) →
        (run (clock false) is m t).memx.contents i = m.memx.contents i) ∧
      (∀ i, ∀ k < t, ∀ w, blockWrite (is k) = some w → w.Covers i →
        (∀ j, k < j → j < t → ∀ w', blockWrite (is j) = some w' → ¬ w'.Covers i) →
        (run (clock false) is m t).memx.contents i =
          byteAt (is k).wrData (i - (is k).addr.toNat)) ∧
      (((is t).req && (is t).ren) = true →
        (run (clock false) is m t).rdData false (is t) =
          (leWord (fun k ↦ (run (clock false) is m t).memx.contents ((is t).addr.toNat + k))
            (blockLength dataWidth (is t).blsize)).setWidth dataWidth) := by
  have hdepth : DEPTH.toNat ≤ 2 ^ 32 := DEPTH.isLt.le
  have hrun := contents_run m hw hdepth is hfits t
  refine ⟨hrun, ?_, ?_, fun h ↦ rdData_eq_leWord _ _ hw hdepth (hfits t) h⟩
  · intro i hi
    rw [hrun]
    exact run_storeStep_of_not_covers _ _ hi
  · intro i k hk w hwk hcov hlater
    have hbyte : w.byte i = byteAt (is k).wrData (i - (is k).addr.toNat) := by
      rw [blockWrite] at hwk
      obtain ⟨-, hw'⟩ := Option.ite_none_right_eq_some.mp hwk
      obtain rfl := Option.some.inj hw'
      rfl
    rw [hrun, run_storeStep_of_latest _ _ hk hwk hcov hlater, hbyte]

/-- A half word written at address 1 of sixteen bytes and read back. -/
theorem refines_byteArray_half :
    let q : MemReq 16 := ⟨false, true, true, true, DmemSize.half, 1, 0xABCD⟩
    (run (clock false) (fun _ ↦ q) (⟨fun _ ↦ 0, 0⟩ : Memory (16#32).toNat 16) 1).rdData false q
      = 0xABCD := by
  intro q
  have hshown := (refines_byteArray (.inr (.inl rfl)) (⟨fun _ ↦ 0, 0⟩ : Memory (16#32).toNat 16)
    (fun _ ↦ q) (fun _ ↦ by decide) 1).2.2.2 rfl
  exact hshown.trans (by decide)

end Memory

end RtlCores.Modules
