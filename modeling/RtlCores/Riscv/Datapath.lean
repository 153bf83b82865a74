import RtlCores.Riscv.Pkg

/-!
# Store and load alignment and the register file

`data_handler.sv`, `sign_extender.sv` and `register_file.sv`.
-/

namespace RtlCores.Riscv

open RtlCores.Lib

variable {xlen : Nat}

/-- `data_handler`: the store data cut to the block size. -/
def dataHandler (blockSize : BitVec 3) (dataIn : BitVec xlen) : BitVec xlen :=
  if xlen = 8 then dataIn
  else if xlen = 16 then
    if blockSize = DmemSize.byte then (dataIn.extractLsb' 0 8).setWidth xlen else dataIn
  else
    if blockSize = DmemSize.byte then (dataIn.extractLsb' 0 8).setWidth xlen
    else if blockSize = DmemSize.half then (dataIn.extractLsb' 0 16).setWidth xlen
    else if blockSize = DmemSize.trpl then (dataIn.extractLsb' 0 24).setWidth xlen
    else if blockSize = DmemSize.word then (dataIn.extractLsb' 0 32).setWidth xlen
    else dataIn

/-- The sign bit that `sign_extender` picks. -/
def signOf (blsize : BitVec 3) (dataIn : BitVec xlen) : Bool :=
  if xlen = 8 then dataIn.getLsbD (xlen - 1)
  else if xlen = 16 then
    if blsize = DmemSize.byte then dataIn.getLsbD 7 else dataIn.getLsbD (xlen - 1)
  else
    if blsize = DmemSize.byte then dataIn.getLsbD 7
    else if blsize = DmemSize.half then dataIn.getLsbD 15
    else if blsize = DmemSize.trpl then dataIn.getLsbD 23
    else if blsize = DmemSize.word then dataIn.getLsbD 31
    else dataIn.getLsbD (xlen - 1)

/-- `{{(DATA_WIDTH-k){sign}}, data_in[k-1:0]}` -/
def extendFrom (k : Nat) (sign : Bool) (dataIn : BitVec xlen) : BitVec xlen :=
  splice (fill xlen sign) 0 (dataIn.extractLsb' 0 k)

/-- `sign_extender` -/
def signExtender (blsize : BitVec 3) (zeroEx : Bool) (dataIn : BitVec xlen) : BitVec xlen :=
  let sign := signOf blsize dataIn
  if xlen = 8 then dataIn
  else if zeroEx then dataIn
  else if xlen = 16 then
    if blsize = DmemSize.byte then extendFrom 8 sign dataIn else dataIn
  else
    if blsize = DmemSize.byte then extendFrom 8 sign dataIn
    else if blsize = DmemSize.half then extendFrom 16 sign dataIn
    else if blsize = DmemSize.trpl then extendFrom 24 sign dataIn
    else if blsize = DmemSize.word then extendFrom 32 sign dataIn
    else dataIn

/-- The contents `reg_mem` of `register_file`, 32 registers. -/
abbrev RegFile (xlen : Nat) := BitVec 5 → BitVec xlen

/-- The negedge write of `register_file` outside reset. -/
def RegFile.write (rf : RegFile xlen) (rfWrEn : Bool) (rdAddr : BitVec 5) (wrData : BitVec xlen) :
    RegFile xlen :=
  if rfWrEn then fun a ↦ if a = rdAddr then wrData else rf a else rf

@[simp] theorem RegFile.write_false (rf : RegFile xlen) (rd : BitVec 5) (v : BitVec xlen) :
    rf.write false rd v = rf := rfl

theorem RegFile.write_true_apply (rf : RegFile xlen) (rd a : BitVec 5) (v : BitVec xlen) :
    rf.write true rd v a = if a = rd then v else rf a := rfl

/-- `extendFrom` with the sign bit of the low `k` bits sign-extends them. -/
theorem extendFrom_eq_signExtend {k : Nat} (hk : 0 < k) (v : BitVec xlen) :
    extendFrom k (v.getLsbD (k - 1)) v = (v.extractLsb' 0 k).signExtend xlen := by
  ext i hi
  rw [BitVec.getElem_signExtend]
  by_cases h : i < k
  · simp [extendFrom, h]
  · have hmsb : (v.extractLsb' 0 k).msb = v.getLsbD (k - 1) := by
      rw [BitVec.msb_eq_getLsbD_last, BitVec.getLsbD_extractLsb']
      simp [hk]
    simp [extendFrom, h, hmsb]

end RtlCores.Riscv
