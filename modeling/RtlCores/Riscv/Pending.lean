import RtlCores.Riscv.Resume

/-!
# The pending bits of `mip`

`mip` is to record the interrupt whose handler runs: the bit of the external or software
interrupt is set when it is taken and cleared by the xRET that ends its handler.  The source
writes `csr_din`, which in the period of a trap is the address of the handler, with that one
bit replaced; and since `irq_stop` masks the requests the clearing is never reached.  For which
`mtvec` the address is `mip` again depends on the operation of the aborted instruction, as
`AluOp.ReachesMip` says.
-/

namespace RtlCores.Riscv

open RtlCores.Lib RtlCores.Modules

variable {xlen depth : Nat}

/-- What a trap is taken for. -/
inductive TrapCause where
  | external | software | other
deriving DecidableEq, Repr

/-- The bit of `mip` that belongs to a cause: `MEIP` or `MSIP`. -/
def TrapCause.mipBit : TrapCause → Option Nat
  | external => some 11
  | software => some 3
  | other => none

theorem TrapCause.mipBit_lt {c : TrapCause} {k : Nat} (h : c.mipBit = some k) : k < 32 := by
  cases c with
  | external => obtain rfl := Option.some.inj h; decide
  | software => obtain rfl := Option.some.inj h; decide
  | other => contradiction

namespace Csr

variable (r : Csr xlen) (i : CsrIn)

/-- The cause of a trap that starts now; the external interrupt goes first. -/
def trapCause : TrapCause :=
  if r.irqExternal i then .external
  else if r.irqSoftware i then .software
  else .other

variable {r i} in
/-- The causes with a bit, by the requests. -/
theorem mipBit_trapCause {k : Nat} (hk : (r.trapCause i).mipBit = some k) :
    r.irqExternal i = true ∧ k = 11 ∨
      r.irqExternal i = false ∧ r.irqSoftware i = true ∧ k = 3 := by
  rw [trapCause] at hk
  cases hex : r.irqExternal i with
  | true =>
    rw [hex] at hk
    exact .inl ⟨rfl, (Option.some.inj hk).symm⟩
  | false =>
    cases hsw : r.irqSoftware i with
    | true =>
      rw [hex, hsw] at hk
      exact .inr ⟨rfl, rfl, (Option.some.inj hk).symm⟩
    | false =>
      rw [hex, hsw] at hk
      contradiction

/-- A CSR instruction addressed to `mip` is in flight. -/
def addressesMip (i : CsrIn) : Bool := i.cType && i.sysImm == CsrAddr.mip

theorem withBit_inj (v w : BitVec xlen) {k : Nat} (hk : k < xlen) (b : Bool) :
    withBit v k b = withBit w k b ↔ ∀ j, j ≠ k → v.getLsbD j = w.getLsbD j := by
  constructor
  · intro h j hj
    have hbit := congrArg (BitVec.getLsbD · j) h
    simpa [getLsbD_withBit _ hk, hj] using hbit
  · intro h
    apply BitVec.eq_of_getLsbD_eq
    intro j _
    rw [getLsbD_withBit _ hk, getLsbD_withBit _ hk]
    by_cases hj : j = k
    · rw [if_pos hj, if_pos hj]
    · rw [if_neg hj, if_neg hj, h j hj]

/-- Replacing a bit by itself. -/
theorem eq_withBit_iff (v : BitVec xlen) {k : Nat} (hk : k < xlen) (b : Bool) :
    v = withBit v k b ↔ v.getLsbD k = b := by
  constructor
  · intro h
    rw [h, getLsbD_withBit _ hk, if_pos rfl]
  · intro h
    apply BitVec.eq_of_getLsbD_eq
    intro j _
    rw [getLsbD_withBit _ hk]
    by_cases hj : j = k
    · rw [if_pos hj, hj, h]
    · rw [if_neg hj]

variable (csrDin : BitVec xlen)

/-- A trap writes `csr_din` with the bit of its cause. -/
theorem negedge_mip_of_irqStart {k : Nat} (h : r.irqStart i = true)
    (hk : (r.trapCause i).mipBit = some k) : (r.negedge i csrDin).mip = withBit csrDin k true := by
  show (r.mipLoad i csrDin).getD r.mip = _
  rcases mipBit_trapCause hk with ⟨hex, rfl⟩ | ⟨hex, hsw, rfl⟩
  · rw [mipLoad, h, hex]
    rfl
  · rw [mipLoad, h, hex, hsw]
    rfl

/-- Otherwise only a CSR instruction writes, and it keeps bits 11 and 7. -/
theorem negedge_mip_of_other (h : r.irqStart i = true → (r.trapCause i).mipBit = none) :
    (r.negedge i csrDin).mip =
      if i.wrEn && i.sysImm == CsrAddr.mip then
        withBit (withBit csrDin 11 (r.mip.getLsbD 11)) 7 (r.mip.getLsbD 7)
      else r.mip := by
  show (r.mipLoad i csrDin).getD r.mip = _
  have hstart : (r.irqStart i && r.irqExternal i) = false ∧
      (r.irqStart i && r.irqSoftware i) = false := by
    cases hs : r.irqStart i with
    | false => exact ⟨rfl, rfl⟩
    | true =>
      have hnone := h hs
      rw [trapCause] at hnone
      split_ifs at hnone with hex hsw
      · contradiction
      · contradiction
      · rw [Bool.true_and, Bool.true_and]
        exact ⟨Bool.eq_false_iff.mpr hex, Bool.eq_false_iff.mpr hsw⟩
  have hstop : (i.irqStop && r.irqExternal i) = false ∧
      (i.irqStop && r.irqSoftware i) = false := by
    cases hs : i.irqStop with
    | false => exact ⟨rfl, rfl⟩
    | true => exact ⟨r.irqExternal_of_irqStop i hs, r.irqSoftware_of_irqStop i hs⟩
  rw [mipLoad, hstart.1, hstart.2, hstop.1, hstop.2]
  simp only [Bool.false_eq_true, if_false]
  split <;> rfl

end Csr

/-! ## Which operations form `mip` -/

/-- The values of `mip` that `op` makes of `base` and `off`, bit `k` aside: those of the sums and
of the exclusive or are solved for the base, the others are given bit by bit. -/
def AluOp.ReachesMip (op : AluOp) (base off mip : BitVec xlen) (k : Nat) : Prop :=
  let shamt := (off.extractLsb' 0 (Nat.clog 2 xlen)).toNat
  match op with
  | .add => ∃ b, base = Csr.withBit mip k b - off
  | .sub => ∃ b, base = Csr.withBit mip k b + off
  | .xor => ∃ b, base = Csr.withBit mip k b ^^^ off
  | .or => ∀ j < xlen, j ≠ k → mip.getLsbD j = (base.getLsbD j || off.getLsbD j)
  | .and => ∀ j < xlen, j ≠ k → mip.getLsbD j = (base.getLsbD j && off.getLsbD j)
  | .slt => ∀ j < xlen, j ≠ k → mip.getLsbD j = (j == 0 && base.slt off)
  | .sltu => ∀ j < xlen, j ≠ k → mip.getLsbD j = (j == 0 && base.ult off)
  | .sll => ∀ j < xlen, j ≠ k → mip.getLsbD j = (decide (shamt ≤ j) && base.getLsbD (j - shamt))
  | .srl => ∀ j < xlen, j ≠ k → mip.getLsbD j = base.getLsbD (j + shamt)
  | .sra => ∀ j < xlen, j ≠ k →
      mip.getLsbD j = if j + shamt < xlen then base.getLsbD (j + shamt) else base.msb

instance (op : AluOp) (base off mip : BitVec xlen) (k : Nat) :
    Decidable (op.ReachesMip base off mip k) := by
  unfold AluOp.ReachesMip
  cases op <;> infer_instance

/-- Two words agree off bit `k` if one is the other with some bit `k`. -/
theorem agree_iff_withBit {v w : BitVec xlen} {k : Nat} (hk : k < xlen) :
    (∀ j, j ≠ k → v.getLsbD j = w.getLsbD j) ↔ ∃ b, v = Csr.withBit w k b := by
  constructor
  · intro h
    refine ⟨v.getLsbD k, ?_⟩
    rw [← (Csr.withBit_inj v w hk _).mpr h]
    exact (Csr.eq_withBit_iff v hk _).mpr rfl
  · rintro ⟨b, rfl⟩ j hj
    rw [Csr.getLsbD_withBit _ hk, if_neg hj]

/-- Words agree off bit `k` if they do below the width, where one is given bit by bit. -/
theorem agree_iff_bits {v w : BitVec xlen} {k : Nat} {f : Nat → Bool}
    (hf : ∀ j < xlen, v.getLsbD j = f j) :
    (∀ j, j ≠ k → v.getLsbD j = w.getLsbD j) ↔ ∀ j < xlen, j ≠ k → w.getLsbD j = f j := by
  constructor
  · intro h j hlt hj
    rw [← h j hj, hf j hlt]
  · intro h j hj
    by_cases hlt : j < xlen
    · rw [hf j hlt, h j hlt hj]
    · rw [BitVec.getLsbD_of_ge v j (by omega), BitVec.getLsbD_of_ge w j (by omega)]

/-- The result of a comparison has bit 0 only. -/
theorem getLsbD_ite_one (b : Bool) {j : Nat} (hj : j < xlen) :
    (if b then (1 : BitVec xlen) else 0).getLsbD j = (j == 0 && b) := by
  cases b with
  | true =>
    rw [if_pos rfl, BitVec.ofNat_eq_ofNat, BitVec.getLsbD_one, Bool.and_true,
      decide_eq_true (by omega), Bool.true_and]
    rfl
  | false => simp

theorem xor_eq_iff_eq_xor {u v w : BitVec xlen} : u ^^^ v = w ↔ u = w ^^^ v := by
  constructor
  · rintro rfl
    rw [BitVec.xor_assoc, BitVec.xor_self, BitVec.xor_zero]
  · rintro rfl
    rw [BitVec.xor_assoc, BitVec.xor_self, BitVec.xor_zero]

/-- Each operation forms `mip`, bit `k` aside, exactly under its condition. -/
theorem aluDataflow_agree_iff (op : AluOp) {base off mip : BitVec xlen} {k : Nat} (hk : k < xlen) :
    (∀ j, j ≠ k → (aluDataflow op base off).getLsbD j = mip.getLsbD j) ↔
      op.ReachesMip base off mip k := by
  cases op with
  | add => simp only [agree_iff_withBit hk, aluDataflow, AluOp.ReachesMip, eq_sub_iff_add_eq]
  | sub => simp only [agree_iff_withBit hk, aluDataflow, AluOp.ReachesMip, sub_eq_iff_eq_add]
  | xor => simp only [agree_iff_withBit hk, aluDataflow, AluOp.ReachesMip, xor_eq_iff_eq_xor]
  | or => exact agree_iff_bits fun j _ ↦ BitVec.getLsbD_or
  | and => exact agree_iff_bits fun j _ ↦ BitVec.getLsbD_and
  | slt => exact agree_iff_bits fun j hj ↦ getLsbD_ite_one (base.slt off) hj
  | sltu => exact agree_iff_bits fun j hj ↦ getLsbD_ite_one (base.ult off) hj
  | sll =>
    refine agree_iff_bits fun j hj ↦ ?_
    rw [aluDataflow, BitVec.getLsbD_shiftLeft, decide_eq_true hj, Bool.true_and]
    simp only [← decide_not, not_lt]
  | srl =>
    refine agree_iff_bits fun j _ ↦ ?_
    rw [aluDataflow, BitVec.getLsbD_ushiftRight, Nat.add_comm]
  | sra =>
    refine agree_iff_bits fun j hj ↦ ?_
    rw [aluDataflow, BitVec.getLsbD_sshiftRight, Nat.add_comm, decide_eq_false (not_le.mpr hj)]
    rfl

/-- What `mtvec` adds to the base for the cause at bit `k`. -/
def vectorOffset (mtvec : BitVec xlen) (k : Nat) : BitVec xlen :=
  if mtvec.getLsbD 0 then BitVec.ofNat xlen (4 * k) else 0

/-- The cause code of an interrupt is the number of its bit. -/
theorem Csr.causeCode_of_mipBit {r : Csr xlen} {i : CsrIn} {k : Nat}
    (hk : (r.trapCause i).mipBit = some k) :
    r.interrupt i = true ∧ r.causeCode i = BitVec.ofNat 32 k := by
  rw [interrupt, causeCode, mcauseCode]
  rcases mipBit_trapCause hk with ⟨hex, rfl⟩ | ⟨hex, hsw, rfl⟩
  · rw [hex, if_pos rfl]
    exact ⟨rfl, rfl⟩
  · rw [hex, hsw, if_neg Bool.false_ne_true, if_pos rfl]
    exact ⟨rfl, rfl⟩

/-- The offset of an interrupt is four times its bit, in vectored mode. -/
theorem Csr.offset_of_mipBit (hx : 32 ≤ xlen) {r : Csr xlen} {i : CsrIn} {k : Nat}
    (hk : (r.trapCause i).mipBit = some k) : r.offset i = vectorOffset r.mtvec k := by
  obtain ⟨hint, hcode⟩ := Csr.causeCode_of_mipBit hk
  have hlt := TrapCause.mipBit_lt hk
  rw [vectorOffset]
  cases hv : r.mtvec.getLsbD 0 with
  | false => exact r.offset_of_not_vectored i hx (by rw [hv, Bool.and_false])
  | true =>
    rw [r.offset_of_vectored i hx (by rw [hint, hv]; rfl), hcode, if_pos rfl]
    apply BitVec.eq_of_toNat_eq
    have hmul : (4 * BitVec.ofNat 32 k).toNat = 4 * k := by
      rw [BitVec.toNat_mul, BitVec.toNat_ofNat]
      show 4 * (k % 2 ^ 32) % 2 ^ 32 = 4 * k
      omega
    rw [BitVec.toNat_setWidth, BitVec.toNat_ofNat, hmul]

namespace State

/-! ## Handlers -/

/-- The handlers entered and not left, innermost first. -/
abbrev Handlers := List TrapCause

variable (p : Inputs xlen) (hs : Handlers) (s : State xlen depth)

/-- A trap enters a handler, and an xRET ends the innermost one. -/
def handlersNext : Handlers :=
  if s.irqStart p then s.core.csr.trapCause (s.csrIn p) :: hs
  else if s.irqStop p then hs.tail
  else hs

/-- A period together with the handlers. -/
def handledCycle (p : Inputs xlen) (x : Handlers × State xlen depth) :
    Handlers × State xlen depth :=
  (handlersNext p x.1 x.2, x.2.cycle p)

/-- The bit of `mip` that is due in this period and its new value: set for the interrupt that
is taken, cleared for the one whose handler ends. -/
def mipDue : Option (Nat × Bool) :=
  if s.irqStart p then (s.core.csr.trapCause (s.csrIn p)).mipBit.map fun k ↦ (k, true)
  else if s.irqStop p then (hs.head?.bind TrapCause.mipBit).map fun k ↦ (k, false)
  else none

/-- A change of `mip` from `old` to `new`: the bit that is due changes and no other one; if none
is due there is no change, unless a CSR instruction is addressed to `mip`. -/
def MipChange (due : Option (Nat × Bool)) (addressed : Bool) (old new : BitVec xlen) : Prop :=
  match due with
  | some (k, b) => new = Csr.withBit old k b
  | none => addressed = false → new = old

/-- `mip` follows its sources in this period. -/
def MipFollows (p : Inputs xlen) (x : Handlers × State xlen depth) : Prop :=
  MipChange (mipDue p x.1 x.2) (Csr.addressesMip (x.2.csrIn p)) x.2.core.csr.mip
    (x.2.cycle p).core.csr.mip

/-- Nothing disturbs `mip`: the operation of an instruction that an interrupt aborts forms it,
the bit of the cause aside, from the base in `mtvec` and the offset; no handler of an external
interrupt ends; and at the end of the handler of a software interrupt its bit has been cleared
already. -/
def Undisturbed (due : Option (Nat × Bool)) (op : AluOp) (mtvec mip : BitVec xlen) : Prop :=
  match due with
  | some (k, true) => op.ReachesMip (splice mtvec 0 0#2) (vectorOffset mtvec k) mip k
  | some (k, false) => k = 3 ∧ mip.getLsbD 3 = false
  | none => True

instance (due : Option (Nat × Bool)) (op : AluOp) (mtvec mip : BitVec xlen) :
    Decidable (Undisturbed due op mtvec mip) :=
  match due with
  | some (k, true) =>
    inferInstanceAs (Decidable (op.ReachesMip (splice mtvec 0 0#2) (vectorOffset mtvec k) mip k))
  | some (k, false) => inferInstanceAs (Decidable (k = 3 ∧ mip.getLsbD 3 = false))
  | none => inferInstanceAs (Decidable True)

/-- `mip` is undisturbed in this period. -/
def MipUndisturbed (p : Inputs xlen) (x : Handlers × State xlen depth) : Prop :=
  Undisturbed (mipDue p x.1 x.2) x.2.ctl.aluOp x.2.core.csr.mtvec x.2.core.csr.mip

instance (p : Inputs xlen) (x : Handlers × State xlen depth) : Decidable (MipUndisturbed p x) :=
  inferInstanceAs (Decidable (Undisturbed _ _ _ _))

/-! ## One period -/

theorem cycle_mip :
    (s.cycle p).core.csr.mip = (s.core.csr.negedge (s.csrIn p) (s.aluRes p)).mip := by
  rw [cycle_csr]
  rfl

variable {p hs s}

theorem addressesMip_of_wrEn (h : Csr.addressesMip (s.csrIn p) = false) :
    ((s.csrIn p).wrEn && (s.csrIn p).sysImm == CsrAddr.mip) = false := by
  have hand :
      ((s.csrIn p).cType && (s.csrIn p).rsOk && (s.csrIn p).sysImm == CsrAddr.mip) = false := by
    rw [Csr.addressesMip] at h
    rw [Bool.and_right_comm, h, Bool.false_and]
  exact hand

/-- An xRET leaves `mip` as it is. -/
theorem cycle_mip_of_irqStop (hstart : s.irqStart p = false) (hstop : s.irqStop p = true) :
    (s.cycle p).core.csr.mip = s.core.csr.mip := by
  have hc : s.dec.cType = false := (decode_yType (yType_of_irqStop p s hstop)).2.2.2
  have hstart' : s.core.csr.irqStart (s.csrIn p) = false := hstart
  rw [cycle_mip, Csr.negedge_mip_of_other _ _ _ fun h ↦ absurd (hstart'.symm.trans h) (by decide),
    wrEn_of_not_cType p s hc]
  rfl

/-- What is due. -/
theorem mipDue_cases (p : Inputs xlen) (hs : Handlers) (s : State xlen depth) :
    (∃ k, mipDue p hs s = some (k, true) ∧ s.irqStart p = true ∧
        (s.core.csr.trapCause (s.csrIn p)).mipBit = some k) ∨
      (∃ k c, mipDue p hs s = some (k, false) ∧ s.irqStart p = false ∧ s.irqStop p = true ∧
        hs.head? = some c ∧ c.mipBit = some k) ∨
      (mipDue p hs s = none ∧
        (s.irqStart p = true → (s.core.csr.trapCause (s.csrIn p)).mipBit = none)) := by
  rw [mipDue]
  cases hstart : s.irqStart p with
  | true =>
    cases hk : (s.core.csr.trapCause (s.csrIn p)).mipBit with
    | some k => exact .inl ⟨k, rfl, rfl, rfl⟩
    | none => exact .inr (.inr ⟨rfl, fun _ ↦ rfl⟩)
  | false =>
    cases hstop : s.irqStop p with
    | false => exact .inr (.inr ⟨rfl, fun h ↦ absurd h (by decide)⟩)
    | true =>
      cases hk : hs.head?.bind TrapCause.mipBit with
      | none => exact .inr (.inr ⟨rfl, fun h ↦ absurd h (by decide)⟩)
      | some k =>
        obtain ⟨c, hc, hbit⟩ := Option.bind_eq_some_iff.mp hk
        exact .inr (.inl ⟨k, c, rfl, rfl, rfl, hc, hbit⟩)

variable {k : Nat}

theorem mipFollows_of_due {b : Bool} (h : mipDue p hs s = some (k, b)) :
    MipFollows p (hs, s) ↔ (s.cycle p).core.csr.mip = Csr.withBit s.core.csr.mip k b := by
  rw [MipFollows, h]
  exact Iff.rfl

/-- An xRET in flight takes no interrupt. -/
theorem irqStop_of_mipBit (hk : (s.core.csr.trapCause (s.csrIn p)).mipBit = some k) :
    s.irqStop p = false := by
  by_contra hstop
  rw [Bool.not_eq_false] at hstop
  have hstop' : (s.csrIn p).irqStop = true := hstop
  rcases Csr.mipBit_trapCause hk with ⟨hex, -⟩ | ⟨-, hsw, -⟩
  · rw [Csr.irqExternal_of_irqStop _ _ hstop'] at hex
    contradiction
  · rw [Csr.irqSoftware_of_irqStop _ _ hstop'] at hsw
    contradiction

theorem mipUndisturbed_of_taken (h : mipDue p hs s = some (k, true)) :
    MipUndisturbed p (hs, s) ↔
      s.ctl.aluOp.ReachesMip (splice s.core.csr.mtvec 0 0#2) (vectorOffset s.core.csr.mtvec k)
        s.core.csr.mip k := by
  rw [MipUndisturbed, h]
  exact Iff.rfl

/-- A trap is followed if the address of the handler shows `mip`. -/
theorem mipFollows_of_taken (hx : 32 ≤ xlen) (h : mipDue p hs s = some (k, true))
    (hstart : s.irqStart p = true) (hk : (s.core.csr.trapCause (s.csrIn p)).mipBit = some k) :
    MipFollows p (hs, s) ↔ MipUndisturbed p (hs, s) := by
  have hstart' : s.core.csr.irqStart (s.csrIn p) = true := hstart
  have hlt : k < xlen := lt_of_lt_of_le (TrapCause.mipBit_lt hk) hx
  rw [mipFollows_of_due h, cycle_mip, Csr.negedge_mip_of_irqStart _ _ _ hstart' hk,
    Csr.withBit_inj _ _ hlt, aluRes_of_irqStart p s hstart (irqStop_of_mipBit hk),
    alu_eq_aluDataflow, Csr.offset_of_mipBit hx hk, aluDataflow_agree_iff _ hlt,
    mipUndisturbed_of_taken h]

/-- The end of a handler is followed if the bit is clear already. -/
theorem mipFollows_of_ended (hx : 32 ≤ xlen) (h : mipDue p hs s = some (k, false))
    (hstart : s.irqStart p = false) (hstop : s.irqStop p = true) (hk : k < 32) :
    MipFollows p (hs, s) ↔ s.core.csr.mip.getLsbD k = false := by
  rw [mipFollows_of_due h, cycle_mip_of_irqStop hstart hstop, Csr.eq_withBit_iff _ (by omega)]

theorem mipFollows_of_not_due (h : mipDue p hs s = none)
    (hnone : s.irqStart p = true → (s.core.csr.trapCause (s.csrIn p)).mipBit = none) :
    MipFollows p (hs, s) := by
  have hnone' : s.core.csr.irqStart (s.csrIn p) = true →
    (s.core.csr.trapCause (s.csrIn p)).mipBit = none := hnone
  rw [MipFollows, h]
  intro haddr
  rw [cycle_mip, Csr.negedge_mip_of_other _ _ _ hnone', addressesMip_of_wrEn haddr]
  rfl

theorem mipUndisturbed_of_ended (h : mipDue p hs s = some (k, false)) :
    MipUndisturbed p (hs, s) ↔ k = 3 ∧ s.core.csr.mip.getLsbD 3 = false := by
  rw [MipUndisturbed, h]
  exact Iff.rfl

theorem mipUndisturbed_of_not_due (h : mipDue p hs s = none) : MipUndisturbed p (hs, s) := by
  rw [MipUndisturbed, h]
  trivial

/-! ## Runs -/

/-- While a handler of an external interrupt is open `MEIP` is set. -/
def ExternalSet (x : Handlers × State xlen depth) : Prop :=
  TrapCause.external ∈ x.1 → x.2.core.csr.mip.getLsbD 11 = true

/-- Where no bit is due `MEIP` stays: CSR instructions cannot write it. -/
theorem getLsbD_mip_of_not_due (hx : 32 ≤ xlen)
    (hnone : s.irqStart p = true → (s.core.csr.trapCause (s.csrIn p)).mipBit = none) :
    (s.cycle p).core.csr.mip.getLsbD 11 = s.core.csr.mip.getLsbD 11 := by
  have hnone' : s.core.csr.irqStart (s.csrIn p) = true →
    (s.core.csr.trapCause (s.csrIn p)).mipBit = none := hnone
  rw [cycle_mip, Csr.negedge_mip_of_other _ _ _ hnone']
  split
  · exact (Csr.getLsbD_withBit_withBit _ (by omega) (by omega) (by decide) _ _).1
  · rfl

theorem mem_handlersNext_of_mem {c : TrapCause} (h : c ∈ handlersNext p hs s)
    (hne : s.irqStart p = true → s.core.csr.trapCause (s.csrIn p) ≠ c) : c ∈ hs := by
  rw [handlersNext] at h
  split_ifs at h with hstart hstop
  · rcases List.mem_cons.mp h with heq | hin
    · exact absurd heq.symm (hne hstart)
    · exact hin
  · exact List.mem_of_mem_tail h
  · exact h

/-- The period keeps that as far as `mip` follows its sources. -/
theorem ExternalSet.handledCycle (hx : 32 ≤ xlen) (h : ExternalSet (hs, s))
    (hfollows : MipFollows p (hs, s)) : ExternalSet (handledCycle p (hs, s)) := by
  intro hmem
  show (s.cycle p).core.csr.mip.getLsbD 11 = true
  have hmem' : TrapCause.external ∈ handlersNext p hs s := hmem
  rcases mipDue_cases p hs s with ⟨k, hdue, hstart, hk⟩ | ⟨k, c, hdue, hstart, hstop, hc, hk⟩ |
    ⟨hdue, hnone⟩
  · have hlt := TrapCause.mipBit_lt hk
    rw [(mipFollows_of_due hdue).mp hfollows, Csr.getLsbD_withBit _ (by omega)]
    by_cases h11 : 11 = k
    · rw [if_pos h11]
    · rw [if_neg h11]
      refine h (mem_handlersNext_of_mem hmem' fun _ hex ↦ h11 ?_)
      rw [hex] at hk
      exact Option.some.inj hk
  · rw [cycle_mip_of_irqStop hstart hstop]
    exact h (mem_handlersNext_of_mem hmem' fun hs' ↦ absurd (hstart.symm.trans hs') (by decide))
  · rw [getLsbD_mip_of_not_due hx hnone]
    refine h (mem_handlersNext_of_mem hmem' fun hs' hex ↦ ?_)
    have hbit := hnone hs'
    rw [hex] at hbit
    contradiction

/-- A period in which `mip` follows its sources does not disturb it: the bit of an external
interrupt in progress is still set, so its handler cannot have ended. -/
theorem MipFollows.undisturbed (hx : 32 ≤ xlen) (hfollows : MipFollows p (hs, s))
    (hexternal : ExternalSet (hs, s)) : MipUndisturbed p (hs, s) := by
  rcases mipDue_cases p hs s with ⟨k, hdue, hstart, hk⟩ | ⟨k, c, hdue, hstart, hstop, hc, hk⟩ |
    ⟨hdue, hnone⟩
  · exact (mipFollows_of_taken hx hdue hstart hk).mp hfollows
  · have hclear := (mipFollows_of_ended hx hdue hstart hstop (TrapCause.mipBit_lt hk)).mp hfollows
    rw [mipUndisturbed_of_ended hdue]
    cases c with
    | external =>
      obtain rfl := Option.some.inj hk
      rw [hexternal (List.mem_of_mem_head? hc)] at hclear
      contradiction
    | software =>
      obtain rfl := Option.some.inj hk
      exact ⟨rfl, hclear⟩
    | other => contradiction
  · exact mipUndisturbed_of_not_due hdue

theorem MipUndisturbed.follows (hx : 32 ≤ xlen) (h : MipUndisturbed p (hs, s)) :
    MipFollows p (hs, s) := by
  rcases mipDue_cases p hs s with ⟨k, hdue, hstart, hk⟩ | ⟨k, c, hdue, hstart, hstop, hc, hk⟩ |
    ⟨hdue, hnone⟩
  · exact (mipFollows_of_taken hx hdue hstart hk).mpr h
  · obtain ⟨rfl, hclear⟩ := (mipUndisturbed_of_ended hdue).mp h
    exact (mipFollows_of_ended hx hdue hstart hstop (by decide)).mpr hclear
  · exact mipFollows_of_not_due hdue hnone

/-- In every run `mip` follows its sources in all periods exactly if it is undisturbed in all. -/
theorem mipFollows_iff (hx : 32 ≤ xlen) (s₀ : State xlen depth) (is : Nat → Inputs xlen) :
    (∀ n, MipFollows (is n) (run handledCycle is ([], s₀) n)) ↔
      ∀ n, MipUndisturbed (is n) (run handledCycle is ([], s₀) n) := by
  constructor
  · intro h
    have hset (n : Nat) : ExternalSet (run handledCycle is ([], s₀) n) := by
      induction n with
      | zero => intro hmem; contradiction
      | succ n ih => exact ih.handledCycle hx (h n)
    exact fun n ↦ (h n).undisturbed hx (hset n)
  · exact fun h n ↦ (h n).follows hx

/-- Next to the handlers the core runs as it does alone. -/
theorem run_handledCycle (is : Nat → Inputs xlen) (x : Handlers × State xlen depth) (n : Nat) :
    (run handledCycle is x n).2 = run (fun p s ↦ s.cycle p) is x.2 n := by
  induction n with
  | zero => rfl
  | succ n ih => rw [run_succ, run_succ, ← ih]; rfl

/-- With the lines low nothing is due in a halted core. -/
theorem Halted.mipDue_eq (h : Halted s) (hex : p.irqExPending = false)
    (hsw : p.irqSwPending = false) : mipDue p hs s = none := by
  have hcause : s.core.csr.trapCause (s.csrIn p) = .other := by
    have hex' : (s.csrIn p).irqExPending = false := hex
    have hsw' : (s.csrIn p).irqSwPending = false := hsw
    rw [Csr.trapCause, Csr.irqExternal, Csr.irqSoftware, hex', hsw']
    simp
  have hstop : s.irqStop p = false := by
    refine irqStop_of_not_yType p s ?_
    rw [dec, h.instruction]
    rfl
  rw [mipDue, hcause, hstop]
  split <;> rfl

/-- The program of the interrupted `ADDI` after `CSRRW x0, mtvec, x1`, which clears `mtvec`. -/
def clearedBase : State 32 1024 :=
  (loaded (0x30509073 :: enableIrq [0x00500093])).posedge (irqLine false)

/-- The `ADDI` interrupted with `mtvec` clear: the address 0 of the handler is `mip` with bit 11
clear, so that bit only is set. -/
theorem mipFollows_iff_addi :
    let is : Nat → Inputs 32 := fun n ↦ irqLine (n == 5)
    (∀ n, MipFollows (is n) (run handledCycle is ([], clearedBase) n)) ∧
      (run handledCycle is ([], clearedBase) 5).2.core.csr.mip = 0 ∧
      (run handledCycle is ([], clearedBase) 6).2.core.csr.mip = 0x800 := by
  intro is
  refine ⟨(mipFollows_iff (by decide) clearedBase is).mpr fun n ↦ ?_, by decide +kernel,
    by decide +kernel⟩
  rcases Nat.lt_or_ge n 13 with hlt | hge
  · revert n
    decide +kernel
  · have hend : Halted (run (fun p s ↦ State.cycle p s) is clearedBase 13) :=
      ⟨by decide +kernel, by decide +kernel, by decide +kernel⟩
    have hhalt := (Halted.of_le hge hend).1
    have hlow : (n == 5) = false := beq_eq_false_iff_ne.mpr (by omega)
    rw [← run_handledCycle is ([], clearedBase)] at hhalt
    exact mipUndisturbed_of_not_due (hhalt.mipDue_eq hlow rfl)

/-- The external interrupt makes `mip` the address of the handler, `0x3DC`, with bit 11. -/
theorem not_mipFollows_addi :
    let x : Handlers × State 32 1024 := run handledCycle (fun n ↦ irqLine (n == 4))
      ([], (loaded (enableIrq [0x00500093])).posedge (irqLine false)) 4
    x.2.irqStart (irqLine true) = true ∧ x.2.core.csr.mip = 0 ∧
      (x.2.cycle (irqLine true)).core.csr.mip = 0xBDC ∧ ¬ MipFollows (irqLine true) x := by
  intro x
  have hdue : mipDue (irqLine true) x.1 x.2 = some (11, true) := by decide +kernel
  refine ⟨by decide +kernel, by decide +kernel, by decide +kernel, ?_⟩
  rw [mipFollows_of_due hdue]
  decide +kernel

end State

end RtlCores.Riscv
