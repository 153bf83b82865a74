import Mathlib
import RtlCores.Lib.Machine

/-!
# Programs in a code memory

A program is a list of instructions that stand from address 0 on.  Each rule below executes
one of them, and what is left to show is about the hart after it.  Addresses and numbers in
registers are written as integers, which the operations follow as long as they stay in the
signed range of a word; the data memory is read in words.
-/

namespace RtlCores.Lib.Isa

variable {xlen : Nat}

/-! ## Numbers in registers -/

/-- An integer in the signed range of a 32-bit word. -/
def Small (z : ℤ) : Prop := -2 ^ 31 ≤ z ∧ z < 2 ^ 31

theorem toInt_ofInt (hx : 32 ≤ xlen) {z : ℤ} (hz : Small z) : (BitVec.ofInt xlen z).toInt = z := by
  obtain ⟨hlo, hhi⟩ := hz
  have hpow : (2 : ℤ) ^ 31 ≤ 2 ^ (xlen - 1) := pow_le_pow_right₀ (by norm_num) (by omega)
  exact BitVec.toInt_ofInt_eq_self (by omega) (by omega) (by omega)

theorem toNat_ofInt (hx : 32 ≤ xlen) {n : Nat} (hn : n < 2 ^ 32) :
    (BitVec.ofInt xlen n).toNat = n := by
  have hpow : 2 ^ 32 ≤ 2 ^ xlen := Nat.pow_le_pow_right (by decide) hx
  rw [BitVec.ofInt_natCast, BitVec.toNat_ofNat, Nat.mod_eq_of_lt (by omega)]

theorem apply_add (a b : ℤ) :
    ArithOp.add.apply (BitVec.ofInt xlen a) (BitVec.ofInt xlen b) = BitVec.ofInt xlen (a + b) :=
  (BitVec.ofInt_add a b).symm

theorem apply_sub (a b : ℤ) :
    ArithOp.sub.apply (BitVec.ofInt xlen a) (BitVec.ofInt xlen b) = BitVec.ofInt xlen (a - b) := by
  show BitVec.ofInt xlen a - BitVec.ofInt xlen b = _
  rw [BitVec.sub_eq_add_neg, ← BitVec.ofInt_neg, ← BitVec.ofInt_add, sub_eq_add_neg]

theorem setWidth_ofInt (hx : 32 ≤ xlen) (z : ℤ) :
    (BitVec.ofInt xlen z).setWidth 32 = BitVec.ofInt 32 z := by
  have hdvd : ((2 ^ 32 : Nat) : ℤ) ∣ (2 ^ xlen : Nat) := by
    exact_mod_cast pow_dvd_pow 2 hx
  have hpos : ((2 ^ xlen : Nat) : ℤ) ≠ 0 := by positivity
  apply BitVec.eq_of_toNat_eq
  apply Int.ofNat_inj.mp
  rw [BitVec.toNat_setWidth, BitVec.toNat_ofInt, BitVec.toNat_ofInt, Int.natCast_mod,
    Int.toNat_of_nonneg (Int.emod_nonneg _ hpos), Int.emod_emod_of_dvd _ hdvd,
    Int.toNat_of_nonneg (Int.emod_nonneg _ (by decide))]

/-- A shift by two places multiplies by four. -/
theorem apply_sll_two (hx : 32 ≤ xlen) (z : ℤ) :
    ArithOp.sll.apply (BitVec.ofInt xlen z) (BitVec.ofInt xlen 2) = BitVec.ofInt xlen (4 * z) := by
  have hamount : (BitVec.ofInt xlen 2).toNat % xlen = 2 := by
    rw [show (2 : ℤ) = ((2 : Nat) : ℤ) from rfl, toNat_ofInt hx (by decide)]
    exact Nat.mod_eq_of_lt (by omega)
  have hfour : BitVec.ofInt xlen 4 = BitVec.twoPow xlen 2 := by
    have hpow : 2 ^ 32 ≤ 2 ^ xlen := Nat.pow_le_pow_right (by decide) hx
    apply BitVec.eq_of_toNat_eq
    rw [show (4 : ℤ) = ((4 : Nat) : ℤ) from rfl, toNat_ofInt hx (by decide), BitVec.toNat_twoPow,
      Nat.mod_eq_of_lt (by omega)]
  show BitVec.ofInt xlen z <<< _ = _
  rw [hamount, BitVec.ofInt_mul, hfour, BitVec.shiftLeft_eq_mul_twoPow, BitVec.mul_comm]

/-- Loaded words compare as they are. -/
theorem holds_bge_signExtend (hx : 32 ≤ xlen) (v w : BitVec 32) :
    BranchOp.bge.holds (v.signExtend xlen) (w.signExtend xlen) = decide (w.toInt ≤ v.toInt) := by
  show decide (_ ≤ _) = _
  rw [BitVec.toInt_signExtend_of_le hx, BitVec.toInt_signExtend_of_le hx]

theorem holds_blt_signExtend (hx : 32 ≤ xlen) (v w : BitVec 32) :
    BranchOp.blt.holds (v.signExtend xlen) (w.signExtend xlen) = decide (v.toInt < w.toInt) := by
  show decide (_ < _) = _
  rw [BitVec.toInt_signExtend_of_le hx, BitVec.toInt_signExtend_of_le hx]

theorem setWidth_signExtend_word (hx : 32 ≤ xlen) (v : BitVec 32) :
    (v.signExtend xlen).setWidth 32 = v := by
  ext i hi
  rw [BitVec.getElem_setWidth, BitVec.getLsbD_signExtend, if_pos hi, decide_eq_true (by omega),
    Bool.true_and, BitVec.getLsbD_eq_getElem hi]

theorem holds_bge (hx : 32 ≤ xlen) {a b : ℤ} (ha : Small a) (hb : Small b) :
    BranchOp.bge.holds (BitVec.ofInt xlen a) (BitVec.ofInt xlen b) = decide (b ≤ a) := by
  show decide (_ ≤ _) = _
  rw [toInt_ofInt hx ha, toInt_ofInt hx hb]

/-! ## The hart at an instruction -/

namespace Hart

variable (h : Hart xlen)

theorem get_set_of_ne {rd r : BitVec 5} (v : BitVec xlen) (hne : r ≠ rd) :
    (h.set rd v).get r = h.get r := by
  rw [get_set, if_neg hne]
  split
  case isTrue hr => rw [get, if_pos hr]
  case isFalse => rfl

/-- A number loaded into a register. -/
theorem apply_add_get_zero (z : ℤ) :
    ArithOp.add.apply (h.get 0) (BitVec.ofInt xlen z) = BitVec.ofInt xlen z := by
  show (if (0 : BitVec 5) = 0 then (0 : BitVec xlen) else h.regs 0) + _ = _
  rw [if_pos rfl]
  exact BitVec.zero_add _

/-- The hart about to execute instruction `k`. -/
def goto (k : Nat) : Hart xlen := { h with pc := BitVec.ofInt xlen (4 * k) }

/-- The word of the data memory at address `a`. -/
def word (a : Nat) : BitVec 32 := h.load 4 (BitVec.ofInt xlen a)

theorem word_eq (a : Nat) :
    h.word a = leWord (fun k ↦ h.mem (BitVec.ofInt xlen a + BitVec.ofNat xlen k)) 4 := rfl

/-- A word written at address `a`. -/
def setWord (a : Nat) (v : BitVec xlen) : Hart xlen := h.store 4 (BitVec.ofInt xlen a) v

@[simp] theorem goto_get (k : Nat) (r : BitVec 5) : (h.goto k).get r = h.get r := rfl
@[simp] theorem goto_mem (k : Nat) : (h.goto k).mem = h.mem := rfl
@[simp] theorem goto_word (k a : Nat) : (h.goto k).word a = h.word a := rfl
@[simp] theorem setWord_get (a : Nat) (v : BitVec xlen) (r : BitVec 5) :
    (h.setWord a v).get r = h.get r := rfl

@[simp] theorem set_word (rd : BitVec 5) (v : BitVec xlen) (a : Nat) :
    (h.set rd v).word a = h.word a := by
  rw [word, word, load, load, set_mem]

theorem set_zero (v : BitVec xlen) : h.set 0 v = h := if_pos rfl

theorem goto_set (k m : Nat) (rd : BitVec 5) (v : BitVec xlen) :
    { (h.goto k).set rd v with pc := BitVec.ofInt xlen (4 * m) } = (h.set rd v).goto m := by
  rw [set, set]
  split <;> rfl

variable {h}

/-- What a word written leaves of the memory. -/
theorem setWord_mem (hx : 32 ≤ xlen) {a : Nat} (ha : a + 4 ≤ 2 ^ 32) (v b : BitVec xlen) :
    (h.setWord a v).mem b =
      if a ≤ b.toNat ∧ b.toNat < a + 4 then byteAt v (b.toNat - a) else h.mem b := by
  have hpow : 2 ^ 32 ≤ 2 ^ xlen := Nat.pow_le_pow_right (by decide) hx
  have hnat : (BitVec.ofInt xlen a).toNat = a := toNat_ofInt hx (by omega)
  show (if (b - BitVec.ofInt xlen a).toNat < 4 then
    byteAt v (b - BitVec.ofInt xlen a).toNat else h.mem b) = _
  have hlt := b.isLt
  rw [BitVec.toNat_sub, hnat]
  by_cases hwin : a ≤ b.toNat ∧ b.toNat < a + 4
  · have hoff : (2 ^ xlen - a + b.toNat) % 2 ^ xlen = b.toNat - a := by
      rw [show 2 ^ xlen - a + b.toNat = (b.toNat - a) + 2 ^ xlen by omega, Nat.add_mod_right,
        Nat.mod_eq_of_lt (by omega)]
    rw [hoff, if_pos (by omega), if_pos hwin]
  · have hoff : ¬(2 ^ xlen - a + b.toNat) % 2 ^ xlen < 4 := by
      rcases Nat.lt_or_ge b.toNat a with hb | hb
      · rw [Nat.mod_eq_of_lt (by omega)]
        omega
      · rw [show 2 ^ xlen - a + b.toNat = (b.toNat - a) + 2 ^ xlen by omega, Nat.add_mod_right,
          Nat.mod_eq_of_lt (by omega)]
        omega
    rw [if_neg hoff, if_neg hwin]

theorem toNat_word_byte (hx : 32 ≤ xlen) {a k : Nat} (ha : a + 4 ≤ 2 ^ 32) (hk : k < 4) :
    (BitVec.ofInt xlen a + BitVec.ofNat xlen k).toNat = a + k := by
  rw [← BitVec.ofInt_natCast xlen k, ← BitVec.ofInt_add, ← Nat.cast_add,
    toNat_ofInt hx (by omega)]

/-- What a word written is read as. -/
theorem setWord_word (hx : 32 ≤ xlen) {a : Nat} (ha : a + 4 ≤ 2 ^ 32) (v : BitVec xlen) :
    (h.setWord a v).word a = v.setWidth 32 := by
  have hbytes : (h.setWord a v).word a = leWord (byteAt v) 4 := by
    rw [word_eq]
    refine leWord_congr fun k hk ↦ ?_
    rw [setWord_mem hx ha, toNat_word_byte hx ha hk, if_pos (by omega), Nat.add_sub_cancel_left]
  rw [hbytes]
  ext i hi
  rw [getElem_leWord, byteAt, BitVec.getLsbD_extractLsb', BitVec.getElem_setWidth,
    show 8 * (i / 8) + i % 8 = i by omega, decide_eq_true (by omega), Bool.true_and]

theorem setWord_word_of_disjoint (hx : 32 ≤ xlen) {a b : Nat} (ha : a + 4 ≤ 2 ^ 32)
    (hb : b + 4 ≤ 2 ^ 32) (hdis : a + 4 ≤ b ∨ b + 4 ≤ a) (v : BitVec xlen) :
    (h.setWord a v).word b = h.word b := by
  rw [word_eq, word_eq]
  refine leWord_congr fun k hk ↦ ?_
  rw [setWord_mem hx ha, toNat_word_byte hx hb hk, if_neg (by omega)]

/-- The `n` words from address `base` on. -/
def Words (base n : Nat) (a : Nat → BitVec 32) (h : Hart xlen) : Prop :=
  ∀ i < n, h.word (base + 4 * i) = a i

/-- A word written among them. -/
theorem Words.setWord (hx : 32 ≤ xlen) {base n k : Nat} {a : Nat → BitVec 32}
    (hw : h.Words base n a) (hbase : base + 4 * n ≤ 2 ^ 32) (hk : k < n) (v : BitVec xlen) :
    (h.setWord (base + 4 * k) v).Words base n (Function.update a k (v.setWidth 32)) := by
  intro i hi
  rw [Function.update_apply]
  split
  case isTrue hik =>
    rw [hik, setWord_word hx (by omega)]
  case isFalse hik =>
    rw [setWord_word_of_disjoint hx (by omega) (by omega) (by omega), hw i hi]

/-- The memory outside a range of addresses is that of `g`. -/
def SameOutside (lo hi : Nat) (g h : Hart xlen) : Prop :=
  ∀ b : BitVec xlen, b.toNat < lo ∨ hi ≤ b.toNat → h.mem b = g.mem b

theorem SameOutside.setWord (hx : 32 ≤ xlen) {lo hi a : Nat} {g : Hart xlen}
    (hs : SameOutside lo hi g h) (hlo : lo ≤ a) (hhi : a + 4 ≤ hi) (hmax : hi ≤ 2 ^ 32)
    (v : BitVec xlen) : SameOutside lo hi g (h.setWord a v) := by
  intro b hb
  rw [setWord_mem hx (by omega), if_neg (by omega), hs b hb]

end Hart

/-! ## Rules -/

/-- The instructions of `prog` stand in the code memory from address 0 on. -/
def Code.Holds (code : Code xlen) (prog : List Instr) : Prop :=
  ∀ (k : Nat) (i : Instr), prog[k]? = some i → Encodes xlen (code (BitVec.ofInt xlen (4 * k))) i

/-- The words that `prog` is assembled to. -/
def Assembles (xlen : Nat) (prog : List Instr) (words : List (BitVec 32)) : Prop :=
  ∀ k < prog.length, decode xlen (words.getD k 0) = prog[k]?

instance (prog : List Instr) (words : List (BitVec 32)) : Decidable (Assembles xlen prog words) :=
  inferInstanceAs (Decidable (∀ k < _, _))

namespace Reaches

variable {code : Code xlen} {depth : Nat} {Q : Hart xlen → Prop} {h : Hart xlen}
  {prog : List Instr} {k : Nat}

theorem ofInt_succ (k : Nat) :
    BitVec.ofInt xlen (4 * k) + 4 = BitVec.ofInt xlen (4 * (k + 1 : Nat)) := by
  rw [Nat.cast_add, mul_add, BitVec.ofInt_add]
  rfl

/-- An instruction that does not jump. -/
theorem plain (hcode : code.Holds prog) {i : Instr} (hk : prog[k]? = some i)
    (haccess : ∀ x ∈ i.access (h.goto k), x.1.toNat + x.2 ≤ depth)
    (htarget : i.target (h.goto k) = none)
    (hnext : Reaches code depth Q
      { i.effect (h.goto k) with pc := BitVec.ofInt xlen (4 * (k + 1 : Nat)) }) :
    Reaches code depth Q (h.goto k) := by
  refine step (hcode k i hk) ⟨haccess, ?_⟩ ?_
  · rw [htarget]
    rintro _ ⟨⟩
  · rwa [Instr.next, htarget, Option.getD_none, Hart.goto, ofInt_succ]

theorem opImm (hcode : code.Holds prog) {op : ArithOp} {rd rs1 : BitVec 5} {imm : BitVec 12}
    (hk : prog[k]? = some (.opImm op rd rs1 imm)) {v : BitVec xlen}
    (hv : op.apply (h.get rs1) (BitVec.ofInt xlen imm.toInt) = v)
    (hnext : Reaches code depth Q ((h.set rd v).goto (k + 1))) :
    Reaches code depth Q (h.goto k) := by
  refine plain hcode hk (by rintro _ ⟨⟩) rfl ?_
  subst hv
  rw [Instr.effect, Hart.goto_set]
  exact hnext

theorem opReg (hcode : code.Holds prog) {op : ArithOp} {rd rs1 rs2 : BitVec 5}
    (hk : prog[k]? = some (.opReg op rd rs1 rs2)) {v : BitVec xlen}
    (hv : op.apply (h.get rs1) (h.get rs2) = v)
    (hnext : Reaches code depth Q ((h.set rd v).goto (k + 1))) :
    Reaches code depth Q (h.goto k) := by
  refine plain hcode hk (by rintro _ ⟨⟩) rfl ?_
  rw [Instr.effect, Hart.goto_set, Hart.goto_get, Hart.goto_get, hv]
  exact hnext

theorem lui (hcode : code.Holds prog) {rd : BitVec 5} {imm : BitVec 20}
    (hk : prog[k]? = some (.lui rd imm)) {v : BitVec xlen}
    (hv : (imm ++ 0#12).signExtend xlen = v)
    (hnext : Reaches code depth Q ((h.set rd v).goto (k + 1))) :
    Reaches code depth Q (h.goto k) := by
  refine plain hcode hk (by rintro _ ⟨⟩) rfl ?_
  rw [Instr.effect, Hart.goto_set, hv]
  exact hnext

section Memory

variable (hcode : code.Holds prog) (hx : 32 ≤ xlen) (hdepth : depth ≤ 2 ^ 31)

include hcode hx hdepth

/-- A word is loaded from address `a` inside the memory. -/
theorem lw {rd rs1 : BitVec 5} {offset : BitVec 12}
    (hk : prog[k]? = some (.load .lw rd rs1 offset)) (a : Nat)
    (haddr : h.get rs1 + BitVec.ofInt xlen offset.toInt = BitVec.ofInt xlen a)
    (ha : a + 4 ≤ depth) {v : BitVec 32} (hv : h.word a = v)
    (hnext : Reaches code depth Q ((h.set rd (v.signExtend xlen)).goto (k + 1))) :
    Reaches code depth Q (h.goto k) := by
  have haddr' : (h.goto k).get rs1 + offset.signExtend xlen = BitVec.ofInt xlen a := haddr
  refine plain hcode hk ?_ rfl ?_
  · rintro _ ⟨⟩
    show ((h.goto k).get rs1 + offset.signExtend xlen).toNat + 4 ≤ depth
    rw [haddr', toNat_ofInt hx (by omega)]
    exact ha
  · rw [Instr.effect, haddr', Hart.goto_set]
    subst hv
    exact hnext

/-- A word is stored at address `a` inside the memory. -/
theorem sw {rs1 rs2 : BitVec 5} {offset : BitVec 12}
    (hk : prog[k]? = some (.store .sw rs1 rs2 offset)) (a : Nat)
    (haddr : h.get rs1 + BitVec.ofInt xlen offset.toInt = BitVec.ofInt xlen a)
    (ha : a + 4 ≤ depth) {v : BitVec xlen} (hv : h.get rs2 = v)
    (hnext : Reaches code depth Q ((h.setWord a v).goto (k + 1))) :
    Reaches code depth Q (h.goto k) := by
  have haddr' : (h.goto k).get rs1 + offset.signExtend xlen = BitVec.ofInt xlen a := haddr
  refine plain hcode hk ?_ rfl ?_
  · rintro _ ⟨⟩
    show ((h.goto k).get rs1 + offset.signExtend xlen).toNat + 4 ≤ depth
    rw [haddr', toNat_ofInt hx (by omega)]
    exact ha
  · rw [Instr.effect, haddr']
    subst hv
    exact hnext

end Memory

/-- The address of an instruction is a multiple of four. -/
theorem toNat_index_mod (hx : 2 ≤ xlen) (m : Nat) :
    (BitVec.ofInt xlen (4 * m)).toNat % 4 = 0 := by
  have hdvd : 4 ∣ 2 ^ xlen := pow_dvd_pow 2 hx
  rw [show (4 * m : ℤ) = ((4 * m : Nat) : ℤ) by push_cast; rfl, BitVec.ofInt_natCast,
    BitVec.toNat_ofNat, Nat.mod_mod_of_dvd _ hdvd, Nat.mul_mod_right]

theorem target_eq {w m : Nat} {offset : BitVec w} (hm : 4 * (k : ℤ) + offset.toInt = 4 * m) :
    (h.goto k).pc + offset.signExtend xlen = BitVec.ofInt xlen (4 * m) := by
  show BitVec.ofInt xlen (4 * k) + BitVec.ofInt xlen offset.toInt = _
  rw [← BitVec.ofInt_add, hm]

/-- A jump to instruction `m` that does not link. -/
theorem jump (hcode : code.Holds prog) (hx : 32 ≤ xlen) {offset : BitVec 21}
    (hk : prog[k]? = some (.jal 0 offset)) (m : Nat) (hm : 4 * (k : ℤ) + offset.toInt = 4 * m)
    (hnext : Reaches code depth Q (h.goto m)) : Reaches code depth Q (h.goto k) := by
  refine step (hcode k _ hk) ⟨by rintro _ ⟨⟩, ?_⟩ ?_
  · rintro _ ⟨⟩
    rw [target_eq hm]
    exact toNat_index_mod (by omega) m
  · rw [Instr.next, Instr.target, Option.getD_some, target_eq hm, Instr.effect, Hart.goto_set,
      Hart.set_zero]
    exact hnext

section Branch

variable (hcode : code.Holds prog) {op : BranchOp} {rs1 rs2 : BitVec 5} {offset : BitVec 13}
  (hk : prog[k]? = some (.branch op rs1 rs2 offset))

include hcode hk

/-- A branch taken to instruction `m`. -/
theorem taken (hx : 32 ≤ xlen) (m : Nat) (hm : 4 * (k : ℤ) + offset.toInt = 4 * m)
    (hholds : op.holds (h.get rs1) (h.get rs2) = true)
    (hnext : Reaches code depth Q (h.goto m)) : Reaches code depth Q (h.goto k) := by
  have htarget : (Instr.branch op rs1 rs2 offset).target (h.goto k) =
      some (BitVec.ofInt xlen (4 * m)) := by
    rw [Instr.target, Hart.goto_get, Hart.goto_get, if_pos hholds, target_eq hm]
  refine step (hcode k _ hk) ⟨by rintro _ ⟨⟩, ?_⟩ ?_
  · rw [htarget]
    rintro _ ⟨⟩
    exact toNat_index_mod (by omega) m
  · rw [Instr.next, htarget]
    exact hnext

theorem notTaken (hholds : op.holds (h.get rs1) (h.get rs2) = false)
    (hnext : Reaches code depth Q (h.goto (k + 1))) : Reaches code depth Q (h.goto k) := by
  refine plain hcode hk (by rintro _ ⟨⟩) ?_ hnext
  rw [Instr.target, Hart.goto_get, Hart.goto_get, hholds]
  rfl

end Branch

/-- A register cleared by LUI and ADDI. -/
theorem cleared (hcode : code.Holds prog) {rd : BitVec 5} (hrd : rd ≠ 0)
    (hlui : prog[k]? = some (.lui rd 0)) (haddi : prog[k + 1]? = some (.opImm .add rd rd 0))
    (hnext : ∀ g : Hart xlen, g.get rd = BitVec.ofInt xlen (0 : Nat) →
      (∀ r, r ≠ rd → g.get r = h.get r) → g.mem = h.mem → Reaches code depth Q (g.goto (k + 2))) :
    Reaches code depth Q (h.goto k) := by
  refine lui hcode hlui (v := BitVec.ofInt xlen (0 : Nat)) rfl ?_
  refine opImm hcode haddi (v := BitVec.ofInt xlen (0 : Nat)) ?_ (hnext _ ?_ ?_ ?_)
  · rw [Hart.get_set, if_neg hrd, if_pos rfl]
    exact apply_add 0 0
  · rw [Hart.get_set, if_neg hrd, if_pos rfl]
  · intro r hr
    rw [Hart.get_set_of_ne _ _ hr, Hart.get_set_of_ne _ _ hr]
  · rw [Hart.set_mem, Hart.set_mem]

/-- A word put into the memory through the register `tmp`. -/
theorem element (hcode : code.Holds prog) (hx : 32 ≤ xlen) (hdepth : depth ≤ 2 ^ 31)
    {ptr tmp : BitVec 5} {imm offset : BitVec 12} {base a : Nat}
    (hli : prog[k]? = some (.opImm .add tmp 0 imm))
    (hsw : prog[k + 1]? = some (.store .sw ptr tmp offset)) (htmp : tmp ≠ 0) (hne : ptr ≠ tmp)
    (hptr : h.get ptr = BitVec.ofInt xlen base) (hoffset : (base : ℤ) + offset.toInt = a)
    (ha : a + 4 ≤ depth)
    (hnext : Reaches code depth Q
      (((h.set tmp (imm.signExtend xlen)).setWord a (imm.signExtend xlen)).goto (k + 2))) :
    Reaches code depth Q (h.goto k) := by
  refine opImm hcode hli (h.apply_add_get_zero imm.toInt) ?_
  refine sw hcode hx hdepth hsw a ?_ ha ?_ hnext
  · rw [Hart.get_set_of_ne _ _ hne, hptr, ← BitVec.ofInt_add, hoffset]
  · rw [Hart.get_set, if_neg htmp, if_pos rfl]
    rfl

/-- An array put into the memory word by word. -/
theorem array (hcode : code.Holds prog) (hx : 32 ≤ xlen) (hdepth : depth ≤ 2 ^ 31)
    (ptr tmp : BitVec 5) {base n : Nat} (vs : Nat → BitVec 12) (htmp : tmp ≠ 0) (hne : ptr ≠ tmp)
    (hprog : ∀ j < n, prog[k + 2 * j]? = some (.opImm .add tmp 0 (vs j)) ∧
      prog[k + 2 * j + 1]? = some (.store .sw ptr tmp (BitVec.ofNat 12 (4 * j))))
    (hn : n ≤ 512) (hptr : h.get ptr = BitVec.ofInt xlen base) (hin : base + 4 * n ≤ depth) :
    Reaches code depth (fun h' ↦ ∃ g, h' = Hart.goto g (k + 2 * n) ∧
      g.get ptr = BitVec.ofInt xlen base ∧ g.Words base n (fun j ↦ (vs j).signExtend 32) ∧
      h.SameOutside base (base + 4 * n) g) (h.goto k) := by
  refine loop (fun j h' ↦ ∃ g, h' = Hart.goto g (k + 2 * j) ∧ g.get ptr = BitVec.ofInt xlen base ∧
    g.Words base j (fun j ↦ (vs j).signExtend 32) ∧ h.SameOutside base (base + 4 * n) g)
    (Nat.zero_le n) ⟨h, rfl, hptr, ?_, fun _ _ ↦ rfl⟩ ?_
  · intro i hi
    exact absurd hi (Nat.not_lt_zero i)
  rintro j _ - hj ⟨g, rfl, hg, hwords, hrest⟩
  obtain ⟨hli, hsw⟩ := hprog j hj
  have hoffset : (BitVec.ofNat 12 (4 * j)).toInt = (4 * j : Nat) := by
    rw [BitVec.toInt_eq_toNat_of_lt (by rw [BitVec.toNat_ofNat]; omega), BitVec.toNat_ofNat,
      Nat.mod_eq_of_lt (by omega)]
  refine element hcode hx hdepth hli hsw htmp hne hg (a := base + 4 * j) (by rw [hoffset]; rfl)
    (by omega) (.done ⟨_, rfl, ?_, ?_, ?_⟩)
  · rw [Hart.setWord_get, Hart.get_set_of_ne _ _ hne, hg]
  · intro i hi
    rcases Nat.lt_or_eq_of_le (Nat.le_of_lt_succ hi) with hlt | rfl
    · rw [Hart.setWord_word_of_disjoint hx (by omega) (by omega) (by omega), Hart.set_word,
        hwords i hlt]
    · rw [Hart.setWord_word hx (by omega)]
      exact setWidth_ofInt hx _
  · intro b hb
    rw [Hart.setWord_mem hx (by omega), if_neg (by omega), Hart.set_mem, hrest b hb]

end Reaches

end RtlCores.Lib.Isa
