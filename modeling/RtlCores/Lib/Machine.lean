import RtlCores.Lib.Isa

/-!
# Machine code

A decoder for the table of encodings, a hart that executes the words of a code memory, and rules for
what a program comes to.  A step is taken only if the word is an instruction, its access is to
the first `depth` bytes of the memory and its target is a multiple of 4, so that what is shown
of a program includes that none of its instructions traps.
-/

namespace RtlCores.Lib.Isa

/-! ## Decoding -/

def ArithOp.all : List ArithOp := [.add, .sub, .sll, .slt, .sltu, .xor, .srl, .sra, .or, .and]
def BranchOp.all : List BranchOp := [.beq, .bne, .blt, .bge, .bltu, .bgeu]
def LoadOp.all : List LoadOp := [.lb, .lh, .lw, .ld, .lbu, .lhu, .lwu]
def StoreOp.all : List StoreOp := [.sb, .sh, .sw, .sd]

/-- What `Encodes` asks of a word for each operation. -/
def ArithOp.IsImm (xlen : Nat) (w : BitVec 32) (op : ArithOp) : Prop :=
  Isa.funct3 w = op.funct3 ∧ op ≠ .sub ∧ (op.isShift → shiftHigh w xlen = op.funct7)

def ArithOp.IsReg (w : BitVec 32) (op : ArithOp) : Prop :=
  Isa.funct3 w = op.funct3 ∧ Isa.funct7 w = op.funct7

def LoadOp.IsLoad (xlen : Nat) (w : BitVec 32) (op : LoadOp) : Prop :=
  Isa.funct3 w = op.funct3 ∧ (op.needs64 → xlen = 64)

def StoreOp.IsStore (xlen : Nat) (w : BitVec 32) (op : StoreOp) : Prop :=
  Isa.funct3 w = op.funct3 ∧ (op.needs64 → xlen = 64)

section Decidable

variable (xlen : Nat) (w : BitVec 32)

instance : DecidablePred (ArithOp.IsImm xlen w) :=
  fun _ ↦ inferInstanceAs (Decidable (_ ∧ _ ∧ (_ → _)))

instance : DecidablePred (ArithOp.IsReg w) := fun _ ↦ inferInstanceAs (Decidable (_ ∧ _))

instance : DecidablePred (LoadOp.IsLoad xlen w) :=
  fun _ ↦ inferInstanceAs (Decidable (_ ∧ (_ → _)))

instance : DecidablePred (StoreOp.IsStore xlen w) :=
  fun _ ↦ inferInstanceAs (Decidable (_ ∧ (_ → _)))

end Decidable

/-- The instruction that a word encodes. -/
def decode (xlen : Nat) (w : BitVec 32) : Option Instr :=
  if opcode w = 0b0110111 then some (.lui (rd w) (immU w))
  else if opcode w = 0b0010111 then some (.auipc (rd w) (immU w))
  else if opcode w = 0b1101111 then some (.jal (rd w) (immJ w))
  else if opcode w = 0b1100011 then
    (BranchOp.all.find? (funct3 w = ·.funct3)).map (.branch · (rs1 w) (rs2 w) (immB w))
  else if opcode w = 0b0000011 then
    (LoadOp.all.find? (·.IsLoad xlen w)).map (.load · (rd w) (rs1 w) (immI w))
  else if opcode w = 0b0100011 then
    (StoreOp.all.find? (·.IsStore xlen w)).map (.store · (rs1 w) (rs2 w) (immS w))
  else if opcode w = 0b0010011 then
    (ArithOp.all.find? (·.IsImm xlen w)).map (.opImm · (rd w) (rs1 w) (immI w))
  else if opcode w = 0b0110011 then
    (ArithOp.all.find? (·.IsReg w)).map (.opReg · (rd w) (rs1 w) (rs2 w))
  else none

theorem of_find?_eq_some {α : Type*} {p : α → Prop} [DecidablePred p] {l : List α} {a : α}
    (h : l.find? (fun b ↦ p b) = some a) : p a := by
  have hp := List.find?_some h
  exact of_decide_eq_true hp

/-- Searching a complete list for the only element with a property finds it. -/
theorem find?_eq_some_of_unique {α : Type*} {p : α → Prop} [DecidablePred p]
    {l : List α} {a : α} (hmem : a ∈ l) (ha : p a) (huniq : ∀ b, p b → b = a) :
    l.find? (fun b ↦ p b) = some a := by
  cases h : l.find? (fun b ↦ p b) with
  | none => exact absurd (decide_eq_true ha) (List.find?_eq_none.mp h a hmem)
  | some b => rw [huniq b (of_find?_eq_some h)]

theorem BranchOp.funct3_inj {a b : BranchOp} (h : a.funct3 = b.funct3) : a = b := by
  revert h
  cases a <;> cases b <;> decide

theorem LoadOp.funct3_inj {a b : LoadOp} (h : a.funct3 = b.funct3) : a = b := by
  revert h
  cases a <;> cases b <;> decide

theorem StoreOp.funct3_inj {a b : StoreOp} (h : a.funct3 = b.funct3) : a = b := by
  revert h
  cases a <;> cases b <;> decide

theorem ArithOp.IsReg.unique {w : BitVec 32} {a b : ArithOp} (ha : a.IsReg w) (hb : b.IsReg w) :
    b = a := by
  have h3 : b.funct3 = a.funct3 := hb.1.symm.trans ha.1
  have h7 : b.funct7 = a.funct7 := hb.2.symm.trans ha.2
  revert h3 h7
  cases a <;> cases b <;> decide

theorem ArithOp.IsImm.unique {xlen : Nat} {w : BitVec 32} {a b : ArithOp} (ha : a.IsImm xlen w)
    (hb : b.IsImm xlen w) : b = a := by
  obtain ⟨ha3, hasub, has⟩ := ha
  obtain ⟨hb3, hbsub, hbs⟩ := hb
  have h3 : b.funct3 = a.funct3 := hb3.symm.trans ha3
  have h7 : b.isShift → a.isShift → b.funct7 = a.funct7 :=
    fun hb ha ↦ (hbs hb).symm.trans (has ha)
  clear ha3 hb3 has hbs
  revert hasub hbsub h3 h7
  cases a <;> cases b <;> decide

/-- The decoder is exact. -/
theorem decode_eq_some_iff {xlen : Nat} {w : BitVec 32} {i : Instr} :
    decode xlen w = some i ↔ Encodes xlen w i := by
  constructor
  · intro h
    simp only [decode] at h
    split at h
    · obtain rfl := Option.some.inj h
      exact .lui ‹_›
    split at h
    · obtain rfl := Option.some.inj h
      exact .auipc ‹_›
    split at h
    · obtain rfl := Option.some.inj h
      exact .jal ‹_›
    split at h
    · obtain ⟨op, hop, rfl⟩ := Option.map_eq_some_iff.mp h
      exact .branch op ‹_› (of_find?_eq_some (p := fun b : BranchOp ↦ funct3 w = b.funct3) hop)
    split at h
    · obtain ⟨op, hop, rfl⟩ := Option.map_eq_some_iff.mp h
      obtain ⟨hf3, h64⟩ : op.IsLoad xlen w := of_find?_eq_some hop
      exact .load op ‹_› hf3 h64
    split at h
    · obtain ⟨op, hop, rfl⟩ := Option.map_eq_some_iff.mp h
      obtain ⟨hf3, h64⟩ : op.IsStore xlen w := of_find?_eq_some hop
      exact .store op ‹_› hf3 h64
    split at h
    · obtain ⟨op, hop, rfl⟩ := Option.map_eq_some_iff.mp h
      obtain ⟨hf3, hsub, hshift⟩ : op.IsImm xlen w := of_find?_eq_some hop
      exact .opImm op ‹_› hf3 hsub hshift
    split at h
    · obtain ⟨op, hop, rfl⟩ := Option.map_eq_some_iff.mp h
      obtain ⟨hf3, hf7⟩ : op.IsReg w := of_find?_eq_some hop
      exact .opReg op ‹_› hf3 hf7
    · contradiction
  · intro h
    cases h with
    | lui hop => simp [decode, hop]
    | auipc hop => simp [decode, hop]
    | jal hop => simp [decode, hop]
    | branch op hop hf3 =>
      have hfind : BranchOp.all.find? (funct3 w = ·.funct3) = some op :=
        find?_eq_some_of_unique (by cases op <;> decide) hf3
          fun b hb ↦ BranchOp.funct3_inj (hb.symm.trans hf3)
      simp [decode, hop, hfind]
    | load op hop hf3 h64 =>
      have hfind : LoadOp.all.find? (·.IsLoad xlen w) = some op :=
        find?_eq_some_of_unique (by cases op <;> decide) ⟨hf3, h64⟩
          fun b hb ↦ LoadOp.funct3_inj (hb.1.symm.trans hf3)
      simp [decode, hop, hfind]
    | store op hop hf3 h64 =>
      have hfind : StoreOp.all.find? (·.IsStore xlen w) = some op :=
        find?_eq_some_of_unique (by cases op <;> decide) ⟨hf3, h64⟩
          fun b hb ↦ StoreOp.funct3_inj (hb.1.symm.trans hf3)
      simp [decode, hop, hfind]
    | opImm op hop hf3 hsub hshift =>
      have himm : op.IsImm xlen w := ⟨hf3, hsub, hshift⟩
      have hfind : ArithOp.all.find? (·.IsImm xlen w) = some op :=
        find?_eq_some_of_unique (by cases op <;> decide) himm fun b hb ↦ himm.unique hb
      simp [decode, hop, hfind]
    | opReg op hop hf3 hf7 =>
      have hreg : op.IsReg w := ⟨hf3, hf7⟩
      have hfind : ArithOp.all.find? (·.IsReg w) = some op :=
        find?_eq_some_of_unique (by cases op <;> decide) hreg fun b hb ↦ hreg.unique hb
      simp [decode, hop, hfind]

/-! ## Execution -/

/-- The instruction memory: the word at each address. -/
abbrev Code (xlen : Nat) := BitVec xlen → BitVec 32

variable {xlen : Nat}

/-- The access, if any, is to the first `depth` bytes and the target, if any, is aligned. -/
def Instr.Permitted (depth : Nat) (h : Hart xlen) (i : Instr) : Prop :=
  (∀ x ∈ i.access h, x.1.toNat + x.2 ≤ depth) ∧ ∀ t ∈ i.target h, t.toNat % 4 = 0

instance (depth : Nat) (h : Hart xlen) (i : Instr) : Decidable (i.Permitted depth h) :=
  decidable_of_iff ((i.access h).all (fun x ↦ x.1.toNat + x.2 ≤ depth) = true ∧
    (i.target h).all (fun t ↦ t.toNat % 4 = 0) = true) (by
    simp [Instr.Permitted, Option.all_eq_true])

namespace Hart

variable (code : Code xlen) (depth : Nat)

/-- The execution of the word at the `pc`. -/
def step? (h : Hart xlen) : Option (Hart xlen) :=
  (decode xlen (code h.pc)).bind fun i ↦ if i.Permitted depth h then some (i.next h) else none

/-- The execution of `n` words. -/
def run? : Nat → Hart xlen → Option (Hart xlen)
  | 0, h => some h
  | n + 1, h => (step? code depth h).bind (run? n)

variable {code depth} {h h' : Hart xlen}

theorem step?_eq_some_iff :
    step? code depth h = some h' ↔
      ∃ i, Encodes xlen (code h.pc) i ∧ i.Permitted depth h ∧ i.next h = h' := by
  rw [step?, Option.bind_eq_some_iff]
  constructor
  · rintro ⟨i, hi, hstep⟩
    split at hstep
    case isTrue hok => exact ⟨i, decode_eq_some_iff.mp hi, hok, Option.some.inj hstep⟩
    case isFalse => contradiction
  · rintro ⟨i, hi, hok, rfl⟩
    exact ⟨i, decode_eq_some_iff.mpr hi, if_pos hok⟩

theorem run?_succ_eq_some_iff {n : Nat} :
    run? code depth (n + 1) h = some h' ↔
      ∃ g, step? code depth h = some g ∧ run? code depth n g = some h' :=
  Option.bind_eq_some_iff

theorem run?_add (m n : Nat) (h : Hart xlen) :
    run? code depth (m + n) h = (run? code depth m h).bind (run? code depth n) := by
  induction m generalizing h with
  | zero => rw [Nat.zero_add]; rfl
  | succ m ih =>
    rw [Nat.succ_add, run?, run?, Option.bind_assoc]
    congr 1
    funext g
    exact ih g

end Hart

/-! ## Harts that agree on the accessible memory -/

/-- Two harts with the same `pc`, registers and first `depth` bytes of the memory. -/
structure Hart.Agree (depth : Nat) (g h : Hart xlen) : Prop where
  pc : g.pc = h.pc
  regs : g.regs = h.regs
  mem : ∀ a : BitVec xlen, a.toNat < depth → g.mem a = h.mem a

namespace Hart.Agree

variable {depth : Nat} {g h : Hart xlen}

theorem get (hgh : Agree depth g h) (r : BitVec 5) : g.get r = h.get r := by
  rw [Hart.get, Hart.get, hgh.regs]

theorem target (hgh : Agree depth g h) (i : Instr) : i.target g = i.target h := by
  cases i <;> simp only [Instr.target, hgh.pc, hgh.get]

theorem access (hgh : Agree depth g h) (i : Instr) : i.access g = i.access h := by
  cases i <;> simp only [Instr.access, hgh.get]

theorem permitted (hgh : Agree depth g h) {i : Instr} (hi : i.Permitted depth h) :
    i.Permitted depth g := by
  rw [Instr.Permitted, hgh.access, hgh.target]
  exact hi

theorem set (hgh : Agree depth g h) (rd : BitVec 5) (v : BitVec xlen) :
    Agree depth (g.set rd v) (h.set rd v) := by
  rw [Hart.set, Hart.set]
  split
  · exact hgh
  · exact ⟨hgh.pc, by rw [hgh.regs], hgh.mem⟩

theorem store (hgh : Agree depth g h) (n : Nat) (a v : BitVec xlen) :
    Agree depth (g.store n a v) (h.store n a v) := by
  refine ⟨hgh.pc, hgh.regs, fun b hb ↦ ?_⟩
  rw [Hart.store, Hart.store]
  dsimp only
  split
  · rfl
  · exact hgh.mem b hb

/-- A load inside the common part. -/
theorem load (hgh : Agree depth g h) {n : Nat} {a : BitVec xlen} (hin : a.toNat + n ≤ depth) :
    g.load n a = h.load n a := by
  refine leWord_congr fun k hk ↦ hgh.mem _ ?_
  have hk' : (BitVec.ofNat xlen k).toNat ≤ k := by
    rw [BitVec.toNat_ofNat]
    exact Nat.mod_le _ _
  have hsum : (a + BitVec.ofNat xlen k).toNat ≤ a.toNat + (BitVec.ofNat xlen k).toNat := by
    rw [BitVec.toNat_add]
    exact Nat.mod_le _ _
  omega

/-- An instruction does the same to both. -/
theorem next (hgh : Agree depth g h) {i : Instr} (hi : i.Permitted depth h) :
    Agree depth (i.next g) (i.next h) := by
  have heffect : Agree depth (i.effect g) (i.effect h) := by
    cases i with
    | lui rd imm => exact hgh.set _ _
    | auipc rd imm =>
      rw [Instr.effect, Instr.effect, hgh.pc]
      exact hgh.set _ _
    | jal rd offset =>
      rw [Instr.effect, Instr.effect, hgh.pc]
      exact hgh.set _ _
    | branch op rs1 rs2 offset => exact hgh
    | load op rd rs1 offset =>
      rw [Instr.effect, Instr.effect, hgh.get, hgh.load (hi.1 _ rfl)]
      exact hgh.set _ _
    | store op rs1 rs2 offset =>
      rw [Instr.effect, Instr.effect, hgh.get, hgh.get]
      exact hgh.store _ _ _
    | opImm op rd rs1 imm =>
      rw [Instr.effect, Instr.effect, hgh.get]
      exact hgh.set _ _
    | opReg op rd rs1 rs2 =>
      rw [Instr.effect, Instr.effect, hgh.get, hgh.get]
      exact hgh.set _ _
  exact ⟨by rw [Instr.next, Instr.next, hgh.target, hgh.pc], heffect.regs, heffect.mem⟩

end Hart.Agree

/-! ## What a program comes to -/

/-- From `h` the code gets to a hart with `Q`, without a trap on the way. -/
def Reaches (code : Code xlen) (depth : Nat) (Q : Hart xlen → Prop) (h : Hart xlen) : Prop :=
  ∃ n, ∃ h' ∈ h.run? code depth n, Q h'

namespace Reaches

variable {code : Code xlen} {depth : Nat} {Q R : Hart xlen → Prop} {h : Hart xlen}

theorem done (hQ : Q h) : Reaches code depth Q h := ⟨0, h, rfl, hQ⟩

theorem step {i : Instr} (hi : Encodes xlen (code h.pc) i) (hok : i.Permitted depth h)
    (hnext : Reaches code depth Q (i.next h)) : Reaches code depth Q h := by
  obtain ⟨n, h', hrun, hQ⟩ := hnext
  refine ⟨n + 1, h', ?_, hQ⟩
  exact Hart.run?_succ_eq_some_iff.mpr
    ⟨i.next h, Hart.step?_eq_some_iff.mpr ⟨i, hi, hok, rfl⟩, hrun⟩

theorem trans (hQ : Reaches code depth Q h) (hR : ∀ h', Q h' → Reaches code depth R h') :
    Reaches code depth R h := by
  obtain ⟨m, h', hrun, hQ'⟩ := hQ
  obtain ⟨n, h'', hrun', hR'⟩ := hR h' hQ'
  refine ⟨m + n, h'', ?_, hR'⟩
  show _ = some h''
  rw [Hart.run?_add, show h.run? code depth m = some h' from hrun]
  exact hrun'

theorem mono (hQ : Reaches code depth Q h) (hR : ∀ h', Q h' → R h') : Reaches code depth R h :=
  hQ.trans fun h' hQ' ↦ done (hR h' hQ')

/-- The loop rule: an invariant that each round takes from `k` to `k + 1`, up to `n`. -/
theorem loop (I : Nat → Hart xlen → Prop) {m n : Nat} (hmn : m ≤ n) (h0 : I m h)
    (hround : ∀ k h', m ≤ k → k < n → I k h' → Reaches code depth (I (k + 1)) h') :
    Reaches code depth (I n) h := by
  induction n, hmn using Nat.le_induction with
  | base => exact done h0
  | succ n hmn ih =>
    have hprefix := ih fun k h' hk hlt ↦ hround k h' hk (Nat.lt_succ_of_lt hlt)
    exact hprefix.trans fun h' hI ↦ hround n h' hmn (Nat.lt_succ_self n) hI

end Reaches

end RtlCores.Lib.Isa
