import RtlCores.Lib.Clocked
import RtlCores.Lib.Queue
import RtlCores.Lib.RingBuffer

/-!
# The synchronous FIFO (`modules/fifo.v`)

Read and write pointers with their successors, a wrapping memory and an item counter with
a case table of its own.  The FIFO refines the bounded queue of `Lib.Queue` with room for
`2 ^ ADDR_WIDTH` items: `Fifo.contents` reads the queue off the memory, and
`Fifo.WellFormed` is what the registers must satisfy for that reading to be right.
-/

namespace RtlCores.Modules

open RtlCores.Lib

variable {a w : Nat}

/-- The registers of `fifo`; `a` is `ADDR_WIDTH` and `w` is `DATA_WIDTH`. -/
structure Fifo (a w : Nat) where
  mem : BitVec a → BitVec w
  wPtr : BitVec a
  rPtr : BitVec a
  nextW : BitVec a
  nextR : BitVec a
  count : BitVec (a + 1)

/-- The input ports of `fifo`. -/
structure FifoIn (w : Nat) where
  res : Bool
  push : Bool
  pull : Bool
  din : BitVec w

/-- The inputs of a period as a request to a queue. -/
def FifoIn.req (i : FifoIn w) : QueueReq (BitVec w) where
  flush := i.res
  push := i.push
  pull := i.pull
  item := i.din

namespace Fifo

variable (i : FifoIn w) (f : Fifo a w)

/-! ## Wires and registers -/

def empty : Bool := f.count == 0

def full : Bool := f.count.getLsbD a

def wen : Bool := i.push && (!f.full || i.pull)

def ren : Bool := i.pull && !f.empty

/-- First-word fall-through: the oldest item is on the output before it is pulled. -/
def dout : BitVec w := f.mem f.rPtr

/-- The `casez` over `{pull, push, empty, full}`. -/
def countCase (pull push empty full : Bool) : BitVec (a + 1) :=
  match pull, push, empty, full with
  | true, false, false, _ => -1
  | false, true, _, false => 1
  | true, true, true, false => 1 -- pull fail on parallel
  | _, _, _, _ => 0 -- no change on parallel

def countAdd : BitVec (a + 1) := countCase i.pull i.push f.empty f.full

/-- The registers after a posedge of `clk`. -/
def clock : Fifo a w where
  mem := if !i.res && wen i f then Function.update f.mem f.wPtr i.din else f.mem
  wPtr := if i.res then 0 else if wen i f then f.nextW else f.wPtr
  rPtr := if i.res then 0 else if ren i f then f.nextR else f.rPtr
  nextW := if i.res then 1 else if wen i f then f.nextW + 1 else f.nextW
  nextR := if i.res then 1 else if ren i f then f.nextR + 1 else f.nextR
  count := if i.res then 0 else f.count + f.countAdd i

/-! ## The queue in the registers -/

/-- The items held, oldest first. -/
def contents : List (BitVec w) := window f.mem f.rPtr f.count.toNat

/-- The registers agree with each other: the write pointer is `count` cells past the read
pointer, and the two successors are where they should be. -/
structure WellFormed : Prop where
  count_le : f.count.toNat ≤ 2 ^ a
  wPtr : f.wPtr = f.rPtr + BitVec.ofNat a f.count.toNat
  nextW : f.nextW = f.wPtr + 1
  nextR : f.nextR = f.rPtr + 1

variable {f}

@[simp] theorem length_contents : f.contents.length = f.count.toNat := by simp [contents]

theorem empty_eq : f.empty = f.contents.isEmpty := by
  rw [Bool.eq_iff_iff, List.isEmpty_iff, ← List.length_eq_zero_iff, length_contents, empty,
    beq_iff_eq]
  constructor
  · intro h
    rw [h]
    rfl
  · intro h
    exact BitVec.eq_of_toNat_eq h

/-- The top bit of the counter is set exactly at the capacity. -/
theorem WellFormed.full_eq (hf : f.WellFormed) : f.full = decide (f.count.toNat = 2 ^ a) := by
  rw [full, ← BitVec.testBit_toNat]
  rcases hf.count_le.lt_or_eq with hlt | heq
  · rw [Nat.testBit_lt_two_pow hlt, eq_comm, decide_eq_false_iff_not]
    exact hlt.ne
  · rw [heq, Nat.testBit_two_pow_self, decide_eq_true rfl]

theorem WellFormed.full_eq_false_of_empty (hf : f.WellFormed) (h : f.empty = true) :
    f.full = false := by
  rw [hf.full_eq]
  rw [empty, beq_iff_eq] at h
  rw [h]
  exact decide_eq_false (Nat.two_pow_pos a).ne

theorem WellFormed.wen_eq (hf : f.WellFormed) :
    wen i f = Queue.accepts (2 ^ a) i.req f.contents := by
  have hle := hf.count_le
  rw [wen, Queue.accepts, length_contents, hf.full_eq, ← decide_not]
  congr 2
  exact decide_eq_decide.mpr ⟨fun h ↦ by omega, fun h ↦ by omega⟩

theorem ren_eq : ren i f = Queue.delivers i.req f.contents := by
  rw [ren, Queue.delivers, empty_eq]
  rfl

/-- The case table counts the item that enters and the item that leaves; a FIFO that is
both empty and full is not in it. -/
theorem countCase_eq (pull push empty full : Bool) (h : ¬(empty = true ∧ full = true)) :
    (countCase pull push empty full : BitVec (a + 1)) =
      (if push && (!full || pull) then 1 else 0) - (if pull && !empty then 1 else 0) := by
  cases pull <;> cases push <;> cases empty <;> cases full <;> simp_all [countCase]

theorem countAdd_eq :
    f.countAdd i = (if wen i f then 1 else 0) - (if ren i f then 1 else 0) := by
  refine countCase_eq _ _ _ _ ?_
  rintro ⟨he, hfull⟩
  rw [empty, beq_iff_eq] at he
  rw [full, he] at hfull
  simp at hfull

/-- The oldest item is on the output. -/
theorem head?_contents (hpos : 0 < f.count.toNat) : f.contents.head? = some f.dout := by
  obtain ⟨n, hn⟩ : ∃ n, f.count.toNat = n + 1 := ⟨f.count.toNat - 1, by omega⟩
  rw [contents, hn, window_succ_head]
  rfl

/-- Reset empties the FIFO, whatever the registers hold. -/
theorem contents_clock_of_res (h : i.res = true) : (f.clock i).contents = [] := by
  simp [contents, clock, h]

theorem wellFormed_clock_of_res (h : i.res = true) : (f.clock i).WellFormed where
  count_le := by simp [clock, h]
  wPtr := by simp [clock, h]
  nextW := by simp [clock, h]
  nextR := by simp [clock, h]

/-! ## One period -/

theorem ren_pos (h : ren i f = true) : 0 < f.count.toNat := by
  rw [ren_eq, Queue.delivers, Bool.and_eq_true] at h
  have hne : f.contents ≠ [] := by simpa using h.2
  simpa using List.length_pos_of_ne_nil hne

/-- There is room for an item that enters while none leaves. -/
theorem WellFormed.lt_of_wen (hf : f.WellFormed) (hw : wen i f = true) (hr : ren i f = false) :
    f.count.toNat < 2 ^ a := by
  rw [wen, Bool.and_eq_true, Bool.or_eq_true, Bool.not_eq_true', hf.full_eq,
    decide_eq_false_iff_not] at hw
  have hle := hf.count_le
  obtain ⟨-, hroom | hpull⟩ := hw
  · omega
  · rw [ren, hpull, Bool.true_and, Bool.not_eq_false', empty, beq_iff_eq] at hr
    rw [hr]
    exact Nat.two_pow_pos a

theorem WellFormed.count_clock (hf : f.WellFormed) (h : i.res = false) :
    (f.clock i).count.toNat + (ren i f).toNat = f.count.toNat + (wen i f).toNat := by
  have hle := hf.count_le
  have hpow : 2 ^ (a + 1) = 2 * 2 ^ a := by rw [Nat.pow_succ, Nat.mul_comm]
  have hone : 0 < 2 ^ a := Nat.two_pow_pos a
  have hcount : (f.clock i).count =
      f.count + ((if wen i f then 1 else 0) - (if ren i f then 1 else 0)) := by
    rw [← countAdd_eq]
    simp [clock, h]
  rw [hcount]
  have hone' : (1 : BitVec (a + 1)).toNat = 1 := by
    rw [BitVec.ofNat_eq_ofNat, BitVec.toNat_ofNat]
    exact Nat.mod_eq_of_lt (Nat.one_lt_two_pow (Nat.succ_ne_zero a))
  cases hw : wen i f <;> cases hr : ren i f
  · simp
  · have hpos := ren_pos i hr
    have hle1 : 1 ≤ f.count := by rw [BitVec.le_def, hone']; exact hpos
    have hsub : f.count + ((if false = true then 1 else 0) - if true = true then 1 else 0)
        = f.count - 1 := by simp [BitVec.sub_eq_add_neg]
    rw [hsub, BitVec.toNat_sub_of_le hle1, hone', Bool.toNat_true, Bool.toNat_false]
    omega
  · have hlt := hf.lt_of_wen i hw hr
    have hadd : f.count + ((if true = true then 1 else 0) - if false = true then 1 else 0)
        = f.count + 1 := by simp
    rw [hadd, BitVec.toNat_add_of_lt (by rw [hone']; omega), hone']
    rfl
  · simp

theorem WellFormed.wPtr_clock (hf : f.WellFormed) (h : i.res = false) :
    (f.clock i).wPtr = f.wPtr + BitVec.ofNat a (wen i f).toNat := by
  have hnext := hf.nextW
  cases hw : wen i f <;> simp [clock, h, hw, hnext]

theorem WellFormed.rPtr_clock (hf : f.WellFormed) (h : i.res = false) :
    (f.clock i).rPtr = f.rPtr + BitVec.ofNat a (ren i f).toNat := by
  have hnext := hf.nextR
  cases hr : ren i f <;> simp [clock, h, hr, hnext]

/-- One period outside reset does to the contents what the queue does. -/
theorem WellFormed.contents_clock (hf : f.WellFormed) (h : i.res = false) :
    (f.clock i).contents = Queue.step (2 ^ a) i.req f.contents := by
  have hcount := hf.count_clock i h
  have hmem : (f.clock i).mem =
      if wen i f then Function.update f.mem (f.rPtr + BitVec.ofNat a f.count.toNat) i.din
      else f.mem := by
    rw [← hf.wPtr]
    simp [clock, h]
  rw [Queue.step_of_not_flush (show i.req.flush = false from h), ← hf.wen_eq, ← ren_eq, contents,
    hf.rPtr_clock i h, hmem]
  cases hw : wen i f <;> cases hr : ren i f <;> simp only [hw, hr, Bool.toNat_false,
    Bool.toNat_true, Nat.add_zero] at hcount
  · -- nothing enters, nothing leaves
    simp [hcount, contents]
  · -- the oldest item leaves
    simp [← hcount, contents, window_succ_head]
  · -- an item enters
    have hlt := hf.lt_of_wen i hw hr
    simpa [hcount, contents, FifoIn.req] using window_push f.mem f.rPtr hlt i.din
  · -- one enters and one leaves
    have hpos := ren_pos i hr
    have hn : (f.clock i).count.toNat = f.count.toNat := by omega
    simpa [hn, contents, FifoIn.req] using
      window_push_drop f.mem f.rPtr hpos hf.count_le i.din

theorem WellFormed.clock (hf : f.WellFormed) (h : i.res = false) : (f.clock i).WellFormed where
  count_le := by
    rw [← length_contents, hf.contents_clock i h]
    exact Queue.length_step_le (Nat.two_pow_pos a) (by simpa using hf.count_le)
  wPtr := by
    have hcount := hf.count_clock i h
    rw [hf.wPtr_clock i h, hf.rPtr_clock i h, hf.wPtr, BitVec.add_assoc, ← BitVec.ofNat_add,
      BitVec.add_assoc, ← BitVec.ofNat_add, ← hcount, Nat.add_comm (ren i f).toNat]
  nextW := by
    have hnext := hf.nextW
    cases hw : wen i f <;> simp [Fifo.clock, h, hw, hnext]
  nextR := by
    have hnext := hf.nextR
    cases hr : ren i f <;> simp [Fifo.clock, h, hr, hnext]

/-! ## Runs -/

/-- The item that enters in a period. -/
def pushed (i : FifoIn w) (f : Fifo a w) : Option (BitVec w) :=
  if wen i f then some i.din else none

/-- The item that is read in a period. -/
def pulled (i : FifoIn w) (f : Fifo a w) : Option (BitVec w) :=
  if ren i f then some f.dout else none

/-- Over one period outside reset, what was held and what is pushed is what is pulled and
what is held afterwards. -/
theorem WellFormed.conserve (hf : f.WellFormed) (h : i.res = false) :
    f.contents ++ (pushed i f).toList = (pulled i f).toList ++ (f.clock i).contents := by
  have hq := Queue.step_conserve (2 ^ a) f.contents (show i.req.flush = false from h)
  rw [← hf.wen_eq, ← ren_eq, ← hf.contents_clock i h] at hq
  have hpulled : pulled i f = if ren i f then f.contents.head? else none := by
    rw [pulled]
    cases hr : ren i f with
    | false => rfl
    | true => rw [if_pos rfl, if_pos rfl, head?_contents (ren_pos i hr)]
  rw [hpulled]
  exact hq

/-- The registers of a FIFO after a first period in reset, and from then on, are well formed
and hold the queue. -/
theorem run_contents (is : Nat → FifoIn w) (f : Fifo a w) (hres : (is 0).res = true) (n : Nat) :
    (run (fun i f ↦ f.clock i) is f (n + 1)).WellFormed ∧
      (run (fun i f ↦ f.clock i) is f (n + 1)).contents =
        run (fun i ↦ Queue.step (2 ^ a) i.req) (fun k ↦ is (k + 1)) [] n := by
  induction n with
  | zero => exact ⟨wellFormed_clock_of_res _ hres, contents_clock_of_res _ hres⟩
  | succ n ih =>
    obtain ⟨hwf, hcontents⟩ := ih
    rw [run_succ _ is, run_succ _ (fun k ↦ is (k + 1)), ← hcontents]
    cases h : (is (n + 1)).res with
    | true =>
      refine ⟨wellFormed_clock_of_res _ h, ?_⟩
      rw [contents_clock_of_res _ h, Queue.step_flush]
      exact h
    | false => exact ⟨hwf.clock _ h, hwf.contents_clock _ h⟩

/-- The FIFO after `n + 1` periods. -/
abbrev after (is : Nat → FifoIn w) (f : Fifo a w) (n : Nat) : Fifo a w :=
  run (fun i f ↦ f.clock i) is f (n + 1)

/-- `q` is a history of a bounded queue with room for `2 ^ a` items, and what the FIFO shows
on its ports after each period is that history. -/
structure ShowsQueue (is : Nat → FifoIn w) (f : Fifo a w) (q : Nat → List (BitVec w)) :
    Prop where
  init : q 0 = []
  step : ∀ n, q (n + 1) = Queue.step (2 ^ a) (is (n + 1)).req (q n)
  length_le : ∀ n, (q n).length ≤ 2 ^ a
  count : ∀ n, (after is f n).count.toNat = (q n).length
  empty : ∀ n, (after is f n).empty = true ↔ q n = []
  full : ∀ n, (after is f n).full = true ↔ (q n).length = 2 ^ a
  dout : ∀ n x rest, q n = x :: rest → (after is f n).dout = x
  /-- Between two resets the items pushed are the items pulled, in the same order and each
  once, followed by those still held. -/
  conserve : ∀ m n, (∀ k < n, (is (m + 1 + k)).res = false) →
    q m ++ emitted pushed (fun i f ↦ f.clock i) (fun k ↦ is (m + 1 + k)) (after is f m) n =
      emitted pulled (fun i f ↦ f.clock i) (fun k ↦ is (m + 1 + k)) (after is f m) n ++ q (m + n)

/-- Items are conserved from any period on, as long as reset stays low. -/
theorem conserve_run (is : Nat → FifoIn w) (f : Fifo a w) (hres : (is 0).res = true) (m n : Nat)
    (hlow : ∀ k < n, (is (m + 1 + k)).res = false) :
    (after is f m).contents ++
        emitted pushed (fun i f ↦ f.clock i) (fun k ↦ is (m + 1 + k)) (after is f m) n =
      emitted pulled (fun i f ↦ f.clock i) (fun k ↦ is (m + 1 + k)) (after is f m) n ++
        (after is f (m + n)).contents := by
  have hafter : ∀ k, run (fun i f ↦ f.clock i) (fun k ↦ is (m + 1 + k)) (after is f m) k =
      after is f (m + k) := by
    intro k
    rw [after, after, ← run_add, Nat.add_right_comm]
  have hrun := emitted_conserve (fun i (f : Fifo a w) ↦ f.clock i) pushed pulled contents
    (fun k ↦ is (m + 1 + k)) (after is f m) n
  rw [hafter n] at hrun
  apply hrun
  intro k hk
  rw [run_succ, hafter k]
  exact (run_contents is f hres (m + k)).1.conserve _ (hlow k hk)

/-- `fifo` refines a bounded queue: from the first reset on, for every sequence of inputs, its
ports show the history of a queue with room for `2 ^ ADDR_WIDTH` items. -/
theorem fifo_shows_queue (is : Nat → FifoIn w) (f : Fifo a w) (hres : (is 0).res = true) :
    ∃ q, ShowsQueue is f q := by
  have hwf n := (run_contents is f hres n).1
  have hq n := (run_contents is f hres n).2
  refine ⟨fun n ↦ (after is f n).contents, ?_⟩
  constructor
  case init => exact hq 0
  case step =>
    intro n
    show (after is f (n + 1)).contents = _
    rw [after, hq (n + 1), run_succ, ← hq n]
  case length_le =>
    intro n
    rw [length_contents]
    exact (hwf n).count_le
  case count =>
    intro n
    rw [length_contents]
  case empty =>
    intro n
    rw [empty_eq, List.isEmpty_iff]
  case full =>
    intro n
    rw [(hwf n).full_eq, decide_eq_true_iff, length_contents]
  case dout =>
    intro n x rest h
    have hpos : 0 < (after is f n).count.toNat := by
      rw [← length_contents]
      exact List.length_pos_of_ne_nil (by rw [h]; exact List.cons_ne_nil x rest)
    have hhead := head?_contents hpos
    rw [h, List.head?_cons, Option.some.injEq] at hhead
    exact hhead.symm
  case conserve => exact conserve_run is f hres

/-- Reset, then a byte pushed in every period. -/
theorem fifo_shows_queue_push :
    ∃ q, ShowsQueue (a := 2) (fun n ↦ ⟨n == 0, true, false, BitVec.ofNat 8 n⟩)
      ⟨fun _ ↦ 7, 1, 2, 3, 0, 5⟩ q :=
  fifo_shows_queue _ _ rfl

end Fifo

end RtlCores.Modules
