import RtlCores.Lib.Clocked
import RtlCores.Spi.Top

/-!
# The daisy chain

A master and a chain of slaves from its `mosi` back to its `miso`, one bit clock at a time: the
master shifts on its active edge and buffers the bit it sends in `mos_buf`, then all slaves
shift together on the opposite edge.  Without a slave `mosi` is wired to `miso` and the buffer
becomes one more position of the ring.
-/

namespace RtlCores.Spi

open RtlCores.Lib RtlCores.Modules

namespace Top

/-- The line between two ports; an open one reads as 0. -/
def line (i : Bus) (s : Top) : Bool := (s.mosi i).getD false

end Top

namespace Top

/-- A port that takes part in the chain: enabled, out of reset and not in loopback. -/
structure Linked (s : Top) : Prop where
  swRes : s.spiccr.getLsbD 7 = true
  loopback : s.spiccr.getLsbD 4 = false
  spiEn : s.spictl.getLsbD 1 = true
  sregEn : s.sregEn = true

variable {i : Bus} {p : Pins} {s : Top}

theorem Linked.sdatEdge (h : Linked s) : Linked (s.sdatEdge i p) :=
  ⟨h.swRes, h.loopback, h.spiEn, h.sregEn⟩

/-- A linked port shifts in what is on its `miso`. -/
theorem Linked.sdatEdge_spidat (h : Linked s) (hl : i.loadEn = false) :
    (s.sdatEdge i p).spidat = s.spidat.shiftConcat p.miso := by
  have hsomi : s.somi i p = p.miso := by
    rw [somi, Top.loopback, h.loopback, if_neg Bool.false_ne_true]
  rw [Top.sdatEdge, hsomi]
  exact ShiftRegMsb.clock_shift _ hl h.sregEn

theorem Linked.line_eq (h : Linked s) (hi : i.Selected) :
    s.line i = if s.master then s.mosBuf else s.spidat.getLsbD 15 := by
  rw [line, mosi, Top.spiEn, hi.ssN, h.spiEn, Top.loopback, h.loopback]
  cases s.master with
  | true => rfl
  | false => rfl

end Top

/-- The ports of a chain, the slave at `mosi` first, on one bus. -/
structure Chain where
  master : Top
  slaves : List Top

namespace Chain

variable (i : Bus)

/-- The slaves at the edge on which they shift; each takes in what the one before it puts out,
and the first what is on `b`. -/
def shiftSlaves (b : Bool) : List Top → List Top
  | [] => []
  | s :: ss => s.sdatEdge i ⟨false, b⟩ :: shiftSlaves (s.line i) ss

/-- The end of the chain that starts with `b`. -/
def lastLine (b : Bool) : List Top → Bool
  | [] => b
  | s :: ss => lastLine (s.line i) ss

/-- What is on `miso`. -/
def miso (c : Chain) : Bool := lastLine i (c.master.line i) c.slaves

/-- One bit clock. -/
def bitClock (i : Bus) (c : Chain) : Chain :=
  let master := c.master.sdatEdge i ⟨false, c.miso i⟩
  ⟨master, shiftSlaves i (master.line i) c.slaves⟩

/-! ## Registers in a ring -/

/-- All ports take part, and one of them is the master. -/
structure Linked (c : Chain) : Prop where
  master : c.master.Linked
  isMaster : c.master.master = true
  slaves : ∀ s ∈ c.slaves, s.Linked ∧ s.master = false

/-- The registers of the slaves. -/
def registers (ss : List Top) : List (BitVec 16) := ss.map Top.spidat

/-- The contents of the ring, highest bits first: the last slave, ..., the first slave, the
master. -/
def bits (c : Chain) : List Bool := ringBits c.master.spidat (registers c.slaves)

variable {i} {c : Chain} {ss : List Top}

@[simp] theorem length_shiftSlaves (b : Bool) (ss : List Top) :
    (shiftSlaves i b ss).length = ss.length := by
  induction ss generalizing b with
  | nil => rfl
  | cons s ss ih => exact congrArg (· + 1) (ih _)

theorem shiftSlaves_linked (h : ∀ s ∈ ss, s.Linked ∧ s.master = false) (b : Bool) :
    ∀ s ∈ shiftSlaves i b ss, s.Linked ∧ s.master = false := by
  induction ss generalizing b with
  | nil => exact h
  | cons s ss ih =>
    obtain ⟨hlinked, hslave⟩ := h s List.mem_cons_self
    intro s' hs'
    rcases List.mem_cons.mp hs' with rfl | hmem
    · exact ⟨hlinked.sdatEdge, hslave⟩
    · exact ih (fun s hs ↦ h s (List.mem_cons_of_mem _ hs)) _ s' hmem

/-- The slaves are a chain of shift registers. -/
theorem registers_shiftSlaves (hi : i.Selected) (hl : i.loadEn = false)
    (h : ∀ s ∈ ss, s.Linked ∧ s.master = false) (b : Bool) :
    registers (shiftSlaves i b ss) = pushAll b (registers ss) := by
  induction ss generalizing b with
  | nil => rfl
  | cons s ss ih =>
    obtain ⟨hlinked, hslave⟩ := h s List.mem_cons_self
    have hline : s.line i = s.spidat.getLsbD 15 := by
      rw [hlinked.line_eq hi, hslave, if_neg Bool.false_ne_true]
    have hrest := ih (fun s hs ↦ h s (List.mem_cons_of_mem _ hs)) (s.line i)
    calc registers (shiftSlaves i b (s :: ss))
        = (s.sdatEdge i ⟨false, b⟩).spidat :: registers (shiftSlaves i (s.line i) ss) := rfl
      _ = s.spidat.shiftConcat b :: pushAll (s.spidat.getLsbD 15) (registers ss) := by
          rw [hlinked.sdatEdge_spidat hl, hrest, hline]
      _ = pushAll b (registers (s :: ss)) := rfl

theorem lastLine_eq (hi : i.Selected) (h : ∀ s ∈ ss, s.Linked ∧ s.master = false) (b : Bool) :
    lastLine i b ss = chainOut b (registers ss) := by
  induction ss generalizing b with
  | nil => rfl
  | cons s ss ih =>
    obtain ⟨hlinked, hslave⟩ := h s List.mem_cons_self
    have hline : s.line i = s.spidat.getLsbD 15 := by
      rw [hlinked.line_eq hi, hslave, if_neg Bool.false_ne_true]
    calc lastLine i b (s :: ss) = lastLine i (s.line i) ss := rfl
      _ = chainOut (s.spidat.getLsbD 15) (registers ss) := by
          rw [ih (fun s hs ↦ h s (List.mem_cons_of_mem _ hs)), hline]
      _ = chainOut b (registers (s :: ss)) := rfl

namespace Linked

variable (h : Linked c)

include h

theorem bitClock : Linked (c.bitClock i) :=
  ⟨h.master.sdatEdge, h.isMaster, shiftSlaves_linked h.slaves _⟩

/-- The master takes in what is on `miso`. -/
theorem bitClock_master (hl : i.loadEn = false) :
    (c.bitClock i).master.spidat = c.master.spidat.shiftConcat (c.miso i) :=
  h.master.sdatEdge_spidat hl

variable (hi : i.Selected)

include hi

theorem miso_eq : c.miso i = chainOut c.master.mosBuf (registers c.slaves) := by
  rw [Chain.miso, lastLine_eq hi h.slaves, h.master.line_eq hi, h.isMaster, if_pos rfl]

variable (hl : i.loadEn = false)

include hl

/-- The slaves take in what the master has just put into `mos_buf`. -/
theorem bitClock_slaves : registers (c.bitClock i).slaves =
    pushAll (c.master.spidat.getLsbD 15) (registers c.slaves) := by
  have hmaster : Top.Linked (c.master.sdatEdge i ⟨false, c.miso i⟩) := h.master.sdatEdge
  have hline : (c.master.sdatEdge i ⟨false, c.miso i⟩).line i = c.master.spidat.getLsbD 15 := by
    rw [hmaster.line_eq hi]
    show (if c.master.master then _ else _) = _
    rw [h.isMaster, if_pos rfl]
    rfl
  rw [← hline]
  exact registers_shiftSlaves hi hl h.slaves _

/-- One bit clock of a chain with slaves. -/
theorem bits_bitClock (hne : c.slaves ≠ []) : (c.bitClock i).bits = c.bits.rotate 1 := by
  have hregs : registers c.slaves ≠ [] := fun hnil ↦ hne (List.map_eq_nil_iff.mp hnil)
  rw [bits, h.bitClock_master hl, h.bitClock_slaves hi hl, h.miso_eq hi,
    chainOut_congr hregs _ (c.master.spidat.getLsbD 15)]
  exact ringBits_step _ _

/-- Without a slave the bit in `mos_buf` comes back next. -/
theorem mosBuf_bitClock (hnil : c.slaves = []) :
    (c.bitClock i).master.mosBuf :: msbBits (c.bitClock i).master.spidat =
      (c.master.mosBuf :: msbBits c.master.spidat).rotate 1 := by
  obtain ⟨l, hbits, hshift⟩ := exists_msbBits (w := 15) c.master.spidat
  have hmiso : c.miso i = c.master.mosBuf := by
    rw [h.miso_eq hi, hnil]
    rfl
  rw [h.bitClock_master hl, hmiso, rotate_one, hbits]
  exact congrArg (c.master.spidat.getLsbD 15 :: ·) (hshift _)

end Linked

/-! ## Runs -/

section Runs

theorem Linked.run (h : Linked c) (is : Nat → Bus) (t : Nat) :
    Linked (Lib.run Chain.bitClock is c t) ∧
      (Lib.run Chain.bitClock is c t).slaves.length = c.slaves.length := by
  induction t with
  | zero => exact ⟨h, rfl⟩
  | succ t ih => exact ⟨ih.1.bitClock, (length_shiftSlaves _ _).trans ih.2⟩

variable {is : Nat → Bus} (h : Linked c) (hi : ∀ t, (is t).Selected)
  (hl : ∀ t, (is t).loadEn = false)

include h hi hl

/-- The ring rotates by one position a bit clock. -/
theorem Linked.bits_run (hne : c.slaves ≠ []) (t : Nat) :
    (Lib.run Chain.bitClock is c t).bits = c.bits.rotate t := by
  induction t with
  | zero => exact (List.rotate_zero _).symm
  | succ t ih =>
    obtain ⟨hrun, hlen⟩ := h.run is t
    have hne' : (Lib.run Chain.bitClock is c t).slaves ≠ [] := by
      rw [← List.length_pos_iff, hlen, List.length_pos_iff]
      exact hne
    rw [run_succ, hrun.bits_bitClock (hi t) (hl t) hne', ih, List.rotate_rotate]

/-- A bit that leaves the master is back after it has been through all the slaves. -/
theorem Linked.miso_run (hne : c.slaves ≠ []) (t : Nat) :
    (Lib.run Chain.bitClock is c (t + 16 * c.slaves.length)).miso
        (is (t + 16 * c.slaves.length)) =
      (Lib.run Chain.bitClock is c t).master.spidatNout := by
  set u := t + 16 * c.slaves.length with hu
  obtain ⟨hrun, hlen⟩ := h.run is u
  have hlen' := (h.run is t).2
  have hne' : registers (Lib.run Chain.bitClock is c u).slaves ≠ [] := by
    rw [← List.length_pos_iff, registers, List.length_map, hlen, List.length_pos_iff]
    exact hne
  have hpos : 0 < c.bits.length := by
    rw [bits, length_ringBits]
    exact Nat.mul_pos (Nat.succ_pos 15) (Nat.succ_pos _)
  -- the bit in front now and the one behind the slaves then are the same of the first ring
  have hfront : (Lib.run Chain.bitClock is c u).bits[0]? =
      some ((Lib.run Chain.bitClock is c u).miso (is u)) := by
    rw [hrun.miso_eq (hi u),
      chainOut_congr hne' _ ((Lib.run Chain.bitClock is c u).master.spidat.getLsbD 15)]
    exact ringBits_head? (w := 15) _ _
  have hback : (Lib.run Chain.bitClock is c t).bits[16 * c.slaves.length]? =
      some (Lib.run Chain.bitClock is c t).master.spidatNout := by
    have hlast := ringBits_getElem? (w := 15) (Lib.run Chain.bitClock is c t).master.spidat
      (registers (Lib.run Chain.bitClock is c t).slaves)
    rwa [registers, List.length_map, hlen'] at hlast
  have hlt : 16 * c.slaves.length < c.bits.length := by
    rw [bits, length_ringBits, registers, List.length_map]
    omega
  rw [h.bits_run hi hl hne, List.getElem?_rotate hpos, Nat.zero_add] at hfront
  rw [h.bits_run hi hl hne, List.getElem?_rotate hlt, Nat.add_comm, ← hu] at hback
  exact Option.some.inj (hfront.symm.trans hback)

/-- Without slaves `mos_buf` is part of the ring. -/
theorem Linked.mosBuf_run (hnil : c.slaves = []) (t : Nat) :
    (Lib.run Chain.bitClock is c t).master.mosBuf ::
        msbBits (Lib.run Chain.bitClock is c t).master.spidat =
      (c.master.mosBuf :: msbBits c.master.spidat).rotate t := by
  induction t with
  | zero => exact (List.rotate_zero _).symm
  | succ t ih =>
    obtain ⟨hrun, hlen⟩ := h.run is t
    have hnil' : (Lib.run Chain.bitClock is c t).slaves = [] := by
      rw [← List.length_eq_zero_iff, hlen, hnil]
      rfl
    rw [run_succ, hrun.mosBuf_bitClock (hi t) (hl t) hnil', ih, List.rotate_rotate]

end Runs

/-- Along every run the registers of a master and at least one slave rotate by one position a
bit clock, and what the master sends comes back sixteen bit clocks a slave later.  Without a
slave the ring is the master's register and `mos_buf`, and what is sent comes back next. -/
theorem bits_rotate {c : Chain} (h : Linked c) (is : Nat → Bus) (hi : ∀ t, (is t).Selected)
    (hl : ∀ t, (is t).loadEn = false) :
    (c.slaves ≠ [] → ∀ t,
      (run bitClock is c t).bits = c.bits.rotate t ∧
        (run bitClock is c (t + 16 * c.slaves.length)).miso (is (t + 16 * c.slaves.length)) =
          (run bitClock is c t).master.spidatNout) ∧
      (c.slaves = [] → ∀ t,
        (run bitClock is c t).master.mosBuf :: msbBits (run bitClock is c t).master.spidat =
            (c.master.mosBuf :: msbBits c.master.spidat).rotate t ∧
          (run bitClock is c (t + 1)).miso (is (t + 1)) =
            (run bitClock is c t).master.spidatNout) := by
  constructor
  · intro hne t
    exact ⟨h.bits_run hi hl hne t, h.miso_run hi hl hne t⟩
  · intro hnil t
    refine ⟨h.mosBuf_run hi hl hnil t, ?_⟩
    obtain ⟨hrun, hlen⟩ := h.run is (t + 1)
    have hnil' : (run bitClock is c (t + 1)).slaves = [] := by
      rw [← List.length_eq_zero_iff, hlen, hnil]
      rfl
    rw [hrun.miso_eq (hi (t + 1)), hnil']
    rfl

/-- A master or a slave with this in `SPIDAT`. -/
def port (spictl : BitVec 8) (spidat : BitVec 16) : Top where
  spiccr := 0x8F
  spictl := spictl
  spibrr := 0
  spitxbuf := 0
  baud := ClockDivider.load false false
  baudRes := false
  postLoaden := false
  spidat := spidat
  mosBuf := false
  counter := 0
  sdatClk := false
  sregEn := true
  txFull := false
  spiInt := false
  rxOverrun := false

/-- A master that sends `0xADAD` to two slaves. -/
def twoSlaves : Chain := ⟨port 6 0xADAD, [port 2 0x4242, port 2 0x1234]⟩

/-- `SPIST` being polled. -/
def poll : Bus := ⟨true, false, false, Addr.spist, 0⟩

theorem linked_twoSlaves : Linked twoSlaves where
  master := ⟨rfl, rfl, rfl, rfl⟩
  isMaster := rfl
  slaves := by
    intro s hs
    rcases List.mem_pair.mp hs with rfl | rfl
    · exact ⟨⟨rfl, rfl, rfl, rfl⟩, rfl⟩
    · exact ⟨⟨rfl, rfl, rfl, rfl⟩, rfl⟩

/-- After three words all is where it was, and after two the first bit is on its way back. -/
theorem bits_rotate_twoSlaves :
    (run bitClock (fun _ ↦ poll) twoSlaves 48).bits = twoSlaves.bits ∧
      (run bitClock (fun _ ↦ poll) twoSlaves 32).miso poll = true := by
  have hrot := (bits_rotate linked_twoSlaves (fun _ ↦ poll) (fun _ ↦ ⟨rfl, rfl⟩)
    fun _ ↦ rfl).1 (List.cons_ne_nil _ _)
  refine ⟨?_, ?_⟩
  · have hlen : twoSlaves.bits.length = 48 := length_ringBits _ _
    rw [(hrot 48).1, ← hlen, List.rotate_length]
  · exact (hrot 0).2

/-- A master without slaves. -/
def noSlaves : Chain := ⟨port 6 0x8000, []⟩

/-- A master on its own takes in what is in `mos_buf`, not the bit it sends. -/
theorem not_rotate_noSlaves : Linked noSlaves ∧
    (bitClock poll noSlaves).bits ≠ noSlaves.bits.rotate 1 ∧
    noSlaves.miso poll ≠ noSlaves.master.spidatNout := by
  refine ⟨⟨⟨rfl, rfl, rfl, rfl⟩, rfl, ?_⟩, ?_, ?_⟩
  · intro s hs
    exact absurd hs List.not_mem_nil
  · decide
  · decide

end Chain

end RtlCores.Spi
