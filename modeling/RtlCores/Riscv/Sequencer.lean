import RtlCores.Lib.HexFile
import RtlCores.Lib.Segments
import RtlCores.Riscv.Cycle

/-!
# The sequencer of the testbench (`RISCV_SingleCycle/testbench/sequencer.cpp`)

Commands are pushed to a queue, and a zero, pushed by `split`, separates the phases of a test.  Each
call of `main` takes the commands of a phase from the queue and writes them to a hex file for the
instruction memory.  Behind a separator it looks at the front of the queue without asking whether
there is one.
-/

namespace RtlCores.Riscv

open RtlCores.Lib RtlCores.Modules

namespace Sequencer

/-! ## The calls -/

/-- What a call of `main` leaves: the hex file and `cmd_count`. -/
structure Phase where
  file : List Char
  cmdCount : Nat

/-- `put_bytes` -/
def putBytes (file : List Char) (inputVal : BitVec 64) (wordLen : Nat) : List Char :=
  file ++ ((List.range wordLen).reverse.flatMap fun i ↦
    byteText ((inputVal >>> (i * 8)).setWidth 8)) ++ [lineEnd]

/-- `val & 0x3 == 3 ? 4 : 2`, where the comparison comes first. -/
def wordLen (val : BitVec 32) : Nat := if val.getLsbD 0 then 4 else 2

/-- The loop of `main` over the queue, `none` when it takes the front of an empty queue. -/
def mainLoop : List (BitVec 32) → Phase → Option (Phase × List (BitVec 32))
  | [], ph => some (ph, [])
  | val :: rest, ph =>
    if val ≠ 0 then
      mainLoop rest ⟨putBytes ph.file (val.signExtend 64) (wordLen val), ph.cmdCount + 1⟩
    else
      match rest with
      | [] => none
      | front :: _ => if front ≠ 0 then some (ph, rest) else mainLoop rest ph

/-- `main`: the phase and the rest of the queue. -/
def main (fifo : List (BitVec 32)) : Option (Phase × List (BitVec 32)) :=
  (mainLoop fifo ⟨[], 0⟩).map fun (ph, rest) ↦ ({ ph with file := putBytes ph.file 0 4 }, rest)

/-! ## What a call takes from the queue -/

variable {fifo rest run : List (BitVec 32)} {ph ph' : Phase}

theorem mainLoop_command {val : BitVec 32} (hval : val ≠ 0) (fifo : List (BitVec 32))
    (ph : Phase) :
    mainLoop (val :: fifo) ph =
      mainLoop fifo ⟨putBytes ph.file (val.signExtend 64) (wordLen val), ph.cmdCount + 1⟩ := by
  rw [mainLoop.eq_def]
  exact if_pos hval

theorem mainLoop_separator (front : BitVec 32) (fifo : List (BitVec 32)) (ph : Phase) :
    mainLoop (0 :: front :: fifo) ph =
      if front ≠ 0 then some (ph, front :: fifo) else mainLoop (front :: fifo) ph := rfl

theorem mainLoop_length (h : mainLoop fifo ph = some (ph', rest)) :
    rest.length ≤ fifo.length - 1 := by
  induction fifo generalizing ph with
  | nil =>
    obtain ⟨-, rfl⟩ := Prod.mk.inj (Option.some.inj h)
    exact Nat.zero_le _
  | cons val fifo ih =>
    have hle : fifo.length - 1 ≤ fifo.length := Nat.sub_le _ 1
    by_cases hval : val = 0
    · subst hval
      cases fifo with
      | nil => contradiction
      | cons front fifo =>
        rw [mainLoop_separator] at h
        split at h
        · obtain ⟨-, rfl⟩ := Prod.mk.inj (Option.some.inj h)
          exact le_rfl
        · exact (ih h).trans hle
    · rw [mainLoop_command hval] at h
      exact (ih h).trans hle

theorem main_length (hne : fifo ≠ []) (h : main fifo = some (ph, rest)) :
    rest.length < fifo.length := by
  obtain ⟨⟨ph', rest'⟩, hloop, heq⟩ := Option.map_eq_some_iff.mp h
  obtain ⟨-, rfl⟩ := Prod.mk.inj heq
  have hle := mainLoop_length hloop
  have hpos := List.length_pos_iff.mpr hne
  omega

/-- The phases that calling `main` as long as the queue is not empty gives, `none` when a call takes
the front of an empty queue. -/
def phases (fifo : List (BitVec 32)) : Option (List Phase) :=
  if _hne : fifo = [] then some []
  else
    match _h : main fifo with
    | none => none
    | some (ph, rest) => (phases rest).map (ph :: ·)
termination_by fifo.length
decreasing_by exact main_length _hne _h

theorem phases_nil : phases [] = some [] := by
  rw [phases]
  rfl

theorem phases_of_main (hne : fifo ≠ []) (h : main fifo = some (ph, rest)) :
    phases fifo = (phases rest).map (ph :: ·) := by
  rw [phases, dif_neg hne]
  split
  · rename_i hnone
    rw [hnone] at h
    contradiction
  · rename_i ph' rest' hsome
    obtain ⟨rfl, rfl⟩ := Prod.mk.inj (Option.some.inj (hsome.symm.trans h))
    rfl

theorem phases_of_main_none (hne : fifo ≠ []) (h : main fifo = none) : phases fifo = none := by
  rw [phases, dif_neg hne]
  split
  · rfl
  · rename_i ph' rest' hsome
    rw [h] at hsome
    contradiction

/-- The file and the count after a stretch of commands. -/
def put (ph : Phase) (run : List (BitVec 32)) : Phase :=
  run.foldl (fun ph val ↦ ⟨putBytes ph.file (val.signExtend 64) (wordLen val), ph.cmdCount + 1⟩) ph

theorem mainLoop_append (h : 0 ∉ run) (rest : List (BitVec 32)) (ph : Phase) :
    mainLoop (run ++ rest) ph = mainLoop rest (put ph run) := by
  induction run generalizing ph with
  | nil => rfl
  | cons val run ih =>
    rw [List.mem_cons, not_or] at h
    rw [List.cons_append, mainLoop_command (Ne.symm h.1), ih h.2]
    rfl

/-- Separators at the front of the queue end the phase, unless nothing follows them. -/
theorem mainLoop_separators (n : Nat) (hrest : rest.head? ≠ some 0) (ph : Phase) :
    mainLoop (List.replicate (n + 1) 0 ++ rest) ph =
      if rest = [] then none else some (ph, rest) := by
  induction n with
  | zero =>
    cases rest with
    | nil => rfl
    | cons front rest =>
      have hfront : front ≠ 0 := fun h ↦ hrest (by rw [h]; rfl)
      have hone : List.replicate (0 + 1) 0 ++ front :: rest = 0 :: front :: rest := rfl
      rw [hone, mainLoop_separator, if_pos hfront, if_neg (List.cons_ne_nil front rest)]
  | succ n ih => exact ih

/-- The phase written for a stretch of commands. -/
def phaseOf (run : List (BitVec 32)) : Phase :=
  { put ⟨[], 0⟩ run with file := putBytes (put ⟨[], 0⟩ run).file 0 4 }

/-- A call takes the first segment and the separators behind it. -/
theorem main_eq {n : Nat} (h : FirstSegment 0 fifo run n rest) :
    main fifo = if n ≠ 0 ∧ rest = [] then none else some (phaseOf run, rest) := by
  rw [main, h.eq, mainLoop_append h.notMem]
  cases n with
  | zero =>
    rw [h.ends rfl, if_neg (fun hand ↦ hand.1 rfl)]
    rfl
  | succ n =>
    rw [mainLoop_separators n h.head]
    by_cases hnil : rest = []
    · rw [if_pos hnil, if_pos ⟨n.succ_ne_zero, hnil⟩]
      rfl
    · rw [if_neg hnil, if_neg (fun hand ↦ hnil hand.2)]
      rfl

/-! ## The image of a phase -/

/-- `MEMX` after `initmem`; what lies behind the image stays. -/
def loadImage {depth : Nat} (m : Memx depth) (bytes : List (BitVec 8)) : Memx depth :=
  fun i ↦ (bytes[i.val]?).getD (m i)

/-- The phase of a stretch of commands: `cmd_count` is its length, and the file, loaded into an
instruction memory that has room for it, is fetched as the commands in order and a zero word. -/
structure ImageOf (run : List (BitVec 32)) (ph : Phase) : Prop where
  cmdCount : ph.cmdCount = run.length
  fetched : ∃ bytes, readmemh ph.file = some bytes ∧ bytes.length = 4 * (run.length + 1) ∧
    ∀ (depth : Nat) (m : Memx depth), bytes.length ≤ depth → bytes.length ≤ 2 ^ 32 →
      ∀ (k : Nat) (word : BitVec 32), (run ++ [0])[k]? = some word →
        State.fetch (loadImage m bytes) (BitVec.ofNat 32 (4 * k)) = word

/-- The line written for a command. -/
def line (val : BitVec 32) : List Char := (beBytes val).flatMap byteText ++ [lineEnd]

theorem putBytes_four (file : List Char) (val : BitVec 32) :
    putBytes file (val.signExtend 64) 4 = file ++ line val := by
  have hbyte : ∀ i < 4, ((val.signExtend 64) >>> (i * 8)).setWidth 8 = byteAt val i := by
    intro i hi
    ext j hj
    rw [byteAt, BitVec.getElem_setWidth, BitVec.getLsbD_ushiftRight, BitVec.getLsbD_signExtend,
      BitVec.getElem_extractLsb', decide_eq_true (by omega), Bool.true_and,
      if_pos (show i * 8 + j < 32 by omega), Nat.mul_comm]
  have hbytes : ((List.range 4).reverse.flatMap fun i ↦
      byteText (((val.signExtend 64) >>> (i * 8)).setWidth 8)) =
      (beBytes val).flatMap byteText := by
    show [3, 2, 1, 0].flatMap _ = _
    simp only [List.flatMap_cons, List.flatMap_nil, hbyte 3 (by decide), hbyte 2 (by decide),
      hbyte 1 (by decide), hbyte 0 (by decide), beBytes]
  rw [putBytes, hbytes, List.append_assoc, line]

theorem readmemh_line (val : BitVec 32) (cs : List Char) :
    readmemh (line val ++ cs) = (readmemh cs).map (beBytes val ++ ·) := by
  rw [line, List.append_assoc, readmemh_flatMap_byteText, List.singleton_append, readmemh_lineEnd]

theorem readmemh_lines (vals : List (BitVec 32)) :
    readmemh (vals.flatMap line) = some (vals.flatMap beBytes) := by
  induction vals with
  | nil => rfl
  | cons val vals ih =>
    rw [List.flatMap_cons, readmemh_line, ih, List.flatMap_cons, Option.map_some]

/-- A non-zero command of the base instruction set ends in `11`. -/
def Commands (fifo : List (BitVec 32)) : Prop := ∀ v ∈ fifo, v ≠ 0 → v.extractLsb' 0 2 = 0b11

theorem wordLen_of_command {val : BitVec 32} (h : val.extractLsb' 0 2 = 0b11) :
    wordLen val = 4 := by
  have hbit : (val.extractLsb' 0 2).getLsbD 0 = true := by
    rw [h]
    rfl
  rw [BitVec.getLsbD_extractLsb'] at hbit
  exact if_pos hbit

theorem put_eq (hcmds : Commands run) (h : 0 ∉ run) (ph : Phase) :
    put ph run = ⟨ph.file ++ run.flatMap line, ph.cmdCount + run.length⟩ := by
  induction run generalizing ph with
  | nil => rw [List.flatMap_nil, List.append_nil]; rfl
  | cons val run ih =>
    rw [List.mem_cons, not_or] at h
    have hval := wordLen_of_command (hcmds val List.mem_cons_self (Ne.symm h.1))
    have hrest : Commands run := fun v hv ↦ hcmds v (List.mem_cons_of_mem val hv)
    show put ⟨putBytes ph.file (val.signExtend 64) (wordLen val), ph.cmdCount + 1⟩ run = _
    rw [ih hrest h.2, hval, putBytes_four, List.flatMap_cons, List.append_assoc, List.length_cons,
      Nat.add_assoc, Nat.add_comm 1]

theorem phaseOf_eq (hcmds : Commands run) (h : 0 ∉ run) :
    phaseOf run = ⟨(run ++ [0]).flatMap line, run.length⟩ := by
  have hzero : putBytes (run.flatMap line) 0 4 = run.flatMap line ++ line 0 :=
    putBytes_four _ 0
  rw [phaseOf, put_eq hcmds h]
  show (⟨putBytes (run.flatMap line) 0 4, 0 + run.length⟩ : Phase) = _
  rw [hzero, Nat.zero_add, List.flatMap_append, List.flatMap_singleton]

/-- A loaded byte is read at its address. -/
theorem read_loadImage {depth : Nat} (m : Memx depth) {bytes : List (BitVec 8)}
    (hroom : bytes.length ≤ depth) {a : BitVec 32} {b : BitVec 8} (h : bytes[a.toNat]? = some b) :
    (loadImage m bytes).read a = b := by
  have hlt : a.toNat < bytes.length := by
    by_contra hge
    rw [List.getElem?_eq_none (Nat.not_lt.mp hge)] at h
    contradiction
  rw [Memx.read, dif_pos (hlt.trans_le hroom), loadImage, h, Option.getD_some]

/-- The instruction memory puts the bytes of a word back together in the order in which they were
written. -/
theorem fetch_loadImage {depth : Nat} (m : Memx depth) {words : List (BitVec 32)}
    (hroom : 4 * words.length ≤ depth) (hmax : 4 * words.length ≤ 2 ^ 32) {k : Nat}
    {word : BitVec 32} (h : words[k]? = some word) :
    State.fetch (loadImage m (words.flatMap beBytes)) (BitVec.ofNat 32 (4 * k)) = word := by
  have hk : k < words.length := by
    by_contra hge
    rw [List.getElem?_eq_none (Nat.not_lt.mp hge)] at h
    contradiction
  have haddr : ∀ j < 4, (BitVec.ofNat 32 (4 * k) + BitVec.ofNat 32 j).toNat = 4 * k + j := by
    intro j hj
    rw [← BitVec.ofNat_add, BitVec.toNat_ofNat, Nat.mod_eq_of_lt (by omega)]
  have hread : ∀ j < 4, (loadImage m (words.flatMap beBytes)).read
      (BitVec.ofNat 32 (4 * k) + BitVec.ofNat 32 j) = byteAt word (3 - j) := by
    intro j hj
    refine read_loadImage m (by rw [length_flatMap_beBytes]; exact hroom) ?_
    rw [haddr j hj]
    exact getElem?_flatMap_beBytes h hj
  have h0 := hread 0 (by decide)
  rw [BitVec.add_zero] at h0
  have h1 : _ = byteAt word 2 := hread 1 (by decide)
  have h2 : _ = byteAt word 1 := hread 2 (by decide)
  have h3 : _ = byteAt word 0 := hread 3 (by decide)
  have hin : ¬depth < (BitVec.ofNat 32 (4 * k)).toNat := by
    have hbase := haddr 0 (by decide)
    rw [BitVec.add_zero] at hbase
    omega
  rw [State.fetch, if_neg hin]
  refine Eq.trans ?_ (append_byteAt word)
  rw [← h0, ← h1, ← h2, ← h3]
  rfl

theorem imageOf_phaseOf (hcmds : Commands run) (h : 0 ∉ run) : ImageOf run (phaseOf run) := by
  rw [phaseOf_eq hcmds h]
  have hlen : ((run ++ [0]).flatMap beBytes).length = 4 * (run.length + 1) := by
    rw [length_flatMap_beBytes, List.length_append, List.length_singleton]
  refine ⟨rfl, _, readmemh_lines _, hlen, ?_⟩
  intro depth m hroom hmax k word hword
  rw [length_flatMap_beBytes] at hroom hmax
  exact fetch_loadImage m hroom hmax hword

/-! ## Whole queues -/

/-- Calling `main` until the queue is empty never takes the front of an empty queue and writes the
maximal runs of commands, in order and each command once. -/
def WritesRuns (fifo : List (BitVec 32)) : Prop :=
  (∃ phs, phases fifo = some phs ∧ List.Forall₂ ImageOf (segments 0 fifo) phs) ∧
    (segments 0 fifo).flatten = fifo.filter (· ≠ 0)

theorem getLast?_of_firstSegment {n : Nat} (h : FirstSegment 0 fifo run n rest)
    (hne : rest ≠ []) : fifo.getLast? = rest.getLast? := by
  rw [h.eq, ← List.append_assoc, List.getLast?_append_of_ne_nil _ hne]

/-- A queue with a separator at its end. -/
theorem phases_of_getLast (h : fifo.getLast? = some 0) : phases fifo = none := by
  induction hlen : fifo.length using Nat.strong_induction_on generalizing fifo with
  | _ len ih =>
    have hne : fifo ≠ [] := by
      rintro rfl
      contradiction
    obtain ⟨run, n, rest, hseg⟩ := exists_firstSegment 0 fifo
    have hmain := main_eq hseg
    by_cases hrest : rest = []
    · have hn : n ≠ 0 := by
        rintro rfl
        rw [hseg.eq, hrest, List.replicate_zero, List.append_nil, List.append_nil] at h
        exact hseg.notMem (List.mem_of_getLast? h)
      rw [if_pos ⟨hn, hrest⟩] at hmain
      exact phases_of_main_none hne hmain
    · rw [if_neg fun hand ↦ hrest hand.2] at hmain
      rw [phases_of_main hne hmain,
        ih rest.length (hlen ▸ main_length hne hmain)
          ((getLast?_of_firstSegment hseg hrest).symm.trans h) rfl]
      rfl

theorem commands_of_firstSegment {n : Nat} (h : FirstSegment 0 fifo run n rest)
    (hcmds : Commands fifo) : Commands run ∧ Commands rest := by
  constructor
  · exact fun v hv ↦ hcmds v (by rw [h.eq]; exact List.mem_append_left _ hv)
  · refine fun v hv ↦ hcmds v ?_
    rw [h.eq]
    exact List.mem_append_right _ (List.mem_append_right _ hv)

/-- The first segment of a queue without a separator in front. -/
theorem run_ne_nil {n : Nat} (h : FirstSegment 0 fifo run n rest) (hne : fifo ≠ [])
    (hhead : fifo.head? ≠ some 0) : run ≠ [] := by
  rintro rfl
  cases n with
  | zero => exact hne (by rw [h.eq, h.ends rfl]; rfl)
  | succ n => exact hhead (by rw [h.eq]; rfl)

/-- What is left of a queue without a separator at its end. -/
theorem rest_ends {n : Nat} (h : FirstSegment 0 fifo run n rest)
    (hlast : fifo.getLast? ≠ some 0) :
    ¬(n ≠ 0 ∧ rest = []) ∧ rest.getLast? ≠ some 0 := by
  constructor
  · rintro ⟨hn, rfl⟩
    obtain ⟨n, rfl⟩ := Nat.exists_eq_succ_of_ne_zero hn
    refine hlast ?_
    rw [h.eq, List.append_nil, List.replicate_succ', ← List.append_assoc, List.getLast?_concat]
  · intro hzero
    have hrest : rest ≠ [] := by
      rintro rfl
      contradiction
    exact hlast ((getLast?_of_firstSegment h hrest).trans hzero)

theorem phases_of_commands (hcmds : Commands fifo) (hhead : fifo.head? ≠ some 0)
    (hlast : fifo.getLast? ≠ some 0) :
    ∃ phs, phases fifo = some phs ∧ List.Forall₂ ImageOf (segments 0 fifo) phs := by
  induction hlen : fifo.length using Nat.strong_induction_on generalizing fifo with
  | _ len ih =>
    by_cases hne : fifo = []
    · subst hne
      exact ⟨[], phases_nil, .nil⟩
    · obtain ⟨run, n, rest, hseg⟩ := exists_firstSegment 0 fifo
      have hrun := run_ne_nil hseg hne hhead
      obtain ⟨hok, hrestlast⟩ := rest_ends hseg hlast
      obtain ⟨hruncmds, hrestcmds⟩ := commands_of_firstSegment hseg hcmds
      have hmain := main_eq hseg
      rw [if_neg hok] at hmain
      obtain ⟨phs, hphs, himages⟩ :=
        ih rest.length (hlen ▸ main_length hne hmain) hrestcmds hseg.head hrestlast rfl
      refine ⟨phaseOf run :: phs, ?_, ?_⟩
      · rw [phases_of_main hne hmain, hphs]
        rfl
      · rw [hseg.segments, if_neg hrun]
        exact .cons (imageOf_phaseOf hruncmds hseg.notMem) himages

/-- A queue with a separator in front: the first phase has no command. -/
theorem not_images_of_head (hhead : fifo.head? = some 0) {phs : List Phase}
    (hphs : phases fifo = some phs) : ¬List.Forall₂ ImageOf (segments 0 fifo) phs := by
  have hne : fifo ≠ [] := by
    rintro rfl
    contradiction
  obtain ⟨run, n, rest, hseg⟩ := exists_firstSegment 0 fifo
  have hrun : run = [] := by
    cases run with
    | nil => rfl
    | cons val run =>
      rw [hseg.eq] at hhead
      obtain rfl : val = 0 := Option.some.inj hhead
      exact absurd List.mem_cons_self hseg.notMem
  subst hrun
  have hmain := main_eq hseg
  split at hmain
  · rw [phases_of_main_none hne hmain] at hphs
    contradiction
  · rw [phases_of_main hne hmain] at hphs
    obtain ⟨phs', -, rfl⟩ := Option.map_eq_some_iff.mp hphs
    intro hall
    cases hsegs : segments 0 fifo with
    | nil =>
      rw [hsegs] at hall
      cases hall
    | cons run runs =>
      rw [hsegs] at hall
      cases hall with
      | cons hfirst _ =>
        have hnil : run = [] := List.length_eq_zero_iff.mp hfirst.cmdCount.symm
        exact ne_nil_of_mem_segments (hsegs ▸ List.mem_cons_self) hnil

/-- The sequencer writes the runs of a queue exactly if the queue neither begins nor ends with a
separator. -/
theorem writesRuns_iff (hcmds : Commands fifo) :
    WritesRuns fifo ↔ fifo.head? ≠ some 0 ∧ fifo.getLast? ≠ some 0 := by
  constructor
  · rintro ⟨⟨phs, hphs, himages⟩, -⟩
    constructor
    · exact fun hhead ↦ not_images_of_head hhead hphs himages
    · intro hlast
      rw [phases_of_getLast hlast] at hphs
      contradiction
  · rintro ⟨hhead, hlast⟩
    exact ⟨phases_of_commands hcmds hhead hlast, flatten_segments 0 fifo⟩

/-- Two commands with two separators in between. -/
theorem writesRuns_two : WritesRuns [0x00500093, 0, 0, 0x00008067] :=
  (writesRuns_iff (by simp [Commands])).mpr (by decide)

/-- A command and a separator: the front of the empty queue is taken. -/
theorem not_writesRuns_trailing : ¬∀ fifo, Commands fifo → WritesRuns fifo := by
  intro h
  have hlast : ([0x00500093, 0] : List (BitVec 32)).getLast? = some 0 := by decide
  obtain ⟨⟨phs, hphs, -⟩, -⟩ := h [0x00500093, 0] (by simp [Commands])
  rw [phases_of_getLast hlast] at hphs
  contradiction

end Sequencer

end RtlCores.Riscv
