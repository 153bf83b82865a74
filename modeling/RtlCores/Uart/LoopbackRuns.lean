import RtlCores.Lib.Chains
import RtlCores.Uart.LoopbackRest

/-!
# What comes back in loopback

From a reset on, the registers are set up while THR is not written and the line is idle; then
loopback is on, and bytes are written to THR at any time and in any mode of the FIFOs.  The words
that the receiver completes are the bytes that the transmit FIFO has accepted, cut to the word
length, in order and without errors; and if there is a baud clock, they all come back.
-/

namespace RtlCores.Uart

open RtlCores.Lib RtlCores.Modules

/-! ## The words completed in loopback -/

namespace Top

variable {lc : BitVec 8} {d : BitVec 16} {i j : TopIn} {s : Top}

/-- A rise of the baud clock completes the word that the receiver then presents. -/
theorem Looped.completed_period (hi : s.Looped lc d i) (hs : s.uart.Still d)
    (hj : (s.period i).Looped lc d j) :
    (s.period i).completed j =
      if s.uart.rises d then ((s.period i).uart.rx.present 16 lc).map RxOut.bits else none := by
  have hready : ((s.period i).mid j).rxReady =
      ((s.period i).uart.rx.rxDone 16 && !s.uart.rx.rxDone 16) := by
    rw [hj.mid_eq hi.still_period]
    show ((s.period i).uart.rx.rxDone 16 && !(s.period i).uart.rxDoneSet) = _
    rw [hi.rxDoneSet_period hs]
  have hword : ((s.period i).mid j).uart.rx = (s.period i).uart.rx := by
    rw [hj.mid_eq hi.still_period]
    rfl
  rw [completed, hready, hword, hj.lcr]
  cases hrise : s.uart.rises d with
  | false =>
    rw [hi.rx_period hs, hrise, if_neg Bool.false_ne_true, Bool.and_not_self]
    rfl
  | true =>
    rw [if_pos rfl, Rx.present]
    cases hdone : (s.period i).uart.rx.rxDone 16 with
    | false => rfl
    | true =>
      rw [hi.rx_period hs, if_pos hrise] at hdone
      rw [Rx.rxDone_of_clock hdone]
      rfl

end Top

/-! ## Runs in loopback -/

/-- What the transmit FIFO has accepted in the first `n` periods. -/
def Top.sent (is : Nat → TopIn) (s : Top) (n : Nat) : List (BitVec 8) :=
  (trace (fun k ↦ (Top.after is s k).accepted (is k)) 0 n).flatten

theorem Top.sent_succ (is : Nat → TopIn) (s : Top) (n : Nat) :
    Top.sent is s (n + 1) = Top.sent is s n ++ (Top.after is s n).accepted (is n) := by
  rw [sent, trace_succ, List.flatten_append, ← sent, Nat.zero_add]
  exact congrArg _ (List.append_nil _)

/-- What happens outside the transmitter from rise to rise of the baud clock, and what has been
accepted since the last one. -/
def envs (d : BitVec 16) (is : Nat → TopIn) (s : Top) : Nat → List TxEnv × List (BitVec 8)
  | 0 => ([], [])
  | n + 1 =>
    let (es, acc) := envs d is s n
    if (Top.after is s n).uart.rises d then
      (es ++ [Carries.env acc (is n) (Top.after is s n)], [])
    else (es, acc ++ (Top.after is s n).accepted (is n))

section Runs

variable {lc : BitVec 8} {d : BitVec 16} {is : Nat → TopIn} {s : Top} {l : Loop}

theorem envs_succ_of_rises {n : Nat} (h : (Top.after is s n).uart.rises d = true) :
    envs d is s (n + 1) =
      ((envs d is s n).1 ++ [Carries.env (envs d is s n).2 (is n) (Top.after is s n)], []) :=
  if_pos h

theorem envs_succ_of_not_rises {n : Nat} (h : (Top.after is s n).uart.rises d = false) :
    envs d is s (n + 1) =
      ((envs d is s n).1, (envs d is s n).2 ++ (Top.after is s n).accepted (is n)) :=
  if_neg (by rw [h]; exact Bool.false_ne_true)

theorem envs_chain (n : Nat) : (envs d is s n).1 <+: (envs d is s (n + 1)).1 := by
  cases h : (Top.after is s n).uart.rises d with
  | true =>
    rw [envs_succ_of_rises h]
    exact List.prefix_append _ _
  | false =>
    rw [envs_succ_of_not_rises h]

variable (d is s) in
/-- What has been accepted has been enqueued, or is going to be at the next rise. -/
theorem enq_envs (n : Nat) :
    (envs d is s n).1.flatMap TxEnv.enq ++ (envs d is s n).2 = Top.sent is s n := by
  induction n with
  | zero => rfl
  | succ n ih =>
    rw [Top.sent_succ, ← ih]
    cases h : (Top.after is s n).uart.rises d with
    | true =>
      rw [envs_succ_of_rises h, List.flatMap_append, List.append_nil, List.append_assoc]
      exact congrArg _ (List.append_nil _)
    | false => rw [envs_succ_of_not_rises h, List.append_assoc]

/-- The core follows `Loop` through the rises. -/
theorem carries_run (h : Carries lc d l [] s)
    (hlooped : ∀ n, (Top.after is s n).Looped lc d (is n)) (n : Nat) :
    Carries lc d ((envs d is s n).1.foldl (fun l e ↦ l.step 16 lc e) l) (envs d is s n).2
      (Top.after is s n) := by
  induction n with
  | zero => exact h
  | succ n ih =>
    cases hrise : (Top.after is s n).uart.rises d with
    | true =>
      rw [envs_succ_of_rises hrise, List.foldl_append]
      exact ih.period_of_rises (hlooped n) hrise
    | false =>
      rw [envs_succ_of_not_rises hrise]
      exact ih.period_of_not_rises (hlooped n) hrise

end Runs

/-! ## The stream of the rises -/

namespace Loop

variable {lc : BitVec 8}

theorem holds_rested (lc : BitVec 8) (x : Tx) (y : Rx) (k : Nat) :
    TxLine.Holds lc (rested lc x y k).line := by
  induction k with
  | zero => exact ⟨Tx.settled_reset x, fun h ↦ absurd h (show ¬true = false by decide)⟩
  | succ k ih => exact ih.step 16 .idle

theorem received_congr {es es' : Nat → TxEnv} {n : Nat} (h : ∀ k < n, es k = es' k)
    (x : Tx) (y : Rx) : received 16 lc es x y n = received 16 lc es' x y n := by
  induction n with
  | zero => rfl
  | succ n ih =>
    have hrun := run_congr (step 16 lc) (init 16 x y) fun k hk ↦ h k (Nat.lt_succ_of_lt hk)
    rw [received, emitted, ← received, ih fun k hk ↦ h k (Nat.lt_succ_of_lt hk), hrun]
    rfl

theorem received_add_one (es : Nat → TxEnv) (x : Tx) (y : Rx) (n : Nat) :
    received 16 lc es x y (n + 1) = received 16 lc es x y n ++
      ((run (step 16 lc) es (init 16 x y) n).rx.present 16 lc).toList := rfl

/-- What has been received when a segment ends has been sent in the segments. -/
theorem received_segStart_sixteen (es : Nat → TxEnv) (x : Tx) (y : Rx) (n : Nat) :
    received 16 lc es x y (TxLine.segStart 16 lc es x n + 1) =
      ((List.range n).filterMap (TxLine.segSent 16 lc es x)).map (echo lc) :=
  (received_segStart (k := 4) es x y (by decide) n).2

/-- What is received comes from what has been enqueued by then. -/
theorem received_prefix (lc : BitVec 8) (es : Nat → TxEnv) (x : Tx) (y : Rx) (t : Nat) :
    received 16 lc es x y (t + 1) <+: (TxLine.enqueued es 0 t).map (echo lc) := by
  -- what happens from `t` on does not matter, so nothing does
  let es' : Nat → TxEnv := fun m ↦ if m < t then es m else .idle
  have hsame : ∀ m < t, es m = es' m := fun m hm ↦ (if_pos hm).symm
  have hfin : ∀ m, t ≤ m → (es' m).enq = [] := by
    intro m hm
    show (if m < t then es m else TxEnv.idle).enq = []
    rw [if_neg (Nat.not_lt.mpr hm)]
    rfl
  have hwords : received 16 lc es x y (t + 1) = received 16 lc es' x y (t + 1) := by
    rw [received_add_one, received_add_one, received_congr hsame,
      run_congr (step 16 lc) (init 16 x y) hsame]
  have henq : TxLine.enqueued es 0 t = TxLine.enqueued es' 0 t := by
    rw [TxLine.enqueued, TxLine.enqueued]
    congr 1
    refine List.map_congr_left fun m hm ↦ ?_
    rw [Nat.zero_add]
    exact hsame m (List.mem_range.mp hm)
  have hle : t + 1 ≤ TxLine.segStart 16 lc es' x (t + 1) :=
    TxLine.le_segStart (k := 4) lc es' x (t + 1)
  rw [hwords, henq]
  refine (received_mono 16 lc es' x y (Nat.le_succ_of_le hle)).trans ?_
  rw [received_segStart_sixteen]
  exact (sent_le_enqueued (k := 4) es' x (by decide) hfin (t + 1)).map _

/-- When nothing more is enqueued, everything comes back. -/
theorem exists_received (lc : BitVec 8) {es : Nat → TxEnv} (x : Tx) (y : Rx) {t : Nat}
    (hfin : ∀ m, t ≤ m → (es m).enq = []) :
    ∃ m, ∀ n, m ≤ n → received 16 lc es x y (n + 1) = (TxLine.enqueued es 0 t).map (echo lc) := by
  obtain ⟨i, -, hall⟩ := TxLine.exists_segSent_append (k := 4) lc es x (by decide) _ t
    List.prefix_rfl
  rw [TxLine.segSent_order (k := 4) lc es x (by decide)] at hall
  have hquiet : ∀ n, t ≤ n → TxLine.enqueued es 0 n = TxLine.enqueued es 0 t := by
    rintro n hn
    obtain ⟨c, rfl⟩ := Nat.exists_eq_add_of_le hn
    exact enqueued_of_quiet es hfin c
  rw [hquiet _ (TxLine.le_segStart (k := 4) lc es x t)] at hall
  refine ⟨max t (TxLine.segStart 16 lc es x i), fun n hn ↦ ?_⟩
  have hprefix := received_prefix lc es x y n
  rw [hquiet n ((le_max_left _ _).trans hn)] at hprefix
  have hlater := received_mono 16 lc es x y (Nat.succ_le_succ ((le_max_right _ _).trans hn))
  rw [received_segStart_sixteen] at hlater
  exact hprefix.eq_of_length_le ((hall.map (echo lc)).length_le.trans hlater.length_le)

/-- Nothing is received while nothing is sent. -/
theorem received_idle {es : Nat → TxEnv} {n : Nat} (h : ∀ k < n, es k = .idle) (x : Tx) (y : Rx) :
    received 16 lc es x y (n + 1) = [] := by
  induction n with
  | zero =>
    rw [received_add_one, run_zero, Rx.present_of_idle (idle_init x y).rx]
    rfl
  | succ n ih =>
    have hrun := run_congr (step 16 lc) (init 16 x y) h
    have hidle : (run (step 16 lc) es (init 16 x y) (n + 1)).rx.rxFsm = .idle := by
      rw [hrun]
      exact (idle_rested lc x y (n + 1)).rx
    rw [received_add_one, ih fun k hk ↦ h k (Nat.lt_succ_of_lt hk), Rx.present_of_idle hidle]
    rfl

end Loop

section Stream

variable {lc : BitVec 8} {d : BitVec 16} {is : Nat → TopIn} {s : Top}

/-- A core in which nothing has been sent follows `Loop` after some ticks of its own. -/
theorem Top.Resting.carries (h : s.Resting lc) (hs : s.uart.Still d) {x : Tx} {y : Rx} {j : Nat}
    (hj : ⟨⟨s.uart.tx, []⟩, s.uart.rx⟩ = Loop.rested lc x y j) :
    Carries lc d (Loop.rested lc x y j) [] s := by
  have hidle := Loop.idle_rested lc x y j
  constructor
  case holds => exact Loop.holds_rested lc x y j
  case fifos => exact h.fifos
  case still => exact hs
  case tx => exact congrArg (fun l ↦ l.line.tx) hj
  case rx => exact congrArg Loop.rx hj
  case queue =>
    rw [h.empty, hidle.queue, List.tail_nil, ite_self]
    rfl
  case fresh => exact fun _ _ ↦ rfl
  case sync =>
    rintro - -
    rw [h.uart.sync, TxLine.level, Tx.txDout, hidle.tx]
    rfl

/-- The ticks before, and those since. -/
def ticks (d : BitVec 16) (is : Nat → TopIn) (s : Top) (j n : Nat) : List TxEnv :=
  List.replicate j .idle ++ (envs d is s n).1

variable (d is s) in
theorem ticks_chain (j n : Nat) : ticks d is s j n <+: ticks d is s j (n + 1) :=
  List.prefix_append_right_inj _ |>.mpr (envs_chain n)

theorem length_ticks_of_rises {j n : Nat} (h : (Top.after is s n).uart.rises d = true) :
    (ticks d is s j (n + 1)).length = (ticks d is s j n).length + 1 := by
  rw [ticks, ticks, envs_succ_of_rises h, ← List.append_assoc, List.length_append]
  rfl

theorem flatMap_ticks (j n : Nat) :
    (ticks d is s j n).flatMap TxEnv.enq = (envs d is s n).1.flatMap TxEnv.enq := by
  have hnone : (List.replicate j TxEnv.idle).flatMap TxEnv.enq = [] := by
    rw [List.flatMap_eq_nil_iff]
    intro e he
    rw [List.eq_of_mem_replicate he]
    rfl
  rw [ticks, List.flatMap_append, hnone, List.nil_append]

/-- The stream `es` of what happens at the ticks makes of `Loop` what the core does. -/
structure Follows (lc : BitVec 8) (d : BitVec 16) (is : Nat → TopIn) (s : Top) (es : Nat → TxEnv)
    (x : Tx) (y : Rx) (j : Nat) : Prop where
  stream : ∀ n, ticks d is s j n = trace es 0 (ticks d is s j n).length
  words : ∀ n, emitted (fun i s ↦ s.completed i) (fun i s ↦ s.period i) is s (n + 1) =
    (Loop.received 16 lc es x y ((ticks d is s j n).length + 1)).map RxOut.bits

theorem foldl_ticks (x : Tx) (y : Rx) (j n : Nat) :
    (ticks d is s j n).foldl (fun l e ↦ l.step 16 lc e) (Loop.init 16 x y) =
      (envs d is s n).1.foldl (fun l e ↦ l.step 16 lc e) (Loop.rested lc x y j) := by
  have hidle : trace (fun _ ↦ TxEnv.idle) 0 j = List.replicate j .idle :=
    trace_eq_replicate fun _ _ ↦ rfl
  rw [ticks, List.foldl_append, ← hidle, foldl_trace]
  rfl

theorem exists_follows (h : s.Resting lc) (hs : s.uart.Still d)
    (hlooped : ∀ n, (Top.after is s n).Looped lc d (is n)) :
    ∃ es x y j, Follows lc d is s es x y j := by
  obtain ⟨x, y, j, hj⟩ := h.uart.rested
  have : Inhabited TxEnv := ⟨.idle⟩
  obtain ⟨es, hes⟩ := exists_stream (ticks_chain d is s j)
  have hcarries := carries_run (h.carries hs hj) hlooped
  have hrun : ∀ n, run (Loop.step 16 lc) es (Loop.init 16 x y) (ticks d is s j n).length =
      (envs d is s n).1.foldl (fun l e ↦ l.step 16 lc e) (Loop.rested lc x y j) := by
    intro n
    rw [← foldl_trace, ← hes, foldl_ticks]
  refine ⟨es, x, y, j, hes, fun n ↦ ?_⟩
  induction n with
  | zero =>
    have hidle : ∀ k < j, es k = .idle := by
      intro k hk
      have hfirst := congrArg (·[k]?) (hes 0)
      simpa [ticks, envs, trace, hk] using hfirst.symm
    have hready : (s.mid (is 0)).rxReady = false := by
      have hfirst : s.Looped lc d (is 0) := hlooped 0
      rw [hfirst.mid_eq hs]
      show (s.uart.rxDone && _) = false
      rw [h.uart.rxDone, Bool.false_and]
    have hlen : (ticks d is s j 0).length = j := by
      rw [ticks, envs, List.append_nil, List.length_replicate]
    rw [hlen, Loop.received_idle hidle, emitted, run_zero, Top.completed, hready,
      if_neg Bool.false_ne_true]
    rfl
  | succ n ih =>
    rw [emitted, ih, run_succ, (hlooped n).completed_period (hcarries n).still (hlooped (n + 1))]
    cases hrise : (Top.after is s n).uart.rises d with
    | false =>
      have hlen : ticks d is s j (n + 1) = ticks d is s j n := by
        rw [ticks, ticks, envs_succ_of_not_rises hrise]
      rw [if_neg Bool.false_ne_true, hlen]
      exact List.append_nil _
    | true =>
      have hlen := length_ticks_of_rises (j := j) hrise
      have hrx : (Top.after is s (n + 1)).uart.rx =
          (run (Loop.step 16 lc) es (Loop.init 16 x y) (ticks d is s j (n + 1)).length).rx := by
        rw [hrun]
        exact (hcarries (n + 1)).rx
      rw [if_pos rfl, Loop.received_add_one _ _ _ (ticks d is s j (n + 1)).length, hlen,
        List.map_append, ← hlen, ← hrx]
      congr 1
      show (Option.map RxOut.bits ((Top.after is s (n + 1)).uart.rx.present 16 lc)).toList = _
      cases (Top.after is s (n + 1)).uart.rx.present 16 lc <;> rfl

/-- The word that comes back for a byte. -/
def echoBits (lc : BitVec 8) (b : BitVec 8) : BitVec 10 := (Loop.echo lc b).bits

namespace Follows

variable {es : Nat → TxEnv} {x : Tx} {y : Rx} {j : Nat}

/-- What has been enqueued at the ticks so far has been accepted. -/
theorem enqueued_prefix (h : Follows lc d is s es x y j) (n : Nat) :
    TxLine.enqueued es 0 (ticks d is s j n).length <+: Top.sent is s n := by
  rw [TxLine.enqueued, ← h.stream n, flatMap_ticks, ← enq_envs d]
  exact List.prefix_append _ _

/-- What comes back is the beginning of what has been sent. -/
theorem completed_prefix (h : Follows lc d is s es x y j) (n : Nat) :
    emitted (fun i s ↦ s.completed i) (fun i s ↦ s.period i) is s (n + 1) <+:
      (Top.sent is s n).map (echoBits lc) := by
  rw [h.words]
  refine ((Loop.received_prefix lc es x y _).map RxOut.bits).trans ?_
  rw [List.map_map]
  exact (h.enqueued_prefix n).map _

theorem sent_of_quiet {N : Nat} (hquiet : ∀ n, N ≤ n → (Top.after is s n).accepted (is n) = [])
    {n : Nat} (hn : N ≤ n) : Top.sent is s n = Top.sent is s N := by
  induction n, hn using Nat.le_induction with
  | base => rfl
  | succ n hn ih => rw [Top.sent_succ, ih, hquiet n hn, List.append_nil]

/-- After the first rise when nothing more is accepted, nothing more is enqueued. -/
theorem enq_of_quiet (h : Follows lc d is s es x y j)
    (hgrows : ∀ k, ∃ n, k ≤ (ticks d is s j n).length) {N n : Nat}
    (hquiet : ∀ n, N ≤ n → (Top.after is s n).accepted (is n) = []) (hn : N ≤ n)
    (hrise : (Top.after is s n).uart.rises d = true) :
    (ticks d is s j (n + 1)).flatMap TxEnv.enq = Top.sent is s N ∧
      ∀ m, (ticks d is s j (n + 1)).length ≤ m → (es m).enq = [] := by
  have hall : (ticks d is s j (n + 1)).flatMap TxEnv.enq = Top.sent is s N := by
    have henq := enq_envs d is s (n + 1)
    rw [show (envs d is s (n + 1)).2 = [] by rw [envs_succ_of_rises hrise], List.append_nil,
      sent_of_quiet hquiet (Nat.le_succ_of_le hn)] at henq
    rw [flatMap_ticks, henq]
  refine ⟨hall, fun m hm ↦ ?_⟩
  obtain ⟨n', hn'⟩ := hgrows (m + 1)
  have hlater : n + 1 ≤ n' := by
    by_contra hlt
    have hle := (prefix_of_chain (ticks_chain d is s j)
      (Nat.le_of_lt (Nat.lt_of_not_le hlt))).length_le
    omega
  -- the ticks since then have enqueued nothing
  obtain ⟨rest, hrest⟩ := prefix_of_chain (ticks_chain d is s j) hlater
  have hnone : rest.flatMap TxEnv.enq = [] := by
    have henq := enq_envs d is s n'
    rw [sent_of_quiet hquiet (hn.trans (Nat.le_of_succ_le hlater)), ← flatMap_ticks j, ← hrest,
      List.flatMap_append, hall, List.append_assoc] at henq
    exact (List.append_eq_nil_iff.mp (List.append_right_eq_self.mp henq)).1
  have hmem : es m ∈ rest := by
    have hget : (ticks d is s j n')[m]? = some (es m) := by
      rw [h.stream n', trace, List.getElem?_map, List.getElem?_range hn', Option.map_some,
        Nat.zero_add]
    rw [← hrest, List.getElem?_append_right hm] at hget
    exact List.mem_of_getElem? hget
  exact List.flatMap_eq_nil_iff.mp hnone _ hmem

/-- If the baud clock goes on rising and nothing more is accepted, everything comes back. -/
theorem completed_all (h : Follows lc d is s es x y j)
    (hrises : ∀ n, ∃ m, n ≤ m ∧ (Top.after is s m).uart.rises d = true) {N : Nat}
    (hquiet : ∀ n, N ≤ n → (Top.after is s n).accepted (is n) = []) :
    ∃ M, ∀ n, M ≤ n → emitted (fun i s ↦ s.completed i) (fun i s ↦ s.period i) is s n =
      (Top.sent is s N).map (echoBits lc) := by
  have hchain := ticks_chain d is s j
  have hgrows : ∀ k, ∃ n, k ≤ (ticks d is s j n).length := by
    refine exists_length_ge hchain fun n ↦ ?_
    obtain ⟨m, hm, hrise⟩ := hrises n
    refine ⟨m, hm, ?_⟩
    rw [length_ticks_of_rises hrise]
    exact Nat.lt_succ_self _
  obtain ⟨n, hn, hrise⟩ := hrises N
  obtain ⟨hall, hnone⟩ := h.enq_of_quiet hgrows hquiet hn hrise
  obtain ⟨m, hm⟩ := Loop.exists_received lc x y hnone
  have henq : TxLine.enqueued es 0 (ticks d is s j (n + 1)).length = Top.sent is s N := by
    rw [TxLine.enqueued, ← h.stream, hall]
  obtain ⟨n', hn'⟩ := hgrows m
  refine ⟨n' + 1, fun k hk ↦ ?_⟩
  obtain ⟨k, rfl⟩ : ∃ k', k = k' + 1 := ⟨k - 1, by omega⟩
  have hlater := (prefix_of_chain hchain (Nat.le_of_succ_le_succ hk)).length_le
  have hback : Loop.received 16 lc es x y ((ticks d is s j k).length + 1) =
      (Top.sent is s N).map (Loop.echo lc) := by
    rw [← henq]
    exact hm _ (hn'.trans hlater)
  rw [h.words, hback, List.map_map]
  rfl

end Follows

end Stream

/-! ## From a reset on -/

namespace Top

variable {lc : BitVec 8} {d : BitVec 16} {is : Nat → TopIn} {s : Top} {m : Nat}

/-- After any period `baudout` has the level of its generator. -/
theorem still_divisor_period (i : TopIn) (s : Top) :
    (s.period i).uart.Still (s.period i).divisor :=
  UartUut.settle_baudout (s := ((s.mid i).posedge i).uart) (i := (s.period i).uartIn i)

theorem AfterReset.still (h : AfterReset s) : s.uart.Still s.divisor := by
  obtain ⟨s₀, i, j, -, -, rfl⟩ := h
  exact still_divisor_period j _

theorem AfterReset.still_after (h : AfterReset s) (is : Nat → TopIn) (n : Nat) :
    (after is s n).uart.Still (after is s n).divisor := by
  cases n with
  | zero => exact h.still
  | succ n => exact still_divisor_period (is n) (after is s n)

/-- The baud clock goes on rising if there is one. -/
theorem exists_rises (hlooped : ∀ n, (after is s n).Looped lc d (is n)) (hs : s.uart.Still d)
    (hd : d ≠ 0) (n : Nat) : ∃ m, n ≤ m ∧ (after is s m).uart.rises d = true := by
  have hstill : ∀ k, (after is s k).uart.Still d := by
    intro k
    cases k with
    | zero => exact hs
    | succ k => exact (hlooped k).still_period
  have hgen : ∀ k, (after is s (n + k)).uart.baudGen =
      (ClockDivider.clock d)^[k] (after is s n).uart.baudGen := by
    intro k
    induction k with
    | zero => rfl
    | succ k ih =>
      rw [Function.iterate_succ_apply', ← ih]
      exact (hlooped (n + k)).baudGen_period (hstill (n + k))
  have hne : d.toNat ≠ 0 := fun h ↦ hd (BitVec.eq_of_toNat_eq h)
  obtain ⟨k, hlow, hhigh⟩ := ClockDivider.exists_rise hne true (after is s n).uart.baudGen
  refine ⟨n + k, Nat.le_add_right n k, ?_⟩
  rw [Function.iterate_succ_apply', ← hgen k] at hhigh
  rw [UartUut.rises, hhigh, hgen k, hlow]
  rfl

/-- Nothing is sent or received while the core is set up. -/
theorem AfterReset.resting_after (h : AfterReset s) (lc : BitVec 8)
    (hset : ∀ n < m, (after is s n).SetsUp (is n)) {n : Nat} (hn : n ≤ m) :
    (after is s n).Resting lc ∧ sent is s n = [] ∧
      emitted (fun i s ↦ s.completed i) (fun i s ↦ s.period i) is s n = [] := by
  induction n with
  | zero => exact ⟨h.resting lc, rfl, rfl⟩
  | succ n ih =>
    obtain ⟨hrest, hsent, hemitted⟩ := ih (Nat.le_of_succ_le hn)
    have hi := hset n hn
    have hnone : (after is s n).completed (is n) = none := hrest.completed hi
    refine ⟨hrest.period hi, ?_, ?_⟩
    · rw [sent_succ, hsent, Resting.accepted hi]
      rfl
    · rw [emitted, hemitted]
      exact congrArg Option.toList hnone

theorem sent_add (is : Nat → TopIn) (s : Top) (m n : Nat) :
    sent is s (m + n) = sent is s m ++ sent (fun k ↦ is (m + k)) (after is s m) n := by
  induction n with
  | zero => exact (List.append_nil _).symm
  | succ n ih =>
    have hafter : after is s (m + n) = after (fun k ↦ is (m + k)) (after is s m) n :=
      run_add _ is s m n
    rw [← Nat.add_assoc, sent_succ, ih, sent_succ, hafter, List.append_assoc]

/-- Once the core has been set up, it stays set up. -/
theorem looped_after (hloop : s.InLoop lc d) (hkeeps : ∀ n, KeepsSetUp (is n)) (n : Nat) :
    (after is s n).Looped lc d (is n) := by
  have hin : (after is s n).InLoop lc d := by
    induction n with
    | zero => exact hloop
    | succ n ih =>
      have hlooped : (after is s n).Looped lc d (is n) := ⟨ih, hkeeps n⟩
      exact hlooped.inLoop_period
  exact ⟨hin, hkeeps n⟩

/-- In a run that starts with a reset and sets the core up for loopback, and from then on writes
neither LCR nor MCR, the words that come back are the bytes accepted, cut to the word length, in
order and without errors, and each comes back after it has been accepted; with a divisor all of
them come back, once no more are accepted. -/
theorem loopback_returns (is : Nat → TopIn) (s : Top) (m : Nat) (hs : AfterReset s)
    (hset : ∀ n < m, (after is s n).SetsUp (is n)) (hloop : (after is s m).InLoop lc d)
    (hkeeps : ∀ n, m ≤ n → KeepsSetUp (is n)) :
    (∀ n, emitted (fun i s ↦ s.completed i) (fun i s ↦ s.period i) is s (n + 1) <+:
      (sent is s n).map (echoBits lc)) ∧
    (d ≠ 0 → (∃ N, ∀ n, N ≤ n → (after is s n).accepted (is n) = []) →
      ∃ M, ∀ n, M ≤ n → emitted (fun i s ↦ s.completed i) (fun i s ↦ s.period i) is s n =
        (sent is s n).map (echoBits lc)) := by
  obtain ⟨hrest, hsent, hemitted⟩ := hs.resting_after lc hset le_rfl
  have hstill : (after is s m).uart.Still d := by
    have hany := hs.still_after is m
    rwa [hloop.divisor] at hany
  have hkeeps' : ∀ k, KeepsSetUp (is (m + k)) := fun k ↦ hkeeps (m + k) (Nat.le_add_right m k)
  have hlooped := looped_after hloop hkeeps'
  obtain ⟨es, x, y, j, hfollows⟩ := exists_follows hrest hstill hlooped
  have hshift : ∀ k, emitted (fun i s ↦ s.completed i) (fun i s ↦ s.period i) is s (m + k) =
      emitted (fun i s ↦ s.completed i) (fun i s ↦ s.period i) (fun k ↦ is (m + k))
        (after is s m) k := by
    intro k
    rw [emitted_add, hemitted]
    rfl
  have hsentShift : ∀ k, sent is s (m + k) = sent (fun k ↦ is (m + k)) (after is s m) k := by
    intro k
    rw [sent_add, hsent, List.nil_append]
  constructor
  · intro n
    rcases Nat.lt_or_ge n m with hn | hn
    · rw [(hs.resting_after lc hset (Nat.succ_le_of_lt hn)).2.2]
      exact List.nil_prefix
    · obtain ⟨k, rfl⟩ := Nat.exists_eq_add_of_le hn
      rw [Nat.add_assoc, hshift, hsentShift]
      exact hfollows.completed_prefix k
  · rintro hd ⟨N, hquiet⟩
    have hquiet' : ∀ k, N ≤ k →
        (after (fun k ↦ is (m + k)) (after is s m) k).accepted (is (m + k)) = [] := by
      intro k hk
      have hafter : after is s (m + k) = after (fun k ↦ is (m + k)) (after is s m) k :=
        run_add _ is s m k
      rw [← hafter]
      exact hquiet (m + k) (hk.trans (Nat.le_add_left k m))
    obtain ⟨M, hM⟩ := hfollows.completed_all (exists_rises hlooped hstill hd) hquiet'
    refine ⟨m + max M N, fun n hn ↦ ?_⟩
    obtain ⟨k, rfl⟩ := Nat.exists_eq_add_of_le ((Nat.le_add_right m _).trans hn)
    have hk := Nat.le_of_add_le_add_left hn
    rw [hshift, hsentShift, hM k ((le_max_left M N).trans hk),
      Follows.sent_of_quiet hquiet' ((le_max_right M N).trans hk)]

/-- The core is set up for words of eight bits with even parity and for a clock that is not
divided. -/
def echoSetup : List TopIn :=
  [writePorts true regLcr 0x80, writePorts true regDll 1, writePorts true regDlm 0,
    writePorts true regLcr 0x1B, writePorts true regMcr 0x10]

/-- Two bytes are written to THR in 16450 mode. -/
def echoTest (n : Nat) : TopIn :=
  echoSetup[n]?.getD (if n = 5 ∨ n = 900 then writePorts (n == 5) regThr (BitVec.ofNat 8 n)
    else idlePorts (n % 2 == 0))

theorem keepsSetUp_echoTest {n : Nat} (hn : 5 ≤ n) : KeepsSetUp (echoTest n) := by
  rw [echoTest, List.getElem?_eq_none hn, Option.getD_none]
  split
  · exact ⟨rfl, fun _ ↦ ⟨(by decide : regThr ≠ regLcr), (by decide : regThr ≠ regMcr)⟩,
      fun _ haddr ↦ absurd haddr (by decide : regThr ≠ regFcr)⟩
  · exact ⟨rfl, fun h ↦ absurd h (by simp [idlePorts, wen]),
      fun h ↦ absurd h (by simp [idlePorts, wen])⟩

theorem accepted_echoTest {n : Nat} (hn : 901 ≤ n) : s.accepted (echoTest n) = [] := by
  refine accepted_of_not_thrWr ?_
  have hlen : echoSetup.length ≤ n := (by decide : 5 ≤ 901).trans hn
  rw [echoTest, List.getElem?_eq_none hlen, Option.getD_none, if_neg (by omega)]
  rfl

theorem loopback_returns_echoTest :
    ∃ M, ∀ n, M ≤ n →
      emitted (fun i s ↦ s.completed i) (fun i s ↦ s.period i) echoTest poweredUp n =
        (sent echoTest poweredUp n).map (echoBits 0x1B) :=
  (loopback_returns (d := 1) echoTest poweredUp 5 afterReset_poweredUp
    (fun n hn ↦ by interval_cases n <;> exact ⟨rfl, rfl, rfl⟩)
    ⟨rfl, rfl, rfl, rfl, fun _ hk ↦ by rcases hk with rfl | rfl <;> rfl⟩
    fun _ hn ↦ keepsSetUp_echoTest hn).2 (by decide) ⟨901, fun _ hn ↦ accepted_echoTest hn⟩

end Top

end RtlCores.Uart
