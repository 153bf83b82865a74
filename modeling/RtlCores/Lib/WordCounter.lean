import Mathlib.Data.Nat.Count

/-!
# Counters that mark the ends of words

A serial line delivers pulses, `n` to a word.  A counter of the pulses marks the end of a word by
standing at `n`; the pulse after that, or a clear in between, takes it back to 0.  A flag is
raised by the mark, as a level, and lowered by a read.  When the marks and the flag are right
about every word is a matter of when the counter is cleared and the flag is read.
-/

namespace RtlCores.Lib

variable {n : Nat} {bit clear rd : Nat → Bool} {c : Nat → Nat} {flag : Nat → Bool} {l t : Nat}

/-! ## Pulses and words -/

/-- The number of pulses before step `t`. -/
def pulses (bit : Nat → Bool) (t : Nat) : Nat := Nat.count (fun r ↦ bit r = true) t

/-- `k` pulses make up some number of words of `n`, and at least one. -/
def WordEnd (n k : Nat) : Prop := 0 < k ∧ n ∣ k

/-- Step `t` has the last pulse of a word. -/
structure EndsWord (n : Nat) (bit : Nat → Bool) (t : Nat) : Prop where
  pulse : bit t = true
  dvd : n ∣ pulses bit (t + 1)

@[simp] theorem pulses_zero (bit : Nat → Bool) : pulses bit 0 = 0 := Nat.count_zero _

theorem pulses_le (bit : Nat → Bool) (h : l ≤ t) : pulses bit l ≤ pulses bit t :=
  Nat.count_monotone _ h

theorem pulses_succ_of_bit (h : bit t = true) : pulses bit (t + 1) = pulses bit t + 1 := by
  rw [pulses, Nat.count_succ, if_pos h]
  rfl

theorem pulses_succ_of_not (h : bit t = false) : pulses bit (t + 1) = pulses bit t := by
  rw [pulses, Nat.count_succ, if_neg (by simp [h])]
  rfl

theorem pulses_succ_le (bit : Nat → Bool) (t : Nat) : pulses bit (t + 1) ≤ pulses bit t + 1 := by
  cases h : bit t with
  | true => exact (pulses_succ_of_bit h).le
  | false => exact (pulses_succ_of_not h).le.trans (Nat.le_succ _)

theorem EndsWord.pulses_succ (h : EndsWord n bit t) : pulses bit (t + 1) = pulses bit t + 1 :=
  pulses_succ_of_bit h.pulse

theorem EndsWord.wordEnd (h : EndsWord n bit t) : WordEnd n (pulses bit (t + 1)) := by
  refine ⟨?_, h.dvd⟩
  rw [h.pulses_succ]
  exact Nat.succ_pos _

theorem EndsWord.le (h : EndsWord n bit t) : n ≤ pulses bit (t + 1) :=
  Nat.le_of_dvd h.wordEnd.1 h.dvd

/-- Every number of pulses that is reached is reached with a pulse. -/
theorem exists_pulses_succ {k : Nat} (hk : 0 < k) (h : k ≤ pulses bit t) :
    ∃ l < t, bit l = true ∧ pulses bit (l + 1) = k := by
  induction t with
  | zero => exact absurd h (Nat.not_le.mpr hk)
  | succ t ih =>
    rcases Nat.lt_or_ge (pulses bit t) k with hlt | hge
    · have hstep := pulses_succ_le bit t
      have hsucc : pulses bit (t + 1) = k := by omega
      refine ⟨t, Nat.lt_succ_self t, ?_, hsucc⟩
      by_contra hbit
      have hkeep := pulses_succ_of_not (Bool.eq_false_of_not_eq_true hbit)
      omega
    · obtain ⟨l, hl, hbit, hsucc⟩ := ih hge
      exact ⟨l, Nat.lt_succ_of_lt hl, hbit, hsucc⟩

/-- The end of the last complete word. -/
theorem WordEnd.exists_endsWord {k : Nat} (h : WordEnd n k) (hle : k ≤ pulses bit t) :
    ∃ l < t, EndsWord n bit l ∧ pulses bit (l + 1) = k := by
  obtain ⟨l, hl, hbit, hsucc⟩ := exists_pulses_succ h.1 hle
  exact ⟨l, hl, ⟨hbit, hsucc ▸ h.2⟩, hsucc⟩

/-- From the second word on there is a word before. -/
theorem EndsWord.exists_pred (hpos : 0 < n) (h : EndsWord n bit t)
    (hn : n < pulses bit (t + 1)) :
    ∃ l < t, EndsWord n bit l ∧ pulses bit (l + 1) + n = pulses bit (t + 1) := by
  have hword : WordEnd n (pulses bit (t + 1) - n) :=
    ⟨Nat.sub_pos_of_lt hn, Nat.dvd_sub h.dvd (Nat.dvd_refl n)⟩
  obtain ⟨l, hl, hend, hsucc⟩ := hword.exists_endsWord (Nat.sub_le (pulses bit (t + 1)) n)
  have hlt : l < t := by
    rcases Nat.lt_succ_iff_lt_or_eq.mp hl with hlt | rfl
    · exact hlt
    · omega
  exact ⟨l, hlt, hend, by omega⟩

/-- No word ends within another. -/
theorem EndsWord.pulses_add_le (h : EndsWord n bit t) (h' : EndsWord n bit l) (hlt : l < t) :
    pulses bit (l + 1) + n ≤ pulses bit (t + 1) := by
  have hle : pulses bit (l + 1) ≤ pulses bit t := pulses_le bit hlt
  have hsucc := h.pulses_succ
  have hdvd := Nat.dvd_sub h.dvd h'.dvd
  have hpos : 0 < pulses bit (t + 1) - pulses bit (l + 1) := by omega
  have := Nat.le_of_dvd hpos hdvd
  omega

/-! ## The counter -/

/-- A counter of the pulses, which are not counted at `n` or when the counter is cleared. -/
structure WordCounter (n : Nat) (bit clear : Nat → Bool) (c : Nat → Nat) : Prop where
  pos : 0 < n
  zero : c 0 = 0
  disjoint : ∀ t, clear t = true → bit t = false
  step : ∀ t, c (t + 1) =
    if clear t then 0 else if bit t then if c t = n then 0 else c t + 1 else c t

namespace WordCounter

variable (h : WordCounter n bit clear c)

include h

theorem step_of_clear (hclear : clear t = true) : c (t + 1) = 0 := by rw [h.step, if_pos hclear]

theorem not_clear_of_bit (hbit : bit t = true) : ¬clear t = true := by
  intro hclear
  exact absurd (hbit.symm.trans (h.disjoint t hclear)) Bool.false_ne_true.symm

theorem step_of_bit (hbit : bit t = true) : c (t + 1) = if c t = n then 0 else c t + 1 := by
  rw [h.step, if_neg (h.not_clear_of_bit hbit), if_pos hbit]

theorem step_of_not (hclear : clear t = false) (hbit : bit t = false) : c (t + 1) = c t := by
  rw [h.step, hclear, hbit]
  rfl

/-- A step clears the counter, has a pulse or does nothing. -/
theorem step_cases (t : Nat) :
    (clear t = true ∧ pulses bit (t + 1) = pulses bit t ∧ c (t + 1) = 0) ∨
      (bit t = true ∧ pulses bit (t + 1) = pulses bit t + 1 ∧
        c (t + 1) = if c t = n then 0 else c t + 1) ∨
      (clear t = false ∧ bit t = false ∧ pulses bit (t + 1) = pulses bit t ∧ c (t + 1) = c t) := by
  cases hclear : clear t with
  | true => exact .inl ⟨rfl, pulses_succ_of_not (h.disjoint t hclear), h.step_of_clear hclear⟩
  | false =>
    cases hbit : bit t with
    | true => exact .inr (.inl ⟨rfl, pulses_succ_of_bit hbit, h.step_of_bit hbit⟩)
    | false => exact .inr (.inr ⟨rfl, rfl, pulses_succ_of_not hbit, h.step_of_not hclear hbit⟩)

theorem pulses_of_clear (hclear : clear t = true) : pulses bit (t + 1) = pulses bit t :=
  pulses_succ_of_not (h.disjoint t hclear)

/-- The counter is never ahead of the pulses. -/
theorem add_pulses_le (hlt : l ≤ t) : c t + pulses bit l ≤ c l + pulses bit t := by
  induction t, hlt using Nat.le_induction with
  | base => exact le_rfl
  | succ t hlt ih =>
    have hle := pulses_le bit hlt
    rcases h.step_cases t with ⟨-, he, hc⟩ | ⟨-, he, hc⟩ | ⟨-, -, he, hc⟩
    · omega
    · rw [he, hc]
      split <;> omega
    · omega

theorem add_pulses_le_of_clear (hclear : clear l = true) (hlt : l < t) :
    c t + pulses bit l ≤ pulses bit t := by
  have hahead : c t + pulses bit (l + 1) ≤ c (l + 1) + pulses bit t := h.add_pulses_le hlt
  rwa [h.step_of_clear hclear, h.pulses_of_clear hclear, Nat.zero_add] at hahead

/-- From 0 on the counter counts the pulses of a word in which it is not cleared. -/
theorem add_pulses_eq (hzero : c l = 0) (hlt : l ≤ t)
    (hkeep : ∀ r, l ≤ r → r < t → clear r = true → pulses bit r = pulses bit l)
    (hle : pulses bit t ≤ pulses bit l + n) : c t + pulses bit l = pulses bit t := by
  induction t, hlt using Nat.le_induction with
  | base => rw [hzero, Nat.zero_add]
  | succ t hlt ih =>
    have hmono := pulses_le bit (Nat.le_succ t)
    have ih := ih (fun r hr hrt ↦ hkeep r hr (Nat.lt_succ_of_lt hrt)) (hmono.trans hle)
    rcases h.step_cases t with ⟨hclear, he, hc⟩ | ⟨-, he, hc⟩ | ⟨-, -, he, hc⟩
    · have := hkeep t hlt (Nat.lt_succ_self t) hclear
      omega
    · rw [he, hc]
      split <;> omega
    · omega

/-- After the end of a word the counter stands at `n` or 0 until the next pulse, and is not
ahead of the pulses of the next word. -/
theorem after_end (hn : c l = n) (hlt : l ≤ t) :
    (pulses bit t = pulses bit l ∧ (c t = n ∨ c t = 0)) ∨
      (pulses bit l < pulses bit t ∧ c t + pulses bit l ≤ pulses bit t) := by
  induction t, hlt using Nat.le_induction with
  | base => exact .inl ⟨rfl, .inl hn⟩
  | succ t hlt ih =>
    rcases h.step_cases t with ⟨-, he, hc⟩ | ⟨-, he, hc⟩ | ⟨-, -, he, hc⟩
    · rw [he, hc]
      rcases ih with ⟨heq, -⟩ | ⟨hlt, -⟩
      · exact .inl ⟨heq, .inr rfl⟩
      · exact .inr ⟨hlt, by omega⟩
    · rw [he, hc]
      refine .inr ?_
      split <;> omega
    · rwa [he, hc]

/-- Without a clear after the end of a word, the next one is counted one behind. -/
theorem behind (hn : c l = n) (hlt : l ≤ t)
    (hno : ∀ r, l ≤ r → r < t → clear r = true → pulses bit r ≠ pulses bit l) :
    (pulses bit t = pulses bit l ∧ c t = n) ∨ c t + pulses bit l + 1 ≤ pulses bit t := by
  induction t, hlt using Nat.le_induction with
  | base => exact .inl ⟨rfl, hn⟩
  | succ t hlt ih =>
    have ih := ih fun r hr hrt ↦ hno r hr (Nat.lt_succ_of_lt hrt)
    have hmono := pulses_le bit hlt
    rcases h.step_cases t with ⟨hclear, he, hc⟩ | ⟨-, he, hc⟩ | ⟨-, -, he, hc⟩
    · have := hno t hlt (Nat.lt_succ_self t) hclear
      exact .inr (by omega)
    · rw [he, hc]
      refine .inr ?_
      rcases ih with ⟨heq, hfull⟩ | hle
      · rw [if_pos hfull]
        omega
      · split <;> omega
    · rwa [he, hc]

end WordCounter

/-! ## Right marks -/

/-- The counter stands at `n` after the last pulse of each word, and only between words. -/
structure Marks (n : Nat) (bit : Nat → Bool) (c : Nat → Nat) : Prop where
  mark : ∀ t, EndsWord n bit t → c (t + 1) = n
  wordEnd : ∀ t, c (t + 1) = n → WordEnd n (pulses bit (t + 1))

/-- The counter is cleared before the word that ends in step `t`, unless it is the first, and
not while it lasts. -/
structure ClearedFor (n : Nat) (bit clear : Nat → Bool) (t : Nat) : Prop where
  before : n < pulses bit (t + 1) →
    ∃ r < t, clear r = true ∧ pulses bit r + n = pulses bit (t + 1)
  within : ∀ r < t, clear r = true → pulses bit r + n ≤ pulses bit (t + 1)

/-- The last pulse before step `t` ended a word and there was no clear since. -/
structure Ended (n : Nat) (bit clear : Nat → Bool) (t : Nat) : Prop where
  wordEnd : WordEnd n (pulses bit t)
  kept : ∀ r < t, clear r = true → pulses bit r ≠ pulses bit t

namespace WordCounter

variable (h : WordCounter n bit clear c)

include h

theorem mark_of_clearedFor (hend : EndsWord n bit t) (hclear : ClearedFor n bit clear t) :
    c (t + 1) = n := by
  have hle := hend.le
  -- the word is counted from the clear before it, or from the start
  obtain ⟨l, hlt, hzero, hl⟩ : ∃ l ≤ t, c l = 0 ∧ pulses bit l + n = pulses bit (t + 1) := by
    rcases Nat.lt_or_ge n (pulses bit (t + 1)) with hmore | hfirst
    · obtain ⟨r, hr, hcr, he⟩ := hclear.before hmore
      exact ⟨r + 1, hr, h.step_of_clear hcr, by rw [h.pulses_of_clear hcr, he]⟩
    · refine ⟨0, Nat.zero_le t, h.zero, ?_⟩
      rw [pulses_zero]
      omega
  have hcount := h.add_pulses_eq hzero (Nat.le_add_right_of_le hlt) ?_ hl.ge
  · omega
  · intro r hr hrt hcr
    have hmono := pulses_le bit hr
    rcases Nat.lt_succ_iff_lt_or_eq.mp hrt with hrt | rfl
    · have := hclear.within r hrt hcr
      omega
    · exact absurd hcr (h.not_clear_of_bit hend.pulse)

theorem wordEnd_of_mark (hmark : ∀ t, EndsWord n bit t → c (t + 1) = n) (hn : c t = n) :
    WordEnd n (pulses bit t) := by
  have hpos := h.pos
  have hahead := h.add_pulses_le (Nat.zero_le t)
  rw [h.zero, pulses_zero] at hahead
  have hle : n ≤ pulses bit t := by omega
  -- the last word that is complete
  have hword : WordEnd n (n * (pulses bit t / n)) :=
    ⟨Nat.mul_pos hpos (Nat.div_pos hle hpos), Nat.dvd_mul_right _ _⟩
  obtain ⟨l, hl, hend, he⟩ := hword.exists_endsWord (Nat.mul_div_le _ _)
  have hmod := Nat.mod_lt (pulses bit t) hpos
  have hdiv := Nat.div_add_mod (pulses bit t) n
  rcases h.after_end (hmark l hend) hl with ⟨heq, -⟩ | ⟨-, hbehind⟩
  · rw [heq]
    exact hend.wordEnd
  · omega

theorem clearedFor_of_mark (hmark : ∀ t, EndsWord n bit t → c (t + 1) = n)
    (hend : EndsWord n bit t) : ClearedFor n bit clear t := by
  have hpos := h.pos
  have hn := hmark t hend
  constructor
  case before =>
    intro hmore
    obtain ⟨l, hl, hend', he⟩ := hend.exists_pred hpos hmore
    by_contra hno
    have hbehind := h.behind (t := t + 1) (hmark l hend') (Nat.le_add_right_of_le hl) ?_
    · omega
    · intro r hr hrt hcr heq
      rcases Nat.lt_succ_iff_lt_or_eq.mp hrt with hrt | rfl
      · exact hno ⟨r, hrt, hcr, by rw [heq, he]⟩
      · exact absurd hcr (h.not_clear_of_bit hend.pulse)
  case within =>
    intro r hr hcr
    have hahead := h.add_pulses_le_of_clear hcr (Nat.lt_succ_of_lt hr)
    rw [Nat.succ_eq_add_one, hn] at hahead
    omega

/-- The marks are right exactly when the counter is cleared for every word. -/
theorem marks_iff : Marks n bit c ↔ ∀ t, EndsWord n bit t → ClearedFor n bit clear t := by
  constructor
  · intro hmarks t hend
    exact h.clearedFor_of_mark hmarks.mark hend
  · intro hclear
    have hmark t (hend : EndsWord n bit t) := h.mark_of_clearedFor hend (hclear t hend)
    exact ⟨hmark, fun t ↦ h.wordEnd_of_mark hmark⟩

/-- A right mark stands until the next pulse or clear. -/
theorem eq_iff (hmarks : Marks n bit c) : c (t + 1) = n ↔ Ended n bit clear (t + 1) := by
  have hpos := h.pos
  constructor
  · intro hn
    refine ⟨hmarks.wordEnd t hn, ?_⟩
    intro r hr hcr heq
    have hahead := h.add_pulses_le_of_clear hcr hr
    omega
  · rintro ⟨hword, hkept⟩
    obtain ⟨l, hl, hend, he⟩ := hword.exists_endsWord le_rfl
    have hno : ∀ r, l + 1 ≤ r → r < t + 1 → clear r = true →
        pulses bit r ≠ pulses bit (l + 1) := by
      intro r _ hrt hcr
      rw [he]
      exact hkept r hrt hcr
    rcases h.behind (hmarks.mark l hend) hl hno with ⟨-, hn⟩ | hbehind
    · exact hn
    · omega

end WordCounter

/-! ## A flag for the end of a word -/

/-- A flag that the mark raises as a level, before and after the pulse of a step, and that is low
while it is read. -/
structure ReadFlag (n : Nat) (rd : Nat → Bool) (c : Nat → Nat) (flag : Nat → Bool) : Prop where
  zero : flag 0 = false
  step : ∀ t, flag (t + 1) = (!rd t && (flag t || decide (c t = n) || decide (c (t + 1) = n)))

/-- The flag rises in step `t`. -/
def Rises (flag : Nat → Bool) (t : Nat) : Prop := flag t = false ∧ flag (t + 1) = true

/-- The flag is read after the end of each word, but not in the step in which a word ends, and no
read ends between that and the next pulse or clear. -/
structure ReadFor (n : Nat) (bit clear rd : Nat → Bool) : Prop where
  once : ∀ t, EndsWord n bit t → n < pulses bit (t + 1) →
    ∃ r < t, rd r = true ∧ pulses bit (t + 1) ≤ pulses bit r + n
  atEnd : ∀ t, EndsWord n bit t → rd t = false
  afterEnd : ∀ t, Ended n bit clear (t + 1) → rd t = true → rd (t + 1) = true

namespace ReadFlag

variable (h : ReadFlag n rd c flag)

include h

theorem eq_false_of_rd (hrd : rd t = true) : flag (t + 1) = false := by
  rw [h.step, hrd]
  rfl

theorem rd_of_rises (hr : Rises flag t) : rd t = false := by
  by_contra hrd
  have hdown := h.eq_false_of_rd (Bool.eq_true_of_not_eq_false hrd)
  exact absurd (hdown.symm.trans hr.2) Bool.false_ne_true

theorem eq_true_of_mark (hrd : rd t = false) (hn : c t = n ∨ c (t + 1) = n) :
    flag (t + 1) = true := by
  rw [h.step, hrd]
  rcases hn with hn | hn
  · rw [decide_eq_true hn, Bool.or_true]
    rfl
  · rw [decide_eq_true hn, Bool.or_true]
    rfl

/-- The flag goes down when it is read. -/
theorem exists_rd (hlt : l ≤ t) (hl : flag l = true) (ht : flag t = false) :
    ∃ r < t, l ≤ r ∧ rd r = true := by
  induction t, hlt using Nat.le_induction with
  | base => exact absurd (hl.symm.trans ht) Bool.false_ne_true.symm
  | succ t hlt ih =>
    cases hf : flag t with
    | true =>
      refine ⟨t, Nat.lt_succ_self t, hlt, ?_⟩
      by_contra hrd
      rw [h.step, hf, Bool.eq_false_of_not_eq_true hrd] at ht
      exact absurd ht Bool.false_ne_true.symm
    | false =>
      obtain ⟨r, hr, hlr, hrd⟩ := ih hf
      exact ⟨r, Nat.lt_succ_of_lt hr, hlr, hrd⟩

variable (hc : WordCounter n bit clear c) (hmarks : Marks n bit c)

include hc hmarks

/-- While no read ends under the mark, the flag rises only with the end of a word. -/
theorem endsWord_of_rises
    (hafter : ∀ t, Ended n bit clear (t + 1) → rd t = true → rd (t + 1) = true)
    (hr : Rises flag t) : EndsWord n bit t := by
  have hpos := hc.pos
  have hrd := h.rd_of_rises hr
  have hnot : c t ≠ n := by
    intro hn
    cases t with
    | zero => exact absurd (hc.zero.symm.trans hn) hpos.ne
    | succ t =>
      -- the flag would be up already, unless it was being read
      have hprev : rd t = true := by
        by_contra hprev
        have hup := h.eq_true_of_mark (Bool.eq_false_of_not_eq_true hprev) (.inr hn)
        exact absurd (hr.1.symm.trans hup) Bool.false_ne_true
      have hnext := hafter t ((hc.eq_iff hmarks).mp hn) hprev
      exact absurd (hrd.symm.trans hnext) Bool.false_ne_true
  have hn : c (t + 1) = n := by
    have hup := hr.2
    rw [h.step, hrd, hr.1, decide_eq_false hnot] at hup
    simpa using hup
  have hdvd := (hmarks.wordEnd t hn).2
  rcases hc.step_cases t with ⟨-, -, hzero⟩ | ⟨hbit, -, -⟩ | ⟨-, -, -, hkeep⟩
  · exact absurd (hzero.symm.trans hn) hpos.ne
  · exact ⟨hbit, hdvd⟩
  · exact absurd (hkeep.symm.trans hn) hnot

/-- The flag stays down as long as no word ends. -/
theorem eq_false_of_not_endsWord
    (hafter : ∀ t, Ended n bit clear (t + 1) → rd t = true → rd (t + 1) = true) (hlt : l ≤ t)
    (hl : flag l = false) (hno : ∀ r, l ≤ r → r < t → ¬EndsWord n bit r) : flag t = false := by
  induction t, hlt using Nat.le_induction with
  | base => exact hl
  | succ t hlt ih =>
    have ih := ih fun r hr hrt ↦ hno r hr (Nat.lt_succ_of_lt hrt)
    by_contra hup
    have hrise : Rises flag t := ⟨ih, Bool.eq_true_of_not_eq_false hup⟩
    exact hno t hlt (Nat.lt_succ_self t) (h.endsWord_of_rises hc hmarks hafter hrise)

theorem readFor_of_rises (hrises : ∀ t, Rises flag t ↔ EndsWord n bit t) :
    ReadFor n bit clear rd := by
  constructor
  case once =>
    intro t hend hmore
    obtain ⟨l, hl, hend', he⟩ := hend.exists_pred hc.pos hmore
    obtain ⟨r, hr, hlr, hrd⟩ := h.exists_rd hl ((hrises l).mpr hend').2 ((hrises t).mpr hend).1
    have hmono : pulses bit (l + 1) ≤ pulses bit r := pulses_le bit hlr
    exact ⟨r, hr, hrd, by omega⟩
  case atEnd => exact fun t hend ↦ h.rd_of_rises ((hrises t).mpr hend)
  case afterEnd =>
    intro t hended hrd
    by_contra hnext
    have hn := (hc.eq_iff hmarks).mpr hended
    -- the mark raises the flag again when the read is over, and no word ends there
    have hrise : Rises flag (t + 1) := ⟨h.eq_false_of_rd hrd,
      h.eq_true_of_mark (Bool.eq_false_of_not_eq_true hnext) (.inl hn)⟩
    have hend := (hrises (t + 1)).mp hrise
    have hmark := hmarks.mark (t + 1) hend
    rw [hc.step_of_bit hend.pulse, if_pos hn] at hmark
    exact absurd hmark hc.pos.ne

theorem rises_of_readFor (hread : ReadFor n bit clear rd) (hend : EndsWord n bit t) :
    Rises flag t := by
  refine ⟨?_, h.eq_true_of_mark (hread.atEnd t hend) (.inr (hmarks.mark t hend))⟩
  have hsucc := hend.pulses_succ
  -- the flag is down from the start, or from a read since the last word
  obtain ⟨l, hl, hdown, hle⟩ : ∃ l ≤ t, flag l = false ∧
      pulses bit (t + 1) ≤ pulses bit l + n := by
    rcases Nat.lt_or_ge n (pulses bit (t + 1)) with hmore | hfirst
    · obtain ⟨r, hr, hrd, he⟩ := hread.once t hend hmore
      have hmono : pulses bit r ≤ pulses bit (r + 1) := pulses_le bit (Nat.le_succ r)
      exact ⟨r + 1, hr, h.eq_false_of_rd hrd, by omega⟩
    · exact ⟨0, Nat.zero_le t, h.zero, by omega⟩
  refine h.eq_false_of_not_endsWord hc hmarks hread.afterEnd hl hdown ?_
  intro r hlr hrt hend'
  have hapart := hend.pulses_add_le hend' hrt
  have hmono : pulses bit l ≤ pulses bit r := pulses_le bit hlr
  have hsucc' := hend'.pulses_succ
  omega

/-- With right marks, the flag rises with the end of each word and at no other time exactly when
it is read for every word. -/
theorem rises_iff : (∀ t, Rises flag t ↔ EndsWord n bit t) ↔ ReadFor n bit clear rd := by
  constructor
  · exact h.readFor_of_rises hc hmarks
  · intro hread t
    constructor
    · exact h.endsWord_of_rises hc hmarks hread.afterEnd
    · exact h.rises_of_readFor hc hmarks hread

end ReadFlag

end RtlCores.Lib
