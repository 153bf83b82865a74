import RtlCores.Lib.Bits

/-!
# Bounded queues

A first-in first-out queue of at most `cap` items that takes one request a period: flush
it, append an item, remove the oldest, or both at once.  Nothing here says how the items
are stored.
-/

namespace RtlCores.Lib

variable {α : Type*}

/-- What is asked of a queue in one period. -/
structure QueueReq (α : Type*) where
  flush : Bool
  push : Bool
  pull : Bool
  item : α

namespace Queue

variable (cap : Nat) (i : QueueReq α) (q : List α)

/-- An item is taken in unless the queue is full; a full queue takes it in when it gives one
away in the same period. -/
def accepts : Bool := i.push && (decide (q.length < cap) || i.pull)

/-- The oldest item is given away if there is one. -/
def delivers : Bool := i.pull && !q.isEmpty

/-- The queue after one period. -/
def step : List α :=
  if i.flush then []
  else (if delivers i q then q.tail else q) ++ (if accepts cap i q then [i.item] else [])

variable {cap} {i} {q}

theorem step_flush (h : i.flush = true) : step cap i q = [] := by simp [step, h]

theorem step_of_not_flush (h : i.flush = false) :
    step cap i q =
      (if delivers i q then q.tail else q) ++ (if accepts cap i q then [i.item] else []) := by
  simp [step, h]

/-- A queue never holds more than it has room for. -/
theorem length_step_le (hcap : 0 < cap) (h : q.length ≤ cap) : (step cap i q).length ≤ cap := by
  cases hf : i.flush with
  | true => simp [step_flush hf]
  | false =>
    rw [step_of_not_flush hf, List.length_append]
    cases ha : accepts cap i q with
    | false =>
      have hkeep : (if delivers i q then q.tail else q).length ≤ q.length := by
        split <;> simp
      simpa using le_trans hkeep h
    | true =>
      cases hd : delivers i q with
      | false =>
        -- taken in without giving one away: there was room, or nothing to give away
        have hroom : q.length < cap := by
          simp only [accepts, delivers, Bool.and_eq_true, Bool.or_eq_true, decide_eq_true_eq,
            Bool.and_eq_false_iff, Bool.not_eq_false', List.isEmpty_iff] at ha hd
          obtain ⟨-, hlt | hpull⟩ := ha
          · exact hlt
          · rcases hd with hpull' | rfl
            · rw [hpull] at hpull'; contradiction
            · exact hcap
        simpa using hroom
      | true =>
        have hne : q ≠ [] := by rintro rfl; simp [delivers] at hd
        have hpos := List.length_pos_of_ne_nil hne
        simp only [if_true, List.length_tail, List.length_singleton]
        omega

/-- What was held and what is taken in is what is given away and what is held afterwards:
nothing is lost, duplicated or reordered. -/
theorem step_conserve (cap : Nat) (q : List α) (h : i.flush = false) :
    q ++ (if accepts cap i q then some i.item else none).toList =
      (if delivers i q then q.head? else none).toList ++ step cap i q := by
  rw [step_of_not_flush h]
  have hitem : (if accepts cap i q then some i.item else none).toList =
      if accepts cap i q then [i.item] else [] := by split <;> rfl
  rw [hitem, ← List.append_assoc]
  congr 1
  cases q with
  | nil => simp [delivers]
  | cons x q => split <;> simp

end Queue

end RtlCores.Lib
