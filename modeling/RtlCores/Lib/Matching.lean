import Mathlib.Data.List.Infix
import Mathlib.Data.Nat.Find

/-!
# Matching a pattern against a text

A matcher that reads a text item by item needs to remember only how much of the pattern it has
just seen: the length of the longest prefix of the pattern that ends the text so far.  One more
item changes that length in a way that depends on the length alone, which is what makes a finite
automaton of it.
-/

namespace RtlCores.Lib

variable {α : Type*} [DecidableEq α] {pat text : List α} {m : Nat}

/-- The length of the longest prefix of `pat` that ends `text`, among those of length at most
`m`. -/
def overlap (pat : List α) (m : Nat) (text : List α) : Nat :=
  Nat.findGreatest (fun k ↦ pat.take k <:+ text) m

theorem overlap_le (pat : List α) (m : Nat) (text : List α) : overlap pat m text ≤ m :=
  Nat.findGreatest_le m

/-- The prefix of that length does end the text. -/
theorem take_overlap_suffix (pat : List α) (m : Nat) (text : List α) :
    pat.take (overlap pat m text) <:+ text := by
  refine Nat.findGreatest_spec (P := fun k ↦ pat.take k <:+ text) (Nat.zero_le m) ?_
  rw [List.take_zero]
  exact List.nil_suffix

theorem le_overlap {k : Nat} (hk : k ≤ m) (h : pat.take k <:+ text) : k ≤ overlap pat m text :=
  Nat.le_findGreatest hk h

theorem overlap_nil (hm : m ≤ pat.length) : overlap pat m [] = 0 := by
  have hlen := (take_overlap_suffix pat m []).length_le
  have hle := overlap_le pat m []
  rw [List.length_take, List.length_nil] at hlen
  omega

theorem overlap_eq_iff (pat : List α) (m : Nat) (text : List α) :
    overlap pat m text = m ↔ pat.take m <:+ text := by
  constructor
  · intro h
    have hsuffix := take_overlap_suffix pat m text
    rwa [h] at hsuffix
  · intro h
    exact (overlap_le pat m text).antisymm (le_overlap le_rfl h)

omit [DecidableEq α] in
/-- One item more of the pattern against one item more of the text. -/
theorem append_suffix_append_iff (xs ys : List α) (a b : α) :
    xs ++ [a] <:+ ys ++ [b] ↔ xs <:+ ys ∧ a = b := by
  rw [List.suffix_concat_iff]
  constructor
  · rintro (hnil | ⟨t, heq, ht⟩)
    · exact absurd hnil (List.append_ne_nil_of_right_ne_nil xs (List.cons_ne_nil a []))
    · obtain ⟨rfl, hab⟩ := List.append_inj' heq rfl
      exact ⟨ht, (List.cons.inj hab).1⟩
  · rintro ⟨h, rfl⟩
    exact .inr ⟨xs, rfl, h⟩

/-- After one more item, a prefix of the pattern ends the text exactly when it ends what had been
matched with that item. -/
theorem take_suffix_append_iff (hm : m ≤ pat.length) (text : List α) (b : α) {k : Nat}
    (hk : k ≤ m) :
    pat.take k <:+ text ++ [b] ↔ pat.take k <:+ pat.take (overlap pat m text) ++ [b] := by
  have hmatched : pat.take (overlap pat m text) ++ [b] <:+ text ++ [b] :=
    (append_suffix_append_iff _ _ b b).mpr ⟨take_overlap_suffix pat m text, rfl⟩
  constructor
  · intro h
    refine List.suffix_of_suffix_length_le h hmatched ?_
    cases k with
    | zero =>
      rw [List.take_zero]
      exact Nat.zero_le _
    | succ j =>
      -- the prefix without its last item ended the text before
      have hj : j < pat.length := by omega
      rw [List.take_succ_eq_append_getElem hj, append_suffix_append_iff] at h
      have hle := le_overlap (by omega : j ≤ m) h.1
      have hlt := overlap_le pat m text
      rw [List.length_take, List.length_append, List.length_take, List.length_singleton]
      omega
  · intro h
    exact h.trans hmatched

/-- The rule of the automaton: what is matched after one more item depends on what was matched
before it. -/
theorem overlap_append_singleton (hm : m ≤ pat.length) (text : List α) (b : α) :
    overlap pat m (text ++ [b]) = overlap pat m (pat.take (overlap pat m text) ++ [b]) := by
  apply le_antisymm
  · apply le_overlap (overlap_le _ _ _)
    rw [← take_suffix_append_iff hm text b (overlap_le _ _ _)]
    exact take_overlap_suffix _ _ _
  · apply le_overlap (overlap_le _ _ _)
    rw [take_suffix_append_iff hm text b (overlap_le _ _ _)]
    exact take_overlap_suffix _ _ _

end RtlCores.Lib
