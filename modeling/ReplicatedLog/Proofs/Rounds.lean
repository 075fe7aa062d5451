import ReplicatedLog.Round
import Mathlib.Order.Lattice
import Mathlib.Order.WellFounded

/-!
# The order of rounds

Rounds are linearly ordered, and there is no infinite descent among them: an argument may go from a
round to the rounds before it.
-/

namespace ReplicatedLog

namespace Round

instance : LinearOrder Round where
  le_refl a := by rw [le_def]; omega
  le_trans a b c h h' := by rw [le_def] at *; omega
  lt_iff_le_not_ge a b := by rw [not_le, lt_def, le_def]; omega
  le_antisymm _ _ := le_antisymm
  le_total a b := by rw [le_def, le_def]; omega
  toDecidableLE := inferInstance
  toDecidableLT := inferInstance
  toDecidableEq := inferInstance
  max := max
  max_def _ _ := rfl

instance : WellFoundedLT Round := by
  refine ⟨Subrelation.wf ?_ (InvImage.wf (fun r : Round => (r.counter, r.owner))
    (Prod.lex Nat.lt_wfRel Nat.lt_wfRel).wf)⟩
  intro a b h
  exact Prod.lex_def.mpr h

/-- A real round is above the bottom. -/
theorem bottom_lt_of_isBottom {r : Round} (h : r.isBottom = false) : bottom < r := by
  have hcounter : r.counter ≠ 0 := by simpa [isBottom] using h
  exact Or.inl (Nat.pos_of_ne_zero hcounter)

/-- The next round is above the round it follows, is the owner's, and is not a bottom round. -/
theorem next_eq_ok {r r' : Round} {seen owner : Nat} (h : r.next seen owner = .ok r') :
    r < r' ∧ r'.owner = owner ∧ r'.isBottom = false ∧ r'.counter < Word.size := by
  obtain ⟨counter, hfit, h⟩ := Checked.bind_eq_ok_iff.mp h
  cases h
  obtain ⟨hlt, rfl⟩ := Word.fit_eq_ok_iff.mp hfit
  refine ⟨Or.inl ?_, rfl, ?_, hlt⟩
  · show r.counter < max r.counter seen + 1
    omega
  · simp [isBottom]

/-- Its counter is above the counters that were seen. -/
theorem seen_lt_of_next {r r' : Round} {seen owner : Nat} (h : r.next seen owner = .ok r') :
    seen < r'.counter := by
  obtain ⟨counter, hfit, h⟩ := Checked.bind_eq_ok_iff.mp h
  cases h
  obtain ⟨-, rfl⟩ := Word.fit_eq_ok_iff.mp hfit
  show seen < max r.counter seen + 1
  omega

end Round

end ReplicatedLog
