import ReplicatedLog.Proofs.SubsetOrder

/-!
# Counting in words

Subsets are counted by multiplying up the factors of a binomial coefficient, in words. The stages that
this passes through (`Subsets.Counting`) are coefficients of one row, from the first one on, so each
division is exact (`Counting.eq_choose`, `Counting.dvd`). What is multiplied before a division grows up
to the middle of the row, so the stages go as far as that fits in a word (`counting_iff`). Either this is
to the end, and the count is exact (`Subsets.count_eq`), or the count is the greatest number of a word
(`Subsets.count_eq_top`): there is no other wrong answer (`Subsets.count_exact_or_top`).
-/

namespace ReplicatedLog

namespace Subsets

variable {n k done product : Nat}

/-- Counting the subsets of `k` out of `n` comes to `product` after `done` factors. -/
inductive Counting (n k : Nat) : (done product : Nat) → Prop where
  /-- No factor is multiplied yet. -/
  | start (le : k ≤ n) : Counting n k 0 1
  /-- One more factor, if there is one and the product fits in a word. -/
  | factor {done product : Nat} (before : Counting n k done product) (more : done < min k (n - k))
      (fits : product * (n - done) < Word.size) :
      Counting n k (done + 1) (product * (n - done) / (done + 1))

/-! ### Stages -/

theorem Counting.le (h : Counting n k done product) : k ≤ n := by
  induction h with
  | start le => exact le
  | factor _ _ _ ih => exact ih

theorem Counting.done_le (h : Counting n k done product) : done ≤ min k (n - k) := by
  cases h with
  | start => exact Nat.zero_le _
  | factor _ more _ => exact more

/-- From each stage the count goes on with the factors that are left. -/
theorem Counting.count_eq (h : Counting n k done product) :
    count n k = countFrom n (min k (n - k) - done) done product := by
  induction h with
  | start le => exact if_neg (Nat.not_lt.mpr le)
  | @factor done product _ more fits ih =>
    have hleft : min k (n - k) - done = min k (n - k) - (done + 1) + 1 := by omega
    rw [ih, hleft]
    exact if_pos fits

/-- **Each stage is a binomial coefficient.** -/
theorem Counting.eq_choose (h : Counting n k done product) : product = n.choose done := by
  induction h with
  | start => exact (Nat.choose_zero_right n).symm
  | @factor done product _ _ _ ih =>
    rw [ih, ← Nat.choose_succ_right_eq, Nat.mul_div_cancel _ (Nat.succ_pos done)]

/-- **Each division is exact.** -/
theorem Counting.dvd (h : Counting n k done product) : done + 1 ∣ product * (n - done) := by
  rw [h.eq_choose, ← Nat.choose_succ_right_eq]
  exact Nat.dvd_mul_left _ _

/-- What was multiplied before the last division fits in a word. -/
theorem Counting.mul_choose_lt (h : Counting n k done product) :
    done * n.choose done < Word.size := by
  cases h with
  | start =>
    rw [Nat.zero_mul]
    decide
  | factor before _ fits => rwa [before.eq_choose, ← Nat.choose_succ_right_eq, Nat.mul_comm] at fits

/-- As far as what is multiplied fits in a word, the stages go. -/
theorem counting_choose (hle : k ≤ n) (hdone : done ≤ min k (n - k))
    (hfit : done * n.choose done < Word.size) : Counting n k done (n.choose done) := by
  induction done with
  | zero =>
    rw [Nat.choose_zero_right]
    exact .start hle
  | succ done ih =>
    have hmono : done * n.choose done ≤ (done + 1) * n.choose (done + 1) :=
      mul_choose_le_mul_choose (Nat.le_succ done) (by omega)
    have hproduct := Nat.choose_succ_right_eq n done
    have hnext : n.choose done * (n - done) < Word.size := by rwa [← hproduct, Nat.mul_comm]
    have hstage := (ih (by omega) (lt_of_le_of_lt hmono hfit)).factor (by omega) hnext
    rwa [← hproduct, Nat.mul_div_cancel _ (Nat.succ_pos done)] at hstage

/-- **The stages are the coefficients of a row**, up to the middle and as far as what is multiplied
fits in a word. -/
theorem counting_iff : Counting n k done product ↔
    k ≤ n ∧ done ≤ min k (n - k) ∧ done * n.choose done < Word.size ∧ product = n.choose done := by
  constructor
  · intro h
    exact ⟨h.le, h.done_le, h.mul_choose_lt, h.eq_choose⟩
  · rintro ⟨hle, hdone, hfit, rfl⟩
    exact counting_choose hle hdone hfit

/-! ### The limit -/

/-- If the last product does not fit, counting stops at the first one that does not. -/
theorem countFrom_eq_top {steps : Nat} (hfit : done * n.choose done < Word.size)
    (hbig : Word.size ≤ (done + steps) * n.choose (done + steps)) :
    countFrom n steps done (n.choose done) = Word.top := by
  induction steps generalizing done with
  | zero => exact absurd hfit (Nat.not_lt.mpr hbig)
  | succ steps ih =>
    have hdone : done + (steps + 1) = done + 1 + steps := by omega
    unfold countFrom
    rw [← Nat.choose_succ_right_eq]
    split
    · rename_i hnext
      rw [Nat.mul_div_cancel _ (Nat.succ_pos done)]
      refine ih ?_ (hdone ▸ hbig)
      rwa [Nat.mul_comm]
    · rfl

theorem count_eq_top (hle : k ≤ n) (hbig : Word.size ≤ min k (n - k) * n.choose k) :
    count n k = Word.top := by
  have hstart := Counting.start hle
  rw [hstart.count_eq, Nat.sub_zero, ← Nat.choose_zero_right n]
  refine countFrom_eq_top hstart.mul_choose_lt ?_
  rwa [Nat.zero_add, choose_min hle]

/-- **Counting is exact or visibly at its limit.** There is no choice of more than there are. Otherwise
the count is the binomial coefficient if the last product before a division fits in a word, and the
greatest number of a word if it does not. From each of its stages the count goes on, and the division
that follows is exact; the stages are the coefficients up to the first product that does not fit. So a
count that is not the greatest number of a word is right. -/
theorem count_exact_or_top (n k : Nat) :
    (count n k = if n < k then 0
      else if min k (n - k) * n.choose k < Word.size then n.choose k else Word.top) ∧
    (∀ done product, Counting n k done product →
      count n k = countFrom n (min k (n - k) - done) done product ∧
        done + 1 ∣ product * (n - done)) ∧
    (∀ done product, Counting n k done product ↔ k ≤ n ∧ done ≤ min k (n - k) ∧
      done * n.choose done < Word.size ∧ product = n.choose done) ∧
    (count n k ≠ Word.top → count n k = n.choose k) := by
  have hcount : count n k = if n < k then 0
      else if min k (n - k) * n.choose k < Word.size then n.choose k else Word.top := by
    split
    · rename_i hlt
      exact if_pos hlt
    · rename_i hle
      split
      · rename_i hfit
        exact count_eq (Or.inr hfit)
      · rename_i hbig
        exact count_eq_top (Nat.not_lt.mp hle) (Nat.not_lt.mp hbig)
  refine ⟨hcount, fun done product h => ⟨h.count_eq, h.dvd⟩, fun _ _ => counting_iff, fun hne => ?_⟩
  by_cases hfit : Fits n k
  · exact count_eq hfit
  · obtain ⟨hle, hbig⟩ := not_or.mp hfit
    exact absurd (count_eq_top (Nat.not_lt.mp hle) (Nat.not_lt.mp hbig)) hne

/-- There are fewer choices of 32 out of 64 than a word has values, but the last product does not fit. -/
example : count 62 31 = 465428353255261088 ∧ count 64 32 = Word.top := by decide +kernel

end Subsets

end ReplicatedLog
