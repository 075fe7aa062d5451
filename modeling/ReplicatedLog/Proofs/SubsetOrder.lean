import Mathlib.Data.List.Sort
import Mathlib.Data.List.Sublists
import Mathlib.Data.Nat.Choose.Basic
import ReplicatedLog.Subsets

/-!
# The enumeration of subsets

The choices of `k` members of a list, in lexicographic order of their positions (`choices`): first those
with the first member, then those without it. Where the products that counting them needs fit in a word
(`Subsets.Fits`), they are counted exactly (`Subsets.count_eq`), the subset of a rank is the choice with
as many before it (`Subsets.unrank_eq`), and the enumeration lists the choices, one after the other, and
ends (`Subsets.take_eq`).
-/

namespace ReplicatedLog

/-! ### Choices in order -/

section Choices

variable {α : Type}

/-- The choices of `k` members of a list, lexicographically by position. -/
def choices (k : Nat) (xs : List α) : List (List α) := (xs.sublistsLen k).reverse

@[simp]
theorem choices_zero (xs : List α) : choices 0 xs = [[]] := by
  simp [choices]

@[simp]
theorem choices_succ_nil (k : Nat) : choices (k + 1) ([] : List α) = [] := by
  simp [choices]

/-- First come the choices with the first member, then those without it. -/
theorem choices_succ_cons (k : Nat) (x : α) (xs : List α) :
    choices (k + 1) (x :: xs) = (choices k xs).map (x :: ·) ++ choices (k + 1) xs := by
  simp [choices]

theorem mem_choices {k : Nat} {xs c : List α} : c ∈ choices k xs ↔ c.Sublist xs ∧ c.length = k := by
  rw [choices, List.mem_reverse, List.mem_sublistsLen]

theorem length_choices (k : Nat) (xs : List α) : (choices k xs).length = xs.length.choose k := by
  rw [choices, List.length_reverse, List.length_sublistsLen]

theorem choices_map {β : Type} (f : α → β) (k : Nat) (xs : List α) :
    choices k (xs.map f) = (choices k xs).map (List.map f) := by
  induction xs generalizing k with
  | nil => cases k <;> simp
  | cons x xs ih =>
    cases k with
    | zero => simp
    | succ k => simp [choices_succ_cons, ih, Function.comp_def]

/-- Of ascending numbers the choices are in lexicographic order, each once. -/
theorem sorted_choices {xs : List Nat} (h : xs.Pairwise (· < ·)) (k : Nat) :
    (choices k xs).Pairwise (· < ·) := by
  induction xs generalizing k with
  | nil => cases k <;> simp
  | cons x xs ih =>
    obtain ⟨hfirst, hrest⟩ := List.pairwise_cons.mp h
    cases k with
    | zero => simp
    | succ k =>
      rw [choices_succ_cons, List.pairwise_append, List.pairwise_map]
      refine ⟨(ih hrest k).imp List.cons_lt_cons_self.mpr, ih hrest (k + 1), ?_⟩
      intro a ha b hb
      obtain ⟨a, -, rfl⟩ := List.mem_map.mp ha
      -- a choice without the first member starts with a later one
      obtain ⟨hsub, hlength⟩ := mem_choices.mp hb
      cases b with
      | nil => cases hlength
      | cons y b => exact List.cons_lt_cons_iff.mpr (Or.inl (hfirst y (hsub.subset List.mem_cons_self)))

/-- The choices of numbers below `n` are the ascending lists of such numbers. -/
theorem mem_choices_range {k n : Nat} {c : List Nat} : c ∈ choices k (List.range n) ↔
    c.Pairwise (· < ·) ∧ c.length = k ∧ ∀ i ∈ c, i < n := by
  rw [mem_choices]
  constructor
  · rintro ⟨hsub, hlength⟩
    exact ⟨List.pairwise_lt_range.sublist hsub, hlength, fun i hi => List.mem_range.mp (hsub.subset hi)⟩
  · rintro ⟨hsorted, hlength, hbound⟩
    have hnodup : c.Nodup := hsorted.imp Nat.ne_of_lt
    have hsub : c.Subperm (List.range n) :=
      hnodup.subperm fun i hi => List.mem_range.mpr (hbound i hi)
    exact ⟨List.sublist_of_subperm_of_pairwise hsub (hsorted.imp Nat.le_of_lt)
      (List.pairwise_lt_range.imp Nat.le_of_lt), hlength⟩

end Choices

namespace Subsets

/-! ### Counting -/

/-- The largest product that counting the subsets needs fits in a word. -/
def Fits (n k : Nat) : Prop := n < k ∨ min k (n - k) * n.choose k < Word.size

/-- The products that counting needs grow up to the middle. -/
theorem mul_choose_le_mul_choose {n i j : Nat} (hij : i ≤ j) (hj : j ≤ n / 2) :
    i * n.choose i ≤ j * n.choose j := by
  induction j, hij using Nat.le_induction with
  | base => exact le_rfl
  | succ j _ ih =>
    calc i * n.choose i ≤ j * n.choose j := ih (by omega)
      _ ≤ (j + 1) * n.choose (j + 1) :=
        Nat.mul_le_mul (Nat.le_succ j) (Nat.choose_le_succ_of_lt_half_left (by omega))

/-- Each division is exact, so that every factor leads to the next coefficient. -/
theorem countFrom_choose {n steps done : Nat} (hhalf : done + steps ≤ n / 2)
    (hfit : (done + steps) * n.choose (done + steps) < Word.size) :
    countFrom n steps done (n.choose done) = n.choose (done + steps) := by
  induction steps generalizing done with
  | zero => rfl
  | succ steps ih =>
    have hdone : done + 1 + steps = done + (steps + 1) := by omega
    have hproduct := Nat.choose_succ_right_eq n done
    have hle : n.choose (done + 1) * (done + 1) < Word.size := by
      rw [Nat.mul_comm]
      exact lt_of_le_of_lt (mul_choose_le_mul_choose (by omega) hhalf) hfit
    unfold countFrom
    rw [← hproduct, if_pos hle, Nat.mul_div_cancel _ (Nat.succ_pos done),
      ih (hdone ▸ hhalf) (hdone ▸ hfit), hdone]

/-- As many subsets are chosen as are left over. -/
theorem choose_min {n k : Nat} (h : k ≤ n) : n.choose (min k (n - k)) = n.choose k := by
  rcases le_total k (n - k) with hk | hk
  · rw [min_eq_left hk]
  · rw [min_eq_right hk, Nat.choose_symm h]

theorem count_eq {n k : Nat} (h : Fits n k) : count n k = n.choose k := by
  unfold count
  split
  · rename_i hlt
    rw [Nat.choose_eq_zero_of_lt hlt]
  · rename_i hle
    have hsymm := choose_min (Nat.not_lt.mp hle)
    have hfit : (0 + min k (n - k)) * n.choose (0 + min k (n - k)) < Word.size := by
      rw [Nat.zero_add, hsymm]
      exact h.resolve_left hle
    rw [← Nat.choose_zero_right n, countFrom_choose (by omega) hfit, Nat.zero_add, hsymm]

/-- Leaving out a number, the subsets with it and those without it can be counted too. -/
theorem Fits.succ {n k : Nat} (h : Fits (n + 1) (k + 1)) : Fits n k ∧ Fits n (k + 1) := by
  rcases h with hlt | hfit
  · exact ⟨Or.inl (by omega), Or.inl (by omega)⟩
  · rw [Nat.choose_succ_succ] at hfit
    constructor
    · exact Or.inr (lt_of_le_of_lt
        (Nat.mul_le_mul (by omega) (Nat.le_add_right _ _)) hfit)
    · exact Or.inr (lt_of_le_of_lt
        (Nat.mul_le_mul (by omega) (Nat.le_add_left _ _)) hfit)

/-! ### Ranks -/

/-- From a candidate on, the choice of a rank is found among those with the candidate, of which there
are as many as are counted, or among those without it. -/
theorem unrankFrom_eq {n candidate count rank remaining : Nat} (hn : n = candidate + count)
    (hfit : Fits count remaining) (hrank : rank < count.choose remaining) :
    ∃ c, unrankFrom n rank candidate remaining = .ok c ∧
      (choices remaining (List.range' candidate count))[rank]? = some c := by
  induction count generalizing candidate rank remaining with
  | zero =>
    cases remaining with
    | zero =>
      obtain rfl : rank = 0 := by simpa using hrank
      exact ⟨[], by unfold unrankFrom; rfl, by simp⟩
    | succ remaining => simp at hrank
  | succ count ih =>
    cases remaining with
    | zero =>
      obtain rfl : rank = 0 := by simpa using hrank
      exact ⟨[], by unfold unrankFrom; rfl, by simp⟩
    | succ remaining =>
      obtain ⟨hwith, hwithout⟩ := hfit.succ
      have hrest : n = candidate + 1 + count := by omega
      have hleft : n - candidate - 1 = count := by omega
      have hlength : ((choices remaining (List.range' (candidate + 1) count)).map
          (candidate :: ·)).length = count.choose remaining := by
        rw [List.length_map, length_choices, List.length_range']
      unfold unrankFrom
      rw [if_neg (by omega), List.range'_succ, choices_succ_cons]
      dsimp only
      rw [hleft, count_eq hwith]
      split
      · rename_i hlt
        obtain ⟨c, hc, hget⟩ := ih hrest hwith hlt
        refine ⟨candidate :: c, ?_, ?_⟩
        · rw [hc]
          rfl
        · rw [List.getElem?_append_left (by rwa [hlength]), List.getElem?_map, hget]
          rfl
      · rename_i hnot
        rw [Nat.choose_succ_succ'] at hrank
        have hrank' : rank - count.choose remaining < count.choose (remaining + 1) := by omega
        obtain ⟨c, hc, hget⟩ := ih hrest hwithout hrank'
        refine ⟨c, hc, ?_⟩
        rw [List.getElem?_append_right (by omega), hlength, hget]

/-- **The subset of a rank** is the choice with as many choices before it. -/
theorem unrank_eq {n k rank : Nat} (hfit : Fits n k) (hrank : rank < n.choose k) :
    ∃ c, unrank rank n k = .ok c ∧ (choices k (List.range n))[rank]? = some c := by
  rw [List.range_eq_range']
  exact unrankFrom_eq (Nat.zero_add n).symm hfit hrank

/-! ### Enumerating -/

/-- After `rank` subsets the enumeration goes on with those of the ranks from there. -/
theorem take_from {n k : Nat} (hfit : Fits n k) (limit rank : Nat) (hrank : rank ≤ n.choose k) :
    take limit ⟨n, k, rank, n.choose k⟩ =
      .ok (((choices k (List.range n)).drop rank).take limit,
        ⟨n, k, min (rank + limit) (n.choose k), n.choose k⟩) := by
  induction limit generalizing rank with
  | zero => simp [take, hrank]
  | succ limit ih =>
    have hlength : (choices k (List.range n)).length = n.choose k := by
      rw [length_choices, List.length_range]
    unfold take next
    by_cases hend : n.choose k ≤ rank
    · rw [if_pos hend, List.drop_eq_nil_of_le (by omega), min_eq_right (by omega),
        Nat.le_antisymm hrank hend]
      rfl
    · obtain ⟨c, hc, hget⟩ := unrank_eq hfit (Nat.not_le.mp hend)
      obtain ⟨hlt, hc'⟩ := List.getElem?_eq_some_iff.mp hget
      rw [if_neg hend, hc, List.drop_eq_getElem_cons hlt, hc', List.take_succ_cons]
      simp only [bind, Except.bind, pure, Except.pure]
      rw [ih (rank + 1) (by omega), Nat.add_right_comm rank 1 limit, Nat.add_assoc rank limit 1]

/-- **The enumeration lists the choices**, one after the other. -/
theorem take_eq {n k : Nat} (hfit : Fits n k) (limit : Nat) :
    (choose n k).take limit =
      .ok ((choices k (List.range n)).take limit,
        { choose n k with rank := min limit (n.choose k) }) := by
  unfold choose
  rw [count_eq hfit, take_from hfit limit 0 (Nat.zero_le _), List.drop_zero, Nat.zero_add]

end Subsets

end ReplicatedLog
