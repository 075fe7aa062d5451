import Mathlib.Order.Bounds.Basic
import ReplicatedLog.Proofs.CatchUp

/-!
# Gaps

The slots that a learner misses, as ranges. The search goes through the slots from the next one on and
keeps the run of slots that is open; a range is closed by the learned slot that follows it, so between
two ranges there is always a learned slot (`separated_gaps`), and the ranges are as long as they can be.

After every step of a learner the slot that is next is not learned, or it would have been delivered
(`next_open_of_runs`). Hence any learned slot from there on leaves a gap. This and what the ranges hold
(`covers_missing`) give `missing_exact`.
-/

namespace ReplicatedLog

namespace Learner

variable {l l' : Learner} {x : Input} {d : Delivery} {past : Past} {ranges : List (Nat × Nat)}

/-- Between two gaps there is a learned slot. -/
theorem separated_gaps {learned : Nat → Bool} {count slot : Nat} {start : Option Nat}
    (hstart : ∀ first, start = some first → first < slot) :
    (gaps learned count slot start).Pairwise fun a b =>
      ∃ t, a.2 < t ∧ t < b.1 ∧ learned t = true := by
  fun_induction gaps learned count slot start with
  | case1 => exact List.Pairwise.nil
  | case2 => exact List.pairwise_singleton _ _
  | case3 count slot ih =>
    refine ih fun first hfirst => ?_
    split at hfirst
    · cases hfirst
    · cases hfirst
      exact Nat.lt_succ_self slot
  | case4 count slot first hlearned ih =>
    have hfirst := hstart first rfl
    refine List.pairwise_cons.mpr ⟨fun range hrange => ⟨slot, ?_, ?_, hlearned⟩, ih (by simp)⟩
    · dsimp only
      omega
    · -- the slot itself is learned, so the next gap begins after it
      have hbounds := (gaps_cases learned count (slot + 1) none (by simp)).2 range hrange
      exact hbounds.1
  | case5 count slot first hlearned ih =>
    have hfirst := hstart first rfl
    exact ih (by rintro _ ⟨⟩; omega)

/-- What is missing is listed as ranges that are not empty and have a learned slot between any two. -/
theorem separated_missing (h : l.missing = .ok ranges) (hlow : 0 < l.window.low) :
    (∀ range ∈ ranges, range.1 ≤ range.2) ∧
      ranges.Pairwise fun a b => ∃ t, a.2 < t ∧ t < b.1 ∧ l.isLearned t = true := by
  rcases missing_cases h hlow with ⟨-, rfl⟩ | ⟨last, -, -, -, rfl⟩
  · simp
  · have hbounds := (gaps_cases l.isLearned (last - l.next) l.next none (by simp)).2
    exact ⟨fun range hrange => (hbounds range hrange).2.1, separated_gaps (by simp)⟩

/-- If a slot from the next one on is learned, there is a highest slot that is. -/
theorem exists_highest (h : l.missing = .ok ranges) (hlow : 0 < l.window.low) {slot : Nat}
    (hnext : l.next ≤ slot) (hlearned : l.isLearned slot = true) :
    ∃ highest, IsGreatest {t | l.isLearned t = true} highest ∧ slot ≤ highest := by
  simp only [isLearned_eq] at hlearned ⊢
  rcases missing_cases h hlow with ⟨hnone, -⟩ | ⟨last, hlast, hlearned', hhighest, -⟩
  · simp [hnone slot hnext] at hlearned
  · refine ⟨last, ⟨hlearned', fun t ht => ?_⟩, hhighest slot hnext hlearned⟩
    by_cases hbefore : l.next ≤ t
    · exact hhighest t hbefore ht
    · omega

/-! ### The slot that is next -/

/-- A step leaves the slot that is next open: what is learned there is delivered. -/
theorem next_open_of_act (hopen : (l.tally l.next).learned = none) (h : l.act x = .ok (l', d)) :
    (l'.tally l'.next).learned = none := by
  cases acts_of_act h with
  | quiet _ _ _ _ next_eq tally_eq => rwa [next_eq, tally_eq]
  | answer => exact hopen
  | @count m _ t _ _ next_eq count_eq _ tally_eq =>
    rw [next_eq, tally_eq, Function.update_apply]
    split
    · obtain ⟨hnone, -, -, -, rfl⟩ := Tally.count_eq_some count_eq
      exact hnone
    · exact hopen
  | settle _ _ _ _ delivers => exact delivers.stops
  | take _ _ delivers => exact delivers.stops

section Runs

variable {s : RoleSettings} {id : Nat} {epochs : EpochVector}

theorem next_open_of_runs (h : Runs act (Replica.start s id epochs).learner l past) :
    (l.tally l.next).learned = none := by
  induction h with
  | nil => rw [tally_start]; rfl
  | step _ act_eq ih => exact next_open_of_act ih act_eq

/-- **What is missing**, for a learner after anything that is about slots below `2 ^ 63`. It is listed
without failure, as ranges in strictly ascending order; none is empty, and between any two of them there
is a learned slot. They hold exactly the slots from the next one on that are not learned and lie below the
highest learned slot. Nothing is missing exactly if no slot from the next one on is learned. -/
theorem missing_exact (h : Runs act (Replica.start s id epochs).learner l past)
    (hpast : ∀ t ∈ past, t.input.Within (2 ^ 63)) :
    ∃ ranges, l.missing = .ok ranges ∧
      (∀ range ∈ ranges, range.1 ≤ range.2) ∧
      (ranges.Pairwise fun a b => ∃ t, a.2 < t ∧ t < b.1 ∧ l.isLearned t = true) ∧
      (∀ slot, Covers ranges slot ↔ l.next ≤ slot ∧ l.isLearned slot = false ∧
        ∃ highest, IsGreatest {t | l.isLearned t = true} highest ∧ slot < highest) ∧
      (ranges = [] ↔ ∀ slot, l.next ≤ slot → l.isLearned slot = false) := by
  have hstop := stop_le_of_runs h (by decide) hpast
  have hpos : 0 < l.window.low := by
    rw [(retains_of_runs h).low_eq]
    exact Nat.one_pos.trans_le (le_max_left _ _)
  obtain ⟨ranges, hmissing⟩ := exists_missing (hstop.trans_lt (by decide))
  have hcovers := covers_missing hmissing hpos
  obtain ⟨hbounds, hseparated⟩ := separated_missing hmissing hpos
  have hnone : ∀ slot, (l.tally slot).learned = none ↔ l.isLearned slot = false := fun slot => by
    rw [isLearned_eq, ← Option.not_isSome_iff_eq_none, Bool.not_eq_true]
  refine ⟨ranges, hmissing, hbounds, hseparated, fun slot => ?_, fun hempty slot hnext => ?_,
    fun hopen => ?_⟩
  · rw [hcovers, hnone]
    refine and_congr_right fun hnext => and_congr_right fun _ => ?_
    constructor
    · rintro ⟨later, hlt, hlearned⟩
      rw [← isLearned_eq] at hlearned
      obtain ⟨highest, hgreatest, hle⟩ :=
        exists_highest hmissing hpos (hnext.trans hlt.le) hlearned
      exact ⟨highest, hgreatest, hlt.trans_le hle⟩
    · rintro ⟨highest, ⟨hlearned, -⟩, hlt⟩
      exact ⟨highest, hlt, isLearned_eq l highest ▸ hlearned⟩
  · -- a learned slot lies beyond the next one, which would then be missing
    rw [← Bool.not_eq_true]
    intro hlearned
    have hopen := next_open_of_runs h
    have hne : l.next ≠ slot := by
      rintro rfl
      rw [(hnone _).mp hopen] at hlearned
      cases hlearned
    obtain ⟨range, hrange, -⟩ := (hcovers l.next).mpr
      ⟨le_rfl, hopen, slot, Nat.lt_of_le_of_ne hnext hne, isLearned_eq l slot ▸ hlearned⟩
    rw [hempty] at hrange
    exact List.not_mem_nil hrange
  · refine List.eq_nil_iff_forall_not_mem.mpr fun range hrange => ?_
    obtain ⟨hnext, -, later, hlt, hlearned⟩ :=
      (hcovers range.1).mp ⟨range, hrange, le_rfl, hbounds range hrange⟩
    rw [← isLearned_eq, hopen later (hnext.trans hlt.le)] at hlearned
    cases hlearned

/-- Slots 1 to 4 are delivered, and the first two of them given up. Slots 7, 8 and 10 are learned, so slots
5, 6 and 9 are missing; slot 12 has one vote, which does not make slot 11 missing. -/
theorem missing_exact_of_two_ranges : ∃ l past ranges,
    Runs act (Replica.start ⟨2, 3, 10, 2, .plain⟩ 1 (.zeros 3)).learner l past ∧
    (∀ t ∈ past, t.input.Within (2 ^ 63)) ∧
    l.missing = .ok ranges ∧ ranges = [(5, 6), (9, 9)] ∧
    (ranges.Pairwise fun a b => ∃ t, a.2 < t ∧ t < b.1 ∧ l.isLearned t = true) ∧
    (Covers ranges 9 ↔ l.next ≤ 9 ∧ l.isLearned 9 = false ∧
      ∃ highest, IsGreatest {t | l.isLearned t = true} highest ∧ 9 < highest) := by
  let vote (sender slot : Nat) : Input := .learn ⟨sender, slot, ⟨1, 1⟩, .appBatch [65], .zeros 3⟩
  obtain ⟨l, past, h, hpast, hmissing⟩ := Runs.exists_of_replay act
    (Replica.start ⟨2, 3, 10, 2, .plain⟩ 1 (.zeros 3)).learner
    [.trust 0, vote 0 7, vote 1 7, vote 2 8, vote 1 8, vote 0 12,
      .response ⟨0, [(1, .noop), (2, .noop), (4, .noop), (10, .noop)]⟩, vote 0 3, vote 2 3]
    (fun l past => (∀ t ∈ past, t.input.Within (2 ^ 63)) ∧
      l.missing.toOption = some [(5, 6), (9, 9)]) (by decide +kernel)
  obtain ⟨ranges, hranges, -, hseparated, hcovers, -⟩ := missing_exact h hpast
  rw [hranges] at hmissing
  exact ⟨l, past, ranges, h, hpast, hranges, Option.some.inj hmissing, hseparated, hcovers 9⟩

end Runs

end Learner

end ReplicatedLog
