import Mathlib.Algebra.Group.Nat.Defs
import ReplicatedLog.Proofs.Extent
import ReplicatedLog.Proofs.Retention

/-!
# Catching up

A learner that misses slots asks another one for them. The ranges that it asks for hold exactly the slots
from its next one on that it has not learned, below one that it has (`covers_missing`). The answer lists
those of them that the other has delivered and still holds (`mem_log_iff`), and the one that asked takes
them all, since it has learned none of them; then it delivers up to the first slot that it has not
learned by then. This is `catches_up`, for two learners after any runs.
-/

namespace ReplicatedLog

namespace Learner

variable {l l' : Learner} {ranges : List (Nat × Nat)} {decided : List (Nat × Value)} {slot : Nat}
  {v : Value} {past : Past}

/-! ### Asking -/

/-- The gaps hold the slots that are not learned, and the run that is open. -/
theorem covers_gaps {learned : Nat → Bool} {count slot : Nat} {start : Option Nat}
    (hstart : ∀ first, start = some first → first < slot) (t : Nat) :
    Covers (gaps learned count slot start) t ↔
      start.getD slot ≤ t ∧ t < slot ∨ slot ≤ t ∧ t < slot + count ∧ learned t = false := by
  fun_induction gaps learned count slot start with
  | case1 =>
    simp only [Covers, List.not_mem_nil, false_and, exists_false, Option.getD_none, false_iff]
    omega
  | case2 slot first =>
    have hfirst := hstart first rfl
    simp only [Covers, List.mem_singleton, exists_eq_left, Option.getD_some]
    omega
  | case3 count slot ih =>
    have hopen : ∀ first, (if learned slot then none else some slot) = some first →
        first < slot + 1 := by
      intro first hfirst
      split at hfirst
      · cases hfirst
      · cases hfirst
        exact Nat.lt_succ_self slot
    rw [ih hopen]
    by_cases ht : t = slot <;> grind
  | case4 count slot first hlearned ih =>
    have hfirst := hstart first rfl
    have hcons : Covers ((first, slot - 1) :: gaps learned count (slot + 1) none) t ↔
        first ≤ t ∧ t ≤ slot - 1 ∨ Covers (gaps learned count (slot + 1) none) t := by
      simp [Covers]
    rw [hcons, ih (by simp)]
    by_cases ht : t = slot <;> grind
  | case5 count slot first hlearned ih =>
    have hfirst := hstart first rfl
    rw [ih (by rintro _ ⟨⟩; omega)]
    by_cases ht : t = slot <;> grind

theorem isLearned_eq (l : Learner) (slot : Nat) :
    l.isLearned slot = (l.tally slot).learned.isSome := by
  unfold isLearned tally
  cases l.window.get? slot <;> rfl

/-- In ascending order the last slot is the highest. -/
theorem le_of_getLast? {α : Type} {held : List (Nat × α)} {d last : Nat × α}
    (hsorted : held.Pairwise fun a b => a.1 < b.1) (hlast : held.getLast? = some last)
    (hd : d ∈ held) : d.1 ≤ last.1 := by
  obtain ⟨before, rfl⟩ := List.getLast?_eq_some_iff.mp hlast
  rcases List.mem_append.mp hd with hd | hd
  · exact Nat.le_of_lt ((List.pairwise_append.mp hsorted).2.2 d hd last List.mem_cons_self)
  · rw [List.mem_singleton.mp hd]

/-- The gaps are searched for up to the highest slot that is learned, if any is from the next one on. -/
theorem missing_cases (h : l.missing = .ok ranges) (hlow : 0 < l.window.low) :
    (∀ t, l.next ≤ t → (l.tally t).learned = none) ∧ ranges = [] ∨
      ∃ last, l.next ≤ last ∧ (l.tally last).learned.isSome = true ∧
        (∀ t, l.next ≤ t → (l.tally t).learned.isSome = true → t ≤ last) ∧
        ranges = gaps l.isLearned (last - l.next) l.next none := by
  obtain ⟨held, hheld, hret⟩ := Checked.bind_eq_ok_iff.mp h
  have hmem : ∀ t, l.next ≤ t → (l.tally t).learned.isSome = true →
      (t, l.tally t) ∈ held.filter (fun e => e.2.learned.isSome) := by
    intro t hnext hlearned
    obtain ⟨v, hv⟩ := Option.isSome_iff_exists.mp hlearned
    have hget := get?_of_learned hv
    have hhighest := (Window.isSome_get?_iff_le_highest hlow).mp (Option.isSome_of_mem hget)
    exact List.mem_filter.mpr
      ⟨(Window.mem_of_range hheld).mpr ⟨hnext, hhighest.2, hget⟩, hlearned⟩
  split at hret
  · rename_i hnone
    rw [List.getLast?_eq_none_iff] at hnone
    refine Or.inl ⟨fun t hnext => ?_, (Except.ok.inj hret).symm⟩
    rw [← Option.not_isSome_iff_eq_none]
    intro hlearned
    have hin := hmem t hnext hlearned
    rw [hnone] at hin
    exact List.not_mem_nil hin
  · rename_i last t hlast
    obtain ⟨hin, hlearned⟩ := List.mem_filter.mp (List.mem_of_getLast? hlast)
    obtain ⟨hnext, -, hget⟩ := (Window.mem_of_range hheld).mp hin
    have hsorted := List.pairwise_map.mp (Window.sorted_of_range hheld)
    refine Or.inr ⟨last, hnext, ?_, fun t hnext hlearned => ?_, (Except.ok.inj hret).symm⟩
    · rw [tally_of_get? hget]
      exact hlearned
    · exact le_of_getLast? (hsorted.filter _) hlast (hmem t hnext hlearned)

/-- **What a learner asks for**: the slots from the next one on that are not learned, although a later
slot is. -/
theorem covers_missing (h : l.missing = .ok ranges) (hlow : 0 < l.window.low) (slot : Nat) :
    Covers ranges slot ↔ l.next ≤ slot ∧ (l.tally slot).learned = none ∧
      ∃ later, slot < later ∧ (l.tally later).learned.isSome = true := by
  rcases missing_cases h hlow with ⟨hnone, rfl⟩ | ⟨last, hnext, hlearned, hhighest, rfl⟩
  · constructor
    · rintro ⟨_, hin, -⟩
      exact absurd hin List.not_mem_nil
    · rintro ⟨hslot, -, later, hlt, hlearned⟩
      rw [hnone later (by omega)] at hlearned
      cases hlearned
  · rw [covers_gaps (by simp), isLearned_eq, Option.getD_none, ← Option.not_isSome_iff_eq_none,
      Bool.not_eq_true]
    constructor
    · rintro (hslot | ⟨hslot, hlt, hopen⟩)
      · omega
      · exact ⟨hslot, hopen, last, by omega, hlearned⟩
    · rintro ⟨hslot, hopen, later, hlt, hlearned'⟩
      have hle := hhighest later (by omega) hlearned'
      exact Or.inr ⟨hslot, by omega, hopen⟩

/-! ### Answering -/

section Runs

variable {s s' : RoleSettings} {id id' b : Nat} {epochs epochs' : EpochVector} {a : Learner}
  {past' : Past}

theorem decided_lt_of_runs (h : Runs act (Replica.start s id epochs).learner l past)
    (hslot : (l.tally slot).decided = true) : slot < l.next := by
  induction h generalizing slot with
  | nil =>
    rw [tally_start] at hslot
    cases hslot
  | step _ act_eq ih => exact decided_lt_of_act (fun _ => ih) act_eq slot hslot

/-- **What a learner answers with**: a slot that is held was delivered, with its value, exactly if it is
marked so. -/
theorem mem_log_iff (h : Runs act (Replica.start s id epochs).learner l past) {t : Tally}
    (ht : l.window.get? slot = some t) :
    (slot, v) ∈ log past ↔ t.decided = true ∧ t.learned = some v := by
  have hretains := retains_of_runs h
  have hlow := Window.low_le_of_get? ht
  obtain rfl := tally_of_get? ht
  constructor
  · intro hmem
    exact (hretains.held slot v hmem hlow).symm
  · rintro ⟨hdecided, hv⟩
    have hlow_eq := hretains.low_eq
    obtain ⟨v', hv'⟩ := hretains.exists_mem (by omega) (decided_lt_of_runs h hdecided)
    obtain rfl := Option.some.inj (hv.symm.trans (hretains.held slot v' hv' hlow).1)
    exact hv'

/-- What is delivered is held, or given up. -/
theorem Retains.next_le_stop {retention : Nat} (h : l.Retains retention (log past)) :
    l.next ≤ l.window.stop := by
  have hlow := h.low_eq
  unfold Window.stop
  by_cases hgone : l.next ≤ l.window.low
  · omega
  · obtain ⟨v, hv⟩ := h.exists_mem (show 1 ≤ l.next - 1 by omega) (by omega)
    have hlearned := (h.held _ v hv (by omega)).1
    have hheld := Window.isSome_get?_iff.mp (Option.isSome_of_mem (get?_of_learned hlearned))
    omega

/-- The window of a learner extends no further than what happened to it. -/
theorem stop_le_of_runs (h : Runs act (Replica.start s id epochs).learner l past) (hb : 1 ≤ b)
    (hpast : ∀ t ∈ past, t.input.Within b) : l.window.stop ≤ b := by
  induction h with
  | nil => exact hb
  | step run act_eq ih =>
    obtain ⟨hbefore, hinput⟩ := List.forall_mem_append.mp hpast
    have hstop := ih hbefore
    exact stop_le_of_act ((retains_of_runs run).next_le_stop.trans hstop) hstop
      (hinput _ List.mem_cons_self) act_eq

/-! ### Taking -/

theorem lookup_eq_some_iff_of_sorted (h : (decided.map Prod.fst).Pairwise (· < ·)) :
    decided.lookup slot = some v ↔ (slot, v) ∈ decided := by
  refine ⟨mem_of_lookup, fun hmem => List.lookup_eq_some_iff.mpr ?_⟩
  obtain ⟨before, after, rfl⟩ := List.append_of_mem hmem
  refine ⟨before, after, rfl, fun d hd => ?_⟩
  rw [List.map_append, List.pairwise_append] at h
  have hlt := h.2.2 d.1 (List.mem_map_of_mem hd) slot (by simp)
  simpa using Nat.ne_of_gt hlt

/-- The value of a slot that an answer lists, unless the learner has learned one already. -/
def Gets (l : Learner) (decided : List (Nat × Value)) (slot : Nat) (v : Value) : Prop :=
  (l.tally slot).learned = some v ∨
    (l.tally slot).learned = none ∧ l.next ≤ slot ∧ (slot, v) ∈ decided

/-- What an answer does to a learner that gave up no slot that it is to deliver. -/
structure CaughtUp (l : Learner) (decided : List (Nat × Value)) (l' : Learner) (d : Delivery) :
    Prop where
  /-- Slots are delivered from the next one on. -/
  next_le : l.next ≤ l'.next
  slots : d.delivered.map Prod.fst = List.range' l.next (l'.next - l.next)
  /-- What is delivered was learned or listed. -/
  gets_of_mem : ∀ slot v, (slot, v) ∈ d.delivered → l.Gets decided slot v
  /-- The slot that is next then was neither. -/
  stops : ∀ v, ¬ l.Gets decided l'.next v
  /-- What was learned or listed, from the next slot on, is learned or delivered. -/
  learned_of_gets : ∀ slot v, l.next ≤ slot → l.Gets decided slot v →
    (l'.tally slot).learned = some v ∨ (slot, v) ∈ d.delivered
  /-- What is learned was learned or listed. -/
  gets_of_learned : ∀ slot v, (l'.tally slot).learned = some v → l.Gets decided slot v

theorem caughtUp_of_takeAnswer {m : CatchUpResponse} {d : Delivery} (hlow : l.window.low ≤ l.next)
    (hsorted : (m.decided.map Prod.fst).Pairwise (· < ·)) (h : l.takeAnswer m = .ok (l', d)) :
    l.CaughtUp m.decided l' d := by
  obtain ⟨-, -, hdelivers, -⟩ := takeAnswer_cases h
  have hgets : ∀ slot v, (l.tally slot).learned.or
      (if l.next ≤ slot ∧ l.window.low ≤ slot then m.decided.lookup slot else none) = some v ↔
        l.Gets m.decided slot v := by
    intro slot v
    have hiff : (l.next ≤ slot ∧ l.window.low ≤ slot) ↔ l.next ≤ slot := by omega
    simp only [hiff, Option.or_eq_some_iff, Gets, ← lookup_eq_some_iff_of_sorted hsorted]
    split <;> simp_all
  have hlength : l'.next - l.next = d.delivered.length := by
    rw [hdelivers.next_eq, Nat.add_sub_cancel_left]
  constructor
  · rw [hdelivers.next_eq]
    exact Nat.le_add_right _ _
  · rw [hdelivers.slots, hlength]
  · exact fun slot v hmem => (hgets slot v).mp (hdelivers.learned_of_mem slot v hmem)
  · intro v hv
    have hstops := hdelivers.stops
    rcases hdelivers.tally_cases l'.next with ⟨hlt, -⟩ | ⟨_, heq⟩
    · exact absurd hlt (Nat.lt_irrefl _)
    · rw [heq] at hstops
      exact absurd (((hgets _ v).mpr hv).symm.trans hstops) (by simp)
  · intro slot v hslot hv
    rcases hdelivers.tally_cases slot with ⟨hlt, -⟩ | ⟨_, heq⟩
    · -- it was delivered, with this value
      right
      obtain ⟨v', hmem⟩ := hdelivers.mem_iff.mpr ⟨hslot, hlt⟩
      have hv' := hdelivers.learned_of_mem slot v' hmem
      obtain rfl := Option.some.inj (hv'.symm.trans ((hgets slot v).mpr hv))
      exact hmem
    · left
      rw [heq]
      exact (hgets slot v).mpr hv
  · intro slot v hv
    rcases hdelivers.tally_cases slot with ⟨-, hblank⟩ | ⟨_, heq⟩
    · rw [hblank] at hv
      cases hv
    · rw [heq] at hv
      exact (hgets slot v).mp hv

/-- If all slots that were asked for are listed, nothing is missing afterwards: what is missing then was
missing before, so it is learned by now. -/
theorem CaughtUp.missing_eq_nil {ranges' : List (Nat × Nat)} {d : Delivery}
    (h : l.CaughtUp decided l' d) (hmissing : l.missing = .ok ranges) (hlow : 0 < l.window.low)
    (hmissing' : l'.missing = .ok ranges') (hlow' : 0 < l'.window.low)
    (hdecided : ∀ slot v, (slot, v) ∈ decided → Covers ranges slot)
    (hall : ∀ slot, Covers ranges slot → ∃ v, (slot, v) ∈ decided) : ranges' = [] := by
  rcases asksFor_of_missing hmissing' with ⟨-, last, -, hbounds⟩ | hnone
  · cases ranges' with
    | nil => rfl
    | cons range rest =>
      exfalso
      have hcovered : Covers (range :: rest) range.1 :=
        ⟨range, List.mem_cons_self, le_rfl, (hbounds range List.mem_cons_self).2.1⟩
      obtain ⟨hnext, hnone, later, hlt, hlater⟩ := (covers_missing hmissing' hlow' _).mp hcovered
      have hslot := h.next_le.trans hnext
      have hnot : ∀ v, ¬ l.Gets decided range.1 v := by
        intro v hv
        rcases h.learned_of_gets _ v hslot hv with hv | hmem
        · rw [hnone] at hv
          cases hv
        · have hin := List.mem_map_of_mem (f := Prod.fst) hmem
          rw [h.slots, List.mem_range'_1] at hin
          omega
      have hopen : (l.tally range.1).learned = none :=
        Option.eq_none_iff_forall_ne_some.mpr fun v hv => hnot v (Or.inl hv)
      have hbefore : ∃ later, range.1 < later ∧ (l.tally later).learned.isSome = true := by
        obtain ⟨v, hv⟩ := Option.isSome_iff_exists.mp hlater
        rcases h.gets_of_learned later v hv with hv | ⟨-, -, hmem⟩
        · exact ⟨later, hlt, Option.isSome_of_mem hv⟩
        · obtain ⟨-, -, last, hlt', hlast⟩ :=
            (covers_missing hmissing hlow later).mp (hdecided later v hmem)
          exact ⟨last, hlt.trans hlt', hlast⟩
      obtain ⟨v, hmem⟩ := hall _ ((covers_missing hmissing hlow _).mpr ⟨hslot, hopen, hbefore⟩)
      exact hnot v (Or.inr ⟨hopen, hslot, hmem⟩)
  · exact hnone

/-- **Catching up.** Let two learners have been through anything that is about slots below `2 ^ 63`. One asks
for what it misses, the other answers, and the first one takes the answer; none of this fails. The answer
lists the slots that were asked for, that the other has delivered and still holds, with the values that
it delivered, in ascending order. None of them was learned before, and each is learned or delivered with
its value afterwards. Delivered are the slots from the next one on, up to the first that was neither
learned before nor listed, with the values that were learned or listed. If all slots that were asked for
are listed, nothing is missing afterwards.

The count of the slots filled, which is for people and not kept (`Learner.takeAnswer`), is set aside. -/
theorem catches_up (ha : Runs act (Replica.start s id epochs).learner a past)
    (hl : Runs act (Replica.start s' id' epochs').learner l past')
    (hpast : ∀ t ∈ past, t.input.Within (2 ^ 63))
    (hpast' : ∀ t ∈ past', t.input.Within (2 ^ 63)) :
    ∃ ranges decided l' d, l.missing = .ok ranges ∧
      a.answer ⟨l.id, ranges⟩ = .ok (.unicast l.id (.catchUpResponse ⟨a.id, decided⟩)) ∧
      l.takeAnswer ⟨a.id, decided⟩ = .ok (l', d) ∧
      (decided.map Prod.fst).Pairwise (· < ·) ∧
      (∀ slot v, (slot, v) ∈ decided ↔
        Covers ranges slot ∧ (slot, v) ∈ log past ∧ (a.window.get? slot).isSome = true) ∧
      (∀ slot v, (slot, v) ∈ decided → (l.tally slot).learned = none ∧
        ((l'.tally slot).learned = some v ∨ (slot, v) ∈ d.delivered)) ∧
      (∀ slot v, l.next ≤ slot → (l.tally slot).learned = some v →
        (l'.tally slot).learned = some v ∨ (slot, v) ∈ d.delivered) ∧
      (∃ stop, l.next ≤ stop ∧ d.delivered.map Prod.fst = List.range' l.next (stop - l.next) ∧
        (∀ slot v, (slot, v) ∈ d.delivered →
          (l.tally slot).learned = some v ∨ (slot, v) ∈ decided) ∧
        (l.tally stop).learned = none ∧ ∀ v, (stop, v) ∉ decided) ∧
      ((∀ slot, Covers ranges slot → ∃ v, (slot, v) ∈ decided) → l'.missing = .ok []) := by
  have hsize : 2 ^ 63 < Word.size := by decide
  have hstop := stop_le_of_runs ha (by decide) hpast
  have hstop' := stop_le_of_runs hl (by decide) hpast'
  have hretains := retains_of_runs hl
  have hnext := hretains.next_le_stop.trans hstop'
  have hlow := hretains.low_le_next
  have hpos : 0 < l.window.low := by
    rw [hretains.low_eq]
    exact Nat.one_pos.trans_le (le_max_left _ _)
  obtain ⟨ranges, hmissing⟩ := exists_missing (hstop'.trans_lt hsize)
  obtain ⟨o, hanswer⟩ := exists_answer (hstop.trans_lt hsize) ⟨l.id, ranges⟩
  obtain ⟨decided, rfl, hmem, hsorted⟩ := answer_cases hanswer
  have hcovers := covers_missing hmissing hpos
  have hpairwise : ranges.Pairwise fun a b => a.2 < b.1 := by
    rcases asksFor_of_missing hmissing with hasks | rfl
    · exact hasks.1
    · exact List.Pairwise.nil
  -- the slots that are listed are held by the other, so below the bound
  have hbound : ∀ d ∈ decided, d.1 < 2 ^ 63 := by
    rintro ⟨slot, v⟩ hd
    obtain ⟨-, t, hget, -⟩ := (hmem slot v).mp hd
    exact (Window.isSome_get?_iff.mp (Option.isSome_of_mem hget)).2.trans_le hstop
  obtain ⟨l', d, htake⟩ := exists_takeAnswer (m := ⟨a.id, decided⟩) hsize hnext hstop' hbound
  have hcaught := caughtUp_of_takeAnswer hlow (hsorted hpairwise) htake
  have hopen : ∀ slot v, (slot, v) ∈ decided → l.next ≤ slot ∧ (l.tally slot).learned = none := by
    intro slot v hd
    obtain ⟨hslot, hopen, -⟩ := (hcovers slot).mp ((hmem slot v).mp hd).1
    exact ⟨hslot, hopen⟩
  refine ⟨ranges, decided, l', d, hmissing, hanswer, htake, hsorted hpairwise, fun slot v => ?_,
    fun slot v hd => ?_, fun slot v hslot hv => ?_, ⟨l'.next, hcaught.next_le, hcaught.slots, ?_⟩, ?_⟩
  · rw [hmem]
    constructor
    · rintro ⟨hcovered, t, hget, hdelivered⟩
      exact ⟨hcovered, (mem_log_iff ha hget).mpr hdelivered, Option.isSome_of_mem hget⟩
    · rintro ⟨hcovered, hlogged, hheld⟩
      obtain ⟨t, hget⟩ := Option.isSome_iff_exists.mp hheld
      exact ⟨hcovered, t, hget, (mem_log_iff ha hget).mp hlogged⟩
  · obtain ⟨hslot, hnone⟩ := hopen slot v hd
    exact ⟨hnone, hcaught.learned_of_gets slot v hslot (Or.inr ⟨hnone, hslot, hd⟩)⟩
  · exact hcaught.learned_of_gets slot v hslot (Or.inl hv)
  · refine ⟨fun slot v hd => ?_, ?_, fun v hd => ?_⟩
    · exact (hcaught.gets_of_mem slot v hd).imp_right fun h => h.2.2
    · rw [Option.eq_none_iff_forall_ne_some]
      exact fun v hv => hcaught.stops v (Or.inl hv)
    · obtain ⟨hslot, hnone⟩ := hopen l'.next v hd
      exact hcaught.stops v (Or.inr ⟨hnone, hslot, hd⟩)
  · intro hall
    have hlow' := low_le_of_act (x := .response ⟨a.id, decided⟩) htake
    have hstop'' := stop_le_of_act (x := .response ⟨a.id, decided⟩) hnext hstop' hbound htake
    obtain ⟨ranges', hmissing'⟩ := exists_missing (hstop''.trans_lt hsize)
    rw [hmissing', hcaught.missing_eq_nil hmissing hpos hmissing' (hpos.trans_le hlow')
      (fun slot v hd => ((hmem slot v).mp hd).1) hall]

/-- One learner has delivered slots 1 to 4 and given up slot 1; another one has delivered slot 1 and
learned slots 3 and 5. It gets slots 2 and 4, and misses nothing then. -/
theorem catches_up_of_two_gaps : ∃ a past l past' ranges decided l' d,
    Runs act (Replica.start ⟨2, 3, 10, 3, .plain⟩ 0 (.zeros 3)).learner a past ∧
    Runs act (Replica.start ⟨2, 3, 10, 3, .plain⟩ 1 (.zeros 3)).learner l past' ∧
    a.window.low = 2 ∧ l.missing = .ok ranges ∧ ranges = [(2, 2), (4, 4)] ∧
    a.answer ⟨l.id, ranges⟩ = .ok (.unicast l.id (.catchUpResponse ⟨a.id, decided⟩)) ∧
    l.takeAnswer ⟨a.id, decided⟩ = .ok (l', d) ∧
    (2, .appBatch [66]) ∈ decided ∧ (4, .appBatch [68]) ∈ decided ∧ l'.missing = .ok [] := by
  let v (n : UInt8) : Value := .appBatch [n]
  let vote (sender slot : Nat) (n : UInt8) : Input :=
    .learn ⟨sender, slot, ⟨1, 1⟩, v n, .zeros 3⟩
  obtain ⟨a, past, ha, hpast, hlow, hlog, hheld, hheld'⟩ := Runs.exists_of_replay act
    (Replica.start ⟨2, 3, 10, 3, .plain⟩ 0 (.zeros 3)).learner
    [vote 0 1 65, vote 1 1 65, vote 1 2 66, vote 2 2 66, .response ⟨2, [(4, v 68), (3, v 67)]⟩]
    (fun a past => (∀ t ∈ past, t.input.Within (2 ^ 63)) ∧ a.window.low = 2 ∧
      log past = [(1, v 65), (2, v 66), (3, v 67), (4, v 68)] ∧
      (a.window.get? 2).isSome = true ∧ (a.window.get? 4).isSome = true) (by decide +kernel)
  obtain ⟨l, past', hl, hpast', hmissing⟩ := Runs.exists_of_replay act
    (Replica.start ⟨2, 3, 10, 3, .plain⟩ 1 (.zeros 3)).learner
    [.trust 1, vote 0 5 69, vote 1 5 69, vote 0 3 67, vote 2 3 67, vote 2 1 65, vote 0 1 65]
    (fun l past => (∀ t ∈ past, t.input.Within (2 ^ 63)) ∧
      l.missing.toOption = some [(2, 2), (4, 4)]) (by decide +kernel)
  obtain ⟨ranges, decided, l', d, hranges, hanswer, htake, -, hmem, -, -, -, hnothing⟩ :=
    catches_up ha hl hpast hpast'
  rw [hranges] at hmissing
  obtain rfl : ranges = [(2, 2), (4, 4)] := Option.some.inj hmissing
  have htwo : (2, v 66) ∈ decided :=
    (hmem 2 _).mpr ⟨⟨(2, 2), by decide, by decide⟩, by simp [hlog], hheld⟩
  have hfour : (4, v 68) ∈ decided :=
    (hmem 4 _).mpr ⟨⟨(4, 4), by decide, by decide⟩, by simp [hlog], hheld'⟩
  refine ⟨a, past, l, past', _, decided, l', d, ha, hl, hlow, hranges, rfl, hanswer, htake, htwo,
    hfour, hnothing fun slot hslot => ?_⟩
  obtain ⟨range, hrange, hle, hge⟩ := hslot
  rcases List.mem_pair.mp hrange with rfl | rfl
  · obtain rfl : slot = 2 := Nat.le_antisymm hge hle
    exact ⟨_, htwo⟩
  · obtain rfl : slot = 4 := Nat.le_antisymm hge hle
    exact ⟨_, hfour⟩

end Runs

end Learner

end ReplicatedLog
