import ReplicatedLog.Proofs.LearnerRuns

/-!
# The tallies of a learner

What a learner has counted for a slot, whatever votes arrive: a vote of a higher round discards those
before it; late votes, votes of lower rounds, second votes of a sender and votes that differ from those
before them in one round do not count; and an answer may bring the value of a slot that votes were
counted for. After any of this the votes of a tally are for its slot, in its round, for one value and
from different senders (`Tally.Uniform`), and in plain mode there are too few of them as long as the
slot is not learned (`Tallied`). So a slot that a vote makes learned has its value from a quorum of
votes. This is `uniform_tallies`.
-/

namespace ReplicatedLog

namespace Learner

variable {l l' : Learner} {x : Input} {d : Delivery} {past : Past} {slot : Nat} {t : Tally}
  {s : RoleSettings} {v : Value}

/-! ### Changes of a tally -/

theorem Changes.uniform (h : l.Changes x slot t) (huniform : (l.tally slot).Uniform slot) :
    t.Uniform slot := by
  cases h with
  | same => exact huniform
  | counts _ _ slot_eq count_eq => exact huniform.count slot_eq count_eq
  | settles _ _ slot_eq count_eq => exact (huniform.count slot_eq count_eq).congr _ _
  | takes => exact huniform.congr _ _

/-- A tally that counts a vote has a candidate. -/
theorem candidate_of_count {mode : Mode} {own : EpochVector} {m : Learn} {t' : Tally}
    (h : t.count mode own m = some t') : t'.candidate.isSome = true := by
  obtain ⟨-, -, -, -, rfl⟩ := Tally.count_eq_some h
  simp [Tally.candidate]

/-- In plain mode a slot is learned as soon as there are enough votes. -/
theorem Changes.few (h : l.Changes x slot t) (hplain : l.mode = .plain)
    (hfew : (l.tally slot).learned = none → (l.tally slot).votes.length < l.quorum)
    (hopen : t.learned = none) : t.votes.length < l.quorum := by
  cases h with
  | same => exact hfew hopen
  | counts _ _ _ _ unsettled =>
    rw [hplain] at unsettled
    simpa [Mode.settles] using unsettled
  | @settles _ t _ _ _ count_eq =>
    have hcandidate := candidate_of_count count_eq
    rw [show t.candidate = none from hopen] at hcandidate
    cases hcandidate
  | takes => cases hopen

/-- After a step the tally of a slot is blank, or a changed one that may be marked. -/
theorem tally_cases_of_act (h : l.act x = .ok (l', d)) (slot : Nat) : l'.tally slot = default ∨
    ∃ t decided, l.Changes x slot t ∧ l'.tally slot = { t with decided } := by
  obtain ⟨tally, hchanges, -, heq⟩ := exists_tally_of_act h
  by_cases hslot : l'.window.low ≤ slot
  · exact Or.inr ⟨tally slot, _, hchanges slot, heq slot hslot⟩
  · left
    have hnone : l'.window.get? slot = none :=
      Window.get?_of_lt_low (Nat.not_le.mp hslot)
    rw [Learner.tally, hnone]
    rfl

/-! ### Runs -/

/-- What a learner with the settings `s` has counted. -/
structure Tallied (s : RoleSettings) (l : Learner) : Prop where
  /-- It needs as many votes. -/
  quorum_eq : l.quorum = s.quorum
  /-- It goes by the same rules. -/
  mode_eq : l.mode = s.mode
  /-- The votes for a slot belong together. -/
  uniform : ∀ slot, (l.tally slot).Uniform slot
  /-- In plain mode there are too few for a slot that is not learned. -/
  few : s.mode = .plain → ∀ slot, (l.tally slot).learned = none →
    (l.tally slot).votes.length < s.quorum

/-- **Tallies stay as they should be** in every step. -/
theorem Tallied.act (h : l.Tallied s) (hquorum : 0 < s.quorum) (hact : l.act x = .ok (l', d)) :
    l'.Tallied s := by
  obtain ⟨hquorum_eq, hmode_eq, -⟩ := view_of_act hact
  constructor
  · exact hquorum_eq.trans h.quorum_eq
  · exact hmode_eq.trans h.mode_eq
  · intro slot
    rcases tally_cases_of_act hact slot with hblank | ⟨t, decided, hchanges, heq⟩
    · rw [hblank]
      exact Tally.uniform_default slot
    · rw [heq]
      exact (hchanges.uniform (h.uniform slot)).congr _ _
  · intro hplain slot hopen
    rcases tally_cases_of_act hact slot with hblank | ⟨t, decided, hchanges, heq⟩
    · rw [hblank]
      exact hquorum
    · rw [heq] at hopen ⊢
      have hfew := h.few hplain slot
      rw [← h.quorum_eq] at hfew ⊢
      exact hchanges.few (h.mode_eq.trans hplain) hfew hopen

theorem tallied_of_runs {id : Nat} {epochs : EpochVector}
    (h : Runs act (Replica.start s id epochs).learner l past) (hquorum : 0 < s.quorum) :
    l.Tallied s := by
  induction h with
  | nil =>
    constructor
    · rfl
    · rfl
    · intro slot
      rw [tally_start]
      exact Tally.uniform_default slot
    · intro _ slot _
      rw [tally_start]
      exact hquorum
  | step _ act_eq ih => exact ih.act hquorum act_eq

/-- **The votes that a learner has counted**, whatever happens to it. For every slot that is held they
are for the slot, in its round, for one value and from different senders; in plain mode a quorum of
them makes the slot learned. The round of a slot does not fall. And when a vote makes a slot learned,
there is a quorum of such votes for the value that it is learned with, also if the slot is delivered and
given up at once. -/
theorem uniform_tallies {id : Nat} {epochs : EpochVector}
    (h : Runs act (Replica.start s id epochs).learner l past) (hquorum : 0 < s.quorum) :
    (∀ slot t, l.window.get? slot = some t → t.Uniform slot ∧
      (s.mode = .plain → s.quorum ≤ t.votes.length → t.learned.isSome = true)) ∧
    (∀ l' later, Runs act l l' later → ∀ slot t t', l.window.get? slot = some t →
      l'.window.get? slot = some t' → t.round ≤ t'.round) ∧
    ∀ m l' d, l.act (.learn m) = .ok (l', d) → ∀ slot v, (l.tally slot).learned = none →
      (l'.tally slot).learned = some v ∨ (slot, v) ∈ d.delivered →
        ∃ t, slot = m.slot ∧ (l.tally slot).count l.mode l.epochs m = some t ∧ t.Uniform slot ∧
          s.quorum ≤ t.votes.length ∧ (∀ vote ∈ t.votes, vote.value = v) ∧
          ∀ t', l'.window.get? slot = some t' →
            t'.votes = t.votes ∧ t'.round = t.round ∧ t'.learned = some v := by
  have htallied := tallied_of_runs h hquorum
  refine ⟨fun slot t ht => ?_, fun l' later h' slot t t' ht ht' => ?_, ?_⟩
  · obtain rfl := tally_of_get? ht
    refine ⟨htallied.uniform slot, fun hplain henough => ?_⟩
    rw [Option.isSome_iff_ne_none]
    intro hopen
    have hfew := htallied.few hplain slot hopen
    omega
  · have hslot := Window.low_le_of_get? ht'
    rw [← tally_of_get? ht, ← tally_of_get? ht']
    exact (grows_of_runs h' hslot).round_le
  · intro m l' d hact slot v hopen hlearned
    obtain ⟨hslot, -, t, hcount, hsettled, hcandidate, htally⟩ :=
      settled_of_learned hact hopen hlearned
    have huniform := (htallied.uniform slot).count hslot.symm hcount
    refine ⟨t, hslot, hcount, huniform, ?_, fun vote hvote => ?_, fun t' ht' => ?_⟩
    · rw [← htallied.quorum_eq]
      exact Mode.le_length_of_settles hsettled
    · apply Option.some.inj
      rw [← hcandidate]
      exact (huniform.agree vote hvote).symm
    · obtain ⟨decided, heq⟩ := htally (Window.low_le_of_get? ht')
      rw [← tally_of_get? ht', heq]
      exact ⟨rfl, rfl, rfl⟩

/-- A vote of a higher round discards the one that was counted; votes that are late, of a lower round or
for another value do not count. The second vote of that round settles slot 1. With no retention the slot
is given up at once. -/
theorem uniform_tallies_of_second_round : ∃ l past l' d,
    Runs act (Replica.start ⟨2, 3, 10, 0, .plain⟩ 0 (.zeros 3)).learner l past ∧
    (l.tally 1).votes = [⟨2, 1, ⟨3, 1⟩, .appBatch [66], .zeros 3⟩] ∧ (l.tally 1).Uniform 1 ∧
    l.act (.learn ⟨0, 1, ⟨3, 1⟩, .appBatch [66], .zeros 3⟩) = .ok (l', d) ∧
    d.delivered = [(1, .appBatch [66]), (2, .appBatch [67])] ∧
    ∃ t, (l.tally 1).count l.mode l.epochs ⟨0, 1, ⟨3, 1⟩, .appBatch [66], .zeros 3⟩ = some t ∧
      t.Uniform 1 ∧ 2 ≤ t.votes.length ∧ ∀ vote ∈ t.votes, vote.value = .appBatch [66] := by
  let v (n : UInt8) : Value := .appBatch [n]
  let vote (sender slot counter : Nat) (n : UInt8) : Learn :=
    ⟨sender, slot, ⟨counter, 1⟩, v n, .zeros 3⟩
  let last : Learn := vote 0 1 3 66
  obtain ⟨l, past, h, hlearned, hvotes, hact⟩ := Runs.exists_of_replay act
    (Replica.start ⟨2, 3, 10, 0, .plain⟩ 0 (.zeros 3)).learner
    [.learn (vote 1 1 2 65), .learn (vote 1 1 2 65), .learn (vote 2 1 3 66),
      .learn (vote 0 1 2 65), .learn (vote 0 1 3 65), .response ⟨1, [(2, v 67)]⟩,
      .learn (vote 1 2 9 68)]
    (fun l _ => (l.tally 1).learned = none ∧ (l.tally 1).votes = [vote 2 1 3 66] ∧
      (l.act (.learn last)).toOption.map (fun r => r.2.delivered) =
        some [(1, v 66), (2, v 67)]) (by decide +kernel)
  have hquorum : 0 < 2 := by decide
  obtain ⟨hheld, -, hsettled⟩ := uniform_tallies h hquorum
  cases hstep : l.act (.learn last) with
  | error e =>
    rw [hstep] at hact
    cases hact
  | ok r =>
    obtain ⟨l', d⟩ := r
    rw [hstep] at hact
    have hdelivered : d.delivered = [(1, v 66), (2, v 67)] := Option.some.inj hact
    have hmem : (1, v 66) ∈ d.delivered := by simp [hdelivered]
    have hne : l.tally 1 ≠ default := by
      intro hblank
      rw [hblank] at hvotes
      cases hvotes
    obtain ⟨t, -, hcount, huniform, henough, hvalues, -⟩ :=
      hsettled last l' d hstep 1 (v 66) hlearned (Or.inr hmem)
    exact ⟨l, past, l', d, h, hvotes, (hheld 1 _ (get?_of_tally_ne hne)).1, hstep, hdelivered, t,
      hcount, huniform, henough, hvalues⟩

end Learner

end ReplicatedLog
