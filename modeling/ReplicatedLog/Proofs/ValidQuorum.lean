import ReplicatedLog.Proofs.ConflictFree
import ReplicatedLog.Proofs.LearnerRuns
import Mathlib.Data.List.Pairwise

/-!
# Valid quorums of votes

In epoch-aware mode the votes that settle a slot should be a valid quorum. But a learner searches for
one only if some vote for the slot disagreed with its view of the membership at the time when it was
counted, and its view may be replaced between the votes for a slot.

* `Learner.Run` — runs of a learner, with the votes that it counted and the view that it had each time.
* `Learner.Run.tracks` — what a tally holds is what was counted for its slot in its round.
* `Learner.Run.validQuorum_iff` — when a slot is settled, its votes contain a valid quorum exactly if
  some vote disagreed with the view of its time, or these views agree on the senders of the votes.
* `Learner.settled_votes_may_conflict` — a run in which they do not.
-/

namespace ReplicatedLog

/-! ### What is counted -/

namespace Tally

/-- Some vote counted for the slot disagreed with the view that the learner had then. -/
def DisputedIn (history : List (Learn × EpochVector)) (slot : Nat) : Prop :=
  ∃ a ∈ history, a.1.slot = slot ∧ a.1.epochs ≠ a.2

/-- Of the votes counted for the slot in the round, none was counted under a view that knows the sender
of another under a later epoch than the view under which that one was counted. -/
def SteadyIn (history : List (Learn × EpochVector)) (slot : Nat) (round : Round) : Prop :=
  ∀ a ∈ history, ∀ b ∈ history, a.1.slot = slot ∧ a.1.round = round →
    b.1.slot = slot ∧ b.1.round = round → a.2.get b.1.sender ≤ b.2.get b.1.sender

/-- The tally holds what was counted for its slot. -/
structure Tracks (history : List (Learn × EpochVector)) (slot : Nat) (t : Tally) : Prop where
  /-- It holds the votes of its round, in order. -/
  votes_eq : t.votes =
    (history.filter fun a => a.1.slot = slot ∧ a.1.round = t.round).map Prod.fst
  /-- They are from different senders. -/
  nodup : (t.votes.map Learn.sender).Nodup
  /-- No vote was counted in a higher round. -/
  round_le : ∀ a ∈ history, a.1.slot = slot → a.1.round ≤ t.round
  /-- It notes whether some vote disagreed. -/
  disputed_iff : t.disputed = true ↔ DisputedIn history slot

/-- The votes of a tally do not settle its slot if none of them disagreed. -/
def Few (quorum : Nat) (t : Tally) : Prop :=
  t.learned = none → t.disputed = false → t.votes = [] ∨ t.votes.length < quorum

variable {history : List (Learn × EpochVector)} {slot quorum : Nat} {t t' : Tally} {m : Learn}
  {own : EpochVector}

theorem tracks_default (slot : Nat) : Tracks [] slot default :=
  ⟨rfl, List.nodup_nil, by simp, by simp [DisputedIn, default]⟩

/-- A vote that is counted for another slot makes no difference. -/
theorem Tracks.skip (h : Tracks history slot t) (hslot : m.slot ≠ slot) :
    Tracks (history ++ [(m, own)]) slot t where
  votes_eq := by
    rw [List.filter_append, List.filter_cons_of_neg (by simp [hslot]), List.filter_nil,
      List.append_nil]
    exact h.votes_eq
  nodup := h.nodup
  round_le a ha hslot' := by
    rcases List.mem_append.mp ha with ha | ha
    · exact h.round_le a ha hslot'
    · obtain rfl := List.mem_singleton.mp ha
      exact absurd hslot' hslot
  disputed_iff := by
    rw [h.disputed_iff]
    simp [DisputedIn, hslot]

/-- The votes that a vote joins are those that were counted in its round. -/
theorem Tracks.joined_eq (h : Tracks history slot t) {round : Round} (hle : t.round ≤ round) :
    t.joined round =
      (history.filter fun a => a.1.slot = slot ∧ a.1.round = round).map Prod.fst := by
  unfold joined
  split
  · rename_i hlt
    rw [eq_comm, List.map_eq_nil_iff, List.filter_eq_nil_iff]
    rintro a ha hc
    obtain ⟨hslot, rfl⟩ := of_decide_eq_true hc
    exact absurd hlt (Round.not_lt.mpr (h.round_le a ha hslot))
  · rename_i hnot
    rw [← Round.le_antisymm hle (Round.not_lt.mp hnot)]
    exact h.votes_eq

/-- A vote that is counted for the slot is held. -/
theorem Tracks.count (h : Tracks history slot t) (hslot : m.slot = slot)
    (hcount : t.count .epochAware own m = some t') :
    Tracks (history ++ [(m, own)]) slot t' := by
  have hnodup := nodup_of_count h.nodup hcount
  obtain ⟨-, hle, -, -, rfl⟩ := count_eq_some hcount
  refine ⟨?_, hnodup, fun a ha hslot' => ?_, ?_⟩
  · rw [List.filter_append, List.filter_cons_of_pos (by simp [hslot]), List.filter_nil,
      List.map_append, ← h.joined_eq hle]
    rfl
  · rcases List.mem_append.mp ha with ha | ha
    · exact (h.round_le a ha hslot').trans hle
    · obtain rfl := List.mem_singleton.mp ha
      exact le_rfl
  · rw [Bool.or_eq_true, h.disputed_iff]
    simp [DisputedIn, Mode.disputes, hslot]

/-- Whether the slot is learned or delivered makes no difference to what was counted. -/
theorem Tracks.congr (h : Tracks history slot t) (learned : Option Value) (decided : Bool) :
    Tracks history slot { t with learned, decided } :=
  ⟨h.votes_eq, h.nodup, h.round_le, h.disputed_iff⟩

end Tally

/-! ### Runs of a learner -/

namespace Learner

open Function

/-- The vote that an input makes the learner count, with the view of the membership that it has. -/
def countedBy (l : Learner) : Input → List (Learn × EpochVector)
  | .learn m => if l.Counts m then [(m, l.epochs)] else []
  | _ => []

/-- The states that runs of a learner lead to, each with the votes counted so far and the views that
the learner had when it counted them. -/
inductive Run (start : Learner) : Learner → List (Learn × EpochVector) → Prop
  /-- Nothing has happened. -/
  | start : Run start start []
  /-- One more input. -/
  | step {l l' : Learner} {history : List (Learn × EpochVector)} {x : Input} {d : Delivery} :
      Run start l history → l.act x = .ok (l', d) → Run start l' (history ++ l.countedBy x)

/-- The state after a list of inputs, with the votes counted. -/
def replay : Learner → List (Learn × EpochVector) → List Input →
    Option (Learner × List (Learn × EpochVector))
  | l, history, [] => some (l, history)
  | l, history, x :: xs =>
    match l.act x with
    | .ok (l', _) => replay l' (history ++ l.countedBy x) xs
    | .error _ => none

variable {start l l' : Learner} {history history' : List (Learn × EpochVector)}

theorem run_of_replay {xs : List Input} (hrun : Run start l history)
    (h : replay l history xs = some (l', history')) : Run start l' history' := by
  induction xs generalizing l history with
  | nil =>
    obtain ⟨rfl, rfl⟩ := Prod.mk.inj (Option.some.inj h)
    exact hrun
  | cons x xs ih =>
    unfold replay at h
    split at h
    · rename_i hact
      exact ih (hrun.step hact) h
    · cases h

/-- A run that a replay shows, and a vote that settles a slot after it. -/
theorem exists_run (start : Learner) (xs : List Input) (m : Learn) (v : Value)
    (votes : List Learn)
    (h : (replay start [] xs).any (fun a => decide ((a.1.tally m.slot).learned = none ∧
      (a.1.act (.learn m)).toOption.map (fun b => b.2.delivered) = some [(m.slot, v)] ∧
      ((a.1.tally m.slot).count .epochAware a.1.epochs m).map Tally.votes = some votes)) = true) :
    ∃ l l' history d, Run start l history ∧ l.act (.learn m) = .ok (l', d) ∧
      (l.tally m.slot).learned = none ∧ (m.slot, v) ∈ d.delivered ∧
      ((l.tally m.slot).count .epochAware l.epochs m).map Tally.votes = some votes := by
  cases hreplay : replay start [] xs with
  | none =>
    rw [hreplay] at h
    cases h
  | some a =>
    rw [hreplay] at h
    obtain ⟨hopen, hdelivered, hvotes⟩ := of_decide_eq_true h
    cases hact : a.1.act (.learn m) with
    | error e =>
      rw [hact] at hdelivered
      cases hdelivered
    | ok b =>
      rw [hact] at hdelivered
      refine ⟨a.1, b.1, a.2, b.2, run_of_replay .start hreplay, hact, hopen, ?_, hvotes⟩
      have hdelivered' : b.2.delivered = [(m.slot, v)] := Option.some.inj hdelivered
      rw [hdelivered']
      exact List.mem_singleton_self _

theorem countedBy_of_not_counts {x : Input} (h : ∀ m, x = .learn m → ¬ l.Counts m) :
    l.countedBy x = [] := by
  cases x with
  | learn m => exact if_neg (h m rfl)
  | _ => rfl

theorem countedBy_of_counts {m : Learn} (h : l.Counts m) :
    l.countedBy (.learn m) = [(m, l.epochs)] := if_pos h

/-- The tallies of a learner hold what it counted, in epoch-aware mode. -/
structure Tracks (start : Learner) (history : List (Learn × EpochVector)) (l : Learner) : Prop where
  /-- The mode stays. -/
  mode_eq : l.mode = .epochAware
  /-- The number of votes needed stays. -/
  quorum_eq : l.quorum = start.quorum
  /-- The tallies of slots that are not delivered hold what was counted. -/
  tracks : ∀ slot, l.next ≤ slot → (l.tally slot).Tracks history slot
  /-- What is not settled has few votes, or some that disagreed. -/
  few : ∀ slot, l.next ≤ slot → (l.tally slot).Few l.quorum

/-- Counting a vote changes the tally of its slot, and the tallies go on holding what was counted. -/
theorem Tracks.update (h : Tracks start history l) {m : Learn} {t : Tally}
    (hcount : (l.tally m.slot).count l.mode l.epochs m = some t) (learned : Option Value)
    (slot : Nat) (hslot : l.next ≤ slot) :
    (update l.tally m.slot { t with learned } slot).Tracks (history ++ [(m, l.epochs)]) slot := by
  rw [update_apply]
  split
  · rename_i heq
    subst heq
    rw [h.mode_eq] at hcount
    exact ((h.tracks _ hslot).count rfl hcount).congr learned t.decided
  · rename_i hne
    exact (h.tracks slot hslot).skip (Ne.symm hne)

/-- Delivering does not change what the tallies of the other slots hold. -/
theorem Tracks.deliver (hmode : l'.mode = .epochAware) (hquorum : l'.quorum = start.quorum)
    {next : Nat} {tally : Nat → Tally} {delivered : List (Nat × Value)}
    (htracks : ∀ slot, next ≤ slot → (tally slot).Tracks history slot)
    (hfew : ∀ slot, next ≤ slot → (tally slot).Few l'.quorum)
    (hdelivers : Delivers next tally l' delivered) : Tracks start history l' := by
  have hheld : ∀ slot, l'.next ≤ slot → next ≤ slot ∧
      ∃ decided, l'.tally slot = { tally slot with decided } := by
    intro slot hslot
    have hnext := hdelivers.next_eq
    refine ⟨by omega, (hdelivers.tally_cases slot).resolve_left fun h => ?_⟩
    omega
  refine ⟨hmode, hquorum, fun slot hslot => ?_, fun slot hslot => ?_⟩
  · obtain ⟨hle, decided, heq⟩ := hheld slot hslot
    rw [heq]
    exact (htracks slot hle).congr _ decided
  · obtain ⟨hle, decided, heq⟩ := hheld slot hslot
    rw [heq]
    exact hfew slot hle

/-- **Tallies hold what was counted**, after every run from a fresh learner in epoch-aware mode. -/
theorem Run.tracks (hwindow : start.window = {}) (hmode : start.mode = .epochAware)
    (h : Run start l history) : Tracks start history l := by
  induction h with
  | start =>
    have hblank : ∀ slot, start.tally slot = default := by
      intro slot
      rw [tally, hwindow, Window.get?_empty]
      rfl
    refine ⟨hmode, rfl, fun slot _ => ?_, fun slot _ => ?_⟩
    · rw [hblank]
      exact Tally.tracks_default slot
    · rw [hblank]
      exact fun _ _ => Or.inl rfl
  | @step l l' history x d _ hact ih =>
    cases acts_of_act hact with
    | quiet id_eq quorum_eq mode_eq epochs_eq next_eq tally_eq isRequest ignored =>
      rw [countedBy_of_not_counts ignored, List.append_nil]
      refine ⟨mode_eq.trans ih.mode_eq, quorum_eq.trans ih.quorum_eq, ?_, ?_⟩
      · rw [next_eq, tally_eq]
        exact ih.tracks
      · rw [next_eq, tally_eq, quorum_eq]
        exact ih.few
    | answer =>
      rw [countedBy_of_not_counts (by simp), List.append_nil]
      exact ih
    | @count m _ t same counts next_eq count_eq unsettled tally_eq =>
      rw [countedBy_of_counts counts]
      refine ⟨same.mode_eq.trans ih.mode_eq, same.quorum_eq.trans ih.quorum_eq, ?_, ?_⟩
      · rw [next_eq, tally_eq]
        exact ih.update count_eq t.learned
      · rw [next_eq, tally_eq, same.quorum_eq]
        intro slot hslot
        rw [update_apply]
        split
        · -- votes that nobody disputes settle the slot as soon as there are enough
          intro _ hdisputed
          rw [ih.mode_eq, Mode.settles.eq_def, hdisputed] at unsettled
          right
          simpa using unsettled
        · exact ih.few slot hslot
    | @settle m _ t delivered outbound same counts count_eq settled delivers isRequest =>
      rw [countedBy_of_counts counts]
      refine Tracks.deliver (same.mode_eq.trans ih.mode_eq) (same.quorum_eq.trans ih.quorum_eq)
        (ih.update count_eq t.candidate) (fun slot hslot => ?_) delivers
      rw [same.quorum_eq, update_apply]
      split
      · intro hlearned
        obtain ⟨-, -, -, -, rfl⟩ := Tally.count_eq_some count_eq
        simp [Tally.candidate] at hlearned
      · exact ih.few slot hslot
    | @take m _ tally delivered same takes delivers =>
      rw [countedBy_of_not_counts (by simp), List.append_nil]
      refine Tracks.deliver (same.mode_eq.trans ih.mode_eq) (same.quorum_eq.trans ih.quorum_eq)
        (fun slot hslot => ?_) (fun slot hslot => ?_) delivers
      · rcases takes slot with heq | ⟨value, -, -, heq⟩
        · rw [heq]
          exact ih.tracks slot hslot
        · rw [heq]
          exact (ih.tracks slot hslot).congr _ _
      · rw [same.quorum_eq]
        rcases takes slot with heq | ⟨value, -, -, heq⟩
        · rw [heq]
          exact ih.few slot hslot
        · rw [heq]
          intro hlearned
          cases hlearned

/-! ### When a slot is settled -/

/-- A slot that becomes learned with a vote is settled by it. -/
theorem settles_of_learned {m : Learn} {d : Delivery} {v : Value}
    (hact : l.act (.learn m) = .ok (l', d)) (hopen : (l.tally m.slot).learned = none)
    (hlearned : (m.slot, v) ∈ d.delivered ∨ (l'.tally m.slot).learned = some v) :
    ∃ t, l.Counts m ∧ (l.tally m.slot).count l.mode l.epochs m = some t ∧
      l.mode.settles t.votes l.quorum t.disputed = true := by
  obtain ⟨-, hcounts, t, hcount, hsettled, -⟩ := settled_of_learned hact hopen hlearned.symm
  exact ⟨t, hcounts, hcount, hsettled⟩

/-- Votes that were counted under views of which none disagreed with its vote are a valid quorum
exactly if these views agree on their senders, as long as there are no more votes than needed. -/
theorem validQuorum_iff_steadyIn {slot quorum : Nat} {t : Tally} (h : t.Tracks history slot)
    (hdisputed : ¬ Tally.DisputedIn history slot) (hlength : quorum ≤ t.votes.length)
    (hfew : t.votes.length ≤ quorum ∨ ∃ m, t.votes = [m]) :
    ValidQuorum quorum t.votes ↔ Tally.SteadyIn history slot t.round := by
  -- a vote that the tally holds, and the view under which it was counted
  have hmem : ∀ {a}, a ∈ history → a.1.slot = slot ∧ a.1.round = t.round →
      a.1 ∈ t.votes ∧ a.1.epochs = a.2 := by
    intro a ha hc
    refine ⟨?_, by_contra fun hne => hdisputed ⟨a, ha, hc.1, hne⟩⟩
    rw [h.votes_eq]
    exact List.mem_map.mpr ⟨a, List.mem_filter.mpr ⟨ha, decide_eq_true hc⟩, rfl⟩
  have hexists : ∀ vote ∈ t.votes, ∃ a ∈ history, a.1 = vote ∧
      (a.1.slot = slot ∧ a.1.round = t.round) := by
    intro vote hvote
    rw [h.votes_eq] at hvote
    obtain ⟨a, ha, rfl⟩ := List.mem_map.mp hvote
    obtain ⟨ha, hc⟩ := List.mem_filter.mp ha
    exact ⟨a, ha, rfl, of_decide_eq_true hc⟩
  constructor
  · rintro ⟨Q, hsub, hQ, hfree⟩ a ha b hb hac hbc
    obtain ⟨ha', haview⟩ := hmem ha hac
    obtain ⟨hb', hbview⟩ := hmem hb hbc
    rw [← haview, ← hbview]
    by_cases heq : a.1 = b.1
    · rw [heq]
    · rcases hfew with hle | ⟨m, hm⟩
      · obtain rfl := hsub.eq_of_length_le (hle.trans hQ.ge)
        have hsymm : Std.Symm fun a b : Learn => a.stamp.conflicts b.stamp = false :=
          ⟨fun a b hab => by rwa [Stamp.conflicts_comm]⟩
        exact (Stamp.conflicts_eq_false_iff.mp (hfree.forall ha' hb' heq)).2.1
      · rw [hm] at ha' hb'
        exact absurd ((List.mem_singleton.mp ha').trans (List.mem_singleton.mp hb').symm) heq
  · intro hsteady
    refine ⟨t.votes.take quorum, List.take_sublist _ _, List.length_take_of_le hlength,
      List.Pairwise.sublist (List.take_sublist _ _) ?_⟩
    refine (List.pairwise_map.mp h.nodup).imp_of_mem fun {vote vote'} hvote hvote' hne => ?_
    obtain ⟨a, ha, rfl, hac⟩ := hexists vote hvote
    obtain ⟨b, hb, rfl, hbc⟩ := hexists vote' hvote'
    refine Stamp.conflicts_eq_false_iff.mpr ⟨hne, ?_, ?_⟩
    · show a.1.epochs.get b.1.sender ≤ b.1.epochs.get b.1.sender
      rw [(hmem ha hac).2, (hmem hb hbc).2]
      exact hsteady a ha b hb hac hbc
    · show b.1.epochs.get a.1.sender ≤ a.1.epochs.get a.1.sender
      rw [(hmem ha hac).2, (hmem hb hbc).2]
      exact hsteady b hb a ha hbc hac

/-- **When settled votes are a valid quorum**: when a vote settles its slot, the votes tallied for it
contain a valid quorum exactly if some vote for the slot disagreed with the view that the learner had
at its time, or the views of these times agree on the senders of the votes. -/
theorem Run.validQuorum_iff (hwindow : start.window = {}) (hmode : start.mode = .epochAware)
    (hrun : Run start l history) {m : Learn} {d : Delivery} {v : Value}
    (hact : l.act (.learn m) = .ok (l', d)) (hopen : (l.tally m.slot).learned = none)
    (hlearned : (m.slot, v) ∈ d.delivered ∨ (l'.tally m.slot).learned = some v) :
    ∃ t, (l.tally m.slot).count .epochAware l.epochs m = some t ∧
      (ValidQuorum start.quorum t.votes ↔
        Tally.DisputedIn (history ++ [(m, l.epochs)]) m.slot ∨
          Tally.SteadyIn (history ++ [(m, l.epochs)]) m.slot m.round) := by
  have htracks := hrun.tracks hwindow hmode
  obtain ⟨t, hcounts, hcount, hsettles⟩ := settles_of_learned hact hopen hlearned
  rw [htracks.mode_eq] at hcount hsettles
  rw [htracks.quorum_eq] at hsettles
  refine ⟨t, hcount, ?_⟩
  have ht := (htracks.tracks _ hcounts.1).count rfl hcount
  have hround : t.round = m.round := by
    obtain ⟨-, -, -, -, rfl⟩ := Tally.count_eq_some hcount
    rfl
  have hlength := Mode.le_length_of_settles hsettles
  by_cases hdisputed : Tally.DisputedIn (history ++ [(m, l.epochs)]) m.slot
  · -- the learner has searched for a valid quorum
    refine ⟨fun _ => Or.inl hdisputed, fun _ => ?_⟩
    rw [Mode.settles.eq_def, ht.disputed_iff.mpr hdisputed, Bool.and_eq_true] at hsettles
    exact isSome_firstValidQuorum_iff.mp (by simpa using hsettles.2)
  · rw [validQuorum_iff_steadyIn ht hdisputed hlength ?_, hround]
    · exact ⟨Or.inr, fun h => h.resolve_left hdisputed⟩
    -- without disagreement the slot is settled as soon as there are enough votes
    · have hfew := htracks.few _ hcounts.1 hopen
      rw [htracks.quorum_eq] at hfew
      obtain ⟨-, -, -, -, rfl⟩ := Tally.count_eq_some hcount
      have hundisputed : (l.tally m.slot).disputed = false := by
        rw [← Bool.not_eq_true]
        intro h
        exact hdisputed (ht.disputed_iff.mp (by rw [Bool.or_eq_true]; exact Or.inl h))
      unfold Tally.joined
      rw [List.length_append]
      split
      · exact Or.inr ⟨m, rfl⟩
      · rcases hfew hundisputed with hnil | hlt
        · exact Or.inr ⟨m, by rw [hnil]; rfl⟩
        · exact Or.inl hlt

/-- Two votes that agree with the view of the learner settle a slot. -/
theorem Run.validQuorum_iff_of_one_view : ∃ (l l' : Learner) (history : List (Learn × EpochVector))
    (t : Tally),
    Run { id := 0, quorum := 2, retention := 16, epochs := .zeros 3, mode := .epochAware } l
        history ∧
      (∃ d, l.act (.learn ⟨2, 1, ⟨1, 0⟩, .appBatch [65], .zeros 3⟩) = .ok (l', d) ∧
        (1, Value.appBatch [65]) ∈ d.delivered) ∧
      (ValidQuorum 2 t.votes ↔
        Tally.DisputedIn (history ++ [(⟨2, 1, ⟨1, 0⟩, .appBatch [65], .zeros 3⟩, l.epochs)]) 1 ∨
          Tally.SteadyIn (history ++ [(⟨2, 1, ⟨1, 0⟩, .appBatch [65], .zeros 3⟩, l.epochs)]) 1
            ⟨1, 0⟩) := by
  let first : Learn := ⟨1, 1, ⟨1, 0⟩, .appBatch [65], .zeros 3⟩
  let second : Learn := ⟨2, 1, ⟨1, 0⟩, .appBatch [65], .zeros 3⟩
  obtain ⟨l, l', history, d, hrun, hact, hopen, hmem, -⟩ := exists_run
    { id := 0, quorum := 2, retention := 16, epochs := .zeros 3, mode := .epochAware }
    [.learn first] second (.appBatch [65]) [first, second] (by decide +kernel)
  obtain ⟨t, -, hiff⟩ := hrun.validQuorum_iff rfl rfl hact hopen (Or.inl hmem)
  exact ⟨l, l', history, t, hrun, ⟨d, hact, hmem⟩, hiff⟩

/-- **Settled votes need not be a valid quorum**: a vote is counted under one view, the view is
replaced, and the vote that settles the slot agrees with the new view. Each of the two agrees with the
view of its time, but the second sender knows the first under a later epoch. -/
theorem settled_votes_may_conflict : ¬ ∀ (start l l' : Learner)
    (history : List (Learn × EpochVector)) (m : Learn) (d : Delivery) (v : Value) (t : Tally),
    start.window = {} → start.mode = .epochAware → Run start l history →
      l.act (.learn m) = .ok (l', d) → (l.tally m.slot).learned = none →
        (m.slot, v) ∈ d.delivered → (l.tally m.slot).count .epochAware l.epochs m = some t →
          ValidQuorum start.quorum t.votes := by
  let first : Learn := ⟨1, 1, ⟨1, 0⟩, .appBatch [65], ⟨[0, 0, 0]⟩⟩
  let second : Learn := ⟨2, 1, ⟨1, 0⟩, .appBatch [65], ⟨[0, 1, 0]⟩⟩
  intro hall
  obtain ⟨l, l', history, d, hrun, hact, hopen, hmem, hvotes⟩ := exists_run
    { id := 0, quorum := 2, retention := 16, epochs := .zeros 3, mode := .epochAware }
    [.learn first, .setEpochs ⟨[0, 1, 0]⟩] second (.appBatch [65]) [first, second]
    (by decide +kernel)
  obtain ⟨t, hcount, ht⟩ := Option.map_eq_some_iff.mp hvotes
  have hvalid := hall _ l l' history second d _ t rfl rfl hrun hact hopen hmem hcount
  rw [ht] at hvalid
  exact absurd hvalid (by decide +kernel)

end Learner

end ReplicatedLog
