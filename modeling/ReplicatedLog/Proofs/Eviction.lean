import ReplicatedLog.Proofs.Agreement

/-!
# Eviction

Acceptors forget votes far below the slots that are proposed for. A value that a quorum voted for
stays the only one that later rounds propose for its slot, provided that no acceptor that voted in the
same round promises to a leader that asks about the slot after having given it up
(`Reachable.proposal_keeps_chosen`).

The roles do not see to that. A promise does not tell which slots were given up, so a leader whose
own deliveries lag behind takes a slot without reports for a hole and fills it with a no-op, although
a value was chosen for it (`Reachable.chosen_value_may_be_lost`).
-/

namespace ReplicatedLog

namespace Reachable

/-- **Chosen values survive** the rounds to come, if every acceptor that voted for the slot in the
round of the choice and promises to a leader that asks about the slot has not given it up. -/
theorem proposal_keeps_chosen {c : ReplicaSettings} {w : World} {slot : Nat} {r r' : Round}
    {v v' : Value} (h : Reachable c (fun w e => e.Ordinary ∧ w.Shows r slot e) w)
    (hchosen : Chosen c.quorum w.sent r slot v) (hproposed : Proposed w.sent r' slot v')
    (hlt : r < r') : v' = v := by
  have hsound := h.ballots (fun _ _ henv => henv.1) slot
  have hshown := h.shown (fun _ _ henv => henv.1) (fun _ _ henv => henv.2)
  exact hsound.value_eq_of_chosen c.lt_quorum_add_quorum hshown hchosen hproposed hlt.le

/-- With a retention of one, an acceptor gives up slot 1 when it votes for slot 3. It still holds its vote
for slot 2, and promises to a second leader, which asks from there on: whatever this one proposes for
slot 2, and it proposes something, is the value that was chosen. -/
theorem proposal_keeps_chosen_of_second_leader : ∃ (c : ReplicaSettings) (w : World),
    c.validate = .ok () ∧ Reachable c (fun w e => e.Ordinary ∧ w.Shows ⟨1, 0⟩ 2 e) w ∧
      (w.acceptors 1).window.low = 2 ∧ Chosen c.quorum w.sent ⟨1, 0⟩ 2 (.appBatch [66]) ∧
      (∃ v', Proposed w.sent ⟨2, 2⟩ 2 v') ∧
      ∀ v', Proposed w.sent ⟨2, 2⟩ 2 v' → v' = .appBatch [66] := by
  let c : ReplicaSettings := { alpha := 1, retention := 1 }
  let r : Round := ⟨1, 0⟩
  let r' : Round := ⟨2, 2⟩
  let e : EpochVector := .zeros 3
  let v₁ := Value.appBatch [65]
  let v₂ := Value.appBatch [66]
  let v₃ := Value.appBatch [67]
  obtain ⟨w, hw, hlow, hvote, hvote', haccept⟩ :=
    World.exists_reachable c (fun w e => e.Ordinary ∧ w.Shows r 2 e)
      [.proposer 0 (.trust 0), .acceptor 0 (.prepare ⟨0, r, 0⟩),
        .acceptor 1 (.prepare ⟨0, r, 0⟩), .proposer 0 (.promise ⟨0, r, [], e⟩),
        .proposer 0 (.promise ⟨1, r, [], e⟩),
        .proposer 0 (.submit v₁), .acceptor 0 (.accept ⟨0, r, 1, v₁, e⟩),
        .acceptor 1 (.accept ⟨0, r, 1, v₁, e⟩), .learner 0 (.learn ⟨0, 1, r, v₁, e⟩),
        .learner 0 (.learn ⟨1, 1, r, v₁, e⟩), .handOver 0,
        .proposer 0 (.submit v₂), .acceptor 0 (.accept ⟨0, r, 2, v₂, e⟩),
        .acceptor 1 (.accept ⟨0, r, 2, v₂, e⟩), .learner 0 (.learn ⟨0, 2, r, v₂, e⟩),
        .learner 0 (.learn ⟨1, 2, r, v₂, e⟩), .handOver 0,
        .proposer 0 (.submit v₃), .acceptor 1 (.accept ⟨0, r, 3, v₃, e⟩),
        .learner 2 (.learn ⟨0, 1, r, v₁, e⟩), .learner 2 (.learn ⟨1, 1, r, v₁, e⟩), .handOver 2,
        .proposer 2 (.trust 2), .acceptor 1 (.prepare ⟨2, r', 1⟩),
        .acceptor 2 (.prepare ⟨2, r', 1⟩),
        .proposer 2 (.promise ⟨1, r', [⟨2, r, v₂⟩, ⟨3, r, v₃⟩], e⟩),
        .proposer 2 (.promise ⟨2, r', [], e⟩)]
      (fun w => (w.acceptors 1).window.low = 2 ∧ Said w.sent (.learn ⟨0, 2, r, v₂, e⟩) ∧
        Said w.sent (.learn ⟨1, 2, r, v₂, e⟩) ∧
        ∃ m ∈ select Message.accept? w.sent, m.round = r' ∧ m.slot = 2)
      (by decide +kernel)
  have hchosen : Chosen c.quorum w.sent r 2 v₂ :=
    ⟨[0, 1], by decide, by simp [c, ReplicaSettings.quorum], by simpa using ⟨⟨e, hvote⟩, ⟨e, hvote'⟩⟩⟩
  have hproposed : ∃ v', Proposed w.sent r' 2 v' := by
    obtain ⟨m, hm, hround, hslot⟩ := haccept
    obtain ⟨_, hsaid, haccept⟩ := mem_select.mp hm
    rw [Message.accept?_eq_some.mp haccept] at hsaid
    exact ⟨m.value, m.sender, m.epochs, by rwa [← hround, ← hslot]⟩
  exact ⟨c, w, by decide, hw, hlow, hchosen, hproposed, fun v' hv' =>
    hw.proposal_keeps_chosen hchosen hv' (by decide)⟩

/-- **Without that condition a chosen value may be lost**, with valid settings: an acceptor gives up
slot 1 when it votes for slot 3, and promises to a leader that has delivered nothing. -/
theorem chosen_value_may_be_lost : ¬ ∀ (c : ReplicaSettings) (w : World) (slot : Nat) (r r' : Round)
    (v v' : Value), c.validate = .ok () → Reachable c (fun _ e => e.Ordinary) w →
      Chosen c.quorum w.sent r slot v → Proposed w.sent r' slot v' → r < r' → v' = v := by
  let c : ReplicaSettings := { alpha := 1, retention := 1 }
  let r : Round := ⟨1, 0⟩
  let r' : Round := ⟨1, 2⟩
  let e : EpochVector := .zeros 3
  let v₁ := Value.appBatch [65]
  let v₂ := Value.appBatch [66]
  let v₃ := Value.appBatch [67]
  intro hall
  obtain ⟨w, hw, hvote, hvote', haccept⟩ :=
    World.exists_reachable c (fun _ e => e.Ordinary)
      [.proposer 0 (.trust 0), .acceptor 0 (.prepare ⟨0, r, 0⟩),
        .acceptor 1 (.prepare ⟨0, r, 0⟩), .proposer 0 (.promise ⟨0, r, [], e⟩),
        .proposer 0 (.promise ⟨1, r, [], e⟩),
        .proposer 0 (.submit v₁), .acceptor 0 (.accept ⟨0, r, 1, v₁, e⟩),
        .acceptor 1 (.accept ⟨0, r, 1, v₁, e⟩), .learner 0 (.learn ⟨0, 1, r, v₁, e⟩),
        .learner 0 (.learn ⟨1, 1, r, v₁, e⟩), .handOver 0,
        .proposer 0 (.submit v₂), .acceptor 0 (.accept ⟨0, r, 2, v₂, e⟩),
        .acceptor 1 (.accept ⟨0, r, 2, v₂, e⟩), .learner 0 (.learn ⟨0, 2, r, v₂, e⟩),
        .learner 0 (.learn ⟨1, 2, r, v₂, e⟩), .handOver 0,
        .proposer 0 (.submit v₃), .acceptor 1 (.accept ⟨0, r, 3, v₃, e⟩),
        .proposer 2 (.trust 2), .acceptor 1 (.prepare ⟨2, r', 0⟩),
        .acceptor 2 (.prepare ⟨2, r', 0⟩),
        .proposer 2 (.promise ⟨1, r', [⟨2, r, v₂⟩, ⟨3, r, v₃⟩], e⟩),
        .proposer 2 (.promise ⟨2, r', [], e⟩)]
      (fun w => Said w.sent (.learn ⟨0, 1, r, v₁, e⟩) ∧ Said w.sent (.learn ⟨1, 1, r, v₁, e⟩) ∧
        Said w.sent (.accept ⟨2, r', 1, .noop, e⟩))
      (by decide +kernel)
  have hchosen : Chosen c.quorum w.sent r 1 v₁ :=
    ⟨[0, 1], by decide, by simp [c, ReplicaSettings.quorum], by simpa using ⟨⟨e, hvote⟩, ⟨e, hvote'⟩⟩⟩
  have heq := hall c w 1 r r' v₁ .noop (by decide) hw hchosen ⟨2, e, haccept⟩ (by decide)
  exact absurd heq (by decide)

end Reachable

end ReplicatedLog
