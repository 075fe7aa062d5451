import ReplicatedLog.Proofs.Agreement
import ReplicatedLog.Proofs.Pacing

/-!
# The pipeline

A proposer proposes for at most `alpha` slots beyond those that it takes for decided
(`Proposer.Paced`), and what it takes for decided was delivered by the learner of its replica. An
acceptor keeps the votes of `retention` slots below a slot that is proposed for, so with a retention
of at least `alpha` it gives up slots only that were delivered somewhere
(`Reachable.delivered_of_lt_low`), no matter how late a proposal arrives and who made it.
-/

namespace ReplicatedLog

variable {c : ReplicaSettings} {Env : World → Event → Prop} {w : World}

namespace Reachable

/-- In every reachable world, no proposer has proposed more than a pipeline beyond the slots that it
takes for decided. -/
theorem proposer_paced (h : Reachable c Env w) (i : Nat) :
    (w.proposers i).Paced c.alpha w.sent i ∧ (w.proposers i).window.low = (w.proposers i).adu + 1 := by
  refine h.proposers (P := fun i p sent => p.Paced c.alpha sent i ∧ p.window.low = p.adu + 1)
    (fun i => ⟨Proposer.paced_start i rfl rfl, rfl⟩) (fun i p sent out hout h => ?_) ?_ i
  · refine ⟨h.1.append fun m ⟨o, ho, heq⟩ hi => hout o ho ?_, h.2⟩
    rw [Outgoing.author, heq, Message.author, hi]
  · intro w i x p p' out _ _ _ hp hact
    exact ⟨hp.1.act hp.2 hact, (Proposer.author_of_act hp.2 hact).2.1⟩

/-- Only replicas of the cluster deliver anything. -/
theorem lt_replicas_of_mem_logs (h : Reachable c Env w) {i : Nat} {d : Nat × Value}
    (hd : d ∈ w.logs i) : i < c.replicas := by
  refine h.learners (P := fun i _ log _ => ∀ d ∈ log, i < c.replicas)
    (fun i d hd => (List.not_mem_nil hd).elim) (fun i l log sent out _ h => h) ?_ i d hd
  intro w i x l d _ _ hallowed _ _ _ _
  cases x with
  | trust => exact hallowed
  | learn => exact hallowed.1
  | request => exact hallowed.1
  | response => exact hallowed.1
  | askAgain => exact hallowed
  | setEpochs => exact hallowed

/-- The slots below an acceptor's low mark were delivered by the learner of one replica: that whose
proposer made it give them up. -/
theorem exists_low_le_length (h : Reachable c (fun _ e => e.Ordinary) w)
    (hretention : c.alpha ≤ c.retention) (i : Nat) :
    (w.acceptors i).window.low ≤ 1 ∨ ∃ j, (w.acceptors i).window.low ≤ (w.logs j).length := by
  obtain ⟨-, hlow | ⟨r, slot, hle, ⟨j, hsaid⟩ | ⟨v, j, epochs, hsaid⟩⟩⟩ :=
    h.low_cases (fun _ _ h => h) (fun w i slot henv => henv) i
  · exact Or.inl hlow
  · -- it asked about the slots after those that it takes for decided
    have hslot : slot ≤ (w.logs j).length := (h.told j).asked_le _ hsaid rfl
    exact Or.inr ⟨j, by omega⟩
  · -- it proposed within the pipeline
    have hslot : slot ≤ (w.proposers j).adu + c.alpha := (h.proposer_paced j).1.slot_le _ hsaid rfl
    have hadu := (h.told j).adu_le
    exact Or.inr ⟨j, by omega⟩

/-- **Only decided slots are given up**: whatever slot, from the first on, is below the low mark of an
acceptor was delivered by some learner of the cluster. -/
theorem delivered_of_lt_low (hvalid : c.validate = .ok ())
    (h : Reachable c (fun _ e => e.Ordinary) w) {i slot : Nat} (hpos : 1 ≤ slot)
    (hslot : slot < (w.acceptors i).window.low) :
    ∃ j < c.replicas, ∃ v, (slot, v) ∈ w.logs j := by
  have hretention : c.alpha ≤ c.retention := by
    unfold ReplicaSettings.validate at hvalid
    split at hvalid
    · cases hvalid
    · rename_i hfault
      exact ((ReplicaSettings.fault?_eq_none_iff c).mp hfault).retains
  obtain hlow | ⟨j, hlow⟩ := h.exists_low_le_length hretention i
  · omega
  · have hmem : slot ∈ (w.logs j).map Prod.fst := by
      rw [(h.learner_recorded j).slots, List.mem_range'_1]
      omega
    obtain ⟨⟨_, v⟩, hd, rfl⟩ := List.mem_map.mp hmem
    exact ⟨j, h.lt_replicas_of_mem_logs hd, v, hd⟩

/-- With a pipeline and a retention of one slot, an acceptor gives up slot 1 when it votes for slot
3; replica 0 has delivered slot 1. -/
theorem delivered_of_low_two : ∃ w,
    Reachable { alpha := 1, retention := 1 } (fun _ e => e.Ordinary) w ∧
      (w.acceptors 1).window.low = 2 ∧ ∃ j < 3, ∃ v, (1, v) ∈ w.logs j := by
  let c : ReplicaSettings := { alpha := 1, retention := 1 }
  let r : Round := ⟨1, 0⟩
  let e : EpochVector := .zeros 3
  let v₁ := Value.appBatch [65]
  let v₂ := Value.appBatch [66]
  let v₃ := Value.appBatch [67]
  obtain ⟨w, hw, hlow⟩ := World.exists_reachable c (fun _ e => e.Ordinary)
    [.proposer 0 (.trust 0), .acceptor 0 (.prepare ⟨0, r, 0⟩), .acceptor 1 (.prepare ⟨0, r, 0⟩),
      .proposer 0 (.promise ⟨0, r, [], e⟩), .proposer 0 (.promise ⟨1, r, [], e⟩),
      .proposer 0 (.submit v₁), .acceptor 0 (.accept ⟨0, r, 1, v₁, e⟩),
      .acceptor 1 (.accept ⟨0, r, 1, v₁, e⟩), .learner 0 (.learn ⟨0, 1, r, v₁, e⟩),
      .learner 0 (.learn ⟨1, 1, r, v₁, e⟩), .handOver 0,
      .proposer 0 (.submit v₂), .acceptor 0 (.accept ⟨0, r, 2, v₂, e⟩),
      .acceptor 1 (.accept ⟨0, r, 2, v₂, e⟩), .learner 0 (.learn ⟨0, 2, r, v₂, e⟩),
      .learner 0 (.learn ⟨1, 2, r, v₂, e⟩), .handOver 0,
      .proposer 0 (.submit v₃), .acceptor 1 (.accept ⟨0, r, 3, v₃, e⟩)]
    (fun w => (w.acceptors 1).window.low = 2) (by decide +kernel)
  exact ⟨w, hw, hlow, hw.delivered_of_lt_low (by decide) (Nat.le_refl 1) (by rw [hlow]; decide)⟩

end Reachable

end ReplicatedLog
