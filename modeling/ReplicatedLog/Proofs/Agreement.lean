import ReplicatedLog.Proofs.Choices
import ReplicatedLog.Proofs.Deliveries
import ReplicatedLog.Proofs.Votes

/-!
# Agreement

Replicas agree on the log: no two learners ever deliver different values for a slot, whatever the
order in which messages arrive, and whoever tries to lead. This holds as long as no acceptor gives up
a vote, in particular as long as every slot proposed for is within the retention of the first one
(`Reachable.eq_of_mem_logs`).
-/

namespace ReplicatedLog

/-- No slot above `last` is proposed for. -/
def ProposedUpTo (last : Nat) (sent : List Outgoing) : Prop :=
  ∀ r slot v, Proposed sent r slot v → slot ≤ last

instance (last : Nat) (sent : List Outgoing) : Decidable (ProposedUpTo last sent) :=
  decidable_of_iff (∀ o ∈ sent, (match o.message with
    | .accept m => decide (m.slot ≤ last)
    | _ => true) = true) <| by
    constructor
    · rintro h r slot v ⟨sender, epochs, o, ho, heq⟩
      have hslot := h o ho
      rw [heq] at hslot
      exact of_decide_eq_true hslot
    · intro h o ho
      split
      · rename_i m heq
        exact decide_eq_true (h m.round m.slot m.value ⟨m.sender, m.epochs, o, ho, heq⟩)
      · rfl

variable {c : ReplicaSettings} {Env : World → Event → Prop} {w w' : World}

namespace Reachable

/-- No more slots are delivered than are proposed for. -/
theorem length_logs_le (h : Reachable c Env w) {last : Nat} (hlast : ProposedUpTo last w.sent)
    (i : Nat) : (w.logs i).length ≤ last := by
  rcases Nat.eq_zero_or_pos (w.logs i).length with hzero | hpos
  · omega
  have hslots := (h.learner_recorded i).slots
  have hmem : (w.logs i).length ∈ (w.logs i).map Prod.fst := by
    rw [hslots, List.mem_range'_1]
    omega
  obtain ⟨⟨slot, v⟩, hin, heq⟩ := List.mem_map.mp hmem
  obtain ⟨r, hproposed⟩ := h.proposed_of_mem_logs hin
  rw [← heq]
  exact hlast r slot v hproposed

/-- An acceptor raises its low mark above one only for a slot that it was asked about, or that was
proposed for, and keeps as many slots below that one as its retention says. -/
theorem low_cases (hordinary : ∀ w e, Env w e → e.Ordinary)
    (hraise : ∀ w i slot, ¬ Env w (.acceptor i (.raiseLow slot))) (h : Reachable c Env w) (i : Nat) :
    (w.acceptors i).retention = c.retention ∧ ((w.acceptors i).window.low ≤ 1 ∨
      ∃ r slot, (w.acceptors i).window.low + c.retention ≤ slot ∧
        (Asked w.sent r slot ∨ ∃ v, Proposed w.sent r slot v)) := by
  refine h.acceptors (P := fun _ a sent => a.retention = c.retention ∧ (a.window.low ≤ 1 ∨
    ∃ r slot, a.window.low + c.retention ≤ slot ∧
      (Asked sent r slot ∨ ∃ v, Proposed sent r slot v)))
    (fun i => ⟨rfl, Or.inl (Nat.le_refl 1)⟩) ?_ ?_ i
  · rintro i a sent out - ⟨hretention, hlow⟩
    refine ⟨hretention, hlow.imp_right ?_⟩
    rintro ⟨r, slot, hle, hasked | ⟨v, hproposed⟩⟩
    · exact ⟨r, slot, hle, Or.inl (hasked.append out)⟩
    · exact ⟨r, slot, hle, Or.inr ⟨v, hproposed.append out⟩⟩
  · rintro w i x a out hw henv hallowed ⟨hretention, hlow⟩ hact
    have htake : ∀ s, x ≠ .takeOver s := by
      rintro s rfl
      exact hordinary w _ henv
    obtain ⟨hretention', hmax⟩ := Acceptor.low_of_act htake hact
    rw [hretention] at hmax
    refine ⟨hretention'.trans hretention, ?_⟩
    by_cases hold : a.window.low ≤ (w.acceptors i).window.low
    · -- the mark was not raised now
      refine hlow.imp (fun hlow => hold.trans hlow) ?_
      rintro ⟨r, slot, hle, hasked | ⟨v, hproposed⟩⟩
      · exact ⟨r, slot, by omega, Or.inl (hasked.append out)⟩
      · exact ⟨r, slot, by omega, Or.inr ⟨v, hproposed.append out⟩⟩
    by_cases hone : a.window.low ≤ 1
    · exact Or.inl hone
    right
    cases x with
    | prepare m =>
      rw [Acceptor.Input.mark] at hmax
      exact ⟨m.round, m.slot, by omega,
        Or.inl (Asked.append ⟨m.sender, World.said_of_arrives hallowed.2⟩ out)⟩
    | accept m =>
      rw [Acceptor.Input.mark] at hmax
      exact ⟨m.round, m.slot, by omega, Or.inr ⟨m.value,
        Proposed.append ⟨m.sender, m.epochs, World.said_of_arrives hallowed.2⟩ out⟩⟩
    | setEpochs epochs => exact absurd (hmax.trans (max_le le_rfl (Nat.zero_le _))) hold
    | takeOver s => exact absurd rfl (htake s)
    | raiseLow slot => exact absurd henv (hraise w i slot)

/-- While the slots proposed for are within the retention, no acceptor gives up a slot. -/
theorem low_le_one (h : Reachable c (fun _ e => e.Ordinary) w)
    (hretained : ProposedUpTo c.retention w.sent) (i : Nat) : (w.acceptors i).window.low ≤ 1 := by
  have hordinary : ∀ (w : World) (e : Event), e.Ordinary → e.Ordinary := fun _ _ h => h
  obtain ⟨-, hlow | ⟨r, slot, hle, ⟨sender, hsaid⟩ | ⟨v, hproposed⟩⟩⟩ :=
    h.low_cases hordinary (fun w i slot henv => henv) i
  · exact hlow
  · have hslot := (h.told sender).asked_le _ hsaid rfl
    have hlength := h.length_logs_le hretained sender
    dsimp only at hslot
    omega
  · have hslot := hretained r slot v hproposed
    omega

/-- An acceptor takes back no slot that it gave up. -/
theorem low_le_of_step {e : Event} (he : e.Ordinary) (hstep : w.step e = .ok w') (i : Nat) :
    (w.acceptors i).window.low ≤ (w'.acceptors i).window.low := by
  cases World.steps_of_step hstep with
  | @acceptor j x a out act =>
    have hlow : (w.acceptors j).window.low ≤ a.window.low := by
      refine Acceptor.low_le_of_act ?_ act
      rintro s rfl
      exact he
    exact (Function.forall_update_iff w.acceptors fun i a =>
      (w.acceptors i).window.low ≤ a.window.low).mpr ⟨hlow, fun i _ => Nat.le_refl _⟩ i
  | _ => exact Nat.le_refl _

/-- If no acceptor has given up a slot, promises have hidden no votes. -/
theorem shows (h : Reachable c (fun _ e => e.Ordinary) w)
    (hlow : ∀ i < c.replicas, (w.acceptors i).window.low ≤ 1) (r : Round) (slot : Nat) :
    Reachable c (fun w e => e.Ordinary ∧ w.Shows r slot e) w := by
  induction h with
  | start => exact .start
  | @step w w' e hw henv hallowed hstep ih =>
    have hlow' : ∀ i < c.replicas, (w.acceptors i).window.low ≤ 1 := fun i hi =>
      (low_le_of_step henv hstep i).trans (hlow i hi)
    refine (ih hlow').step ⟨henv, ?_⟩ hallowed hstep
    unfold World.Shows
    split
    · rename_i i m
      intro _ hslot _
      have hle := hlow' i hallowed.1
      omega
    · trivial

/-- Learners agree, if no acceptor has given up a slot. -/
theorem eq_of_low_le_one (h : Reachable c (fun _ e => e.Ordinary) w)
    (hlow : ∀ i < c.replicas, (w.acceptors i).window.low ≤ 1) {i j slot : Nat} {v v' : Value}
    (hv : (slot, v) ∈ w.logs i) (hv' : (slot, v') ∈ w.logs j) : v = v' := by
  have hsound := h.ballots (fun _ _ henv => henv) slot
  have hshown : ∀ r, Ballot.Shown w.sent r slot := fun r =>
    (h.shows hlow r slot).shown (fun _ _ henv => henv.1) (fun _ _ henv => henv.2)
  obtain ⟨r, hchosen⟩ := (h.learner_recorded i).logged slot v hv
  obtain ⟨r', hchosen'⟩ := (h.learner_recorded j).logged slot v' hv'
  exact (hsound.eq_of_chosen c.lt_quorum_add_quorum hshown hchosen hchosen').symm

/-- **Agreement**: whatever two learners deliver for a slot, or one learner at two times, is the same
value, as long as the slots proposed for are within the retention. -/
theorem eq_of_mem_logs (h : Reachable c (fun _ e => e.Ordinary) w)
    (hretained : ProposedUpTo c.retention w.sent) {i j slot : Nat} {v v' : Value}
    (hv : (slot, v) ∈ w.logs i) (hv' : (slot, v') ∈ w.logs j) : v = v' :=
  h.eq_of_low_le_one (fun i _ => h.low_le_one hretained i) hv hv'

/-- One learner delivers a value that was voted for in the first round. Another one delivers what a second
leader proposed and two acceptors voted for in a later round: whatever this is, it is the same. -/
theorem eq_of_mem_logs_of_second_round : ∃ w v, Reachable {} (fun _ e => e.Ordinary) w ∧
    ProposedUpTo 1024 w.sent ∧ Chosen 2 w.sent ⟨1, 2⟩ 1 v ∧ (1, Value.appBatch [65]) ∈ w.logs 0 ∧
      (∃ v', (1, v') ∈ w.logs 1) ∧ ∀ v', (1, v') ∈ w.logs 1 → Value.appBatch [65] = v' := by
  let r : Round := ⟨1, 0⟩
  let r' : Round := ⟨1, 2⟩
  let e : EpochVector := .zeros 3
  let v := Value.appBatch [65]
  obtain ⟨w, hw, hretained, hvote, hvote', hlog, hdelivered⟩ :=
    World.exists_reachable {} (fun _ e => e.Ordinary)
      [.proposer 0 (.trust 0), .proposer 0 (.submit v), .acceptor 0 (.prepare ⟨0, r, 0⟩),
        .acceptor 1 (.prepare ⟨0, r, 0⟩), .proposer 0 (.promise ⟨0, r, [], e⟩),
        .proposer 0 (.promise ⟨1, r, [], e⟩), .acceptor 0 (.accept ⟨0, r, 1, v, e⟩),
        .acceptor 1 (.accept ⟨0, r, 1, v, e⟩), .learner 0 (.learn ⟨0, 1, r, v, e⟩),
        .learner 0 (.learn ⟨1, 1, r, v, e⟩), .proposer 2 (.trust 2),
        .acceptor 1 (.prepare ⟨2, r', 0⟩), .acceptor 2 (.prepare ⟨2, r', 0⟩),
        .proposer 2 (.promise ⟨1, r', [⟨1, r, v⟩], e⟩), .proposer 2 (.promise ⟨2, r', [], e⟩),
        .acceptor 1 (.accept ⟨2, r', 1, v, e⟩), .acceptor 2 (.accept ⟨2, r', 1, v, e⟩),
        .learner 1 (.learn ⟨1, 1, r', v, e⟩), .learner 1 (.learn ⟨2, 1, r', v, e⟩)]
      (fun w => ProposedUpTo 1024 w.sent ∧ Said w.sent (.learn ⟨1, 1, r', v, e⟩) ∧
        Said w.sent (.learn ⟨2, 1, r', v, e⟩) ∧ (1, v) ∈ w.logs 0 ∧ (w.logs 1).map Prod.fst = [1])
      (by decide +kernel)
  have hchosen : Chosen 2 w.sent r' 1 v :=
    ⟨[1, 2], by decide, by decide, by simpa using ⟨⟨e, hvote⟩, ⟨e, hvote'⟩⟩⟩
  have hsome : ∃ v', (1, v') ∈ w.logs 1 := by
    obtain ⟨⟨slot, v'⟩, hmem, rfl⟩ := List.mem_map.mp (hdelivered ▸ List.mem_singleton_self 1)
    exact ⟨v', hmem⟩
  exact ⟨w, v, hw, hretained, hchosen, hlog, hsome, fun v' hv' =>
    hw.eq_of_mem_logs hretained hlog hv'⟩

end Reachable

end ReplicatedLog
