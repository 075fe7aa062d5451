import ReplicatedLog.Proofs.CalmProgress
import ReplicatedLog.Proofs.ConflictFree
import ReplicatedLog.Proofs.Conservation

/-!
# Calm runs complete

When nothing is in flight any more in a calm run, nothing is left to do: the leader's queue is empty,
and every learner has delivered every value that the leader took (`CalmRun.complete`).

Every state in which the run could be stuck is excluded. The leader cannot lack promises, since all
replicas have promised and their promises have arrived. The slot that a learner is to deliver next is
not chosen, since a quorum of votes for it would have been heard (`CalmRun.not_chosen_next`). So the
slot after the decided ones is not proposed for either: every acceptor would have voted for it, and
none has given it up. Then the pipeline has room, and a value that was left would have been proposed.
-/

namespace ReplicatedLog

/-- Enough promises of different senders that carry the same view let a leader go on. -/
theorem Mode.quorumOfPromises_ne_none {mode : Mode} {epochs : EpochVector} {promises : List Promise}
    {q : Nat} (hepochs : ∀ m ∈ promises, m.epochs = epochs)
    (hnodup : (promises.map Promise.sender).Nodup) (hlength : q ≤ promises.length) :
    mode.quorumOfPromises promises q ≠ none := by
  unfold quorumOfPromises
  rw [if_pos hlength]
  cases mode with
  | plain => simp
  | epochAware =>
    have hstamps : ∀ s ∈ promises.map Promise.stamp, s.epochs = epochs := by
      intro s hs
      obtain ⟨m, hm, rfl⟩ := List.mem_map.mp hs
      exact hepochs m hm
    refine Option.isSome_iff_ne_none.mp (isSome_firstValidQuorum hstamps ?_ ?_)
    · rw [List.map_map]
      exact hnodup
    · simpa using hlength

variable {c : ReplicaSettings} {leader : Nat} {epochs : EpochVector} {w : World}
  {flight : List (Nat × Message)}

theorem ReplicaSettings.quorum_le_replicas (hreplicas : 0 < c.replicas) :
    c.quorum ≤ c.replicas := by
  unfold ReplicaSettings.quorum
  omega

namespace CalmRun

/-- An acceptor gives up no slot that the leader does not take for decided. -/
theorem low_le_adu (hleader : leader < c.replicas) (hretention : c.alpha ≤ c.retention)
    (h : CalmRun c leader epochs w flight) (i : Nat) :
    (w.acceptors i).window.low ≤ (w.proposers leader).adu + 1 := by
  obtain ⟨-, hlow | ⟨r, slot, hle, ⟨j, hsaid⟩ | ⟨v, j, view, hsaid⟩⟩⟩ :=
    h.ordinary.low_cases (fun _ _ h => h) (fun w i slot henv => henv) i
  · omega
  · cases eq_of_said_prepare (h.said hleader) hsaid
    omega
  · obtain ⟨-, hj, -⟩ := calm_of_said_accept (h.said hleader) hsaid
    have hslot := (h.ordinary.proposer_paced leader).1.slot_le _ hsaid hj
    dsimp only at hslot
    omega

/-! ### Nothing in flight -/

/-- What everybody was told has its effect on everybody. -/
theorem took_of_broadcast (hleader : leader < c.replicas) (h : CalmRun c leader epochs w [])
    {m : Message} (hm : .broadcast m ∈ w.sent) {i : Nat} (hi : i < c.replicas) :
    w.Took leader i m :=
  (h.took hleader hi ⟨_, hm, rfl, trivial⟩).resolve_left List.not_mem_nil

/-- The slot that a learner is to deliver next is not chosen. -/
theorem not_chosen_next (hleader : leader < c.replicas) (h : CalmRun c leader epochs w []) {i : Nat}
    (hi : i < c.replicas) (r : Round) (v : Value) :
    ¬ Chosen c.quorum w.sent r (w.learners i).next v := by
  rintro ⟨Q, hnodup, hlength, hvoted⟩
  refine (h.learner_steady hleader i).not_heard hnodup hlength fun j hj => ?_
  obtain ⟨view, hsaid⟩ := hvoted j hj
  obtain ⟨hmem, -⟩ := calm_of_said_learn (h.said hleader) hsaid
  exact ⟨_, rfl, rfl, h.took_of_broadcast hleader hmem hi⟩

/-- The leader does not wait for promises. -/
theorem not_gathering (hleader : leader < c.replicas) (h : CalmRun c leader epochs w [])
    (hprepare : .broadcast (.prepare ⟨leader, firstRound leader, 0⟩) ∈ w.sent)
    (hunproposed : ∀ m, ¬ Said w.sent (.accept m)) : ¬ (w.proposers leader).Gathering leader := by
  intro hgathering
  have hrecorded := h.ordinary.proposer_recorded (fun _ _ h => h) leader
  have hgathers := hrecorded.gathers hgathering.phase_eq
  -- everybody promised, and all promises have arrived
  have hpromised : ∀ i < c.replicas,
      i ∈ (w.proposers leader).promises.map Promise.sender := by
    intro i hi
    rcases h.took_of_broadcast hleader hprepare hi with ⟨m, hmem, rfl⟩ | ⟨m, hm⟩
    · have htook : w.Took leader leader (.promise m) :=
        (h.took hleader hleader ⟨_, hmem, rfl, rfl⟩).resolve_left List.not_mem_nil
      refine htook.resolve_left fun htwo => ?_
      cases hgathering.phase_eq.symm.trans htwo
    · exact absurd hm (hunproposed m)
  have hlength : c.replicas ≤ (w.proposers leader).promises.length := by
    have hsubset : List.range c.replicas ⊆ (w.proposers leader).promises.map Promise.sender :=
      fun i hi => hpromised i (List.mem_range.mp hi)
    simpa using (List.nodup_range.subperm hsubset).length_le
  have hview : ∀ m ∈ (w.proposers leader).promises, m.epochs = epochs :=
    fun m hm => (calm_of_said_promise (h.said hleader) (hgathers.said m hm).1).2
  refine Mode.quorumOfPromises_ne_none hview hgathers.nodup ?_ hgathering.few
  rw [hrecorded.quorum_eq]
  exact (ReplicaSettings.quorum_le_replicas (Nat.zero_lt_of_lt hleader)).trans hlength

/-- The leader has proposed for no slot after those that it takes for decided, if it has heard of all
deliveries. -/
theorem nextSlot_eq (hleader : leader < c.replicas) (hretention : c.alpha ≤ c.retention)
    (h : CalmRun c leader epochs w []) (hproposing : (w.proposers leader).Proposing leader w.sent)
    (hnext : (w.learners leader).next = (w.proposers leader).adu + 1) :
    (w.proposers leader).nextSlot = (w.proposers leader).adu + 1 := by
  have hlt := (h.ordinary.proposer_recorded (fun _ _ h => h) leader).adu_lt
  by_contra hne
  obtain ⟨v, sender, view, hsaid⟩ :=
    hproposing.proposed ((w.proposers leader).adu + 1) (by omega) (by omega)
  obtain ⟨hmem, -⟩ := calm_of_said_accept (h.said hleader) hsaid
  -- everybody voted for the first of them
  refine h.not_chosen_next hleader hleader (firstRound leader) v ⟨List.range c.replicas,
    List.nodup_range, ?_, fun i hi => ?_⟩
  · rw [List.length_range]
    exact ReplicaSettings.quorum_le_replicas (Nat.zero_lt_of_lt hleader)
  · rw [hnext]
    refine (h.took_of_broadcast hleader hmem (List.mem_range.mp hi)).resolve_right fun hlow => ?_
    exact absurd (h.low_le_adu hleader hretention i) (Nat.not_le.mpr hlow)

/-- The leader of a calm run in which nothing is left to happen has proposed, and learned to be
decided, all that was submitted to it. -/
theorem adu_eq_length (hleader : leader < c.replicas) (halpha : 0 < c.alpha)
    (hretention : c.alpha ≤ c.retention) (h : CalmRun c leader epochs w [])
    (hwaiting : w.waiting leader = []) :
    (w.proposers leader).queue = [] ∧ (w.logs leader).length = (w.submitted leader).length := by
  obtain ⟨m, hm, -⟩ := h.led.fifo.inOrder
  cases (h.stage_said hleader).1 with
  | idle _ _ submitted_eq =>
    have hle := (h.led.logs_prefix leader).length_le
    have hqueue := hm.queue_eq
    rw [submitted_eq] at hle hqueue ⊢
    rw [List.length_map] at hle
    exact ⟨by simpa using hqueue, Nat.le_zero.mp hle⟩
  | gathers prepare_mem unproposed gathering =>
    exact absurd gathering (h.not_gathering hleader prepare_mem unproposed)
  | proposes proposing =>
    obtain ⟨settled, hrun⟩ := h.reachable.exists_ledger leader
    have hfollow := hrun.balanced.follow
    dsimp only at hfollow
    rw [hwaiting] at hfollow
    have hadu : (w.proposers leader).adu = (w.learners leader).next - 1 := hfollow
    have hlength := (h.reachable.learner_recorded leader).next_eq
    have hnext := h.nextSlot_eq hleader hretention proposing (by omega)
    -- the pipeline has room, so there is no value for the next slot
    obtain ⟨hqueue, hvalue⟩ : (w.proposers leader).queue = [] ∧
        (w.proposers leader).valueAt (w.proposers leader).nextSlot = none := by
      refine proposing.saturated.resolve_left fun hfull => ?_
      rw [(h.ordinary.proposer_paced leader).1.alpha_eq, hnext] at hfull
      omega
    have hslot := hm.assigned.eq_of_valueIn_eq_none hm.le_length (Nat.zero_lt_of_lt hm.adu_lt)
      (hm.low_eq.trans_le hm.adu_lt) hm.nextSlot_le hvalue
    have hdrop := congrArg List.length (hm.queue_eq.symm.trans hqueue)
    rw [List.length_drop, List.length_nil] at hdrop
    have hle := hm.le_length
    exact ⟨hqueue, by omega⟩

/-- When nothing is left to happen, every learner has delivered everything. -/
theorem logs_eq_submitted (hleader : leader < c.replicas) (halpha : 0 < c.alpha)
    (hretention : c.alpha ≤ c.retention) (h : CalmRun c leader epochs w [])
    (hwaiting : w.waiting leader = []) {i : Nat} (hi : i < c.replicas) :
    (w.logs i).map Prod.snd = w.submitted leader := by
  obtain ⟨-, hlength⟩ := h.adu_eq_length hleader halpha hretention hwaiting
  refine (h.led.logs_prefix i).eq_of_length_le ?_
  rw [List.length_map, ← hlength]
  -- otherwise the leader has delivered the slot that the learner is to deliver next
  by_contra hlt
  have hnext := (h.reachable.learner_recorded i).next_eq
  have hrecorded := h.reachable.learner_recorded leader
  have hmem : (w.learners i).next ∈ (w.logs leader).map Prod.fst := by
    rw [hrecorded.slots, List.mem_range'_1]
    omega
  obtain ⟨⟨slot, v⟩, hin, heq⟩ := List.mem_map.mp hmem
  obtain ⟨r, hchosen⟩ := hrecorded.logged slot v hin
  dsimp only at heq
  rw [heq] at hchosen
  exact h.not_chosen_next hleader hi r v hchosen

/-- **Calm runs complete.** With valid settings, a pipeline shorter than `2 ^ 63` and fewer than
`2 ^ 62` submitted values, a calm run never fails; and when no message is in flight and no proposer is
to hear of a delivery, the leader's queue is empty, and every learner has delivered all the values that
the leader took, in the order in which it took them. -/
theorem complete (hvalid : c.validate = .ok ()) (halpha : c.alpha < 2 ^ 63)
    (hleader : leader < c.replicas) (hcount : (w.submitted leader).length < 2 ^ 62)
    (h : CalmRun c leader epochs w flight) :
    (∀ e rest, w.Next c.replicas leader flight e rest → ∃ w', w.step e = .ok w') ∧
      (flight = [] → (∀ i < c.replicas, w.waiting i = []) →
        (w.proposers leader).queue = [] ∧
          ∀ i < c.replicas, (w.logs i).map Prod.snd = w.submitted leader) := by
  have hsound : c.Valid := by
    refine (ReplicaSettings.fault?_eq_none_iff c).mp ?_
    unfold ReplicaSettings.validate at hvalid
    split at hvalid
    · cases hvalid
    · assumption
  refine ⟨fun e rest hnext => h.exists_step hleader halpha hcount hnext, ?_⟩
  rintro rfl hwaiting
  obtain ⟨hqueue, -⟩ :=
    h.adu_eq_length hleader hsound.pipeline hsound.retains (hwaiting leader hleader)
  exact ⟨hqueue, fun i hi =>
    h.logs_eq_submitted hleader hsound.pipeline hsound.retains (hwaiting leader hleader) hi⟩

/-- With a pipeline and a retention of one slot, three values. Replica 2 gets a proposal before it was
asked for a promise; replica 1 gets the last proposal first, so it gives up slot 1, and asks for what
was decided for it when the leader has given it up too. -/
theorem complete_three : ∃ w, CalmRun { alpha := 1, retention := 1 } 0 (.zeros 3) w [] ∧
    (∀ i < 3, w.waiting i = []) ∧ (w.submitted 0).length = 3 ∧ (w.acceptors 1).window.low = 2 ∧
      (w.proposers 0).queue = [] ∧ ∀ i < 3, (w.logs i).map Prod.snd = w.submitted 0 := by
  let r : Round := ⟨1, 0⟩
  let e : EpochVector := .zeros 3
  let v₁ := Value.appBatch [65]
  let v₂ := Value.appBatch [66]
  let v₃ := Value.appBatch [67]
  let prepare (i : Nat) : Event := .acceptor i (.prepare ⟨0, r, 0⟩)
  let promise (i : Nat) : Event := .proposer 0 (.promise ⟨i, r, [], e⟩)
  let accept (slot : Nat) (v : Value) (i : Nat) : Event := .acceptor i (.accept ⟨0, r, slot, v, e⟩)
  let learn (i slot : Nat) (v : Value) (j : Nat) : Event := .learner i (.learn ⟨j, slot, r, v, e⟩)
  let es : List Event :=
    [.learner 1 (.trust 0), .proposer 0 (.trust 0), .proposer 0 (.submit v₁),
      .proposer 0 (.submit v₂), .proposer 0 (.submit v₃), prepare 0, prepare 1, promise 0, promise 1,
      accept 1 v₁ 2, accept 1 v₁ 0, learn 0 1 v₁ 0, learn 0 1 v₁ 2, .handOver 0,
      accept 2 v₂ 0, accept 2 v₂ 2, learn 0 2 v₂ 0, learn 0 2 v₂ 2, .handOver 0,
      accept 3 v₃ 1, accept 1 v₁ 1, accept 2 v₂ 1, learn 1 2 v₂ 0, learn 1 2 v₂ 2,
      .learner 0 (.request ⟨1, [(1, 1)]⟩), .learner 1 (.response ⟨0, []⟩),
      prepare 2, accept 3 v₃ 0, accept 3 v₃ 2] ++
    [1, 2].flatMap (fun i => [0, 2].map (learn i 1 v₁)) ++ [0, 2].map (learn 2 2 v₂) ++
    [0, 1, 2].map (fun i => learn i 2 v₂ 1) ++
    [0, 1, 2].flatMap (fun i => [1, 0, 2].map (learn i 3 v₃)) ++
    [.handOver 0, .handOver 1, .handOver 1, .handOver 2, .handOver 2, .handOver 2]
  obtain ⟨w, hw, hempty, hsubmitted, hlow⟩ := exists_of_replay { alpha := 1, retention := 1 } 0 es
    (fun w => (∀ i < (3 : Nat), (w.waiting i).isEmpty) ∧ (w.submitted 0).length = 3 ∧
      (w.acceptors 1).window.low = 2)
    (by decide +kernel)
  have hwaiting : ∀ i < 3, w.waiting i = [] := fun i hi => List.isEmpty_iff.mp (hempty i hi)
  obtain ⟨-, hcomplete⟩ := hw.complete rfl (by decide) (by decide) (by rw [hsubmitted]; decide)
  exact ⟨w, hw, hwaiting, hsubmitted, hlow, hcomplete rfl hwaiting⟩

end CalmRun

end ReplicatedLog
