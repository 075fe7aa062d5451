import ReplicatedLog.Proofs.CalmLearner

/-!
# The effects of messages in a calm run

Every message of a calm run has an effect when it arrives, and keeps it (`World.Took`):

* a request for a promise brings about the promise, unless the leader can do without it;
* a promise counts, or the leader proposes already;
* a proposal is voted for, unless the acceptor gave up its slot;
* a vote is heard.

So a message that was sent is in flight or has its effect (`CalmRun.took`).
-/

namespace ReplicatedLog

open Function

/-- An acceptor has promised the first round to the leader, or the leader proposes without its
promise. -/
def Promised (leader : Nat) (sent : List Outgoing) (i : Nat) : Prop :=
  (∃ m, .unicast leader (.promise m) ∈ sent ∧ m.sender = i) ∨ ∃ m, Said sent (.accept m)

theorem Promised.append {leader i : Nat} {sent : List Outgoing} (h : Promised leader sent i)
    (out : List Outgoing) : Promised leader (sent ++ out) i := by
  rcases h with ⟨m, hmem, hi⟩ | ⟨m, hm⟩
  · exact Or.inl ⟨m, List.mem_append_left out hmem, hi⟩
  · exact Or.inr ⟨m, hm.append out⟩

/-- The effect that a message has once it has arrived at a replica. -/
def World.Took (leader : Nat) (w : World) (i : Nat) : Message → Prop
  | .prepare _ => Promised leader w.sent i
  | .promise m => (w.proposers i).phase = .two ∨
      m.sender ∈ (w.proposers i).promises.map Promise.sender
  | .accept m => Voted w.sent i m.round m.slot m.value ∨ m.slot < (w.acceptors i).window.low
  | .learn m => (w.learners i).Heard m
  | .catchUpRequest _ => True
  | .catchUpResponse _ => True

variable {c : ReplicaSettings} {leader : Nat} {epochs : EpochVector} {w w' : World} {e : Event}
  {flight rest : List (Nat × Message)}

/-! ### Promises that arrived -/

namespace Proposer

theorem mem_senders_recordPromise {ms : List Promise} {m : Promise} {j : Nat} :
    j ∈ (recordPromise ms m).map Promise.sender ↔ j = m.sender ∨ j ∈ ms.map Promise.sender := by
  induction ms with
  | nil => simp [recordPromise]
  | cons m' ms ih =>
    unfold recordPromise
    split
    · rename_i heq
      simp [heq]
    · simp only [List.map_cons, List.mem_cons, ih]
      tauto

/-- A leader does not lose promises before it proposes, and goes on proposing. -/
theorem counts_of_act {p p' : Proposer} {x : Input} {o : Output} {j : Nat}
    (hlead : p.isLeader = true) (hactive : p.phase ≠ .idle) (hx : x.Calm p.id)
    (hact : p.act x = .ok (p', o))
    (h : (p.phase = .two ∨ j ∈ p.promises.map Promise.sender) ∨
      ∃ m, x = .promise m ∧ p.phase = .one ∧ m.round = p.round ∧ m.sender = j) :
    p'.phase = .two ∨ j ∈ p'.promises.map Promise.sender := by
  rcases lead_cases hlead hactive hx hact with ⟨topCounter, rfl, -, hignored⟩ |
    ⟨m, topCounter, rfl, -, -, rfl, -⟩ | ⟨q, taken, hreadies, hq⟩
  · refine h.resolve_right ?_
    rintro ⟨m, hm, hphase, hround, -⟩
    exact hignored m hm ⟨hphase, hround⟩
  · rw [mem_senders_recordPromise]
    rcases h with (htwo | hmem) | ⟨_, ⟨⟩, -, -, rfl⟩
    · exact Or.inl htwo
    · exact Or.inr (Or.inr hmem)
    · exact Or.inr (Or.inl rfl)
  · obtain ⟨_, _, _, rfl⟩ := exists_of_fill hq
    cases hreadies with
    | begins => exact Or.inl rfl
    | submits => exact h.resolve_right (by simp)
    | advances => exact h.resolve_right (by simp)

end Proposer

namespace CalmRun

theorem said (hleader : leader < c.replicas) (h : CalmRun c leader epochs w flight) :
    ∀ o ∈ w.sent, o.Calm leader epochs := (h.stage_said hleader).2

/-- Promises go to the leader. -/
theorem eq_leader_of_promise (hleader : leader < c.replicas) (h : CalmRun c leader epochs w flight)
    {i : Nat} {m : Promise} (harrives : w.Arrives i (.promise m)) :
    i = leader ∧ m.round = firstRound leader := by
  obtain ⟨o, ho, heq, hfor⟩ := harrives
  have hcalm := h.said hleader o ho
  cases o <;> cases heq
  · exact ⟨hfor.symm.trans hcalm.1, hcalm.2.1⟩
  · exact hcalm.elim

/-- Once anything was sent, the leader leads in its first round. -/
theorem leads (hleader : leader < c.replicas) (h : CalmRun c leader epochs w flight)
    (hsent : w.sent ≠ []) : (w.proposers leader).isLeader = true ∧
      (w.proposers leader).phase ≠ .idle ∧ (w.proposers leader).round = firstRound leader := by
  cases (h.stage_said hleader).1 with
  | idle sent_eq => exact absurd sent_eq hsent
  | gathers _ _ gathering =>
    exact ⟨gathering.leads, by simp [gathering.phase_eq], gathering.round_eq⟩
  | proposes proposing =>
    exact ⟨proposing.leads, by simp [proposing.phase_eq], proposing.round_eq⟩

/-- A promise counts when it arrives. -/
theorem promise_arrived (hleader : leader < c.replicas) (h : CalmRun c leader epochs w flight)
    {i : Nat} {m : Promise} {p : Proposer} {o : Proposer.Output}
    (harrives : w.Arrives i (.promise m)) (hact : (w.proposers i).act (.promise m) = .ok (p, o)) :
    p.phase = .two ∨ m.sender ∈ p.promises.map Promise.sender := by
  obtain ⟨rfl, hround⟩ := h.eq_leader_of_promise hleader harrives
  have hsent : w.sent ≠ [] := by
    obtain ⟨o, ho, -⟩ := harrives
    exact List.ne_nil_of_mem ho
  obtain ⟨hlead, hactive, hround'⟩ := h.leads hleader hsent
  have hx : (Proposer.Input.promise m).Calm (w.proposers i).id := trivial
  refine Proposer.counts_of_act hlead hactive hx hact ?_
  cases hphase : (w.proposers i).phase with
  | idle => exact absurd hphase hactive
  | one => exact Or.inr ⟨m, rfl, rfl, hround.trans hround'.symm, rfl⟩
  | two => exact Or.inl (Or.inl rfl)

/-! ### Acceptors -/

/-- An acceptor is in no round but the first of the leader, and in that only if it promised or the
leader proposes. -/
theorem acceptor_round (hleader : leader < c.replicas) (h : CalmRun c leader epochs w flight)
    (i : Nat) : (w.acceptors i).round = .bottom ∨
      (w.acceptors i).round = firstRound leader ∧ Promised leader w.sent i := by
  refine h.reachable.acceptors (P := fun i a sent => a.round = .bottom ∨
    a.round = firstRound leader ∧ Promised leader sent i) (fun _ => Or.inl rfl) ?_ ?_ i
  · intro i a sent out _ hround
    exact hround.imp_right fun h => ⟨h.1, h.2.append out⟩
  intro w i x a out hw henv hallowed hround hact
  have hid := (hw.ids i).1
  rcases henv with hsets | ⟨flight, rest, hrun, hnext⟩
  · cases x with
    | setEpochs epochs =>
      cases hact
      rw [List.append_nil]
      exact hround
    | _ => exact hsets.elim
  have hsaid := hrun.said hleader
  have htake : ∀ s, x ≠ .takeOver s := by
    rintro s rfl
    exact hnext.ordinary_ledBy.1
  cases Acceptor.acts_of_act htake hact with
  | quiet round_eq =>
    rw [round_eq, List.append_nil]
    exact hround
  | @promise m _ reports _ round_eq =>
    obtain rfl := eq_of_said_prepare hsaid (World.said_of_arrives hallowed.2)
    exact Or.inr ⟨round_eq, Or.inl ⟨_, List.mem_append_right _ (List.mem_singleton_self _), hid⟩⟩
  | @vote m _ _ round_eq =>
    have hm := World.said_of_arrives hallowed.2
    exact Or.inr ⟨round_eq.trans (calm_of_said_accept hsaid hm).2.2.1, Or.inr ⟨m, hm.append _⟩⟩

/-- A request for a promise brings it about. -/
theorem prepare_arrived (hleader : leader < c.replicas) (h : CalmRun c leader epochs w flight)
    {i : Nat} {m : Prepare} {a : Acceptor} {out : List Outgoing}
    (harrives : w.Arrives i (.prepare m)) (hact : (w.acceptors i).act (.prepare m) = .ok (a, out)) :
    Promised leader (w.sent ++ out) i := by
  obtain rfl := eq_of_said_prepare (h.said hleader) (World.said_of_arrives harrives)
  cases Acceptor.acts_of_act (by simp) hact with
  | quiet _ _ declined =>
    rcases h.acceptor_round hleader i with hround | ⟨-, hpromised⟩
    · have hle : firstRound leader ≤ Round.bottom := hround ▸ declined
      exact absurd hle (not_le.mpr (Or.inl Nat.one_pos))
    · exact hpromised.append _
  | promise =>
    have hid := (h.reachable.ids i).1
    exact Or.inl ⟨_, List.mem_append_right _ (List.mem_singleton_self _), hid⟩

end CalmRun

/-- Records of acceptors show a round only with a vote. -/
theorem Reachable.clean {Env : World → Event → Prop} (h : Reachable c Env w) (i : Nat) :
    (w.acceptors i).Clean :=
  h.acceptors (P := fun _ a _ => a.Clean) (fun _ => Acceptor.clean_of_window rfl)
    (fun _ _ _ _ _ h => h) (fun _ _ _ _ _ _ _ _ h hact => h.act hact) i

namespace CalmRun

/-- What is proposed for a slot, or voted for, is one value. -/
theorem value_unique (h : CalmRun c leader epochs w flight)
    {r r' : Round} {slot : Nat} {v v' : Value} (hv : Proposed w.sent r slot v)
    (hv' : Proposed w.sent r' slot v') : v' = v := by
  obtain ⟨m, -, hproposed⟩ := h.led.fifo.inOrder
  exact (hproposed r' slot v' hv').2.unique (hproposed r slot v hv).2

/-- Acceptors and learners that know the leader's view vote for its proposals. -/
theorem admits_of_epochs_eq {mode : Mode} {i : Nat} {own : EpochVector} {m : Accept}
    (h : m.epochs = own) : mode.admits i own m = true := by
  cases mode <;> simp [Mode.admits, h]

/-- A proposal that arrives is voted for, unless its slot is given up. -/
theorem accept_arrived (hleader : leader < c.replicas) (h : CalmRun c leader epochs w flight)
    {i : Nat} (hi : i < c.replicas) {m : Accept} {a : Acceptor} {out : List Outgoing}
    (harrives : w.Arrives i (.accept m)) (hact : (w.acceptors i).act (.accept m) = .ok (a, out))
    (hrecorded : a.Recorded c.replicas (w.sent ++ out) i) :
    Voted (w.sent ++ out) i m.round m.slot m.value ∨ m.slot < a.window.low := by
  have hsaid := World.said_of_arrives harrives
  obtain ⟨-, -, hround, hepochs⟩ := calm_of_said_accept (h.said hleader) hsaid
  have hid := (h.reachable.ids i).1
  cases Acceptor.acts_of_act (by simp) hact with
  | vote =>
    refine Or.inl ⟨(w.acceptors i).epochs, said_append.mpr (Or.inr ?_)⟩
    rw [said_singleton, hid]
    rfl
  | quiet _ _ declined =>
    rw [List.append_nil] at hrecorded ⊢
    rcases declined with hrefused | hbelow | hlow | hvoted
    · rw [admits_of_epochs_eq (hepochs.trans (h.views i hi).1.symm)] at hrefused
      cases hrefused
    · rw [hround] at hbelow
      rcases h.acceptor_round hleader i with heq | ⟨heq, -⟩
      · rw [heq] at hbelow
        exact absurd hbelow (by simp [Round.lt_def, firstRound, Round.bottom])
      · rw [heq] at hbelow
        exact absurd hbelow (lt_irrefl _)
    · exact Or.inr hlow
    · -- the vote that it cast in this round is for the same value
      left
      obtain ⟨value, hvote⟩ := ((h.reachable.clean i).act hact).exists_voteFor
        (by rw [hvoted, hround]; rfl)
      rw [hvoted] at hvote
      have hcast : Voted w.sent i m.round m.slot value := hrecorded.held _ _ hvote
      have hproposed := (hrecorded.voted_le _ _ _ hcast).2.2
      rwa [h.value_unique hproposed ⟨m.sender, m.epochs, hsaid⟩]

/-! ### Learners -/

/-- Votes carry the view of the learner that they arrive at. -/
theorem vote_arrived (hleader : leader < c.replicas) (h : CalmRun c leader epochs w flight)
    {i : Nat} (hi : i < c.replicas) {m : Learn} (harrives : w.Arrives i (.learn m)) :
    m.round = firstRound leader ∧ m.epochs = (w.learners i).epochs := by
  obtain ⟨-, hround, hepochs⟩ :=
    calm_of_said_learn (h.said hleader) (World.said_of_arrives harrives)
  exact ⟨hround, hepochs.trans (h.views i hi).2.2.symm⟩

/-- **The learners of a calm run are steady.** -/
theorem learner_steady (hleader : leader < c.replicas) (h : CalmRun c leader epochs w flight)
    (i : Nat) : (w.learners i).Steady leader c.quorum := by
  refine h.reachable.learners (P := fun _ l _ _ => l.Steady leader c.quorum)
    (fun _ => Learner.steady_start (Nat.succ_pos _) rfl rfl) (fun _ _ _ _ _ _ h => h) ?_ i
  intro w i x l d hw henv hallowed ih hact
  refine (ih i).act (Nat.succ_pos _) (hw.learner_recorded i).quorum_eq ?_ hact
  rintro m rfl
  rcases henv with hsets | ⟨flight, rest, hrun, hnext⟩
  · exact hsets.elim
  · exact hrun.vote_arrived hleader hallowed.1 hallowed.2

/-- A vote that arrives is heard. -/
theorem learn_arrived (hleader : leader < c.replicas) (h : CalmRun c leader epochs w flight)
    {i : Nat} (hi : i < c.replicas) {m : Learn} {l : Learner} {d : Delivery}
    (harrives : w.Arrives i (.learn m)) (hact : (w.learners i).act (.learn m) = .ok (l, d)) :
    l.Heard m := by
  obtain ⟨hround, hepochs⟩ := h.vote_arrived hleader hi harrives
  refine Learner.heard_of_learn (h.learner_steady hleader i) hround hepochs ?_ hact
  intro vote hvote
  obtain ⟨hsaid, hslot, -⟩ := ((h.reachable.learner_recorded i).sound m.slot).said vote hvote
  have hcast := h.reachable.honest.cast vote hsaid
  rw [hslot] at hcast
  exact h.value_unique (h.reachable.honest.cast m (World.said_of_arrives harrives)) hcast

/-! ### All messages -/

theorem took_arrived (hleader : leader < c.replicas) (h : CalmRun c leader epochs w flight)
    {i : Nat} {m : Message} (hmem : (i, m) ∈ flight) (hstep : w.step (.arrival i m) = .ok w') :
    w'.Took leader i m := by
  obtain ⟨hi, harrives⟩ := h.arrives hmem
  have hnext : w.Next c.replicas leader flight (.arrival i m) _ := .arrives hmem
  have hordinary := h.ordinary.step hnext.ordinary_ledBy.1 (h.allowed hnext) hstep
  cases m with
  | prepare m =>
    cases World.steps_of_step hstep with
    | acceptor act => exact h.prepare_arrived hleader harrives act
  | promise m =>
    cases World.steps_of_step hstep with
    | proposer act =>
      simp only [World.Took, update_self]
      exact h.promise_arrived hleader harrives act
  | accept m =>
    have hrecorded := hordinary.acceptor_recorded (fun _ _ h => h) i
    cases World.steps_of_step hstep with
    | acceptor act =>
      simp only [World.Took, update_self] at hrecorded ⊢
      exact h.accept_arrived hleader hi harrives act hrecorded
  | learn m =>
    cases World.steps_of_step hstep with
    | learner act =>
      simp only [World.Took, update_self]
      exact h.learn_arrived hleader hi harrives act
  | catchUpRequest m => trivial
  | catchUpResponse m => trivial

/-- What a promise did stays so. -/
theorem promise_lasts (hleader : leader < c.replicas) (h : CalmRun c leader epochs w flight)
    {m : Promise} (hsent : w.sent ≠ []) (hsteps : w.Steps e w')
    (hnext : w.Next c.replicas leader flight e rest) (htook : w.Took leader leader (.promise m)) :
    w'.Took leader leader (.promise m) := by
  obtain ⟨hlead, hactive, -⟩ := h.leads hleader hsent
  have hid := (h.reachable.ids leader).2.2.1
  cases hsteps with
  | acceptor => exact htook
  | snapshot => exact htook
  | @proposer j x p out act =>
    by_cases hj : leader = j
    · subst hj
      simp only [World.Took, update_self]
      exact Proposer.counts_of_act hlead hactive (hid.symm ▸ hnext.calm_input) act (Or.inl htook)
    · simp only [World.Took, update_of_ne hj]
      exact htook
  | nothing => exact htook
  | @handOver j note rest p out waiting_eq act =>
    by_cases hj : leader = j
    · subst hj
      have hx : (Proposer.Input.noteDelivered note.adu note.decided).Calm
          ((w.proposers leader).hear note.round).id := trivial
      simp only [World.Took, update_self]
      exact Proposer.counts_of_act (p := (w.proposers leader).hear note.round) hlead hactive hx act
        (Or.inl htook)
    · simp only [World.Took, update_of_ne hj]
      exact htook
  | learner => exact htook

/-- What a proposal did stays so. -/
theorem accept_lasts {i : Nat} {m : Accept} (hsteps : w.Steps e w')
    (hordinary : e.Ordinary) (htook : w.Took leader i (.accept m)) :
    w'.Took leader i (.accept m) := by
  obtain ⟨out, hout⟩ := hsteps.exists_sent
  have hlow : (w.acceptors i).window.low ≤ (w'.acceptors i).window.low := by
    cases hsteps with
    | @acceptor j x a out act =>
      by_cases hj : i = j
      · subst hj
        have htake : ∀ s, x ≠ .takeOver s := by
          rintro s rfl
          exact hordinary
        simp only [update_self]
        cases Acceptor.acts_of_act htake act with
        | quiet _ keeps => exact keeps.low_le
        | promise _ _ keeps => exact keeps.low_le
        | vote _ _ _ _ low_le => exact low_le
      · simp only [update_of_ne hj]
        exact Nat.le_refl _
    | _ => exact Nat.le_refl _
  refine htook.imp (fun hvoted => ?_) fun hgiven => hgiven.trans_le hlow
  rw [hout]
  exact hvoted.append out

/-- What a vote did stays so. -/
theorem learn_lasts (hleader : leader < c.replicas) (h : CalmRun c leader epochs w flight)
    {i : Nat} {m : Learn} (hsteps : w.Steps e w')
    (hnext : w.Next c.replicas leader flight e rest) (htook : w.Took leader i (.learn m)) :
    w'.Took leader i (.learn m) := by
  have hallowed := h.allowed hnext
  cases hsteps with
  | @learner j x l d act =>
    by_cases hj : i = j
    · subst hj
      simp only [World.Took, update_self]
      refine Learner.Heard.act htook (h.learner_steady hleader i) ?_ act
      rintro m rfl
      exact h.vote_arrived hleader hallowed.1 hallowed.2
    · simp only [World.Took, update_of_ne hj]
      exact htook
  | _ => exact htook

theorem took_lasts (hleader : leader < c.replicas) (h : CalmRun c leader epochs w flight)
    (hnext : w.Next c.replicas leader flight e rest) (hstep : w.step e = .ok w') {i : Nat}
    {m : Message} (harrives : w.Arrives i m) (htook : w.Took leader i m) :
    w'.Took leader i m := by
  have hsteps := World.steps_of_step hstep
  cases m with
  | prepare m =>
    obtain ⟨out, hout⟩ := hsteps.exists_sent
    show Promised leader w'.sent i
    rw [hout]
    exact Promised.append htook out
  | promise m =>
    obtain ⟨rfl, -⟩ := h.eq_leader_of_promise hleader harrives
    obtain ⟨o, ho, -⟩ := harrives
    exact h.promise_lasts hleader (List.ne_nil_of_mem ho) hsteps hnext htook
  | accept m =>
    exact accept_lasts hsteps hnext.ordinary_ledBy.1 htook
  | learn m => exact h.learn_lasts hleader hsteps hnext htook
  | catchUpRequest m => trivial
  | catchUpResponse m => trivial

/-- **Every message that was sent is in flight or has its effect.** -/
theorem took (hleader : leader < c.replicas) (h : CalmRun c leader epochs w flight) {i : Nat}
    {m : Message} (hi : i < c.replicas) (harrives : w.Arrives i m) :
    (i, m) ∈ flight ∨ w.Took leader i m :=
  h.covered (fun hrun hmem hstep => hrun.took_arrived hleader hmem hstep)
    (fun hrun hnext hstep harrives htook => hrun.took_lasts hleader hnext hstep harrives htook)
    hi harrives

end CalmRun

end ReplicatedLog
