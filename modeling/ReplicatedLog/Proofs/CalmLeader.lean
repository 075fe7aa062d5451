import ReplicatedLog.Proofs.Calm

/-!
# The leader of a calm run

The leader of a calm run goes through three stages (`World.Stage`): it has not been told to lead, and
nothing was sent; it gathers promises for its first round, and has proposed nothing; it proposes. It
never leaves its first round, so everything that is said is said about this round
(`Outgoing.Calm`).

While it proposes, every slot between the decided ones and the next one is proposed for, and the
pipeline is full or no value is left (`Proposer.Saturated`): each time that the pipeline gets room, or
a value comes in, the proposer fills it.
-/

namespace ReplicatedLog

open Function

/-- The round in which a replica leads first. -/
def firstRound (leader : Nat) : Round := ⟨1, leader⟩

/-- What is said in a calm run is about the first round of the leader, and all messages that carry a
view of the membership carry the same. -/
def Outgoing.Calm (leader : Nat) (epochs : EpochVector) : Outgoing → Prop
  | .broadcast (.prepare m) => m = ⟨leader, firstRound leader, 0⟩
  | .unicast target (.promise m) =>
    target = leader ∧ m.round = firstRound leader ∧ m.epochs = epochs
  | .broadcast (.accept m) =>
    m.sender = leader ∧ m.round = firstRound leader ∧ m.epochs = epochs
  | .broadcast (.learn m) => m.round = firstRound leader ∧ m.epochs = epochs
  | .unicast _ (.catchUpRequest _) => True
  | .unicast _ (.catchUpResponse _) => True
  | _ => False

section Said

variable {leader : Nat} {epochs : EpochVector} {sent : List Outgoing}

theorem eq_of_said_prepare (h : ∀ o ∈ sent, o.Calm leader epochs) {m : Prepare}
    (hm : Said sent (.prepare m)) : m = ⟨leader, firstRound leader, 0⟩ := by
  obtain ⟨o, ho, heq⟩ := hm
  have hcalm := h o ho
  cases o <;> cases heq
  · exact hcalm.elim
  · exact hcalm

theorem calm_of_said_promise (h : ∀ o ∈ sent, o.Calm leader epochs) {m : Promise}
    (hm : Said sent (.promise m)) : m.round = firstRound leader ∧ m.epochs = epochs := by
  obtain ⟨o, ho, heq⟩ := hm
  have hcalm := h o ho
  cases o <;> cases heq
  · exact hcalm.2
  · exact hcalm.elim

theorem calm_of_said_accept (h : ∀ o ∈ sent, o.Calm leader epochs) {m : Accept}
    (hm : Said sent (.accept m)) : .broadcast (.accept m) ∈ sent ∧ m.sender = leader ∧
      m.round = firstRound leader ∧ m.epochs = epochs := by
  obtain ⟨o, ho, heq⟩ := hm
  have hcalm := h o ho
  cases o <;> cases heq
  · exact hcalm.elim
  · exact ⟨ho, hcalm⟩

theorem calm_of_said_learn (h : ∀ o ∈ sent, o.Calm leader epochs) {m : Learn}
    (hm : Said sent (.learn m)) : .broadcast (.learn m) ∈ sent ∧
      m.round = firstRound leader ∧ m.epochs = epochs := by
  obtain ⟨o, ho, heq⟩ := hm
  have hcalm := h o ho
  cases o <;> cases heq
  · exact hcalm.elim
  · exact ⟨ho, hcalm⟩

end Said

namespace Proposer

variable {p q p' : Proposer} {leader : Nat} {sent out : List Outgoing}

/-- The proposer proposes in its first round; `sent` are the messages sent so far. -/
structure Proposing (leader : Nat) (sent : List Outgoing) (p : Proposer) : Prop where
  /-- It leads. -/
  leads : p.isLeader = true
  /-- It has its promises. -/
  phase_eq : p.phase = .two
  /-- It never needed another round. -/
  round_eq : p.round = firstRound leader
  /-- It proposed for every slot that it may have proposed for. -/
  proposed : ∀ t, p.adu < t → t < p.nextSlot → ∃ v, Proposed sent (firstRound leader) t v
  /-- It can do no more for now. -/
  saturated : p.Saturated

theorem Proposing.append (h : p.Proposing leader sent) (out : List Outgoing) :
    p.Proposing leader (sent ++ out) where
  leads := h.leads
  phase_eq := h.phase_eq
  round_eq := h.round_eq
  proposed t hadu hnext := (h.proposed t hadu hnext).imp fun _ hv => hv.append out
  saturated := h.saturated

/-- It does not matter which rounds it has heard of. -/
theorem Proposing.hears (h : p.Proposing leader sent) (topCounter : Nat) :
    Proposing leader sent { p with topCounter } :=
  ⟨h.leads, h.phase_eq, h.round_eq, h.proposed, h.saturated⟩

/-- A proposer in phase two that fills the pipeline can do no more then. -/
theorem proposing_of_fill (hfill : q.fill = .ok (p', out)) (hlead : q.isLeader = true)
    (hphase : q.phase = .two) (hround : q.round = firstRound leader) (hlow : q.window.low = q.adu + 1)
    (hlt : q.adu < q.nextSlot)
    (hproposed : ∀ t, q.adu < t → t < q.nextSlot → ∃ v, Proposed sent (firstRound leader) t v) :
    p'.Proposing leader (sent ++ out) := by
  have hsaturated := saturated_of_fill hlead hphase hlow hlt hfill
  rcases fill_cases hfill with ⟨hnot, -⟩ | ⟨-, -, room, f, -, hcontinues, rfl, rfl⟩
  · exact absurd ⟨hlead, hphase⟩ hnot
  refine ⟨hlead, hphase, hround, fun t hadu hnext => ?_, hsaturated⟩
  by_cases hold : t < q.nextSlot
  · exact (hproposed t hadu hold).imp fun _ hv => hv.append _
  · -- the slot is among those proposed for now
    have hmem : t ∈ f.sent.map Prod.fst := by
      rw [hcontinues.slots, List.mem_range'_1]
      exact ⟨Nat.le_of_not_lt hold, hnext⟩
    obtain ⟨⟨_, v⟩, hin, rfl⟩ := List.mem_map.mp hmem
    refine ⟨v, q.id, q.epochs, said_append.mpr (Or.inr ⟨_, List.mem_map_of_mem hin, ?_⟩)⟩
    rw [← hround]
    rfl

/-- What fills the pipeline are proposals in the name of the proposer. -/
theorem calm_of_fill {epochs : EpochVector} (hfill : q.fill = .ok (p', out)) (hid : q.id = leader)
    (hround : q.round = firstRound leader) (hepochs : q.epochs = epochs) :
    ∀ o ∈ out, o.Calm leader epochs := by
  intro o ho
  rcases fill_cases hfill with ⟨-, -, rfl⟩ | ⟨-, -, room, f, -, -, -, rfl⟩
  · exact (List.not_mem_nil ho).elim
  · obtain ⟨sent, -, rfl⟩ := List.mem_map.mp ho
    exact ⟨hid, hround, hepochs⟩

/-! ### Steps of a leader -/

/-- What happens to the leader in a calm run. -/
def Input.Calm (leader : Nat) : Input → Prop
  | .trust j => j = leader
  | .promise _ => True
  | .submit _ => True
  | .noteDelivered _ _ => True
  | _ => False

/-- A leader that is told to lead goes on as before. -/
theorem trust_of_leads (hlead : p.isLeader = true) (hactive : p.phase ≠ .idle) :
    p.trust p.id = .ok (p, []) := by
  have hleader : p.leader = some p.id := by simpa [isLeader] using hlead
  simp [trust, hlead, hactive, ← hleader]

/-- In a calm run a leader keeps its state but for what it has heard of, keeps one more promise, or gets
ready to propose and fills the pipeline. -/
theorem lead_cases {x : Input} {o : Output} (hlead : p.isLeader = true) (hactive : p.phase ≠ .idle)
    (hx : x.Calm p.id) (hact : p.act x = .ok (p', o)) :
    (∃ topCounter, p' = { p with topCounter } ∧ o.outbound = [] ∧
        ∀ m, x = .promise m → ¬ (p.phase = .one ∧ m.round = p.round)) ∨
      (∃ m topCounter, x = .promise m ∧ p.phase = .one ∧ o.outbound = [] ∧
        p' = { p with topCounter, promises := recordPromise p.promises m } ∧
        p.mode.quorumOfPromises p'.promises p.quorum = none) ∨
      ∃ q taken, Readies p x q taken ∧ q.fill = .ok (p', o.outbound) := by
  cases x with
  | trust j =>
    obtain rfl : j = p.id := hx
    obtain ⟨⟨p₁, outbound⟩, htrust, hret⟩ := Checked.bind_eq_ok_iff.mp hact
    rw [trust_of_leads hlead hactive] at htrust
    cases htrust
    cases hret
    exact Or.inl ⟨p.topCounter, rfl, rfl, by simp⟩
  | promise m =>
    obtain ⟨⟨p₁, outbound⟩, hpromise, hret⟩ := Checked.bind_eq_ok_iff.mp hact
    cases hret
    obtain ⟨topCounter, ⟨hignored, rfl, rfl⟩ | ⟨hphase, hround, ⟨hnone, rfl, rfl⟩ |
      ⟨henough, hbegin⟩⟩⟩ := promise_cases hpromise
    · refine Or.inl ⟨topCounter, rfl, rfl, ?_⟩
      rintro _ ⟨⟩ ⟨hphase, hround⟩
      exact hignored ⟨hlead, hphase, hround⟩
    · exact Or.inr (Or.inl ⟨m, topCounter, rfl, hphase, rfl, rfl, hnone⟩)
    · obtain ⟨ownBefore, hown, hfill⟩ := beginProposing_cases hbegin
      exact Or.inr (Or.inr ⟨_, none, .begins topCounter ownBefore hphase hround henough hown, hfill⟩)
  | submit value =>
    obtain ⟨⟨p₁, result⟩, hsubmit, hret⟩ := Checked.bind_eq_ok_iff.mp hact
    rcases submit_cases hsubmit with ⟨rfl, fault, rfl⟩ | ⟨-, outbound, rfl, hfill⟩
    · cases hret
      exact Or.inl ⟨p'.topCounter, rfl, rfl, by simp⟩
    · cases hret
      exact Or.inr (Or.inr ⟨_, some value, .submits value hlead, hfill⟩)
  | noteDelivered adu decided =>
    obtain ⟨⟨p₁, outbound⟩, hnote, hret⟩ := Checked.bind_eq_ok_iff.mp hact
    cases hret
    rcases noteDelivered_cases hnote with ⟨-, rfl, rfl⟩ | ⟨habove, hfits, hfill⟩
    · exact Or.inl ⟨p'.topCounter, rfl, rfl, by simp⟩
    · exact Or.inr (Or.inr ⟨_, none, .advances adu decided habove hfits, hfill⟩)
  | hear => exact hx.elim
  | retry => exact hx.elim
  | checkProgress => exact hx.elim
  | setEpochs => exact hx.elim

/-- The proposer gathers promises for its first round. -/
structure Gathering (leader : Nat) (p : Proposer) : Prop where
  /-- It leads. -/
  leads : p.isLeader = true
  /-- It has asked for promises. -/
  phase_eq : p.phase = .one
  /-- It never needed another round. -/
  round_eq : p.round = firstRound leader
  /-- It has given no value to a slot. -/
  window_eq : p.window = {}
  /-- It has too few promises. -/
  few : p.mode.quorumOfPromises p.promises p.quorum = none

/-- It does not matter which rounds it has heard of. -/
theorem Gathering.hears (h : p.Gathering leader) (topCounter : Nat) :
    Gathering leader { p with topCounter } :=
  ⟨h.leads, h.phase_eq, h.round_eq, h.window_eq, h.few⟩

/-- A proposer that gathers promises goes on so, or it begins to propose. -/
theorem Gathering.act (h : p.Gathering leader) (hid : p.id = leader)
    (hlow : p.window.low = p.adu + 1) {x : Input} {o : Output} (hx : x.Calm leader)
    (hnote : ∀ adu decided, x = .noteDelivered adu decided → adu ≤ p.adu)
    (hact : p.act x = .ok (p', o)) :
    p'.Gathering leader ∧ o.outbound = [] ∨ p'.Proposing leader o.outbound := by
  have hactive : p.phase ≠ .idle := by
    rw [h.phase_eq]
    simp
  rcases lead_cases h.leads hactive (hid ▸ hx) hact with ⟨topCounter, rfl, hout, -⟩ |
    ⟨m, topCounter, -, -, hout, rfl, hnone⟩ | ⟨q, taken, hreadies, hfill⟩
  · exact Or.inl ⟨h.hears topCounter, hout⟩
  · exact Or.inl ⟨⟨h.leads, h.phase_eq, h.round_eq, h.window_eq, hnone⟩, hout⟩
  · cases hreadies with
    | begins topCounter ownBefore =>
      right
      rw [← List.nil_append o.outbound]
      refine proposing_of_fill hfill h.leads rfl h.round_eq ((low_begun _ _).trans hlow)
        (Nat.lt_succ_self _) fun t hadu hnext => ?_
      have hnext' : t < p.adu + 1 := hnext
      have hadu' : p.adu < t := hadu
      omega
    | submits value =>
      left
      rcases fill_cases hfill with ⟨-, rfl, hout⟩ | ⟨-, htwo, -⟩
      · exact ⟨⟨h.leads, h.phase_eq, h.round_eq, h.window_eq, h.few⟩, hout⟩
      · cases h.phase_eq.symm.trans htwo
    | advances adu decided above => exact absurd (hnote adu decided rfl) (Nat.not_le.mpr above)

/-- A proposer that proposes goes on so. -/
theorem Proposing.act (h : p.Proposing leader sent) (hid : p.id = leader)
    (hlow : p.window.low = p.adu + 1) (hlt : p.adu < p.nextSlot) {x : Input} {o : Output}
    (hx : x.Calm leader) (hact : p.act x = .ok (p', o)) :
    p'.Proposing leader (sent ++ o.outbound) := by
  have hactive : p.phase ≠ .idle := by
    rw [h.phase_eq]
    simp
  rcases lead_cases h.leads hactive (hid ▸ hx) hact with ⟨topCounter, rfl, hout, -⟩ |
    ⟨m, topCounter, -, hone, -⟩ | ⟨q, taken, hreadies, hfill⟩
  · rw [hout, List.append_nil]
    exact h.hears topCounter
  · cases h.phase_eq.symm.trans hone
  · cases hreadies with
    | begins _ _ hone => cases h.phase_eq.symm.trans hone
    | submits value =>
      exact proposing_of_fill hfill h.leads h.phase_eq h.round_eq hlow hlt h.proposed
    | advances adu decided above =>
      obtain ⟨hlow', hlt', hproposed⟩ : (p.advanced adu decided).window.low = adu + 1 ∧
          adu < (p.advanced adu decided).nextSlot ∧ ∀ t, adu < t →
            t < (p.advanced adu decided).nextSlot → ∃ v, Proposed sent (firstRound leader) t v := by
        refine ⟨?_, ?_, fun t hadu hnext => h.proposed t (by omega) ?_⟩
        · simp only [advanced, Window.low_raise]
          omega
        · simp only [advanced]
          split <;> omega
        · simp only [advanced] at hnext
          split at hnext <;> omega
      exact proposing_of_fill hfill h.leads h.phase_eq h.round_eq hlow' hlt' hproposed

/-- What a leader says in a calm run is about its first round. -/
theorem calm_of_act {epochs : EpochVector} {x : Input} {o : Output} (hlead : p.isLeader = true)
    (hactive : p.phase ≠ .idle) (hid : p.id = leader) (hround : p.round = firstRound leader)
    (hepochs : p.epochs = epochs) (hx : x.Calm leader) (hact : p.act x = .ok (p', o)) :
    ∀ msg ∈ o.outbound, msg.Calm leader epochs := by
  rcases lead_cases hlead hactive (hid ▸ hx) hact with ⟨topCounter, -, hout, -⟩ |
    ⟨m, topCounter, -, -, hout, -⟩ | ⟨q, taken, hreadies, hfill⟩
  · simp [hout]
  · simp [hout]
  · cases hreadies with
    | begins => exact calm_of_fill hfill hid hround hepochs
    | submits => exact calm_of_fill hfill hid hround hepochs
    | advances => exact calm_of_fill hfill hid hround hepochs

/-- A fresh proposer that is told to lead asks for promises for its first round. -/
theorem act_trust_start (c : ReplicaSettings) (leader : Nat) (epochs : EpochVector) :
    ∃ p', (((World.start c).proposers leader).setEpochs epochs).act (.trust leader) =
        .ok (p', { outbound := [.broadcast (.prepare ⟨leader, firstRound leader, 0⟩)] }) ∧
      p'.Gathering leader := by
  have hfit : Word.fit 1 = .ok 1 := by decide
  refine ⟨{ ((World.start c).proposers leader).setEpochs epochs with
    leader := some leader, round := firstRound leader, phase := .one }, ?_, ?_⟩
  · simp [act, trust, isLeader, askPromises, Round.next, Round.bottom, forgetRound, firstRound,
      setEpochs, World.start, Replica.ofSettings, Replica.start, ReplicaSettings.withReplica,
      ReplicaSettings.roles, Window.highest, hfit, bind, Except.bind, pure, Except.pure]
  · refine ⟨?_, rfl, rfl, rfl, if_neg ?_⟩
    · simp [isLeader, setEpochs, World.start, Replica.ofSettings, Replica.start,
        ReplicaSettings.withReplica]
    · exact Nat.not_succ_le_zero _

end Proposer

variable {c : ReplicaSettings} {leader : Nat} {epochs : EpochVector} {w w' : World} {e : Event}
  {flight rest : List (Nat × Message)}

namespace World

/-! ### What may happen to a role -/

theorem Next.calm_or_arrival {n : Nat} (h : w.Next n leader flight e rest) :
    e.Calm leader ∨ ∃ i m, (i, m) ∈ flight ∧ e = .arrival i m := by
  cases h with
  | happens hcalm => exact Or.inl hcalm
  | arrives hmem => exact Or.inr ⟨_, _, hmem, rfl⟩

/-- Acceptors only get requests for promises and proposals. -/
theorem Next.of_acceptor {n i : Nat} {x : Acceptor.Input}
    (h : w.Next n leader flight (.acceptor i x) rest) :
    (∃ m, x = .prepare m ∧ (i, .prepare m) ∈ flight) ∨
      ∃ m, x = .accept m ∧ (i, .accept m) ∈ flight := by
  rcases h.calm_or_arrival with hcalm | ⟨i, m, hmem, heq⟩
  · exact hcalm.elim
  · cases m <;> cases heq
    · exact Or.inl ⟨_, rfl, hmem⟩
    · exact Or.inr ⟨_, rfl, hmem⟩

/-- Proposers are told to trust the leader, get promises, and take values. -/
theorem Next.of_proposer {n i : Nat} {x : Proposer.Input}
    (h : w.Next n leader flight (.proposer i x) rest) :
    x = .trust leader ∨ (∃ v, x = .submit v) ∨ ∃ m, x = .promise m ∧ (i, .promise m) ∈ flight := by
  rcases h.calm_or_arrival with hcalm | ⟨i, m, hmem, heq⟩
  · cases x with
    | trust j => exact Or.inl (congrArg _ hcalm)
    | submit v => exact Or.inr (Or.inl ⟨v, rfl⟩)
    | _ => exact hcalm.elim
  · cases m <;> cases heq
    exact Or.inr (Or.inr ⟨_, rfl, hmem⟩)

/-- Learners are told to trust the leader, and get votes, requests and answers. -/
theorem Next.of_learner {n i : Nat} {x : Learner.Input}
    (h : w.Next n leader flight (.learner i x) rest) :
    x = .trust leader ∨ (∃ m, x = .learn m ∧ (i, .learn m) ∈ flight) ∨
      (∃ m, x = .request m ∧ (i, .catchUpRequest m) ∈ flight) ∨
        ∃ m, x = .response m ∧ (i, .catchUpResponse m) ∈ flight := by
  rcases h.calm_or_arrival with hcalm | ⟨i, m, hmem, heq⟩
  · cases x with
    | trust j => exact Or.inl (congrArg _ hcalm)
    | _ => exact hcalm.elim
  · cases m <;> cases heq
    · exact Or.inr (Or.inl ⟨_, rfl, hmem⟩)
    · exact Or.inr (Or.inr (Or.inl ⟨_, rfl, hmem⟩))
    · exact Or.inr (Or.inr (Or.inr ⟨_, rfl, hmem⟩))

theorem Next.calm_input {n i : Nat} {x : Proposer.Input}
    (h : w.Next n leader flight (.proposer i x) rest) : x.Calm leader := by
  rcases h.of_proposer with rfl | ⟨v, rfl⟩ | ⟨m, rfl, -⟩ <;> trivial

/-- A proposer is told to trust the leader only. -/
theorem Next.trust_eq {n i j : Nat} (h : w.Next n leader flight (.proposer i (.trust j)) rest) :
    j = leader := by
  rcases h.of_proposer with heq | ⟨v, heq⟩ | ⟨m, heq, -⟩ <;> cases heq
  rfl

theorem Next.not_snapshot {n i slot : Nat} : ¬ w.Next n leader flight (.snapshot i slot) rest := by
  intro h
  rcases h.calm_or_arrival with hcalm | ⟨i, m, -, heq⟩
  · exact hcalm.elim
  · cases m <;> cases heq

/-! ### Stages -/

/-- How far the leader of a calm run has come. -/
inductive Stage (c : ReplicaSettings) (leader : Nat) (epochs : EpochVector) (w : World) : Prop
  /-- It has not been told to lead, and nothing was sent. -/
  | idle (sent_eq : w.sent = []) (waiting_eq : w.waiting leader = [])
      (submitted_eq : w.submitted leader = [])
      (proposer_eq : w.proposers leader = ((World.start c).proposers leader).setEpochs epochs)
  /-- It has asked for promises, and proposed nothing. -/
  | gathers (prepare_mem : .broadcast (.prepare ⟨leader, firstRound leader, 0⟩) ∈ w.sent)
      (unproposed : ∀ m, ¬ Said w.sent (.accept m))
      (gathering : (w.proposers leader).Gathering leader)
  /-- It proposes. -/
  | proposes (proposing : (w.proposers leader).Proposing leader w.sent)

/-- What others do does not concern the leader. -/
theorem Stage.of_others (h : w.Stage c leader epochs) {out : List Outgoing}
    (hproposer : w'.proposers leader = w.proposers leader) (hsent : w'.sent = w.sent ++ out)
    (haccept : ∀ m, ¬ Said out (.accept m))
    (hidle : w.sent = [] → out = [] ∧ w'.waiting leader = w.waiting leader ∧
      w'.submitted leader = w.submitted leader) : w'.Stage c leader epochs := by
  cases h with
  | idle sent_eq waiting_eq submitted_eq proposer_eq =>
    obtain ⟨rfl, hwaiting, hsubmitted⟩ := hidle sent_eq
    refine .idle ?_ (hwaiting.trans waiting_eq) (hsubmitted.trans submitted_eq)
      (hproposer.trans proposer_eq)
    rw [hsent, sent_eq]
    rfl
  | gathers prepare_mem unproposed gathering =>
    refine .gathers (hsent ▸ List.mem_append_left _ prepare_mem) (fun m hm => ?_)
      (hproposer ▸ gathering)
    rw [hsent] at hm
    exact (said_append.mp hm).elim (unproposed m) (haccept m)
  | proposes proposing =>
    refine .proposes ?_
    rw [hproposer, hsent]
    exact proposing.append out

/-- While the leader gathers promises, nothing is delivered. -/
theorem length_logs_eq_zero {Env : World → Event → Prop} (hw : Reachable c Env w)
    (h : ∀ m, ¬ Said w.sent (.accept m)) (i : Nat) : (w.logs i).length = 0 := by
  refine Nat.le_zero.mp (hw.length_logs_le (fun r slot v ⟨sender, epochs, hsaid⟩ => ?_) i)
  exact absurd hsaid (h _)

/-- The leader, when it has heard of a round or not, goes on to the same or the next stage. -/
theorem Stage.lead (hrun : CalmRun c leader epochs w flight) (h : w.Stage c leader epochs)
    (hlead : (w.proposers leader).phase ≠ .idle) {p p' : Proposer} {x : Proposer.Input}
    {o : Proposer.Output} (hp : ∃ topCounter, p = { w.proposers leader with topCounter })
    (hx : x.Calm leader)
    (hnote : ∀ adu decided, x = .noteDelivered adu decided → adu ≤ (w.logs leader).length)
    (hact : p.act x = .ok (p', o)) :
    (∀ w' : World, w'.proposers leader = p' → w'.sent = w.sent ++ o.outbound →
        w'.Stage c leader epochs) ∧
      (leader < c.replicas → ∀ msg ∈ o.outbound, msg.Calm leader epochs) := by
  obtain ⟨hid, hlow, hlt, hepochs⟩ : p.id = leader ∧ p.window.low = p.adu + 1 ∧
      p.adu < p.nextSlot ∧ (leader < c.replicas → p.epochs = epochs) := by
    obtain ⟨topCounter, rfl⟩ := hp
    obtain ⟨-, -, hid, hlow⟩ := hrun.reachable.ids leader
    exact ⟨hid, hlow, (hrun.ordinary.proposer_recorded (fun _ _ h => h) leader).adu_lt,
      fun hleader => (hrun.views leader hleader).2.1⟩
  cases h with
  | idle _ _ _ proposer_eq =>
    rw [proposer_eq] at hlead
    exact absurd rfl hlead
  | gathers prepare_mem unproposed gathering =>
    have hp' : p.Gathering leader := by
      obtain ⟨topCounter, rfl⟩ := hp
      exact gathering.hears topCounter
    have hactive : p.phase ≠ .idle := by simp [hp'.phase_eq]
    refine ⟨fun w' hproposer hsent' => ?_, fun hleader =>
      Proposer.calm_of_act hp'.leads hactive hid hp'.round_eq (hepochs hleader) hx hact⟩
    have hnone : ∀ adu decided, x = .noteDelivered adu decided → adu ≤ p.adu := by
      intro adu decided hxeq
      have hle := hnote adu decided hxeq
      rw [length_logs_eq_zero hrun.reachable unproposed] at hle
      exact hle.trans (Nat.zero_le _)
    rcases hp'.act hid hlow hx hnone hact with ⟨hgathering, hout⟩ | hproposing
    · rw [hout, List.append_nil] at hsent'
      exact .gathers (hsent' ▸ prepare_mem) (hsent' ▸ unproposed) (hproposer ▸ hgathering)
    · obtain ⟨hleads, hphase, hround, hproposed, hsaturated⟩ := hproposing
      refine .proposes ?_
      rw [hproposer, hsent']
      refine ⟨hleads, hphase, hround, fun t hadu hnext => ?_, hsaturated⟩
      obtain ⟨v, sender, epochs, hsaid⟩ := hproposed t hadu hnext
      exact ⟨v, sender, epochs, said_append.mpr (Or.inr hsaid)⟩
  | proposes proposing =>
    have hp' : p.Proposing leader w.sent := by
      obtain ⟨topCounter, rfl⟩ := hp
      exact proposing.hears topCounter
    have hactive : p.phase ≠ .idle := by simp [hp'.phase_eq]
    refine ⟨fun w' hproposer hsent' => .proposes ?_, fun hleader =>
      Proposer.calm_of_act hp'.leads hactive hid hp'.round_eq (hepochs hleader) hx hact⟩
    rw [hproposer, hsent']
    exact hp'.act hid hlow hlt hx hact

/-- A leader that has not been told to lead is told so, or refuses values. -/
theorem Stage.start (h : w.Stage c leader epochs) (hidle : (w.proposers leader).phase = .idle)
    {n : Nat} {x : Proposer.Input} {p : Proposer} {o : Proposer.Output}
    (hnext : w.Next n leader flight (.proposer leader x) rest)
    (hflight : ∀ {i m}, (i, m) ∈ flight → w.sent ≠ [])
    (hact : (w.proposers leader).act x = .ok (p, o)) :
    let w' := { w with
      proposers := update w.proposers leader p
      sent := w.sent ++ o.outbound
      submitted := update w.submitted leader (w.submitted leader ++ o.taken.toList) }
    w'.Stage c leader epochs ∧ ∀ msg ∈ w'.sent, msg.Calm leader epochs := by
  cases h with
  | gathers _ _ gathering => cases gathering.phase_eq.symm.trans hidle
  | proposes proposing => cases proposing.phase_eq.symm.trans hidle
  | idle sent_eq waiting_eq submitted_eq proposer_eq =>
    rcases hnext.of_proposer with rfl | ⟨v, rfl⟩ | ⟨m, -, hmem⟩
    · obtain ⟨p', htrust, hgathering⟩ := Proposer.act_trust_start c leader epochs
      rw [proposer_eq, htrust] at hact
      cases hact
      refine ⟨.gathers ?_ ?_ ?_, ?_⟩
      · simp [sent_eq]
      · simp [sent_eq, Outgoing.message]
      · simpa using hgathering
      · simp [sent_eq, Outgoing.Calm]
    · -- it does not lead
      rw [proposer_eq] at hact
      cases hact
      refine ⟨.idle ?_ waiting_eq ?_ ?_, ?_⟩
      · simp [sent_eq]
      · simp [submitted_eq]
      · simp
      · simp [sent_eq]
    · exact absurd sent_eq (hflight hmem)

end World

namespace CalmRun

/-- What an acceptor says in answer to what is said in a calm run. -/
theorem calm_of_acceptor (hsaid : ∀ o ∈ w.sent, o.Calm leader epochs) {n i : Nat}
    (hrun : ∀ m, (i, m) ∈ flight → w.Arrives i m) (hepochs : (w.acceptors i).epochs = epochs)
    {x : Acceptor.Input} {a : Acceptor} {out : List Outgoing}
    (hnext : w.Next n leader flight (.acceptor i x) rest)
    (hact : (w.acceptors i).act x = .ok (a, out)) : ∀ o ∈ out, o.Calm leader epochs := by
  have htake : ∀ s, x ≠ .takeOver s := by
    rintro s rfl
    exact hnext.ordinary_ledBy.1
  cases Acceptor.acts_of_act htake hact with
  | quiet => simp
  | @promise m =>
    rcases hnext.of_acceptor with ⟨_, ⟨⟩, hmem⟩ | ⟨_, heq, -⟩
    · obtain rfl := eq_of_said_prepare hsaid (World.said_of_arrives (hrun _ hmem))
      simp [Outgoing.Calm, hepochs]
    · cases heq
  | @vote m =>
    rcases hnext.of_acceptor with ⟨_, heq, -⟩ | ⟨_, ⟨⟩, hmem⟩
    · cases heq
    · have hm := calm_of_said_accept hsaid (World.said_of_arrives (hrun _ hmem))
      simp [Outgoing.Calm, hepochs, hm.2.2.1]

/-- What a learner says is a request or an answer. -/
theorem calm_of_learner {x : Learner.Input} {l l' : Learner} {d : Delivery}
    (hact : l.act x = .ok (l', d)) : ∀ o ∈ d.outbound, o.Calm leader epochs := by
  have hrequest : ∀ o, l'.IsRequest o → o.Calm leader epochs := by
    rintro o ⟨target, ranges, rfl, -⟩
    trivial
  cases Learner.acts_of_act hact with
  | quiet _ _ _ _ _ _ isRequest => exact fun o ho => hrequest o (isRequest o ho)
  | answer => simp [Outgoing.Calm]
  | count => simp
  | settle _ _ _ _ _ isRequest => exact fun o ho => hrequest o (isRequest o ho)
  | take => simp

/-- **The leader of a calm run goes from stage to stage**, and all that is said is about its first
round. -/
theorem stage_said (hleader : leader < c.replicas) (h : CalmRun c leader epochs w flight) :
    w.Stage c leader epochs ∧ ∀ o ∈ w.sent, o.Calm leader epochs := by
  induction h with
  | @start w hw hviews =>
    obtain ⟨hsent, hroles⟩ := hw.untouched
    obtain ⟨hwaiting, hsubmitted, hproposer⟩ := hroles leader
    rw [(hviews leader hleader).2.1] at hproposer
    exact ⟨.idle hsent hwaiting hsubmitted hproposer, by simp [hsent]⟩
  | @step w w' flight rest e hrun hnext hstep ih =>
    obtain ⟨hstage, hsaid⟩ := ih
    -- a message arrives only if something was sent
    have hflight : ∀ {i m}, (i, m) ∈ flight → w.sent ≠ [] := by
      intro i m hmem hnil
      obtain ⟨o, ho, -⟩ := (hrun.arrives hmem).2
      rw [hnil] at ho
      exact List.not_mem_nil ho
    have hallowed := hrun.allowed hnext
    cases World.steps_of_step hstep with
    | @acceptor i x a out act =>
      have hauthor := (Acceptor.author_of_act act).2
      refine ⟨hstage.of_others rfl rfl (World.not_accept_of_author (by simp) hauthor) ?_, ?_⟩
      · intro hnil
        rcases hnext.of_acceptor with ⟨m, -, hmem⟩ | ⟨m, -, hmem⟩ <;> exact absurd hnil (hflight hmem)
      · have hi : i < c.replicas := by
          rcases hnext.of_acceptor with ⟨m, -, hmem⟩ | ⟨m, -, hmem⟩ <;> exact (hrun.arrives hmem).1
        have hout := calm_of_acceptor hsaid (fun m hmem => (hrun.arrives hmem).2)
          (hrun.views i hi).1 hnext act
        exact List.forall_mem_append.mpr ⟨hsaid, hout⟩
    | snapshot => exact absurd hnext World.Next.not_snapshot
    | @proposer i x p out act =>
      by_cases hi : leader = i
      · subst hi
        by_cases hphase : (w.proposers leader).phase = .idle
        · exact hstage.start hphase hnext (fun hmem => hflight hmem) act
        · obtain ⟨hstage', hout⟩ := hstage.lead hrun hphase ⟨_, rfl⟩ hnext.calm_input
            (by rintro adu decided rfl; exact hallowed.elim) act
          exact ⟨hstage' _ (update_self _ _ _) rfl, List.forall_mem_append.mpr ⟨hsaid, hout hleader⟩⟩
      · have hid := (hrun.reachable.ids i).2.2
        obtain ⟨-, hnone⟩ := Proposer.idle_of_act hid.2 (hrun.led.fifo.idle i (Ne.symm hi))
          (by rintro rfl; exact hi (hid.1 ▸ hnext.trust_eq.symm)) act
        rw [hnone, List.append_nil]
        exact ⟨hstage.of_others (update_of_ne hi _ _) (List.append_nil _).symm (fun _ => not_said_nil)
          fun _ => ⟨rfl, rfl, update_of_ne hi _ _⟩, hsaid⟩
    | nothing => exact ⟨hstage, hsaid⟩
    | @handOver i note rest p out waiting_eq act =>
      by_cases hi : leader = i
      · subst hi
        have hphase : (w.proposers leader).phase ≠ .idle := by
          intro hidle
          cases hstage with
          | idle _ waiting_nil => simp [waiting_nil] at waiting_eq
          | gathers _ _ gathering => cases gathering.phase_eq.symm.trans hidle
          | proposes proposing => cases proposing.phase_eq.symm.trans hidle
        have hadu := ((hrun.reachable.told leader).waiting note (by simp [waiting_eq])).1
        have hx : (Proposer.Input.noteDelivered note.adu note.decided).Calm leader := trivial
        obtain ⟨hstage', hout⟩ := hstage.lead hrun hphase ⟨_, rfl⟩ hx
          (by rintro adu decided ⟨⟩; exact hadu) act
        exact ⟨hstage' _ (update_self _ _ _) rfl, List.forall_mem_append.mpr ⟨hsaid, hout hleader⟩⟩
      · obtain ⟨-, hnone⟩ := Proposer.idle_of_act (p := (w.proposers i).hear note.round)
          (hrun.reachable.ids i).2.2.2 (hrun.led.fifo.idle i (Ne.symm hi)) (by simp) act
        simp only at hnone
        rw [hnone, List.append_nil]
        exact ⟨hstage.of_others (update_of_ne hi _ _) (List.append_nil _).symm (fun _ => not_said_nil)
          fun _ => ⟨rfl, update_of_ne hi _ _, rfl⟩, hsaid⟩
    | @learner i x l d act =>
      have hauthor := (Learner.author_of_act act).2
      refine ⟨hstage.of_others rfl rfl (World.not_accept_of_author (by simp) hauthor) ?_,
        List.forall_mem_append.mpr ⟨hsaid, calm_of_learner act⟩⟩
      intro hnil
      rcases hnext.of_learner with rfl | ⟨m, -, hmem⟩ | ⟨m, -, hmem⟩ | ⟨m, -, hmem⟩
      · cases act
        refine ⟨rfl, ?_, rfl⟩
        by_cases hi : leader = i
        · subst hi
          simp [World.handOvers]
        · simp [update_of_ne hi]
      · exact absurd hnil (hflight hmem)
      · exact absurd hnil (hflight hmem)
      · exact absurd hnil (hflight hmem)

end CalmRun

end ReplicatedLog
