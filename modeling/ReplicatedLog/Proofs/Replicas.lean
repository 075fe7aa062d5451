import ReplicatedLog.Proofs.InWords

/-!
# Replicas in a world

A replica acts in one go: a vote that settles a slot is counted, the slot is delivered, and the
proposer hears of it. In a world these are events of its roles, with anything else in between them if
need be. So whatever a replica does is a run of a world (`Reachable.receive`, `Reachable.trust`,
`Reachable.submit`, …). What is brought in fits in words, and runs in which the membership changes are
told apart from those in which it does not (`Event.Usual`).
-/

namespace ReplicatedLog

open Function

/-- What the event brings in fits in words. If `ordinary`, it does not belong to a change of the
membership either. -/
def Event.Usual (ordinary : Prop) (e : Event) : Prop := e.InWords ∧ (ordinary → e.Ordinary)

namespace World

/-- Replica `i` is `r`, and its proposer has heard of everything that its learner delivered. -/
structure Holds (w : World) (i : Nat) (r : Replica) : Prop where
  /-- It votes. -/
  acceptor_eq : w.acceptors i = r.acceptor
  /-- It leads. -/
  proposer_eq : w.proposers i = r.proposer
  /-- It delivers. -/
  learner_eq : w.learners i = r.learner
  /-- There is nothing more to hear. -/
  waiting_eq : w.waiting i = []

/-- The world after replica `i` became `r`, with what it sent and delivered on the way, and the values
that it took from clients. -/
def become (w : World) (i : Nat) (r : Replica) (d : Delivery) (taken : List Value) : World :=
  { w with
    acceptors := update w.acceptors i r.acceptor
    proposers := update w.proposers i r.proposer
    learners := update w.learners i r.learner
    sent := w.sent ++ d.outbound
    logs := update w.logs i (w.logs i ++ d.delivered)
    submitted := update w.submitted i (w.submitted i ++ taken) }

variable {w : World} {i j : Nat} {r r' : Replica} {d : Delivery} {taken : List Value}

theorem Holds.become_self (h : w.Holds i r) : (w.become i r' d taken).Holds i r' where
  acceptor_eq := by simp [become]
  proposer_eq := by simp [become]
  learner_eq := by simp [become]
  waiting_eq := h.waiting_eq

/-- The other replicas are not affected. -/
theorem Holds.become_of_ne (h : w.Holds j r) (hne : j ≠ i) : (w.become i r' d taken).Holds j r where
  acceptor_eq := (update_of_ne hne _ w.acceptors).trans h.acceptor_eq
  proposer_eq := (update_of_ne hne _ w.proposers).trans h.proposer_eq
  learner_eq := (update_of_ne hne _ w.learners).trans h.learner_eq
  waiting_eq := h.waiting_eq

/-- What a replica becomes in two steps, it becomes in one. -/
theorem become_become (d' : Delivery) (taken' : List Value) :
    (w.become i r d taken).become i r' d' taken' = w.become i r'
      { delivered := d.delivered ++ d'.delivered, outbound := d.outbound ++ d'.outbound }
      (taken ++ taken') := by
  simp [become]

/-- The replicas of a world before anything happened are fresh ones. -/
theorem holds_start (c : ReplicaSettings) (i : Nat) :
    (World.start c).Holds i (Replica.ofSettings (c.withReplica i)) := ⟨rfl, rfl, rfl, rfl⟩

end World

namespace Reachable

variable {c : ReplicaSettings} {ordinary : Prop} {w : World} {i : Nat} {r r' : Replica}

/-! ### One role acts -/

theorem acceptor_acts (hw : Reachable c (fun _ e => e.Usual ordinary) w) (hholds : w.Holds i r)
    {x : Acceptor.Input} {a : Acceptor} {out : List Outgoing}
    (husual : (Event.acceptor i x).Usual ordinary) (hallowed : w.Allowed c.replicas (.acceptor i x))
    (hact : r.acceptor.act x = .ok (a, out)) :
    Reachable c (fun _ e => e.Usual ordinary)
      (w.become i { r with acceptor := a } { outbound := out } []) := by
  rw [← hholds.acceptor_eq] at hact
  have hstep : w.step (.acceptor i x) = .ok
      { w with acceptors := update w.acceptors i a, sent := w.sent ++ out } :=
    Checked.bind_eq_ok_iff.mpr ⟨_, hact, rfl⟩
  have hbecome := hw.step husual hallowed hstep
  simpa [World.become, ← hholds.proposer_eq, ← hholds.learner_eq] using hbecome

theorem proposer_acts (hw : Reachable c (fun _ e => e.Usual ordinary) w) (hholds : w.Holds i r)
    {x : Proposer.Input} {p : Proposer} {out : Proposer.Output} (hwords : (Event.proposer i x).InWords)
    (hallowed : w.Allowed c.replicas (.proposer i x))
    (hact : r.proposer.act x = .ok (p, out)) :
    Reachable c (fun _ e => e.Usual ordinary)
      (w.become i { r with proposer := p } { outbound := out.outbound } out.taken.toList) := by
  rw [← hholds.proposer_eq] at hact
  have hstep : w.step (.proposer i x) = .ok
      { w with
        proposers := update w.proposers i p
        sent := w.sent ++ out.outbound
        submitted := update w.submitted i (w.submitted i ++ out.taken.toList) } :=
    Checked.bind_eq_ok_iff.mpr ⟨_, hact, rfl⟩
  have husual : (Event.proposer i x).Usual ordinary := ⟨hwords, fun _ => trivial⟩
  have hbecome := hw.step husual hallowed hstep
  simpa [World.become, ← hholds.acceptor_eq, ← hholds.learner_eq] using hbecome

/-- A learner acts, and the proposer of its replica hears of what it delivered at once. -/
theorem learner_acts (hw : Reachable c (fun _ e => e.Usual ordinary) w) (hholds : w.Holds i r)
    {x : Learner.Input} {l : Learner} {d d' : Delivery}
    (hallowed : w.Allowed c.replicas (.learner i x)) (hi : i < c.replicas)
    (hact : r.learner.act x = .ok (l, d))
    (hafter : Replica.afterDelivery { r with learner := l } d = .ok (r', d')) :
    Reachable c (fun _ e => e.Usual ordinary) (w.become i r' d' []) := by
  rw [← hholds.learner_eq] at hact
  have hstep : w.step (.learner i x) = .ok
      { w with
        learners := update w.learners i l
        sent := w.sent ++ d.outbound
        waiting := update w.waiting i (w.waiting i ++ World.handOvers l d)
        logs := update w.logs i (w.logs i ++ d.delivered) } :=
    Checked.bind_eq_ok_iff.mpr ⟨_, hact, rfl⟩
  have husual : (Event.learner i x).Usual ordinary := ⟨trivial, fun _ => trivial⟩
  have hlearned := hw.step husual hallowed hstep
  unfold Replica.afterDelivery at hafter
  rw [World.handOvers, hholds.waiting_eq, List.nil_append] at hlearned
  split at hafter
  · -- there is nothing to hear of
    rename_i hempty
    obtain ⟨rfl, rfl⟩ := Prod.mk.inj (Except.ok.inj hafter)
    rw [if_pos hempty, ← hholds.waiting_eq, update_eq_self] at hlearned
    simpa [World.become, ← hholds.acceptor_eq, ← hholds.proposer_eq] using hlearned
  · rename_i hempty
    obtain ⟨⟨p, out⟩, hnote, hret⟩ := Checked.bind_eq_ok_iff.mp hafter
    obtain ⟨rfl, rfl⟩ := Prod.mk.inj (Except.ok.inj hret)
    rw [if_neg hempty] at hlearned
    have husual : (Event.handOver i).Usual ordinary := ⟨trivial, fun _ => trivial⟩
    refine hlearned.step husual hi ?_
    have hheard : ((w.proposers i).hear l.highestRound).noteDelivered l.adu d.delivered =
        .ok (p, out) := hholds.proposer_eq ▸ hnote
    have hwaiting : update (update w.waiting i [⟨l.adu, d.delivered, l.highestRound⟩]) i [] =
        w.waiting := by
      rw [update_idem, ← hholds.waiting_eq, update_eq_self]
    simp only [World.step, update_self]
    rw [hheard]
    refine congrArg Except.ok ?_
    simp [World.become, ← hholds.acceptor_eq, hwaiting]

/-! ### Replicas act -/

/-- **A message arrives** at a replica. -/
theorem receive (hw : Reachable c (fun _ e => e.Usual ordinary) w) (hholds : w.Holds i r)
    (hi : i < c.replicas) {m : Message} (harrives : w.Arrives i m) {d : Delivery}
    (h : r.receive m = .ok (r', d)) :
    Reachable c (fun _ e => e.Usual ordinary) (w.become i r' d []) := by
  cases m with
  | prepare m =>
    obtain ⟨⟨a, answer⟩, hprepare, hret⟩ := Checked.bind_eq_ok_iff.mp h
    obtain ⟨rfl, rfl⟩ := Prod.mk.inj (Except.ok.inj hret)
    exact hw.acceptor_acts hholds (x := .prepare m) ⟨trivial, fun _ => trivial⟩ ⟨hi, harrives⟩
      (Checked.bind_eq_ok_iff.mpr ⟨(a, answer), hprepare, rfl⟩)
  | accept m =>
    obtain ⟨rfl, rfl⟩ := Prod.mk.inj (Except.ok.inj h)
    exact hw.acceptor_acts hholds (x := .accept m) ⟨trivial, fun _ => trivial⟩ ⟨hi, harrives⟩ rfl
  | promise m =>
    obtain ⟨⟨p, out⟩, hpromise, hret⟩ := Checked.bind_eq_ok_iff.mp h
    obtain ⟨rfl, rfl⟩ := Prod.mk.inj (Except.ok.inj hret)
    exact hw.proposer_acts hholds (x := .promise m) trivial ⟨hi, harrives⟩
      (Checked.bind_eq_ok_iff.mpr ⟨(p, out), hpromise, rfl⟩)
  | learn m =>
    obtain ⟨⟨l, d₁⟩, hlearn, hafter⟩ := Checked.bind_eq_ok_iff.mp h
    exact hw.learner_acts hholds (x := .learn m) ⟨hi, harrives⟩ hi hlearn hafter
  | catchUpRequest m =>
    obtain ⟨o, hanswer, hret⟩ := Checked.bind_eq_ok_iff.mp h
    obtain ⟨rfl, rfl⟩ := Prod.mk.inj (Except.ok.inj hret)
    exact hw.learner_acts hholds (x := .request m) ⟨hi, harrives⟩ hi
      (Checked.bind_eq_ok_iff.mpr ⟨o, hanswer, rfl⟩) rfl
  | catchUpResponse m =>
    obtain ⟨⟨l, d₁⟩, hanswer, hafter⟩ := Checked.bind_eq_ok_iff.mp h
    exact hw.learner_acts hholds (x := .response m) ⟨hi, harrives⟩ hi hanswer hafter

/-- **A replica is told whom to trust.** -/
theorem trust (hw : Reachable c (fun _ e => e.Usual ordinary) w) (hholds : w.Holds i r)
    (hi : i < c.replicas) {leader : Nat} {out : List Outgoing}
    (h : r.trust leader = .ok (r', out)) :
    Reachable c (fun _ e => e.Usual ordinary) (w.become i r' { outbound := out } []) := by
  obtain ⟨⟨p, out'⟩, htrust, hret⟩ := Checked.bind_eq_ok_iff.mp h
  obtain ⟨rfl, rfl⟩ := Prod.mk.inj (Except.ok.inj hret)
  have hproposer := hw.proposer_acts hholds (x := .trust leader) trivial hi
    (Checked.bind_eq_ok_iff.mpr ⟨(p, out'), htrust, rfl⟩)
  have hlearner := hproposer.learner_acts hholds.become_self (x := .trust leader) (d := {}) hi hi
    rfl rfl
  rw [World.become_become] at hlearner
  simpa using hlearner

/-- **A replica takes a new view** of the membership. -/
theorem setEpochs (hw : Reachable c (fun _ e => e.Usual ordinary) w) (hholds : w.Holds i r)
    (hi : i < c.replicas) {epochs : EpochVector} (hwords : epochs.InWords) :
    Reachable c (fun _ e => e.Usual ordinary) (w.become i (r.setEpochs epochs) {} []) := by
  have hacceptor := hw.acceptor_acts hholds (x := .setEpochs epochs) ⟨hwords, fun _ => trivial⟩ hi rfl
  have hproposer := hacceptor.proposer_acts hholds.become_self (x := .setEpochs epochs) hwords hi rfl
  have hlearner := hproposer.learner_acts hholds.become_self.become_self (x := .setEpochs epochs)
    (d := {}) hi hi rfl rfl
  rw [World.become_become, World.become_become] at hlearner
  exact hlearner

/-- **An acceptor gives up slots** because the membership changes. -/
theorem raiseLow (hw : Reachable c (fun _ e => e.Usual ordinary) w) (hholds : w.Holds i r)
    (hi : i < c.replicas) (hchange : ¬ ordinary) (slot : Nat) :
    Reachable c (fun _ e => e.Usual ordinary)
      (w.become i { r with acceptor := r.acceptor.raiseLow slot } {} []) :=
  hw.acceptor_acts hholds (x := .raiseLow slot) ⟨trivial, fun h => absurd h hchange⟩ hi rfl

/-- **An acceptor hands over its votes.** -/
theorem handOver (hw : Reachable c (fun _ e => e.Usual ordinary) w) (hholds : w.Holds i r)
    (hi : i < c.replicas) {slot : Nat} {s : Snapshot} (h : r.acceptor.votesAbove slot = .ok s) :
    Reachable c (fun _ e => e.Usual ordinary) { w with snapshots := w.snapshots ++ [s] } := by
  have husual : (Event.snapshot i slot).Usual ordinary := ⟨trivial, fun _ => trivial⟩
  refine hw.step husual hi (Checked.bind_eq_ok_iff.mpr ⟨s, ?_, rfl⟩)
  rwa [hholds.acceptor_eq]

/-- **An acceptor takes over votes** because the membership changes. -/
theorem takeOver (hw : Reachable c (fun _ e => e.Usual ordinary) w) (hholds : w.Holds i r)
    (hi : i < c.replicas) (hchange : ¬ ordinary) {s : Snapshot} (hs : s ∈ w.snapshots) :
    Reachable c (fun _ e => e.Usual ordinary)
      (w.become i { r with acceptor := r.acceptor.takeOver s } {} []) :=
  hw.acceptor_acts hholds (x := .takeOver s) ⟨trivial, fun h => absurd h hchange⟩ ⟨hi, hs⟩ rfl

/-- The proposer of a replica acts as it does on an input. -/
theorem propose (hw : Reachable c (fun _ e => e.Usual ordinary) w) (hholds : w.Holds i r) {α : Type}
    {act : Proposer → Checked (Proposer × α)} {answer : α} {x : Proposer.Input}
    {o : Proposer.Output} (hwords : (Event.proposer i x).InWords)
    (hallowed : w.Allowed c.replicas (.proposer i x))
    (hact : ∀ p, act r.proposer = .ok (p, answer) → r.proposer.act x = .ok (p, o))
    (h : r.propose act = .ok (r', answer)) :
    Reachable c (fun _ e => e.Usual ordinary)
      (w.become i r' { outbound := o.outbound } o.taken.toList) := by
  obtain ⟨⟨p, answer'⟩, hp, hret⟩ := Checked.bind_eq_ok_iff.mp h
  obtain ⟨rfl, rfl⟩ := Prod.mk.inj (Except.ok.inj hret)
  exact hw.proposer_acts hholds hwords hallowed (hact p hp)

/-- **A client submits a value**, and it is taken. -/
theorem submit (hw : Reachable c (fun _ e => e.Usual ordinary) w) (hholds : w.Holds i r)
    (hi : i < c.replicas) {v : Value} (hwords : v.InWords) {out : List Outgoing}
    (h : r.propose (fun p => p.submit v) = .ok (r', .ok out)) :
    Reachable c (fun _ e => e.Usual ordinary) (w.become i r' { outbound := out } [v]) :=
  hw.propose hholds (x := .submit v) (o := { outbound := out, taken := some v }) hwords hi
    (fun _ hp => Checked.bind_eq_ok_iff.mpr ⟨_, hp, rfl⟩) h

/-- **A client submits a value**, and it is refused. -/
theorem refuse (hw : Reachable c (fun _ e => e.Usual ordinary) w) (hholds : w.Holds i r)
    (hi : i < c.replicas) {v : Value} (hwords : v.InWords) {fault : Fault}
    (h : r.propose (fun p => p.submit v) = .ok (r', .error fault)) :
    Reachable c (fun _ e => e.Usual ordinary) (w.become i r' {} []) :=
  hw.propose hholds (x := .submit v) (o := {}) hwords hi
    (fun _ hp => Checked.bind_eq_ok_iff.mpr ⟨_, hp, rfl⟩) h

/-- **Phase one took too long.** -/
theorem retry (hw : Reachable c (fun _ e => e.Usual ordinary) w) (hholds : w.Holds i r)
    (hi : i < c.replicas) {out : List Outgoing} (h : r.propose Proposer.retry = .ok (r', out)) :
    Reachable c (fun _ e => e.Usual ordinary) (w.become i r' { outbound := out } []) :=
  hw.propose hholds (x := .retry) (o := { outbound := out }) trivial hi
    (fun _ hp => Checked.bind_eq_ok_iff.mpr ⟨_, hp, rfl⟩) h

/-- **A replica checks for progress.** -/
theorem checkProgress (hw : Reachable c (fun _ e => e.Usual ordinary) w) (hholds : w.Holds i r)
    (hi : i < c.replicas) {out : List Outgoing}
    (h : r.propose Proposer.checkProgress = .ok (r', out)) :
    Reachable c (fun _ e => e.Usual ordinary) (w.become i r' { outbound := out } []) :=
  hw.propose hholds (x := .checkProgress) (o := { outbound := out }) trivial hi
    (fun _ hp => Checked.bind_eq_ok_iff.mpr ⟨_, hp, rfl⟩) h

/-- **A replica asks again** for missing slots. -/
theorem askAgain (hw : Reachable c (fun _ e => e.Usual ordinary) w) (hholds : w.Holds i r)
    (hi : i < c.replicas) {out : List Outgoing}
    (h : r.learn Learner.askAgain = .ok (r', out)) :
    Reachable c (fun _ e => e.Usual ordinary) (w.become i r' { outbound := out } []) := by
  obtain ⟨⟨l, out'⟩, hask, hret⟩ := Checked.bind_eq_ok_iff.mp h
  obtain ⟨rfl, rfl⟩ := Prod.mk.inj (Except.ok.inj hret)
  exact hw.learner_acts hholds (x := .askAgain) hi hi
    (Checked.bind_eq_ok_iff.mpr ⟨(l, out'), hask, rfl⟩) rfl

end Reachable

end ReplicatedLog
