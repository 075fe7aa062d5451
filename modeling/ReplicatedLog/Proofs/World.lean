import ReplicatedLog.Proofs.Leading
import ReplicatedLog.Proofs.Learning
import ReplicatedLog.Proofs.Voting
import Mathlib.Logic.Function.Basic

/-!
# Worlds

A world is a cluster together with its past: the roles of every replica, every message that was ever
sent, what each learner has delivered, and which values each replica took from clients. A message
that was sent may arrive at those it is for at any later time, any number of times, or never, so
messages are lost, doubled and overtaken at will. What a learner delivers is told to the proposer of
its replica later, in order. Everything else — trust, submissions, timeouts, new views of the
membership, votes handed over between acceptors — may happen at any time to any role.

* `World.start` — before anything happened, with given settings.
* `Event`, `World.step` — what can happen, and what it does.
* `Reachable c Env` — the worlds that runs lead to whose steps all satisfy `Env`.
* `Reachable.acceptors`, `Reachable.proposers`, `Reachable.learners` — invariants of one role, in
  terms of the messages sent so far, hold in all reachable worlds.
* `World.replay` — runs a list of events, to exhibit worlds.
-/

namespace ReplicatedLog

/-- What a learner tells the proposer of its replica. -/
structure HandOver where
  /-- Every slot up to this one is delivered. -/
  adu : Nat
  /-- The slots just delivered, with their values. -/
  decided : List (Nat × Value)
  /-- The highest round of any vote. -/
  round : Round
  deriving DecidableEq, Repr

/-- A cluster and its past. -/
structure World where
  /-- The acceptors, by replica. -/
  acceptors : Nat → Acceptor
  /-- The proposers, by replica. -/
  proposers : Nat → Proposer
  /-- The learners, by replica. -/
  learners : Nat → Learner
  /-- The messages sent so far. -/
  sent : List Outgoing := []
  /-- What the learner of a replica told its proposer that the proposer has not heard yet. -/
  waiting : Nat → List HandOver := fun _ => []
  /-- What the learner of a replica has delivered, in order. -/
  logs : Nat → List (Nat × Value) := fun _ => []
  /-- The values that the proposer of a replica took from clients, in order. -/
  submitted : Nat → List Value := fun _ => []
  /-- The votes that acceptors handed over. -/
  snapshots : List Snapshot := []

/-- Something that happens in a world. -/
inductive Event where
  /-- Something happens to an acceptor. -/
  | acceptor (i : Nat) (input : Acceptor.Input)
  /-- An acceptor hands over its votes for the slots above a mark. -/
  | snapshot (i slot : Nat)
  /-- Something happens to a proposer. -/
  | proposer (i : Nat) (input : Proposer.Input)
  /-- A proposer hears what the learner of its replica has delivered. -/
  | handOver (i : Nat)
  /-- Something happens to a learner. -/
  | learner (i : Nat) (input : Learner.Input)
  deriving DecidableEq, Repr

/-- The replica that it happens to. -/
def Event.replica : Event → Nat
  | .acceptor i _ => i
  | .snapshot i _ => i
  | .proposer i _ => i
  | .handOver i => i
  | .learner i _ => i

/-- The event does not belong to a change of the membership: no acceptor takes over the votes of
another or is told to give up slots. -/
def Event.Ordinary : Event → Prop
  | .acceptor _ (.takeOver _) => False
  | .acceptor _ (.raiseLow _) => False
  | _ => True

instance (e : Event) : Decidable e.Ordinary := by
  unfold Event.Ordinary
  split <;> infer_instance

namespace World

open Function

/-- The world before anything happened, with given settings. -/
def start (c : ReplicaSettings) : World where
  acceptors i := (Replica.ofSettings (c.withReplica i)).acceptor
  proposers i := (Replica.ofSettings (c.withReplica i)).proposer
  learners i := (Replica.ofSettings (c.withReplica i)).learner

/-- A message was sent to a replica. -/
def Arrives (w : World) (i : Nat) (m : Message) : Prop := ∃ o ∈ w.sent, o.message = m ∧ o.IsFor i

theorem said_of_arrives {w : World} {i : Nat} {m : Message} (h : w.Arrives i m) :
    Said w.sent m := by
  obtain ⟨o, ho, heq, -⟩ := h
  exact ⟨o, ho, heq⟩

/-- What may happen: messages arrive that were sent, votes are taken over that were handed over, a
proposer hears of deliveries from its learner only, and nothing happens outside the cluster. -/
def Allowed (n : Nat) (w : World) : Event → Prop
  | .acceptor i (.prepare m) => i < n ∧ w.Arrives i (.prepare m)
  | .acceptor i (.accept m) => i < n ∧ w.Arrives i (.accept m)
  | .acceptor i (.takeOver s) => i < n ∧ s ∈ w.snapshots
  | .acceptor i _ => i < n
  | .snapshot i _ => i < n
  | .proposer i (.promise m) => i < n ∧ w.Arrives i (.promise m)
  | .proposer _ (.hear _) => False
  | .proposer _ (.noteDelivered _ _) => False
  | .proposer i _ => i < n
  | .handOver i => i < n
  | .learner i (.learn m) => i < n ∧ w.Arrives i (.learn m)
  | .learner i (.request m) => i < n ∧ w.Arrives i (.catchUpRequest m)
  | .learner i (.response m) => i < n ∧ w.Arrives i (.catchUpResponse m)
  | .learner i _ => i < n

instance (w : World) (i : Nat) (m : Message) : Decidable (w.Arrives i m) := by
  unfold Arrives
  infer_instance

instance (n : Nat) (w : World) (e : Event) : Decidable (w.Allowed n e) := by
  unfold Allowed
  split <;> infer_instance

/-- Nothing happens outside the cluster. -/
theorem lt_of_allowed {n : Nat} {w : World} {e : Event} (h : w.Allowed n e) : e.replica < n := by
  cases e with
  | acceptor i x => cases x <;> first | exact h | exact h.1
  | snapshot => exact h
  | proposer i x => cases x <;> first | exact h | exact h.1 | exact h.elim
  | handOver => exact h
  | learner i x => cases x <;> first | exact h | exact h.1

/-- What a learner tells the proposer of its replica: nothing if it delivered nothing. -/
def handOvers (l : Learner) (d : Delivery) : List HandOver :=
  if d.delivered.isEmpty then [] else [⟨l.adu, d.delivered, l.highestRound⟩]

/-- The world after an event. -/
def step (w : World) : Event → Checked World
  | .acceptor i x => do
    let (a, out) ← (w.acceptors i).act x
    return { w with acceptors := update w.acceptors i a, sent := w.sent ++ out }
  | .snapshot i slot => do
    let s ← (w.acceptors i).votesAbove slot
    return { w with snapshots := w.snapshots ++ [s] }
  | .proposer i x => do
    let (p, out) ← (w.proposers i).act x
    return { w with
      proposers := update w.proposers i p
      sent := w.sent ++ out.outbound
      submitted := update w.submitted i (w.submitted i ++ out.taken.toList) }
  | .handOver i =>
    match w.waiting i with
    | [] => .ok w
    | h :: rest => do
      let (p, out) ← ((w.proposers i).hear h.round).noteDelivered h.adu h.decided
      return { w with
        proposers := update w.proposers i p
        sent := w.sent ++ out
        waiting := update w.waiting i rest }
  | .learner i x => do
    let (l, d) ← (w.learners i).act x
    return { w with
      learners := update w.learners i l
      sent := w.sent ++ d.outbound
      waiting := update w.waiting i (w.waiting i ++ handOvers l d)
      logs := update w.logs i (w.logs i ++ d.delivered) }

/-- What an event that happens does. -/
inductive Steps (w : World) : Event → World → Prop
  /-- An acceptor takes a step. -/
  | acceptor {i : Nat} {x : Acceptor.Input} {a : Acceptor} {out : List Outgoing}
      (act : (w.acceptors i).act x = .ok (a, out)) :
      Steps w (.acceptor i x)
        { w with acceptors := update w.acceptors i a, sent := w.sent ++ out }
  /-- An acceptor hands over votes. -/
  | snapshot {i slot : Nat} {s : Snapshot} (votes : (w.acceptors i).votesAbove slot = .ok s) :
      Steps w (.snapshot i slot) { w with snapshots := w.snapshots ++ [s] }
  /-- A proposer takes a step. -/
  | proposer {i : Nat} {x : Proposer.Input} {p : Proposer} {out : Proposer.Output}
      (act : (w.proposers i).act x = .ok (p, out)) :
      Steps w (.proposer i x) { w with
        proposers := update w.proposers i p
        sent := w.sent ++ out.outbound
        submitted := update w.submitted i (w.submitted i ++ out.taken.toList) }
  /-- There is nothing for a proposer to hear. -/
  | nothing {i : Nat} (waiting_eq : w.waiting i = []) : Steps w (.handOver i) w
  /-- A proposer hears what its learner has delivered. -/
  | handOver {i : Nat} {h : HandOver} {rest : List HandOver} {p : Proposer}
      {outbound : List Outgoing} (waiting_eq : w.waiting i = h :: rest)
      (act : ((w.proposers i).hear h.round).act (.noteDelivered h.adu h.decided) =
        .ok (p, { outbound })) :
      Steps w (.handOver i) { w with
        proposers := update w.proposers i p
        sent := w.sent ++ outbound
        waiting := update w.waiting i rest }
  /-- A learner takes a step. -/
  | learner {i : Nat} {x : Learner.Input} {l : Learner} {d : Delivery}
      (act : (w.learners i).act x = .ok (l, d)) :
      Steps w (.learner i x) { w with
        learners := update w.learners i l
        sent := w.sent ++ d.outbound
        waiting := update w.waiting i (w.waiting i ++ handOvers l d)
        logs := update w.logs i (w.logs i ++ d.delivered) }

theorem steps_of_step {w w' : World} {e : Event} (h : w.step e = .ok w') : w.Steps e w' := by
  cases e with
  | acceptor i x =>
    obtain ⟨⟨a, out⟩, hact, hret⟩ := Checked.bind_eq_ok_iff.mp h
    obtain rfl := Except.ok.inj hret
    exact .acceptor hact
  | snapshot i slot =>
    obtain ⟨s, hvotes, hret⟩ := Checked.bind_eq_ok_iff.mp h
    obtain rfl := Except.ok.inj hret
    exact .snapshot hvotes
  | proposer i x =>
    obtain ⟨⟨p, out⟩, hact, hret⟩ := Checked.bind_eq_ok_iff.mp h
    obtain rfl := Except.ok.inj hret
    exact .proposer hact
  | handOver i =>
    unfold step at h
    dsimp only at h
    split at h
    · rename_i hwaiting
      obtain rfl := Except.ok.inj h
      exact .nothing hwaiting
    · rename_i note rest hwaiting
      obtain ⟨⟨p, out⟩, hnote, hret⟩ := Checked.bind_eq_ok_iff.mp h
      obtain rfl := Except.ok.inj hret
      have hact : ((w.proposers i).hear note.round).act (.noteDelivered note.adu note.decided) =
          .ok (p, { outbound := out }) := Checked.bind_eq_ok_iff.mpr ⟨(p, out), hnote, rfl⟩
      exact .handOver hwaiting hact
  | learner i x =>
    obtain ⟨⟨l, d⟩, hact, hret⟩ := Checked.bind_eq_ok_iff.mp h
    obtain rfl := Except.ok.inj hret
    exact .learner hact

end World

/-- The worlds that runs lead to, with given settings, whose steps all satisfy `Env`. -/
inductive Reachable (c : ReplicaSettings) (Env : World → Event → Prop) : World → Prop
  /-- Nothing has happened. -/
  | start : Reachable c Env (World.start c)
  /-- One more event. -/
  | step {w w' : World} {e : Event} : Reachable c Env w → Env w e → w.Allowed c.replicas e →
      w.step e = .ok w' → Reachable c Env w'

namespace Reachable

open Function

variable {c : ReplicaSettings} {Env : World → Event → Prop} {w : World}

/-- What less is asked of leads to more worlds. -/
theorem mono {Env' : World → Event → Prop} (h : Reachable c Env w)
    (hEnv : ∀ w e, Env w e → Env' w e) : Reachable c Env' w := by
  induction h with
  | start => exact .start
  | step _ henv hallowed hstep ih => exact ih.step (hEnv _ _ henv) hallowed hstep

/-- The roles of a replica keep its name, and a proposer's window begins after the slots that are
decided for it. -/
theorem ids (h : Reachable c Env w) (i : Nat) :
    (w.acceptors i).id = i ∧ (w.learners i).id = i ∧ (w.proposers i).id = i ∧
      (w.proposers i).window.low = (w.proposers i).adu + 1 := by
  induction h generalizing i with
  | start => exact ⟨rfl, rfl, rfl, rfl⟩
  | @step w w' e _ _ _ hstep ih =>
    cases World.steps_of_step hstep with
    | @acceptor j x a out act =>
      have hacceptors : ∀ i, (update w.acceptors j a i).id = i :=
        (forall_update_iff w.acceptors fun i a => a.id = i).mpr
          ⟨(Acceptor.author_of_act act).1.trans (ih j).1, fun i _ => (ih i).1⟩
      exact ⟨hacceptors i, (ih i).2⟩
    | snapshot => exact ih i
    | @proposer j x p out act =>
      obtain ⟨hid, hlow, -⟩ := Proposer.author_of_act (ih j).2.2.2 act
      have hproposers :=
        (forall_update_iff w.proposers fun i p => p.id = i ∧ p.window.low = p.adu + 1).mpr
          ⟨⟨hid.trans (ih j).2.2.1, hlow⟩, fun i _ => (ih i).2.2⟩
      exact ⟨(ih i).1, (ih i).2.1, hproposers i⟩
    | nothing => exact ih i
    | @handOver j note rest p out waiting_eq act =>
      obtain ⟨hid, hlow, -⟩ := Proposer.author_of_hear_act (ih j).2.2.2 act
      have hproposers :=
        (forall_update_iff w.proposers fun i p => p.id = i ∧ p.window.low = p.adu + 1).mpr
          ⟨⟨hid.trans (ih j).2.2.1, hlow⟩, fun i _ => (ih i).2.2⟩
      exact ⟨(ih i).1, (ih i).2.1, hproposers i⟩
    | @learner j x l d act =>
      have hlearners : ∀ i, (update w.learners j l i).id = i :=
        (forall_update_iff w.learners fun i l => l.id = i).mpr
          ⟨(Learner.author_of_act act).1.trans (ih j).2.1, fun i _ => (ih i).2.1⟩
      exact ⟨(ih i).1, hlearners i, (ih i).2.2⟩

/-- What the acceptor of another replica, or another role, sends. -/
theorem author_ne {r r' : Role} {i j : Nat} {out : List Outgoing}
    (hout : ∀ o ∈ out, o.author = (r, i)) (hne : (r, i) ≠ (r', j)) :
    ∀ o ∈ out, o.author ≠ (r', j) := fun o ho heq => hne ((hout o ho).symm.trans heq)

/-- **Invariants of an acceptor**: what holds at the start, is not affected by what others say, and is
preserved by its own steps. -/
theorem acceptors {P : Nat → Acceptor → List Outgoing → Prop}
    (start : ∀ i, P i ((World.start c).acceptors i) [])
    (others : ∀ i a sent out, (∀ o ∈ out, o.author ≠ (.acceptor, i)) → P i a sent →
      P i a (sent ++ out))
    (own : ∀ w i x a out, Reachable c Env w → Env w (.acceptor i x) →
      w.Allowed c.replicas (.acceptor i x) → P i (w.acceptors i) w.sent →
      (w.acceptors i).act x = .ok (a, out) → P i a (w.sent ++ out))
    (h : Reachable c Env w) (i : Nat) : P i (w.acceptors i) w.sent := by
  induction h generalizing i with
  | start => exact start i
  | @step w w' e hw henv hallowed hstep ih =>
    cases World.steps_of_step hstep with
    | @acceptor j x a out act =>
      have hauthor := (Acceptor.author_of_act act).2
      rw [(hw.ids j).1] at hauthor
      refine (forall_update_iff w.acceptors fun i a => P i a (w.sent ++ out)).mpr
        ⟨own w j x a out hw henv hallowed (ih j) act, fun i hne => ?_⟩ i
      exact others _ _ _ _ (author_ne hauthor (by simp [Ne.symm hne])) (ih i)
    | snapshot => exact ih i
    | @proposer j x p out act =>
      have hauthor := (Proposer.author_of_act (hw.ids j).2.2.2 act).2.2
      exact others _ _ _ _ (author_ne hauthor (by simp)) (ih i)
    | nothing => exact ih i
    | @handOver j note rest p out waiting_eq act =>
      have hauthor := (Proposer.author_of_hear_act (hw.ids j).2.2.2 act).2.2
      exact others _ _ _ _ (author_ne hauthor (by simp)) (ih i)
    | @learner j x l d act =>
      have hauthor := (Learner.author_of_act act).2
      exact others _ _ _ _ (author_ne hauthor (by simp)) (ih i)

/-- **Invariants of a proposer**: likewise. The promises that it gets were sent; it may hear of any
round and of any deliveries. -/
theorem proposers {P : Nat → Proposer → List Outgoing → Prop}
    (start : ∀ i, P i ((World.start c).proposers i) [])
    (others : ∀ i p sent out, (∀ o ∈ out, o.author ≠ (.proposer, i)) → P i p sent →
      P i p (sent ++ out))
    (own : ∀ w i x p p' out, Reachable c Env w → p.id = i →
      (∀ m, x = .promise m → w.Arrives i (.promise m)) → P i p w.sent →
      p.act x = .ok (p', out) → P i p' (w.sent ++ out.outbound))
    (h : Reachable c Env w) (i : Nat) : P i (w.proposers i) w.sent := by
  induction h generalizing i with
  | start => exact start i
  | @step w w' e hw henv hallowed hstep ih =>
    cases World.steps_of_step hstep with
    | @acceptor j x a out act =>
      have hauthor := (Acceptor.author_of_act act).2
      exact others _ _ _ _ (author_ne hauthor (by simp)) (ih i)
    | snapshot => exact ih i
    | @proposer j x p out act =>
      have hid := (hw.ids j).2.2.1
      have hauthor := (Proposer.author_of_act (hw.ids j).2.2.2 act).2.2
      rw [hid] at hauthor
      refine (forall_update_iff w.proposers fun i p => P i p (w.sent ++ out.outbound)).mpr
        ⟨own w j x _ p out hw hid ?_ (ih j) act, fun i hne => ?_⟩ i
      · rintro m rfl
        exact hallowed.2
      · exact others _ _ _ _ (author_ne hauthor (by simp [Ne.symm hne])) (ih i)
    | nothing => exact ih i
    | @handOver j note rest p out waiting_eq act =>
      have hid := (hw.ids j).2.2.1
      have hauthor := (Proposer.author_of_hear_act (hw.ids j).2.2.2 act).2.2
      rw [hid] at hauthor
      -- it hears of the round first
      have hheard : P j ((w.proposers j).hear note.round) w.sent := by
        have h := own w j (.hear note.round) _ _ {} hw hid (by simp) (ih j) rfl
        rwa [List.append_nil] at h
      refine (forall_update_iff w.proposers fun i p => P i p (w.sent ++ out)).mpr
        ⟨own w j _ ((w.proposers j).hear note.round) p { outbound := out } hw hid (by simp) hheard
          act, fun i hne => ?_⟩ i
      exact others _ _ _ _ (author_ne hauthor (by simp [Ne.symm hne])) (ih i)
    | @learner j x l d act =>
      have hauthor := (Learner.author_of_act act).2
      exact others _ _ _ _ (author_ne hauthor (by simp)) (ih i)

/-- **Invariants of a learner and its log**: likewise, where the step of one learner may rely on what
holds of all of them. -/
theorem learners {P : Nat → Learner → List (Nat × Value) → List Outgoing → Prop}
    (start : ∀ i, P i ((World.start c).learners i) [] [])
    (others : ∀ i l log sent out, (∀ o ∈ out, o.author ≠ (.learner, i)) → P i l log sent →
      P i l log (sent ++ out))
    (own : ∀ w i x l d, Reachable c Env w → Env w (.learner i x) →
      w.Allowed c.replicas (.learner i x) → (∀ j, P j (w.learners j) (w.logs j) w.sent) →
      (w.learners i).act x = .ok (l, d) → P i l (w.logs i ++ d.delivered) (w.sent ++ d.outbound))
    (h : Reachable c Env w) (i : Nat) : P i (w.learners i) (w.logs i) w.sent := by
  induction h generalizing i with
  | start => exact start i
  | @step w w' e hw henv hallowed hstep ih =>
    cases World.steps_of_step hstep with
    | @acceptor j x a out act =>
      have hauthor := (Acceptor.author_of_act act).2
      exact others _ _ _ _ _ (author_ne hauthor (by simp)) (ih i)
    | snapshot => exact ih i
    | @proposer j x p out act =>
      have hauthor := (Proposer.author_of_act (hw.ids j).2.2.2 act).2.2
      exact others _ _ _ _ _ (author_ne hauthor (by simp)) (ih i)
    | nothing => exact ih i
    | @handOver j note rest p out waiting_eq act =>
      have hauthor := (Proposer.author_of_hear_act (hw.ids j).2.2.2 act).2.2
      exact others _ _ _ _ _ (author_ne hauthor (by simp)) (ih i)
    | @learner j x l d act =>
      have hauthor := (Learner.author_of_act act).2
      rw [(hw.ids j).2.1] at hauthor
      refine (forall_update_iff w.learners fun i l =>
        P i l (update w.logs j (w.logs j ++ d.delivered) i) (w.sent ++ d.outbound)).mpr
          ⟨?_, fun i hne => ?_⟩ i
      · rw [update_self]
        exact own w j x l d hw henv hallowed ih act
      · rw [update_of_ne hne]
        exact others _ _ _ _ _ (author_ne hauthor (by simp [Ne.symm hne])) (ih i)

end Reachable

/-! ### Replays -/

namespace World

variable (c : ReplicaSettings) (Env : World → Event → Prop) [∀ w e, Decidable (Env w e)]

/-- The world after a list of events, if all of them may happen and do. -/
def replay : World → List Event → Option World
  | w, [] => some w
  | w, e :: es =>
    if Env w e ∧ w.Allowed c.replicas e then
      match w.step e with
      | .ok w' => replay w' es
      | .error _ => none
    else none

variable {c Env}

theorem reachable_of_replay {w w' : World} {es : List Event} (hw : Reachable c Env w)
    (h : replay c Env w es = some w') : Reachable c Env w' := by
  induction es generalizing w with
  | nil =>
    obtain rfl := Option.some.inj h
    exact hw
  | cons e es ih =>
    unfold replay at h
    split at h
    · rename_i hmay
      split at h
      · rename_i w₁ hstep
        exact ih (hw.step hmay.1 hmay.2 hstep) h
      · cases h
    · cases h

/-- A run that a replay shows: what it leads to is reachable. -/
theorem exists_reachable (c : ReplicaSettings) (Env : World → Event → Prop)
    [∀ w e, Decidable (Env w e)] (es : List Event) (P : World → Prop) [DecidablePred P]
    (h : (replay c Env (start c) es).any (fun w => decide (P w)) = true) :
    ∃ w, Reachable c Env w ∧ P w := by
  cases hw : replay c Env (start c) es with
  | none =>
    rw [hw] at h
    cases h
  | some w =>
    rw [hw] at h
    exact ⟨w, reachable_of_replay .start hw, of_decide_eq_true h⟩

/-- A run that a replay shows, and one more event after it. -/
theorem exists_reachable_step (c : ReplicaSettings) (Env : World → Event → Prop)
    [∀ w e, Decidable (Env w e)] (es : List Event) (e : Event) (P : World → Prop) [DecidablePred P]
    (h : (replay c Env (start c) es).any (fun w => decide (w.Allowed c.replicas e) &&
      (w.step e).toOption.any (fun w' => decide (P w'))) = true) :
    ∃ w w', Reachable c Env w ∧ w.Allowed c.replicas e ∧ w.step e = .ok w' ∧ P w' := by
  obtain ⟨w, hw, hstep⟩ := exists_reachable c Env es (fun w => w.Allowed c.replicas e ∧
    (w.step e).toOption.any (fun w' => decide (P w')) = true) (by simpa using h)
  obtain ⟨w', hw', hP⟩ := (Option.any_eq_true ..).mp hstep.2
  cases hok : w.step e with
  | error =>
    rw [hok] at hw'
    cases hw'
  | ok =>
    rw [hok] at hw'
    cases hw'
    exact ⟨w, w', hw, hstep.1, hok, of_decide_eq_true hP⟩

end World

end ReplicatedLog
