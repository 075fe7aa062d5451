import ReplicatedLog.Acceptor
import ReplicatedLog.Learner
import ReplicatedLog.Proposer
import ReplicatedLog.Settings

/-!
# Replicas

A replica plays all three roles. Each message goes to the role it is for; what the learner delivers
is told to the proposer, which may then propose further slots.
-/

namespace ReplicatedLog

/-- The three roles of one replica. -/
structure Replica where
  /-- It votes. -/
  acceptor : Acceptor
  /-- It leads, if it is trusted to. -/
  proposer : Proposer
  /-- It delivers. -/
  learner : Learner
  deriving DecidableEq, Repr

/-- What the roles of the replicas of a cluster have in common. -/
structure RoleSettings where
  /-- The number of votes or promises that decide. -/
  quorum : Nat
  /-- How many slots may be proposed beyond the decided ones. -/
  alpha : Nat
  /-- How often a proposal is sent again before a new round is tried. -/
  resendThreshold : Nat
  /-- How many slots are kept behind the frontier. -/
  retention : Nat
  /-- The rules for membership changes. -/
  mode : Mode
  deriving DecidableEq, Repr

/-- What the settings of a replica say about its roles. -/
def ReplicaSettings.roles (c : ReplicaSettings) : RoleSettings where
  quorum := c.quorum
  alpha := c.alpha
  resendThreshold := c.resendThreshold
  retention := c.retention
  mode := c.mode

namespace Replica

/-- The replica `id` before anything happened. -/
def start (s : RoleSettings) (id : Nat) (epochs : EpochVector) : Replica where
  acceptor := { id, epochs, retention := s.retention, mode := s.mode }
  proposer := { id, quorum := s.quorum, alpha := s.alpha, resendThreshold := s.resendThreshold,
                epochs, mode := s.mode }
  learner := { id, quorum := s.quorum, retention := s.retention, epochs, mode := s.mode }

/-- A replica with given settings before anything happened; everybody is in the first epoch. -/
def ofSettings (c : ReplicaSettings) : Replica := start c.roles c.replica (.zeros c.replicas)

/-- Tells the proposer what the learner delivered, if it delivered anything. What the proposer
sends comes after what the learner sent. -/
def afterDelivery (r : Replica) (d : Delivery) : Checked (Replica × Delivery) :=
  if d.delivered.isEmpty then .ok (r, d)
  else do
    let (proposer, out) ←
      (r.proposer.hear r.learner.highestRound).noteDelivered r.learner.adu d.delivered
    return ({ r with proposer }, { d with outbound := d.outbound ++ out })

/-- A message arrives. -/
def receive (r : Replica) : Message → Checked (Replica × Delivery)
  | .prepare m => do
    let (acceptor, answer) ← r.acceptor.prepare m
    let outbound := answer.toList.map fun (promise, target) => .unicast target (.promise promise)
    return ({ r with acceptor }, { outbound })
  | .accept m =>
    let (acceptor, answer) := r.acceptor.accept m
    let outbound := answer.toList.map fun vote => .broadcast (.learn vote)
    .ok ({ r with acceptor }, { outbound })
  | .promise m => do
    let (proposer, outbound) ← r.proposer.promise m
    return ({ r with proposer }, { outbound })
  | .learn m => do
    let (learner, d) ← r.learner.learn m
    afterDelivery { r with learner } d
  | .catchUpRequest m => do
    return (r, { outbound := [← r.learner.answer m] })
  | .catchUpResponse m => do
    let (learner, d) ← r.learner.takeAnswer m
    afterDelivery { r with learner } d

/-- The replica trusts `leader`. -/
def trust (r : Replica) (leader : Nat) : Checked (Replica × List Outgoing) := do
  let (proposer, out) ← r.proposer.trust leader
  return ({ r with proposer, learner := r.learner.trust leader }, out)

/-- All roles take a new view of the membership. -/
def setEpochs (r : Replica) (epochs : EpochVector) : Replica where
  acceptor := r.acceptor.setEpochs epochs
  proposer := r.proposer.setEpochs epochs
  learner := r.learner.setEpochs epochs

/-- The proposer acts. -/
def propose {α : Type} (r : Replica) (act : Proposer → Checked (Proposer × α)) :
    Checked (Replica × α) := do
  let (proposer, a) ← act r.proposer
  return ({ r with proposer }, a)

/-- The learner acts. -/
def learn {α : Type} (r : Replica) (act : Learner → Checked (Learner × α)) :
    Checked (Replica × α) := do
  let (learner, a) ← act r.learner
  return ({ r with learner }, a)

end Replica

end ReplicatedLog
