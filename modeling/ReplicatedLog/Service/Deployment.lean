import ReplicatedLog.Service.Acceptor
import ReplicatedLog.Service.Learner
import ReplicatedLog.Service.Network
import ReplicatedLog.Service.Proposer

/-!
# Deployments

Running replicas on one local network and one clock. Messages arrive in the order in which they
were sent. What happens to a deployment is followed by everything that it causes, until no message
is in flight.

* `Deployment.start` — starts the replicas, if the settings allow it.
* `Deployment.settle` — has messages arrive until none is in flight.
* `Deployment.trust`, `Deployment.propose`, `Deployment.pass`, … — what can happen to it.
-/

namespace ReplicatedLog

/-- The running roles of a replica. -/
structure RunningReplica where
  /-- The acceptor, and who takes its votes. -/
  acceptor : HandoffDesk
  /-- The proposer. -/
  proposer : ProposerService
  /-- The learner. -/
  learner : LearnerService
  deriving DecidableEq, Repr

/-- Starts the roles of a replica with given settings. -/
def RunningReplica.start (c : ReplicaSettings) : RunningReplica where
  acceptor := { service := .start c }
  proposer := .start c
  learner := .start c

/-- The state of a deployment. -/
structure Deployment where
  /-- The replicas, by identifier. -/
  replicas : Array RunningReplica
  /-- The network between them. -/
  network : Network
  /-- The time. -/
  now : Nat := 0
  /-- The messages that are to arrive, the next one first. -/
  inFlight : List Transit := []
  deriving DecidableEq, Repr

/-- What can be seen of a deployment from outside. -/
inductive Observation where
  /-- The acceptor of a replica handed over its votes. -/
  | snapshot (votes : Snapshot)
  /-- A replica told the application the value of a slot. -/
  | decided (replica slot : Nat) (value : Value)
  deriving DecidableEq, Repr

namespace Deployment

/-- The first fault that keeps a replica of the cluster from starting. A cluster without replicas
is refused for the settings of a first one. -/
def startFault (c : ReplicaSettings) : Except Fault Unit :=
  (List.range (max 1 c.replicas)).forM fun id => (c.withReplica id).validate

/-- Starts the replicas of a cluster and attaches some of them to the network. -/
def start (c : ReplicaSettings) (attached : List Nat) : Except Fault Deployment := do
  startFault c
  return {
    replicas := (Array.range c.replicas).map fun id => .start (c.withReplica id)
    network := { attached := (List.range c.replicas).filter attached.contains } }

/-! ### Effects -/

/-- What is common to everything that happens: the new state and what was seen. -/
abbrev Outcome := Checked (Deployment × List Observation)

/-- A replica sends a message. -/
def send (d : Deployment) (source : Nat) (out : Outgoing) : Deployment :=
  let (network, arriving) := d.network.send source out
  { d with network, inFlight := d.inFlight ++ arriving }

/-- What a proposer does takes effect: all that it ever does is to send messages. -/
def sendEffects (replica : Nat) (d : Deployment) (effects : List Effect) : Deployment :=
  effects.foldl
    (fun d effect => match effect with
      | .send out => d.send replica out
      | _ => d)
    d

/-- A replica gets a new proposer in place of its old one, and what it did takes effect. -/
def withProposer (d : Deployment) (replica : Nat) (proposer : ProposerService)
    (effects : List Effect) : Deployment :=
  sendEffects replica
    { d with replicas := d.replicas.modify replica fun r => { r with proposer } } effects

/-- A proposer acts, and what it does takes effect. -/
def proposerActs (d : Deployment) (replica : Nat)
    (act : ProposerService → Checked (ProposerService × List Effect)) : Checked Deployment :=
  match d.replicas[replica]? with
  | none => .ok d
  | some r => do
    let (proposer, effects) ← act r.proposer
    return d.withProposer replica proposer effects

/-- Something that a role of a replica does takes effect. -/
def perform (replica : Nat) (d : Deployment) : Effect → Outcome
  | .send out => .ok (d.send replica out, [])
  | .snapshot votes => .ok (d, [.snapshot votes])
  | .decided slot value => .ok (d, [.decided replica slot value])
  | .advanced adu delivered highestRound => do
    let d ← d.proposerActs replica fun s => s.on d.now (.advanced adu delivered highestRound)
    return (d, [])

/-- Everything that a role of a replica does takes effect, in order. -/
def performAll (replica : Nat) (d : Deployment) : List Effect → Outcome
  | [] => .ok (d, [])
  | effect :: effects => do
    let (d, first) ← perform replica d effect
    let (d, rest) ← performAll replica d effects
    return (d, first ++ rest)

/-- An acceptor acts, and what it does takes effect. -/
def acceptorActs (d : Deployment) (replica : Nat)
    (act : HandoffDesk → Checked (HandoffDesk × List Effect)) : Outcome :=
  match d.replicas[replica]? with
  | none => .ok (d, [])
  | some r => do
    let (acceptor, effects) ← act r.acceptor
    let d := { d with replicas := d.replicas.modify replica fun r => { r with acceptor } }
    performAll replica d effects

/-- A learner acts, and what it does takes effect. -/
def learnerActs (d : Deployment) (replica : Nat)
    (act : LearnerService → Checked (LearnerService × List Effect)) : Outcome :=
  match d.replicas[replica]? with
  | none => .ok (d, [])
  | some r => do
    let (learner, effects) ← act r.learner
    let d := { d with replicas := d.replicas.modify replica fun r => { r with learner } }
    performAll replica d effects

/-! ### Messages -/

/-- A message arrives at the role of a replica that it is for. -/
def receive (d : Deployment) (t : Transit) : Outcome :=
  match t.message with
  | .prepare _ | .accept _ => d.acceptorActs t.target fun s => s.arrive (.message t.message)
  | .promise _ => do
    return (← d.proposerActs t.target fun s => s.on d.now (.message t.message), [])
  | .learn _ | .catchUpRequest _ | .catchUpResponse _ =>
    d.learnerActs t.target fun s => s.handle (.message t.message)

/-- Messages arrive until none is in flight, but no more than `limit`. -/
def settleUpTo : (limit : Nat) → Deployment → Outcome
  | 0, d => .ok (d, [])
  | limit + 1, d =>
    match d.inFlight with
    | [] => .ok (d, [])
    | t :: rest => do
      let (d, first) ← receive { d with inFlight := rest } t
      let (d, others) ← settleUpTo limit d
      return (d, first ++ others)

/-- More messages than a deployment ever sends without time passing. -/
def messageLimit : Nat := 0x1000000000000

/-- Messages arrive until none is in flight. -/
def settle (d : Deployment) : Outcome := settleUpTo messageLimit d

/-- What happened is followed by everything that it causes. -/
def thenSettle (outcome : Outcome) : Outcome := do
  let (d, first) ← outcome
  let (d, rest) ← d.settle
  return (d, first ++ rest)

/-! ### Events -/

/-- A replica trusts `leader`; nothing else happens yet. -/
def trustOne (leader : Nat) (d : Deployment) (replica : Nat) : Checked Deployment := do
  let d ← d.proposerActs replica fun s => s.on d.now (.trust leader)
  let (d, _) ← d.learnerActs replica fun s => s.handle (.trust leader)
  return d

/-- Some replicas trust `leader`. -/
def trust (d : Deployment) (replicas : List Nat) (leader : Nat) : Outcome :=
  thenSettle do
    return (← replicas.foldlM (trustOne leader) d, [])

/-- A replica takes a new view of the membership. -/
def setEpochsOne (epochs : EpochVector) (d : Deployment) (replica : Nat) : Checked Deployment := do
  let (d, _) ← d.acceptorActs replica fun s => s.arrive (.setEpochs epochs)
  let d ← d.proposerActs replica fun s => s.on d.now (.setEpochs epochs)
  let (d, _) ← d.learnerActs replica fun s => s.handle (.setEpochs epochs)
  return d

/-- Some replicas take a new view of the membership. -/
def setEpochs (d : Deployment) (replicas : List Nat) (epochs : EpochVector) : Outcome :=
  thenSettle do
    return (← replicas.foldlM (setEpochsOne epochs) d, [])

/-- A value is submitted to a replica; nothing else happens yet. Gives the answer. -/
def proposeOne (d : Deployment) (replica : Nat) (value : Value) :
    Checked (Deployment × Except Fault Unit) :=
  match d.replicas[replica]? with
  | none => .ok (d, .ok ())
  | some r => do
    let delay := ProposerService.middleDelay r.proposer.promiseTimeout
    let (proposer, effects, result) ← r.proposer.propose d.now delay value
    return (d.withProposer replica proposer effects, result)

/-- A value is submitted to a replica. Gives the answer. -/
def propose (d : Deployment) (replica : Nat) (value : Value) :
    Checked (Deployment × Except Fault Unit × List Observation) := do
  let (d, result) ← d.proposeOne replica value
  let (d, seen) ← d.settle
  return (d, result, seen)

/-- Values are submitted to a replica, one right after the other. -/
def proposeAll (d : Deployment) (replica : Nat) (values : List Value) : Outcome :=
  thenSettle do
    let d ← values.foldlM
      (fun d value => do
        let (d, _) ← d.proposeOne replica value
        return d)
      d
    return (d, [])

/-- Cuts a replica off from the network, or connects it again. -/
def isolate (d : Deployment) (replica : Nat) (cutOff : Bool) : Deployment :=
  { d with network := d.network.isolate replica cutOff }

/-- A message is given to the network. -/
def inject (d : Deployment) (source : Nat) (out : Outgoing) : Outcome :=
  (d.send source out).settle

/-- A message arrives at a replica without the network. -/
def deliver (d : Deployment) (t : Transit) : Outcome := thenSettle (d.receive t)

/-- The votes of an acceptor are taken over. -/
def handoff (d : Deployment) (replica slot : Nat) (hold : Bool) : Outcome :=
  thenSettle (d.acceptorActs replica fun s => s.handoff slot hold)

/-- An acceptor that waits may go on. -/
def release (d : Deployment) (replica : Nat) : Outcome :=
  thenSettle (d.acceptorActs replica HandoffDesk.release)

/-- A request arrives at an acceptor. -/
def request (d : Deployment) (replica : Nat) (r : AcceptorRequest) : Outcome :=
  thenSettle (d.acceptorActs replica fun s => s.arrive r)

/-! ### Time -/

/-- When something is due next at any replica. -/
def due (d : Deployment) (now : Nat) : Option Nat :=
  d.replicas.foldl
    (fun next r => Clock.earlier next (Clock.earlier (r.proposer.due now) (r.learner.due now)))
    none

/-- What is due at a replica happens: the check for progress, the alarm of phase one, the look for
missing slots; each is followed by everything that it causes. -/
def elapseOne (d : Deployment) (replica : Nat) : Outcome := do
  let (d, ticked) ← thenSettle do
    return (← d.proposerActs replica fun s => s.elapseTick d.now, [])
  let (d, fired) ← thenSettle do
    return (← d.proposerActs replica fun s => s.elapseTimer d.now, [])
  let (d, looked) ← thenSettle (d.learnerActs replica fun s => s.elapse d.now)
  return (d, ticked ++ fired ++ looked)

/-- What is due at some replicas happens, one replica after the other. -/
def elapseAll (d : Deployment) : List Nat → Outcome
  | [] => .ok (d, [])
  | replica :: replicas => do
    let (d, first) ← d.elapseOne replica
    let (d, rest) ← elapseAll d replicas
    return (d, first ++ rest)

/-- How a deployment behaves in time. -/
def timed : Timed Deployment Observation where
  due := due
  elapse d now := elapseAll { d with now } (List.range d.replicas.size)

/-- Time passes. -/
def pass (d : Deployment) (ms : Nat) : Outcome := do
  let target := d.now + ms
  let (d, seen) ← timed.pass d d.now target
  return ({ d with now := target }, seen)

end Deployment

end ReplicatedLog
