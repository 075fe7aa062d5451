import ReplicatedLog.Replica
import ReplicatedLog.Wire.Codec

/-!
# Clusters

The replicas of a cluster together with the messages between them. Messages in flight form a pool
from which any one may be delivered next, lost, or doubled; a replica may be cut off from the
others. Every message is encoded when it is sent off and decoded when it arrives.

* `Cluster.send` — messages set out.
* `Cluster.deliver`, `Cluster.drop`, `Cluster.duplicate` — what may happen to one of them.
* `Cluster.run` — delivers one after another.
* `Cluster.trust`, `Cluster.submit`, … — what happens to one replica.
-/

namespace ReplicatedLog

/-- A message in flight. -/
structure Transit where
  /-- Where it comes from. -/
  source : Nat
  /-- Where it goes to. -/
  target : Nat
  /-- What it says. -/
  message : Message
  deriving DecidableEq, Repr

/-- A slot that a replica delivered. -/
structure Delivered where
  /-- The replica. -/
  replica : Nat
  /-- The slot. -/
  slot : Nat
  /-- The value of the slot. -/
  value : Value
  deriving DecidableEq, Repr

/-- Which message of a pool is delivered next. -/
inductive PoolOrder where
  /-- The oldest. -/
  | oldestFirst
  /-- The newest. -/
  | newestFirst
  deriving DecidableEq, Repr

/-- The state of a cluster. -/
structure Cluster where
  /-- The replicas, by identifier. -/
  replicas : Array Replica
  /-- The replicas that are cut off. -/
  isolated : List Nat := []
  /-- The messages in flight, the oldest first. -/
  pool : List Transit := []
  deriving DecidableEq, Repr

namespace Cluster

/-- A cluster of `n` replicas before anything happened. -/
def start (s : RoleSettings) (n : Nat) : Cluster where
  replicas := (Array.range n).map fun id => Replica.start s id (.zeros n)

/-- The number of replicas. -/
def size (c : Cluster) : Nat := c.replicas.size

/-! ### Messages in flight -/

/-- Whether a message between two replicas gets through. -/
def connects (c : Cluster) (source target : Nat) : Bool :=
  decide (target < c.size) && !c.isolated.contains source && !c.isolated.contains target

/-- The messages that one outgoing message of `source` becomes: one for each replica it reaches. -/
def transits (c : Cluster) (source : Nat) : Outgoing → List Transit
  | .unicast target message =>
    if c.connects source target then [⟨source, target, message⟩] else []
  | .broadcast message =>
    ((List.range c.size).filter (c.connects source)).map fun target => ⟨source, target, message⟩

/-- Messages set out from `source`. -/
def send (c : Cluster) (source : Nat) (out : List Outgoing) : Cluster :=
  { c with pool := c.pool ++ out.flatMap (c.transits source) }

/-- Cuts a replica off from the others, or connects it again. Messages in flight are not lost. -/
def isolate (c : Cluster) (replica : Nat) (cutOff : Bool) : Cluster :=
  { c with isolated := if cutOff then replica :: c.isolated else c.isolated.filter (· != replica) }

/-- The `i`-th message in flight is lost. -/
def drop (c : Cluster) (i : Nat) : Cluster := { c with pool := c.pool.eraseIdx i }

/-- The `i`-th message in flight is doubled; the copy is the newest of all. -/
def duplicate (c : Cluster) (i : Nat) : Cluster := { c with pool := c.pool ++ c.pool[i]?.toList }

/-! ### Events -/

/-- Something happens to one replica, and what it sends sets out. Nothing happens to a replica that
there is not. -/
def act {α : Type} (c : Cluster) (replica : Nat) (none : α)
    (event : Replica → Checked (Replica × List Outgoing × α)) : Checked (Cluster × α) :=
  match c.replicas[replica]? with
  | .none => .ok (c, none)
  | .some r => do
    let (r, out, a) ← event r
    return (send { c with replicas := c.replicas.setIfInBounds replica r } replica out, a)

/-- The `i`-th message in flight arrives, if it can be encoded and decoded. Gives what its receiver
delivers. -/
def deliver (c : Cluster) (i : Nat) : Checked (Cluster × List Delivered) :=
  match c.pool[i]? with
  | none => .ok (c, [])
  | some t =>
    let c := c.drop i
    match Wire.carry ⟨t.source, t.message⟩ with
    | .error _ => .ok (c, [])
    | .ok e =>
      c.act t.target [] fun r => do
        let (r, d) ← r.receive e.message
        return (r, d.outbound, d.delivered.map fun (slot, value) => ⟨t.target, slot, value⟩)

/-- The position of the message that is next in an order. -/
def nextIndex (c : Cluster) : PoolOrder → Nat
  | .oldestFirst => 0
  | .newestFirst => c.pool.length - 1

/-- Delivers messages in an order until none is in flight, but no more than `limit`. -/
def run (order : PoolOrder) : (limit : Nat) → Cluster → Checked (Cluster × List Delivered)
  | 0, c => .ok (c, [])
  | limit + 1, c =>
    if c.pool.isEmpty then .ok (c, [])
    else do
      let (c, first) ← c.deliver (c.nextIndex order)
      let (c, rest) ← run order limit c
      return (c, first ++ rest)

/-- A replica trusts `leader`. -/
def trust (c : Cluster) (replica leader : Nat) : Checked Cluster := do
  let (c, _) ← c.act replica () fun r => do
    let (r, out) ← r.trust leader
    return (r, out, ())
  return c

/-- A client submits a value to a replica. Gives the reason if it is refused. -/
def submit (c : Cluster) (replica : Nat) (value : Value) : Checked (Cluster × Option Fault) :=
  c.act replica none fun r => do
    let (r, result) ← r.propose fun p => p.submit value
    match result with
    | .ok out => return (r, out, none)
    | .error fault => return (r, [], some fault)

/-- A replica takes a new view of the membership. -/
def setEpochs (c : Cluster) (replica : Nat) (epochs : EpochVector) : Cluster :=
  { c with replicas := c.replicas.modify replica fun r => r.setEpochs epochs }

/-- The time for phase one is over at a replica. -/
def retry (c : Cluster) (replica : Nat) : Checked Cluster := do
  let (c, _) ← c.act replica () fun r => do
    let (r, out) ← r.propose Proposer.retry
    return (r, out, ())
  return c

/-- A replica checks for progress in phase two. -/
def checkProgress (c : Cluster) (replica : Nat) : Checked Cluster := do
  let (c, _) ← c.act replica () fun r => do
    let (r, out) ← r.propose Proposer.checkProgress
    return (r, out, ())
  return c

/-- A replica has waited long enough for missing slots. -/
def askAgain (c : Cluster) (replica : Nat) : Checked Cluster := do
  let (c, _) ← c.act replica () fun r => do
    let (r, out) ← r.learn Learner.askAgain
    return (r, out, ())
  return c

/-- The acceptor of one replica hands its votes for the slots above `slot` to that of another.
Gives what was handed over. -/
def handoff (c : Cluster) (source target slot : Nat) : Checked (Cluster × Option Snapshot) :=
  match c.replicas[source]? with
  | none => .ok (c, none)
  | some r => do
    let s ← r.acceptor.votesAbove slot
    return ({ c with replicas := c.replicas.modify target fun r =>
      { r with acceptor := r.acceptor.takeOver s } }, some s)

/-- The acceptor of a replica gives up the slots below `slot`. -/
def raiseLow (c : Cluster) (replica slot : Nat) : Cluster :=
  { c with replicas := c.replicas.modify replica fun r =>
    { r with acceptor := r.acceptor.raiseLow slot } }

end Cluster

end ReplicatedLog
