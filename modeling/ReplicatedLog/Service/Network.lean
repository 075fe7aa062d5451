import ReplicatedLog.Cluster

/-!
# Local networks

A network inside one process. It delivers a message to a replica that is attached to it, unless the
sender or the receiver is cut off; every message is encoded and decoded on its way. It counts what
it delivers and what it drops.
-/

namespace ReplicatedLog

/-- The state of a network. -/
structure Network where
  /-- The replicas attached to it, in ascending order. -/
  attached : List Nat
  /-- The replicas that are cut off. -/
  isolated : List Nat := []
  /-- The number of messages delivered. -/
  delivered : Nat := 0
  /-- The number of messages dropped. -/
  dropped : Nat := 0
  deriving DecidableEq, Repr

namespace Network

/-- Cuts a replica off, or connects it again. -/
def isolate (n : Network) (replica : Nat) (cutOff : Bool) : Network :=
  { n with isolated := if cutOff then replica :: n.isolated else n.isolated.filter (· != replica) }

/-- Whether a message may pass between two replicas. -/
def connects (n : Network) (source target : Nat) : Bool :=
  !n.isolated.contains source && !n.isolated.contains target && n.attached.contains target

/-- Carries a message to one replica. Gives what arrives. -/
def route (n : Network) (source target : Nat) (message : Message) :
    Network × List Transit :=
  if n.connects source target then
    match Wire.carry ⟨source, message⟩ with
    | .ok e => ({ n with delivered := n.delivered + 1 }, [⟨e.source, target, e.message⟩])
    | .error _ => ({ n with dropped := n.dropped + 1 }, [])
  else ({ n with dropped := n.dropped + 1 }, [])

/-- Carries a message to several replicas, one after the other. -/
def carryToAll (n : Network) (source : Nat) (message : Message) :
    List Nat → Network × List Transit
  | [] => (n, [])
  | target :: targets =>
    let (n, first) := n.route source target message
    let (n, rest) := carryToAll n source message targets
    (n, first ++ rest)

/-- Carries an outgoing message: to its receiver, or to every replica attached. -/
def send (n : Network) (source : Nat) : Outgoing → Network × List Transit
  | .unicast target message => n.route source target message
  | .broadcast message => n.carryToAll source message n.attached

end Network

end ReplicatedLog
