import ReplicatedLog.EpochVector
import ReplicatedLog.Round
import ReplicatedLog.Value

/-!
# Messages

What the roles of different replicas say to each other. A leader asks for promises (`Prepare`),
acceptors promise and report what they have voted for (`Promise`); the leader proposes (`Accept`),
acceptors announce their votes to everybody (`Learn`); a learner with gaps asks for decided slots
(`CatchUpRequest`, `CatchUpResponse`).
-/

namespace ReplicatedLog

/-- A leader asks every acceptor to promise its round. -/
structure Prepare where
  /-- The replica that wants to lead. -/
  sender : Nat
  /-- The round to be promised. -/
  round : Round
  /-- Every slot up to this one is decided as far as the sender knows. -/
  slot : Nat
  deriving DecidableEq, Repr

/-- A vote that an acceptor reports with its promise. -/
structure Report where
  /-- The slot voted for. -/
  slot : Nat
  /-- The round of the vote. -/
  round : Round
  /-- The value voted for. -/
  value : Value
  deriving DecidableEq, Repr

/-- An acceptor promises to vote in no lower round, and reports its votes. -/
structure Promise where
  /-- The acceptor. -/
  sender : Nat
  /-- The round promised. -/
  round : Round
  /-- The acceptor's votes from the asked slot on. -/
  reports : List Report
  /-- The acceptor's view of the membership. -/
  epochs : EpochVector
  deriving DecidableEq, Repr

/-- A leader proposes a value for a slot. -/
structure Accept where
  /-- The leader. -/
  sender : Nat
  /-- The round it leads under. -/
  round : Round
  /-- The slot to be filled. -/
  slot : Nat
  /-- The proposed value. -/
  value : Value
  /-- The leader's view of the membership. -/
  epochs : EpochVector
  deriving DecidableEq, Repr

/-- An acceptor announces its vote. -/
structure Learn where
  /-- The acceptor. -/
  sender : Nat
  /-- The slot voted for. -/
  slot : Nat
  /-- The round of the vote. -/
  round : Round
  /-- The value voted for. -/
  value : Value
  /-- The acceptor's view of the membership. -/
  epochs : EpochVector
  deriving DecidableEq, Repr

/-- A learner asks for the decided values of ranges of slots, both ends included. -/
structure CatchUpRequest where
  /-- The learner. -/
  sender : Nat
  /-- The first and last slot of each range. -/
  ranges : List (Nat × Nat)
  deriving DecidableEq, Repr

/-- A learner answers with the decided slots that it still holds. -/
structure CatchUpResponse where
  /-- The answering learner. -/
  sender : Nat
  /-- Slots with their decided values. -/
  decided : List (Nat × Value)
  deriving DecidableEq, Repr

/-- What one replica says to another. -/
inductive Message where
  /-- A leader asks for promises. -/
  | prepare (body : Prepare)
  /-- An acceptor promises. -/
  | promise (body : Promise)
  /-- A leader proposes. -/
  | accept (body : Accept)
  /-- An acceptor votes. -/
  | learn (body : Learn)
  /-- A learner asks for decided slots. -/
  | catchUpRequest (body : CatchUpRequest)
  /-- A learner answers with decided slots. -/
  | catchUpResponse (body : CatchUpResponse)
  deriving DecidableEq, Repr

/-- The replica that a message names as its sender. -/
def Message.sender : Message → Nat
  | .prepare m => m.sender
  | .promise m => m.sender
  | .accept m => m.sender
  | .learn m => m.sender
  | .catchUpRequest m => m.sender
  | .catchUpResponse m => m.sender

/-- A message on its way out of a role. -/
inductive Outgoing where
  /-- To one replica. -/
  | unicast (target : Nat) (message : Message)
  /-- To every replica, the sender included. -/
  | broadcast (message : Message)
  deriving DecidableEq, Repr

/-- A message together with the replica it comes from, as the wire carries it. -/
structure Envelope where
  /-- The replica that sent the message. -/
  source : Nat
  /-- What it sent. -/
  message : Message
  deriving DecidableEq, Repr

end ReplicatedLog
