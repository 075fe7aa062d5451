import ReplicatedLog.Acceptor

/-!
# Effects

What a running role does besides changing its own state: it sends messages, answers a request for
its votes, and tells what was decided.
-/

namespace ReplicatedLog

/-- Something that a running role does. -/
inductive Effect where
  /-- It sends a message to other replicas. -/
  | send (out : Outgoing)
  /-- An acceptor hands over its votes. -/
  | snapshot (votes : Snapshot)
  /-- A learner tells the application the value of a slot. -/
  | decided (slot : Nat) (value : Value)
  /-- A learner tells the proposer of its replica which slots it delivered, up to `adu`, and the
  highest round of any vote. -/
  | advanced (adu : Nat) (delivered : List (Nat × Value)) (highestRound : Round)
  deriving DecidableEq, Repr

end ReplicatedLog
