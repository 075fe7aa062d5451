import ReplicatedLog.Quorum

/-!
# Modes

The rules by which the roles count quorums. In plain mode any majority will do. In epoch-aware
mode the membership may change while the log grows: acceptors answer only leaders that know their
current epoch, and messages that disagree about epochs form a quorum only if it is a valid one.
-/

namespace ReplicatedLog

/-- How quorums are counted, fixed when a replica is set up. -/
inductive Mode where
  /-- A number of messages is a quorum. -/
  | plain
  /-- Messages that disagree about the membership are checked against each other. -/
  | epochAware
  deriving DecidableEq, Repr

instance : Inhabited Mode := ⟨.plain⟩

namespace Mode

/-- Whether the acceptor `id` with the view `own` may vote on a proposal. -/
def admits (mode : Mode) (id : Nat) (own : EpochVector) (m : Accept) : Bool :=
  match mode with
  | plain => true
  | epochAware => m.epochs.get id == own.get id

/-- The positions of the promises that let a leader go on, if there are enough. -/
def quorumOfPromises (mode : Mode) (promises : List Promise) (quorum : Nat) : Option (List Nat) :=
  if quorum ≤ promises.length then
    match mode with
    | plain => some (List.range quorum)
    | epochAware => firstValidQuorum (promises.map Promise.stamp) quorum
  else none

/-- Whether a vote disagrees with the view `own` of the learner that counts it. -/
def disputes (mode : Mode) (own : EpochVector) (vote : Learn) : Bool :=
  match mode with
  | plain => false
  | epochAware => vote.epochs != own

/-- Whether votes of one round for one slot settle it. `disputed` tells that some vote disagreed
with the learner's view. -/
def settles (mode : Mode) (votes : List Learn) (quorum : Nat) (disputed : Bool) : Bool :=
  decide (quorum ≤ votes.length) &&
    match mode with
    | plain => true
    | epochAware => !disputed || (firstValidQuorum (votes.map Learn.stamp) quorum).isSome

/-- Votes that settle a slot are enough. -/
theorem le_length_of_settles {mode : Mode} {votes : List Learn} {quorum : Nat} {disputed : Bool}
    (h : mode.settles votes quorum disputed = true) : quorum ≤ votes.length := by
  unfold settles at h
  rw [Bool.and_eq_true, decide_eq_true_eq] at h
  exact h.1

/-- Promises that let a leader go on are enough. -/
theorem le_length_of_quorumOfPromises {mode : Mode} {promises : List Promise} {quorum : Nat}
    (h : mode.quorumOfPromises promises quorum ≠ none) : quorum ≤ promises.length := by
  unfold quorumOfPromises at h
  split at h
  · assumption
  · exact absurd rfl h

end Mode

end ReplicatedLog
