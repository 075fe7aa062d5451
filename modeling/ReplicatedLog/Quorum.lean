import ReplicatedLog.Message

/-!
# Valid quorums

While the membership changes, replicas may disagree about each other's epochs. Promises or votes
then count as a quorum only if no two of them conflict: they come from different replicas, and
neither sender knows the other under a later epoch than the other claims for itself.

* `Stamp.conflicts` — the pairwise test.
* `firstValidQuorum` — of all conflict-free choices of positions, the lexicographically first.
-/

namespace ReplicatedLog

/-- The sender of a message together with the sender's view of the membership. -/
structure Stamp where
  /-- The sender. -/
  sender : Nat
  /-- Its view of everybody's epoch. -/
  epochs : EpochVector
  deriving DecidableEq, Repr

/-- The stamp of a promise. -/
def Promise.stamp (m : Promise) : Stamp := ⟨m.sender, m.epochs⟩

/-- The stamp of a vote. -/
def Learn.stamp (m : Learn) : Stamp := ⟨m.sender, m.epochs⟩

namespace Stamp

/-- The epoch that the sender claims for itself. -/
def ownEpoch (s : Stamp) : Nat := s.epochs.get s.sender

/-- Whether two messages cannot stand in one quorum. -/
def conflicts (a b : Stamp) : Bool :=
  a.sender == b.sender ||
    (decide (b.ownEpoch < a.epochs.get b.sender) || decide (a.ownEpoch < b.epochs.get a.sender))

/-- Conflicts are mutual. -/
theorem conflicts_comm (a b : Stamp) : a.conflicts b = b.conflicts a := by
  unfold conflicts
  rw [Bool.or_comm (decide (b.ownEpoch < a.epochs.get b.sender))]
  congr 1
  simp [Bool.beq_comm]

end Stamp

/-- The first choice of `size` of the given positions no two of which conflict with each other or
with a stamp already chosen. The candidates are tried in order: first the choices with the first
one, if it conflicts with none of the chosen, then those without it. Too few candidates are not
tried at all. -/
def firstConflictFree (chosen : List Stamp) :
    (candidates : List (Nat × Stamp)) → (size : Nat) → Option (List Nat)
  | _, 0 => some []
  | [], _ + 1 => none
  | (position, stamp) :: rest, size + 1 =>
    if rest.length < size then none
    else
      let withFirst :=
        if chosen.any stamp.conflicts then none
        else firstConflictFree (stamp :: chosen) rest size
      match withFirst with
      | some positions => some (position :: positions)
      | none => firstConflictFree chosen rest (size + 1)

/-- The positions of `size` messages no two of which conflict, the lexicographically first such
choice; `none` if there is none. -/
def firstValidQuorum (stamps : List Stamp) (size : Nat) : Option (List Nat) :=
  firstConflictFree [] ((List.range stamps.length).zip stamps) size

end ReplicatedLog
