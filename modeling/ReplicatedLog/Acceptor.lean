import ReplicatedLog.Mode
import ReplicatedLog.Window

/-!
# Acceptors

An acceptor remembers the highest round it has seen and its latest vote for each slot of a window.
It promises only rounds above its own, and votes only in rounds not below its own.

* `Acceptor.prepare` — answers a leader that asks for a promise.
* `Acceptor.accept` — votes for a proposal.
* `Acceptor.votesAbove`, `Acceptor.takeOver` — hand votes over to another acceptor.
* `Acceptor.raiseLow` — give up the slots below a mark.

A proposal for slot `s` shows that every slot more than a pipeline below `s` is decided, so the
acceptor forgets the votes more than `retention` below it.
-/

namespace ReplicatedLog

/-- An acceptor's record of a slot. -/
structure Vote where
  /-- The round of the latest vote. -/
  round : Round := .bottom
  /-- The value of the latest vote; `none` if there was none. -/
  value : Option Value := none
  deriving DecidableEq, Repr

instance : Inhabited Vote := ⟨{}⟩

namespace Vote

/-- The report of a vote cast for `slot`, if there was one. -/
def report? (v : Vote) (slot : Nat) : Option Report :=
  v.value.map fun value => ⟨slot, v.round, value⟩

/-- Whether the record shows any trace of a vote. -/
def isCast (v : Vote) : Bool := v.value.isSome || !v.round.isBottom

/-- The later of a recorded vote and a reported one; a tie keeps the record. -/
def join (v : Vote) (r : Report) : Vote :=
  if v.round < r.round then ⟨r.round, some r.value⟩ else v

end Vote

/-- The votes that one acceptor hands to another. -/
structure Snapshot where
  /-- The round of the acceptor. -/
  round : Round
  /-- Its votes. -/
  votes : List Report
  deriving DecidableEq, Repr

/-- The state of an acceptor. -/
structure Acceptor where
  /-- The replica it belongs to. -/
  id : Nat
  /-- Its view of the membership. -/
  epochs : EpochVector
  /-- How far below a proposed slot votes are kept. -/
  retention : Nat
  /-- The rules for membership changes. -/
  mode : Mode
  /-- The highest round promised or voted in. -/
  round : Round := .bottom
  /-- The latest vote for each slot. -/
  window : Window Vote := {}
  deriving DecidableEq, Repr

namespace Acceptor

/-- The window without the slots more than the retention below `slot`. -/
def retainedFor (a : Acceptor) (slot : Nat) : Window Vote :=
  a.window.raise (slot - a.retention)

/-- Promises the round of `m`, if it is above the acceptor's own, and reports the votes from the
leader's slot on. The promise goes to the replica that is named with it. -/
def prepare (a : Acceptor) (m : Prepare) : Checked (Acceptor × Option (Promise × Nat)) :=
  if m.round ≤ a.round then .ok (a, none)
  else do
    let window := a.retainedFor m.slot
    let held ← window.range m.slot window.highest
    let reports := (held.filter fun (_, vote) => !vote.round.isBottom).filterMap
      fun (slot, vote) => vote.report? slot
    return ({ a with round := m.round, window },
      some (⟨a.id, m.round, reports, a.epochs⟩, m.sender))

/-- Votes for the proposal `m`, unless the leader does not know this acceptor's epoch, the round is
below the acceptor's own, the slot is given up, or the vote was cast before. -/
def accept (a : Acceptor) (m : Accept) : Acceptor × Option Learn :=
  if !a.mode.admits a.id a.epochs m then (a, none)
  else if m.round < a.round then (a, none)
  else
    let window := (a.retainedFor m.slot).touch m.slot
    match window.get? m.slot with
    | none => ({ a with window }, none)
    | some vote =>
      if vote.round = m.round then ({ a with window }, none)
      else
        ({ a with
          round := max a.round m.round
          window := window.modify m.slot fun _ => ⟨m.round, some m.value⟩ },
        some ⟨a.id, m.slot, m.round, m.value, a.epochs⟩)

/-- The acceptor's round and its votes for the slots above `slot`. -/
def votesAbove (a : Acceptor) (slot : Nat) : Checked Snapshot := do
  let first ← Word.fit (slot + 1)
  let held ← a.window.range first a.window.highest
  return ⟨a.round, held.filterMap fun (slot, vote) => vote.report? slot⟩

/-- Takes over the round and the votes of a snapshot where they are later than its own. The number of
votes taken over, which only people are told, is not kept; a count in 31 bits would have room for
fewer than `2 ^ 31` of them. -/
def takeOver (a : Acceptor) (s : Snapshot) : Acceptor :=
  { a with
    round := max a.round s.round
    window := s.votes.foldl (fun window r => window.modify r.slot (·.join r)) a.window }

/-- Gives up the slots below `slot`. -/
def raiseLow (a : Acceptor) (slot : Nat) : Acceptor :=
  { a with window := a.window.raise slot }

/-- Takes a new view of the membership. -/
def setEpochs (a : Acceptor) (epochs : EpochVector) : Acceptor := { a with epochs }

/-- The slots with a trace of a vote, in ascending order. -/
def castVotes (a : Acceptor) : List (Nat × Vote) :=
  a.window.toList.filter fun (_, vote) => vote.isCast

end Acceptor

end ReplicatedLog
