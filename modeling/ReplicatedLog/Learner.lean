import ReplicatedLog.Mode
import ReplicatedLog.Window

/-!
# Learners

A learner counts the acceptors' votes for each slot and delivers the values of decided slots in
order, each once. If a slot is learned while slots before it are missing, it asks the leader for
the missing ones; it answers such requests from the delivered slots that it still holds.

* `Learner.learn` — a vote arrives.
* `Learner.missing` — the gaps below the highest learned slot.
* `Learner.answer`, `Learner.takeAnswer` — answer a request; take an answer.
* `Learner.askAgain` — no answer came.
-/

namespace ReplicatedLog

/-- A learner's record of a slot. -/
structure Tally where
  /-- The highest round of a vote for the slot. -/
  round : Round := .bottom
  /-- The votes of that round, one for each sender, all for one value, in order of arrival. -/
  votes : List Learn := []
  /-- The value that the slot is known to have. -/
  learned : Option Value := none
  /-- Whether the value was delivered. -/
  decided : Bool := false
  /-- Whether some vote disagreed with the learner's view of the membership. -/
  disputed : Bool := false
  deriving DecidableEq, Repr

instance : Inhabited Tally := ⟨{}⟩

namespace Tally

/-- Counts a vote. A vote of a higher round discards those before it. `none` if the vote does not
count: the slot is learned, the round is too low, the sender has voted, or the value differs from
that of the votes before it. -/
def count (t : Tally) (mode : Mode) (own : EpochVector) (m : Learn) : Option Tally :=
  if t.learned.isSome || m.round < t.round then none
  else
    let t := if t.round < m.round then { t with round := m.round, votes := [] } else t
    if t.votes.any fun vote => vote.sender == m.sender then none
    else if t.votes.head?.any fun vote => vote.value != m.value then none
    else
      some { t with
        votes := t.votes ++ [m]
        disputed := t.disputed || mode.disputes own m }

/-- The value of the votes. -/
def candidate (t : Tally) : Option Value := t.votes.head?.map Learn.value

end Tally

/-- The state of a learner. -/
structure Learner where
  /-- The replica it belongs to. -/
  id : Nat
  /-- The number of votes that settle a slot. -/
  quorum : Nat
  /-- How many delivered slots are kept for others to catch up. -/
  retention : Nat
  /-- Its view of the membership. -/
  epochs : EpochVector
  /-- The rules for membership changes. -/
  mode : Mode
  /-- Whom its replica trusts to lead. -/
  leader : Option Nat := none
  /-- The next slot to deliver. -/
  next : Nat := 1
  /-- The tally of each slot. -/
  window : Window Tally := {}
  /-- Whether a request for missing slots is not answered yet. -/
  catchingUp : Bool := false
  /-- The highest round of any vote. -/
  highestRound : Round := .bottom
  deriving DecidableEq, Repr

/-- What a learner tells about itself. -/
structure LearnerStatus where
  /-- The replica it belongs to. -/
  id : Nat
  /-- Whom its replica trusts to lead. -/
  leader : Option Nat
  /-- The last slot delivered. -/
  adu : Nat
  /-- Whether a request for missing slots is not answered yet. -/
  catchingUp : Bool
  deriving DecidableEq, Repr

/-- What a learner does in answer to a message. -/
structure Delivery where
  /-- The slots delivered, with their values, in ascending order. -/
  delivered : List (Nat × Value) := []
  /-- The messages sent. -/
  outbound : List Outgoing := []
  deriving DecidableEq, Repr

namespace Learner

/-- The last slot delivered. -/
def adu (l : Learner) : Nat := l.next - 1

/-- What the learner tells about itself. -/
def status (l : Learner) : LearnerStatus := ⟨l.id, l.leader, l.adu, l.catchingUp⟩

/-- The replica trusts `leader`. -/
def trust (l : Learner) (leader : Nat) : Learner := { l with leader := some leader }

/-- Takes a new view of the membership. -/
def setEpochs (l : Learner) (epochs : EpochVector) : Learner := { l with epochs }

/-! ### Delivery -/

/-- The values of the leading records that are learned. -/
def ready : List Tally → List Value
  | [] => []
  | t :: rest =>
    match t.learned with
    | none => []
    | some value => value :: ready rest

/-- Delivers the learned slots from the next one on, up to the first that is not learned. Slots
that fall behind the retention are given up. -/
def deliver (l : Learner) : Checked (Learner × List (Nat × Value)) := do
  let values := ready (l.window.entriesFrom l.next)
  let delivered := (List.range' l.next values.length).zip values
  let next ← Word.fit (l.next + values.length)
  let window := delivered.foldl
    (fun window (slot, _) => window.modify slot fun t => { t with decided := true })
    l.window
  let window := if delivered.isEmpty then window else window.raise (next - l.retention)
  return ({ l with next, window }, delivered)

/-! ### Gaps -/

/-- The maximal runs of slots, among the `count` slots from `slot` on, that are not learned.
`start` is where the current run began, if one is open. -/
def gaps (learned : Nat → Bool) : (count slot : Nat) → (start : Option Nat) → List (Nat × Nat)
  | 0, _, none => []
  | 0, slot, some first => [(first, slot - 1)]
  | count + 1, slot, none =>
    gaps learned count (slot + 1) (if learned slot then none else some slot)
  | count + 1, slot, some first =>
    if learned slot then (first, slot - 1) :: gaps learned count (slot + 1) none
    else gaps learned count (slot + 1) (some first)

/-- Whether the slot is held and learned. -/
def isLearned (l : Learner) (slot : Nat) : Bool :=
  (l.window.get? slot).any fun t => t.learned.isSome

/-- The ranges of slots from the next one on that are not learned although a later slot is. -/
def missing (l : Learner) : Checked (List (Nat × Nat)) := do
  let held ← l.window.range l.next l.window.highest
  match (held.filter fun (_, t) => t.learned.isSome).getLast? with
  | none => return []
  | some (highest, _) => return gaps l.isLearned (highest - l.next) l.next none

/-- Asks the leader for the missing slots, unless a request is on its way, there is nobody to ask,
or nothing is missing. -/
def askForMissing (l : Learner) : Checked (Learner × List Outgoing) :=
  if l.catchingUp then .ok (l, [])
  else
    match l.leader with
    | none => .ok (l, [])
    | some leader =>
      if leader = l.id then .ok (l, [])
      else do
        let ranges ← l.missing
        if ranges.isEmpty then return (l, [])
        return ({ l with catchingUp := true },
          [.unicast leader (.catchUpRequest ⟨l.id, ranges⟩)])

/-! ### Messages -/

/-- A vote arrives. If it settles its slot, what can be delivered is delivered; if slots before it
are missing, they are asked for. -/
def learn (l : Learner) (m : Learn) : Checked (Learner × Delivery) :=
  let l := { l with highestRound := max l.highestRound m.round }
  if m.slot < l.next then .ok (l, {})
  else
    let l := { l with window := l.window.touch m.slot }
    match (l.window.get? m.slot).bind fun t => t.count l.mode l.epochs m with
    | none => .ok (l, {})
    | some tally =>
      if !l.mode.settles tally.votes l.quorum tally.disputed then
        .ok ({ l with window := l.window.modify m.slot fun _ => tally }, {})
      else do
        let tally := { tally with learned := tally.candidate }
        let (l, delivered) ← deliver { l with window := l.window.modify m.slot fun _ => tally }
        if l.next < m.slot then
          let (l, outbound) ← l.askForMissing
          return (l, { delivered, outbound })
        else return (l, { delivered })

/-- Another learner asks for slots; it gets those that were delivered here and are still held. -/
def answer (l : Learner) (m : CatchUpRequest) : Checked Outgoing := do
  let held ← m.ranges.mapM fun (first, last) => l.window.range first last
  let decided := held.flatten.filterMap fun (slot, t) =>
    if t.decided then t.learned.map fun value => (slot, value) else none
  return .unicast m.sender (.catchUpResponse ⟨l.id, decided⟩)

/-- Takes the values of an answer for the slots that are not learned yet, and delivers what can be
delivered. The number of slots filled in this way, which only people are told, is not kept; a count in
31 bits would have room for fewer than `2 ^ 31` of them. -/
def takeAnswer (l : Learner) (m : CatchUpResponse) : Checked (Learner × Delivery) := do
  let window := m.decided.foldl
    (fun window (slot, value) =>
      if slot < l.next then window
      else window.modify slot fun t => { t with learned := t.learned.or (some value) })
    l.window
  let (l, delivered) ← deliver { l with catchingUp := false, window }
  return (l, { delivered })

/-- No answer came in time: the request counts as lost, and what is missing is asked for again. -/
def askAgain (l : Learner) : Checked (Learner × List Outgoing) :=
  askForMissing { l with catchingUp := false }

end Learner

end ReplicatedLog
