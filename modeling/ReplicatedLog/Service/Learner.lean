import ReplicatedLog.Replica
import ReplicatedLog.Service.Clock
import ReplicatedLog.Service.Effect

/-!
# Running learners

A running learner passes on what it delivers, to the application slot by slot and to the proposer
of its replica as a whole. At regular intervals it looks for missing slots; a request for them gets
one full interval to be answered before it counts as lost.
-/

namespace ReplicatedLog

/-- What can happen to a running learner. -/
inductive LearnerEvent where
  /-- A message from another replica arrives. -/
  | message (m : Message)
  /-- Its replica trusts somebody to lead. -/
  | trust (leader : Nat)
  /-- It gets a new view of the membership. -/
  | setEpochs (epochs : EpochVector)
  /-- It is time to look for missing slots. -/
  | tick
  deriving DecidableEq, Repr

/-- A running learner. -/
structure LearnerService where
  /-- The state of the role. -/
  learner : Learner
  /-- The time between looks for missing slots. -/
  catchUpPeriod : Nat
  /-- Whether an interval began since the last request. -/
  aged : Bool := false
  deriving DecidableEq, Repr

namespace LearnerService

/-- What is done about a delivery: its messages are sent; then the application and the proposer are
told, if anything was delivered. -/
def effectsOf (l : Learner) (d : Delivery) : List Effect :=
  d.outbound.map .send ++
    if d.delivered.isEmpty then []
    else
      d.delivered.map (fun (slot, value) => .decided slot value) ++
        [.advanced l.adu d.delivered l.highestRound]

/-- Something happens. -/
def handle (s : LearnerService) : LearnerEvent → Checked (LearnerService × List Effect)
  | .message (.learn m) => do
    let (learner, d) ← s.learner.learn m
    return ({ s with learner }, effectsOf learner d)
  | .message (.catchUpRequest m) => do
    return (s, [.send (← s.learner.answer m)])
  | .message (.catchUpResponse m) => do
    let (learner, d) ← s.learner.takeAnswer m
    return ({ s with learner, aged := false }, effectsOf learner d)
  | .message _ => .ok (s, [])
  | .trust leader => .ok ({ s with learner := s.learner.trust leader }, [])
  | .setEpochs epochs => .ok ({ s with learner := s.learner.setEpochs epochs }, [])
  | .tick =>
    if s.learner.catchingUp && !s.aged then .ok ({ s with aged := true }, [])
    else do
      let (learner, out) ← s.learner.askAgain
      return ({ s with learner, aged := false }, out.map .send)

/-- Starts a learner with given settings. -/
def start (c : ReplicaSettings) : LearnerService where
  learner := (Replica.ofSettings c).learner
  catchUpPeriod := c.catchUpPeriod

/-- When something is due next. -/
def due (s : LearnerService) (now : Nat) : Option Nat := Clock.nextTick s.catchUpPeriod now

/-- The look for missing slots, if it is due. -/
def elapse (s : LearnerService) (now : Nat) : Checked (LearnerService × List Effect) :=
  if Clock.isTick s.catchUpPeriod now then s.handle .tick else .ok (s, [])

/-- How a learner behaves in time. -/
def timed : Timed LearnerService Effect := ⟨due, elapse⟩

end LearnerService

end ReplicatedLog
