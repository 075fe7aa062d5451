import ReplicatedLog.Replica
import ReplicatedLog.Service.Clock
import ReplicatedLog.Service.Effect

/-!
# Running proposers

A running proposer checks for progress at regular intervals. While it waits for promises, an alarm is
set for the round that it waits in; when the alarm goes off, a notice of that is put in the mailbox,
and when the notice is handled, phase one starts again. The time an alarm is set for is left to chance
between the configured time and half as much again, so that proposers that compete do not stay in step.

* `ProposerService.sendAll` — sends what the role produced and keeps the alarm in step.
* `ProposerService.handle` — something happens.
* `ProposerService.timed` — how it behaves in time.
-/

namespace ReplicatedLog

/-- What can happen to a running proposer. -/
inductive ProposerEvent where
  /-- A message from another replica arrives. -/
  | message (m : Message)
  /-- Its replica trusts somebody to lead. -/
  | trust (leader : Nat)
  /-- It gets a new view of the membership. -/
  | setEpochs (epochs : EpochVector)
  /-- The learner of its replica has delivered slots. -/
  | advanced (adu : Nat) (delivered : List (Nat × Value)) (highestRound : Round)
  /-- It is time to check for progress. -/
  | tick
  /-- An alarm of phase one goes off. -/
  | fire (handle : Nat)
  /-- The notice that an alarm went off is handled. -/
  | notice
  deriving DecidableEq, Repr

/-- A running proposer. -/
structure ProposerService where
  /-- The state of the role. -/
  proposer : Proposer
  /-- The least time that an alarm of phase one is set for. -/
  promiseTimeout : Nat
  /-- The time between checks for progress. -/
  resendPeriod : Nat
  /-- The handle of the alarm that ends phase one, if it knows of one. -/
  timer : Option Nat := none
  /-- The alarms that it has set. -/
  alarms : Alarms := {}
  /-- The round that an alarm was last set for. -/
  timedRound : Round := .bottom
  /-- The notices of alarms that went off, not yet handled. -/
  notices : Nat := 0
  deriving DecidableEq, Repr

namespace ProposerService

/-- Whether an alarm of phase one may be set for a time. -/
def IsDelay (base delay : Nat) : Prop := base ≤ delay ∧ delay ≤ base + base / 2

/-- The time that stands for those that chance may choose: the one in the middle. -/
def middleDelay (base : Nat) : Nat := base + base / 4

theorem isDelay_middleDelay (base : Nat) : IsDelay base (middleDelay base) := by
  unfold IsDelay middleDelay
  omega

/-- Clears the alarm of phase one, if it knows of one. -/
def stopTimer (s : ProposerService) : ProposerService :=
  match s.timer with
  | none => s
  | some handle => { s with timer := none, alarms := s.alarms.clear handle }

/-- Sets an alarm for the current round, in place of the one it knows of. It goes off `delay` after
`now`. -/
def startTimer (s : ProposerService) (now delay : Nat) : ProposerService :=
  let s := s.stopTimer
  let (alarms, handle) := s.alarms.set (now + delay)
  { s with timer := some handle, alarms, timedRound := s.proposer.round }

/-- Keeps the alarm in step with the role: clears it outside phase one, and sets one in phase one
unless it knows of one that was set for the current round. -/
def keepTimer (s : ProposerService) (now delay : Nat) : ProposerService :=
  if s.proposer.phase ≠ .one then s.stopTimer
  else if s.timer.isNone || s.timedRound != s.proposer.round then s.startTimer now delay
  else s

/-- Sends what the role produced and keeps the alarm in step. -/
def sendAll (s : ProposerService) (now delay : Nat) (out : List Outgoing) :
    ProposerService × List Effect :=
  (s.keepTimer now delay, out.map .send)

/-- The role acts, and what it produced is sent. -/
def act (s : ProposerService) (now delay : Nat)
    (f : Proposer → Checked (Proposer × List Outgoing)) :
    Checked (ProposerService × List Effect) := do
  let (proposer, out) ← f s.proposer
  return sendAll { s with proposer } now delay out

/-- Something happens. `delay` is the time that a new alarm is set for. -/
def handle (s : ProposerService) (now delay : Nat) :
    ProposerEvent → Checked (ProposerService × List Effect)
  | .message (.promise m) => s.act now delay fun p => p.promise m
  | .message _ => .ok (s, [])
  | .trust leader => s.act now delay fun p => p.trust leader
  | .setEpochs epochs => .ok ({ s with proposer := s.proposer.setEpochs epochs }, [])
  | .advanced adu delivered highestRound =>
    s.act now delay fun p => (p.hear highestRound).noteDelivered adu delivered
  | .tick => s.act now delay Proposer.checkProgress
  | .fire handle =>
    if s.alarms.isRunning handle then
      .ok ({ s with timer := none, alarms := s.alarms.clear handle, notices := s.notices + 1 }, [])
    else .ok (s, [])
  | .notice =>
    if s.notices = 0 then .ok (s, [])
    else act { s with notices := s.notices - 1 } now delay Proposer.retry

/-- A client submits a value. A refusal changes nothing. -/
def propose (s : ProposerService) (now delay : Nat) (value : Value) :
    Checked (ProposerService × List Effect × Except Fault Unit) := do
  let (proposer, result) ← s.proposer.submit value
  match result with
  | .ok out =>
    let (s, effects) := sendAll { s with proposer } now delay out
    return (s, effects, .ok ())
  | .error fault => return ({ s with proposer }, [], .error fault)

/-- Starts a proposer with given settings. -/
def start (c : ReplicaSettings) : ProposerService where
  proposer := (Replica.ofSettings c).proposer
  promiseTimeout := c.promiseTimeout
  resendPeriod := c.resendPeriod

/-- Something happens, and a new alarm is set for the time in the middle. -/
def on (s : ProposerService) (now : Nat) (event : ProposerEvent) :
    Checked (ProposerService × List Effect) :=
  s.handle now (middleDelay s.promiseTimeout) event

/-- When something is due next. -/
def due (s : ProposerService) (now : Nat) : Option Nat :=
  Clock.earlier (Clock.nextTick s.resendPeriod now)
    (Clock.nextFiring (s.alarms.first?.map Prod.snd) now)

/-- The check for progress, if it is due. -/
def elapseTick (s : ProposerService) (now : Nat) : Checked (ProposerService × List Effect) :=
  if Clock.isTick s.resendPeriod now then s.on now .tick else .ok (s, [])

/-- The alarm of phase one goes off, if it is due, and the notice is handled. -/
def elapseTimer (s : ProposerService) (now : Nat) : Checked (ProposerService × List Effect) :=
  match s.alarms.first? with
  | none => .ok (s, [])
  | some (handle, deadline) =>
    if deadline ≤ now then do
      let (s, fired) ← s.on now (.fire handle)
      let (s, noticed) ← s.on now .notice
      return (s, fired ++ noticed)
    else .ok (s, [])

/-- How a proposer behaves in time. -/
def timed : Timed ProposerService Effect where
  due := due
  elapse s now := do
    let (s, ticked) ← s.elapseTick now
    let (s, fired) ← s.elapseTimer now
    return (s, ticked ++ fired)

end ProposerService

end ReplicatedLog
