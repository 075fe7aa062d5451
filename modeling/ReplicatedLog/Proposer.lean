import ReplicatedLog.Fault
import ReplicatedLog.Mode
import ReplicatedLog.Window

/-!
# Proposers

A proposer orders the values that clients submit. Once its replica trusts it to lead, it asks the
acceptors for promises (phase one); with a quorum of promises it takes over the votes they report,
fills the holes between them with no-ops, and proposes its queue, at most `alpha` slots beyond the
decided ones (phase two). A value of its own that loses its slot goes back to the front of the
queue.

* `Proposer.trust` — the replica trusts somebody to lead.
* `Proposer.promise` — an acceptor promises.
* `Proposer.submit` — a client submits a value.
* `Proposer.noteDelivered` — the learner has delivered further slots.
* `Proposer.retry`, `Proposer.checkProgress` — nothing happened for too long.
-/

namespace ReplicatedLog

/-- What a proposer is doing. -/
inductive Phase where
  /-- It does not lead. -/
  | idle
  /-- It collects promises. -/
  | one
  /-- It proposes. -/
  | two
  deriving DecidableEq, Repr

/-- The phase as it is written for people. -/
def Phase.text : Phase → String
  | .idle => "Idle"
  | .one => "Phase1"
  | .two => "Phase2"

/-- A proposer's record of a slot. -/
structure Proposal where
  /-- The value proposed, or to be proposed, for the slot. -/
  value : Option Value := none
  /-- The round of the vote that the value was taken from; bottom if from none in this round. -/
  takenFrom : Round := .bottom
  /-- Whether the value came from this proposer's queue. -/
  own : Bool := false
  /-- How often the proposal was sent again in this round. -/
  resends : Nat := 0
  deriving DecidableEq, Repr

instance : Inhabited Proposal := ⟨{}⟩

/-- The state of a proposer. -/
structure Proposer where
  /-- The replica it belongs to. -/
  id : Nat
  /-- The number of promises that let it propose. -/
  quorum : Nat
  /-- How many slots may be proposed beyond the decided ones. -/
  alpha : Nat
  /-- How often a proposal is sent again before a new round is tried. -/
  resendThreshold : Nat
  /-- Its view of the membership. -/
  epochs : EpochVector
  /-- The rules for membership changes. -/
  mode : Mode
  /-- The latest round it tried to lead under. -/
  round : Round := .bottom
  /-- The highest counter of a round that it heard of. -/
  topCounter : Nat := 0
  /-- Whom its replica trusts to lead. -/
  leader : Option Nat := none
  /-- What it is doing. -/
  phase : Phase := .idle
  /-- The promises collected in phase one, one for each sender, in order of arrival. -/
  promises : List Promise := []
  /-- Every slot up to this one is decided and delivered. -/
  adu : Nat := 0
  /-- The next slot to propose for. -/
  nextSlot : Nat := 1
  /-- The value of `adu` when progress was last checked. -/
  checkedAdu : Nat := 0
  /-- The proposal for each slot. -/
  window : Window Proposal := {}
  /-- Submitted values that have no slot yet. -/
  queue : List Value := []
  deriving DecidableEq, Repr

/-- What a proposer tells about itself. -/
structure ProposerStatus where
  /-- The replica it belongs to. -/
  id : Nat
  /-- Whom its replica trusts to lead. -/
  leader : Option Nat
  /-- What it is doing. -/
  phase : Phase
  /-- The latest round it tried to lead under. -/
  round : Round
  /-- Every slot up to this one is decided and delivered. -/
  adu : Nat
  /-- The next slot to propose for. -/
  nextSlot : Nat
  /-- The number of values without a slot. -/
  queued : Nat
  deriving DecidableEq, Repr

namespace Proposer

/-- Whether its replica trusts this proposer to lead. -/
def isLeader (p : Proposer) : Bool := p.leader == some p.id

/-- What the proposer tells about itself. -/
def status (p : Proposer) : ProposerStatus :=
  ⟨p.id, p.leader, p.phase, p.round, p.adu, p.nextSlot, p.queue.length⟩

/-- Takes a new view of the membership. -/
def setEpochs (p : Proposer) (epochs : EpochVector) : Proposer := { p with epochs }

/-- Hears of a round. -/
def hear (p : Proposer) (round : Round) : Proposer :=
  { p with topCounter := max p.topCounter round.counter }

/-- The proposal of a value for a slot, to everybody. -/
def proposal (p : Proposer) (slot : Nat) (value : Value) : Outgoing :=
  .broadcast (.accept ⟨p.id, p.round, slot, value, p.epochs⟩)

/-! ### Phase one -/

/-- Forgets what an earlier round left about the slots from `first` up to, not including, `stop`:
where their values came from, and how often they were sent. -/
def forgetRound (window : Window Proposal) (first stop : Nat) : Window Proposal :=
  (List.range' first (stop - first)).foldl
    (fun window slot => window.modify slot fun e => { e with takenFrom := .bottom, resends := 0 })
    window

/-- Asks everybody to promise a round above all that it heard of. -/
def askPromises (p : Proposer) : Checked (Proposer × List Outgoing) := do
  let round ← p.round.next p.topCounter p.id
  let first ← Word.fit (p.adu + 1)
  let stop ← Word.fit (p.window.highest + 1)
  let window := forgetRound p.window first (max p.nextSlot stop)
  return ({ p with round, phase := .one, promises := [], window },
    [.broadcast (.prepare ⟨p.id, round, p.adu⟩)])

/-- The replica trusts `leader`. A proposer that is to lead starts with phase one, unless it is
leading already; one that is not to lead stops. -/
def trust (p : Proposer) (leader : Nat) : Checked (Proposer × List Outgoing) :=
  let wasLeader := p.isLeader
  let p := { p with leader := some leader }
  if leader ≠ p.id then .ok ({ p with phase := .idle, promises := [] }, [])
  else if wasLeader && p.phase != .idle then .ok (p, [])
  else p.askPromises

/-! ### Phase two -/

/-- What a run of proposals leaves. -/
structure Filled where
  /-- The proposals, with the new ones. -/
  window : Window Proposal
  /-- The values that still have no slot. -/
  queue : List Value
  /-- The slots proposed for, with their values, in ascending order. -/
  sent : List (Nat × Value)

/-- Proposes for up to `room` slots from `slot` on: what the slot holds already, or else the first
value of the queue. It ends at a slot for which there is no value. -/
def fillFrom : (room slot : Nat) → Window Proposal → List Value → Filled
  | 0, _, window, queue => ⟨window, queue, []⟩
  | room + 1, slot, window, queue =>
    let window := window.touch slot
    match window.get? slot, queue with
    | none, queue => ⟨window, queue, []⟩
    | some { value := some value, .. }, queue =>
      let window := window.modify slot fun e => { e with resends := 0 }
      let rest := fillFrom room (slot + 1) window queue
      { rest with sent := (slot, value) :: rest.sent }
    | some { value := none, .. }, value :: queue =>
      let window := window.modify slot fun e =>
        { e with value := some value, own := true, resends := 0 }
      let rest := fillFrom room (slot + 1) window queue
      { rest with sent := (slot, value) :: rest.sent }
    | some { value := none, .. }, [] => ⟨window, [], []⟩

/-- In phase two, proposes for the slots that the pipeline has room for. -/
def fill (p : Proposer) : Checked (Proposer × List Outgoing) :=
  if p.isLeader && p.phase == .two then do
    let last ← Word.fit (p.adu + p.alpha)
    let filled := fillFrom (last + 1 - p.nextSlot) p.nextSlot p.window p.queue
    let nextSlot ← Word.fit (p.nextSlot + filled.sent.length)
    return ({ p with window := filled.window, queue := filled.queue, nextSlot },
      filled.sent.map fun (slot, value) => p.proposal slot value)
  else .ok (p, [])

/-- A reported vote replaces the value of its slot, unless the slot has one from a round at least
as high. Slots up to `adu` are not touched. -/
def seed (adu : Nat) (window : Window Proposal) (r : Report) : Window Proposal :=
  if r.slot ≤ adu then window
  else
    window.modify r.slot fun e =>
      if e.takenFrom.isBottom || e.takenFrom < r.round then
        { e with value := some r.value, takenFrom := r.round, own := false }
      else e

/-- The slots above `adu` whose values came from the queue, with these values. -/
def ownValues (p : Proposer) : Checked (List (Nat × Value)) := do
  let first ← Word.fit (p.adu + 1)
  let held ← p.window.range first p.window.highest
  return held.filterMap fun (slot, e) =>
    if e.own then e.value.map fun value => (slot, value) else none

/-- Whether a slot holds a value. -/
def holds (window : Window Proposal) (slot : Nat) (value : Value) : Bool :=
  (window.get? slot).any fun e => e.value == some value

/-- Fills the slots above `adu` up to `last` that have no value with no-ops. -/
def plug (window : Window Proposal) (adu last : Nat) : Window Proposal :=
  (List.range' (adu + 1) (last - adu)).foldl
    (fun window slot => window.modify slot fun e =>
      if e.value.isNone then { e with value := some .noop, own := false } else e)
    window

/-- The number of slots above `adu` up to `last` that have no value. Slots that cannot be held any
more are not counted. -/
def holes (window : Window Proposal) (adu last : Nat) : Nat :=
  (List.range' (adu + 1) (last - adu)).countP fun slot =>
    window.low ≤ slot && ((window.get? slot).bind Proposal.value).isNone

/-- With a quorum of promises, takes over the reported votes, gives values of its own that lost
their slots back to the queue, fills the holes, and starts to propose. The holes are counted as they
are filled; only people are told their number, but it has to fit all the same. -/
def beginProposing (p : Proposer) : Checked (Proposer × List Outgoing) := do
  let ownBefore ← p.ownValues
  let reports := p.promises.flatMap Promise.reports
  let last := reports.foldl (fun last r => max last r.slot) p.adu
  let seeded := reports.foldl (seed p.adu) p.window
  let restored := ownBefore.foldl
    (fun window (slot, value) => window.modify slot fun e =>
      if e.value == some value then { e with own := true } else e)
    seeded
  let displaced := ownBefore.filterMap fun (slot, value) =>
    if holds seeded slot value then none else some value
  let _ ← Word.fitCount (holes restored p.adu last)
  fill { p with
    window := plug restored p.adu last
    queue := displaced ++ p.queue
    phase := .two
    nextSlot := p.adu + 1
    checkedAdu := p.adu }

/-- Keeps the latest promise of each sender, in the place of its first. -/
def recordPromise : List Promise → Promise → List Promise
  | [], m => [m]
  | m' :: ms, m => if m'.sender = m.sender then m :: ms else m' :: recordPromise ms m

/-- An acceptor promises. Promises for other rounds only tell how high rounds have got. -/
def promise (p : Proposer) (m : Promise) : Checked (Proposer × List Outgoing) :=
  let p := m.reports.foldl (fun p r => p.hear r.round) (p.hear m.round)
  if !p.isLeader || p.phase != .one || m.round != p.round then .ok (p, [])
  else
    let p := { p with promises := recordPromise p.promises m }
    match p.mode.quorumOfPromises p.promises p.quorum with
    | none => .ok (p, [])
    | some _ => p.beginProposing

/-- A client submits a value; only the leader takes it. -/
def submit (p : Proposer) (value : Value) :
    Checked (Proposer × Except Fault (List Outgoing)) :=
  if !p.isLeader then .ok (p, .error (.notLeader p.leader))
  else do
    let (p, out) ← fill { p with queue := p.queue ++ [value] }
    return (p, .ok out)

/-- The value of its own that the proposer had for a slot that was decided otherwise. -/
def lostTo (p : Proposer) (slot : Nat) (value : Value) : Option Value :=
  match p.window.get? slot with
  | some { own := true, value := some mine, .. } => if mine = value then none else some mine
  | _ => none

/-- The learner has delivered every slot up to `adu`, among them those of `decided`. Values of its
own that lost their slots go back to the front of the queue. -/
def noteDelivered (p : Proposer) (adu : Nat) (decided : List (Nat × Value)) :
    Checked (Proposer × List Outgoing) :=
  if adu ≤ p.adu then .ok (p, [])
  else do
    let lost := decided.filterMap fun (slot, value) =>
      if p.adu < slot && slot ≤ adu then p.lostTo slot value else none
    let below ← Word.fit (adu + 1)
    fill { p with
      queue := lost ++ p.queue
      adu
      window := p.window.raise below
      nextSlot := if p.nextSlot ≤ adu then adu + 1 else p.nextSlot }

/-! ### Timeouts -/

/-- Phase one took too long: it starts again with a higher round. -/
def retry (p : Proposer) : Checked (Proposer × List Outgoing) :=
  if p.isLeader && p.phase == .one then p.askPromises else .ok (p, [])

/-- Checks for progress. If nothing was delivered since the last check, everything proposed is sent
again; a proposal that was sent too often makes the proposer start with a higher round instead. -/
def checkProgress (p : Proposer) : Checked (Proposer × List Outgoing) :=
  if !p.isLeader || p.phase != .two then .ok (p, [])
  else if p.checkedAdu < p.adu then .ok ({ p with checkedAdu := p.adu }, [])
  else do
    let first ← Word.fit (p.adu + 1)
    let slots := List.range' first (p.nextSlot - first)
    let window := slots.foldl Window.touch p.window
    let pending := slots.filterMap fun slot => do
      let e ← window.get? slot
      let value ← e.value
      return (slot, value, e.resends + 1)
    let _ ← pending.mapM fun (_, _, resends) => Word.fitHalf resends
    if pending.any fun (_, _, resends) => p.resendThreshold < resends then
      askPromises { p with window }
    else
      let window := pending.foldl
        (fun window (slot, _, resends) => window.modify slot fun e => { e with resends })
        window
      return ({ p with window }, pending.map fun (slot, value, _) => p.proposal slot value)

end Proposer

end ReplicatedLog
