import ReplicatedLog.Replica
import ReplicatedLog.Service.Effect

/-!
# Running acceptors

A running acceptor handles requests in the order in which they arrive. A request for its votes
carries a ticket: once it has answered, the acceptor handles nothing until that ticket is released,
so that whoever took the votes over knows that none was cast since. Requests that arrive meanwhile
wait.

* `AcceptorService.arrive` — a request arrives.
* `AcceptorService.release` — a ticket is released, before or after its request is answered.
* `HandoffDesk` — an acceptor with somebody who takes its votes and keeps at most one ticket.
-/

namespace ReplicatedLog

/-- What a running acceptor can be asked to do. -/
inductive AcceptorRequest where
  /-- Take a message from another replica. -/
  | message (m : Message)
  /-- Take a new view of the membership. -/
  | setEpochs (epochs : EpochVector)
  /-- Hand over the votes for the slots above `slot`, then wait for the release of `ticket`. -/
  | handoff (slot ticket : Nat)
  /-- Take over the votes of another acceptor. -/
  | install (votes : Snapshot)
  /-- Give up the slots below `slot`. -/
  | raiseLow (slot : Nat)
  deriving DecidableEq, Repr

/-- A running acceptor. -/
structure AcceptorService where
  /-- The state of the role. -/
  acceptor : Acceptor
  /-- The ticket whose release it waits for, if it waits. -/
  awaiting : Option Nat := none
  /-- The requests that wait, in order of arrival. -/
  mailbox : List AcceptorRequest := []
  /-- The tickets that were released. -/
  released : List Nat := []
  deriving DecidableEq, Repr

namespace AcceptorService

/-- Starts an acceptor with given settings. -/
def start (c : ReplicaSettings) : AcceptorService where
  acceptor := (Replica.ofSettings c).acceptor

/-- Does what a request asks for. -/
def handle (s : AcceptorService) : AcceptorRequest → Checked (AcceptorService × List Effect)
  | .message (.prepare m) => do
    let (acceptor, answer) ← s.acceptor.prepare m
    return ({ s with acceptor },
      answer.toList.map fun (promise, target) => .send (.unicast target (.promise promise)))
  | .message (.accept m) =>
    let (acceptor, answer) := s.acceptor.accept m
    .ok ({ s with acceptor }, answer.toList.map fun vote => .send (.broadcast (.learn vote)))
  | .message _ => .ok (s, [])
  | .setEpochs epochs => .ok ({ s with acceptor := s.acceptor.setEpochs epochs }, [])
  | .handoff slot ticket => do
    let votes ← s.acceptor.votesAbove slot
    let awaiting := if s.released.contains ticket then none else some ticket
    return ({ s with awaiting }, [.snapshot votes])
  | .install votes => .ok ({ s with acceptor := s.acceptor.takeOver votes }, [])
  | .raiseLow slot => .ok ({ s with acceptor := s.acceptor.raiseLow slot }, [])

/-- Handles requests in order, up to one after which it waits; the others stay in the mailbox. -/
def drain (s : AcceptorService) : List AcceptorRequest → Checked (AcceptorService × List Effect)
  | [] => .ok ({ s with mailbox := [] }, [])
  | request :: rest =>
    if s.awaiting.isSome then .ok ({ s with mailbox := request :: rest }, [])
    else do
      let (s, first) ← s.handle request
      let (s, others) ← drain s rest
      return (s, first ++ others)

/-- A request arrives; it is handled at once unless the acceptor waits. -/
def arrive (s : AcceptorService) (request : AcceptorRequest) :
    Checked (AcceptorService × List Effect) :=
  s.drain (s.mailbox ++ [request])

/-- A ticket is released. If the acceptor waits for it, it goes on with its mailbox. -/
def release (s : AcceptorService) (ticket : Nat) : Checked (AcceptorService × List Effect) :=
  let s := { s with released := ticket :: s.released }
  if s.awaiting = some ticket then drain { s with awaiting := none } s.mailbox
  else .ok (s, [])

end AcceptorService

/-- A running acceptor together with somebody who takes its votes and keeps at most one ticket. -/
structure HandoffDesk where
  /-- The running acceptor. -/
  service : AcceptorService
  /-- The ticket that is kept. -/
  held : Option Nat := none
  /-- The next ticket. -/
  nextTicket : Nat := 0
  deriving DecidableEq, Repr

namespace HandoffDesk

/-- A request arrives at the acceptor. -/
def arrive (d : HandoffDesk) (request : AcceptorRequest) : Checked (HandoffDesk × List Effect) := do
  let (service, effects) ← d.service.arrive request
  return ({ d with service }, effects)

/-- Releases the ticket that is kept, if there is one. -/
def release (d : HandoffDesk) : Checked (HandoffDesk × List Effect) :=
  match d.held with
  | none => .ok (d, [])
  | some ticket => do
    let (service, effects) ← d.service.release ticket
    return ({ d with service, held := none }, effects)

/-- Asks for the votes for the slots above `slot`. The ticket is either kept, in place of one kept
before, which is released, or released at once. -/
def handoff (d : HandoffDesk) (slot : Nat) (hold : Bool) : Checked (HandoffDesk × List Effect) := do
  let ticket := d.nextTicket
  let d := { d with nextTicket := ticket + 1 }
  let (d, before) ←
    if hold then do
      let (d, effects) ← d.release
      pure ({ d with held := some ticket }, effects)
    else do
      let (service, effects) ← d.service.release ticket
      pure ({ d with service }, effects)
  let (d, effects) ← d.arrive (.handoff slot ticket)
  return (d, before ++ effects)

end HandoffDesk

end ReplicatedLog
